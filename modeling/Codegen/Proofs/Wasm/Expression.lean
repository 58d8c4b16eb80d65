import Codegen.Proofs.Expression
import Codegen.Proofs.Run
import Codegen.Proofs.Wasm.Machine
import Codegen.Wasm.Lower

/-!
# Integer Expressions on WebAssembly

The code of an integer expression pushes the value of the expression on the operand
stack, and traps where the expression has no value. Both are one equation
(`outcome`): a run of the code ends as the evaluation of the expression does, and
never because the code is invalid.

The equation is for every stack, which is all that the induction needs. Code only
ever works on top of what it finds, so the right operand runs above the value of
the left one. A trap in the left operand ends the run before the right one begins,
as it ends the evaluation.

Comparisons leave a cell of 32 bits and everything else works on cells of 64, so
every truth value is widened at once. The operands of `and` and `or` are made zero
or one before they are joined (`run_truth`).

## Theorems

* `expr_trapping`: The code of an integer expression ends as its evaluation does.
-/

namespace Codegen.Wasm

/-- The value of the cell that a variable is stored in. -/
def Machine.cell (m : Machine) (sym : Symbol) : Int64 :=
  if sym.global then m.globals sym.storage else m.locals sym.slot.toNat

/-- The values of variables. -/
def Machine.env (m : Machine) (ctx : Context) (name : Bytes) : Int64 :=
  ((ctx.varNamed? name).map m.cell).getD 0

/-- How a run ends. -/
def outcome (m : Machine) : Option Int64 → Except Stop Machine
  | some v => .ok (m.push (.i64 v))
  | none => .error .trap

/-- Code that ends as the evaluation of a tree does. -/
def Evaluates (ctx : Context) (t : Tree) (c : Code) : Prop :=
  ∀ m : Machine, run c m = outcome m (t.evaluate Arith.eval? (m.env ctx))

theorem tdiv_eq_limit (a b : Int64) (hb : b.toInt ≠ 0) :
    a.toInt.tdiv b.toInt = 2 ^ 63 ↔ a = Int64.minValue ∧ b = -1 := by
  have ha := Int64.le_toInt a
  have ha' := Int64.toInt_lt a
  constructor
  · intro h
    have habs : a.toInt.natAbs / b.toInt.natAbs = 2 ^ 63 := by
      have hnat := Int.natAbs_tdiv a.toInt b.toInt
      rw [h] at hnat
      exact hnat.symm
    have hone : b.toInt.natAbs = 1 := by
      by_cases htwo : 2 ≤ b.toInt.natAbs
      · have h2 : a.toInt.natAbs / b.toInt.natAbs ≤ a.toInt.natAbs / 2 :=
          Nat.div_le_div_left htwo (by omega)
        omega
      · omega
    rw [hone] at habs
    have hmin : a.toInt = -2 ^ 63 := by omega
    have hneg : b.toInt = -1 := by
      rcases Int.natAbs_eq b.toInt with hpos | hneg
      · rw [hpos, hone, hmin] at h
        exact absurd h (by decide)
      · omega
    exact ⟨Int64.toInt_inj.mp hmin, Int64.toInt_inj.mp hneg⟩
  · rintro ⟨rfl, rfl⟩
    decide

/-- Division traps where the quotient has no value. -/
theorem quotient_eq (a b : Int64) :
    quotient a b = (Arith.div.eval? a b).elim (.error .trap) .ok := by
  have hzero : b.toInt = 0 ↔ b = 0 := Int64.toInt_inj (y := 0)
  have hdiv : Int64.ofInt (a.toInt.tdiv b.toInt) = a / b := by
    apply Int64.toInt_inj.mp
    rw [Int64.toInt_ofInt, Int64.toInt_div]
  unfold quotient Arith.eval?
  by_cases hb : b.toInt = 0
  · rw [if_pos hb]
    simp [hzero.mp hb]
  · have hb' : b ≠ 0 := fun h => hb (hzero.mpr h)
    by_cases hq : a.toInt.tdiv b.toInt = 2 ^ 63
    · rcases (tdiv_eq_limit a b hb).mp hq with ⟨hmin, hneg⟩
      simp only [hmin, hneg]
      rfl
    · have hno : ¬ (a = Int64.minValue ∧ b = -1) := fun h => hq ((tdiv_eq_limit a b hb).mpr h)
      rw [if_neg hb, if_neg hq, hdiv]
      simp [hb', hno]

/-- So does the remainder. -/
theorem remainder_eq (a b : Int64) :
    remainder a b = (Arith.rem.eval? a b).elim (.error .trap) .ok := by
  have hzero : b.toInt = 0 ↔ b = 0 := Int64.toInt_inj (y := 0)
  have hmod : Int64.ofInt (a.toInt.tmod b.toInt) = a % b := by
    rw [← Int64.toInt_mod, Int64.ofInt_toInt]
  unfold remainder Arith.eval?
  by_cases hb : b.toInt = 0
  · rw [if_pos hb, if_pos (hzero.mp hb)]
    rfl
  · have hb' : b ≠ 0 := fun h => hb (hzero.mpr h)
    rw [if_neg hb, if_neg hb', hmod]
    rfl

/-- Two operands and an operation on them. -/
theorem run_operands (cl cr c : Code) (l r : Option Int64) (f : Int64 → Int64 → Option Int64)
    (m : Machine) (hl : run cl m = outcome m l)
    (hr : ∀ a, run cr (m.push (.i64 a)) = outcome (m.push (.i64 a)) r)
    (hc : ∀ a b, run c ((m.push (.i64 a)).push (.i64 b)) = outcome m (f a b)) :
    run (cl ++ cr ++ c) m = outcome m (l.bind fun a => r.bind fun b => f a b) := by
  rw [run_append, run_append, hl]
  cases l with
  | none => rfl
  | some a =>
    simp only [outcome, Except.bind]
    rw [hr a]
    cases r with
    | none => rfl
    | some b => exact hc a b

theorem apply_compareOp (op : Compare) (a b : Int64) (s : List Cell) :
    (compareOp op).apply (.i64 b :: .i64 a :: s) = .ok (.truth (op.holds a b) :: s) := by
  cases op <;>
    simp only [compareOp, NumOp.apply, Compare.holds, ne_eq, Int64.lt_iff_toInt_lt,
      Int64.le_iff_toInt_le, ← Int64.toInt_inj]

theorem run_extend (b : Bool) (m : Machine) :
    run [.num .extendU] (m.push (.truth b)) = .ok (m.push (.i64 (truthWord b))) := by
  cases b <;> rfl

theorem run_compare (op : Compare) (a b : Int64) (m : Machine) :
    run [.num (compareOp op), .num .extendU] ((m.push (.i64 a)).push (.i64 b))
      = .ok (m.push (.i64 (truthWord (op.holds a b)))) := by
  change Except.bind (Except.map _ ((compareOp op).apply (.i64 b :: .i64 a :: m.stack))) _ = _
  rw [apply_compareOp]
  exact run_extend (op.holds a b) m

theorem run_truth (a : Int64) (m : Machine) :
    run (truth ++ [.num .extendU]) (m.push (.i64 a)) = .ok (m.push (.i64 (truthWord (a ≠ 0)))) :=
  run_compare .ne a 0 m

theorem run_normalized (c : Code) (o : Option Int64) (m : Machine) (h : run c m = outcome m o) :
    run (c ++ truth ++ [.num .extendU]) m = outcome m (o.map fun a => truthWord (a ≠ 0)) := by
  rw [List.append_assoc, run_append, h]
  cases o with
  | none => rfl
  | some a => exact run_truth a m

theorem run_integerOp (op : BinaryOp) (c : Code) (hc : integerOp? op = some c) (a b : Int64)
    (m : Machine) :
    run c ((m.push (.i64 a)).push (.i64 b)) = outcome m (op.value? Arith.eval? a b) := by
  cases op with
  | arith op =>
    rw [← Option.some.inj hc]
    cases op with
    | add => rfl
    | sub => rfl
    | mul => rfl
    | div =>
      change Except.bind (Except.map _ (Except.map _ (quotient a b))) _ = _
      rw [quotient_eq]
      simp only [BinaryOp.value?]
      cases Arith.div.eval? a b <;> rfl
    | rem =>
      change Except.bind (Except.map _ (Except.map _ (remainder a b))) _ = _
      rw [remainder_eq]
      simp only [BinaryOp.value?]
      cases Arith.rem.eval? a b <;> rfl
  | compare op =>
    rw [← Option.some.inj hc]
    exact run_compare op a b m
  | logic => exact absurd hc (by simp [integerOp?])

def joinOp : Logic → NumOp
  | .and => .and
  | .or => .or

theorem run_join (op : Logic) (a b : Int64) (m : Machine) :
    run [.num (joinOp op)] ((m.push (.i64 (truthWord (a ≠ 0)))).push (.i64 (truthWord (b ≠ 0))))
      = outcome m (some (truthWord (op.join a b))) := by
  cases op <;> simp only [Logic.join] <;> cases decide (a ≠ 0) <;> cases decide (b ≠ 0) <;> rfl

theorem ends_combine (p : Payload) (op : BinaryOp) (lt rt : Ty) (cl cr : Code)
    (left right : Emit (Code × Rep)) (out : Output) (ctx : Context)
    (hop : BinaryOp.ofText? p.op = some op) (hls : lt.rep = .scalar) (hrs : rt.rep = .scalar)
    (hld : lt ≠ .decimal) (hrd : rt ≠ .decimal) (hl : Ends left out ctx (cl, .scalar) out ctx)
    (hr : Ends right out ctx (cr, .scalar) out ctx) :
    ∃ c, Ends (combine p lt rt left right) out ctx (c, 1) out ctx ∧
      ∀ (m : Machine) (l r : Option Int64), run cl m = outcome m l →
        (∀ a, run cr (m.push (.i64 a)) = outcome (m.push (.i64 a)) r) →
        run c m = outcome m (l.bind fun a => r.bind fun b => op.value? Arith.eval? a b) := by
  unfold combine
  simp only [hls, hrs, hop]
  cases op with
  | logic op =>
    refine ⟨cl ++ truth ++ [.num .extendU] ++ cr ++ truth ++ [.num .extendU]
      ++ [.num (joinOp op)], ends_bind hl (ends_bind hr ends_pure),
      fun m l r hrunL hrunR => ?_⟩
    -- Both operands are normalized, the right one on top of the left one.
    have hnormL := run_normalized cl l m hrunL
    have hnormR := fun a => run_normalized cr r (m.push (.i64 a)) (hrunR a)
    have hcode : cl ++ truth ++ [.num .extendU] ++ cr ++ truth ++ [.num .extendU]
        ++ [.num (joinOp op)] = (cl ++ truth ++ [.num .extendU])
        ++ ((cr ++ truth ++ [.num .extendU]) ++ [.num (joinOp op)]) := by
      simp
    rw [hcode, run_append, hnormL]
    cases l with
    | none => rfl
    | some a =>
      simp only [Option.map_some, outcome, Except.bind]
      rw [run_append, hnormR]
      cases r with
      | none => rfl
      | some b => exact run_join op a b m
  | arith op =>
    simp only [hld, hrd]
    refine ⟨_, ends_bind hl (ends_bind hr ends_pure), fun m l r hrunL hrunR => ?_⟩
    exact run_operands cl cr _ l r _ m hrunL hrunR
      (fun a b => run_integerOp (.arith op) _ rfl a b m)
  | compare op =>
    simp only [hld, hrd]
    refine ⟨_, ends_bind hl (ends_bind hr ends_pure), fun m l r hrunL hrunR => ?_⟩
    exact run_operands cl cr _ l r _ m hrunL hrunR
      (fun a b => run_integerOp (.compare op) _ rfl a b m)

theorem run_eqz (a : Int64) (m : Machine) :
    run [.num .eqz, .num .extendU] (m.push (.i64 a)) = .ok (m.push (.i64 (truthWord (a = 0)))) := by
  have hzero : decide (a.toInt = 0) = decide (a = 0) := by
    rw [decide_eq_decide]
    exact Int64.toInt_inj (y := 0)
  rw [← hzero]
  exact run_extend (decide (a.toInt = 0)) m

theorem ends_applyUnary (p : Payload) (type : Ty) (c : Code) (operand : Emit (Code × Rep))
    (out : Output) (ctx : Context) (hop : p.op = "-" ∨ p.op = "not") (hs : type.rep = .scalar)
    (hd : type ≠ .decimal) (hc : Ends operand out ctx (c, .scalar) out ctx) :
    ∃ d, Ends (applyUnary p type operand) out ctx (d, 1) out ctx ∧
      ∀ (m : Machine) (o : Option Int64),
        (∀ s, run c { m with stack := s } = outcome { m with stack := s } o) →
        run d m = outcome m (o.map fun a => if p.op = "not" then truthWord (a = 0) else -a) := by
  unfold applyUnary
  by_cases hn : p.op = "not"
  · simp only [hn]
    refine ⟨_, ends_bind hc ends_pure, fun m o hrun => ?_⟩
    rw [run_append, hrun m.stack]
    cases o with
    | none => rfl
    | some a => exact run_eqz a m
  · have hm : p.op = "-" := hop.resolve_right hn
    simp only [hm, hd, hs]
    refine ⟨_, ends_bind hc ends_pure, fun m o hrun => ?_⟩
    -- The operand runs above the zero that it is taken from.
    change run (c ++ _) (m.push (.i64 0)) = _
    rw [run_append, show m.push (.i64 0) = { m with stack := .i64 0 :: m.stack } from rfl, hrun]
    cases o with
    | none => rfl
    | some a =>
      change Except.ok (m.push (.i64 (0 - a))) = _
      rfl

theorem lowers_integerTree (scratch : Nat) (out : Output) (ctx : Context) (t : Tree)
    (h : IntegerTree ctx t) :
    ∃ c, Ends (expr scratch (.ofTree t)) out ctx (c, 1) out ctx ∧ Evaluates ctx t c := by
  induction h with
  | integer p ts kind =>
    rw [Term.ofTree_node p ts (by simp [kind]) (by simp [kind]), expr.eq_def]
    simp only [kind]
    refine ⟨_, ends_pure, fun m => ?_⟩
    rw [Tree.evaluate_integer _ _ p ts kind]
    change Except.ok (m.push (.i64 (Int64.ofInt p.integer.toInt))) = _
    rw [Int64.ofInt_toInt]
    rfl
  | boolean p ts kind =>
    rw [Term.ofTree_node p ts (by simp [kind]) (by simp [kind]), expr.eq_def]
    simp only [kind]
    refine ⟨_, ends_pure, fun m => ?_⟩
    rw [Tree.evaluate_boolean _ _ p ts kind]
    cases p.boolean <;> rfl
  | ident p ts sym kind _ named scalar =>
    rw [Term.ofTree_node p ts (by simp [kind]) (by simp [kind]), expr.eq_def]
    simp only [kind]
    refine ⟨load sym, ?_, fun m => ?_⟩
    · refine ends_bind ends_context ?_
      simp only [named, scalar]
      exact ends_pure
    · rw [Tree.evaluate_ident _ _ p ts kind]
      simp only [Machine.env, named, Option.map_some, load, scalar, Machine.cell]
      cases sym.global <;> rfl
  | binary p l r op kind _ named left right ihl ihr =>
    rcases ihl with ⟨cl, hendsL, hcl⟩
    rcases ihr with ⟨cr, hendsR, hcr⟩
    rcases typeOf_integerTree ctx l left with ⟨lt, hlt, hls, hld⟩
    rcases typeOf_integerTree ctx r right with ⟨rt, hrt, hrs, hrd⟩
    rcases ends_combine p op lt rt cl cr (settle <$> expr scratch (.ofTree l))
      (settle <$> expr scratch (.ofTree r)) out ctx named hls hrs hld hrd
      (ends_map settle hendsL) (ends_map settle hendsR) with ⟨c, hends, hrun⟩
    refine ⟨c, ?_, fun m => ?_⟩
    · rw [Term.ofTree_node p _ (by simp [kind]) (by simp [kind]), expr.eq_def]
      simp only [kind]
      exact ends_bind (ends_typeOf hlt) (ends_bind (ends_typeOf hrt) hends)
    · rw [hrun m _ (r.evaluate Arith.eval? (m.env ctx)) (hcl m) (fun a => hcr (m.push (.i64 a))),
        Tree.evaluate_binary _ _ p l r op kind named]
  | unary p t kind _ named operand ih =>
    rcases ih with ⟨c, hends, hc⟩
    rcases typeOf_integerTree ctx t operand with ⟨ty, hty, hs, hd⟩
    rcases ends_applyUnary p ty c (settle <$> expr scratch (.ofTree t)) out ctx named hs hd
      (ends_map settle hends) with ⟨d, hendsU, hrunU⟩
    refine ⟨d, ?_, fun m => ?_⟩
    · rw [Term.ofTree_node p _ (by simp [kind]) (by simp [kind]), expr.eq_def]
      simp only [kind]
      exact ends_bind (ends_typeOf hty) hendsU
    · rw [hrunU m (t.evaluate Arith.eval? (m.env ctx)) (fun s => hc { m with stack := s }),
        Tree.evaluate_unary _ _ p t kind]

/-- Lowering an integer expression always ends, records nothing, and yields code that
    counts as one cell. On every machine the code traps exactly when the evaluation of
    the expression from left to right does, and otherwise ends with the value in one
    cell of 64 bits on top of the stack that it found, and with locals and globals as
    they were. -/
theorem expr_trapping (scratch : Nat) (out : Output) (ctx : Context) (t : Tree)
    (h : IntegerTree ctx t) :
    ∃ c, Ends (expr scratch (.ofTree t)) out ctx (c, 1) out ctx ∧
      ∀ m : Machine,
        (run c m = .error .trap ↔ t.evaluate Arith.eval? (m.env ctx) = none) ∧
        ∀ v, t.evaluate Arith.eval? (m.env ctx) = some v →
          run c m = .ok { m with stack := .i64 v :: m.stack } := by
  rcases lowers_integerTree scratch out ctx t h with ⟨c, hends, hc⟩
  refine ⟨c, hends, fun m => ⟨?_, fun v hv => ?_⟩⟩
  · rw [hc m]
    cases t.evaluate Arith.eval? (m.env ctx) with
    | none => exact ⟨fun _ => rfl, fun _ => rfl⟩
    | some => simp [outcome]
  · rw [hc m, hv]
    rfl

/-- The code of `70000 - x / g` traps where `g` is zero, and pushes a value where it
    is not. -/
theorem expr_trapping_quotient :
    ∃ c, Ends (expr 0 (.ofTree Sample.tree)) {} Sample.context (c, 1) {} Sample.context ∧
      run c ⟨[], fun _ => 5, fun _ => 0⟩ = .error .trap ∧
      ∃ m', run c ⟨[.i32 1], fun _ => 5, fun _ => 2⟩ = .ok m' ∧ m'.stack = [.i64 69998, .i32 1] := by
  rcases expr_trapping 0 {} Sample.context Sample.tree Sample.integerTree with ⟨c, hends, hc⟩
  refine ⟨c, hends, (hc ⟨[], fun _ => 5, fun _ => 0⟩).1.mpr (by decide), _,
    (hc ⟨[.i32 1], fun _ => 5, fun _ => 2⟩).2 69998 (by decide), rfl⟩

end Codegen.Wasm
