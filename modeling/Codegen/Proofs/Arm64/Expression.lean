import Codegen.Proofs.Arm64.Fragment
import Codegen.Proofs.Run

/-!
# Integer Expressions on AArch64

The code of an integer expression leaves the value of the expression in `x0`, with
the stack pointer where it was and memory unchanged but for the free part of the
stack.

The left operand of an operator waits on the stack while the right one is
evaluated, so the free part of the stack that an expression needs is known from
its shape (`Tree.stackBytes`), and what the induction carries is a frame: the
bytes outside of that part stay. It gives both halves of the argument for an
operator. The code of the right operand starts sixteen bytes lower, so the saved
word is outside of its part and is still there afterwards (`run_saved`), and the
variables are outside of the whole part, so both operands see the same ones.

`Layout` says what a function is entered with: room on the stack, and variables,
in the frame or elsewhere, that are not in the free part of it.

## Theorems

* `expr_integer`: The code of an integer expression computes its value.
-/

namespace Codegen

/-- The stack that an expression needs. -/
def Tree.stackBytes : Tree → Nat
  | .node _ [t] => t.stackBytes
  | .node _ [l, r] => max l.stackBytes (16 + r.stackBytes)
  | _ => 0
termination_by structural t => t

namespace Arm64

/-- The bytes below the stack pointer. -/
def FreeStack (m : Machine) (bytes : Nat) (a : Word) : Prop :=
  a.toNat < m.sp.toNat ∧ m.sp.toNat ≤ a.toNat + bytes

/-- The variables of a context in memory, with room below the stack pointer. Each
    visible variable of one word holds its value, and none of them lies in the
    free part of the stack. -/
structure Layout (ctx : Context) (symbols : Bytes → Word) (env : Bytes → Int64) (m : Machine)
    (bytes : Nat) : Prop where
  room : bytes ≤ m.sp.toNat
  apart : ∀ name sym, ctx.varNamed? name = some sym → sym.type.rep = .scalar →
    ∀ i < 8, ¬ FreeStack m bytes (place symbols m sym + BitVec.ofNat 64 i)
  bound : ∀ name sym, ctx.varNamed? name = some sym → sym.type.rep = .scalar →
    m.mem.word (place symbols m sym) = (env name).toBitVec

/-- A machine that differs in scratch registers, flags and the free part of the
    stack only. -/
structure Preserves (m m' : Machine) (bytes : Nat) : Prop where
  x : ∀ n, n ∉ scratch → m'.x n = m.x n
  sp : m'.sp = m.sp
  mem : ∀ a, ¬ FreeStack m bytes a → m'.mem a = m.mem a

namespace Preserves

theorem of_keeps {m m' : Machine} (h : Keeps m m') (bytes : Nat) : Preserves m m' bytes :=
  ⟨h.x, h.sp, fun a _ => by rw [h.mem]⟩

theorem trans {m m1 m2 : Machine} {b1 b2 bytes : Nat} (h : Preserves m m1 b1)
    (h' : Preserves m1 m2 b2) (h1 : b1 ≤ bytes) (h2 : b2 ≤ bytes) : Preserves m m2 bytes := by
  refine ⟨fun n hn => (h'.x n hn).trans (h.x n hn), h'.sp.trans h.sp, fun a ha => ?_⟩
  unfold FreeStack at ha
  have hfree2 : ¬ FreeStack m1 b2 a := by
    unfold FreeStack
    rw [h.sp]
    omega
  have hfree1 : ¬ FreeStack m b1 a := by
    unfold FreeStack
    omega
  rw [h'.mem a hfree2, h.mem a hfree1]

end Preserves

theorem place_congr (symbols : Bytes → Word) (m m' : Machine) (sym : Symbol)
    (h : m'.x 29 = m.x 29) : place symbols m' sym = place symbols m sym := by
  unfold place
  rw [h]

/-- Variables stay in place while code uses the free part of the stack, and the
    part that is left is free as long as the stack pointer only goes down. -/
theorem Layout.mono {ctx : Context} {symbols : Bytes → Word} {env : Bytes → Int64}
    {m m' : Machine} {bytes bytes' : Nat} (h : Layout ctx symbols env m bytes)
    (hfp : m'.x 29 = m.x 29) (hmem : ∀ a, ¬ FreeStack m bytes a → m'.mem a = m.mem a)
    (hroom : bytes' ≤ m'.sp.toNat) (hfree : ∀ a, FreeStack m' bytes' a → FreeStack m bytes a) :
    Layout ctx symbols env m' bytes' := by
  refine ⟨hroom, fun name sym hname hrep i hi => ?_, fun name sym hname hrep => ?_⟩
  · rw [place_congr symbols m m' sym hfp]
    exact fun hf => h.apart name sym hname hrep i hi (hfree _ hf)
  · rw [place_congr symbols m m' sym hfp, ← h.bound name sym hname hrep]
    exact Memory.word_congr m.mem m'.mem _
      (fun i hi => hmem _ (h.apart name sym hname hrep i hi))

def pushed (m : Machine) : Machine :=
  { m with sp := m.sp - 16, mem := m.mem.store (m.sp - 16) (m.x 0) }

theorem run_push (symbols : Bytes → Word) (m : Machine) :
    run? symbols (push .scalar) m = some (pushed m) := rfl

theorem toNat_pushed (m : Machine) (h : 16 ≤ m.sp.toNat) :
    (pushed m).sp.toNat = m.sp.toNat - 16 := by
  unfold pushed
  bv_omega

theorem mem_pushed (m : Machine) (h : 16 ≤ m.sp.toNat) (a : Word) (ha : ¬ FreeStack m 16 a) :
    (pushed m).mem a = m.mem a := by
  refine Memory.store_apart m.mem (m.sp - 16) (m.x 0) a ?_
  unfold FreeStack at ha
  bv_omega

/-- A value saved on the stack outlives other code. -/
theorem run_saved (symbols : Bytes → Word) (m m' : Machine) (c : Code) (bytes : Nat)
    (hroom : 16 + bytes ≤ m.sp.toNat) (hrun : run? symbols c (pushed m) = some m')
    (hpres : Preserves (pushed m) m' bytes) :
    ∃ m'', run? symbols (push .scalar ++ c ++ pop .scalar 1) m = some m'' ∧
      m''.x 1 = m.x 0 ∧ m''.x 0 = m'.x 0 ∧ Preserves m m'' (16 + bytes) := by
  have hsp := toNat_pushed m (by omega)
  -- The saved word lies just above what the code may use.
  have hword : m'.mem.word m'.sp = m.x 0 := by
    rw [hpres.sp]
    calc m'.mem.word (pushed m).sp = (pushed m).mem.word (pushed m).sp := by
          refine Memory.word_congr _ _ _ (fun i hi => hpres.mem _ ?_)
          unfold FreeStack
          bv_omega
      _ = m.x 0 := Memory.word_store m.mem (m.sp - 16) (m.x 0)
  refine ⟨{ m' with sp := m'.sp + 16, x := fun k => if k = 1 then m'.mem.word m'.sp else m'.x k },
    ?_, hword, rfl, ⟨fun n hn => ?_, ?_, fun a ha => ?_⟩⟩
  · rw [run_append, run_append, run_push, Option.bind_some, hrun]
    rfl
  · have hne : n ≠ 1 := fun h1 => hn (h1 ▸ by decide)
    simp only [if_neg hne]
    exact hpres.x n hn
  · simp only [hpres.sp]
    bv_omega
  · unfold FreeStack at ha
    have hbelow : ¬ FreeStack (pushed m) bytes a := by
      unfold FreeStack
      omega
    have htaken : ¬ FreeStack m 16 a := by
      unfold FreeStack
      omega
    exact (hpres.mem a hbelow).trans (mem_pushed m (by omega) a htaken)

/-- A binary operator on words adds its code to that of the operands. -/
theorem ends_combine (p : Payload) (op : BinaryOp) (lt rt : Ty) (l r : Code) (out : Output)
    (ctx : Context) (hop : BinaryOp.ofText? p.op = some op) (hl : lt ≠ .decimal)
    (hr : rt ≠ .decimal) :
    Ends (combine p lt rt l r) out ctx
      (l ++ (push .scalar ++ r ++ pop .scalar 1) ++ operatorCode op, .scalar) out ctx := by
  unfold combine
  rw [hop]
  cases op with
  | logic =>
    simp only [List.append_assoc]
    exact ends_pure
  | arith | compare =>
    simp only [hl, hr, List.append_assoc]
    exact ends_pure

/-- So does a unary operator. -/
theorem ends_applyUnary (p : Payload) (type : Ty) (c : Code) (out : Output) (ctx : Context)
    (hop : p.op = "-" ∨ p.op = "not") (ht : type ≠ .decimal) :
    ∃ d, Ends (applyUnary p type c .scalar) out ctx (c ++ d, .scalar) out ctx ∧
      ∀ (symbols : Bytes → Word) (a : Int64) (m : Machine), m.x 0 = a.toBitVec →
        ∃ m', run? symbols d m = some m' ∧ Keeps m m' ∧
          m'.x 0 = (if p.op = "not" then truthWord (a = 0) else -a).toBitVec := by
  unfold applyUnary
  by_cases hn : p.op = "not"
  · simp only [hn, if_true]
    refine ⟨_, ends_pure, fun symbols a m ha => ?_⟩
    refine ⟨_, rfl, ((Keeps.refl m).flags _).set 0 _ (by decide), ?_⟩
    change (if Cond.eq.holds (.compare (m.x 0) (BitVec.ofNat 64 0)) = true then (1 : Word) else 0)
      = _
    rw [ha, toBitVec_truthWord, show Cond.eq.holds (.compare a.toBitVec (BitVec.ofNat 64 0))
      = decide (a = 0) from holds_compareCond .eq a 0]
  · have hm : p.op = "-" := hop.resolve_right hn
    simp only [hm, ht]
    refine ⟨_, ends_pure, fun symbols a m ha => ?_⟩
    refine ⟨_, rfl, (Keeps.refl m).set 0 _ (by decide), ?_⟩
    change -(m.x 0) = _
    rw [ha]
    rfl

/-- Code that computes the value of a tree wherever variables and stack are laid
    out for it. -/
def Computes (ctx : Context) (t : Tree) (c : Code) : Prop :=
  ∀ (symbols : Bytes → Word) (env : Bytes → Int64) (m : Machine),
    Layout ctx symbols env m t.stackBytes →
    ∃ v m', t.evaluate Arith.wrap? env = some v ∧ run? symbols c m = some m' ∧
      m'.x 0 = v.toBitVec ∧ Preserves m m' t.stackBytes

theorem computes_ident (ctx : Context) (p : Payload) (ts : List Tree) (sym : Symbol)
    (hkind : p.kind = .ident) (hname : ctx.varNamed? p.name = some sym)
    (hrep : sym.type.rep = .scalar) : Computes ctx (.node p ts) (load sym) := by
  intro symbols env m hlayout
  rcases run_load symbols sym m hrep with ⟨m', hrun, hx, hkeep⟩
  refine ⟨env p.name, m', Tree.evaluate_ident _ env p ts hkind, hrun, ?_, .of_keeps hkeep _⟩
  rw [hx, hlayout.bound p.name sym hname hrep]

theorem computes_binary (ctx : Context) (p : Payload) (l r : Tree) (op : BinaryOp) (cl cr : Code)
    (hkind : p.kind = .binary) (hop : BinaryOp.ofText? p.op = some op)
    (hl : Computes ctx l cl) (hr : Computes ctx r cr) :
    Computes ctx (.node p [l, r])
      (cl ++ (push .scalar ++ cr ++ pop .scalar 1) ++ operatorCode op) := by
  intro symbols env m hlayout
  have hbytes : (Tree.node p [l, r]).stackBytes = max l.stackBytes (16 + r.stackBytes) := rfl
  have hroom := hlayout.room
  -- The left operand uses a part of the stack that the whole expression has.
  have hlayoutL : Layout ctx symbols env m l.stackBytes := by
    refine hlayout.mono rfl (fun _ _ => rfl) (by omega) (fun a ha => ?_)
    unfold FreeStack at ha ⊢
    omega
  rcases hl symbols env m hlayoutL with ⟨a, m1, hevalL, hrunL, hx1, hpres1⟩
  have hroom1 : 16 + r.stackBytes ≤ m1.sp.toNat := by
    rw [hpres1.sp]
    omega
  have hsp := toNat_pushed m1 (by omega)
  -- The right operand starts below the saved word.
  have hlayoutR : Layout ctx symbols env (pushed m1) r.stackBytes := by
    refine hlayout.mono (hpres1.x 29 (by decide)) (fun b hb => ?_) (by omega) (fun b hb => ?_)
    · unfold FreeStack at hb
      have htaken : ¬ FreeStack m1 16 b := by
        unfold FreeStack
        rw [hpres1.sp]
        omega
      have hleft : ¬ FreeStack m l.stackBytes b := by
        unfold FreeStack
        omega
      rw [mem_pushed m1 (by omega) b htaken, hpres1.mem b hleft]
    · unfold FreeStack at hb ⊢
      rw [hsp, hpres1.sp] at hb
      omega
  rcases hr symbols env (pushed m1) hlayoutR with ⟨b, m2, hevalR, hrunR, hx2, hpres2⟩
  rcases run_saved symbols m1 m2 cr r.stackBytes hroom1 hrunR hpres2 with
    ⟨m3, hrun3, hsaved, hkept, hpres3⟩
  rcases run_operatorCode symbols op a b m3 (hsaved.trans hx1) (hkept.trans hx2) with
    ⟨v, hvalue, m4, hrun4, hx4, hkeep4⟩
  refine ⟨v, m4, ?_, ?_, hx4, ?_⟩
  · rw [Tree.evaluate_binary _ env p l r op hkind hop, hevalL, hevalR]
    exact hvalue
  · rw [run_append, run_append, hrunL, Option.bind_some, hrun3, Option.bind_some, hrun4]
  · exact (hpres1.trans hpres3 (Nat.le_max_left _ _) (Nat.le_max_right _ _)).trans
      (.of_keeps hkeep4 0) (Nat.le_refl _) (Nat.zero_le _)

theorem lowers_integerTree (flavor : Flavor) (out : Output) (ctx : Context) (t : Tree)
    (h : IntegerTree ctx t) :
    ∃ c, Ends (expr flavor (.ofTree t)) out ctx (c, .scalar) out ctx ∧ Computes ctx t c := by
  induction h with
  | integer p ts kind =>
    rw [Term.ofTree_node p ts (by simp [kind]) (by simp [kind]), expr.eq_def]
    simp only [kind]
    refine ⟨_, ends_pure, fun symbols env m hlayout => ?_⟩
    exact ⟨p.integer, _, Tree.evaluate_integer _ env p ts kind,
      run_loadImm symbols 0 p.integer m, rfl, .of_keeps ((Keeps.refl m).set 0 _ (by decide)) _⟩
  | boolean p ts kind =>
    rw [Term.ofTree_node p ts (by simp [kind]) (by simp [kind]), expr.eq_def]
    simp only [kind]
    refine ⟨_, ends_pure, fun symbols env m hlayout => ?_⟩
    refine ⟨truthWord p.boolean, _, Tree.evaluate_boolean _ env p ts kind, rfl, ?_,
      .of_keeps ((Keeps.refl m).set 0 _ (by decide)) _⟩
    cases p.boolean <;> rfl
  | ident p ts sym kind _ named scalar =>
    refine ⟨load sym, ?_, computes_ident ctx p ts sym kind named scalar⟩
    rw [Term.ofTree_node p ts (by simp [kind]) (by simp [kind]), expr.eq_def]
    simp only [kind]
    refine ends_bind ends_context ?_
    simp only [named, scalar]
    exact ends_pure
  | binary p l r op kind _ named left right ihl ihr =>
    rcases ihl with ⟨cl, hendsL, hcl⟩
    rcases ihr with ⟨cr, hendsR, hcr⟩
    rcases typeOf_integerTree ctx l left with ⟨lt, hlt, hls, hld⟩
    rcases typeOf_integerTree ctx r right with ⟨rt, hrt, hrs, hrd⟩
    refine ⟨_, ?_, computes_binary ctx p l r op cl cr kind named hcl hcr⟩
    rw [Term.ofTree_node p _ (by simp [kind]) (by simp [kind]), expr.eq_def]
    simp only [kind]
    refine ends_bind (ends_typeOf hlt) (ends_bind (ends_typeOf hrt) ?_)
    simp only [hls, hrs]
    exact ends_bind hendsL (ends_bind hendsR (ends_combine p op lt rt cl cr out ctx named hld hrd))
  | unary p t kind _ named operand ih =>
    rcases ih with ⟨c, hends, hc⟩
    rcases typeOf_integerTree ctx t operand with ⟨ty, hty, hs, hd⟩
    rcases ends_applyUnary p ty c out ctx named hd with ⟨d, hendsU, hrunU⟩
    refine ⟨c ++ d, ?_, fun symbols env m hlayout => ?_⟩
    · rw [Term.ofTree_node p _ (by simp [kind]) (by simp [kind]), expr.eq_def]
      simp only [kind]
      exact ends_bind (ends_typeOf hty) (ends_bind hends hendsU)
    · rcases hc symbols env m hlayout with ⟨a, m1, heval, hrun, hx, hpres⟩
      rcases hrunU symbols a m1 hx with ⟨m2, hrun2, hkeep, hx2⟩
      refine ⟨_, m2, ?_, ?_, hx2,
        hpres.trans (.of_keeps hkeep 0) (Nat.le_refl _) (Nat.zero_le _)⟩
      · rw [Tree.evaluate_unary _ env p t kind, heval]
        rfl
      · rw [run_append, hrun, Option.bind_some, hrun2]

/-- Lowering an integer expression always ends, records nothing, and yields code that
    computes the value of the expression from every machine in which the variables
    and the stack are laid out. The code leaves the value in `x0`, the stack pointer
    and every register that is not scratch as they were, every byte at or above the
    stack pointer as it was, and below it every byte that is not in the free part of
    the stack, which leaves every variable as it was. -/
theorem expr_integer (flavor : Flavor) (out : Output) (ctx : Context) (t : Tree)
    (h : IntegerTree ctx t) :
    ∃ c, Ends (expr flavor (.ofTree t)) out ctx (c, .scalar) out ctx ∧
      ∀ (symbols : Bytes → Word) (env : Bytes → Int64) (m : Machine),
        Layout ctx symbols env m t.stackBytes →
        ∃ v m', t.evaluate Arith.wrap? env = some v ∧ run? symbols c m = some m' ∧
          m'.x 0 = v.toBitVec ∧ m'.sp = m.sp ∧ (∀ n, n ∉ scratch → m'.x n = m.x n) ∧
          (∀ a : Word, m.sp.toNat ≤ a.toNat → m'.mem a = m.mem a) ∧
          (∀ a : Word, ¬ FreeStack m t.stackBytes a → m'.mem a = m.mem a) ∧
          (∀ name sym, ctx.varNamed? name = some sym → sym.type.rep = .scalar →
            m'.mem.word (place symbols m' sym) = m.mem.word (place symbols m sym)) := by
  rcases lowers_integerTree flavor out ctx t h with ⟨c, hends, hc⟩
  refine ⟨c, hends, fun symbols env m hlayout => ?_⟩
  rcases hc symbols env m hlayout with ⟨v, m', heval, hrun, hx, hpres⟩
  refine ⟨v, m', heval, hrun, hx, hpres.sp, hpres.x, fun a ha => hpres.mem a ?_, hpres.mem, ?_⟩
  · unfold FreeStack
    omega
  · intro name sym hname hrep
    rw [place_congr symbols m m' sym (hpres.x 29 (by decide))]
    exact Memory.word_congr _ _ _ (fun i hi => hpres.mem _ (hlayout.apart name sym hname hrep i hi))

namespace Sample

/-- A machine with a frame in which the variable of the frame is five, and with zeros
    everywhere else. -/
def machine : Machine :=
  { x := fun n => if n = 29 then 0x9000 else 0
    sp := 0x7000
    flags := ⟨false, false, false, false⟩
    mem := Memory.store (fun _ => 0) (0x9000 - BitVec.ofInt 64 (slotOffset 600)) 5 }

def symbols : Bytes → Word := fun _ => 0x100000

def env : Bytes → Int64 := fun name => if name = "x" then 5 else 0

theorem layout : Layout Codegen.Sample.context symbols env machine Codegen.Sample.tree.stackBytes := by
  refine ⟨by decide, fun name sym hname _ i hi => ?_, fun name sym hname _ => ?_⟩
  · unfold FreeStack
    rcases Codegen.Sample.varNamed name sym hname with ⟨_, rfl⟩ | ⟨_, rfl⟩
    · revert i
      decide
    · revert i
      decide
  · rcases Codegen.Sample.varNamed name sym hname with ⟨rfl, rfl⟩ | ⟨rfl, rfl⟩
    · decide
    · decide

end Sample

/-- The quotient by zero is zero, and the code of `70000 - x / g` goes on with it. -/
theorem expr_integer_quotient :
    ∃ c, Ends (expr .linux (.ofTree Codegen.Sample.tree)) {} Codegen.Sample.context (c, .scalar) {}
        Codegen.Sample.context ∧
      ∃ m', run? Sample.symbols c Sample.machine = some m' ∧ m'.x 0 = 70000 ∧ m'.sp = 0x7000 := by
  rcases expr_integer .linux {} Codegen.Sample.context Codegen.Sample.tree
    Codegen.Sample.integerTree with ⟨c, hends, hc⟩
  rcases hc Sample.symbols Sample.env Sample.machine Sample.layout with
    ⟨v, m', heval, hrun, hx, hsp, _⟩
  have hv : Codegen.Sample.tree.evaluate Arith.wrap? Sample.env = some 70000 := by decide
  refine ⟨c, hends, m', hrun, ?_, hsp⟩
  rw [hx, ← Option.some.inj (hv.symm.trans heval)]
  rfl

end Arm64

end Codegen
