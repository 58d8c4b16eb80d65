import Codegen.Proofs.Arm64.Fragment
import Codegen.Proofs.Normal
import Codegen.Proofs.Run
import Codegen.Proofs.Wasm.Expression

/-!
# Arithmetic on Constants

Arithmetic is done in three places: by the optimizer on literals, and by the code of both
backends. The optimizer declines where WebAssembly traps, and everywhere else all three have the
same result. So whether an operation is left to the target cannot be seen from its value.

Arithmetic on literals is done from the leaves up, and what an operand folds to is a literal
again. So an expression of literals and operators folds to one literal exactly if nothing in it
traps. An operation that traps stays, and so does everything around it.

## Theorems

* `foldedValue_runs`: The optimizer computes what the code of both backends does.
* `optimize_formula`: A pass over a formula.
-/

namespace Codegen

namespace Arith

/-- The exact result on integers. A quotient is rounded toward zero. -/
def exact (op : Arith) (a b : Int) : Int :=
  match op with
  | .add => a + b
  | .sub => a - b
  | .mul => a * b
  | .div => a.tdiv b
  | .rem => a.tmod b

/-- Division by zero, and the quotient that no word can hold. -/
def traps (op : Arith) (a b : Int) : Bool :=
  match op with
  | .div => b = 0 || a = -0x8000000000000000 && b = -1
  | .rem => b = 0
  | _ => false

/-- Arithmetic on words is that on integers, wrapped around. -/
theorem eval?_eq (op : Arith) (a b : Int64) :
    op.eval? a b =
      if op.traps a.toInt b.toInt then none else some (Int64.ofInt (op.exact a.toInt b.toInt)) := by
  have hzero : b.toInt = 0 ↔ b = 0 := Int64.toInt_inj (y := 0)
  have hmin : a.toInt = -0x8000000000000000 ↔ a = Int64.minValue :=
    Int64.toInt_inj (y := Int64.minValue)
  have hneg : b.toInt = -1 ↔ b = -1 := Int64.toInt_inj (y := -1)
  cases op with
  | add => simp [eval?, traps, exact]
  | sub => simp [eval?, traps, exact]
  | mul => simp [eval?, traps, exact]
  | div =>
    have hdiv : Int64.ofInt (a.toInt.tdiv b.toInt) = a / b := by
      rw [← Int64.toInt_inj, Int64.toInt_ofInt, Int64.toInt_div]
    simp [eval?, traps, exact, hzero, hmin, hneg, hdiv]
  | rem =>
    simp [eval?, traps, exact, hzero, ← Int64.toInt_mod]

theorem wrap_of_eval? {op : Arith} {a b v : Int64} (h : op.eval? a b = some v) :
    op.wrap a b = v := by
  cases op with
  | div | rem =>
    simp only [eval?] at h
    split at h
    · cases h
    · exact Option.some.inj h
  | _ => exact Option.some.inj h

theorem ofText?_text (op : Arith) :
    BinaryOp.ofText? (BinaryOp.arith op).text = some (.arith op) := by
  cases op <;> decide

end Arith

/-- An operator and two words. Both backends have code for the operator, and lower the operation
    on the two literals to that code behind its operands. The optimizer has no value for the two
    literals exactly if the code of WebAssembly traps on the two words. A value that it has is what
    the code of both backends leaves. -/
theorem foldedValue_runs (op : Arith) (a b : Int64) (l r : Node) (flavor : Arm64.Flavor)
    (scratch : Nat) (symbols : Bytes → Arm64.Word) (m : Arm64.Machine) (w : Wasm.Machine)
    (ctx : Context) (s : Arm64.Output) (out : Wasm.Output) :
    ∃ c d, let text := (BinaryOp.arith op).text
      let t : Tree := .node { kind := .binary, op := text } [.ofInteger a, .ofInteger b]
      let folded? := Optimize.foldedValue? text { l with kind := .integer, integer := a }
        { r with kind := .integer, integer := b }
      let ended := Wasm.run c ((w.push (.i64 a)).push (.i64 b))
      Ends (Wasm.expr scratch (.ofTree t)) out ctx
        ([.const a.toInt] ++ [.const b.toInt] ++ c, 1) out ctx ∧
      Ends (Arm64.expr flavor (.ofTree t)) s ctx (Arm64.loadImm Arm64.x0 a ++ Arm64.push .scalar
        ++ Arm64.loadImm Arm64.x0 b ++ Arm64.pop .scalar 1 ++ d, .scalar) s ctx ∧
      (folded? = none ↔ ended = .error .trap) ∧
      ∀ v, folded? = some v → ended = .ok (w.push (.i64 v)) ∧
        ∃ m', Arm64.run? symbols d ((m.set Arm64.x1 a.toBitVec).set Arm64.x0 b.toBitVec) = some m' ∧
          m'.get Arm64.x0 = v.toBitVec := by
  refine ⟨[.num (Wasm.arithOp op)], Arm64.arithCode op, ?_, ?_, ?_⟩
  · cases op <;> rfl
  · cases op <;> rfl
  have hfolded : Optimize.foldedValue? (BinaryOp.arith op).text
      { l with kind := .integer, integer := a } { r with kind := .integer, integer := b } =
      op.eval? a b := by
    simp only [Optimize.foldedValue?, op.ofText?_text]
    rfl
  have hrun := Wasm.run_integerOp (.arith op) _ rfl a b w
  rw [BinaryOp.value?] at hrun
  simp only [hfolded, hrun]
  refine ⟨?_, fun v hv => ⟨by rw [hv]; rfl, ?_⟩⟩
  · cases op.eval? a b <;> simp [Wasm.outcome]
  · rcases Arm64.run_arithCode symbols op a b ((m.set Arm64.x1 a.toBitVec).set Arm64.x0 b.toBitVec)
      rfl rfl with ⟨m', hm', hx0, -⟩
    exact ⟨m', hm', by rw [← Arith.wrap_of_eval? hv]; exact hx0⟩

/-- Literals and arithmetic on them. -/
inductive Formula where
  | literal (value : Int64)
  | operation (op : Arith) (left right : Formula)

namespace Formula

/-- A formula as it is read, without types but those that literals have. -/
def tree : Formula → Tree
  | .literal value => .ofInteger value
  | .operation op l r => .node { kind := .binary, op := (BinaryOp.arith op).text } [l.tree, r.tree]

/-- The value of a formula: exact results, wrapped around at each step. -/
def value? : Formula → Option Int64
  | .literal value => some value
  | .operation op l r => do
    let a ← l.value?
    let b ← r.value?
    if op.traps a.toInt b.toInt then none else some (Int64.ofInt (op.exact a.toInt b.toInt))

def operations : Formula → Nat
  | .literal _ => 0
  | .operation _ l r => l.operations + r.operations + 1

/-- An operation that is not folded becomes no literal, also where a product is doubled. -/
theorem literal?_reduced {p : Payload} (hkind : p.kind = .binary) {l r : Tree}
    (h : Tree.folded? p.op l r = none) : (Tree.reduced p [l, r]).literal? = none := by
  rw [Tree.reduced_binary p l r hkind, Tree.replacement?, h]
  cases Tree.doubled? p.op l r with
  | some => rfl
  | none => simp [Tree.settled, Tree.literal?, hkind]

/-- A formula is simplified to its value, one operation at a time, or else to no literal. -/
theorem simplified_tree (e : Formula) :
    (∀ v, e.value? = some v →
      e.tree.simplified = .ofInteger v ∧ e.tree.savings = { folded := e.operations }) ∧
    (e.value? = none → e.tree.simplified.literal? = none) := by
  induction e with
  | literal =>
    refine ⟨fun v hv => ?_, fun h => by cases h⟩
    cases hv
    exact ⟨rfl, rfl⟩
  | operation op l r ihl ihr =>
    let p : Payload := { kind := .binary, op := (BinaryOp.arith op).text }
    have hfolded (a b : Int64) : Tree.folded? p.op (.ofInteger a) (.ofInteger b) = op.eval? a b := by
      simp only [p, Tree.folded?, op.ofText?_text]
      rfl
    have hnone {s t : Tree} (h : s.literal? = none ∨ t.literal? = none) :
        Tree.folded? p.op s t = none := by
      unfold Tree.folded?
      rcases h with h | h <;> simp_all
    have htree : (operation op l r).tree.simplified = .reduced p [l.tree.simplified, r.tree.simplified] :=
      rfl
    have hsavings : (operation op l r).tree.savings = l.tree.savings + (r.tree.savings + {}) +
        Tree.saved p [l.tree.simplified, r.tree.simplified] := rfl
    rw [htree, hsavings, value?]
    cases hl : l.value? with
    | none =>
      exact ⟨fun v hv => (by cases hv), fun _ => literal?_reduced rfl (hnone (.inl (ihl.2 hl)))⟩
    | some a =>
      cases hr : r.value? with
      | none =>
        exact ⟨fun v hv => (by cases hv), fun _ => literal?_reduced rfl (hnone (.inr (ihr.2 hr)))⟩
      | some b =>
        rcases ihl.1 a hl with ⟨hsl, hcl⟩
        rcases ihr.1 b hr with ⟨hsr, hcr⟩
        rw [hsl, hsr, hcl, hcr]
        simp only [Option.bind_eq_bind, Option.bind_some, ← op.eval?_eq a b, ← hfolded]
        refine ⟨fun v hv => ?_, literal?_reduced rfl⟩
        rw [Tree.reduced_binary p _ _ rfl, Tree.saved_binary p _ _ rfl, Tree.replacement?, hv]
        exact ⟨rfl, rfl⟩

end Formula

/-- A pass over a formula ends on a single literal of the type of integers exactly if the formula
    has a value, and it is the literal of that value. Every operator has then been folded. -/
theorem optimize_formula (e : Formula) (a : Arena) (root : NodeId) (h : a.IsTree root)
    (htree : a.tree root = e.tree) :
    ∃ root' stats b, (Optimize.run root).run a = (.ok (root', stats), b) ∧
      (∀ n : Int64, b.tree root' = .node { kind := .integer, integer := n, type := .integer } [] ↔
        e.value? = some n) ∧
      (e.value? ≠ none → stats.folded = e.operations) := by
  rcases Arena.isTree_iff_forest.mp h with ⟨t, foot, hforest⟩
  rcases Optimize.builds_run hforest with ⟨root', b, hrun, foot', hforest', _⟩
  obtain rfl : e.tree = t := htree.symm.trans hforest.tree
  have hafter : b.tree root' = e.tree.simplified := hforest'.tree
  refine ⟨root', e.tree.savings, b, hrun, fun n => ?_, fun hvalue => ?_⟩
  · rw [hafter]
    cases hvalue : e.value? with
    | none =>
      refine ⟨fun h => ?_, fun h => by cases h⟩
      have hliteral := e.simplified_tree.2 hvalue
      rw [h] at hliteral
      cases hliteral
    | some v =>
      rw [(e.simplified_tree.1 v hvalue).1]
      simp [Tree.ofInteger]
  · rcases Option.ne_none_iff_exists'.mp hvalue with ⟨v, hv⟩
    rw [(e.simplified_tree.1 v hv).2]

/-- The formula `12 / (9223372036854775807 * 2)`. -/
def wrappedFactor : Formula :=
  .operation .div (.literal 12) (.operation .mul (.literal 9223372036854775807) (.literal 2))

def wrappedNodes : Arena :=
  ⟨#[{ kind := .integer, integer := 12, type := .integer },
    { kind := .integer, integer := 9223372036854775807, type := .integer },
    { kind := .integer, integer := 2, type := .integer },
    { kind := .binary, op := "*", children := [1, 2] },
    { kind := .binary, op := "/", children := [0, 3] }]⟩

/-- The product wraps around to `-2`. It is folded and not doubled, so the quotient is folded too. -/
theorem optimize_formula_wrapped : wrappedNodes.IsTree 4 ∧ wrappedNodes.tree 4 = wrappedFactor.tree ∧
    ∃ root' stats b, (Optimize.run 4).run wrappedNodes = (.ok (root', stats), b) ∧
      b.tree root' = .node { kind := .integer, integer := -6, type := .integer } [] ∧
      stats.folded = 2 := by
  have hfactors : Arena.Forest wrappedNodes [1, 2] _ [1, 2] :=
    .cons 1 _ [2] [] [2] [] _ rfl .nil
      (.cons 2 _ [] [] [] [] [] rfl .nil .nil (by decide) (by decide)) (by decide) (by decide)
  have hoperands : Arena.Forest wrappedNodes [0, 3] _ [0, 3, 1, 2] :=
    .cons 0 _ [3] [] [3, 1, 2] [] _ rfl .nil
      (.cons 3 _ [] [1, 2] [] _ [] rfl hfactors .nil (by decide) (by decide)) (by decide) (by decide)
  have hquotient : Arena.Forest wrappedNodes [4] _ [4, 0, 3, 1, 2] :=
    .cons 4 _ [] [0, 3, 1, 2] [] _ [] rfl hoperands .nil (by decide) (by decide)
  have htree : wrappedNodes.tree 4 = wrappedFactor.tree := rfl
  rcases optimize_formula wrappedFactor wrappedNodes 4 hquotient.isTree htree with
    ⟨root', stats, b, hrun, hroot, hfolded⟩
  exact ⟨hquotient.isTree, htree, root', stats, b, hrun, (hroot (-6)).mpr (by decide),
    hfolded (by decide)⟩

end Codegen
