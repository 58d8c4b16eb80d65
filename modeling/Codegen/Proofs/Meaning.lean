import Codegen.Proofs.Expression
import Codegen.Proofs.Simplify

/-!
# Optimization Keeps Meanings

The meaning of an expression, with whatever it does besides having a value: it may
trap, change the state, and call functions. What names, elements, calls and
assignments do is left open (`Interpretation`); only arithmetic is fixed. So a
statement about all interpretations covers every way in which evaluating an
expression twice, or not at all, could be noticed.

Meanings are compositional. The meaning of a node is a function of its payload and
of the meanings of its children (`Interpretation.node`), and a child is used in
more ways than for its value: as the target of an assignment, as a name that is
called, and as the right side of a pipe. The meaning of a tree holds all of them.
Simplifying the children of a node then changes nothing by congruence, and what is
left is one step for each simplification (`meaning_reduced`).

A product with two becomes a sum, and the operand is evaluated twice. That is the
same because a pure tree only reads the state (`isPure_reads`), so the second
evaluation finds what the first one found, traps included.

## Theorems

* `optimize_meaning`: A pass over an arena keeps the meaning of its tree.
-/

namespace Codegen

/-- A value: a word, or a pointer with a length. -/
inductive Value where
  | word (v : Int64)
  | fat (pointer length : Int64)
  deriving DecidableEq

/-- A call: what is called, and with what. -/
structure Call where
  name : Bytes
  args : List Value
  deriving DecidableEq

/-- The target of an assignment. -/
inductive Target where
  | name (name : Bytes)
  | element (base index : Value)
  deriving DecidableEq

/-- A state, and the calls that were made so far. -/
structure Trace (σ : Type) where
  state : σ
  calls : List Call

/-- Evaluations. A trap leaves the trace as it was at that point. -/
abbrev Eval (σ : Type) := OptionT (StateM (Trace σ))

namespace Eval

variable {σ α : Type}

def read (f : σ → Option α) : Eval σ α := OptionT.mk fun w => (f w.state, w)

def act (f : σ → Option α × σ) : Eval σ α :=
  OptionT.mk fun w => ((f w.state).1, { w with state := (f w.state).2 })

def check (o : Option α) : Eval σ α := read fun _ => o

theorem read_bind {β : Type} (f : σ → Option α) (g : α → σ → Option β) :
    (do let a ← read f; read (g a)) = read fun s => (f s).bind fun a => g a s := by
  funext w
  change ((match f w.state with
    | some a => read (g a)
    | none => pure none) : StateM (Trace σ) (Option β)) w = _
  simp only [read, OptionT.mk]
  cases f w.state <;> rfl

end Eval

/-- What names, elements, operators without arithmetic, arrays, assignments and calls
    do in a state. Reading leaves the state as it is. -/
structure Interpretation (σ : Type) where
  name : Bytes → σ → Option Value
  element : Value → Value → σ → Option Value
  unary : Bytes → Value → Option Value
  operator : Bytes → Value → Value → Option Value
  array : List Value → σ → Option Value × σ
  assign : Target → Value → σ → Option Value × σ
  call : Call → σ → Option Value × σ

/-- The ways in which a tree is used: for its name, for its value, as the target of an
    assignment, and as the right side of a pipe. -/
structure Meaning (σ : Type) where
  symbol : Option Bytes
  value : Eval σ Value
  target : Eval σ Target
  callee : Eval σ Call

namespace Interpretation

variable {σ : Type} (I : Interpretation σ)

/-- The value of a binary operator. Arithmetic is on words. -/
def binary (op : Bytes) (a b : Value) : Option Value :=
  match BinaryOp.ofText? op, a, b with
  | some (.arith op), .word a, .word b => (op.eval? a b).map .word
  | some (.arith _), _, _ => none
  | _, a, b => I.operator op a b

def perform (c : Call) : Eval σ Value := do
  modify fun w => { w with calls := w.calls ++ [c] }
  Eval.act (I.call c)

/-- The value of a node. Operands are evaluated from left to right. -/
def value (p : Payload) (ms : List (Meaning σ)) : Eval σ Value :=
  match p.kind, ms with
  | .integer, _ => pure (.word p.integer)
  | .boolean, _ => pure (.word (truthWord p.boolean))
  | .ident, _ => Eval.read (I.name p.name)
  | .unary, [m] => do
    let a ← m.value
    Eval.check (I.unary p.op a)
  | .binary, [l, r] => do
    let a ← l.value
    let b ← r.value
    Eval.check (I.binary p.op a b)
  | .index, [m, i] => do
    let a ← m.value
    let b ← i.value
    Eval.read (I.element a b)
  | .array, ms => do
    let vs ← ms.mapM Meaning.value
    Eval.act (I.array vs)
  | .assign, [t, v] => do
    let target ← t.target
    let a ← v.value
    Eval.act (I.assign target a)
  | .call, f :: args => do
    let name ← Eval.check f.symbol
    let vs ← args.mapM Meaning.value
    I.perform ⟨name, vs⟩
  | .pipe, [v, f] => do
    let a ← v.value
    let c ← f.callee
    I.perform ⟨c.name, a :: c.args⟩
  | _, _ => failure

def target (p : Payload) (ms : List (Meaning σ)) : Eval σ Target :=
  match p.kind, ms with
  | .ident, _ => pure (.name p.name)
  | .index, [m, i] => do
    let a ← m.value
    let b ← i.value
    return .element a b
  | _, _ => failure

/-- A node as the right side of a pipe, which has arguments after the piped one. -/
def callee (p : Payload) (ms : List (Meaning σ)) : Eval σ Call :=
  match p.kind, ms with
  | .ident, _ => pure ⟨p.name, []⟩
  | .call, f :: args => do
    let name ← Eval.check f.symbol
    let vs ← args.mapM Meaning.value
    return ⟨name, vs⟩
  | _, _ => failure

def node (p : Payload) (ms : List (Meaning σ)) : Meaning σ where
  symbol := if p.kind = .ident then some p.name else none
  value := I.value p ms
  target := target p ms
  callee := callee p ms

end Interpretation

namespace Tree

variable {σ : Type} (I : Interpretation σ)

mutual

/-- The meaning of a tree. -/
def meaning : Tree → Meaning σ
  | .missing => ⟨none, failure, failure, failure⟩
  | .node p ts => I.node p (meanings ts)

def meanings : List Tree → List (Meaning σ)
  | [] => []
  | t :: ts => meaning t :: meanings ts

end

theorem value_of_literal (t : Tree) (v : Int64) (h : t.literal? = some v) :
    (t.meaning I).value = pure (.word v) := by
  cases t with
  | missing => exact absurd h (by simp [literal?])
  | node p ts =>
    simp only [literal?] at h
    split at h
    · next hkind =>
      rw [meaning]
      simp only [Interpretation.node, Interpretation.value, hkind]
      rw [Option.some.inj h]
    · exact absurd h (by simp)

theorem node_reads (p : Payload) (ms : List (Meaning σ))
    (hkind : p.kind = .binary ∨ p.kind = .unary ∨ p.kind = .index)
    (hms : ∀ m ∈ ms, ∃ f, m.value = Eval.read f) : ∃ f, (I.node p ms).value = Eval.read f := by
  simp only [Interpretation.node, Interpretation.value]
  rcases hkind with hk | hk | hk
  -- With another number of parts there is no value.
  · rcases ms with _ | ⟨l, _ | ⟨r, _ | _⟩⟩
    case cons.cons.nil =>
      rcases hms l (by simp) with ⟨f, hf⟩
      rcases hms r (by simp) with ⟨g, hg⟩
      simp only [hk, hf, hg, Eval.check, Eval.read_bind]
      exact ⟨_, rfl⟩
    all_goals exact ⟨fun _ => none, by simp only [hk]; rfl⟩
  · rcases ms with _ | ⟨m, _ | _⟩
    case cons.nil =>
      rcases hms m (by simp) with ⟨f, hf⟩
      simp only [hk, hf, Eval.check, Eval.read_bind]
      exact ⟨_, rfl⟩
    all_goals exact ⟨fun _ => none, by simp only [hk]; rfl⟩
  · rcases ms with _ | ⟨m, _ | ⟨i, _ | _⟩⟩
    case cons.cons.nil =>
      rcases hms m (by simp) with ⟨f, hf⟩
      rcases hms i (by simp) with ⟨g, hg⟩
      simp only [hk, hf, hg, Eval.read_bind]
      exact ⟨_, rfl⟩
    all_goals exact ⟨fun _ => none, by simp only [hk]; rfl⟩

/-- Pure trees only read the state. -/
theorem isPure_reads (ts : List Tree) :
    (∀ t ∈ ts, t.isPure = some true → ∃ f, (t.meaning I).value = Eval.read f) ∧
      (allPure ts = some true → ∀ m ∈ meanings I ts, ∃ f, m.value = Eval.read f) := by
  induction ts using listInduction with
  | nil => exact ⟨by simp, by simp [meanings]⟩
  | missing _ ih =>
    refine ⟨fun t ht hpure => ?_, fun hpure => absurd hpure (by simp [allPure, isPure])⟩
    rcases List.mem_cons.mp ht with rfl | ht
    · exact absurd hpure (by simp [isPure])
    · exact ih.1 t ht hpure
  | node p ts _ ihC ihS =>
    have hnode : (Tree.node p ts).isPure = some true →
        ∃ f, ((Tree.node p ts).meaning I).value = Eval.read f := by
      intro hpure
      rw [isPure.eq_def] at hpure
      rw [meaning]
      cases hk : p.kind with
      | binary | unary | index =>
        simp only [hk] at hpure
        exact node_reads I p _ (by simp [hk]) (ihC.2 hpure)
      | integer | boolean =>
        simp only [Interpretation.node, Interpretation.value, hk]
        exact ⟨fun _ => some _, rfl⟩
      | decimal =>
        simp only [Interpretation.node, Interpretation.value, hk]
        exact ⟨fun _ => none, rfl⟩
      | ident =>
        simp only [Interpretation.node, Interpretation.value, hk]
        exact ⟨_, rfl⟩
      | _ => simp only [hk, Option.some.injEq, Bool.false_eq_true] at hpure
    refine ⟨fun t ht hpure => ?_, fun hpure => ?_⟩
    · rcases List.mem_cons.mp ht with rfl | ht
      · exact hnode hpure
      · exact ihS.1 t ht hpure
    · intro m hm
      rw [allPure] at hpure
      cases hp : (Tree.node p ts).isPure with
      | none => exact absurd hpure (by simp [hp])
      | some b =>
        cases b with
        | false => exact absurd hpure (by simp [hp])
        | true =>
          rw [hp] at hpure
          rcases List.mem_cons.mp hm with rfl | hm
          · exact hnode hp
          · exact ihS.2 hpure m hm

theorem binary_double (a : Value) :
    I.binary "*" a (.word 2) = I.binary "+" a a ∧ I.binary "*" (.word 2) a = I.binary "+" a a := by
  have hmul : BinaryOp.ofText? "*" = some (.arith .mul) := by decide
  have hadd : BinaryOp.ofText? "+" = some (.arith .add) := by decide
  simp only [Interpretation.binary, hmul, hadd]
  cases a with
  | word v =>
    simp [Arith.eval?, Int64.mul_two, Int64.mul_comm 2 v]
  | fat => exact ⟨rfl, rfl⟩

theorem value_double (x : Eval σ Value) (f : σ → Option Value) (hx : x = Eval.read f) :
    (do let a ← x; let b ← x; Eval.check (I.binary "+" a b))
        = (do let a ← x; let b ← pure (.word 2); Eval.check (I.binary "*" a b)) ∧
      (do let a ← x; let b ← x; Eval.check (I.binary "+" a b))
        = (do let a ← pure (.word 2); let b ← x; Eval.check (I.binary "*" a b)) := by
  have hsum : (do let a ← x; let b ← x; Eval.check (I.binary "+" a b))
      = Eval.read fun s => (f s).bind fun a => I.binary "+" a a := by
    simp only [hx, Eval.check, Eval.read_bind]
    congr 1
    funext s
    cases f s <;> rfl
  rw [hsum]
  simp [hx, Eval.check, Eval.read_bind, (binary_double I _).1, (binary_double I _).2]

theorem meaning_folded (p : Payload) (l r : Tree) (v : Int64) (hk : p.kind = .binary)
    (h : folded? p.op l r = some v) :
    (ofInteger v).meaning I = I.node p [l.meaning I, r.meaning I] := by
  unfold folded? at h
  split at h
  · next op a b hop hl hr =>
    simp only [Interpretation.node, Interpretation.value, Interpretation.target,
      Interpretation.callee, hk, value_of_literal I l a hl, value_of_literal I r b hr, pure_bind,
      Interpretation.binary, hop, h]
    rfl
  · exact absurd h (by simp)

theorem doubles_value (t other : Tree) (h : t.doubles other = true) :
    (other.meaning I).value = pure (.word 2) ∧ ∃ f, (t.meaning I).value = Eval.read f := by
  simp only [doubles, Bool.and_eq_true, decide_eq_true_eq] at h
  exact ⟨value_of_literal I other 2 h.1.1, (isPure_reads I [t]).1 t (by simp) h.2⟩

theorem meaning_doubled (p : Payload) (type : Ty) (l r t : Tree) (hk : p.kind = .binary)
    (h : doubled? p.op l r = some t) :
    (Tree.node { kind := .binary, op := "+", type := type } [t, t]).meaning I
      = I.node p [l.meaning I, r.meaning I] := by
  unfold doubled? at h
  split at h
  · next hop =>
    simp only [meaning, Interpretation.node, Interpretation.value, Interpretation.target,
      Interpretation.callee, hk, hop, reduceCtorEq, if_false, Meaning.mk.injEq, and_true, true_and]
    split at h
    · next hd =>
      rcases doubles_value I l r hd with ⟨htwo, f, hf⟩
      rw [← Option.some.inj h, htwo]
      exact (value_double I _ f hf).1
    · split at h
      · next hd =>
        rcases doubles_value I r l hd with ⟨htwo, f, hf⟩
        rw [← Option.some.inj h, htwo]
        exact (value_double I _ f hf).2
      · exact absurd h (by simp)
  · exact absurd h (by simp)

theorem meaning_settled (p : Payload) (ts : List Tree) :
    (settled p ts).meaning I = I.node p (meanings I ts) := by
  unfold settled
  by_cases hblock : p.kind.isBlockLike = true
  · have hkind : p.kind = .block ∨ p.kind = .program := by
      cases hk : p.kind <;> simp_all [Kind.isBlockLike]
    rcases hkind with hk | hk <;>
      simp only [meaning, Interpretation.node, Interpretation.value, Interpretation.target,
        Interpretation.callee, hk]
  · rw [if_neg hblock, meaning]

/-- One step of simplification keeps the meaning. -/
theorem meaning_reduced (p : Payload) (ts : List Tree) :
    (reduced p ts).meaning I = I.node p (meanings I ts) := by
  have hreduces := reduces p ts
  generalize reduced p ts = t at hreduces ⊢
  cases hreduces with
  | folded hkind hvalue => exact meaning_folded I p _ _ _ hkind hvalue
  | doubled hkind hfactor => exact meaning_doubled I p p.type _ _ _ hkind hfactor
  | settled => exact meaning_settled I p ts

theorem meanings_simplified (ts : List Tree) :
    meanings I (simplifiedAll ts) = meanings I ts := by
  induction ts using listInduction with
  | nil => rfl
  | missing _ ih => rw [simplifiedAll, simplified, meanings, meanings, ih]
  | node _ _ _ ihC ihS =>
    rw [simplifiedAll, simplified, meanings, meanings, ihS, meaning_reduced, ihC, meaning]

end Tree

/-- A pass of the optimizer over a tree in an arena always ends, and the tree that it
    leaves has the meaning of the tree that it found: from every state the two end with
    the same value in the same state after the same calls, or both trap there. -/
theorem optimize_meaning {σ : Type} (I : Interpretation σ) (a : Arena) (root : NodeId)
    (h : ∃ t foot, a.Forest [root] [t] foot) :
    ∃ root' stats b, (Optimize.run root).run a = (.ok (root', stats), b) ∧
      ∀ w : Trace σ,
        ((b.tree root').meaning I).value.run w = ((a.tree root).meaning I).value.run w := by
  rcases h with ⟨t, foot, hforest⟩
  rcases Optimize.builds_run hforest with ⟨root', b, hrun, foot', hforest', _⟩
  refine ⟨root', t.savings, b, hrun, fun w => ?_⟩
  have hbefore : a.tree root = t := hforest.tree
  have hafter : b.tree root' = t.simplified := hforest'.tree
  have hsame := Tree.meanings_simplified I [t]
  simp only [Tree.simplifiedAll, Tree.meanings, List.cons.injEq, and_true] at hsame
  rw [hbefore, hafter, hsame]

namespace Sample

/-- The expression `f(3 * 4) - x * 2`. -/
def effects : Tree :=
  .node { kind := .binary, op := "-" } [
    .node { kind := .call } [
      .node { kind := .ident, name := "f" } [],
      .node { kind := .binary, op := "*" } [.ofInteger 3, .ofInteger 4]],
    .node { kind := .binary, op := "*" } [
      .node { kind := .ident, name := "x" } [], .ofInteger 2]]

/-- Every name reads the state, and every call replaces it by its first argument. -/
def reading : Interpretation Int64 where
  name _ s := some (.word s)
  element _ _ _ := none
  unary _ _ := none
  operator _ _ _ := none
  array _ s := (none, s)
  assign _ _ s := (none, s)
  call c s := match c.args with
    | .word v :: _ => (some (.word 100), v)
    | _ => (none, s)

def arena : Arena := ((Arena.add effects).run {}).2

theorem forest : ∃ t foot, arena.Forest [8] [t] foot := by
  have hsolid : Solid [effects] := by
    refine .cons _ _ _ (.cons _ _ _ ?_ (.cons _ _ _ ?_ .nil)) .nil
    · exact .cons _ _ _ .nil (.cons _ _ _ (.cons _ _ _ .nil (.cons _ _ _ .nil .nil)) .nil)
    · exact .cons _ _ _ .nil (.cons _ _ _ .nil .nil)
  rcases Arena.builds_add effects hsolid {} with ⟨id, b, hrun, foot, hforest, _⟩
  have hlaid : (Arena.add effects).run {} = (.ok 8, arena) := rfl
  rcases Prod.mk.inj (hrun.symm.trans hlaid) with ⟨hid, rfl⟩
  rw [Except.ok.inj hid] at hforest
  exact ⟨_, _, hforest⟩

end Sample

/-- The call of `f` changes what `x` reads, and is made once. -/
theorem optimize_meaning_effects :
    ∃ root' stats b, (Optimize.run 8).run Sample.arena = (.ok (root', stats), b) ∧
      ((b.tree root').meaning Sample.reading).value.run ⟨7, []⟩
        = (some (.word 76), ⟨12, [⟨"f", [.word 12]⟩]⟩) := by
  rcases optimize_meaning Sample.reading Sample.arena 8 Sample.forest with
    ⟨root', stats, b, hrun, hsame⟩
  refine ⟨root', stats, b, hrun, ?_⟩
  rw [hsame ⟨7, []⟩]
  rfl

end Codegen
