import Codegen.Proofs.Control
import Codegen.Proofs.Wasm.Execution
import Codegen.Proofs.Wasm.Machine

/-!
# Control in WebAssembly Code

A machine that runs code with its blocks, loops and conditions. A place is the code from there on,
with the blocks that are open around it; a branch closes them up to the one with its label. Calls,
memory and decimals, and the state that only they use, are left to a world of which nothing is
known.
-/

namespace Codegen.Wasm

variable {scratch : Nat} {steps : List Step} {st st' : Stage} {t : Term}

/-- What the other instructions do, with a state of their own. They may stop the machine. -/
abbrev World (μ : Type) := Instr → Machine × μ → Option (Machine × μ)

/-- A block that is open: its label, the cells that were on the stack when it was entered, and the
    code that a branch to it and its end go to. -/
structure Opened where
  label : Option Label
  height : Nat
  target : Code
  rest : Code

/-- Where a branch goes: the code, the blocks that stay open, and the cells that are left. -/
def branch? (l : Label) (m : Machine) : List Opened → Option (Code × List Opened × Machine)
  | [] => none
  | b :: bs =>
    if b.label = some l then
      some (b.target, bs, { m with stack := m.stack.drop (m.stack.length - b.height) })
    else branch? l m bs

variable {c : Code}

section Machines

variable {μ : Type}

/-- One step of a machine at a place in a function. -/
def next? (w : World μ) :
    Code × List Opened × Machine × μ → Option (Code × List Opened × Machine × μ)
  | ([], [], _) => none
  | ([], b :: bs, s) => some (b.rest, bs, s)
  | (i :: rest, bs, m, r) =>
    let jump (l : Label) (m : Machine) := (branch? l m bs).map fun (c, bs, m) => (c, bs, m, r)
    let enter (l : Option Label) (m : Machine) (c target : Code) :=
      some (c, ⟨l, m.stack.length, target, rest⟩ :: bs, m, r)
    match i, m.stack with
    | .br l, _ => jump l m
    | .brIf l, .i32 v :: stack =>
      if v = 0 then some (rest, bs, { m with stack }, r) else jump l { m with stack }
    | .block l body, _ => enter l m body rest
    | .loop l body, _ => enter l m body (i :: rest)
    | .cond yes no, .i32 v :: stack =>
      enter none { m with stack } (if v = 0 then no.getD [] else yes) rest
    | .ret, _ | .brIf _, _ | .cond .., _ => none
    | i, _ =>
      match i.step m with
      | .ok m => some (rest, bs, m, r)
      | .error .trap => none
      | .error .invalid => (w i (m, r)).map fun s => (rest, bs, s)

/-- A fragment is run from its beginning to its end, wherever it stands. -/
def Falls (w : World μ) (c : Code) (s s' : Machine × μ) : Prop :=
  ∀ rest bs, Reaches (next? w) (c ++ rest, bs, s) (rest, bs, s')

/-- A fragment leaves a condition on the stack. -/
def Tests (w : World μ) (c : Code) (s : Machine × μ) (b : Bool) (s' : Machine × μ) : Prop :=
  ∃ v : Int64, Falls w c s (s'.1.push (.i64 v), s'.2) ∧ b = decide (v ≠ 0)

/-- The code of a chain of conditions and bodies. -/
inductive Links : List Code → Code → Prop where
  | nil : Links [] []
  | last {b} : Links [b] b
  | final {c b} : Links [c, b] (c ++ truth ++ [.cond b none])
  | link {c b cs rest} (h : Links cs rest) :
      Links (c :: b :: cs) (c ++ truth ++ [.cond b (some rest)])

/-- A value is turned into a truth value and decides which block is entered and left. -/
theorem falls_cond {w : World μ} {yes : Code} {no : Option Code} {s s1 s' : Machine × μ} {b : Bool}
    (hc : Tests w c s b s1) (h : Falls w (if b then yes else no.getD []) s1 s') :
    Falls w (c ++ truth ++ [.cond yes no]) s s' := by
  rcases hc with ⟨v, hc, rfl⟩
  intro rest bs
  -- The body runs in a block of its own, whose end goes to what follows the condition.
  have hbody := h [] (⟨none, s1.1.stack.length, rest, rest⟩ :: bs)
  rw [List.append_nil] at hbody
  rw [List.append_assoc, List.append_assoc]
  refine (hc _ bs).trans (.head rfl (.head rfl (.head ?_ (hbody.trans (.single rfl)))))
  by_cases hv : v = 0
  · subst hv
    rfl
  · have hv' : v.toInt ≠ 0 := fun h => hv (Int64.toInt_inj.mp h)
    simp [next?, Machine.push, Cell.truth, hv, hv']

/-- The first condition that holds decides what is run. -/
theorem Links.falls {cs : List Code} (h : Links cs c) {w : World μ} {s s' : Machine × μ}
    (hrun : FirstTrue (Tests w) (Falls w) cs s s') : Falls w c s s' := by
  induction h generalizing s with
  | nil =>
    cases hrun
    exact fun _ _ => .refl
  | last =>
    cases hrun with
    | otherwise hb => exact hb
  | final =>
    -- Without an `else` the other block is missing, and nothing is run.
    cases hrun with
    | taken hc hb => exact falls_cond hc hb
    | skipped hc h =>
      cases h
      exact falls_cond hc fun _ _ => .refl
  | link _ ih =>
    cases hrun with
    | taken hc hb => exact falls_cond hc hb
    | skipped hc h => exact falls_cond hc (ih h)

end Machines

def Evaluated (scratch : Nat) (t : Term) (c : Code) : Prop :=
  ∃ s ctx rep s' ctx', Ends (value scratch t) s ctx (c, rep) s' ctx'

def Emitted (scratch : Nat) (t : Term) (c : Code) : Prop :=
  ∃ s ctx s' ctx', Ends (stmt scratch t) s ctx c s' ctx'

theorem Produces.evaluated {cells : Nat} {reads : List Read}
    (h : Produces scratch (.expr t) st ⟨c, cells, reads⟩ st') :
    Evaluated scratch t (settle (c, cells)).1 :=
  ⟨st.1, st.2, _, st'.1, st'.2, ends_map settle h.runs⟩

theorem Executes.emitted {inner : Stmt} (h : Executes scratch (.stmt inner) st c steps st')
    (hinner : t.stmt? = some inner) : Emitted scratch t c := by
  refine ⟨st.1, st.2, st'.1, st'.2, ?_⟩
  rw [stmt_eq hinner]
  exact h.runs

/-- Chains are lowered to linked code. -/
theorem Executes.links {parts : List Term} (h : Executes scratch (.chain parts) st c steps st') :
    ∃ cs, Alternates (Evaluated scratch) (Emitted scratch) parts cs ∧ Links cs c := by
  induction parts using List.twoStepInduction generalizing st c steps with
  | nil =>
    cases h
    exact ⟨[], .nil, .nil⟩
  | singleton =>
    cases h with
    | chainLast hstmt h => exact ⟨_, .last (h.emitted hstmt), .last⟩
  | cons_cons _ _ _ ih =>
    cases h with
    | chainEnd htest hstmt h =>
      exact ⟨_, .link htest.evaluated (h.emitted hstmt) .nil, .final⟩
    | chainLink htest hstmt h hrest =>
      rcases ih hrest with ⟨cs, halternates, hlinks⟩
      exact ⟨_, .link htest.evaluated (h.emitted hstmt) halternates, .link hlinks⟩

end Codegen.Wasm
