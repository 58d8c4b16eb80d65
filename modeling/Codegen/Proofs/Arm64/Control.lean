import Codegen.Proofs.Arm64.Branches
import Codegen.Proofs.Arm64.Machine
import Codegen.Proofs.Control

/-!
# Control in AArch64 Code

A machine that runs a program with its branches. A place in the program is the code from there on,
and a branch goes to the code behind its label. Calls and decimal instructions, and the state that
only they use, are left to a world of which nothing is known.

A fragment falls through if control that enters it leaves it at its end, wherever in the program it
stands. A chain of conditions is made of such fragments, with branches in between: one over each
body, and one from its end to the end of the chain.
-/

namespace Codegen.Arm64

open List

variable {steps : List Step} {flavor : Flavor} {join l : Label}

/-- Where symbols lie, and what the other instructions do, with a state of their own. -/
structure World (μ : Type) where
  symbols : Bytes → Word
  foreign : Instr → Machine × μ → Machine × μ

def after (program : Code) (l : Label) : Code := (program.dropWhile (· ≠ .label l)).tail

section Machines

variable {μ : Type}

/-- One step of a machine at a place in a program. -/
def next? (w : World μ) (program : Code) : Code × Machine × μ → Option (Code × Machine × μ)
  | ([], _) => none
  | (.instr i :: rest, s) =>
    match i.step? w.symbols s.1 with
    | some m => some (rest, m, s.2)
    | none =>
      match i with
      | .branch l => some (after program l, s)
      | .branchIf cond l => some (if cond.holds s.1.flags then after program l else rest, s)
      | .cbz r l => some (if s.1.get r = 0 then after program l else rest, s)
      | .ret => none
      | i => some (rest, w.foreign i s)
  | (_ :: rest, s) => some (rest, s)

/-- A fragment is run from its beginning to its end, wherever it stands. -/
def Falls (w : World μ) (program c : Code) (s s' : Machine × μ) : Prop :=
  ∀ pre rest, program = pre ++ c ++ rest → Reaches (next? w program) (c ++ rest, s) (rest, s')

/-- A fragment leaves a condition in the first register. -/
def Tests (w : World μ) (program c : Code) (s : Machine × μ) (b : Bool) (s' : Machine × μ) : Prop :=
  Falls w program c s s' ∧ b = decide (s'.1.x 0 ≠ 0)

end Machines

theorem mem_labels {c : Code} (h : .label l ∈ c) : l ∈ labels c := by
  rcases append_of_mem h with ⟨a, b, rfl⟩
  rw [labels_append]
  exact mem_append_right _ mem_cons_self

/-- Where a branch goes. -/
theorem after_eq {program post : Code} (pre : Code) (hlabels : (labels program).Nodup)
    (h : program = pre ++ .label l :: post) : after program l = post := by
  subst h
  rw [labels_append] at hlabels
  -- A second line with the label, before this one, would be where a branch goes.
  have hnot : ∀ line ∈ pre, decide (line ≠ .label l) = true := by
    intro line hline
    refine decide_eq_true fun heq => ?_
    exact (nodup_append.mp hlabels).2.2 l (mem_labels (heq ▸ hline)) l mem_cons_self rfl
  unfold after
  rw [dropWhile_append_of_pos hnot, dropWhile_cons_of_neg (by simp)]
  rfl

/-- The code of a chain of conditions and bodies, up to the label where it ends. -/
inductive Links (join : Label) : List Code → Code → Prop where
  | nil : Links join [] []
  | last {b} : Links join [b] b
  | link {c b next cs rest} (h : Links join cs rest) :
      Links join (c :: b :: cs)
        (c ++ code [.cbz x0 next] ++ b ++ code [.branch join] ++ [.label next] ++ rest)

/-- The first condition that holds decides what is run. -/
theorem Links.reaches {cs : List Code} {c : Code} (h : Links join cs c) {μ : Type} {w : World μ}
    {program pre post : Code} (hlabels : (labels program).Nodup)
    (hplace : program = pre ++ c ++ .label join :: post) {s s' : Machine × μ}
    (hrun : FirstTrue (Tests w program) (Falls w program) cs s s') :
    Reaches (next? w program) (c ++ .label join :: post, s) (post, s') := by
  have hend (s : Machine × μ) : Reaches (next? w program) (.label join :: post, s) (post, s) :=
    .single rfl
  -- What was passed of the chain belongs to the code before, so `pre` grows with every link.
  induction h generalizing pre s with
  | nil =>
    cases hrun
    exact hend _
  | last =>
    cases hrun with
    | otherwise hb => exact (hb _ _ hplace).trans (hend s')
  | @link c b next cs rest _ ih =>
    have hjoin := after_eq _ hlabels hplace
    have hnext : after program next = rest ++ .label join :: post :=
      after_eq (pre ++ c ++ code [.cbz x0 next] ++ b ++ code [.branch join]) hlabels
        (by simp [hplace])
    have hsplit : c ++ code [.cbz x0 next] ++ b ++ code [.branch join] ++ [.label next] ++ rest
        ++ .label join :: post = c ++ (code [.cbz x0 next] ++ b ++ code [.branch join]
          ++ [.label next] ++ rest ++ .label join :: post) := by
      simp
    -- The condition stands in the program as a fragment of its own.
    have hplace' := hplace
    rw [append_assoc, hsplit, ← append_assoc] at hplace'
    rw [hsplit]
    cases hrun with
    | @taken _ _ _ _ s1 _ hc hb =>
      obtain ⟨hc, htrue⟩ := hc
      refine (hc _ _ hplace').trans (.head (b := (b ++ code [.branch join] ++ [.label next] ++ rest
        ++ .label join :: post, s1)) ?_ ?_)
      · exact congrArg (fun c => some (c, s1)) (if_neg (of_decide_eq_true htrue.symm))
      · simp only [append_assoc]
        refine (hb (pre ++ c ++ code [.cbz x0 next]) _ (by simp [hplace])).trans (.single ?_)
        rw [← hjoin]
        rfl
    | @skipped _ _ _ _ s1 _ hc hrest =>
      obtain ⟨hc, hfalse⟩ := hc
      refine (hc _ _ hplace').trans (.head ?_
        (@ih (pre ++ (c ++ code [.cbz x0 next] ++ b ++ code [.branch join] ++ [.label next]))
          (by simp [hplace]) s1 hrest))
      rw [← hnext]
      exact congrArg (fun c => some (c, s1)) (if_pos (not_not.mp (of_decide_eq_false hfalse.symm)))

def Evaluated (flavor : Flavor) (t : Term) (c : Code) : Prop :=
  ∃ s ctx rep s' ctx', Ends (expr flavor t) s ctx (c, rep) s' ctx'

def Emitted (flavor : Flavor) (t : Term) (c : Code) : Prop :=
  ∃ s ctx s' ctx', Ends (stmt flavor t) s ctx c s' ctx'

theorem Executes.emitted {t : Term} {inner : Stmt} {st st' : Stage} {c : Code}
    (h : Executes flavor (.stmt inner) st c steps st') (hinner : t.stmt? = some inner) :
    Emitted flavor t c := by
  refine ⟨st.1, st.2, st'.1, st'.2, ?_⟩
  rw [stmt_eq hinner]
  exact h.runs

/-- Chains are lowered to linked code. -/
theorem Executes.links {parts : List Term} {st st' : Stage} {c : Code}
    (h : Executes flavor (.chain join parts) st c steps st') :
    ∃ cs, Alternates (Evaluated flavor) (Emitted flavor) parts cs ∧ Links join cs c := by
  -- A condition and its body are two parts, and an `else` is one.
  induction parts using twoStepInduction generalizing st c steps with
  | nil =>
    cases h
    exact ⟨[], .nil, .nil⟩
  | singleton =>
    cases h with
    | chainLast hstmt h => exact ⟨_, .last (h.emitted hstmt), .last⟩
  | cons_cons _ _ _ ih =>
    cases h with
    | chainLink _ htest hstmt h hrest =>
      rcases ih hrest with ⟨cs, halternates, hlinks⟩
      exact ⟨_, .link ⟨_, _, _, _, _, htest.runs⟩ (h.emitted hstmt) halternates,
        .link hlinks⟩

end Codegen.Arm64
