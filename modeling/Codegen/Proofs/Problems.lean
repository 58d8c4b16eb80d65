import Codegen.Report.Problem

/-!
# Problems That Are Limitations

Without strict mode, a problem is only a warning if the text is complete apart from
placeholders. A problem is a tree: contexts and collections around errors that are either
limitations or not. What it comes down to are the leaves of the tree, and they decide, except
that the check looks into collections at the root only: below, contexts are all it takes off.

## Theorems

* `report_lenient`: What is a warning and what is an error.
-/

namespace Codegen.Problem

open List

mutual

/-- The errors that a problem comes down to. -/
def leaves : Problem → List Problem
  | .wrap _ cause => leaves cause
  | .many causes => leavesAll causes
  | leaf => [leaf]

def leavesAll : List Problem → List Problem
  | [] => []
  | cause :: rest => leaves cause ++ leavesAll rest

end

/-- Whether a problem is a limitation and nothing more. -/
def IsBare : Problem → Prop
  | .limitation _ => True
  | _ => False

/-- Whether a problem has no collections in it. -/
def isSingle : Problem → Bool
  | .wrap _ cause => cause.isSingle
  | .many _ => false
  | _ => true

/-- Whether a problem has no collections below its root. -/
def isFlat : Problem → Bool
  | .many causes => causes.all isSingle
  | cause => cause.isSingle

/-- A single problem is a limitation if its leaf is. -/
theorem isLimitation_iff (cause : Problem) :
    cause.isLimitation = true ↔ (∀ leaf ∈ cause.leaves, leaf.IsBare) ∧ cause.isSingle = true := by
  fun_induction isLimitation cause with
  | case1 => simp [leaves, IsBare, isSingle]
  | case2 context cause ih => rw [ih, leaves, isSingle]
  | case3 cause hlimitation hwrap =>
    cases cause with
    | limitation cause => exact absurd rfl (hlimitation cause)
    | plain => simp [leaves, IsBare]
    | wrap context cause => exact absurd rfl (hwrap context cause)
    | many => simp [isSingle]

theorem leavesAll_eq (causes : List Problem) : leavesAll causes = causes.flatMap leaves := by
  induction causes with
  | nil => rfl
  | cons cause rest ih => rw [leavesAll, ih, flatMap_cons]

/-- A flat problem consists of limitations if all its leaves are. -/
theorem onlyLimitations_iff (cause : Problem) :
    cause.onlyLimitations = true ↔ (∀ leaf ∈ cause.leaves, leaf.IsBare) ∧ cause.isFlat = true := by
  cases cause with
  | many causes =>
    simp only [onlyLimitations, all_eq_true, isLimitation_iff, leaves, leavesAll_eq, isFlat,
      mem_flatMap, forall_exists_index, and_imp]
    refine ⟨fun h => ⟨fun leaf cause hcause => (h cause hcause).1 leaf, ?_⟩, ?_⟩
    · exact fun cause hcause => (h cause hcause).2
    · exact fun h cause hcause => ⟨fun leaf => h.1 leaf cause hcause, h.2 cause hcause⟩
  | _ => exact isLimitation_iff _

/-- A problem that comes down to limitations is a warning unless there is a collection in it behind
    a context or in a collection; every other problem is an error. -/
theorem report_lenient (path : Bytes) (cause : Problem) :
    (cause.onlyLimitations = true ↔ (∀ leaf ∈ cause.leaves, leaf.IsBare) ∧ cause.isFlat = true) ∧
      report path false (some cause) =
        if cause.onlyLimitations then { warnings := "warning: " ++ path ++ ": " ++ cause.text ++ "\n" }
        else { failure := some (.wrap path cause) } := by
  refine ⟨onlyLimitations_iff cause, ?_⟩
  rw [report]
  cases cause.onlyLimitations <;> rfl

/-- A collection behind a context comes down to one limitation and is an error all the same. -/
theorem report_lenient_wrapped :
    let l : Limitation := ⟨"wasm", "NodeBreak", "break outside of a loop"⟩
    let cause : Problem := .wrap "compiling" (.many [.limitation l])
    cause.leaves = [.limitation l] ∧ cause.onlyLimitations = false ∧
      report "a.kwast" false (some cause) = { failure := some (.wrap "a.kwast" cause) } := by
  intro l cause
  exact ⟨by simp [cause, leaves, leavesAll], rfl, rfl⟩

end Codegen.Problem
