import Codegen.Fixture
import Mathlib.Data.List.Forall2

/-!
# Cases of a Fixture

The headings and fences of a document are read one after the other, and a case is checked when the
next one begins or the document ends. What comes out is said here of the document as a whole: it
is cut at the headings of cases (`outline`), and each part gives its case on its own (`Gives`).

That a case has no input is the same as that its input is empty. So an input without text does not
count, and any number of them may stand before the one that does.

## Theorems

* `ofBlocks_ok`: The documents that are accepted, and their cases.
-/

namespace Codegen.Fixture

open List Markdown

/-- The name of the case that a block begins. -/
def testName? : Block → Option Bytes
  | .heading text => Bytes.strip? "Test: " text
  | .fence .. => none

/-- The blocks before the first case, and the cases with the blocks of each. -/
def outline : List Block → List Block × List (Bytes × List Block)
  | [] => ([], [])
  | b :: rest =>
    match testName? b with
    | some name => ([], (name, (outline rest).1) :: (outline rest).2)
    | none => (b :: (outline rest).1, (outline rest).2)

/-- A fence with a language, its text without newlines at the end. -/
structure Fence where
  line : Nat
  language : Bytes
  content : Bytes

/-- The fence that a block is, if it has a language. -/
def fence? : Block → Option Fence
  | .heading _ => none
  | .fence line language body =>
    if language.isEmpty then none
    else some ⟨line, language, Bytes.trimRight (· = Bytes.newline) body⟩

def fences (blocks : List Block) : List Fence := blocks.filterMap fence?

def Fence.role? (f : Fence) : Option Role := Role.ofLanguage? f.language

/-- The inputs among fences. -/
def inputs (fs : List Fence) : List (InputType × Fence) := fs.filterMap fun f =>
  match f.role? with
  | some (.input type) => some (type, f)
  | _ => none

/-- The checks among fences. -/
def checks (fs : List Fence) : List (Check × Bytes) := fs.filterMap fun f =>
  match f.role? with
  | some (.assertion check) => some (check, f.content)
  | _ => none

/-- What a check expects. Only the tree is compared with a pattern, which has to be a document. -/
def Expects (c : Check × Bytes) (a : Assertion) : Prop :=
  a.check = c.1 ∧ a.content = c.2 ∧
    if c.1 = .ast then ∃ d, Sexpr.read c.2 = .ok d ∧ a.pattern = some d else a.pattern = none

/-- The case of a name with some blocks. All languages are known, there is a check, and there is
    one input with text; those before it are empty. -/
def Gives (part : Bytes × List Block) (t : TestCase) : Prop :=
  (∀ f ∈ fences part.2, f.role?.isSome) ∧ checks (fences part.2) ≠ [] ∧
    ∃ empty type f as, inputs (fences part.2) = empty ++ [(type, f)] ∧
      (∀ i ∈ empty, i.2.content = []) ∧ f.content ≠ [] ∧
      Forall₂ Expects (checks (fences part.2)) as ∧ t = ⟨part.1, f.content, some type, f.line, as⟩

namespace Collected

/-- A case that takes over an input. -/
def withInput (t : TestCase) (i : InputType × Fence) : TestCase :=
  { t with input := i.2.content, inputType := some i.1, line := i.2.line }

/-- A case after fences: only its last input may have text. -/
def Collects (t : TestCase) (fs : List Fence) (t' : TestCase) : Prop :=
  (∀ f ∈ fs, f.role?.isSome) ∧
    (∀ text ∈ (t.input :: (inputs fs).map (·.2.content)).dropLast, text = []) ∧
    ∃ as, Forall₂ Expects (checks fs) as ∧
      t' = { (inputs fs).getLast?.elim t (withInput t) with assertions := t.assertions ++ as }

/-- The cases that the one under way becomes after fences. Without one there can be none. -/
def Closes (current : Option TestCase) (fs : List Fence) (done : List TestCase) : Prop :=
  current.elim (fs = [] ∧ done = []) fun t =>
    ∃ t', Collects t fs t' ∧ t'.input ≠ [] ∧ t'.assertions ≠ [] ∧ done = [t']

variable {c c' : Collected} {t t' : TestCase} {f : Fence} {fs : List Fence} {blocks : List Block}
  {b : Block}

theorem bind_ok {ε α β : Type} {x : Except ε α} {k : α → Except ε β} {b : β} :
    (x >>= k) = .ok b ↔ ∃ a, x = .ok a ∧ k a = .ok b := by
  cases x with
  | error => exact iff_of_false (fun h => by cases h) fun ⟨_, h, _⟩ => by cases h
  | ok a => exact ⟨fun h => ⟨a, rfl, h⟩, fun ⟨_, h, hk⟩ => by cases h; exact hk⟩

theorem fence_input {type : InputType} {t₁ : TestCase} :
    fence t f.line (.input type) f.content = .ok t₁ ↔ t.input = [] ∧ t₁ = withInput t (type, f) := by
  rw [fence]
  cases t.input with
  | nil => simp [withInput, eq_comm]
  | cons => simp

theorem fence_assertion {check : Check} {t₁ : TestCase} :
    fence t f.line (.assertion check) f.content = .ok t₁ ↔
      ∃ a, Expects (check, f.content) a ∧ t₁ = { t with assertions := t.assertions ++ [a] } := by
  have hexpects (a : Assertion) : Expects (check, f.content) a ↔
      ∃ p, pattern t f.line check f.content = .ok p ∧ a = ⟨check, f.content, p⟩ := by
    obtain ⟨check', content', p⟩ := a
    simp only [Expects, Assertion.mk.injEq]
    cases check with
    | ast =>
      rw [if_pos rfl, pattern]
      cases Sexpr.read f.content <;> simp [eq_comm, and_assoc, and_comm]
    | _ =>
      rw [if_neg (by decide)]
      simp [pattern, eq_comm, and_comm, and_assoc]
  simp only [hexpects]
  rw [fence]
  cases pattern t f.line check f.content with
  | error => simp
  | ok p => simp [eq_comm]

theorem collects_nil : Collects t [] t' ↔ t' = t := by
  simp [Collects, inputs, checks]

/-- One fence of a case. -/
theorem collects_cons : Collects t (f :: fs) t' ↔ ∃ role t₁, f.role? = some role ∧
    fence t f.line role f.content = .ok t₁ ∧ Collects t₁ fs t' := by
  cases hrole : f.role? with
  | none => simp [Collects, hrole]
  | some role =>
    cases role with
    | input type =>
      have hinputs : inputs (f :: fs) = (type, f) :: inputs fs := by simp [inputs, hrole]
      have hchecks : checks (f :: fs) = checks fs := by simp [checks, hrole]
      have hlast : (inputs (f :: fs)).getLast?.elim t (withInput t) =
          (inputs fs).getLast?.elim (withInput t (type, f)) (withInput (withInput t (type, f))) := by
        rw [hinputs, getLast?_cons]
        cases (inputs fs).getLast? <;> rfl
      simp only [Collects, hlast]
      simp [hinputs, hchecks, fence_input, hrole, withInput, and_assoc, and_left_comm]
    | assertion check =>
      have hinputs : inputs (f :: fs) = inputs fs := by simp [inputs, hrole]
      have hchecks : checks (f :: fs) = (check, f.content) :: checks fs := by simp [checks, hrole]
      simp only [Collects, forall_mem_cons, hrole, Option.isSome_some, true_and, hinputs, hchecks,
        forall₂_cons_left_iff, Option.some.injEq]
      constructor
      · rintro ⟨hknown, hempty, _, ⟨a, as, ha, has, rfl⟩, rfl⟩
        refine ⟨_, _, rfl, fence_assertion.mpr ⟨a, ha, rfl⟩, hknown, hempty, as, has, ?_⟩
        cases (inputs fs).getLast? <;> simp [withInput]
      · rintro ⟨_, _, rfl, hfence, hknown, hempty, as, has, rfl⟩
        obtain ⟨a, ha, rfl⟩ := fence_assertion.mp hfence
        refine ⟨hknown, hempty, _, ⟨a, as, ha, has, rfl⟩, ?_⟩
        cases (inputs fs).getLast? <;> simp [withInput]

theorem flush_ok :
    c.flush = .ok c' ↔ ∃ done, Closes c.current [] done ∧ c' = ⟨c.done ++ done, none⟩ := by
  obtain ⟨done, _ | t⟩ := c
  · simp [flush, Closes, eq_comm]
  simp only [flush, Closes, collects_nil, Option.elim_some, List.isEmpty_iff]
  split
  · simp_all
  split
  · simp_all
  · simp_all [eq_comm]

/-- A part gives the case that its fences make of an empty one. -/
theorem gives_iff (name : Bytes) (blocks : List Block) :
    Gives (name, blocks) t ↔ Closes (some { name }) (fences blocks) [t] := by
  simp only [Gives, Closes, Collects, Option.elim_some]
  obtain hnone | ⟨empty, i, hlast⟩ := eq_nil_or_concat' (inputs (fences blocks))
  · simp [hnone]
  have hdrop : (([] : Bytes) :: (empty ++ [i]).map (·.2.content)).dropLast =
      [] :: empty.map (·.2.content) := by
    rw [map_append, map_singleton, ← cons_append, dropLast_concat]
  rw [hlast, getLast?_concat, hdrop, forall_mem_cons, forall_mem_map]
  constructor
  · rintro ⟨hknown, hchecks, _, _, _, as, heq, hempty, htext, has, rfl⟩
    obtain ⟨rfl, rfl⟩ := append_singleton_inj.mp heq
    refine ⟨_, ⟨hknown, ⟨rfl, hempty⟩, as, has, rfl⟩, htext, ?_, rfl⟩
    rintro rfl
    exact hchecks (forall₂_nil_right_iff.mp has)
  · rintro ⟨_, ⟨hknown, ⟨-, hempty⟩, as, has, rfl⟩, htext, has', heq⟩
    refine ⟨hknown, ?_, empty, i.1, i.2, as, rfl, hempty, htext, has, singleton_inj.mp heq⟩
    intro hnil
    rw [hnil] at has
    exact has' (forall₂_nil_left_iff.mp has)

theorem closes_cons {done : List TestCase} : Closes c.current (f :: fs) done ↔
    ∃ t role t₁, c.current = some t ∧ f.role? = some role ∧
      fence t f.line role f.content = .ok t₁ ∧ Closes (some t₁) fs done := by
  obtain ⟨_, _ | t⟩ := c
  · simp [Closes]
  · simp only [Closes, Option.elim_some, collects_cons, Option.some.injEq]
    grind

/-- A heading that begins a case ends the one before it. -/
theorem block_test {name : Bytes} (hname : testName? b = some name) :
    block c b = c.flush >>= fun c => pure { c with current := some { name } } := by
  cases b with
  | fence => cases hname
  | heading text =>
    rw [testName?, Bytes.strip?] at hname
    split at hname
    · next hstart =>
      cases hname
      rw [block, heading, if_pos hstart]
      rfl
    · cases hname

/-- Other headings, and fences without a language, change nothing. -/
theorem block_other (hname : testName? b = none) (hfence : fence? b = none) : block c b = .ok c := by
  cases b with
  | fence =>
    rw [fence?] at hfence
    split at hfence
    · next hempty => rw [block, if_pos hempty]
    · cases hfence
  | heading text =>
    rw [testName?, Bytes.strip?] at hname
    split at hname
    · cases hname
    · next hstart => rw [block, heading, if_neg hstart]

theorem block_fence (hfence : fence? b = some f) : block c b = .ok c' ↔
    ∃ t role t₁, c.current = some t ∧ f.role? = some role ∧
      fence t f.line role f.content = .ok t₁ ∧ c' = { c with current := some t₁ } := by
  cases b with
  | heading => cases hfence
  | fence line language body =>
    rw [fence?] at hfence
    split at hfence
    · cases hfence
    · next hlanguage =>
      cases hfence
      rw [block, if_neg hlanguage, Fence.role?]
      obtain ⟨done, _ | t⟩ := c <;> cases Role.ofLanguage? language with
      | none => simp
      | some role => simp only [bind_ok]; simp [pure, Except.pure, eq_comm]

/-- Headings and fences from a point on: first those of the case under way. -/
theorem run_ok : (blocks.foldlM block c >>= flush) = .ok c' ↔ ∃ first cases,
    Closes c.current (fences (outline blocks).1) first ∧ Forall₂ Gives (outline blocks).2 cases ∧
      c' = ⟨c.done ++ first ++ cases, none⟩ := by
  induction blocks generalizing c with
  | nil => simp [outline, fences, flush_ok]
  | cons b blocks ih =>
    rw [foldlM_cons, bind_assoc, outline]
    cases hname : testName? b with
    | some name =>
      simp only [block_test hname, bind_assoc, pure_bind, bind_ok, flush_ok, ih]
      constructor
      · rintro ⟨_, ⟨done, hdone, rfl⟩, _, cases, ⟨t, ht, hinput, hchecks, rfl⟩, hcases, rfl⟩
        have hgives := (gives_iff name _).mpr ⟨t, ht, hinput, hchecks, rfl⟩
        exact ⟨done, t :: cases, hdone, .cons hgives hcases, by simp⟩
      · rintro ⟨done, _, hdone, _ | ⟨ht, hcases⟩, rfl⟩
        exact ⟨_, ⟨done, hdone, rfl⟩, _, _, (gives_iff name _).mp ht, hcases, by simp⟩
    | none =>
      cases hfence : fence? b with
      | none =>
        rw [block_other hname hfence, fences, filterMap_cons_none hfence]
        exact ih
      | some f =>
        rw [fences, filterMap_cons_some hfence]
        simp only [bind_ok, block_fence hfence, ih]
        constructor
        · rintro ⟨_, ⟨t, role, t₁, ht, hrole, hfence, rfl⟩, first, cases, hfirst, hrest⟩
          exact ⟨first, cases, closes_cons.mpr ⟨t, role, t₁, ht, hrole, hfence, hfirst⟩, hrest⟩
        · rintro ⟨first, cases, hfirst, hrest⟩
          obtain ⟨t, role, t₁, ht, hrole, hfence, hfirst⟩ := closes_cons.mp hfirst
          exact ⟨_, ⟨t, role, t₁, ht, hrole, hfence, rfl⟩, first, cases, hfirst, hrest⟩

end Collected

/-- Headings and fences are accepted if and only if no fence with a language comes before the first
    case and each case can be given, and these are then the cases, in order. -/
theorem ofBlocks_ok (blocks : List Block) (cases : List TestCase) :
    ofBlocks blocks = .ok cases ↔
      fences (outline blocks).1 = [] ∧ Forall₂ Gives (outline blocks).2 cases := by
  have hmap {ε : Type} {x : Except CaseError Collected} {g : CaseError → ε} {c : Collected} :
      x.mapError g = .ok c ↔ x = .ok c := by cases x <;> simp [Except.mapError]
  have hrun : ofBlocks blocks = .ok cases ↔
      ∃ c, (blocks.foldlM Collected.block {} >>= Collected.flush) = .ok c ∧ c.done = cases := by
    simp only [ofBlocks, Collected.bind_ok, hmap, pure, Except.pure, Except.ok.injEq]
    constructor
    · rintro ⟨c, hc, c', hc', h⟩
      exact ⟨c', ⟨c, hc, hc'⟩, h⟩
    · rintro ⟨c', ⟨c, hc, hc'⟩, h⟩
      exact ⟨c, hc, c', hc', h⟩
  rw [hrun]
  simp only [Collected.run_ok, Collected.Closes]
  simp

/-- A document with two inputs in one case, the first of them without text, is accepted. -/
theorem ofBlocks_two_inputs :
    let blocks := [.heading "Test: a", .fence 3 "kw-ast" [], .fence 6 "kw-ast" "1", .fence 10 "ast" "1"]
    (inputs (fences blocks)).length = 2 ∧ (ofBlocks blocks).isOk = true := by
  decide +kernel

end Codegen.Fixture
