import Codegen.Proofs.Arm64.Survey
import Codegen.Proofs.Wasm.Survey
import Mathlib.Data.List.Forall2

/-!
# Findings of Two Programs

When one program is a rewriting of another, the findings of the second follow from those
of the first only up to a point. This module says up to which point, and that both
backends respect it: from findings that match they make issues that follow.

Two things get in the way of equality. A product with two that has become a sum of the
other factor with itself loses the literal, and with it the type that the literal gave to
the product. Where that factor has a type without arithmetic of its own, the product was
an integer and the sum is not. It is still one word and no decimal, and no construct but
one can tell the difference: printing, which refuses the type without values. And a
program that leaves statements out has fewer issues, so nothing can be concluded from its
having none.

Which of the two can happen is a parameter, so the exact comparison of two programs and
the comparison of a program with its optimized form are instances of one another's lemmas.
-/

namespace Codegen

open Payload List

/-- What a rewriting may do: leave out statements, and make sums of products with two. -/
structure Licence where
  cuts : Bool
  doubles : Bool

variable {lic : Licence}

/-- Types that are the same up to a lost literal. -/
def Ty.Blurs (lic : Licence) (T T' : Ty) : Prop :=
  T' = T ∨ lic.doubles = true ∧ T = .integer ∧ T'.rep = .scalar ∧ T' ≠ .decimal

namespace Ty.Blurs

variable {T T' U U' : Ty}

theorem refl (T : Ty) : Blurs lic T T := Or.inl rfl

theorem rep (h : Blurs lic T T') : T'.rep = T.rep := by
  rcases h with rfl | ⟨-, rfl, hrep, -⟩
  · rfl
  · rw [hrep]
    decide

theorem decimal (h : Blurs lic T T') : T' = .decimal ↔ T = .decimal := by
  rcases h with rfl | ⟨-, rfl, -, hne⟩
  · exact Iff.rfl
  · exact ⟨fun h => absurd h hne, fun h => absurd h (by decide)⟩

theorem eq_of_ne (h : Blurs lic T T') (hne : T ≠ .integer) : T' = T := by
  rcases h with heq | ⟨-, hint, -⟩
  · exact heq
  · exact absurd hint hne

open Context in
theorem arithmeticType_scalar (hrep : T.rep = .scalar) (hrep' : U.rep = .scalar)
    (hne : T ≠ .decimal) (hne' : U ≠ .decimal) :
    arithmeticType T U = if T = .unknown then U else T := by
  unfold arithmeticType
  rw [if_neg (by simp [hrep, hrep']), if_neg (by simp [hne, hne'])]

open Context in
theorem arithmetic_of_scalar (h : Blurs lic T T') (h' : Blurs lic U U')
    (hscalar : T.rep = .scalar → U.rep = .scalar → T ≠ .decimal → U ≠ .decimal →
      Blurs lic (if T = .unknown then U else T) (if T' = .unknown then U' else T')) :
    Blurs lic (arithmeticType T U) (arithmeticType T' U') := by
  by_cases hfat : (T.rep = .fat || U.rep = .fat) = true
  · unfold arithmeticType
    rw [h.rep, h'.rep, if_pos hfat, if_pos hfat]
    exact refl _
  by_cases hdec : (T = .decimal || U = .decimal) = true
  · have hdec' : (T' = .decimal || U' = .decimal) = true := by
      simp only [Bool.or_eq_true, decide_eq_true_eq] at hdec ⊢
      rwa [h.decimal, h'.decimal]
    unfold arithmeticType
    rw [h.rep, h'.rep, if_neg hfat, if_neg hfat, if_pos hdec, if_pos hdec']
    exact refl _
  · simp only [Bool.or_eq_true, decide_eq_true_eq, not_or] at hfat hdec
    have hscalarRep (type : Ty) (hne : type.rep ≠ .fat) : type.rep = .scalar := by
      cases hr : type.rep with
      | scalar => rfl
      | fat => exact absurd hr hne
    have hT := hscalarRep T hfat.1
    have hU := hscalarRep U hfat.2
    rw [arithmeticType_scalar hT hU hdec.1 hdec.2,
      arithmeticType_scalar (h.rep.trans hT) (h'.rep.trans hU) (mt h.decimal.mp hdec.1)
        (mt h'.decimal.mp hdec.2)]
    exact hscalar hT hU hdec.1 hdec.2

open Context in
/-- Types of arithmetic. -/
theorem arithmetic (h : Blurs lic T T') (h' : Blurs lic U U') :
    Blurs lic (arithmeticType T U) (arithmeticType T' U') := by
  refine arithmetic_of_scalar h h' fun hT hU hdT hdU => ?_
  rcases h with rfl | ⟨hlic, rfl, hrep, hne⟩
  · split_ifs
    · exact h'
    · exact refl _
  · rw [if_neg (by decide)]
    split_ifs
    · exact Or.inr ⟨hlic, rfl, h'.rep.trans hU, mt h'.decimal.mp hdU⟩
    · exact Or.inr ⟨hlic, rfl, hrep, hne⟩

open Context in
/-- A sum of a factor with itself has the type of its product with an integer, in either
    order, if that may be blurred. -/
theorem product (hlic : lic.doubles = true) (h : Blurs lic T T') :
    Blurs lic (arithmeticType T .integer) (arithmeticType T' T') ∧
      Blurs lic (arithmeticType .integer T) (arithmeticType T' T') := by
  have hlost (hrep : T.rep = .scalar) (hne : T ≠ .decimal) :
      Blurs lic .integer (if T' = .unknown then T' else T') := by
    rw [ite_self]
    exact Or.inr ⟨hlic, rfl, h.rep.trans hrep, mt h.decimal.mp hne⟩
  by_cases hfat : T.rep = .fat
  · unfold arithmeticType
    rw [h.rep, hfat]
    exact ⟨refl _, refl _⟩
  by_cases hdec : T = .decimal
  · obtain rfl : T' = T := h.eq_of_ne (by rw [hdec]; decide)
    subst hdec
    exact ⟨Or.inl (by decide), Or.inl (by decide)⟩
  have hscalar : T.rep = .scalar := by
    cases hr : T.rep with
    | scalar => rfl
    | fat => exact absurd hr hfat
  rw [arithmeticType_scalar hscalar (by decide) hdec (by decide),
    arithmeticType_scalar (by decide) hscalar (by decide) hdec,
    arithmeticType_scalar (h.rep.trans hscalar) (h.rep.trans hscalar) (mt h.decimal.mp hdec)
      (mt h.decimal.mp hdec), if_neg (c := Ty.integer = .unknown) (by decide)]
  refine ⟨?_, hlost hscalar hdec⟩
  split
  · exact hlost hscalar hdec
  · rw [ite_self]
    exact h

end Ty.Blurs

/-- A rewriting of a program without issues prints at most something void, and one that
    leaves nothing out has an issue if the program has one. -/
def Follows (lic : Licence) (is is' : List Issue) : Prop :=
  (is = [] → ∀ i ∈ is', lic.doubles = true ∧ i.cause = .printOf .void) ∧
    (lic.cuts = false → is' = [] → is = [])

namespace Follows

variable {is is' js js' : List Issue}

theorem refl (is : List Issue) : Follows lic is is :=
  ⟨fun h => by rw [h]; exact nofun, fun _ h => h⟩

theorem of_ne (h : is ≠ []) (h' : is' ≠ []) : Follows lic is is' :=
  ⟨fun heq => absurd heq h, fun _ heq => absurd heq h'⟩

theorem of_cons {i i' : Issue} : Follows lic (i :: is) (i' :: is') :=
  of_ne (cons_ne_nil _ _) (cons_ne_nil _ _)

theorem append (h : Follows lic is is') (h' : Follows lic js js') :
    Follows lic (is ++ js) (is' ++ js') := by
  refine ⟨fun heq i hi => ?_, fun hcut heq => ?_⟩
  · obtain ⟨his, hjs⟩ := append_eq_nil_iff.mp heq
    rcases mem_append.mp hi with hi | hi
    · exact h.1 his i hi
    · exact h'.1 hjs i hi
  · obtain ⟨his, hjs⟩ := append_eq_nil_iff.mp heq
    rw [h.2 hcut his, h'.2 hcut hjs]
    rfl

/-- What follows from some issues follows from them with others, if something may be left
    out. -/
theorem cut (h : Follows lic is is') (hcut : lic.cuts = true) (js : List Issue) :
    Follows lic (is ++ js) is' := by
  refine ⟨fun heq => h.1 (append_eq_nil_iff.mp heq).1, fun hno => ?_⟩
  rw [hcut] at hno
  cases hno

theorem twice (h : Follows lic is is') : Follows lic is (is' ++ is') := by
  refine ⟨fun heq i hi => ?_, fun hcut heq => h.2 hcut (append_eq_nil_iff.mp heq).1⟩
  rcases mem_append.mp hi with hi | hi <;> exact h.1 heq i hi

theorem flatMap {α β : Type} {rel : α → β → Prop} {f : α → List Issue} {g : β → List Issue}
    {xs : List α} {ys : List β} (hrel : Forall₂ rel xs ys)
    (h : ∀ x y, rel x y → Follows lic (f x) (g y)) : Follows lic (xs.flatMap f) (ys.flatMap g) := by
  induction hrel with
  | nil => exact refl []
  | cons hxy _ ih =>
    exact (h _ _ hxy).append ih

end Follows

/-- What is found of a term, and what of its rewriting. -/
structure Finding.Matches (lic : Licence) (f f' : Finding) : Prop where
  type : Ty.Blurs lic f.type f'.type
  rep : f'.rep = f.rep
  issues : Follows lic f.issues f'.issues

theorem Finding.Matches.element {f f' : Finding} (h : f.Matches lic f') :
    Follows lic f.element f'.element := by
  unfold Finding.element
  rw [h.rep]
  refine h.issues.append ?_
  cases f.rep with
  | scalar => exact .refl []
  | fat => exact .of_cons

section Operators

variable {p : Payload} {T T' U U' : Ty}

theorem Payload.operatorIssues_congr (p : Payload) (h : Ty.Blurs lic T T')
    (h' : Ty.Blurs lic U U') : p.operatorIssues T' U' = p.operatorIssues T U := by
  unfold operatorIssues
  have hdec : (T' = .decimal || U' = .decimal) = (T = .decimal || U = .decimal) := by
    simp [h.decimal, h'.decimal]
  rw [hdec]

theorem Payload.operatorIssues_nil (hop : p.op = "+" ∨ p.op = "*") (T U : Ty) :
    p.operatorIssues T U = [] := by
  unfold operatorIssues
  rcases hop with hop | hop <;> rw [hop] <;> cases (T = .decimal || U = .decimal) <;> rfl

theorem Payload.operatorIssues_integer {op : Arith}
    (hop : BinaryOp.ofText? p.op = some (.arith op)) :
    p.operatorIssues .integer .integer = [] := by
  unfold operatorIssues
  rw [hop]
  rfl

theorem Payload.unaryIssues_cases (p : Payload) (h : Ty.Blurs lic T T') (rep : Rep) :
    p.unaryIssues T rep = [] ∧ p.unaryIssues T' rep = [] ∨
      p.unaryIssues T rep ≠ [] ∧ p.unaryIssues T' rep ≠ [] := by
  unfold unaryIssues
  have hdec : decide (T' = .decimal) = decide (T = .decimal) := by
    simp [h.decimal]
  rw [hdec]
  split
  · exact Or.inl ⟨rfl, rfl⟩
  · split
    · exact Or.inl ⟨rfl, rfl⟩
    · split
      · exact Or.inl ⟨rfl, rfl⟩
      · exact Or.inr ⟨nofun, nofun⟩

end Operators

/-- Rules that make issues that follow from findings that match. -/
structure Rules.Steady (lic : Licence) (rules : Rules) : Prop where
  print {f f' : Finding} : f.Matches lic f' → Follows lic (rules.print f) (rules.print f')
  length {f f' : Finding} (kind : Kind) : f.Matches lic f' →
    Follows lic (rules.length kind f) (rules.length kind f')
  call {sym sym' : Symbol} {args args' : List Finding} (kind : Kind) (name : Bytes) :
    sym.Alike (Ty.Blurs lic) sym' → Forall₂ (Finding.Matches lic) args args' →
      Follows lic (rules.call kind name sym args) (rules.call kind name sym' args')
  result {sym sym' : Symbol} (count : Nat) : sym.Alike (Ty.Blurs lic) sym' →
    rules.result sym' count = rules.result sym count
  binary {l l' r r' : Finding} (p : Payload) : l.Matches lic l' → r.Matches lic r' →
    Follows lic (rules.binary p l r) (rules.binary p l' r')
  constant {l r : Finding} {p : Payload} {op : Arith} :
    BinaryOp.ofText? p.op = some (.arith op) → l.type = .integer → r.type = .integer →
      l.issues = [] → r.issues = [] → rules.binary p l r = []
  product {p q : Payload} {f f' two : Finding} : p.op = "*" → q.op = "+" → f.Matches lic f' →
    two.type = .integer → two.issues = [] →
      Follows lic (rules.binary p f two) (rules.binary q f' f') ∧
        Follows lic (rules.binary p two f) (rules.binary q f' f')
  unary {f f' : Finding} (p : Payload) : f.Matches lic f' →
    Follows lic (rules.unary p f) (rules.unary p f')
  fit {f f' : Finding} {T T' : Ty} : f.Matches lic f' → T'.rep = T.rep →
    Follows lic (rules.fit f T) (rules.fit f' T')

namespace Arm64

theorem fittingArgs_congr {args args' : List Finding}
    (h : Forall₂ (Finding.Matches lic) args args') (words : Nat) :
    fittingArgs words args' = fittingArgs words args := by
  induction h generalizing words with
  | nil => rfl
  | cons hf _ ih => rw [fittingArgs, fittingArgs, hf.type.rep, ih]

/-- The rules of this backend are steady. -/
theorem steady_rules (lic : Licence) : rules.Steady lic where
  print {f f'} h := by
    simp only [rules]
    rcases h.type with heq | ⟨hlic, hint, hrep, hne⟩
    · rw [heq]
      split_ifs
      · exact .of_cons
      · exact h.issues
    · rw [hint, if_neg (by decide)]
      by_cases hvoid : f'.type = .void
      · rw [hvoid]
        refine ⟨fun _ i hi => ?_, fun _ heq => absurd heq (cons_ne_nil _ _)⟩
        rw [mem_singleton.mp hi]
        exact ⟨hlic, rfl⟩
      · have harray : f'.type ≠ .array := fun heq => absurd hrep (by rw [heq]; decide)
        rw [if_neg (by simp [hvoid, harray])]
        exact h.issues
  length kind h := by
    simp only [rules]
    rw [h.rep]
    exact h.issues.append (.refl _)
  call {sym sym' args args'} kind name hsym hargs := by
    simp only [rules]
    rw [fittingArgs_congr hargs, ← hargs.length_eq]
    have hkept := rel_reverse (forall₂_take (fittingArgs 0 args) hargs)
    exact Follows.append (.refl _) (Follows.flatMap hkept fun _ _ h => h.issues)
  result count h := by
    simp only [rules]
    rw [h.result]
  binary p hl hr := by
    simp only [rules]
    rw [hl.type.rep, hr.type.rep, p.operatorIssues_congr hl.type hr.type]
    split
    · exact .of_cons
    · exact (hl.issues.append hr.issues).append (.refl _)
  constant hop hl hr hli hri := by
    simp only [rules]
    rw [hl, hr, hli, hri, operatorIssues_integer hop]
    rfl
  product {p q f f' two} hp hq h htwo hnone := by
    simp only [rules]
    rw [h.type.rep, htwo, hnone, operatorIssues_nil (Or.inr hp),
      operatorIssues_nil (Or.inr hp), operatorIssues_nil (Or.inl hq)]
    have hint : Ty.integer.rep = .scalar := by decide
    cases f.type.rep with
    | fat => exact ⟨.of_ne (by simp) (by simp), .of_ne (by simp) (by simp)⟩
    | scalar => simpa [hint] using h.issues.twice
  unary {f f'} p h := by
    simp only [rules]
    rw [h.rep]
    refine h.issues.append ?_
    rcases p.unaryIssues_cases h.type f.rep with ⟨hnil, hnil'⟩ | ⟨hne, hne'⟩
    · rw [hnil, hnil']
      exact .refl []
    · exact .of_ne hne hne'
  fit h _ := h.issues

end Arm64

namespace Wasm

theorem fit_follows {f f' : Finding} {T T' : Ty} (h : f.Matches lic f') (hrep : T'.rep = T.rep) :
    Follows lic (fitIssues f T) (fitIssues f' T') := by
  unfold fitIssues
  rw [h.rep, hrep]
  refine h.issues.append ?_
  split
  · exact .refl []
  · exact .of_cons

theorem pass_follows {args args' : List Finding}
    (h : Forall₂ (Finding.Matches lic) args args') (params : List Param) :
    Follows lic (passIssues params args) (passIssues params args') := by
  induction h generalizing params with
  | nil => cases params <;> exact .refl []
  | cons hf _ ih =>
    cases params with
    | nil => exact .refl []
    | cons _ params =>
      exact (fit_follows hf rfl).append (ih params)

/-- A refusal hides the issues of the operands, so it matters that both sides refuse. -/
theorem steady_rules (lic : Licence) : rules.Steady lic where
  print {f f'} h := by
    simp only [rules]
    rcases h.type with heq | ⟨hlic, hint, hrep, hne⟩
    · rw [heq]
      refine Follows.append ?_ h.issues
      split
      · exact .of_cons
      · split
        · exact .of_cons
        · exact .refl []
    · rw [hint, if_neg (by decide), if_neg (by decide), if_neg hne]
      refine Follows.append ?_ h.issues
      by_cases hvoid : f'.type = .void
      · rw [hvoid]
        refine ⟨fun _ i hi => ?_, fun _ heq => absurd heq (cons_ne_nil _ _)⟩
        rw [mem_singleton.mp hi]
        exact ⟨hlic, rfl⟩
      · have harray : f'.type ≠ .array := fun heq => absurd hrep (by rw [heq]; decide)
        rw [if_neg (by simp [hvoid, harray])]
        exact .refl []
  length {f f'} kind h := by
    simp only [rules]
    have hfat (type : Ty) : (type = .text || type = .array) = true ↔ type.rep = .fat := by
      unfold Ty.rep
      cases (type = .text || type = .array) <;> simp
    simp only [hfat, h.type.rep]
    split
    · exact h.issues
    · exact .of_cons
  call {sym sym' args args'} kind name hsym hargs := by
    simp only [rules]
    rw [← hargs.length_eq, ← hsym.params]
    split
    · exact pass_follows hargs sym.params
    · exact .of_cons
  result count h := by
    simp only [rules]
    rw [h.result, h.params]
  binary {l l' r r'} p hl hr := by
    simp only [rules]
    rw [hl.type.rep, hr.type.rep, p.operatorIssues_congr hl.type hr.type]
    split
    · exact .of_cons
    · cases p.operatorIssues l.type r.type with
      | nil => exact hl.issues.append hr.issues
      | cons => exact .of_cons
  constant hop hl hr hli hri := by
    simp only [rules]
    rw [hl, hr, hli, hri, operatorIssues_integer hop]
    rfl
  product {p q f f' two} hp hq h htwo hnone := by
    simp only [rules]
    rw [h.type.rep, htwo, hnone, operatorIssues_nil (Or.inr hp),
      operatorIssues_nil (Or.inr hp), operatorIssues_nil (Or.inl hq)]
    have hint : Ty.integer.rep = .scalar := by decide
    cases f.type.rep with
    | fat => exact ⟨.of_ne (by simp) (by simp), .of_ne (by simp) (by simp)⟩
    | scalar => simpa [hint] using h.issues.twice
  unary {f f'} p h := by
    simp only [rules]
    rw [h.type.rep]
    rcases p.unaryIssues_cases h.type f.type.rep with ⟨hnil, hnil'⟩ | ⟨hne, hne'⟩
    · rw [hnil, hnil']
      exact h.issues
    · rcases exists_cons_of_ne_nil hne with ⟨i, is, heq⟩
      rcases exists_cons_of_ne_nil hne' with ⟨i', is', heq'⟩
      rw [heq, heq']
      exact .of_cons
  fit h hrep := fit_follows h hrep

end Wasm

end Codegen
