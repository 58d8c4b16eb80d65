import Codegen.Proofs.Meaning
import Codegen.Proofs.Stripped

/-!
# Static Types of Optimized Expressions

A product with two that becomes a sum of the other factor with itself loses the two, and with
it the type that the two gave to the product. Where the factor is an integer or a decimal, or has
no arithmetic at all, the sum has the type of the product anyway. Elsewhere it does not: two times
a truth value is an integer, and the sum of the truth value with itself is a truth value again, so
it is printed as one.

Nothing else changes a type, and no type changes the number of words of a value. An expression
whose parts keep their types keeps its own exactly if `Tree.retains` holds of it.

## Theorems

* `optimize_typeOf`: The types before and after a pass of the optimizer.
-/

namespace Codegen

open Term Context Sample

/-- Whether the product of two with a value of a type has the type of the value's sum with
    itself. -/
def Ty.adds (type : Ty) : Bool := type.rep = .fat || type = .decimal || type = .integer

/-- A sum of a value with itself has the type of its product with an integer, except where nothing
    but the integer gave the product a type. -/
theorem arithmeticType_twice (type : Ty) :
    (arithmeticType type type = arithmeticType type .integer ↔ type ≠ .unknown) ∧
      (arithmeticType type type = arithmeticType .integer type ↔ type.adds = true) := by
  have hunknown : Ty.unknown ≠ .integer := by decide
  by_cases hfat : type.rep = .fat
  · have hne : type ≠ .unknown := fun h => absurd (h ▸ hfat) (by decide)
    simp [arithmeticType, Ty.adds, hfat, hne]
  by_cases hdecimal : type = .decimal
  · subst hdecimal
    decide
  have hint : Ty.integer.rep ≠ .fat := by decide
  have hother : Ty.integer ≠ .decimal := by decide
  by_cases hnone : type = .unknown
  · subst hnone
    decide
  · simp [arithmeticType, Ty.adds, hfat, hdecimal, hint, hother, hnone, hunknown.symm]

namespace Tree

/-- Whether a node keeps its type when its parts do. -/
def retains (ctx : Context) (p : Payload) (ts : List Tree) : Bool :=
  match p.kind, ts with
  | .binary, [l, r] =>
    match fate p.op l.simplified r.simplified with
    | .doublesLeft => p.type ≠ .unknown || ctx.typed (ofTree l) ≠ .unknown
    | .doublesRight => p.type ≠ .unknown || (ctx.typed (ofTree r)).adds
    | .folds | .stays => true
  | _, _ => true

mutual

/-- Whether every node of a tree does. -/
def steady (ctx : Context) : Tree → Bool
  | .missing => true
  | .node p ts => retains ctx p ts && steadyAll ctx ts

def steadyAll (ctx : Context) : List Tree → Bool
  | [] => true
  | t :: ts => steady ctx t && steadyAll ctx ts

end

variable {ts : List Tree} {p : Payload}

theorem steady_of_mem {ctx : Context} {t : Tree} (h : steadyAll ctx ts = true) (ht : t ∈ ts) :
    t.steady ctx = true := by
  induction ts with
  | nil => cases ht
  | cons _ _ ih =>
    rw [steadyAll, Bool.and_eq_true] at h
    rcases List.mem_cons.mp ht with rfl | ht
    · exact h.1
    · exact ih h.2 ht

theorem typed_of_heads (ctx : Context) {t t' : Term} (h : Heads t t') (hbinary : t.kind ≠ .binary)
    (hunary : t.kind ≠ .unary) (hinteger : t.kind ≠ .integer) : ctx.typed t' = ctx.typed t := by
  cases h with
  | call => rw [typed, typed]
  | computed _ _ _ _ kind => exact absurd kind (not_or.mpr ⟨hinteger, hbinary⟩)
  | node p =>
    rw [typed.eq_def, typed.eq_def]
    cases hkind : p.kind with
    | binary => exact absurd hkind hbinary
    | unary => exact absurd hkind hunary
    | _ => simp [hkind]

/-- The type that was given to an operation counts, and otherwise its operands decide. -/
theorem typed_binary (ctx : Context) (hkind : p.kind = .binary) (l r : Term) :
    ctx.typed (.node p [l, r]) =
      if p.type ≠ .unknown then p.type
      else if isComparison p.op || isLogical p.op then .boolean
      else arithmeticType (ctx.typed l) (ctx.typed r) := by
  rw [typed.eq_def]
  by_cases htype : p.type = .unknown <;> simp [hkind, htype, resolvedType?]

theorem typed_constant (ctx : Context) {t : Tree} (hf : Formed [t]) (h : t.numeral = true)
    (hplain : t.plain = true) : ctx.typed (ofTree t) = .integer := by
  have hconstant := constant_ofTree hf t (by simp) h hplain
  rw [← Arm64.rules.survey_type]
  exact (hconstant.survey (Arm64.steady_rules ⟨true, true⟩) ctx).1

theorem typed_reduced (ctx : Context) {l r : Tree} (hkind : p.kind = .binary)
    (hf : Formed [.node p [l, r]]) (hplain : (Tree.node p [l, r]).plain = true)
    (hl : ctx.typed (ofTree l.simplified) = ctx.typed (ofTree l))
    (hr : ctx.typed (ofTree r.simplified) = ctx.typed (ofTree r)) :
    ctx.typed (ofTree (simplified (.node p [l, r]))) = ctx.typed (ofTree (.node p [l, r])) ↔
      retains ctx p [l, r] = true := by
  have hparts : l.plain = true ∧ r.plain = true := by
    simp only [plain, plainAll, Bool.and_true, Bool.and_eq_true] at hplain
    exact hplain.2
  cases hf with
  | cons _ _ _ fits children _ =>
  have hnumeral := numeral_fate children hkind
  have hfate := simplified_fate p l r hkind
  have hsum (t : Tree) : ctx.typed (ofTree (twice p t)) = if p.type ≠ .unknown then p.type else
      arithmeticType (ctx.typed (ofTree t)) (ctx.typed (ofTree t)) := by
    exact typed_binary ctx rfl _ _
  have hproduct (hop : p.op = "*") : ctx.typed (ofTree (.node p [l, r])) =
      if p.type ≠ .unknown then p.type else
        arithmeticType (ctx.typed (ofTree l)) (ctx.typed (ofTree r)) := by
    rw [ofTree_binary hkind, typed_binary ctx hkind, hop]
    rfl
  simp only [retains, hkind]
  generalize fate p.op l.simplified r.simplified = outcome at *
  -- A product that is doubled is the only node that loses an operand, and its say in the type.
  cases outcome with
  | folds =>
    obtain ⟨value, _, _, _, heq, -⟩ := hfate
    rw [heq, typed_constant ctx (formed_ofInteger value) rfl rfl,
      typed_constant ctx (.cons p _ [] fits children .nil) hnumeral hplain]
    simp
  | doublesLeft =>
    rw [hfate.1, hsum, hl, hproduct hfate.2.1,
      typed_constant ctx (children.sublist (by simp)) hnumeral hparts.2]
    by_cases htype : p.type = .unknown
    · simpa [htype] using (arithmeticType_twice (ctx.typed (ofTree l))).1
    · simp [htype]
  | doublesRight =>
    rw [hfate.1, hsum, hr, hproduct hfate.2.1,
      typed_constant ctx (children.sublist (by simp)) hnumeral hparts.1]
    by_cases htype : p.type = .unknown
    · simpa [htype] using (arithmeticType_twice (ctx.typed (ofTree r))).2
    · simp [htype]
  | stays =>
    rw [hfate, ofTree_binary hkind, ofTree_binary hkind, typed_binary ctx hkind,
      typed_binary ctx hkind, hl, hr]
    simp

/-- Which nodes keep their types. -/
theorem typed_simplified (ctx : Context) (hf : Formed ts) (hplain : plainAll ts = true) :
    ∀ p us, .node p us ∈ ts → steadyAll ctx us = true →
      (ctx.typed (ofTree (simplified (.node p us))) = ctx.typed (ofTree (.node p us)) ↔
        retains ctx p us = true) := by
  induction hf with
  | nil => exact fun _ _ => nofun
  | cons _ ts _ fits children _ ihC ihS =>
    rw [plainAll, Bool.and_eq_true] at hplain
    have hchildren : plainAll ts = true := by
      rw [plain, Bool.and_eq_true] at hplain
      exact hplain.1.2
    intro q vs hmem hsteady
    rcases List.mem_cons.mp hmem with heq | hmem
    · obtain ⟨rfl, rfl⟩ := Tree.node.inj heq
      have hself : Formed [.node q vs] := .cons q vs [] fits children .nil
      -- The parts are nodes, and each retains its type by assumption.
      have hparts : ∀ c ∈ vs, ctx.typed (ofTree c.simplified) = ctx.typed (ofTree c) := by
        intro c hc
        have hkept := steady_of_mem hsteady hc
        cases c with
        | missing => rfl
        | node r ws =>
          rw [steady, Bool.and_eq_true] at hkept
          exact (ihC hchildren r ws hc hkept.2).mpr hkept.1
      by_cases hbinary : q.kind = .binary
      · rcases fits.operands (by simp [hbinary]) with ⟨l, r, rfl⟩
        exact typed_reduced ctx hbinary hself hplain.1 (hparts l (by simp)) (hparts r (by simp))
      have hretains : retains ctx q vs = true := by
        unfold retains
        cases hkind : q.kind with
        | binary => exact absurd hkind hbinary
        | _ => rfl
      refine iff_of_true ?_ hretains
      by_cases hunary : q.kind = .unary
      · have hlen : vs.length = 1 := by simpa [Payload.Fits, hunary] using fits
        rcases List.length_eq_one_iff.mp hlen with ⟨x, rfl⟩
        rw [simplified_other q _ hbinary, settled, if_neg (by rw [hunary]; decide),
          ofTree_node q _ (by simp [hunary]) (by simp [hunary]),
          ofTree_node q _ (by simp [hunary]) (by simp [hunary]), typed.eq_def, typed.eq_def]
        simp [hunary, simplifiedAll, ofTrees, hparts x (by simp)]
      by_cases hinteger : q.kind = .integer
      · have hlen : vs.length = 0 := by
          simp only [Payload.Fits, hinteger] at fits
          exact fits.1
        rw [List.length_eq_zero_iff.mp hlen, simplified_other q _ hbinary, settled,
          if_neg (by rw [hinteger]; decide), simplifiedAll]
      -- The type of any other node follows from its payload, which a rewriting keeps.
      have hrecast : Recast ⟨true, true⟩ _ _ := recast_simplified rfl hself
        (by rw [plainAll, hplain.1]; rfl) (Or.inl rfl)
      rcases hrecast.heads with _ | ⟨hhead, _⟩
      have hkind : (ofTree (.node q vs)).kind = q.kind := kind_ofTree q vs
      exact typed_of_heads ctx hhead (by rwa [hkind]) (by rwa [hkind]) (by rwa [hkind])
    · exact ihS hplain.2 q vs hmem hsteady

end Tree

/-- A pass of the optimizer over an expression whose constants were given no types, in every
    context: both trees have a type, and the two have as many words. They are the same, or the
    first is an integer and the second is not a decimal. If the parts of the expression keep their
    types, they are the same exactly if the expression retains its own. -/
theorem optimize_typeOf (a : Arena) (root : NodeId) (h : ∃ t foot, a.Forest [root] [t] foot)
    (hf : Tree.Formed [a.tree root]) (hplain : (a.tree root).plain = true) :
    ∃ root' stats b, (Optimize.run root).run a = (.ok (root', stats), b) ∧
      ∀ ctx : Context, ∃ T T', ctx.typeOf (ofTree (a.tree root)) = .ok T ∧
        ctx.typeOf (ofTree (b.tree root')) = .ok T' ∧ T'.rep = T.rep ∧
        (T' = T ∨ T = .integer ∧ T' ≠ .decimal) ∧
        ∀ p ts, a.tree root = .node p ts → Tree.steadyAll ctx ts = true →
          (T' = T ↔ Tree.retains ctx p ts = true) := by
  rcases h with ⟨t, foot, hforest⟩
  rcases Optimize.builds_run hforest with ⟨root', b, hrun, foot', hforest', _⟩
  refine ⟨root', t.savings, b, hrun, fun ctx => ?_⟩
  obtain rfl : a.tree root = t := hforest.tree
  rw [show b.tree root' = (a.tree root).simplified from hforest'.tree]
  generalize a.tree root = t at hf hplain
  have hall : Tree.plainAll [t] = true := by
    rw [Tree.plainAll, hplain]
    rfl
  have hagrees : ctx.Agrees Eq ctx := .refl (fun _ => rfl) ctx
  have hbefore := hagrees.typeOf hf.terms.1 (ofTree t) (by simp [ofTrees])
  have hafter := hagrees.typeOf (Tree.formed_simplifiedAll hf).terms.1 (ofTree t.simplified)
    (by simp [Tree.simplifiedAll, ofTrees])
  refine ⟨_, _, hbefore, hafter, ?_⟩
  have hrecast : Recast ⟨true, true⟩ _ _ :=
    Tree.recast_simplified rfl hf hall (Or.inl rfl)
  rcases hrecast.surveyed (Arm64.steady_rules ⟨true, true⟩) with _ | ⟨hfirst, _⟩
  have hblurs := hfirst.typed (.refl .refl ctx)
  refine ⟨hblurs.rep, hblurs.imp id fun h => ⟨h.2.1, h.2.2.2⟩, ?_⟩
  rintro p ts rfl hsteady
  exact Tree.typed_simplified ctx hf hall p ts (by simp) hsteady

namespace Sample

/-- A function `f`, an integer `x` and a truth value `b`. -/
def scope : Context :=
  (({ target := [] } : Context).declareHere (.ofFunction "f" [] .integer [])).declareHere
    (.staticVar "x" .integer []) |>.declareHere (.staticVar "b" .boolean [])

def product (l r : Tree) : Tree := .node { kind := .binary, op := "*" } [l, r]

def named (name : Bytes) : Tree := .node { kind := .ident, name } []

end Sample

theorem optimize_typeOf_effects :
    ∃ root' stats b, (Optimize.run 8).run arena = (.ok (root', stats), b) ∧
      scope.typeOf (ofTree (b.tree root')) = .ok .integer := by
  have hname (name : Bytes) : Tree.Formed [named name] := .cons _ _ _ rfl .nil .nil
  have hproduct {l r : Tree} (hf : Tree.Formed [l, r]) : Tree.Formed [product l r] :=
    .cons _ _ _ ⟨rfl, rfl⟩ hf .nil
  have hf : Tree.Formed [arena.tree 8] := by
    refine .cons _ _ _ ⟨rfl, rfl⟩ (.cons _ _ _ (by decide : 1 ≤ 2) ?_ ?_) .nil
    · exact (hname "f").consOne
        (hproduct ((Tree.formed_ofInteger 3).consOne (Tree.formed_ofInteger 4)))
    · exact hproduct ((hname "x").consOne (Tree.formed_ofInteger 2))
  rcases optimize_typeOf arena 8 forest hf rfl with ⟨root', stats, b, hrun, htypes⟩
  rcases htypes scope with ⟨T, T', hbefore, hafter, -, -, hkept⟩
  obtain rfl : T = .integer := Except.ok.inj (hbefore.symm.trans (by rfl))
  obtain rfl := (hkept _ _ rfl rfl).mpr rfl
  exact ⟨root', stats, b, hrun, hafter⟩

/-- Two times a truth value is an integer, and becomes a truth value. A name that stands for
    nothing is an integer when it is multiplied by two, and its sum with itself has no type. -/
theorem optimize_typeOf_lost :
    scope.typeOf (ofTree (product (.ofInteger 2) (named "b"))) = .ok .integer ∧
    scope.typeOf (ofTree (product (.ofInteger 2) (named "b")).simplified) =
      .ok .boolean ∧
    scope.typeOf (ofTree (product (named "y") (.ofInteger 2))) = .ok .integer ∧
    scope.typeOf (ofTree (product (named "y") (.ofInteger 2)).simplified) =
      .ok .unknown :=
  ⟨rfl, rfl, rfl, rfl⟩

end Codegen
