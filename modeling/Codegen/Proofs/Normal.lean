import Codegen.Proofs.Frame

/-!
# Simplified Trees Stay as They Are

A pass goes through a tree once, children before parents, and never comes back to a node. It
is still enough. A node is left behind with its children simplified, and nothing that happens
above it changes them, so whatever could be done at the node would have been done when it was
its turn. The replacements need a look of their own: a literal has no operands, and the sum of
a factor with its copy is a sum of two things of which neither is a literal.

A tree is normal if no simplification applies at any of its nodes. A pass ends on a normal
tree, and a pass over a normal tree writes back what is there.

## Theorems

* `run_idempotent`: A second pass changes nothing.
-/

namespace Codegen

open List

namespace Tree

variable {t : Tree} {ts : List Tree} {p : Payload}

/-- No simplification applies at a node: an operation has no value that could be computed and
    doubles nothing, and only the last statement of a list may be a `return`. -/
structure Inert (p : Payload) (ts : List Tree) : Prop where
  operation : ∀ l r, p.kind = .binary → ts = [l, r] → folded? p.op l r = none ∧
    doubled? p.op l r = none
  statements : p.kind.isBlockLike = true → ∀ t ∈ ts.dropLast, t.kind? ≠ some .ret

/-- No simplification applies at any node. -/
inductive Normal : List Tree → Prop where
  | nil : Normal []
  | cons (p : Payload) (ts us : List Tree) (here : Inert p ts) (children : Normal ts)
      (siblings : Normal us) : Normal (.node p ts :: us)

theorem Normal.consOne {us : List Tree} (h : Normal [t]) (h' : Normal us) : Normal (t :: us) := by
  cases h with
  | cons p ts _ here children => exact .cons p ts us here children h'

theorem Normal.take (h : Normal ts) (count : Nat) : Normal (ts.take count) := by
  induction h generalizing count with
  | nil => simpa using Normal.nil
  | cons p ts _ here children _ _ ih =>
    cases count with
    | zero => exact .nil
    | succ count => exact .cons p ts _ here children (ih count)

theorem Normal.of_mem (h : Normal ts) (ht : t ∈ ts) : Normal [t] := by
  induction h with
  | nil => cases ht
  | cons p ts _ here children _ _ ih =>
    rcases mem_cons.mp ht with rfl | ht
    · exact .cons p ts [] here children .nil
    · exact ih ht

theorem ne_ret_of_mem_reachable (ht : t ∈ (reachable ts).dropLast) : t.kind? ≠ some .ret := by
  induction ts with
  | nil => cases ht
  | cons u us ih =>
    rw [reachable] at ht
    split_ifs at ht with hret
    · cases ht
    · cases hrest : reachable us with
      | nil =>
        rw [hrest] at ht
        cases ht
      | cons =>
        rw [hrest] at ht ih
        rcases mem_cons.mp ht with rfl | ht
        · exact hret
        · exact ih ht

theorem reachable_of_dropLast (h : ∀ t ∈ ts.dropLast, t.kind? ≠ some .ret) : reachable ts = ts := by
  induction ts with
  | nil => rfl
  | cons u us ih =>
    cases us with
    | nil =>
      rw [reachable]
      split <;> rfl
    | cons v vs =>
      rcases forall_mem_cons.mp h with ⟨hfirst, hrest⟩
      rw [reachable, if_neg hfirst, ih hrest]

theorem isBlockLike_binary (h : p.kind = .binary) : p.kind.isBlockLike = false := by
  rw [h]
  rfl

theorem normal_ofInteger (value : Int64) : Normal [ofInteger value] := by
  refine .cons _ _ _ ⟨fun l r hkind => ?_, fun hblock => ?_⟩ .nil .nil
  · cases hkind
  · cases hblock

theorem literal?_of_doubled? {op : Bytes} {l r : Tree} (h : doubled? op l r = some t) :
    t.literal? = none := by
  unfold doubled? doubles at h
  split at h
  · split at h
    · next hleft =>
      simp only [Bool.and_eq_true, decide_eq_true_eq] at hleft
      rw [← Option.some.inj h]
      exact hleft.1.2
    · split at h
      · next hright =>
        simp only [Bool.and_eq_true, decide_eq_true_eq] at hright
        rw [← Option.some.inj h]
        exact hright.1.2
      · cases h
  · cases h

theorem normal_doubled {l r : Tree} (type : Ty) (h : Normal [l, r])
    (ht : doubled? p.op l r = some t) :
    Normal [.node { kind := .binary, op := "+", type := type } [t, t]] := by
  have hone := h.of_mem (mem_of_doubled? ht)
  refine .cons _ _ _ ⟨fun x y _ hxy => ?_, fun hblock => ?_⟩ (hone.consOne hone) .nil
  · -- The operands of the sum are the factor twice, and it is no literal.
    obtain ⟨rfl, rfl⟩ : t = x ∧ t = y := by simpa using hxy
    refine ⟨?_, rfl⟩
    unfold folded?
    rw [literal?_of_doubled? ht]
    split
    · next hnone _ => cases hnone
    · rfl
  · cases hblock

theorem normal_settled (h : Normal ts)
    (hop : ∀ l r, p.kind = .binary → ts = [l, r] → folded? p.op l r = none ∧
      doubled? p.op l r = none) : Normal [settled p ts] := by
  unfold settled
  split_ifs with hblock
  · rw [reachable_eq_take]
    refine .cons _ _ _ ⟨fun l r hkind => ?_, fun _ t ht => ?_⟩ (h.take _) .nil
    · rw [isBlockLike_binary hkind] at hblock
      cases hblock
    · rw [← reachable_eq_take] at ht
      exact ne_ret_of_mem_reachable ht
  · exact .cons _ _ _ ⟨hop, fun hyes => absurd hyes hblock⟩ h .nil

theorem normal_reduced (p : Payload) (h : Normal ts) : Normal [reduced p ts] := by
  have hreduces := reduces p ts
  generalize reduced p ts = t at hreduces ⊢
  cases hreduces with
  | folded => exact normal_ofInteger _
  | doubled _ hfactor => exact normal_doubled p.type h hfactor
  | settled hneither => exact normal_settled h hneither

/-- Simplified trees are normal. -/
theorem normal_simplifiedAll (h : Solid ts) : Normal (simplifiedAll ts) := by
  induction h with
  | nil => exact .nil
  | cons p _ _ _ _ ihC ihS =>
    exact (normal_reduced p ihC).consOne ihS

end Tree

variable {n : Node} {i : Nat}

theorem Arena.put_same {a : Arena} (h : a.get? (i : Int) = some n) : a.put (i : Int) n = a := by
  rw [get?_ofNat] at h
  have hnodes : a.nodes.setIfInBounds i n = a.nodes := by
    refine Array.ext_getElem? fun j => ?_
    by_cases hij : i = j
    · subst hij
      rw [Array.getElem?_setIfInBounds_self, if_pos (Array.getElem?_eq_some_iff.mp h).1, h]
    · exact Array.getElem?_setIfInBounds_ne hij
  unfold put
  rw [Int.toNat_natCast, hnodes]

namespace Optimize

open Arena

variable {a : Arena} {foot : List NodeId} {ts : List Tree}

theorem passes_settle_inert (hroot : a.get? (i : Int) = some n) (h : Forest a n.children ts foot)
    (hinert : Tree.Inert n.toPayload ts) (s : Stats) :
    Passes (settle (i : Int) n) s a (i : Int) s a := by
  rcases range_of_get? hroot with ⟨j, hj, hlt⟩
  obtain rfl : i = j := Int.ofNat.inj hj
  have hstored := builds_replace n i hlt
  rw [put_same hroot] at hstored
  unfold settle
  by_cases hblock : n.kind.isBlockLike = true
  · have hcount := passes_reachable h s
    rw [Tree.reachable_of_dropLast (hinert.statements hblock), ← h.length_eq] at hcount
    rw [if_pos hblock]
    refine passes_bind hcount (passes_bind (passes_modify _ s a) ?_)
    rw [Nat.sub_self, take_length]
    exact passes_bind (passes_lift hstored s) (passes_pure _ s a)
  · rw [if_neg hblock]
    exact passes_bind (passes_lift hstored s) (passes_pure _ s a)

theorem passes_finish_inert (hroot : a.get? (i : Int) = some n) (h : Forest a n.children ts foot)
    (hinert : Tree.Inert n.toPayload ts) (s : Stats) :
    Passes (finish (i : Int) n) s a (i : Int) s a := by
  have hsettle := passes_settle_inert hroot h hinert s
  unfold finish
  split
  · next x y hkind hxy =>
    have htwo : ts.length = 2 := by rw [← h.length_eq, hxy]; rfl
    rcases length_eq_two.mp htwo with ⟨l, r, rfl⟩
    obtain ⟨hfold, hdouble⟩ := hinert.operation l r hkind rfl
    rw [hxy] at h
    have hasked := passes_replacement? n hkind h s
    have hnone : Tree.replacement? n.toPayload l r = none := by
      unfold Tree.replacement?
      rw [hfold, hdouble]
      rfl
    rw [hnone] at hasked
    exact passes_bind hasked hsettle
  · exact hsettle

/-- A pass over normal trees gives back their indices, counts nothing and leaves the arena as
    it is. -/
theorem passes_simplify_normal {ids : List NodeId} (h : Forest a ids ts foot)
    (hnormal : Tree.Normal ts) : ∀ (depth : Nat) (s : Stats),
    foot.length ≤ depth → Passes (ids.mapM (simplify depth)) s a ids s a := by
  induction h with
  | nil => exact fun depth s _ => passes_pure [] s a
  | cons _ _ _ _ _ _ _ root children _ _ _ ihC ihS =>
    intro depth s hdepth
    simp only [length_cons, length_append] at hdepth
    cases hnormal with
    | cons _ _ _ here hchildren hsiblings =>
      cases depth with
      | zero => omega
      | succ depth =>
        rcases range_of_get? root with ⟨i, rfl, _⟩
        have hnode : Passes (simplify (depth + 1) (i : Int)) s a (i : Int) s a := by
          exact passes_bind (passes_fetch root s) (passes_bind
            (ihC hchildren depth s (by omega)) (passes_finish_inert root children here s))
        rw [mapM_cons]
        exact passes_bind hnode (passes_bind (ihS hsiblings (depth + 1) s (by omega))
          (passes_pure _ s a))

theorem builds_run_normal {root : NodeId} {t : Tree} (h : Forest a [root] [t] foot)
    (hnormal : Tree.Normal [t]) : Builds (run root) a (root, {}) a := by
  have hrun := passes_simplify_normal h hnormal (a.size + 1) {} (Nat.le_succ_of_le h.length_le)
  rcases of_builds_bind hrun with ⟨⟨root', s⟩, c, hroot, hrest⟩
  have hpure : Builds (pure ([root'], s)) c ([root], {}) a := hrest
  obtain ⟨hresult, rfl⟩ := Prod.mk.inj hpure
  obtain ⟨hids, rfl⟩ := Prod.mk.inj (Except.ok.inj hresult)
  obtain rfl : root' = root := (cons.inj hids).1
  exact builds_bind (builds_get c) hroot

/-- A pass over a tree in an arena that has room for it ends on a tree where no simplification
    applies, and a second pass over that gives back its root, counts nothing and leaves the arena
    as it is. -/
theorem run_idempotent {a : Arena} {root : NodeId} (h : a.IsTree root)
    (hroom : ((run root).run a).2.size ≤ capacity) :
    ∃ root' stats b, Builds (run root) a (root', stats) b ∧
      (∀ id, b.valid id = true → NodeId.Fits id) ∧ Tree.Normal [b.tree root'] ∧
      Builds (run root') b (root', { folded := 0, reduced := 0, pruned := 0 }) b := by
  rcases isTree_iff_forest.mp h with ⟨t, foot, hforest⟩
  rcases builds_run hforest with ⟨root', b, hrun, foot', hforest', _, _⟩
  have hnormal : Tree.Normal [t.simplified] := Tree.normal_simplifiedAll hforest.solid
  have htree : b.tree root' = t.simplified := hforest'.tree
  rw [hrun.arena] at hroom
  exact ⟨root', t.savings, b, hrun, fun id => fits_of_valid hroom, htree ▸ hnormal,
    builds_run_normal hforest' hnormal⟩

def doubledLate : Arena :=
  ⟨#[{ kind := .ident, name := "x" }, { kind := .integer, integer := 1 },
    { kind := .integer, integer := 1 }, { kind := .binary, op := "+", children := [1, 2] },
    { kind := .binary, op := "*", children := [0, 3] }]⟩

/-- The sum is folded to two and the product doubled in one pass, and nothing is left for a
    second one. -/
theorem run_idempotent_doubledLate : doubledLate.IsTree 4 ∧ ∃ root' stats b,
    Builds (run 4) doubledLate (root', stats) b ∧ (∀ id, b.valid id = true → NodeId.Fits id) ∧
      Tree.Normal [b.tree root'] ∧
      Builds (run root') b (root', { folded := 0, reduced := 0, pruned := 0 }) b := by
  have hones : Forest doubledLate [1, 2] _ [1, 2] :=
    .cons 1 _ [2] [] [2] [] _ rfl .nil
      (.cons 2 _ [] [] [] [] [] rfl .nil .nil (by decide) (by decide)) (by decide) (by decide)
  have hfactors : Forest doubledLate [0, 3] _ [0, 3, 1, 2] :=
    .cons 0 _ [3] [] [3, 1, 2] [] _ rfl .nil
      (.cons 3 _ [] [1, 2] [] _ [] rfl hones .nil (by decide) (by decide)) (by decide) (by decide)
  have hproduct : Forest doubledLate [4] _ [4, 0, 3, 1, 2] :=
    .cons 4 _ [] [0, 3, 1, 2] [] _ [] rfl hfactors .nil (by decide) (by decide)
  exact ⟨hproduct.isTree, run_idempotent hproduct.isTree (by decide +kernel)⟩

end Optimize

end Codegen
