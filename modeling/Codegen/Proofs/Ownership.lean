import Codegen.Proofs.Arena
import Mathlib.Data.Finset.Card
import Mathlib.Data.List.Nodup
import Mathlib.Data.List.Pairwise
import Mathlib.Logic.Relation

/-!
# Exclusive Ownership

Whoever changes nodes in place relies on a node having one owner: a change below one child
must not show below another. In an arena nothing but indices stands for that, so this module
says it of the graph of indices. A node reaches its children and what they reach, and the
nodes that an index reaches form a tree when all of them are there, none reaches itself
through a child, and each is held at one position of one node (`IsTree`).

A `Forest` says the same from the inside, with the tree that the nodes make up, and it is what
operations on an arena are described by. One direction is counting: the indices of a forest
are its roots and the children of its nodes, each once (`Forest.perm`). For the other, two
nodes with a common descendant are one above the other, so the children of a node share
nothing, and a child reaches fewer nodes than its parent.
-/

namespace Codegen

open List

variable {P : Payload → Nat → Prop}

namespace Arena

variable {position position' : Nat} {child id i root : NodeId} {a : Arena}

/-- The children of the node at an index; none if there is no node. -/
def childrenOf (a : Arena) (id : NodeId) : List NodeId := ((a.get? id).map Node.children).getD []

/-- A node has another one as its child at a position. -/
def Holds (a : Arena) (parent : NodeId) (position : Nat) (child : NodeId) : Prop :=
  (a.childrenOf parent)[position]? = some child

/-- What can be reached from an index. -/
def Reaches (a : Arena) : NodeId → NodeId → Prop :=
  Relation.ReflTransGen fun parent child => child ∈ a.childrenOf parent

/-- The nodes that can be reached from an index form a tree. -/
structure IsTree (a : Arena) (root : NodeId) : Prop where
  present : ∀ id, a.Reaches root id → ∃ n, a.get? id = some n
  acyclic : ∀ parent child, a.Reaches root parent → child ∈ a.childrenOf parent →
    ¬ a.Reaches child parent
  exclusive : ∀ parent parent' position position' child, a.Reaches root parent →
    a.Reaches root parent' → a.Holds parent position child → a.Holds parent' position' child →
    parent = parent' ∧ position = position'

theorem childrenOf_eq {n : Node} (h : a.get? id = some n) : a.childrenOf id = n.children := by
  rw [childrenOf, h]
  rfl

theorem Holds.mem {parent : NodeId} (h : a.Holds parent position child) :
    child ∈ a.childrenOf parent :=
  mem_of_getElem? h

theorem Holds.parent {parent : NodeId} (h : a.Holds parent position child) :
    ∃ n, a.get? parent = some n ∧ n.children[position]? = some child := by
  unfold Holds childrenOf at h
  cases hget : a.get? parent with rw [hget] at h
  | none => cases h
  | some n => exact ⟨n, rfl, h⟩

/-! ## From forests to graphs -/

namespace Forest

variable {ids foot : List NodeId} {ts : List Tree}

theorem perm (h : Forest a ids ts foot) : foot.Perm (ids ++ foot.flatMap a.childrenOf) := by
  induction h with
  | nil => exact .nil
  | cons id n _ _ _ _ _ root _ _ _ _ ihC ihS =>
    rw [flatMap_cons, flatMap_append, childrenOf_eq root]
    refine .cons id ((ihC.append ihS).trans ?_)
    rw [← append_assoc n.children]
    exact (perm_append_comm_assoc _ _ _)

theorem roots_subset (h : Forest a ids ts foot) (hid : id ∈ ids) : id ∈ foot :=
  h.perm.mem_iff.mpr (mem_append_left _ hid)

theorem children_subset (h : Forest a ids ts foot) {parent : NodeId} (hparent : parent ∈ foot)
    (hchild : child ∈ a.childrenOf parent) : child ∈ foot :=
  h.perm.mem_iff.mpr (mem_append_right _ (mem_flatMap.mpr ⟨parent, hparent, hchild⟩))

/-- The indices of a forest are those that its roots reach. -/
theorem mem_iff_reaches (h : Forest a ids ts foot) : i ∈ foot ↔ ∃ id ∈ ids, a.Reaches id i := by
  constructor
  · induction h with
    | nil => simp
    | cons id _ _ _ _ _ _ root _ _ _ _ ihC ihS =>
      intro hi
      rcases mem_cons.mp hi with rfl | hi
      · exact ⟨i, mem_cons_self, .refl⟩
      rcases mem_append.mp hi with hi | hi
      · rcases ihC hi with ⟨child, hchild, hreaches⟩
        rw [← childrenOf_eq root] at hchild
        exact ⟨id, mem_cons_self, .head hchild hreaches⟩
      · rcases ihS hi with ⟨other, hother, hreaches⟩
        exact ⟨other, mem_cons_of_mem _ hother, hreaches⟩
  · rintro ⟨id, hid, hreaches⟩
    induction hreaches with
    | refl => exact h.roots_subset hid
    | tail _ hchild ih => exact h.children_subset ih hchild

theorem exclusive (h : Forest a ids ts foot) {parent parent' : NodeId} (hparent : parent ∈ foot)
    (hparent' : parent' ∈ foot) (hholds : a.Holds parent position child)
    (hholds' : a.Holds parent' position' child) : parent = parent' ∧ position = position' := by
  -- All children together are part of the indices of the forest, each of which is there once.
  have hnodup := h.perm.nodup_iff.mp h.nodup
  rcases nodup_flatMap.mp hnodup.of_append_right with ⟨hinner, hapart⟩
  have hsame : parent = parent' := by
    by_contra hne
    have hsymm : Std.Symm (Function.onFun List.Disjoint a.childrenOf) := ⟨fun _ _ h => h.symm⟩
    exact hapart.forall hparent hparent' hne hholds.mem hholds'.mem
  subst hsame
  have hlt : position < (a.childrenOf parent).length := (List.getElem?_eq_some_iff.mp hholds).1
  exact ⟨rfl, (getElem?_inj hlt (hinner parent hparent)).mp (hholds.trans hholds'.symm)⟩

theorem isTree {t : Tree} (h : Forest a [root] [t] foot) : a.IsTree root := by
  have hmem {i : NodeId} (hi : a.Reaches root i) : i ∈ foot :=
    h.mem_iff_reaches.mpr ⟨root, mem_singleton_self root, hi⟩
  refine ⟨fun id hid => ?_, fun parent child hparent hchild hback => ?_, ?_⟩
  · rcases h.subforest (hmem hid) with ⟨n, _, _, hget, _⟩
    exact ⟨n, hget⟩
  · -- What a child reaches is in the forest below its parent, and the parent is not.
    rcases h.subforest (hmem hparent) with ⟨n, us, part, hget, hpart, hfresh⟩
    rw [childrenOf_eq hget] at hchild
    exact hfresh (hpart.mem_iff_reaches.mpr ⟨child, hchild, hback⟩)
  · intro parent parent' position position' child hparent hparent' hholds hholds'
    exact h.exclusive (hmem hparent) (hmem hparent') hholds hholds'

/-- Properties of the nodes of a forest are those of its trees. -/
theorem every_iff (h : Forest a ids ts foot) :
    Tree.Every P ts ↔ ∀ i ∈ foot, ∀ n, a.get? i = some n → P n.toPayload n.children.length := by
  induction h with
  | nil => exact ⟨fun _ => nofun, fun _ => .nil⟩
  | cons id n _ _ _ _ _ root children _ _ _ ihC ihS =>
    constructor
    · intro hevery i hi m hget
      cases hevery with
      | cons _ _ _ _ hchildren hsiblings =>
        rcases mem_cons.mp hi with rfl | hi
        · cases root.symm.trans hget
          rwa [children.length_eq]
        rcases mem_append.mp hi with hi | hi
        · exact ihC.mp hchildren i hi m hget
        · exact ihS.mp hsiblings i hi m hget
    · intro hall
      refine .cons _ _ _ ?_ (ihC.mpr fun i hi => ?_) (ihS.mpr fun i hi => ?_)
      · rw [← children.length_eq]
        exact hall id mem_cons_self n root
      · exact hall i (mem_cons_of_mem _ (mem_append_left _ hi))
      · exact hall i (mem_cons_of_mem _ (mem_append_right _ hi))

theorem ofEach (heach : ∀ id ∈ ids, ∃ t part, Forest a [id] [t] part)
    (hapart : ids.Pairwise fun x y => ∀ i, a.Reaches x i → ¬ a.Reaches y i) :
    ∃ us part, Forest a ids us part := by
  induction ids with
  | nil => exact ⟨[], [], .nil⟩
  | cons id _ ih =>
    rcases heach id mem_cons_self with ⟨t, first, hfirst⟩
    rw [pairwise_cons] at hapart
    rcases ih (fun x hx => heach x (mem_cons_of_mem _ hx)) hapart.2 with ⟨us, others, hrest⟩
    refine ⟨_, _, hfirst.consOne hrest fun i hi hin => ?_⟩
    rcases hfirst.mem_iff_reaches.mp hi with ⟨x, hx, hreaches⟩
    rcases hrest.mem_iff_reaches.mp hin with ⟨y, hy, hreaches'⟩
    rw [mem_singleton.mp hx] at hreaches
    exact hapart.1 y hy i hreaches hreaches'

end Forest

/-! ## From graphs to forests -/

namespace IsTree

theorem comparable (h : a.IsTree root) {x y : NodeId} (hx : a.Reaches root x)
    (hy : a.Reaches root y) (hxi : a.Reaches x i) (hyi : a.Reaches y i) :
    a.Reaches x y ∨ a.Reaches y x := by
  -- Both ways down end in the same index, so they are compared from their ends: as long as
  -- neither is used up, the last steps come from the same parent.
  induction hxi with
  | refl => exact .inr hyi
  | @tail parent i hparent hchild ih =>
    rcases Relation.ReflTransGen.cases_tail hyi with rfl | ⟨parent', hparent', hchild'⟩
    · exact .inl (.tail hparent hchild)
    · rcases mem_iff_getElem?.mp hchild with ⟨position, hholds⟩
      rcases mem_iff_getElem?.mp hchild' with ⟨position', hholds'⟩
      have hsame := h.exclusive parent parent' position position' i (hx.trans hparent)
        (hy.trans hparent') hholds hholds'
      exact ih (hsame.1 ▸ hparent')

theorem not_reaches_sibling (h : a.IsTree root) {parent x y : NodeId}
    (hparent : a.Reaches root parent) (hx : a.Holds parent position x)
    (hy : a.Holds parent position' y) (hne : position ≠ position') : ¬ a.Reaches x y := by
  intro hxy
  rcases Relation.ReflTransGen.cases_tail hxy with rfl | ⟨between, hbetween, hchild⟩
  · exact hne (h.exclusive _ _ _ _ _ hparent hparent hx hy).2
  · -- The last step into the sibling comes from its parent, which the child then reaches.
    rcases mem_iff_getElem?.mp hchild with ⟨_, hholds⟩
    have hreaches : a.Reaches root between := (hparent.tail hx.mem).trans hbetween
    have hsame := (h.exclusive _ _ _ _ _ hreaches hparent hholds hy).1
    exact h.acyclic parent x hparent hx.mem (hsame ▸ hbetween)

theorem children_apart (h : a.IsTree root) {parent : NodeId} (hparent : a.Reaches root parent) :
    (a.childrenOf parent).Pairwise fun x y => ∀ i, a.Reaches x i → ¬ a.Reaches y i := by
  refine pairwise_iff_getElem.mpr fun j k hj hk hlt i hxi hyi => ?_
  have hx : a.Holds parent j (a.childrenOf parent)[j] := getElem?_eq_getElem hj
  have hy : a.Holds parent k (a.childrenOf parent)[k] := getElem?_eq_getElem hk
  rcases h.comparable (hparent.tail hx.mem) (hparent.tail hy.mem) hxi hyi with hxy | hyx
  · exact h.not_reaches_sibling hparent hx hy (Nat.ne_of_lt hlt) hxy
  · exact h.not_reaches_sibling hparent hy hx (Nat.ne_of_gt hlt) hyx

open Classical in
/-- The numbers of the nodes that an index reaches. -/
noncomputable def reach (a : Arena) (id : NodeId) : Finset Nat :=
  (Finset.range a.size).filter fun i => a.Reaches id (i : Int)

open Classical in
theorem card_reach_lt (h : a.IsTree root) {parent : NodeId} (hparent : a.Reaches root parent)
    (hchild : child ∈ a.childrenOf parent) : (reach a child).card < (reach a parent).card := by
  rcases h.present parent hparent with ⟨n, hget⟩
  rcases range_of_get? hget with ⟨i, rfl, hi⟩
  refine Finset.card_lt_card (Finset.ssubset_iff_of_subset ?_ |>.mpr ⟨i, ?_, ?_⟩)
  · intro j hj
    simp only [reach, Finset.mem_filter] at hj ⊢
    exact ⟨hj.1, .head hchild hj.2⟩
  · exact Finset.mem_filter.mpr ⟨Finset.mem_range.mpr hi, .refl⟩
  · exact fun hin => h.acyclic _ child hparent hchild (Finset.mem_filter.mp hin).2

/-- Below every index that is reached there is a forest. The induction is on how many nodes
    the index reaches. -/
theorem forest (h : a.IsTree root) (hid : a.Reaches root id) :
    ∃ t foot, Forest a [id] [t] foot := by
  induction hcard : (reach a id).card using Nat.strong_induction_on generalizing id with
  | _ _ ih =>
    rcases h.present id hid with ⟨n, hget⟩
    have heach : ∀ child ∈ a.childrenOf id, ∃ t part, Forest a [child] [t] part := by
      intro child hchild
      exact ih _ (hcard ▸ h.card_reach_lt hid hchild) (hid.tail hchild) rfl
    rcases Forest.ofEach heach (h.children_apart hid) with ⟨us, part, hpart⟩
    have hfresh : id ∉ part := by
      intro hin
      rcases hpart.mem_iff_reaches.mp hin with ⟨child, hchild, hback⟩
      exact h.acyclic id child hid hchild hback
    rw [childrenOf_eq hget] at hpart
    rcases range_of_get? hget with ⟨i, rfl, _⟩
    exact ⟨_, _, Forest.store hget hpart (fun _ _ => rfl) hfresh⟩

end IsTree

/-- The nodes below an index form a tree exactly if they are a forest. -/
theorem isTree_iff_forest : a.IsTree root ↔ ∃ t foot, Forest a [root] [t] foot :=
  ⟨fun h => h.forest .refl, fun ⟨_, _, h⟩ => h.isTree⟩

end Arena

end Codegen
