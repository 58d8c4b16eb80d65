import Codegen.Proofs.Ownership
import Codegen.Proofs.Document.Settled

/-!
# How a Document Lies in Its Arena

The nodes of a document are made one after the other, a node when all of its children have
been made, and no other node is made in between. So the arena of a document holds the nodes of
one tree in post-order and nothing else: children come before their parents, the root is the
last node, and every other node is held once.

That trees are laid out without sharing is known from `builds_addAll`. What is added here is
that nothing is left over. The payloads of an arena are counted: laying trees out appends
their payloads in post-order, and the trees use as many indices as they have payloads.

## Theorems

* `Document.layout_postorder`: The arena of a document.
-/

namespace Codegen

open Codegen.Tree List

namespace Tree

mutual

/-- The payloads of a tree, children before their parents. -/
def postorder : Tree → List Payload
  | .missing => []
  | .node p ts => postorderAll ts ++ [p]

def postorderAll : List Tree → List Payload
  | [] => []
  | t :: ts => postorder t ++ postorderAll ts

end

end Tree

theorem Tree.Formed.every {ts : List Tree} (h : Formed ts) : Every Payload.Fits ts := by
  induction h with
  | nil => exact .nil
  | cons p ts us fits _ _ ihC ihS => exact .cons p ts us fits ihC ihS

namespace Arena

variable {a b : Arena} {ts : List Tree} {ids : List NodeId}

/-- The payloads of an arena, in the order of their indices. -/
def payloads (a : Arena) : List Payload := a.nodes.toList.map Node.toPayload

theorem length_payloads (a : Arena) : a.payloads.length = a.size := by
  simp [payloads, size]

theorem payloads_push (a : Arena) (n : Node) : (a.push n).payloads = a.payloads ++ [n.toPayload] := by
  simp [payloads, push]

/-- Arenas in which children come before their parents. -/
def ChildrenFirst (a : Arena) : Prop :=
  ∀ parent position child, a.Holds parent position child → 0 ≤ child ∧ child < parent

theorem ChildrenFirst.push (h : a.ChildrenFirst) {n : Node}
    (hn : ∀ child ∈ n.children, 0 ≤ child ∧ child < a.size) : (a.push n).ChildrenFirst := by
  intro parent position child hholds
  rcases hholds.parent with ⟨m, hget, hchild⟩
  rcases range_of_get? hget with ⟨i, rfl, hi⟩
  rw [size_push] at hi
  rcases Nat.lt_or_eq_of_le (Nat.le_of_lt_succ hi) with hlt | rfl
  · rw [get?_push_of_lt a n i hlt] at hget
    refine h i position child ?_
    rw [Holds, childrenOf_eq hget]
    exact hchild
  · cases (get?_push_size a n).symm.trans hget
    exact hn child (mem_of_getElem? hchild)

/-- Laying trees out appends their payloads in post-order. -/
theorem payloads_addAll (h : Builds (addAll ts) a ids b) :
    b.payloads = a.payloads ++ postorderAll ts := by
  refine builds_addAll_rec h (fun a => ?_) fun p ts us a below b rest c _ _ ihC ihS => ?_
  · rw [postorderAll, append_nil]
  · -- Children, the node above them, and the trees that follow.
    rw [ihS, payloads_push, ihC, postorderAll, postorder]
    simp

theorem size_addAll (h : Builds (addAll ts) a ids b) :
    b.size = a.size + (postorderAll ts).length := by
  rw [← length_payloads, payloads_addAll h, length_append, length_payloads]

/-- Laying trees out puts children before their parents. -/
theorem childrenFirst_addAll (h : Builds (addAll ts) a ids b) (ha : a.ChildrenFirst) :
    b.ChildrenFirst ∧ ∀ id ∈ ids, 0 ≤ id ∧ id < b.size := by
  revert ha
  refine builds_addAll_rec h (fun a ha => ⟨ha, forall_mem_nil _⟩)
    fun p ts us a below b rest c _ hrest ihC ihS ha => ?_
  have hbelow := ihC ha
  have hafter := ihS (hbelow.1.push hbelow.2)
  have hsize := size_addAll hrest
  rw [size_push] at hsize
  exact ⟨hafter.1, forall_mem_cons.mpr
    ⟨⟨Int.natCast_nonneg _, Int.ofNat_lt.mpr (by omega)⟩, hafter.2⟩⟩

namespace Forest

variable {a : Arena} {ids foot : List NodeId} {ts : List Tree}

theorem length_foot (h : Forest a ids ts foot) : foot.length = (postorderAll ts).length := by
  induction h with
  | nil => rfl
  | cons _ _ _ _ _ _ _ _ _ _ _ _ ihC ihS =>
    simp only [postorderAll, postorder, length_cons, length_append, length_nil]
    omega

/-- A forest with as many indices as its arena has all of them. -/
theorem covers (h : Forest a ids ts foot) (hlength : a.size ≤ foot.length) {i : Nat}
    (hi : i < a.size) : (i : Int) ∈ foot := by
  -- As many different indices as there are places are all of them.
  have hperm := h.subperm.perm_of_length_le (by simpa using hlength)
  exact hperm.mem_iff.mpr (mem_map.mpr ⟨i, mem_range.mpr hi, rfl⟩)

theorem held_once {root : NodeId} {t : Tree} (h : Forest a [root] [t] foot)
    (hall : ∀ i : Nat, i < a.size → (i : Int) ∈ foot) {i : Nat} (hi : i < a.size)
    (hne : (i : Int) ≠ root) : ∃! place : NodeId × Nat, a.Holds place.1 place.2 i := by
  rcases mem_append.mp (h.perm.mem_iff.mp (hall i hi)) with hroot | hchild
  · exact absurd (mem_singleton.mp hroot) hne
  · rcases mem_flatMap.mp hchild with ⟨parent, hparent, hmem⟩
    rcases mem_iff_getElem?.mp hmem with ⟨position, hholds⟩
    refine ⟨(parent, position), hholds, fun ⟨parent', position'⟩ hholds' => ?_⟩
    -- Any other holder is a node of the arena too, and so of the tree.
    rcases hholds'.parent with ⟨n, hget, _⟩
    rcases range_of_get? hget with ⟨k, rfl, hk⟩
    have hsame := h.exclusive (hall k hk) hparent hholds' hholds
    exact Prod.ext hsame.1 hsame.2

end Forest

end Arena

namespace Document

open Arena

/-- If there is room for its nodes, the arena of a document holds one tree in post-order: the
    root is the last node and reaches every other, which is held at one position of one node,
    children come before their parents, every node has as many children as its kind asks for, and
    no index is too large for 32 bits. -/
theorem layout_postorder {source : Bytes} {t : Tree} (h : tree source = .ok t)
    (hroom : (layout t).2.size ≤ capacity) :
    ∃ root a, layout t = (.ok root, a) ∧ root + 1 = a.size ∧
      (∀ id, a.valid id = true → NodeId.Fits id) ∧
      (∀ i : Nat, i < a.size → a.Reaches root i) ∧
      (∀ i : Nat, i < a.size → (i : Int) ≠ root →
        ∃! place : NodeId × Nat, a.Holds place.1 place.2 i) ∧
      (∀ parent position child, a.Holds parent position child → 0 ≤ child ∧ child < parent) ∧
      (∀ id n, a.get? id = some n → n.toPayload.Fits n.children.length) ∧
      a.payloads = t.postorder ∧ a.tree root = t := by
  have hformed := formed_tree h
  rcases builds_add t hformed.solid {} with ⟨root, a, hadd, foot, hforest, _⟩
  rcases of_builds_add hadd with ⟨p, ts, ids, b, rfl, hids, rfl, rfl⟩
  have hpayloads : (b.push { p with children := ids }).payloads = (node p ts).postorder := by
    rw [payloads_push, payloads_addAll hids, postorder]
    rfl
  have hfirst : (b.push { p with children := ids }).ChildrenFirst := by
    have hchildren := childrenFirst_addAll hids fun parent position child hholds => by
      rcases hholds.parent with ⟨n, hget, _⟩
      rcases range_of_get? hget with ⟨k, _, hk⟩
      exact absurd hk (Nat.not_lt_zero k)
    exact hchildren.1.push hchildren.2
  -- The tree has as many payloads as the arena, so no node is left over.
  have hall (i : Nat) (hi : i < (b.push { p with children := ids }).size) : (i : Int) ∈ foot := by
    refine hforest.covers ?_ hi
    rw [hforest.length_foot, ← length_payloads, hpayloads, postorderAll, postorderAll,
      append_nil]
  have hlayout : layout (node p ts) = (.ok b.size, b.push { p with children := ids }) := hadd
  rw [hlayout] at hroom
  refine ⟨b.size, _, hadd, ?_, fun id => fits_of_valid hroom, fun i hi => ?_,
    fun i hi hne => hforest.held_once hall hi hne, hfirst, fun id n hget => ?_, hpayloads,
    hforest.tree⟩
  · rw [size_push]
    rfl
  · rcases hforest.mem_iff_reaches.mp (hall i hi) with ⟨root, hroot, hreaches⟩
    rwa [mem_singleton.mp hroot] at hreaches
  · rcases range_of_get? hget with ⟨i, rfl, hi⟩
    exact hforest.every_iff.mp hformed.every _ (hall i hi) n hget

def nested : Bytes :=
  "(program (func \"f\" (params) void (block (return)))
     (for \"i\" 0 3 (block (if (binary \"<\" (ident \"i\") 2) (block (call (ident \"f\")))
       (block (break))))))"

theorem layout_postorder_nested : ∃ t root a, tree nested = .ok t ∧ layout t = (.ok root, a) ∧
    a.size = 17 ∧ root = 16 ∧ (∀ i : Nat, i < 17 → a.Reaches root i) ∧
    (∀ i : Nat, i < 16 → ∃! place : NodeId × Nat, a.Holds place.1 place.2 i) := by
  have hread : ∃ t, tree nested = .ok t ∧ decide ((layout t).2.size = 17) = true :=
    ok_of_any (by decide +kernel)
  rcases hread with ⟨t, htree, hlength⟩
  have hlength := of_decide_eq_true hlength
  rcases layout_postorder htree (by rw [hlength]; decide) with
    ⟨root, a, hlayout, hroot, _, hreaches, hheld, _⟩
  have hsize : a.size = 17 := by rwa [hlayout] at hlength
  rw [hsize] at hroot hreaches hheld
  obtain rfl : root = 16 := Int.add_left_inj 1 |>.mp hroot
  exact ⟨t, 16, a, htree, hlayout, hsize, rfl, hreaches, fun i hi => hheld i (by omega)
    fun hlast => absurd (Int.ofNat.inj hlast) (Nat.ne_of_lt hi)⟩

end Document

end Codegen
