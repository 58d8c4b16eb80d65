import Codegen.Ast.Printer
import Codegen.Proofs.Document.Postorder
import Mathlib.Data.Set.Card

/-!
# Copies

A copy is laid out like any tree, so it has the next indices, in post-order, and nothing that
was there before changes. What it is a copy of is below an index of the same arena; both are
forests with one tree, and forests whose indices differ share nothing.

## Theorems

* `clone_tree`: The copy of a tree.
-/

namespace Codegen

open List

theorem Solid.toData? {ts : List Tree} (h : Solid ts) : ∃ ds, Tree.toData? ts = some ds := by
  induction h with
  | nil => exact ⟨[], rfl⟩
  | cons p ts us _ _ ihC ihS =>
    rcases ihC with ⟨below, hbelow⟩
    rcases ihS with ⟨after, hafter⟩
    have hroot : ∃ d, Tree.toDatum? (.node p ts) = some d := by
      rw [Tree.toDatum?, hbelow]
      split
      · exact ⟨_, rfl⟩
      · exact ⟨_, rfl⟩
    rcases hroot with ⟨d, hd⟩
    exact ⟨d :: after, by rw [Tree.toData?, hd, hafter]⟩

theorem Solid.print? {t : Tree} (h : Solid [t]) : ∃ text, t.print? = some text := by
  rcases h.toData? with ⟨ds, hds⟩
  rw [Tree.toData?] at hds
  cases hd : t.toDatum? with
  | none => simp [hd] at hds
  | some d => exact ⟨d.print, by rw [Tree.print?, hd]; rfl⟩

namespace Arena

variable {a b c : Arena} {ids foot order : List NodeId} {ts : List Tree} {id : NodeId} {t : Tree}

/-- The indices below others, children before their parents. -/
inductive Postorder (a : Arena) : List NodeId → List NodeId → Prop where
  | nil : Postorder a [] []
  | cons (id : NodeId) (n : Node) (rest below after : List NodeId) (root : a.get? id = some n)
      (children : Postorder a n.children below) (siblings : Postorder a rest after) :
      Postorder a (id :: rest) (below ++ id :: after)

theorem Forest.perm_postorder (h : Forest a ids ts foot) (horder : Postorder a ids order) :
    foot.Perm order := by
  induction h generalizing order with
  | nil => cases horder with | nil => exact .nil
  | cons id n _ _ _ _ _ root _ _ _ _ ihC ihS =>
    cases horder with
    | cons _ m _ below after root' children siblings =>
      cases root.symm.trans root'
      exact (((ihC children).append (ihS siblings)).cons id).trans perm_middle.symm

theorem Forest.ncard_reaches (h : Forest a [id] [t] foot) :
    Set.ncard {i | a.Reaches id i} = foot.length := by
  have hset : {i | a.Reaches id i} = (foot.toFinset : Set NodeId) := by
    ext i
    simp [h.mem_iff_reaches]
  rw [hset, Set.ncard_coe_finset, toFinset_card_of_nodup h.nodup]

/-- Laying trees out changes nothing that was there, and takes the next indices in post-order,
    whatever is added later. -/
theorem postorder_addAll (h : Builds (addAll ts) a ids b) : Extends a b [] ∧
    ∀ c, Extends b c [] → c.Postorder ids
      ((range' a.size (Tree.postorderAll ts).length).map fun i : Nat => (i : Int)) := by
  refine builds_addAll_rec h (fun a => ⟨.refl a [], fun _ _ => .nil⟩)
    fun p ts us a below b rest d hchildren _ ihC ihS => ?_
  have hsize := size_addAll hchildren
  have hpush := Extends.push b { p with children := below } []
  refine ⟨(ihC.1.trans hpush (by simp)).trans ihS.1 (by simp), fun c hc => ?_⟩
  have hlater := ihS.1.trans hc (by simp)
  have hroot : c.get? (b.size : Int) = some { p with children := below } := by
    rw [hlater.keeps b.size (by rw [size_push]; omega) (by simp), get?_push_size]
  have hall := Postorder.cons _ _ _ _ _ hroot (ihC.2 c (hpush.trans hlater (by simp))) (ihS.2 c hc)
  rw [size_push, hsize] at hall
  rw [Tree.postorderAll, Tree.postorder, length_append, length_append, length_singleton,
    ← range'_append_1, ← range'_append_1, map_append, map_append, append_assoc, hsize]
  exact hall

/-- If there is room, a tree is copied to the next indices, in post-order, and nothing else
    changes. The copy has as many nodes as the tree, agrees with it everywhere, shares nothing with
    it and is written in the same way. -/
theorem clone_tree (h : a.IsTree id) (hroom : ((clone id).run a).2.size ≤ capacity) :
    ∃ copy b, (clone id).run a = (.ok copy, b) ∧ (∀ i, b.valid i = true → NodeId.Fits i) ∧
    b.size = a.size + Set.ncard {i | a.Reaches id i} ∧ copy + 1 = b.size ∧
    (∀ i : Nat, i < a.size → b.get? i = a.get? i) ∧
    b.IsTree copy ∧ (∀ i : Int, b.Reaches copy i ↔ a.size ≤ i ∧ i < b.size) ∧
    b.Postorder [copy] ((range' a.size (b.size - a.size)).map fun i : Nat => (i : Int)) ∧
    b.tree copy = a.tree id ∧ b.tree id = a.tree id ∧
    (∀ i, b.Reaches id i → ¬ b.Reaches copy i) ∧
    ∃ text, (b.tree id).print? = some text ∧ (b.tree copy).print? = some text := by
  rcases isTree_iff_forest.mp h with ⟨t, foot, hforest⟩
  rcases builds_clone hforest with ⟨copy, b, hrun, foot', hcopy, hext, -⟩
  have hadd := of_builds_get hrun
  rw [hforest.tree] at hadd
  have hall : Builds (addAll [t]) a [copy] b := by
    rw [addAll]
    exact builds_bind hadd (builds_pure _ b)
  have hsize : b.size = a.size + foot.length := by
    rw [size_addAll hall, hforest.length_foot]
  have horder := (postorder_addAll hall).2 b (.refl b [])
  rw [← hforest.length_foot] at horder
  -- The copy takes the indices after those that were there, and all of them.
  have hmem (i : Int) : b.Reaches copy i ↔ a.size ≤ i ∧ i < b.size := by
    have hreaches := (hcopy.perm_postorder horder).mem_iff.symm.trans
      (hcopy.mem_iff_reaches (i := i))
    simp only [mem_singleton, exists_eq_left, mem_map, mem_range'_1] at hreaches
    rw [← hreaches]
    constructor
    · rintro ⟨k, hk, rfl⟩
      omega
    · exact fun hi => ⟨i.toNat, by omega, Int.toNat_of_nonneg (by omega)⟩
  have hold : Forest b [id] [t] foot := hforest.extend hext (by simp)
  -- The original has none of these.
  have hapart (i : NodeId) (hi : b.Reaches id i) : ¬ b.Reaches copy i := by
    rw [hmem]
    rcases hforest.range i (hold.mem_iff_reaches.mpr ⟨id, mem_singleton_self id, hi⟩) with
      ⟨k, rfl, hk⟩
    omega
  rcases hforest.solid.print? with ⟨text, htext⟩
  rw [Builds.arena hrun] at hroom
  refine ⟨copy, b, hrun, fun i => fits_of_valid hroom, by rw [hforest.ncard_reaches, hsize], ?_,
    fun i hi => hext.keeps i hi (by simp), hcopy.isTree, hmem, ?_,
    hcopy.tree.trans hforest.tree.symm, hold.tree.trans hforest.tree.symm, hapart, text, ?_, ?_⟩
  · rcases of_builds_add hadd with ⟨_, _, _, e, _, _, rfl, rfl⟩
    rw [size_push]
    rfl
  · rwa [hsize, Nat.add_sub_cancel_left]
  · rw [hold.tree, htext]
  · rw [hcopy.tree, htext]

/-- A block above its two statements, the first of which is the last index. -/
def scattered : Arena :=
  ⟨#[{ kind := .block, children := [2, 1] }, { kind := .decimal, decimal := ⟨0x7ff8000000000001⟩ },
    { kind := .ident, name := "x" }]⟩

/-- The copy is in post-order though its original is not. -/
theorem clone_tree_scattered : scattered.IsTree 0 ∧ ∃ copy b,
    (clone 0).run scattered = (.ok copy, b) ∧ b.size = 6 ∧ b.Postorder [copy] [3, 4, 5] ∧
    b.get? 0 = scattered.get? 0 ∧ b.tree copy = scattered.tree 0 := by
  have hblock : Forest scattered [0] _ [0, 2, 1] :=
    .cons 0 _ [] [2, 1] [] _ [] rfl
      (.cons 2 _ [1] [] [1] [] _ rfl .nil
        (.cons 1 _ [] [] [] [] [] rfl .nil .nil (by decide) (by decide)) (by decide) (by decide))
      .nil (by decide) (by decide)
  rcases clone_tree hblock.isTree (by decide +kernel) with
    ⟨copy, b, hrun, -, hsize, -, hkept, -, -, horder, hsame, -⟩
  rw [hblock.ncard_reaches] at hsize
  rw [hsize] at horder
  exact ⟨hblock.isTree, copy, b, hrun, hsize, horder, hkept 0 (by decide), hsame⟩

end Arena

end Codegen
