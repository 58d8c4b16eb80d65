import Codegen.Ast.Arena
import Mathlib.Data.List.Perm.Subperm

/-!
# Trees in an Arena

An arena is a graph of indices, and most of what is said about it is said about the
trees in it. `Forest` relates indices of an arena to the trees below them. It lists
the indices that were used on the way, each of them once, so nothing below one
index is shared with anything below another and there is no cycle.

The list is what separates two trees in one arena. An operation that changes a tree
says which indices it touched (`Extends`), and every forest whose indices are not
among those is still there afterwards (`Forest.congr`). It also bounds depth: an
arena has room for its own indices only, so the fuel that the views of an arena
come with is always enough (`Forest.tree`).
-/

namespace Codegen

open List

/-- Induction on lists of trees, where a node has the claim for its children and for its
    siblings. -/
theorem Tree.listInduction {motive : List Tree → Prop} (nil : motive [])
    (missing : ∀ us, motive us → motive (.missing :: us))
    (node : ∀ p ts us, motive ts → motive us → motive (.node p ts :: us)) :
    ∀ ts, motive ts
  | [] => nil
  | .missing :: us => missing us (listInduction nil missing node us)
  | .node p ts :: us =>
    node p ts us (listInduction nil missing node ts) (listInduction nil missing node us)

/-- Trees without holes. -/
inductive Solid : List Tree → Prop where
  | nil : Solid []
  | cons (p : Payload) (ts us : List Tree) (children : Solid ts) (siblings : Solid us) :
      Solid (.node p ts :: us)

namespace Tree

variable {P : Payload → Nat → Prop} {t : Tree} {ts us : List Tree}

/-- Trees whose nodes have a property, which may depend on how many children there are. -/
inductive Every (P : Payload → Nat → Prop) : List Tree → Prop where
  | nil : Every P []
  | missing (us : List Tree) (siblings : Every P us) : Every P (.missing :: us)
  | cons (p : Payload) (ts us : List Tree) (here : P p ts.length) (children : Every P ts)
      (siblings : Every P us) : Every P (.node p ts :: us)

theorem every_cons : Every P (t :: us) ↔ Every P [t] ∧ Every P us := by
  constructor
  · intro h
    cases h with
    | missing _ h => exact ⟨.missing [] .nil, h⟩
    | cons p ts _ here children h => exact ⟨.cons p ts [] here children .nil, h⟩
  · rintro ⟨hfirst, h⟩
    cases hfirst with
    | missing => exact .missing us h
    | cons p ts _ here children => exact .cons p ts us here children h

theorem every_iff_forall : Every P ts ↔ ∀ t ∈ ts, Every P [t] := by
  induction ts with
  | nil => exact ⟨fun _ => nofun, fun _ => .nil⟩
  | cons _ _ ih => rw [every_cons, forall_mem_cons, ih]

end Tree

/-- An index that 32 bits with a sign can hold. -/
def NodeId.Fits (id : NodeId) : Prop := (Int32.ofInt id).toInt = id

namespace Arena

variable {a b c : Arena} {id : NodeId} {ids foot touched rest : List NodeId} {ts us : List Tree}
  {t : Tree} {n : Node}

theorem get?_ofNat (a : Arena) (i : Nat) : a.get? (i : Int) = a.nodes[i]? := by
  unfold get?
  rfl

theorem range_of_get? (h : a.get? id = some n) : ∃ i : Nat, id = (i : Int) ∧ i < a.size := by
  cases id with
  | ofNat i =>
    exact ⟨i, rfl, (Array.getElem?_eq_some_iff.mp h).1⟩
  | negSucc => exact absurd h (by simp [get?])

theorem fits_of_valid (hroom : a.size ≤ capacity) (h : a.valid id = true) : NodeId.Fits id := by
  obtain ⟨hlow, hhigh⟩ := Bool.and_eq_true_iff.mp h
  have hlow : (0 : Int) ≤ id := of_decide_eq_true hlow
  have hhigh : id < 0x80000000 :=
    Int.lt_of_lt_of_le (of_decide_eq_true hhigh) (Int.ofNat_le.mpr hroom)
  exact Int32.toInt_ofInt_of_le (by omega) hhigh

theorem size_push (a : Arena) (n : Node) : (a.push n).size = a.size + 1 := Array.size_push n

theorem size_put (a : Arena) (id : NodeId) (n : Node) : (a.put id n).size = a.size :=
  Array.size_setIfInBounds

theorem get?_push_of_lt (a : Arena) (n : Node) (i : Nat) (h : i < a.size) :
    (a.push n).get? (i : Int) = a.get? (i : Int) := by
  rw [get?_ofNat]
  unfold push
  rw [Array.getElem?_push]
  exact if_neg (Nat.ne_of_lt h)

theorem get?_push_size (a : Arena) (n : Node) : (a.push n).get? (a.size : Int) = some n := by
  exact Array.getElem?_push_size

theorem get?_put_self (a : Arena) (n : Node) (i : Nat) (h : i < a.size) :
    (a.put (i : Int) n).get? (i : Int) = some n := by
  rw [get?_ofNat]
  unfold put
  rw [Int.toNat_natCast, Array.getElem?_setIfInBounds_self]
  exact if_pos h

theorem get?_put_of_ne (a : Arena) (n : Node) (i j : Nat) (h : i ≠ j) :
    (a.put (i : Int) n).get? (j : Int) = a.get? (j : Int) := by
  rw [get?_ofNat, get?_ofNat]
  unfold put
  rw [Int.toNat_natCast, Array.getElem?_setIfInBounds_ne h]

/-- An arena that has grown, with the nodes at some indices changed. -/
structure Extends (a b : Arena) (touched : List NodeId) : Prop where
  grows : a.size ≤ b.size
  keeps : ∀ i : Nat, i < a.size → (i : Int) ∉ touched → b.get? (i : Int) = a.get? (i : Int)

namespace Extends

theorem refl (a : Arena) (touched : List NodeId) : Extends a a touched :=
  ⟨Nat.le_refl _, fun _ _ _ => rfl⟩

/-- What changes new indices only, or those that may change anyway, changes nothing
    more. -/
theorem trans {a b c : Arena} {s s' : List NodeId} (h : Extends a b s) (h' : Extends b c s')
    (hs : ∀ i : Nat, (i : Int) ∈ s' → (i : Int) ∈ s ∨ a.size ≤ i) : Extends a c s := by
  refine ⟨Nat.le_trans h.grows h'.grows, fun i hi hn => ?_⟩
  have hn' : (i : Int) ∉ s' := by
    intro hmem
    rcases hs i hmem with hin | hge
    · exact hn hin
    · omega
  rw [h'.keeps i (Nat.lt_of_lt_of_le hi h.grows) hn', h.keeps i hi hn]

theorem push (a : Arena) (n : Node) (touched : List NodeId) : Extends a (a.push n) touched := by
  refine ⟨?_, fun i hi _ => get?_push_of_lt a n i hi⟩
  rw [size_push]
  omega

end Extends

/-- The trees below indices of an arena, and the indices of their nodes. No index is
    used twice. -/
inductive Forest (a : Arena) : List NodeId → List Tree → List NodeId → Prop where
  | nil : Forest a [] [] []
  | cons (id : NodeId) (n : Node) (rest below after : List NodeId) (ts us : List Tree)
      (root : a.get? id = some n) (children : Forest a n.children ts below)
      (siblings : Forest a rest us after) (fresh : id ∉ below ++ after)
      (apart : ∀ i ∈ below, i ∉ after) :
      Forest a (id :: rest) (.node n.toPayload ts :: us) (id :: (below ++ after))

namespace Forest

variable {a b : Arena} {ids foot : List NodeId} {ts : List Tree}

theorem subforest (h : Forest a ids ts foot) (hid : id ∈ foot) :
    ∃ n us part, a.get? id = some n ∧ Forest a n.children us part ∧ id ∉ part := by
  induction h with
  | nil => cases hid
  | cons _ n _ below _ ts _ root children _ fresh _ ihC ihS =>
    rcases mem_cons.mp hid with rfl | hid
    · exact ⟨n, ts, below, root, children, fun hin => fresh (mem_append_left _ hin)⟩
    rcases mem_append.mp hid with hid | hid
    · exact ihC hid
    · exact ihS hid

theorem range (h : Forest a ids ts foot) (id : NodeId) (hid : id ∈ foot) :
    ∃ i : Nat, id = (i : Int) ∧ i < a.size := by
  rcases h.subforest hid with ⟨_, _, _, hget, _⟩
  exact range_of_get? hget

theorem nodup (h : Forest a ids ts foot) : foot.Nodup := by
  induction h with
  | nil => exact nodup_nil
  | cons _ _ _ _ _ _ _ _ _ _ fresh apart ihC ihS =>
    refine nodup_cons.mpr ⟨fresh, nodup_append.mpr ⟨ihC, ihS, ?_⟩⟩
    intro i hi j hj hij
    exact apart i hi (hij ▸ hj)

/-- A forest depends on its own indices. -/
theorem congr (h : Forest a ids ts foot) (hkeep : ∀ i ∈ foot, b.get? i = a.get? i) :
    Forest b ids ts foot := by
  induction h with
  | nil => exact .nil
  | cons id n rest below after ts us root _ _ fresh apart ihC ihS =>
    refine .cons id n rest below after ts us ?_ (ihC fun i hi => ?_) (ihS fun i hi => ?_)
      fresh apart
    · rw [hkeep id (by simp), root]
    all_goals exact hkeep i (by simp [hi])

theorem extend (h : Forest a ids ts foot) (hext : Extends a b touched)
    (hapart : ∀ i ∈ foot, i ∉ touched) : Forest b ids ts foot := by
  refine h.congr (fun id hid => ?_)
  rcases h.range id hid with ⟨i, rfl, hi⟩
  exact hext.keeps i hi (hapart _ hid)

theorem solid (h : Forest a ids ts foot) : Solid ts := by
  induction h with
  | nil => exact .nil
  | cons _ _ _ _ _ _ _ _ _ _ _ _ ihC ihS =>
    exact .cons _ _ _ ihC ihS

theorem length_eq (h : Forest a ids ts foot) : ids.length = ts.length := by
  induction h with
  | nil => rfl
  | cons _ _ _ _ _ _ _ _ _ _ _ _ _ ihS =>
    rw [length_cons, length_cons, ihS]

theorem subperm (h : Forest a ids ts foot) :
    foot.Subperm ((List.range a.size).map fun i : Nat => (i : Int)) := by
  refine h.nodup.subperm fun id hid => ?_
  rcases h.range id hid with ⟨i, rfl, hi⟩
  exact mem_map.mpr ⟨i, mem_range.mpr hi, rfl⟩

theorem length_le (h : Forest a ids ts foot) : foot.length ≤ a.size := by
  have hle := h.subperm.length_le
  rwa [length_map, length_range] at hle

theorem treeTo (h : Forest a ids ts foot) : ∀ depth, foot.length ≤ depth →
    ids.map (a.treeTo depth) = ts := by
  induction h with
  | nil => exact fun _ _ => rfl
  | cons _ _ _ _ _ _ _ root _ _ _ _ ihC ihS =>
    intro depth hdepth
    simp only [length_cons, length_append] at hdepth
    cases depth with
    | zero => omega
    | succ depth =>
      rw [map_cons, ihS (depth + 1) (by omega), Arena.treeTo]
      simp [root, ihC depth (by omega)]

/-- The trees below the indices of a forest. -/
theorem tree (h : Forest a (id :: rest) (t :: us) foot) : a.tree id = t :=
  (cons.inj (h.treeTo (a.size + 1) (Nat.le_succ_of_le h.length_le))).1

theorem uncons (h : Forest a (id :: rest) (t :: us) foot) :
    ∃ first others, Forest a [id] [t] first ∧ Forest a rest us others ∧ foot = first ++ others ∧
      ∀ i ∈ first, i ∉ others := by
  cases h with
  | cons _ n _ below after ts _ root children siblings fresh apart =>
    refine ⟨id :: below, after, ?_, siblings, rfl, ?_⟩
    · have hone := Forest.cons id n [] below [] ts [] root children .nil
        (by simpa using fun h => fresh (by simp [h])) (by simp)
      simpa using hone
    · intro i hi hafter
      rcases mem_cons.mp hi with rfl | hbelow
      · exact fresh (by simp [hafter])
      · exact apart i hbelow hafter

theorem consOne {first others : List NodeId} (h : Forest a [id] [t] first)
    (h' : Forest a rest us others) (hapart : ∀ i ∈ first, i ∉ others) :
    Forest a (id :: rest) (t :: us) (first ++ others) := by
  cases h with
  | cons _ n _ below _ _ _ root children siblings fresh =>
    cases siblings with
    | nil =>
      rw [append_nil] at fresh hapart ⊢
      refine .cons id n rest below others _ _ root children h' ?_ ?_
      · intro hmem
        rcases mem_append.mp hmem with hin | hin
        · exact fresh hin
        · exact hapart id (by simp) hin
      · exact fun i hi => hapart i (by simp [hi])

end Forest

/-- In the arena `b` there are trees below indices. It differs from the arena `a` at
    some indices and at new ones, and the trees use no others. -/
def Rebuilt (a : Arena) (touched : List NodeId) (b : Arena) (ids : List NodeId) (ts : List Tree) :
    Prop :=
  ∃ foot, Forest b ids ts foot ∧ Extends a b touched ∧
    ∀ i : Nat, (i : Int) ∈ foot → (i : Int) ∈ touched ∨ a.size ≤ i

theorem Rebuilt.mono {touched' : List NodeId} (h : Rebuilt a touched b ids ts)
    (hsub : ∀ i ∈ touched, i ∈ touched') : Rebuilt a touched' b ids ts := by
  rcases h with ⟨foot, hforest, hext, hnew⟩
  refine ⟨foot, hforest, ⟨hext.grows, fun i hi hn => ?_⟩, fun i hi => ?_⟩
  · exact hext.keeps i hi (fun hin => hn (hsub _ hin))
  · exact (hnew i hi).imp_left (hsub _)

theorem Rebuilt.trans {between : List NodeId} (h : Rebuilt b between c ids ts)
    (hext : Extends a b touched)
    (hold : ∀ i : Nat, (i : Int) ∈ between → (i : Int) ∈ touched ∨ a.size ≤ i) :
    Rebuilt a touched c ids ts := by
  rcases h with ⟨foot, hforest, hext', hnew⟩
  refine ⟨foot, hforest, hext.trans hext' hold, fun i hi => ?_⟩
  rcases hnew i hi with hin | hge
  · exact hold i hin
  · exact Or.inr (Nat.le_trans hext.grows hge)

theorem Rebuilt.cons {first others : List NodeId} (h : Rebuilt a first b [id] [t])
    (h' : Rebuilt b others c rest us) (hold : ∀ i ∈ others, ∃ k : Nat, i = (k : Int) ∧ k < a.size)
    (hapart : ∀ i ∈ first, i ∉ others) : Rebuilt a (first ++ others) c (id :: rest) (t :: us) := by
  rcases h with ⟨foot, hforest, hext, hnew⟩
  rcases h' with ⟨foot', hforest', hext', hnew'⟩
  have hfoot : ∀ i ∈ foot, i ∉ others := by
    intro i hi hin
    rcases hforest.range i hi with ⟨k, rfl, hk⟩
    rcases hold _ hin with ⟨k', hk', hlt⟩
    have hsame : k = k' := Int.ofNat.inj hk'
    rcases hnew k hi with hmem | hge
    · exact hapart _ hmem hin
    · omega
  have hwide : Extends a b (first ++ others) :=
    ⟨hext.grows, fun i hi hn => hext.keeps i hi (fun hin => hn (by simp [hin]))⟩
  refine ⟨foot ++ foot', (hforest.extend hext' hfoot).consOne hforest' (fun i hi hi' => ?_),
    hwide.trans hext' (fun i hi => Or.inl (by simp [hi])), fun i hi => ?_⟩
  · rcases hforest.range i hi with ⟨k, rfl, hk⟩
    rcases hnew' k hi' with hin | hge
    · exact hfoot _ hi hin
    · omega
  · rcases mem_append.mp hi with hi | hi
    · exact (hnew i hi).imp_left (fun hin => by simp [hin])
    · rcases hnew' i hi with hin | hge
      · exact Or.inl (by simp [hin])
      · exact Or.inr (Nat.le_trans hext.grows hge)

theorem Forest.store {i : Nat} (hget : b.get? (i : Int) = some n) (h : Forest a n.children ts foot)
    (hsame : ∀ j ∈ foot, b.get? j = a.get? j) (hfresh : (i : Int) ∉ foot) :
    Forest b [(i : Int)] [.node n.toPayload ts] ((i : Int) :: foot) := by
  have hone := Forest.cons (i : Int) n [] foot [] ts [] hget (h.congr hsame) .nil
    (by simpa using hfresh) (by simp)
  simpa using hone

theorem Forest.push (n : Node) (h : Forest a n.children ts foot) :
    Forest (a.push n) [(a.size : Int)] [.node n.toPayload ts] ((a.size : Int) :: foot) := by
  refine Forest.store (get?_push_size a n) h (fun id hid => ?_) (fun hmem => ?_)
  · rcases h.range id hid with ⟨i, rfl, hi⟩
    exact get?_push_of_lt a n i hi
  · rcases h.range _ hmem with ⟨i, hi, hlt⟩
    have hsame : a.size = i := Int.ofNat.inj hi
    omega

theorem Rebuilt.push (n : Node) (h : Rebuilt a touched b n.children ts) :
    Rebuilt a touched (b.push n) [(b.size : Int)] [.node n.toPayload ts] := by
  rcases h with ⟨foot, hforest, hext, hnew⟩
  have hgrows := hext.grows
  refine ⟨_, hforest.push n, hext.trans (.push b n []) (by simp), fun i hi => ?_⟩
  rcases mem_cons.mp hi with hi | hi
  · exact Or.inr (by omega)
  · exact hnew i hi

/-- Started in the arena `a`, the operation ends with the result `v` in the arena `b`. -/
def Builds {α : Type} (x : Build α) (a : Arena) (v : α) (b : Arena) : Prop :=
  x.run a = (.ok v, b)

section Builds

variable {α β : Type} {a b c : Arena}

theorem Builds.arena {x : Build α} {v : α} (h : Builds x a v b) : (x.run a).2 = b :=
  congrArg Prod.snd h

theorem builds_pure (v : α) (a : Arena) : Builds (pure v) a v a := rfl

theorem run_bind {x : Build α} {f : α → Build β} {v : α} (hx : Builds x a v b) :
    (x >>= f).run a = (f v).run b := by
  change ExceptT.bindCont f (x.run a).1 (x.run a).2 = _
  rw [hx]
  rfl

theorem builds_bind {x : Build α} {f : α → Build β} {v : α} {w : β} (hx : Builds x a v b)
    (hf : Builds (f v) b w c) : Builds (x >>= f) a w c :=
  (run_bind hx).trans hf

theorem of_builds_bind {x : Build α} {f : α → Build β} {w : β} (h : Builds (x >>= f) a w c) :
    ∃ v b, Builds x a v b ∧ Builds (f v) b w c := by
  change ExceptT.bindCont f (x.run a).1 (x.run a).2 = _ at h
  rcases hx : x.run a with ⟨result, b⟩
  rw [hx] at h
  rcases result with fault | v
  · cases h
  · exact ⟨v, b, hx, h⟩

theorem builds_get (a : Arena) : Builds get a a a := rfl

theorem of_builds_get {f : Arena → Build β} {w : β} (h : Builds (get >>= f) a w c) :
    Builds (f a) a w c :=
  (run_bind (builds_get a)).symm.trans h

theorem builds_new (n : Node) (a : Arena) : Builds (new n) a (a.size : Int) (a.push n) := rfl

theorem builds_fetch (h : a.get? id = some n) : Builds (fetch id) a n a := by
  refine builds_bind (builds_get a) ?_
  rw [h]
  exact builds_pure n a

theorem builds_replace (n : Node) (i : Nat) (h : i < a.size) :
    Builds (replace (i : Int) n) a () (a.put (i : Int) n) := by
  have hvalid : a.valid (i : Int) = true := by
    simp [valid, h]
  refine builds_bind (builds_get a) ?_
  rw [if_pos hvalid]
  rfl

end Builds

theorem of_builds_add (h : Builds (add t) a id c) :
    ∃ p ts ids b, t = .node p ts ∧ Builds (addAll ts) a ids b ∧ id = b.size ∧
      c = b.push { p with children := ids } := by
  cases t with
  | missing => exact absurd h (by nofun)
  | node p ts =>
    rcases of_builds_bind h with ⟨ids, b, hids, hnew⟩
    have hsame := (builds_new { p with children := ids } b).symm.trans hnew
    obtain ⟨hid, rfl⟩ := Prod.mk.inj hsame
    exact ⟨p, ts, ids, b, rfl, hids, (Except.ok.inj hid).symm, rfl⟩

/-- Induction along the layout of trees: the children of a node, the node above them, and the
    trees that follow. -/
@[elab_as_elim]
theorem builds_addAll_rec {motive : List Tree → Arena → List NodeId → Arena → Prop}
    (h : Builds (addAll ts) a ids c) (nil : ∀ a, motive [] a [] a)
    (node : ∀ p ts us a below b rest c, Builds (addAll ts) a below b →
      Builds (addAll us) (b.push { p with children := below }) rest c → motive ts a below b →
      motive us (b.push { p with children := below }) rest c →
      motive (.node p ts :: us) a ((b.size : Int) :: rest) c) : motive ts a ids c := by
  induction ts using Tree.listInduction generalizing a ids c with rw [addAll] at h
  | nil =>
    obtain ⟨hids, rfl⟩ := Prod.mk.inj h
    obtain rfl := Except.ok.inj hids
    exact nil _
  | missing =>
    -- Nothing is laid out in the place of a tree that is not there.
    rcases of_builds_bind h with ⟨_, _, hadd, _⟩
    rcases of_builds_add hadd with ⟨_, _, _, _, hnode, _⟩
    cases hnode
  | node p ts us ihC ihS =>
    rcases of_builds_bind h with ⟨_, _, hadd, h⟩
    rcases of_builds_bind h with ⟨rest, d, hrest, hpure⟩
    obtain ⟨hids, rfl⟩ := Prod.mk.inj hpure
    obtain rfl := Except.ok.inj hids
    rcases of_builds_add hadd with ⟨_, _, below, b, hnode, hchildren, rfl, rfl⟩
    cases hnode
    exact node p ts us a below b rest d hchildren hrest (ihC hchildren) (ihS hrest)

theorem builds_add_node {p : Payload} (hrun : Builds (addAll ts) a ids b)
    (h : Rebuilt a [] b ids ts) :
    Builds (add (.node p ts)) a (b.size : Int) (b.push { p with children := ids }) ∧
      Rebuilt a [] (b.push { p with children := ids }) [(b.size : Int)] [.node p ts] := by
  refine ⟨?_, h.push { p with children := ids }⟩
  exact builds_bind hrun (builds_new _ b)

theorem builds_addAll (ts : List Tree) (h : Solid ts) : ∀ a : Arena, ∃ ids b,
    Builds (addAll ts) a ids b ∧ Rebuilt a [] b ids ts := by
  induction h with
  | nil => exact fun a => ⟨[], a, builds_pure _ a, [], .nil, .refl a [], by simp⟩
  | cons p _ _ children _ ihC ihS =>
    intro a
    rcases ihC a with ⟨ids, b, hrun, hbuilt⟩
    rcases builds_add_node hrun hbuilt with ⟨hadd, hone⟩
    rcases ihS (b.push { p with children := ids }) with ⟨ids', c, hrun', hbuilt'⟩
    refine ⟨(b.size : Int) :: ids', c, ?_, hone.cons hbuilt' (by simp) (by simp)⟩
    exact builds_bind hadd (builds_bind hrun' (builds_pure _ c))

/-- Laying out a tree. -/
theorem builds_add (t : Tree) (h : Solid [t]) (a : Arena) :
    ∃ id b, Builds (add t) a id b ∧ Rebuilt a [] b [id] [t] := by
  cases h with
  | cons _ ts _ children =>
    rcases builds_addAll ts children a with ⟨ids, b, hrun, hbuilt⟩
    exact ⟨_, _, builds_add_node hrun hbuilt⟩

/-- Copying one. -/
theorem builds_clone (h : Forest a [id] [t] foot) :
    ∃ id' b, Builds (clone id) a id' b ∧ Rebuilt a [] b [id'] [t] := by
  rcases builds_add t h.solid a with ⟨id', b, hrun, hbuilt⟩
  refine ⟨id', b, ?_, hbuilt⟩
  refine builds_bind (builds_get a) ?_
  rw [h.tree]
  exact hrun

end Arena

end Codegen
