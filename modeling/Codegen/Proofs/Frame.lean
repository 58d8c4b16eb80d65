import Codegen.Proofs.Ownership
import Codegen.Proofs.Simplify

/-!
# What the Optimizer Leaves Alone

A pass changes nodes in place, and its caller may hold other trees in the same arena. What is
reached from the new root is a tree again, all that was not reached from the old root is as it
was, and a node in whose place another was put still has its contents, so whoever kept its
index sees what was there before.

That much follows from where the pass writes (`builds_run_kept`) once the forest below the root
is given. How many children nodes have is a matter of every write: a node keeps its kind and,
unless it is a list of statements, the number of its children. That holds of whatever the pass
starts from, also of nodes that no root reaches afterwards, so it is an invariant of the
operations and not of a forest (`Preserves`).

## Theorems

* `run_frame`: What a pass does to the graph of an arena.
-/

namespace Codegen

open Codegen.Tree List

variable {ts : List Tree} {a b : Arena} {n : Node} {p : Payload} {id : NodeId}

/-- How many children some kinds must have. -/
def Kind.operands? : Kind → Option Nat
  | .unary | .funcDecl => some 1
  | .binary | .pipe | .whileLoop | .assign | .index => some 2
  | .forRange => some 3
  | _ => none

def Payload.Counted (p : Payload) (count : Nat) : Prop :=
  ∀ required, p.kind.operands? = some required → count = required

theorem Payload.counted_of_isBlockLike (h : p.kind.isBlockLike = true) (count : Nat) :
    p.Counted count := by
  intro required hrequired
  cases hkind : p.kind <;> simp [hkind, Kind.isBlockLike, Kind.operands?] at h hrequired

namespace Tree

/-- Simplified trees have as many children as they must. -/
theorem every_counted_simplifiedAll (h : Every Payload.Counted ts) :
    Every Payload.Counted (simplifiedAll ts) := by
  refine every_simplifiedAll (fun value required hrequired => ?_) (fun p _ required hrequired => ?_)
    (fun p n m hblock _ => Payload.counted_of_isBlockLike hblock m) h
  · cases hrequired
  · exact Option.some.inj hrequired

theorem saved_replaced (p : Payload) (ts : List Tree) :
    (saved p ts).folded + (saved p ts).reduced = if replaced p ts then 1 else 0 := by
  by_cases hbin : p.kind = .binary ∧ ts.length = 2
  · rcases length_eq_two.mp hbin.2 with ⟨l, r, rfl⟩
    -- A node that could be folded and doubled is folded, and counted once.
    rw [saved_binary p l r hbin.1, replaced_binary p l r hbin.1, replacement?]
    cases folded? p.op l r <;> cases doubled? p.op l r <;> rfl
  · rw [saved_other p ts hbin, replaced_other p ts hbin]
    unfold pruning
    split <;> rfl

end Tree

namespace Arena

variable {ids : List NodeId}

/-- The nodes of an arena have as many children as they must. -/
def Counted (a : Arena) : Prop :=
  ∀ id n, a.get? id = some n → n.toPayload.Counted n.children.length

/-- The nodes that are replaced are counted. -/
theorem Forest.length_replaced {foot : List NodeId} (h : Forest a ids ts foot) :
    (foot.filter fun i => (a.tree i).isReplaced).length =
      (savingsAll ts).folded + (savingsAll ts).reduced := by
  induction h with
  | nil => rfl
  | cons id n rest below after ts us root children siblings fresh apart ihC ihS =>
    have htree : a.tree id = .node n.toPayload ts :=
      (Forest.cons id n rest below after ts us root children siblings fresh apart).tree
    -- Savings are those below, those at the node and those of the siblings.
    have hhere := saved_replaced n.toPayload (simplifiedAll ts)
    have hfolded : (savingsAll (.node n.toPayload ts :: us)).folded =
        (savingsAll ts).folded +
          (saved n.toPayload (simplifiedAll ts)).folded +
          (savingsAll us).folded := rfl
    have hreduced : (savingsAll (.node n.toPayload ts :: us)).reduced =
        (savingsAll ts).reduced +
          (saved n.toPayload (simplifiedAll ts)).reduced +
          (savingsAll us).reduced := rfl
    rw [filter_cons, htree, isReplaced]
    cases hreplaced : replaced n.toPayload (simplifiedAll ts) <;>
      simp [hreplaced] at hhere ⊢ <;> omega

theorem Counted.push (h : a.Counted) (hn : n.toPayload.Counted n.children.length) :
    (a.push n).Counted := by
  intro id m hget
  rcases range_of_get? hget with ⟨i, rfl, hi⟩
  rw [size_push] at hi
  rcases Nat.lt_or_eq_of_le (Nat.le_of_lt_succ hi) with hlt | rfl
  · exact h _ m (by rwa [get?_push_of_lt a n i hlt] at hget)
  · cases (get?_push_size a n).symm.trans hget
    exact hn

theorem Counted.put (h : a.Counted) (i : Nat) (hn : n.toPayload.Counted n.children.length) :
    (a.put (i : Int) n).Counted := by
  intro id m hget
  rcases range_of_get? hget with ⟨j, rfl, hj⟩
  rw [size_put] at hj
  by_cases hij : i = j
  · subst hij
    cases (get?_put_self a n i hj).symm.trans hget
    exact hn
  · exact h _ m (by rwa [get?_put_of_ne a n i j hij] at hget)

theorem Counted.tree (h : a.Counted) (depth : Nat) (id : NodeId) :
    Tree.Every Payload.Counted [a.treeTo depth id] := by
  induction depth generalizing id with
  | zero => exact .missing [] .nil
  | succ depth ih =>
    unfold treeTo
    split
    · exact .missing [] .nil
    · next n hget =>
      refine .cons _ _ _ (by rw [length_map]; exact h id n hget) ?_ .nil
      refine every_iff_forall.mpr fun t ht => ?_
      rcases mem_map.mp ht with ⟨child, _, rfl⟩
      exact ih child

theorem Counted.addAll (h : Builds (addAll ts) a ids b) (hts : Tree.Every Payload.Counted ts)
    (ha : a.Counted) : b.Counted ∧ ids.length = ts.length := by
  revert hts ha
  refine builds_addAll_rec h (fun a _ ha => ⟨ha, rfl⟩)
    fun p ts us a below b rest c _ _ ihC ihS hts ha => ?_
  cases hts with
  | cons _ _ _ here children siblings =>
    have hbelow := ihC children ha
    have hafter := ihS siblings (hbelow.1.push (by rwa [hbelow.2]))
    exact ⟨hafter.1, by rw [length_cons, length_cons, hafter.2]⟩

theorem Counted.clone {id' : NodeId} (h : Builds (clone id) a id' b) (ha : a.Counted) :
    b.Counted := by
  -- What is laid out is a tree of the arena, and its nodes are counted like those of the arena.
  rcases of_builds_add (of_builds_get h) with ⟨p, ts, ids, d, htree, hids, _, rfl⟩
  have hevery := ha.tree (a.size + 1) id
  change Tree.Every Payload.Counted [a.tree id] at hevery
  rw [htree] at hevery
  cases hevery with
  | cons _ _ _ _ children =>
    have hbelow := Counted.addAll hids children ha
    exact hbelow.1.push (by rwa [hbelow.2])

end Arena

namespace Optimize

open Arena

/-- Started in an arena whose nodes have as many children as they must, the pass ends in one,
    with a result that has a property. -/
def Preserves {α : Type} (x : Pass α) (post : α → Prop) : Prop :=
  ∀ s a v s' b, Passes x s a v s' b → a.Counted → b.Counted ∧ post v

section Preserves

variable {α β : Type}

theorem preserves_bind {x : Pass α} {f : α → Pass β} {mid : α → Prop} {post : β → Prop}
    (hx : Preserves x mid) (hf : ∀ v, mid v → Preserves (f v) post) : Preserves (x >>= f) post := by
  intro s a w s' c h ha
  rcases of_builds_bind h with ⟨⟨v, s1⟩, b, hfirst, hrest⟩
  have hmid := hx s a v s1 b hfirst ha
  exact hf v hmid.2 s1 b w s' c hrest hmid.1

theorem preserves_pure {post : α → Prop} {v : α} (h : post v) : Preserves (pure v) post := by
  intro s a w s' b hrun ha
  obtain ⟨hresult, rfl⟩ := Prod.mk.inj hrun
  obtain ⟨rfl, _⟩ := Prod.mk.inj (Except.ok.inj hresult)
  exact ⟨ha, h⟩

theorem preserves_throw {post : α → Prop} (fault : Fault) : Preserves (throw fault) post :=
  fun _ _ _ _ _ hrun => absurd hrun nofun

theorem preserves_modify (f : Stats → Stats) : Preserves (modify f) fun _ => True := by
  intro s a w s' b hrun ha
  obtain ⟨_, rfl⟩ := Prod.mk.inj hrun
  exact ⟨ha, trivial⟩

theorem preserves_lift {x : Build α} {post : α → Prop}
    (h : ∀ a v b, Builds x a v b → a.Counted → b.Counted ∧ post v) :
    Preserves (StateT.lift x) post := by
  intro s a w s' c hrun ha
  rcases of_builds_bind hrun with ⟨v, b, hx, hpure⟩
  obtain ⟨hresult, rfl⟩ := Prod.mk.inj hpure
  obtain ⟨rfl, _⟩ := Prod.mk.inj (Except.ok.inj hresult)
  exact h a v b hx ha

theorem preserves_fetch (id : NodeId) :
    Preserves (fetch id) fun n => n.toPayload.Counted n.children.length := by
  refine preserves_lift fun a n b hrun ha => ?_
  replace hrun := of_builds_get hrun
  split at hrun
  · next m hfound =>
    obtain ⟨hresult, rfl⟩ := Prod.mk.inj hrun
    obtain rfl := Except.ok.inj hresult
    exact ⟨ha, ha id m hfound⟩
  · cases hrun

theorem preserves_new (h : n.toPayload.Counted n.children.length) :
    Preserves (StateT.lift (Arena.new n)) fun _ => True := by
  refine preserves_lift fun a v b hrun ha => ?_
  obtain ⟨_, rfl⟩ := Prod.mk.inj ((builds_new n a).symm.trans hrun)
  exact ⟨ha.push h, trivial⟩

theorem preserves_replace (h : n.toPayload.Counted n.children.length) :
    Preserves (StateT.lift (Arena.replace id n)) fun _ => True := by
  refine preserves_lift fun a v b hrun ha => ?_
  replace hrun := of_builds_get hrun
  split at hrun
  · next hvalid =>
    obtain ⟨_, rfl⟩ := Prod.mk.inj hrun
    exact ⟨ha.put _ h, trivial⟩
  · cases hrun

theorem preserves_mapM {f : α → Pass β} {xs : List α}
    (h : ∀ x ∈ xs, Preserves (f x) fun _ => True) :
    Preserves (xs.mapM f) fun ys => ys.length = xs.length := by
  induction xs with
  | nil => exact preserves_pure rfl
  | cons _ _ ih =>
    rw [mapM_cons]
    rcases forall_mem_cons.mp h with ⟨hx, hxs⟩
    refine preserves_bind hx fun y _ => preserves_bind (ih hxs) fun ys hys => preserves_pure ?_
    rw [length_cons, length_cons, hys]

end Preserves

theorem preserves_isPure (id : NodeId) : Preserves (isPure id) fun _ => True := by
  have hget : Preserves (StateT.lift get) fun _ => True := by
    refine preserves_lift fun a v b hrun ha => ?_
    obtain ⟨_, rfl⟩ := Prod.mk.inj hrun
    exact ⟨ha, trivial⟩
  refine preserves_bind hget fun a _ => ?_
  split
  · exact preserves_pure trivial
  · exact preserves_throw _

theorem preserves_doubles (x : NodeId) (n other : Node) :
    Preserves (doubles x n other) fun _ => True := by
  unfold doubles
  split
  · exact preserves_isPure x
  · exact preserves_pure trivial

theorem preserves_doubled? (op : Bytes) (x y : NodeId) :
    Preserves (doubled? op x y) fun _ => True := by
  unfold doubled?
  split
  · refine preserves_bind (preserves_fetch x) fun l _ => preserves_bind (preserves_fetch y) fun r _ =>
      preserves_bind (preserves_doubles x l r) fun first _ => ?_
    split
    · exact preserves_pure trivial
    · refine preserves_bind (preserves_doubles y r l) fun second _ => ?_
      split <;> exact preserves_pure trivial
  · exact preserves_pure trivial

theorem preserves_reachable (ids : List NodeId) : Preserves (reachable ids) fun _ => True := by
  induction ids with
  | nil => exact preserves_pure trivial
  | cons id _ ih =>
    refine preserves_bind (preserves_fetch id) fun n _ => ?_
    split
    · exact preserves_pure trivial
    · exact preserves_bind ih fun _ _ => preserves_pure trivial

theorem preserves_replacement? (n : Node) (x y : NodeId) :
    Preserves (replacement? n x y) fun _ => True := by
  refine preserves_bind (preserves_fetch x) fun l _ => preserves_bind (preserves_fetch y) fun r _ => ?_
  split
  · refine preserves_bind (preserves_modify _) fun _ _ => preserves_bind (preserves_new ?_) fun _ _ =>
      preserves_pure trivial
    exact fun required hrequired => nomatch hrequired
  · refine preserves_bind (preserves_doubled? n.op x y) fun factor _ => ?_
    split
    · refine preserves_bind (preserves_modify _) fun _ _ => ?_
      refine preserves_bind (preserves_lift fun a v b hrun ha => ⟨ha.clone hrun, trivial⟩) fun _ _ => ?_
      refine preserves_bind (preserves_new ?_) fun _ _ => preserves_pure trivial
      exact fun required hrequired => Option.some.inj hrequired
    · exact preserves_pure trivial

theorem preserves_settle (id : NodeId) (h : n.toPayload.Counted n.children.length) :
    Preserves (settle id n) fun _ => True := by
  unfold settle
  split
  · next hblock =>
    refine preserves_bind (preserves_reachable _) fun count _ =>
      preserves_bind (preserves_modify _) fun _ _ => preserves_bind (preserves_replace ?_) fun _ _ =>
        preserves_pure trivial
    exact Payload.counted_of_isBlockLike hblock _
  · exact preserves_bind (preserves_replace h) fun _ _ => preserves_pure trivial

theorem preserves_finish (id : NodeId) (h : n.toPayload.Counted n.children.length) :
    Preserves (finish id n) fun _ => True := by
  unfold finish
  split
  · refine preserves_bind (preserves_replacement? n _ _) fun new _ => ?_
    split
    · exact preserves_pure trivial
    · exact preserves_settle id h
  · exact preserves_settle id h

theorem preserves_simplify (depth : Nat) (id : NodeId) :
    Preserves (simplify depth id) fun _ => True := by
  induction depth generalizing id with
  | zero => exact preserves_throw _
  | succ _ ih =>
    refine preserves_bind (preserves_fetch id) fun old hold => ?_
    -- The node has other children now, but as many as before.
    refine preserves_bind (preserves_mapM fun child _ => ih child) fun children hlength => ?_
    exact preserves_finish id (by rwa [hlength])

/-- A pass keeps the number of children that nodes must have. -/
theorem counted_run {root : NodeId} {result : NodeId × Stats} (h : Builds (run root) a result b)
    (ha : a.Counted) : b.Counted :=
  (preserves_simplify _ root {} a result.1 result.2 b (of_builds_get h) ha).1

/-- A pass over a tree in an arena that has room for it ends on a tree. Nodes have as many
    children as they must if they had before, in the tree and in the whole arena. The arena has
    only grown, nodes that were not reached are as they were, and so are the nodes in whose place
    others were put, which are as many as were counted and no longer part of the tree. -/
theorem run_frame {a : Arena} {root : NodeId} (h : a.IsTree root)
    (hroom : ((run root).run a).2.size ≤ capacity) :
    ∃ root' stats b, Builds (run root) a (root', stats) b ∧ b.IsTree root' ∧
      (∀ id, b.valid id = true → NodeId.Fits id) ∧
      ((∀ id n, a.Reaches root id → a.get? id = some n → n.toPayload.Counted n.children.length) →
        ∀ id n, b.Reaches root' id → b.get? id = some n → n.toPayload.Counted n.children.length) ∧
      (a.Counted → b.Counted) ∧ a.size ≤ b.size ∧
      (∀ i : Nat, i < a.size → ¬ a.Reaches root i → b.get? i = a.get? i) ∧
      ∃ replaced : List NodeId, replaced.Nodup ∧
        (∀ id, id ∈ replaced ↔ a.Reaches root id ∧ (a.tree id).isReplaced = true) ∧
        replaced.length = stats.folded + stats.reduced ∧
        ∀ id ∈ replaced, b.get? id = a.get? id ∧ ¬ b.Reaches root' id := by
  -- The forests before and after carry the proof; what is reached is what is in them.
  rcases isTree_iff_forest.mp h with ⟨t, foot, hforest⟩
  rcases builds_run_kept hforest with ⟨root', b, hrun, foot', hforest', hext, hnew⟩
  have hmem (id : NodeId) : id ∈ foot ↔ a.Reaches root id := by
    rw [hforest.mem_iff_reaches]
    simp
  have hmem' (id : NodeId) : id ∈ foot' ↔ b.Reaches root' id := by
    rw [hforest'.mem_iff_reaches]
    simp
  rw [hrun.arena] at hroom
  refine ⟨root', t.savings, b, hrun, hforest'.isTree, fun id => fits_of_valid hroom,
    fun hcounted => ?_, counted_run hrun, hext.grows,
    fun i hi hreaches => hext.keeps i hi fun hin => ?_,
    foot.filter fun i => (a.tree i).isReplaced, hforest.nodup.filter _, fun id => ?_, ?_,
    fun id hid => ?_⟩
  · have hevery := hforest.every_iff.mpr fun id hid n hget => hcounted id n ((hmem id).mp hid) hget
    have hsimplified := every_counted_simplifiedAll hevery
    exact fun id n hreaches => hforest'.every_iff.mp hsimplified id ((hmem' id).mpr hreaches) n
  · exact hreaches ((hmem i).mp (mem_of_mem_kept hin))
  · rw [mem_filter, hmem]
  · rw [hforest.length_replaced, savingsAll, savingsAll, Stats.add_zero]
  · rcases mem_filter.mp hid with ⟨hfoot, hreplaced⟩
    rcases hforest.range id hfoot with ⟨i, rfl, hi⟩
    -- It is none of the indices that are written, and the new tree has only those and new ones.
    have hnot : (i : Int) ∉ kept a foot := by
      intro hin
      have hkept := (mem_filter.mp hin).2
      rw [hreplaced] at hkept
      cases hkept
    refine ⟨hext.keeps i hi hnot, fun hreaches => ?_⟩
    rcases hnew i ((hmem' i).mpr hreaches) with hin | hge
    · exact hnot hin
    · omega

/-- A block that returns a product with two and goes on, and a node outside of it. -/
def doubling : Arena :=
  ⟨#[{ kind := .ident, name := "x" }, { kind := .integer, integer := 2 },
    { kind := .binary, op := "*", children := [0, 1] }, { kind := .ret, children := [2] },
    { kind := .integer, integer := 7 }, { kind := .block, children := [3, 4] },
    { kind := .ident, name := "y" }]⟩

/-- The product is replaced and keeps its contents, and so does the node outside. -/
theorem run_frame_doubling : doubling.IsTree 5 ∧ ∃ root' stats b,
    Builds (run 5) doubling (root', stats) b ∧ b.IsTree root' ∧ b.get? 6 = doubling.get? 6 ∧
    ∃ replaced : List NodeId, 2 ∈ replaced ∧ replaced.length = stats.folded + stats.reduced ∧
      b.get? 2 = doubling.get? 2 ∧ ¬ b.Reaches root' 2 := by
  have hfactors : Forest doubling [0, 1] _ [0, 1] :=
    .cons 0 _ [1] [] [1] [] _ rfl .nil
      (.cons 1 _ [] [] [] [] [] rfl .nil .nil (by decide) (by decide)) (by decide) (by decide)
  have hproduct : Forest doubling [2] _ [2, 0, 1] :=
    .cons 2 _ [] [0, 1] [] _ [] rfl hfactors .nil (by decide) (by decide)
  have hbody : Forest doubling [3, 4] _ [3, 2, 0, 1, 4] :=
    .cons 3 _ [4] [2, 0, 1] [4] _ _ rfl hproduct
      (.cons 4 _ [] [] [] [] [] rfl .nil .nil (by decide) (by decide)) (by decide) (by decide)
  have hblock : Forest doubling [5] _ [5, 3, 2, 0, 1, 4] :=
    .cons 5 _ [] [3, 2, 0, 1, 4] [] _ [] rfl hbody .nil (by decide) (by decide)
  have hreaches (id : NodeId) : doubling.Reaches 5 id ↔ id ∈ [5, 3, 2, 0, 1, 4] := by
    rw [hblock.mem_iff_reaches]
    simp
  rcases run_frame hblock.isTree (by decide +kernel) with
    ⟨root', stats, b, hrun, htree, _, _, _, _, houtside, replaced, _, hmem, hlength, hkept⟩
  have hproduct : (2 : NodeId) ∈ replaced :=
    (hmem 2).mpr ⟨(hreaches 2).mpr (by decide), by decide⟩
  exact ⟨hblock.isTree, root', stats, b, hrun, htree,
    houtside 6 (by decide) (fun h => absurd ((hreaches 6).mp h) (by decide)), replaced, hproduct,
    hlength, hkept 2 hproduct⟩

end Optimize

end Codegen
