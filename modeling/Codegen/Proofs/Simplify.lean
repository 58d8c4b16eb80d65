import Codegen.Optimize
import Codegen.Proofs.Arena

/-!
# What the Optimizer Does to a Tree

The optimizer changes an arena in place. This module gives the same simplifications
as a function on trees (`Tree.simplified`), and shows that a pass over an arena is
that function: started on a forest, it ends on the forest of the simplified trees,
touches no index outside of it but new ones, and counts what the function would
count. A node in whose place another is put is not touched either.

The proof is an induction on the forest. Its step needs that simplifying one child
leaves its siblings alone, which is what the indices of a forest are for. A node
that becomes a literal or a sum gets a new index. The sum shares no node with
anything, since its second operand is a copy at new indices.
-/

namespace Codegen

open Codegen.Tree List

variable {foot : List NodeId} {a : Arena} {id : NodeId}

instance : Add Stats :=
  ⟨fun s s' => ⟨s.folded + s'.folded, s.reduced + s'.reduced, s.pruned + s'.pruned⟩⟩

theorem Stats.add_assoc (s s' s'' : Stats) : s + s' + s'' = s + (s' + s'') := by
  change Stats.mk _ _ _ = Stats.mk _ _ _
  simp only [Stats.mk.injEq]
  exact ⟨Nat.add_assoc _ _ _, Nat.add_assoc _ _ _, Nat.add_assoc _ _ _⟩

theorem Stats.zero_add (s : Stats) : {} + s = s := by
  change Stats.mk _ _ _ = s
  simp

theorem Stats.add_zero (s : Stats) : s + {} = s := rfl

namespace Tree

def kind? (t : Tree) : Option Kind := t.payload?.map Payload.kind

def literal? : Tree → Option Int64
  | .node p _ => if p.kind = .integer then some p.integer else none
  | .missing => none

def ofInteger (value : Int64) : Tree :=
  .node { kind := .integer, integer := value, type := .integer } []

/-- The value of an operation on two literals. -/
def folded? (op : Bytes) (l r : Tree) : Option Int64 :=
  match BinaryOp.ofText? op, l.literal?, r.literal? with
  | some (.arith op), some a, some b => op.eval? a b
  | _, _, _ => none

def doubles (t other : Tree) : Bool :=
  other.literal? = some 2 && t.literal? = none && t.isPure = some true

/-- The factor that a product with two doubles. -/
def doubled? (op : Bytes) (l r : Tree) : Option Tree :=
  if op = "*" then
    if l.doubles r then some l else if r.doubles l then some r else none
  else none

/-- What takes the place of a binary node, if anything does. -/
def replacement? (p : Payload) (l r : Tree) : Option Tree :=
  match folded? p.op l r with
  | some value => some (ofInteger value)
  | none =>
    (doubled? p.op l r).map fun t =>
      .node { kind := .binary, op := "+", type := p.type } [t, t]

/-- The statements up to the first `return`. -/
def reachable : List Tree → List Tree
  | [] => []
  | t :: ts => if t.kind? = some .ret then [t] else t :: reachable ts

/-- A node whose children are simplified, without unreachable statements. -/
def settled (p : Payload) (ts : List Tree) : Tree :=
  .node p (if p.kind.isBlockLike then reachable ts else ts)

/-- A node whose children are simplified, or what takes its place. -/
def reduced (p : Payload) (ts : List Tree) : Tree :=
  match p.kind, ts with
  | .binary, [l, r] => (replacement? p l r).getD (settled p [l, r])
  | _, _ => settled p ts

/-- Whether something takes the place of a node whose children are simplified. -/
def replaced (p : Payload) (ts : List Tree) : Bool :=
  match p.kind, ts with
  | .binary, [l, r] => (replacement? p l r).isSome
  | _, _ => false

/-- What is saved where unreachable statements are dropped. -/
def pruning (p : Payload) (ts : List Tree) : Stats :=
  if p.kind.isBlockLike then { pruned := ts.length - (reachable ts).length } else {}

/-- What is saved at a node whose children are simplified. -/
def saved (p : Payload) (ts : List Tree) : Stats :=
  match p.kind, ts with
  | .binary, [l, r] =>
    match folded? p.op l r, doubled? p.op l r with
    | some _, _ => { folded := 1 }
    | none, some _ => { reduced := 1 }
    | none, none => {}
  | _, _ => pruning p ts

theorem reduced_binary (p : Payload) (l r : Tree) (h : p.kind = .binary) :
    reduced p [l, r] = (replacement? p l r).getD (settled p [l, r]) := by
  unfold reduced
  simp [h]

theorem reduced_other (p : Payload) (ts : List Tree) (h : ¬ (p.kind = .binary ∧ ts.length = 2)) :
    reduced p ts = settled p ts := by
  unfold reduced
  split
  · next l r hkind => exact absurd ⟨hkind, rfl⟩ h
  · rfl

theorem replaced_binary (p : Payload) (l r : Tree) (h : p.kind = .binary) :
    replaced p [l, r] = (replacement? p l r).isSome := by
  unfold replaced
  simp [h]

theorem replaced_other (p : Payload) (ts : List Tree) (h : ¬ (p.kind = .binary ∧ ts.length = 2)) :
    replaced p ts = false := by
  unfold replaced
  split
  · next l r hkind => exact absurd ⟨hkind, rfl⟩ h
  · rfl

theorem saved_binary (p : Payload) (l r : Tree) (h : p.kind = .binary) :
    saved p [l, r] =
      match folded? p.op l r, doubled? p.op l r with
      | some _, _ => { folded := 1 }
      | none, some _ => { reduced := 1 }
      | none, none => {} := by
  unfold saved
  simp [h]

theorem saved_other (p : Payload) (ts : List Tree) (h : ¬ (p.kind = .binary ∧ ts.length = 2)) :
    saved p ts = pruning p ts := by
  unfold saved
  split
  · next l r hkind => exact absurd ⟨hkind, rfl⟩ h
  · rfl

mutual

/-- A tree with everything simplified, children before parents. -/
def simplified : Tree → Tree
  | .missing => .missing
  | .node p ts => reduced p (simplifiedAll ts)

def simplifiedAll : List Tree → List Tree
  | [] => []
  | t :: ts => simplified t :: simplifiedAll ts

end

theorem length_simplifiedAll (ts : List Tree) : (simplifiedAll ts).length = ts.length := by
  induction ts with
  | nil => rfl
  | cons _ _ ih => rw [simplifiedAll, length_cons, length_cons, ih]

/-- Whether something takes the place of the root when a tree is simplified. -/
def isReplaced : Tree → Bool
  | .missing => false
  | .node p ts => replaced p (simplifiedAll ts)

mutual

/-- How often each simplification applies. -/
def savings : Tree → Stats
  | .missing => {}
  | .node p ts => savingsAll ts + saved p (simplifiedAll ts)

def savingsAll : List Tree → Stats
  | [] => {}
  | t :: ts => savings t + savingsAll ts

end

theorem isPure_solid (ts : List Tree) (h : Solid ts) :
    (∀ t ∈ ts, ∃ b, t.isPure = some b) ∧ ∃ b, allPure ts = some b := by
  induction h with
  | nil => exact ⟨by simp, true, rfl⟩
  | cons p ts _ _ _ ihC ihS =>
    have hhead : ∃ b, (node p ts).isPure = some b := by
      rw [isPure.eq_def]
      cases hk : p.kind with
      | binary | unary | index => simpa [hk] using ihC.2
      | _ => simp [hk]
    refine ⟨fun t ht => ?_, ?_⟩
    · rcases mem_cons.mp ht with rfl | ht
      · exact hhead
      · exact ihS.1 t ht
    · rcases hhead with ⟨b, hb⟩
      rw [allPure, hb]
      cases b with
      | true => exact ihS.2
      | false => exact ⟨false, rfl⟩

theorem reachable_eq_take (ts : List Tree) : reachable ts = ts.take (reachable ts).length := by
  induction ts with
  | nil => rfl
  | cons t _ ih =>
    rw [reachable]
    split_ifs
    · rfl
    · rw [length_cons, take_succ_cons, ← ih]

theorem mem_of_doubled? {op : Bytes} {l r t : Tree} (h : doubled? op l r = some t) :
    t ∈ [l, r] := by
  unfold doubled? at h
  split at h
  · split at h
    · simp [Option.some.inj h]
    · split at h
      · simp [Option.some.inj h]
      · cases h
  · cases h

/-- What becomes of a node whose children are simplified: a literal, the sum of a factor with
    itself, or the node without unreachable statements. -/
inductive Reduces (p : Payload) : List Tree → Tree → Prop where
  | folded {l r value} (hkind : p.kind = .binary) (h : folded? p.op l r = some value) :
      Reduces p [l, r] (ofInteger value)
  | doubled {l r t} (hkind : p.kind = .binary) (h : doubled? p.op l r = some t) :
      Reduces p [l, r] (.node { kind := .binary, op := "+", type := p.type } [t, t])
  | settled {ts} (h : ∀ l r, p.kind = .binary → ts = [l, r] →
      folded? p.op l r = none ∧ doubled? p.op l r = none) : Reduces p ts (settled p ts)

theorem reduces (p : Payload) (ts : List Tree) : Reduces p ts (reduced p ts) := by
  by_cases hbin : p.kind = .binary ∧ ts.length = 2
  · rcases hbin with ⟨hkind, htwo⟩
    rcases length_eq_two.mp htwo with ⟨l, r, rfl⟩
    rw [reduced_binary p l r hkind, replacement?]
    cases hfold : folded? p.op l r with
    | some => exact .folded hkind hfold
    | none =>
      cases hdouble : doubled? p.op l r with
      | some => exact .doubled hkind hdouble
      | none =>
        refine .settled fun x y _ hxy => ?_
        cases hxy
        exact ⟨hfold, hdouble⟩
  · rw [reduced_other p ts hbin]
    exact .settled fun l r hkind hpair => absurd ⟨hkind, by rw [hpair]; rfl⟩ hbin

/-- What literals, sums and lists of statements have and other nodes keep, simplified trees
    have. -/
theorem every_simplifiedAll {P : Payload → Nat → Prop} {ts : List Tree}
    (hliteral : ∀ value, P { kind := .integer, integer := value, type := .integer } 0)
    (hsum : ∀ p, P p 2 → P { kind := .binary, op := "+", type := p.type } 2)
    (hcut : ∀ p n m, p.kind.isBlockLike = true → P p n → P p m) (h : Every P ts) :
    Every P (simplifiedAll ts) := by
  induction h with
  | nil => exact .nil
  | missing _ _ ih => exact .missing _ ih
  | cons p ts _ here _ _ ihC ihS =>
    rw [← length_simplifiedAll ts] at here
    refine every_cons.mpr ⟨?_, ihS⟩
    have hreduces := reduces p (simplifiedAll ts)
    rw [simplified]
    generalize reduced p (simplifiedAll ts) = t at hreduces ⊢
    generalize simplifiedAll ts = cs at here ihC hreduces
    cases hreduces with
    | folded => exact .cons _ _ _ (hliteral _) .nil .nil
    | doubled _ h =>
      have hone := every_iff_forall.mp ihC _ (mem_of_doubled? h)
      exact .cons _ _ _ (hsum p here) (every_cons.mpr ⟨hone, hone⟩) .nil
    | settled =>
      unfold settled
      split_ifs with hblock
      · rw [reachable_eq_take]
        refine .cons _ _ _ (hcut p _ _ hblock here) (every_iff_forall.mpr fun t ht => ?_) .nil
        exact every_iff_forall.mp ihC t (mem_of_mem_take ht)
      · exact .cons _ _ _ here ihC .nil

end Tree

namespace Arena

theorem Forest.take {ids : List NodeId} {ts : List Tree} (h : Forest a ids ts foot) :
    ∀ count, ∃ part, Forest a (ids.take count) (ts.take count) part ∧
      ∀ i ∈ part, i ∈ foot := by
  induction h with
  | nil => exact fun count => ⟨[], by simpa using Forest.nil, by simp⟩
  | cons id n _ below _ ts _ root children _ fresh apart _ ihS =>
    intro count
    cases count with
    | zero => exact ⟨[], by simpa using Forest.nil, by simp⟩
    | succ count =>
      rcases ihS count with ⟨part, hpart, hsub⟩
      refine ⟨id :: (below ++ part), .cons id n _ below part ts _ root children hpart ?_ ?_, ?_⟩
      · intro hmem
        rcases mem_append.mp hmem with hin | hin
        · exact fresh (by simp [hin])
        · exact fresh (by simp [hsub id hin])
      · exact fun i hi hp => apart i hi (hsub i hp)
      · intro i hi
        rcases mem_cons.mp hi with rfl | hi
        · simp
        · rcases mem_append.mp hi with hin | hin
          · simp [hin]
          · simp [hsub i hin]

theorem Forest.node {t : Tree} (h : Forest a [id] [t] foot) :
    ∃ n ts, a.get? id = some n ∧ t = .node n.toPayload ts := by
  cases h with
  | cons _ n _ _ _ ts _ root => exact ⟨n, ts, root, rfl⟩

end Arena

namespace Optimize

open Arena

variable {t : Tree} {ids : List NodeId} {ts : List Tree} {x root : NodeId} {n : Node}

/-- Started with counts `s` and the arena `a`, the pass ends with the result `v`, the
    counts `s'` and the arena `b`. -/
def Passes {α : Type} (x : Pass α) (s : Stats) (a : Arena) (v : α) (s' : Stats) (b : Arena) :
    Prop :=
  Builds (x.run s) a (v, s') b

section Passes

variable {α β : Type} {s s1 s2 : Stats} {b c : Arena}

theorem passes_pure (v : α) (s : Stats) (a : Arena) : Passes (pure v) s a v s a := rfl

theorem passes_bind {x : Pass α} {f : α → Pass β} {v : α} {w : β} (hx : Passes x s a v s1 b)
    (hf : Passes (f v) s1 b w s2 c) : Passes (x >>= f) s a w s2 c :=
  builds_bind hx hf

theorem passes_lift {x : Build α} {v : α} (h : Builds x a v b) (s : Stats) :
    Passes (StateT.lift x) s a v s b :=
  builds_bind h (builds_pure _ b)

theorem passes_modify (f : Stats → Stats) (s : Stats) (a : Arena) :
    Passes (modify f) s a () (f s) a := rfl

theorem passes_fetch (h : a.get? id = some n) (s : Stats) : Passes (fetch id) s a n s a :=
  passes_lift (builds_fetch h) s

end Passes

theorem literal?_node (n : Node) (ts : List Tree) :
    (node n.toPayload ts).literal? = literal? n := rfl

theorem passes_isPure (h : Forest a [id] [t] foot) (s : Stats) :
    Passes (isPure id) s a (decide (t.isPure = some true)) s a := by
  rcases (isPure_solid [t] h.solid).1 t (by simp) with ⟨answer, hanswer⟩
  refine passes_bind (passes_lift (builds_get a) s) ?_
  rw [h.tree, hanswer]
  cases answer <;> exact passes_pure _ s a

theorem passes_doubles {other : Tree} {m : Node} {us : List Tree} (h : Forest a [x] [t] foot)
    (ht : t = .node n.toPayload ts) (ho : other = .node m.toPayload us) (s : Stats) :
    Passes (doubles x n m) s a (t.doubles other) s a := by
  have hint : (n.kind != .integer) = decide (t.literal? = none) := by
    rw [ht, literal?_node, literal?]
    by_cases hk : n.kind = .integer <;> simp [hk]
  have hother : other.literal? = literal? m := by
    rw [ho, literal?_node]
  unfold doubles Tree.doubles
  rw [hint, hother]
  split_ifs with hcond
  · rw [hcond]
    exact passes_isPure h s
  · rw [eq_false_of_ne_true hcond]
    exact passes_pure false s a

theorem passes_doubled? {y : NodeId} {l r : Tree} (op : Bytes) (h : Forest a [x, y] [l, r] foot)
    (s : Stats) :
    match Tree.doubled? op l r with
    | some t => ∃ z part, Passes (doubled? op x y) s a (some z) s a ∧ Forest a [z] [t] part ∧
        ∀ i ∈ part, i ∈ foot
    | none => Passes (doubled? op x y) s a none s a := by
  rcases h.uncons with ⟨footL, footR, hl, hr, rfl, _⟩
  rcases hl.node with ⟨nl, tsl, hgetL, hnodeL⟩
  rcases hr.node with ⟨nr, tsr, hgetR, hnodeR⟩
  have hasked := passes_doubles hl hnodeL hnodeR s
  have hasked' := passes_doubles hr hnodeR hnodeL s
  unfold Tree.doubled? doubled?
  by_cases hop : op = "*"
  · rw [if_pos hop, if_pos hop]
    have hfetched {f : Node → Node → Pass (Option NodeId)} {v : Option NodeId}
        (h : Passes (f nl nr) s a v s a) :
        Passes (fetch x >>= fun l => fetch y >>= fun r => f l r) s a v s a :=
      passes_bind (passes_fetch hgetL s) (passes_bind (passes_fetch hgetR s) h)
    cases hdl : l.doubles r with rw [hdl] at hasked
    | true =>
      exact ⟨x, footL, hfetched (passes_bind hasked (passes_pure _ s a)), hl,
        fun i hi => by simp [hi]⟩
    | false =>
      cases hdr : r.doubles l with rw [hdr] at hasked'
      | true =>
        exact ⟨y, footR, hfetched (passes_bind hasked (passes_bind hasked' (passes_pure _ s a))),
          hr, fun i hi => by simp [hi]⟩
      | false => exact hfetched (passes_bind hasked (passes_bind hasked' (passes_pure _ s a)))
  · rw [if_neg hop, if_neg hop]
    exact passes_pure _ s a

theorem passes_double (type : Ty) (h : Forest a [x] [t] foot) (s : Stats) : ∃ id b,
    Passes (do
      let copy ← StateT.lift (Arena.clone x)
      let id ← StateT.lift
        (Arena.new { kind := .binary, op := "+", type := type, children := [x, copy] })
      return some id) s a (some id) s b ∧
    Rebuilt a foot b [id] [.node { kind := .binary, op := "+", type := type } [t, t]] := by
  rcases builds_clone h with ⟨copy, b, hclone, hcopy⟩
  have hsame : Rebuilt a foot a [x] [t] := ⟨foot, h, .refl a foot, fun _ hi => Or.inl hi⟩
  -- The copy is at new indices, so it shares nothing with what it was made of.
  have hpair := hsame.cons hcopy (by simp) (by simp)
  rw [append_nil] at hpair
  let sum : Node := { kind := .binary, op := "+", type := type, children := [x, copy] }
  exact ⟨_, _, passes_bind (passes_lift hclone s)
    (passes_bind (passes_lift (builds_new sum b) s) (passes_pure _ s _)), Rebuilt.push sum hpair⟩

theorem passes_replacement? {y : NodeId} {l r : Tree} (n : Node) (hkind : n.kind = .binary)
    (h : Forest a [x, y] [l, r] foot) (s : Stats) :
    match Tree.replacement? n.toPayload l r with
    | some t => ∃ id b,
        Passes (replacement? n x y) s a (some id) (s + Tree.saved n.toPayload [l, r]) b ∧
          Rebuilt a foot b [id] [t]
    | none => Passes (replacement? n x y) s a none s a := by
  rcases h.uncons with ⟨footL, footR, hl, hr, rfl, _⟩
  rcases hl.node with ⟨nl, tsl, hgetL, hnodeL⟩
  rcases hr.node with ⟨nr, tsr, hgetR, hnodeR⟩
  have hfold : foldedValue? n.op nl nr = Tree.folded? n.op l r := by
    rw [hnodeL, hnodeR]
    rfl
  rw [Tree.saved_binary _ l r hkind]
  unfold Tree.replacement? replacement?
  cases hvalue : Tree.folded? n.op l r with
  | some value =>
    let literal : Node := { kind := .integer, integer := value, type := .integer }
    refine ⟨(a.size : Int), a.push literal, ?_,
      Rebuilt.push literal ⟨[], .nil, .refl a _, by simp⟩⟩
    refine passes_bind (passes_fetch hgetL s) (passes_bind (passes_fetch hgetR s) ?_)
    rw [hfold, hvalue]
    exact passes_bind (passes_modify _ s a)
      (passes_bind (passes_lift (builds_new literal a) _) (passes_pure _ _ _))
  | none =>
    have hdoubled := passes_doubled? n.op h s
    cases htwice : Tree.doubled? n.op l r with rw [htwice] at hdoubled
    | none =>
      refine passes_bind (passes_fetch hgetL s) (passes_bind (passes_fetch hgetR s) ?_)
      rw [hfold, hvalue]
      exact passes_bind hdoubled (passes_pure _ s a)
    | some =>
      rcases hdoubled with ⟨z, part, hasked, hpart, hsub⟩
      rcases passes_double n.type hpart (s + { reduced := 1 }) with ⟨id, b, hrun, hbuilt⟩
      refine ⟨id, b, ?_, hbuilt.mono hsub⟩
      refine passes_bind (passes_fetch hgetL s) (passes_bind (passes_fetch hgetR s) ?_)
      rw [hfold, hvalue]
      exact passes_bind hasked (passes_bind (passes_modify _ s a) hrun)

theorem passes_reachable (h : Forest a ids ts foot) (s : Stats) :
    Passes (reachable ids) s a (Tree.reachable ts).length s a := by
  induction h with
  | nil => exact passes_pure 0 s a
  | cons _ n _ _ _ ts _ root _ _ _ _ _ ihS =>
    rw [Tree.reachable]
    refine passes_bind (passes_fetch root s) ?_
    have hkind : (node n.toPayload ts).kind? = some n.kind := rfl
    split
    · next hret =>
      rw [if_pos (by rw [hkind, hret])]
      exact passes_pure 1 s a
    · next hret =>
      rw [if_neg (by rw [hkind]; exact fun h => hret (Option.some.inj h))]
      exact passes_bind ihS (passes_pure _ s a)

theorem rebuilt_put {part : List NodeId} (n : Node) (i : Nat) (hlt : i < a.size)
    (h : Forest a ids ts part) (hsub : ∀ j ∈ part, j ∈ foot) (hfresh : (i : Int) ∉ foot) :
    Rebuilt a ((i : Int) :: foot) (a.put (i : Int) { n with children := ids }) [(i : Int)]
      [.node n.toPayload ts] := by
  have hother : ∀ j : Nat, (j : Int) ≠ (i : Int) →
      (a.put (i : Int) { n with children := ids }).get? (j : Int) = a.get? (j : Int) := by
    intro j hj
    exact get?_put_of_ne a _ i j (fun hij => hj (by rw [hij]))
  refine ⟨(i : Int) :: part, Forest.store (n := { n with children := ids })
    (get?_put_self a _ i hlt) h ?_ ?_, ⟨Nat.le_of_eq (size_put a _ _).symm, fun j _ hn => ?_⟩, ?_⟩
  · intro id hid
    rcases h.range id hid with ⟨j, rfl, hj⟩
    exact hother j (fun hij => hfresh (hij ▸ hsub _ hid))
  · exact fun hin => hfresh (hsub _ hin)
  · exact hother j (fun hij => hn (by simp [hij]))
  · intro j hj
    rcases mem_cons.mp hj with hj | hj
    · exact Or.inl (by simp [hj])
    · exact Or.inl (by simp [hsub _ hj])

theorem passes_settle (n : Node) (i : Nat) (hlt : i < a.size) (hids : n.children = ids)
    (h : Forest a ids ts foot) (hfresh : (i : Int) ∉ foot) (s : Stats) : ∃ b,
    Passes (settle (i : Int) n) s a (i : Int) (s + pruning n.toPayload ts) b ∧
      Rebuilt a ((i : Int) :: foot) b [(i : Int)] [settled n.toPayload ts] := by
  subst hids
  unfold settle settled pruning
  by_cases hblock : n.kind.isBlockLike = true
  · rcases h.take (Tree.reachable ts).length with ⟨part, hpart, hsub⟩
    rw [← reachable_eq_take] at hpart
    simp only [hblock]
    refine ⟨_, ?_, rebuilt_put n i hlt hpart hsub hfresh⟩
    rw [← h.length_eq]
    exact passes_bind (passes_reachable h s) (passes_bind (passes_modify _ s a)
      (passes_bind (passes_lift (builds_replace _ i hlt) _) (passes_pure _ _ _)))
  · simp only [hblock]
    refine ⟨_, ?_, rebuilt_put n i hlt h (fun _ hj => hj) hfresh⟩
    exact passes_bind (passes_lift (builds_replace n i hlt) s) (passes_pure _ s _)

/-- What remains to be done at a node whose children are simplified. -/
def finish (id : NodeId) (n : Node) : Pass NodeId :=
  match n.kind, n.children with
  | .binary, [left, right] => do
    match ← replacement? n left right with
    | some new => return new
    | none => settle id n
  | _, _ => settle id n

/-- A pass at one node, after its children: the node is replaced and left as it is, or stored
    again. -/
theorem passes_finish (n : Node) (i : Nat) (hlt : i < a.size) (h : Forest a n.children ts foot)
    (hfresh : (i : Int) ∉ foot) (s : Stats) :
    ∃ id b, Passes (finish (i : Int) n) s a id (s + Tree.saved n.toPayload ts) b ∧
      Rebuilt a (if Tree.replaced n.toPayload ts then foot else (i : Int) :: foot) b [id]
        [Tree.reduced n.toPayload ts] := by
  by_cases hbin : n.kind = .binary ∧ ts.length = 2
  · rcases hbin with ⟨hkind, htwo⟩
    rcases length_eq_two.mp htwo with ⟨l, r, rfl⟩
    rcases length_eq_two.mp (h.length_eq.trans htwo) with ⟨x, y, hxy⟩
    rw [hxy] at h
    have hrep := passes_replacement? n hkind h s
    rw [Tree.reduced_binary n.toPayload l r hkind, Tree.replaced_binary n.toPayload l r hkind]
    unfold finish
    simp only [hkind, hxy]
    cases hcase : Tree.replacement? n.toPayload l r with rw [hcase] at hrep
    | some =>
      rcases hrep with ⟨id, b, hrun, hbuilt⟩
      exact ⟨id, b, passes_bind hrun (passes_pure _ _ _), hbuilt⟩
    | none =>
      rcases passes_settle n i hlt hxy h hfresh s with ⟨b, hrun, hbuilt⟩
      -- Nothing is saved at an operator that stays, since it is no list of statements.
      have hnone : Tree.saved n.toPayload [l, r] = Tree.pruning n.toPayload [l, r] := by
        unfold Tree.replacement? at hcase
        rw [Tree.saved_binary _ l r hkind]
        cases hfold : Tree.folded? n.op l r <;>
          simp_all [Tree.pruning, Kind.isBlockLike]
      rw [hnone]
      exact ⟨(i : Int), b, passes_bind hrep hrun, hbuilt⟩
  · rcases passes_settle n i hlt rfl h hfresh s with ⟨b, hrun, hbuilt⟩
    rw [Tree.reduced_other _ _ hbin, Tree.saved_other _ _ hbin, Tree.replaced_other _ _ hbin]
    have hfinish : finish (i : Int) n = settle (i : Int) n := by
      unfold finish
      split
      · next x y hkind hxy =>
        refine absurd ⟨hkind, ?_⟩ hbin
        rw [← h.length_eq, hxy]
        rfl
      · rfl
    rw [hfinish]
    exact ⟨(i : Int), b, hrun, hbuilt⟩

theorem passes_simplify_node {b : Arena} {i depth : Nat} {touched : List NodeId} {s : Stats}
    (hroot : b.get? (i : Int) = some n) (hfresh : (i : Int) ∉ touched)
    (hchildren : ∃ ids c,
      Passes (n.children.mapM (simplify depth)) s b ids (s + savingsAll ts) c ∧
        Rebuilt b touched c ids (simplifiedAll ts)) :
    ∃ id c, Passes (simplify (depth + 1) (i : Int)) s b id
        (s + (node n.toPayload ts).savings) c ∧
      Rebuilt b (if (node n.toPayload ts).isReplaced then touched else (i : Int) :: touched) c
        [id] [(node n.toPayload ts).simplified] := by
  rcases range_of_get? hroot with ⟨i', hi', hlt⟩
  have hsame : i = i' := Int.ofNat.inj hi'
  rcases hchildren with ⟨ids, c, hrun, foot, hforest, hext, hnew⟩
  have hgrows := hext.grows
  -- The index is not among those of the new children: these are old ones below it, or new.
  have hfresh' : (i : Int) ∉ foot := by
    intro hmem
    rcases hnew i hmem with hin | hge
    · exact hfresh hin
    · omega
  rcases passes_finish { n with children := ids } i (by omega) hforest hfresh'
    (s + savingsAll ts) with ⟨id, d, hrun', hbuilt⟩
  refine ⟨id, d, ?_, hbuilt.trans ?_ ?_⟩
  · rw [savings, ← Stats.add_assoc]
    exact passes_bind (passes_fetch hroot s) (passes_bind hrun hrun')
  · refine ⟨hext.grows, fun j hj hn => hext.keeps j hj (fun hin => hn ?_)⟩
    split
    · exact hin
    · exact mem_cons_of_mem _ hin
  · intro j hj
    split at hj
    · rw [if_pos (by assumption)]
      exact hnew j hj
    · rw [if_neg (by assumption)]
      rcases mem_cons.mp hj with hj | hj
      · exact Or.inl (by simp [hj])
      · exact (hnew j hj).imp_left (fun hin => by simp [hin])

/-- The indices of a list whose nodes stay where they are when trees are simplified. -/
def kept (a : Arena) (foot : List NodeId) : List NodeId :=
  foot.filter fun i => !(a.tree i).isReplaced

theorem mem_of_mem_kept {i : NodeId} (h : i ∈ kept a foot) : i ∈ foot :=
  mem_of_mem_filter h

/-- A pass over a forest. It is stated for every arena that has the nodes of the
    forest, since the siblings of a node are simplified in the arena that the node
    leaves behind. -/
theorem passes_simplify (h : Forest a ids ts foot) :
    ∀ (depth : Nat) (b : Arena) (s : Stats), foot.length ≤ depth →
    (∀ i ∈ foot, b.get? i = a.get? i) → ∃ ids' c,
      Passes (ids.mapM (simplify depth)) s b ids' (s + savingsAll ts) c ∧
        Rebuilt b (kept a foot) c ids' (simplifiedAll ts) := by
  induction h with
  | nil => exact fun depth b s _ _ => ⟨[], b, passes_pure [] s b, [], .nil, .refl b [], by simp⟩
  | cons id n rest below after ts us root children siblings fresh apart ihC ihS =>
    intro depth b s hdepth hsame
    simp only [length_cons, length_append] at hdepth
    cases depth with
    | zero => omega
    | succ depth =>
      have hroot : b.get? id = some n := by rw [hsame id (by simp), root]
      rcases range_of_get? hroot with ⟨i, rfl, hi⟩
      have hafter : Forest b rest us after :=
        siblings.congr (fun j hj => hsame j (by simp [hj]))
      have htree : a.tree i = .node n.toPayload ts :=
        (Forest.cons _ n rest below after ts us root children siblings fresh apart).tree
      rcases passes_simplify_node hroot
          (fun hin => fresh (mem_append_left _ (mem_of_mem_kept hin)))
          (ihC depth b s (by omega) (fun j hj => hsame j (by simp [hj]))) with
        ⟨id', c, hrun, hbuilt⟩
      have hfirst : (if (node n.toPayload ts).isReplaced then kept a below
          else (i : Int) :: kept a below) = kept a ((i : Int) :: below) := by
        unfold kept
        rw [filter_cons, htree]
        cases (node n.toPayload ts).isReplaced <;> rfl
      rw [hfirst] at hbuilt
      have hapart : ∀ j ∈ kept a ((i : Int) :: below), j ∉ after := by
        intro j hj hin
        rcases mem_cons.mp (mem_of_mem_kept hj) with rfl | hj
        · exact fresh (by simp [hin])
        · exact apart j hj hin
      -- The siblings are where they were.
      have hkept : ∀ j ∈ after, c.get? j = a.get? j := by
        intro j hj
        rcases hbuilt with ⟨_, _, hext, _⟩
        rcases hafter.range j hj with ⟨k, rfl, hk⟩
        rw [hext.keeps k hk (fun hin => hapart _ hin hj), hsame _ (by simp [hj])]
      rcases ihS (depth + 1) c (s + (node n.toPayload ts).savings) (by omega) hkept with
        ⟨ids', d, hrun', hbuilt'⟩
      have hboth := hbuilt.cons hbuilt' (fun j hj => hafter.range j (mem_of_mem_kept hj))
        fun j hj hin => hapart j hj (mem_of_mem_kept hin)
      unfold kept at hboth
      rw [← filter_append] at hboth
      refine ⟨id' :: ids', d, ?_, hboth⟩
      rw [mapM_cons, savingsAll, ← Stats.add_assoc]
      exact passes_bind hrun (passes_bind hrun' (passes_pure _ _ _))

/-- A pass over the tree below an index ends on the simplified tree, in an arena that
    differs from the first one at indices of the tree whose nodes are not replaced, and at new
    ones. -/
theorem builds_run_kept (h : Forest a [root] [t] foot) : ∃ root' b,
    Builds (run root) a (root', t.savings) b ∧ Rebuilt a (kept a foot) b [root'] [t.simplified] := by
  rcases passes_simplify h (a.size + 1) a {} (Nat.le_succ_of_le h.length_le) (fun _ _ => rfl) with
    ⟨ids, b, hrun, hbuilt⟩
  rcases of_builds_bind hrun with ⟨⟨root', s⟩, c, hroot, hrest⟩
  have hpure : Builds (pure ([root'], s)) c (ids, {} + savingsAll [t]) b := hrest
  obtain ⟨hresult, rfl⟩ := Prod.mk.inj hpure
  cases hresult
  rw [Stats.zero_add, savingsAll, savingsAll] at hroot
  exact ⟨root', c, builds_bind (builds_get a) hroot, hbuilt⟩

/-- A pass over the tree below an index ends on the simplified tree, in an arena that
    differs from the first one at indices of the tree and at new ones. -/
theorem builds_run (h : Forest a [root] [t] foot) : ∃ root' b,
    Builds (run root) a (root', t.savings) b ∧ Rebuilt a foot b [root'] [t.simplified] := by
  rcases builds_run_kept h with ⟨root', b, hrun, hbuilt⟩
  exact ⟨root', b, hrun, hbuilt.mono fun _ => mem_of_mem_kept⟩

end Optimize

end Codegen
