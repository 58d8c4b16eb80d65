import Codegen.Ast.Printer
import Codegen.Proofs.Clean
import Codegen.Proofs.Document.Postorder

/-!
# Structural Equality and What Is Generated

Structural equality compares decimals as numbers. A NaN is not equal to itself, and the two
zeros are equal although their words differ, are written differently and are stored as
different constants. Apart from that it is an equality: it is symmetric and transitive, and
trees that it relates are the same tree up to the signs of the zeros in them. Trees whose
decimals have the same words too are written and compiled alike, wherever they lie in their
arenas.

## Theorems

* `equivalent_compile`: Structural equality and what is generated.
-/

namespace Codegen

open Payload Sample List

variable {a : Arena} {root : NodeId}

theorem Decimal.same_iff {d e : Decimal} : d.same e = true ↔
    d.isNaN = false ∧ e.isNaN = false ∧ (d = e ∨ d.magnitude = 0 ∧ e.magnitude = 0) := by
  rcases d with ⟨bits⟩
  rcases e with ⟨bits'⟩
  simp [same, and_assoc]

namespace Payload

variable {p q : Payload}

theorem agrees_iff : p.agrees q = true ↔
    p.decimal.same q.decimal = true ∧ q = { p with decimal := q.decimal } := by
  rw [agrees, Bool.and_eq_true, decide_eq_true_eq, eq_comm (b := q)]

theorem agrees_self : p.agrees p = true ↔ p.decimal.isNaN = false := by
  simp [agrees_iff, Decimal.same_iff]

theorem agrees_symm (h : p.agrees q = true) : q.agrees p = true := by
  rw [agrees_iff, Decimal.same_iff] at h ⊢
  rcases h with ⟨⟨hp, hq, hwords⟩, hrest⟩
  refine ⟨⟨hq, hp, hwords.imp Eq.symm And.symm⟩, ?_⟩
  rw [hrest]

theorem agrees_trans {r : Payload} (h : p.agrees q = true) (h' : q.agrees r = true) :
    p.agrees r = true := by
  rw [agrees_iff, Decimal.same_iff] at h h' ⊢
  rcases h with ⟨⟨hp, -, hwords⟩, hrest⟩
  rcases h' with ⟨⟨-, hr, hwords'⟩, hrest'⟩
  refine ⟨⟨hp, hr, ?_⟩, by rw [hrest', hrest]⟩
  -- Equal words, or zeros all along.
  rcases hwords with heq | hzero
  · rw [heq]
    exact hwords'
  · rcases hwords' with heq | hzero'
    · rw [← heq]
      exact Or.inr hzero
    · exact Or.inr ⟨hzero.1, hzero'.2⟩

end Payload

namespace Tree

/-- Trees without holes that agree everywhere. -/
inductive Agree : List Tree → List Tree → Prop where
  | nil : Agree [] []
  | cons (p q : Payload) (ts us ts' us' : List Tree) (here : p.agrees q = true)
      (children : Agree ts us) (siblings : Agree ts' us') :
      Agree (.node p ts :: ts') (.node q us :: us')

/-- Structural equality answers whether trees agree. -/
theorem equivalentAll_iff {ts us : List Tree} :
    (ts.length = us.length ∧ equivalentAll ts us = some true) ↔ Agree ts us := by
  constructor
  · induction ts using Tree.listInduction generalizing us with
    | nil =>
      rintro ⟨hlength, -⟩
      obtain rfl := eq_nil_of_length_eq_zero hlength.symm
      exact .nil
    | missing =>
      rintro ⟨hlength, hanswer⟩
      rcases us with - | ⟨u, us'⟩
      · cases hlength
      · simp [equivalentAll, equivalent] at hanswer
    | node p ts ts' ihC ihS =>
      rintro ⟨hlength, hanswer⟩
      rcases us with - | ⟨⟨q, us⟩ | -, us'⟩
      · cases hlength
      · rw [equivalentAll, equivalent] at hanswer
        split_ifs at hanswer with hnode
        · rw [Bool.and_eq_true, decide_eq_true_eq] at hnode
          split at hanswer
          · next htrue =>
            exact .cons p q ts us ts' us' hnode.1 (ihC ⟨hnode.2, htrue⟩)
              (ihS ⟨Nat.succ.inj hlength, hanswer⟩)
          · next hfalse => exact absurd hanswer hfalse
        · cases hanswer
      · simp [equivalentAll, equivalent] at hanswer
  · intro h
    induction h with
    | nil => exact ⟨rfl, rfl⟩
    | cons _ _ _ _ _ _ here _ _ ihC ihS =>
      refine ⟨congrArg Nat.succ ihS.1, ?_⟩
      rw [equivalentAll, equivalent, here, decide_eq_true ihC.1, Bool.and_self, ihC.2]
      exact ihS.2

theorem equivalent_iff {t u : Tree} : t.equivalent u = some true ↔ Agree [t] [u] := by
  rw [← equivalentAll_iff, equivalentAll]
  constructor
  · intro h
    rw [h]
    exact ⟨rfl, rfl⟩
  · rintro ⟨-, h⟩
    split at h
    · assumption
    · exact h

namespace Agree

variable {ts us vs : List Tree}

theorem symm (h : Agree ts us) : Agree us ts := by
  induction h with
  | nil => exact .nil
  | cons p q ts us ts' us' here _ _ ihC ihS =>
    exact .cons q p us ts us' ts' (agrees_symm here) ihC ihS

theorem trans (h : Agree ts us) (h' : Agree us vs) : Agree ts vs := by
  induction h generalizing vs with
  | nil => exact h'
  | cons p _ ts _ ts' _ here _ _ ihC ihS =>
    cases h' with
    | cons _ r _ vs _ vs' here' children' siblings' =>
      exact .cons p r ts vs ts' vs' (agrees_trans here here') (ihC children')
        (ihS siblings')

theorem self_iff (h : Solid ts) :
    Agree ts ts ↔ ∀ p ∈ postorderAll ts, p.decimal.isNaN = false := by
  induction h with
  | nil => exact ⟨fun _ => by simp [postorderAll], fun _ => .nil⟩
  | cons p ts us children siblings ihC ihS =>
    simp only [postorderAll, postorder, append_assoc, forall_mem_append,
      forall_mem_singleton]
    rw [← ihC, ← ihS, ← agrees_self]
    constructor
    · intro hself
      cases hself with
      | cons _ _ _ _ _ _ here children siblings => exact ⟨children, here, siblings⟩
    · rintro ⟨hchildren, here, hsiblings⟩
      exact .cons p p ts ts us us here hchildren hsiblings

theorem decimals (h : Agree ts us) : Forall₂
    (fun p q : Payload => p.decimal = q.decimal ∨ p.decimal.magnitude = 0 ∧ q.decimal.magnitude = 0)
    (postorderAll ts) (postorderAll us) := by
  induction h with
  | nil => exact .nil
  | cons _ _ _ _ _ _ here _ _ ihC ihS =>
    refine rel_append (rel_append ihC (.cons ?_ .nil)) ihS
    exact (Decimal.same_iff.mp (agrees_iff.mp here).1).2.2

/-- Trees that agree and have the same decimals are equal. -/
theorem eq (h : Agree ts us) (hdecimals : (postorderAll ts).map decimal =
    (postorderAll us).map decimal) : ts = us := by
  induction h with
  | nil => rfl
  | cons p q ts us _ _ here children _ ihC ihS =>
    simp only [postorderAll, postorder, map_append, append_assoc] at hdecimals
    have hlength : ((postorderAll ts).map decimal).length =
        ((postorderAll us).map decimal).length := by
      rw [length_map, length_map, children.decimals.length_eq]
    obtain ⟨hchildren, hrest⟩ := append_inj hdecimals hlength
    obtain ⟨hp, hsiblings⟩ := cons.inj hrest
    have hpayload : q = p := (agrees_iff.mp here).2.trans (by rw [← hp])
    rw [ihC hchildren, ihS hsiblings, hpayload]

end Agree

end Tree

theorem Arena.IsTree.forest_tree (h : a.IsTree root) :
    ∃ foot, a.Forest [root] [a.tree root] foot := by
  rcases isTree_iff_forest.mp h with ⟨t, foot, hforest⟩
  obtain rfl : a.tree root = t := hforest.tree
  exact ⟨foot, hforest⟩

namespace Sample

def number (digits : Bytes) : Bytes :=
  "(program (var \"x\" decimal (decimal \"" ++ digits ++ "\")))"

def half : Node := { kind := .decimal, decimal := ⟨0x3ff8000000000000⟩, children := [] }

def around (child : NodeId) : Node := { kind := .program, children := [child] }

theorem isTree_around {child : NodeId} (hroot : a.get? root = some (around child))
    (hchild : a.get? child = some half) (hne : root ≠ child) : a.IsTree root := by
  have hleaf : a.Forest [child] _ _ := .cons child half [] [] [] [] [] hchild .nil .nil nofun nofun
  have hforest : a.Forest [root] _ _ :=
    .cons root (around child) [] _ [] _ [] hroot hleaf .nil (by simpa using hne) nofun
  exact hforest.isTree

end Sample

/-- Structural equality is symmetric and transitive, a finite tree is equal to itself exactly
    if there is no NaN in it, and trees that are equal differ in the signs of zeros only.
    If they do not differ in them, they are written alike and compiled alike. -/
theorem equivalent_compile (t u v : Tree) :
    (t.equivalent u = some true → u.equivalent t = some true) ∧
    (t.equivalent u = some true → u.equivalent v = some true → t.equivalent v = some true) ∧
    (Solid [t] → (t.equivalent t = some true ↔ ∀ p ∈ t.postorder, p.decimal.isNaN = false)) ∧
    (t.equivalent u = some true → List.Forall₂
      (fun p q : Payload =>
        p.decimal = q.decimal ∨ p.decimal.magnitude = 0 ∧ q.decimal.magnitude = 0)
      t.postorder u.postorder) ∧
    (∀ (a b : Arena) (x y : NodeId), (a.tree x).equivalent (b.tree y) = some true →
      (a.tree x).postorder.map decimal = (b.tree y).postorder.map decimal →
      (a.tree x).print? = (b.tree y).print? ∧
      ∀ opts, (opts.optimize = true → a.IsTree x ∧ b.IsTree y) →
        ((compile opts x).run a).1 = ((compile opts y).run b).1) := by
  have hone : ∀ t : Tree, Tree.postorderAll [t] = t.postorder := fun t => append_nil _
  refine ⟨fun h => ?_, fun h h' => ?_, fun ht => ?_, fun h => ?_, fun a b x y h hdecimals => ?_⟩
  · exact Tree.equivalent_iff.mpr (Tree.equivalent_iff.mp h).symm
  · exact Tree.equivalent_iff.mpr ((Tree.equivalent_iff.mp h).trans (Tree.equivalent_iff.mp h'))
  · rw [Tree.equivalent_iff, Tree.Agree.self_iff ht, hone]
  · rw [← hone t, ← hone u]
    exact (Tree.equivalent_iff.mp h).decimals
  · rw [← hone (a.tree x), ← hone (b.tree y)] at hdecimals
    have hsame := (cons.inj ((Tree.equivalent_iff.mp h).eq hdecimals)).1
    refine ⟨congrArg Tree.print? hsame, fun opts hopts => ?_⟩
    rw [run_compile fun hon => (hopts hon).1.forest_tree,
      run_compile fun hon => (hopts hon).2.forest_tree, hsame]

/-- A program that lies in its arena behind its child is compiled like one before it. -/
theorem equivalent_compile_moved :
    let a : Arena := ⟨#[half, around 0]⟩
    let b : Arena := ⟨#[around 1, half]⟩
    (a.tree 1).equivalent (b.tree 0) = some true ∧
      ∀ opts, ((compile opts 1).run a).1 = ((compile opts 0).run b).1 := by
  intro a b
  have ha : a.IsTree 1 := isTree_around rfl rfl (by decide)
  have hb : b.IsTree 0 := isTree_around rfl rfl (by decide)
  have hequal : (a.tree 1).equivalent (b.tree 0) = some true := by decide +kernel
  rcases equivalent_compile (a.tree 1) (b.tree 0) (b.tree 0) with ⟨-, -, -, -, hcompile⟩
  have hmoved := hcompile a b 1 0 hequal (by decide +kernel)
  exact ⟨hequal, fun opts => hmoved.2 opts fun _ => ⟨ha, hb⟩⟩

/-- The zeros are equal but they are written and compiled differently, and a program with a
    NaN is not equal to itself. -/
theorem equivalent_zeros :
    (∃ t u, Document.tree (number "0") = .ok t ∧ Document.tree (number "-0") = .ok u ∧
      t.equivalent u = some true ∧ t.print? ≠ u.print?) ∧
    (compileSource {} (number "0")).toOption.map Generated.text ≠
      (compileSource {} (number "-0")).toOption.map Generated.text ∧
    ∃ t, Document.tree (number "nan") = .ok t ∧ t.equivalent t = some false := by
  have hzero : ∃ t, Document.tree (number "0") = .ok t ∧
      ((Document.tree (number "-0")).toOption.any fun u =>
        decide (t.equivalent u = some true ∧ t.print? ≠ u.print?)) = true :=
    ok_of_any (by decide +kernel)
  have hnan : ∃ t, Document.tree (number "nan") = .ok t ∧
      decide (t.equivalent t = some false) = true := ok_of_any (by decide +kernel)
  rcases hzero with ⟨t, ht, hrest⟩
  rcases ok_of_any hrest with ⟨u, hu, hequal⟩
  rcases hnan with ⟨v, hv, hself⟩
  exact ⟨⟨t, u, ht, hu, of_decide_eq_true hequal⟩, by decide +kernel, v, hv, of_decide_eq_true hself⟩

end Codegen
