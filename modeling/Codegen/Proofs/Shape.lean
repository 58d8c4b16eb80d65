import Codegen.Ast.Term
import Codegen.Proofs.Arena

/-!
# The Shape of Trees from Documents

The nodes of a tree that was read have as many children as their kind asks for, and no
tree has a hole. Generators rely on that: they look for a second operand or a body
without a case for its absence, other than to fail.

A term has the shape of its tree, except that a call and a pipe became one call
with a known callee. That callee is the name of a node, which is there because no
tree has a hole.
-/

namespace Codegen

open List

variable {p : Payload} {count : Nat} {ts : List Tree} {t : Tree}

/-- Whether a node may have this many children. A literal and a binary expression
    have no name either. -/
def Payload.Fits (p : Payload) (count : Nat) : Prop :=
  match p.kind with
  | .integer => count = 0 ∧ p.name = []
  | .binary => count = 2 ∧ p.name = []
  | .decimal | .boolean | .string | .ident | .classDecl | .brk | .cont => count = 0
  | .unary | .funcDecl => count = 1
  | .pipe | .whileLoop | .assign | .index => count = 2
  | .forRange => count = 3
  | .call => 1 ≤ count
  | .cond => 2 ≤ count
  | .varDecl | .ret => count ≤ 1
  | .array | .block | .program => True
  | .other _ => False

theorem Payload.Fits.congr {q : Payload} (h : p.Fits count) (hkind : q.kind = p.kind)
    (hname : q.name = p.name) : q.Fits count := by
  unfold Payload.Fits at h ⊢
  rw [hkind, hname]
  exact h

theorem Payload.Fits.operands {α : Type} {xs : List α} (h : p.Fits xs.length)
    (hkind : p.kind ∈ [.binary, .index, .assign, .whileLoop, .pipe]) : ∃ l r, xs = [l, r] := by
  have hlen : xs.length = 2 := by
    unfold Payload.Fits at h
    rcases mem_cons.mp hkind with hkind | hkind
    · rw [hkind] at h
      exact h.1
    · simp only [mem_cons, not_mem_nil, or_false] at hkind
      rcases hkind with hkind | hkind | hkind | hkind <;> rw [hkind] at h <;> exact h
  exact length_eq_two.mp hlen

theorem ok_of_any {ε α : Type} {x : Except ε α} {p : α → Bool} (h : x.toOption.any p = true) :
    ∃ a, x = .ok a ∧ p a = true := by
  rcases x with e | a
  · cases h
  · exact ⟨a, rfl, h⟩

namespace Tree

variable {us : List Tree}

/-- Trees without holes whose nodes have as many children as their kinds ask for. -/
inductive Formed : List Tree → Prop where
  | nil : Formed []
  | cons (p : Payload) (ts us : List Tree) (fits : p.Fits ts.length) (children : Formed ts)
      (siblings : Formed us) : Formed (.node p ts :: us)

theorem Formed.forall_mem {motive : Tree → Prop} (h : Formed ts)
    (node : ∀ p ts, p.Fits ts.length → Formed ts → (∀ t ∈ ts, motive t) → motive (.node p ts)) :
    ∀ t ∈ ts, motive t := by
  induction h with
  | nil => exact nofun
  | cons p ts _ fits children _ ihC ihS =>
    exact forall_mem_cons.mpr ⟨node p ts fits children ihC, ihS⟩

theorem Formed.solid (h : Formed ts) : Solid ts := by
  induction h with
  | nil => exact .nil
  | cons p ts us _ _ _ ihC ihS => exact .cons p ts us ihC ihS

theorem allWords_cons {n : Nat} (h : allWords (t :: us) = some n) :
    ∃ first rest, t.localWords = some first ∧ allWords us = some rest ∧ n = first + rest := by
  rw [allWords] at h
  split at h
  · next first rest hfirst hrest => exact ⟨first, rest, hfirst, hrest, (Option.some.inj h).symm⟩
  · cases h

/-- The words that formed trees need are known. -/
theorem Formed.allWords (h : Formed ts) :
    (∀ t ∈ ts, ∃ n, t.localWords = some n) ∧ ∃ n, allWords ts = some n := by
  induction h with
  | nil => exact ⟨nofun, 0, rfl⟩
  | cons p ts _ _ _ _ ihC ihS =>
    rcases ihC.2 with ⟨m, hm⟩
    rcases ihS.2 with ⟨n, hn⟩
    have hhead : ∃ k, (Tree.node p ts).localWords = some k := by
      rw [localWords, hm]
      by_cases hkind : p.kind = .funcDecl
      · exact ⟨0, if_pos hkind⟩
      · exact ⟨ownWords p + m, if_neg hkind⟩
    rcases hhead with ⟨k, hk⟩
    refine ⟨fun t ht => ?_, k + n, ?_⟩
    · rcases mem_cons.mp ht with rfl | ht
      · exact ⟨k, hk⟩
      · exact ihS.1 t ht
    · rw [Tree.allWords, hk, hn]

theorem Formed.head (h : Formed ts) (hlen : 1 ≤ ts.length) :
    ∃ p us rest, ts = .node p us :: rest := by
  cases h with
  | nil => exact absurd hlen (by simp)
  | cons p us rest => exact ⟨p, us, rest, rfl⟩

theorem Formed.pair (h : Formed ts) (hlen : ts.length = 2) : ∃ t p us, ts = [t, .node p us] := by
  rcases length_eq_two.mp hlen with ⟨t, u, rfl⟩
  cases h with
  | cons _ _ rest _ _ siblings =>
    rcases siblings.head (by simp) with ⟨q, vs, rest, heq⟩
    cases heq
    exact ⟨_, q, vs, rfl⟩

theorem Formed.consOne (h : Formed [t]) (h' : Formed us) : Formed (t :: us) := by
  cases h with
  | cons p ts _ fits children => exact .cons p ts us fits children h'

theorem Formed.sublist (h : Formed us) (hsub : ts.Sublist us) : Formed ts := by
  induction h generalizing ts with
  | nil =>
    obtain rfl := sublist_nil.mp hsub
    exact .nil
  | cons p vs _ fits children _ _ ihS =>
    cases hsub with
    | cons _ hrest => exact ihS hrest
    | cons_cons _ hrest => exact .cons p vs _ fits children (ihS hrest)

theorem Formed.statements (h : Formed [t]) : Formed t.statements := by
  cases h with
  | cons p ts _ fits children =>
    rw [Tree.statements]
    split_ifs
    · exact children
    · exact .cons p ts [] fits children .nil

theorem Formed.entryWords (h : Formed [t]) : ∃ n, t.entryWords = some n :=
  (h.statements.sublist filter_sublist).allWords.2

end Tree

namespace Term

variable {us : List Term}

theorem induction {motive : Term → Prop} (missing : motive .missing)
    (call : ∀ p callee args, (∀ t ∈ args, motive t) → motive (.call p callee args))
    (node : ∀ p parts, (∀ t ∈ parts, motive t) → motive (.node p parts)) : ∀ t, motive t
  | .missing => missing
  | .call p callee args => call p callee args fun t _ => induction missing call node t
  | .node p parts => node p parts fun t _ => induction missing call node t

/-- Terms whose nodes have as many parts as their kinds ask for, and whose calls all
    have a callee. -/
inductive Formed : List Term → Prop where
  | nil : Formed []
  | node (p : Payload) (parts us : List Term) (fits : p.Fits parts.length) (inside : Formed parts)
      (siblings : Formed us) : Formed (.node p parts :: us)
  | call (p : Payload) (callee : Bytes) (args us : List Term) (inside : Formed args)
      (siblings : Formed us) : Formed (.call p (some callee) args :: us)

/-- What calls have from their arguments and nodes from their parts, all formed terms have. -/
theorem Formed.forall_mem {motive : Term → Prop} {terms : List Term} (hf : Formed terms)
    (call : ∀ p callee args, Formed args → (∀ t ∈ args, motive t) →
      motive (.call p (some callee) args))
    (node : ∀ p parts, p.Fits parts.length → Formed parts → (∀ t ∈ parts, motive t) →
      motive (.node p parts)) : ∀ t ∈ terms, motive t := by
  induction hf with
  | nil => exact nofun
  | node p parts _ fits inside _ ihC ihS =>
    exact forall_mem_cons.mpr ⟨node p parts fits inside ihC, ihS⟩
  | call p callee args _ inside _ ihC ihS =>
    exact forall_mem_cons.mpr ⟨call p callee args inside ihC, ihS⟩

theorem ofTrees_eq_map (ts : List Tree) : ofTrees ts = ts.map ofTree := by
  induction ts with
  | nil => rfl
  | cons _ _ ih => rw [ofTrees, map_cons, ih]

theorem length_ofTrees (ts : List Tree) : (ofTrees ts).length = ts.length := by
  rw [ofTrees_eq_map, length_map]

theorem mem_ofTrees (h : t ∈ ts) : ofTree t ∈ ofTrees ts := by
  rw [ofTrees_eq_map]
  exact mem_map_of_mem h

theorem Formed.uncons {t : Term} (h : Formed (t :: us)) : Formed [t] ∧ Formed us := by
  cases h with
  | node p parts _ fits inside siblings => exact ⟨.node p parts [] fits inside .nil, siblings⟩
  | call p callee args _ inside siblings => exact ⟨.call p callee args [] inside .nil, siblings⟩

theorem Formed.cons {t : Term} (h : Formed [t]) (h' : Formed us) : Formed (t :: us) := by
  cases h with
  | node p parts _ fits inside => exact .node p parts us fits inside h'
  | call p callee args _ inside => exact .call p callee args us inside h'

theorem Formed.parts {parts : List Term} (h : Formed (.node p parts :: us)) : Formed parts := by
  cases h
  assumption

theorem Formed.args {callee : Option Bytes} {args : List Term}
    (h : Formed (.call p callee args :: us)) : Formed args := by
  cases h
  assumption

end Term

theorem Term.ofTree_node (p : Payload) (ts : List Tree) (hcall : p.kind ≠ .call)
    (hpipe : p.kind ≠ .pipe) : Term.ofTree (.node p ts) = .node p (Term.ofTrees ts) := by
  rcases p with ⟨kind⟩
  cases kind with
  | call => exact absurd rfl hcall
  | pipe => exact absurd rfl hpipe
  | _ => rfl

theorem Term.ofTree_call (p : Payload) (callee : Tree) (args : List Tree) (h : p.kind = .call) :
    ofTree (.node p (callee :: args)) = .call p callee.name? (ofTrees args) := by
  rcases p with ⟨kind⟩
  cases h
  rfl

section Pipe

variable {q : Payload} (value : Tree) (us : List Tree)

theorem Term.ofTree_pipe_ident (h : p.kind = .pipe) (hq : q.kind = .ident) :
    ofTree (.node p [value, .node q us]) = .call p (some q.name) [ofTree value] := by
  rcases p with ⟨kind⟩
  rcases q with ⟨kind'⟩
  cases h
  cases hq
  rfl

theorem Term.ofTree_pipe_call (h : p.kind = .pipe) (hq : q.kind = .call) (callee : Tree)
    (args : List Tree) :
    ofTree (.node p [value, .node q (callee :: args)]) =
      .call p callee.name? (ofTree value :: ofTrees args) := by
  rcases p with ⟨kind⟩
  rcases q with ⟨kind'⟩
  cases h
  cases hq
  rfl

theorem Term.ofTree_pipe_other (h : p.kind = .pipe) (hident : q.kind ≠ .ident)
    (hcall : q.kind ≠ .call) : ofTree (.node p [value, .node q us]) = .call p (some []) [] := by
  rcases p with ⟨kind⟩
  rcases q with ⟨kind'⟩
  cases h
  cases kind' with
  | ident => exact absurd rfl hident
  | call => exact absurd rfl hcall
  | _ => rfl

end Pipe

theorem Term.ofTree_called (p : Payload) (ts : List Tree) (h : p.kind = .call ∨ p.kind = .pipe) :
    ∃ callee args, ofTree (.node p ts) = .call p callee args := by
  rw [ofTree.eq_def]
  rcases h with h | h
  · cases ts with
    | nil => exact ⟨some [], [], by simp [h]⟩
    | cons callee args => exact ⟨callee.name?, ofTrees args, by simp [h]⟩
  · match ts with
    | [] | [_] | _ :: _ :: _ :: _ => exact ⟨some [], [], by simp [h]⟩
    | [_, .missing] => exact ⟨none, [], by simp [h]⟩
    | [value, .node q us] =>
      simp only [h]
      split <;> exact ⟨_, _, rfl⟩

theorem Term.kind_ofTree (p : Payload) (ts : List Tree) : (ofTree (.node p ts)).kind = p.kind := by
  by_cases h : p.kind = .call ∨ p.kind = .pipe
  · rcases ofTree_called p ts h with ⟨callee, args, heq⟩
    rw [heq]
    rfl
  · rw [ofTree_node p ts (fun hc => h (Or.inl hc)) (fun hp => h (Or.inr hp))]
    rfl

/-- The terms of formed trees. A pipe takes its arguments from a node two levels down, so
    the induction carries the claim for the children of each tree as well. -/
theorem Tree.Formed.terms (h : Formed ts) :
    Term.Formed (Term.ofTrees ts) ∧
      ∀ q us, Tree.node q us ∈ ts → q.Fits us.length ∧ Formed us ∧ Term.Formed (Term.ofTrees us) := by
  induction h with
  | nil => exact ⟨.nil, nofun⟩
  | cons p ts _ fits children _ ihC ihS =>
    refine ⟨?_, fun q vs hmem => ?_⟩
    · refine Term.Formed.cons ?_ ihS.1
      by_cases hcall : p.kind = .call
      · have hlen : 1 ≤ ts.length := by simpa [Payload.Fits, hcall] using fits
        rcases children.head hlen with ⟨q, vs, args, rfl⟩
        rw [Term.ofTree_call p _ _ hcall]
        exact .call p q.name _ [] ihC.1.uncons.2 .nil
      by_cases hpipe : p.kind = .pipe
      · have hlen : ts.length = 2 := by simpa [Payload.Fits, hpipe] using fits
        rcases children.pair hlen with ⟨value, q, vs, rfl⟩
        rcases ihC.2 q vs (by simp) with ⟨hfits, hformed, hterms⟩
        by_cases hident : q.kind = .ident
        · rw [Term.ofTree_pipe_ident value vs hpipe hident]
          exact .call p q.name _ [] ihC.1.uncons.1 .nil
        by_cases hcalled : q.kind = .call
        · have hlen : 1 ≤ vs.length := by simpa [Payload.Fits, hcalled] using hfits
          rcases hformed.head hlen with ⟨r, ws, args, rfl⟩
          rw [Term.ofTree_pipe_call value hpipe hcalled]
          exact .call p r.name _ [] (ihC.1.uncons.1.cons hterms.uncons.2) .nil
        · rw [Term.ofTree_pipe_other value vs hpipe hident hcalled]
          exact .call p [] [] [] .nil .nil
      · rw [Term.ofTree_node p ts hcall hpipe]
        exact .node p _ [] (by rwa [Term.length_ofTrees]) ihC.1 .nil
    · rcases mem_cons.mp hmem with heq | hmem
      · cases heq
        exact ⟨fits, children, ihC.1⟩
      · exact ihS.2 q vs hmem

end Codegen
