import Codegen.Proofs.Recast
import Codegen.Proofs.Simplify

/-!
# What the Optimizer Leaves of Names and Types

Whether a program can be lowered depends on its names and types, not on its values. This
module separates the two in what the optimizer does. `Tree.stripped` drops the statements
that the optimizer drops and gives the constants that vanish the type that the optimizer
leaves in their place, and computes nothing. The simplified tree is a rewriting of the
stripped tree in the sense of `Term.Recast`, with nothing left out, so the two compare in
both directions. It is also a rewriting of the tree itself, if constants carry no type
but that of integers, and that comparison goes one way.

What becomes of a binary node is decided by its simplified operands. `Tree.fate` names
the four outcomes, so that the definition of the stripped tree and the two comparisons
split in the same way.

A call needs more care than other nodes. Its callee is a child of the tree but only a
name in the term, and a pipe takes its arguments from two levels down. Both are read off
the terms of the children, so the comparison of the children is enough.
-/

namespace Codegen

open List

variable {p : Payload} {l r t : Tree}

namespace Tree

/-- What becomes of a binary node. -/
inductive Fate where
  | folds | doublesLeft | doublesRight | stays
  deriving DecidableEq, Repr

/-- What becomes of an operation on two simplified operands. -/
def fate (op : Bytes) (l r : Tree) : Fate :=
  if (folded? op l r).isSome then .folds
  else if op = "*" then
    if l.doubles r then .doublesLeft else if r.doubles l then .doublesRight else .stays
  else .stays

/-- The sum that takes the place of a product with two. -/
def twice (p : Payload) (t : Tree) : Tree :=
  .node { kind := .binary, op := "+", type := p.type } [t, t]

theorem of_folded? {op : Bytes} {value : Int64} (h : folded? op l r = some value) :
    ∃ arith a b, BinaryOp.ofText? op = some (.arith arith) ∧ l.literal? = some a ∧
      r.literal? = some b := by
  unfold folded? at h
  split at h
  · next arith a b hop hl hr => exact ⟨arith, a, b, hop, hl, hr⟩
  · cases h

theorem of_doubles {other : Tree} (h : t.doubles other = true) : other.literal? = some 2 := by
  unfold doubles at h
  simp only [Bool.and_eq_true, decide_eq_true_eq] at h
  exact h.1.1

/-- Simplification goes by fate. -/
theorem simplified_fate (p : Payload) (l r : Tree) (hkind : p.kind = .binary) :
    match fate p.op l.simplified r.simplified with
    | .folds => ∃ value arith a b, simplified (.node p [l, r]) = ofInteger value ∧
        BinaryOp.ofText? p.op = some (.arith arith) ∧ l.simplified.literal? = some a ∧
        r.simplified.literal? = some b
    | .doublesLeft => simplified (.node p [l, r]) = twice p l.simplified ∧ p.op = "*" ∧
        r.simplified.literal? = some 2
    | .doublesRight => simplified (.node p [l, r]) = twice p r.simplified ∧ p.op = "*" ∧
        l.simplified.literal? = some 2
    | .stays => simplified (.node p [l, r]) = .node p [l.simplified, r.simplified] := by
  simp only [simplified, simplifiedAll]
  generalize l.simplified = l, r.simplified = r
  have hsettled : settled p [l, r] = .node p [l, r] := by
    unfold settled
    rw [hkind]
    rfl
  rw [reduced_binary p l r hkind, hsettled]
  unfold fate replacement? doubled?
  cases hfolded : folded? p.op l r with
  | some value =>
    rcases of_folded? hfolded with ⟨arith, a, b, hliterals⟩
    exact ⟨value, arith, a, b, rfl, hliterals⟩
  | none =>
    simp only [Option.isSome_none, Bool.false_eq_true, if_false]
    split_ifs with hop hleft hright
    · exact ⟨rfl, hop, of_doubles hleft⟩
    · exact ⟨rfl, hop, of_doubles hright⟩
    all_goals rfl

/-- Whether a tree is a constant. -/
def numeral : Tree → Bool
  | .missing => false
  | .node p ts =>
    match p.kind, ts with
    | .integer, [] => true
    | .binary, [l, r] =>
      (BinaryOp.ofText? p.op).any (fun op => op matches .arith _) && numeral l && numeral r
    | _, _ => false

mutual

/-- Whether no constant has a type but that of integers. -/
def plain : Tree → Bool
  | .missing => true
  | .node p ts =>
    (!numeral (.node p ts) || p.type = .unknown || p.type = .integer) && plainAll ts

/-- Whether no constant of trees has a type but that of integers. -/
def plainAll : List Tree → Bool
  | [] => true
  | t :: ts => plain t && plainAll ts

end

mutual

def asInteger : Tree → Tree
  | .missing => .missing
  | .node p ts => .node { p with type := .integer } (asIntegers ts)

def asIntegers : List Tree → List Tree
  | [] => []
  | t :: ts => asInteger t :: asIntegers ts

end

mutual

/-- A tree without the statements that the optimizer drops, and with integers for the
    constants that it replaces. -/
def stripped : Tree → Tree
  | .missing => .missing
  | .node p ts =>
    match p.kind, ts with
    | .binary, [l, r] =>
      match fate p.op l.simplified r.simplified with
      | .folds => asInteger (.node p [l, r])
      | .doublesLeft => .node p [stripped l, asInteger r]
      | .doublesRight => .node p [asInteger l, stripped r]
      | .stays => .node p [stripped l, stripped r]
    | _, ts => settled p (strippedAll ts)

/-- Trees without what the optimizer drops. -/
def strippedAll : List Tree → List Tree
  | [] => []
  | t :: ts => stripped t :: strippedAll ts

end

theorem stripped_binary (p : Payload) (l r : Tree) (h : p.kind = .binary) :
    stripped (.node p [l, r]) =
      match fate p.op l.simplified r.simplified with
      | .folds => asInteger (.node p [l, r])
      | .doublesLeft => .node p [stripped l, asInteger r]
      | .doublesRight => .node p [asInteger l, stripped r]
      | .stays => .node p [stripped l, stripped r] := by
  rw [stripped.eq_def]
  simp [h]

theorem stripped_other (p : Payload) (ts : List Tree) (h : p.kind ≠ .binary) :
    stripped (.node p ts) = settled p (strippedAll ts) := by
  rw [stripped.eq_def]
  cases hkind : p.kind with
  | binary => exact absurd hkind h
  | _ => simp [hkind]

theorem simplified_other (p : Payload) (ts : List Tree) (h : p.kind ≠ .binary) :
    simplified (.node p ts) = settled p (simplifiedAll ts) := by
  rw [simplified, reduced_other p _ fun hbin => h hbin.1]

theorem length_strippedAll (ts : List Tree) : (strippedAll ts).length = ts.length := by
  induction ts with
  | nil => rfl
  | cons _ _ ih => rw [strippedAll, length_cons, length_cons, ih]

section Constants

variable {ts : List Tree}

theorem numeral_integer (h : p.kind = .integer) : numeral (.node p []) = true := by
  rw [numeral.eq_def]
  simp [h]

theorem numeral_binary {l r : Tree} {op : Arith} (h : p.kind = .binary)
    (hop : BinaryOp.ofText? p.op = some (.arith op)) (hl : l.numeral = true)
    (hr : r.numeral = true) : numeral (.node p [l, r]) = true := by
  rw [numeral.eq_def]
  simp [h, hop, hl, hr]

theorem numeral_cases (h : numeral (.node p ts) = true) :
    p.kind = .integer ∧ ts = [] ∨
      ∃ l r op, p.kind = .binary ∧ ts = [l, r] ∧ BinaryOp.ofText? p.op = some (.arith op) ∧
        l.numeral = true ∧ r.numeral = true := by
  rw [numeral.eq_def] at h
  dsimp only at h
  split at h
  · next hkind => exact Or.inl ⟨hkind, rfl⟩
  · next l r hkind =>
    simp only [Bool.and_eq_true] at h
    obtain ⟨⟨hop, hl⟩, hr⟩ := h
    rcases hsome : BinaryOp.ofText? p.op with _ | ⟨op | op | op⟩ <;> rw [hsome] at hop
    any_goals cases hop
    exact Or.inr ⟨l, r, op, hkind, rfl, rfl, hl, hr⟩
  · cases h

/-- What becomes a literal was a constant. -/
theorem numeral_of_literal (hf : Formed ts) :
    ∀ t ∈ ts, ∀ value, t.simplified.literal? = some value → t.numeral = true := by
  refine hf.forall_mem fun p ts fits _ ih value hvalue => ?_
  by_cases hkind : p.kind = .binary
  · rcases fits.operands (by simp [hkind]) with ⟨l, r, rfl⟩
    have hfate := simplified_fate p l r hkind
    generalize fate p.op l.simplified r.simplified = outcome at hfate
    cases outcome with
    | folds =>
      obtain ⟨_, arith, a, b, -, hop, hl, hr⟩ := hfate
      exact numeral_binary hkind hop (ih l (by simp) a hl) (ih r (by simp) b hr)
    | doublesLeft | doublesRight =>
      rw [hfate.1] at hvalue
      cases hvalue
    | stays =>
      rw [hfate, literal?, if_neg (by rw [hkind]; decide)] at hvalue
      cases hvalue
  · rw [simplified_other p ts hkind, settled, literal?] at hvalue
    by_cases hint : p.kind = .integer
    · have hnil : ts.length = 0 := by
        simp only [Payload.Fits, hint] at fits
        exact fits.1
      rw [length_eq_zero_iff.mp hnil]
      exact numeral_integer hint
    · rw [if_neg hint] at hvalue
      cases hvalue

theorem numeral_asInteger (hf : Formed ts) :
    ∀ t ∈ ts, t.numeral = true → t.asInteger.numeral = true := by
  refine hf.forall_mem fun p ts _ _ ih hnumeral => ?_
  rcases numeral_cases hnumeral with ⟨hkind, rfl⟩ | ⟨l, r, op, hkind, rfl, hop, hl, hr⟩
  · exact numeral_integer hkind
  · exact numeral_binary hkind hop (ih l (by simp) hl) (ih r (by simp) hr)

theorem plain_asInteger (hf : Formed ts) :
    (∀ t ∈ ts, t.asInteger.plain = true) ∧ plainAll (asIntegers ts) = true := by
  induction hf with
  | nil => exact ⟨nofun, rfl⟩
  | cons p ts _ _ _ _ ihC ihS =>
    have hhead : (asInteger (.node p ts)).plain = true := by
      rw [asInteger, plain, ihC.2]
      simp
    refine ⟨fun t ht => ?_, ?_⟩
    · rcases mem_cons.mp ht with rfl | ht
      · exact hhead
      · exact ihS.1 t ht
    · rw [asIntegers, plainAll, hhead, ihS.2]
      rfl

theorem formed_asInteger (hf : Formed ts) :
    Formed (asIntegers ts) ∧ (asIntegers ts).length = ts.length := by
  induction hf with
  | nil => exact ⟨.nil, rfl⟩
  | cons _ _ _ fits _ _ ihC ihS =>
    rw [asIntegers, length_cons, ihS.2]
    refine ⟨.cons _ _ _ ?_ ihC.1 ihS.1, rfl⟩
    rw [ihC.2]
    exact fits.congr rfl rfl

theorem constant_ofTree (hf : Formed ts) :
    ∀ t ∈ ts, t.numeral = true → t.plain = true → Term.Constant (.ofTree t) := by
  refine hf.forall_mem fun p ts _ _ ih hnumeral hplain => ?_
  rw [plain, hnumeral] at hplain
  simp only [Bool.not_true, Bool.false_or, Bool.and_eq_true, Bool.or_eq_true,
    decide_eq_true_eq] at hplain
  obtain ⟨htype, hchildren⟩ := hplain
  rcases numeral_cases hnumeral with ⟨hkind, rfl⟩ | ⟨l, r, op, hkind, rfl, hop, hl, hr⟩
  · rw [Term.ofTree_node p [] (by rw [hkind]; exact nofun) (by rw [hkind]; exact nofun)]
    exact .integer p hkind htype
  · rw [Term.ofTree_node p _ (by rw [hkind]; exact nofun) (by rw [hkind]; exact nofun)]
    simp only [plainAll, Bool.and_eq_true] at hchildren
    exact .binary p op _ _ hkind hop htype (ih l (by simp) hl hchildren.1)
      (ih r (by simp) hr hchildren.2.1)

end Constants

section Shapes

variable {ts ts' : List Tree}

theorem formed_settled (fits : p.Fits ts.length) (hlen : ts'.length = ts.length) (h : Formed ts') :
    Formed [settled p ts'] := by
  unfold settled
  split_ifs with hblock
  · rw [reachable_eq_take]
    refine .cons p _ [] ?_ (h.sublist (take_sublist _ _)) .nil
    unfold Payload.Fits
    cases hkind : p.kind with
    | block | program => trivial
    | _ =>
      rw [hkind] at hblock
      cases hblock
  · exact .cons p ts' [] (by rwa [hlen]) h .nil

theorem formed_twice (p : Payload) (h : Formed [t]) : Formed [twice p t] :=
  .cons _ _ [] ⟨rfl, rfl⟩ (h.consOne h) .nil

theorem formed_ofInteger (value : Int64) : Formed [ofInteger value] :=
  .cons _ [] [] ⟨rfl, rfl⟩ .nil .nil

theorem formed_simplifiedAll (hf : Formed ts) : Formed (simplifiedAll ts) := by
  induction hf with
  | nil => exact .nil
  | cons p ts _ fits _ _ ihC ihS =>
    refine Formed.consOne ?_ ihS
    by_cases hkind : p.kind = .binary
    · rcases fits.operands (by simp [hkind]) with ⟨l, r, rfl⟩
      have hfate := simplified_fate p l r hkind
      generalize fate p.op l.simplified r.simplified = outcome at hfate
      simp only [simplifiedAll] at ihC
      cases outcome with
      | folds =>
        obtain ⟨value, _, _, _, heq, -⟩ := hfate
        rw [heq]
        exact formed_ofInteger value
      | doublesLeft | doublesRight =>
        rw [hfate.1]
        exact formed_twice p (ihC.sublist (by simp))
      | stays =>
        rw [hfate]
        exact .cons p _ [] fits ihC .nil
    · rw [simplified_other p ts hkind]
      exact formed_settled fits (length_simplifiedAll ts) ihC

theorem formed_strippedAll (hf : Formed ts) : Formed (strippedAll ts) := by
  induction hf with
  | nil => exact .nil
  | cons p ts _ fits children _ ihC ihS =>
    refine Formed.consOne ?_ ihS
    by_cases hkind : p.kind = .binary
    · rcases fits.operands (by simp [hkind]) with ⟨l, r, rfl⟩
      have hintegers := (formed_asInteger children).1
      rw [stripped_binary p l r hkind]
      simp only [strippedAll] at ihC
      have hl : Formed [l.stripped] := ihC.sublist (by simp)
      have hr : Formed [r.stripped] := ihC.sublist (by simp)
      have hl' : Formed [l.asInteger] := hintegers.sublist (by simp [asIntegers])
      have hr' : Formed [r.asInteger] := hintegers.sublist (by simp [asIntegers])
      cases fate p.op l.simplified r.simplified with
      | folds => exact .cons _ _ [] (fits.congr rfl rfl) hintegers .nil
      | doublesLeft => exact .cons p _ [] fits (hl.consOne hr') .nil
      | doublesRight => exact .cons p _ [] fits (hl'.consOne hr) .nil
      | stays => exact .cons p _ [] fits ihC .nil
    · rw [stripped_other p ts hkind]
      exact formed_settled fits (length_strippedAll ts) ihC

/-- A node that a payload was turned into: its name is kept, and its kind unless an operation
    has become a literal. -/
def Succeeds (p : Payload) (t : Tree) : Prop :=
  ∃ q ts, t = .node q ts ∧ q.name = p.name ∧ (q.kind = p.kind ∨ p.kind = .binary ∧ q.kind = .integer)

theorem stripped_node (p : Payload) (fits : p.Fits ts.length) :
    Succeeds p (stripped (.node p ts)) := by
  by_cases hkind : p.kind = .binary
  · rcases fits.operands (by simp [hkind]) with ⟨l, r, rfl⟩
    rw [stripped_binary p l r hkind]
    cases fate p.op l.simplified r.simplified <;> exact ⟨_, _, rfl, rfl, Or.inl rfl⟩
  · rw [stripped_other p ts hkind]
    exact ⟨p, _, rfl, rfl, Or.inl rfl⟩

theorem simplified_node (p : Payload) (fits : p.Fits ts.length) :
    Succeeds p (simplified (.node p ts)) := by
  by_cases hkind : p.kind = .binary
  · rcases fits.operands (by simp [hkind]) with ⟨l, r, rfl⟩
    have hname : p.name = [] := by
      simp only [Payload.Fits, hkind] at fits
      exact fits.2
    have hfate := simplified_fate p l r hkind
    generalize fate p.op l.simplified r.simplified = outcome at hfate
    cases outcome with
    | folds =>
      obtain ⟨_, _, _, _, heq, -⟩ := hfate
      exact ⟨_, _, heq, hname.symm, Or.inr ⟨hkind, rfl⟩⟩
    | doublesLeft | doublesRight => exact ⟨_, _, hfate.1, hname.symm, Or.inl hkind.symm⟩
    | stays => exact ⟨p, _, hfate, rfl, Or.inl rfl⟩
  · rw [simplified_other p ts hkind]
    exact ⟨p, _, rfl, rfl, Or.inl rfl⟩

/-- Nodes and what they were turned into, one by one. -/
inductive Alike : List Tree → List Tree → Prop where
  | nil : Alike [] []
  | cons {p us ts t' ts'} (h : Succeeds p t') (rest : Alike ts ts') :
      Alike (.node p us :: ts) (t' :: ts')

theorem alike_simplified (hf : Formed ts) : Alike ts (simplifiedAll ts) := by
  induction hf with
  | nil => exact .nil
  | cons p _ _ fits _ _ _ ihS => exact .cons (simplified_node p fits) ihS

theorem alike_stripped (hf : Formed ts) : Alike ts (strippedAll ts) := by
  induction hf with
  | nil => exact .nil
  | cons p _ _ fits _ _ _ ihS => exact .cons (stripped_node p fits) ihS

def SameName (cs cs' : List Tree) : Prop := cs'.head?.bind name? = cs.head?.bind name?

theorem Alike.sameName (h : Alike ts ts') : SameName ts ts' := by
  cases h with
  | nil => rfl
  | cons h =>
    obtain ⟨_, _, rfl, hname, -⟩ := h
    exact congrArg some hname

theorem Alike.length_reachable (h : Alike ts ts') :
    (reachable ts').length = (reachable ts).length := by
  induction h with
  | nil => rfl
  | @cons p us _ _ _ h _ ih =>
    obtain ⟨q, vs, rfl, -, hkind⟩ := h
    have hret : (node q vs).kind? = some .ret ↔ (node p us).kind? = some .ret := by
      rcases hkind with hkind | ⟨hkind, hkind'⟩
      · simp [kind?, payload?, hkind]
      · simp only [kind?, payload?, Option.map_some, hkind, hkind']
        decide
    rw [reachable, reachable]
    split
    · next hq =>
      rw [if_pos (hret.mp hq)]
      rfl
    · next hq =>
      rw [if_neg (mt hret.mpr hq), length_cons, length_cons, ih]

end Shapes

end Tree

variable {us : List Tree}

section Nodes

open Term

variable {lic : Licence}

/-- The call that a pipe abbreviates, from the terms of its two sides. -/
def Term.piped (p : Payload) (value : Term) : Term → Term
  | .node q _ => if q.kind = .ident then .call p (some q.name) [value] else .call p (some []) []
  | .call q callee args =>
    if q.kind = .call then .call p callee (value :: args) else .call p (some []) []
  | .missing => .call p none []

theorem Term.ofTree_pipe {q : Payload} (value : Tree) (hpipe : p.kind = .pipe)
    (hf : Tree.Formed [.node q us]) :
    ofTree (.node p [value, .node q us]) = piped p (ofTree value) (ofTree (.node q us)) := by
  cases hf with
  | cons _ _ _ fits children =>
    by_cases hident : q.kind = .ident
    · rw [ofTree_pipe_ident value us hpipe hident,
        ofTree_node q us (by rw [hident]; exact nofun) (by rw [hident]; exact nofun), piped,
        if_pos hident]
    by_cases hcall : q.kind = .call
    · have hlen : 1 ≤ us.length := by simpa [Payload.Fits, hcall] using fits
      rcases children.head hlen with ⟨r, ws, args, rfl⟩
      rw [ofTree_pipe_call value hpipe hcall, ofTree_call q _ _ hcall, piped, if_pos hcall]
    rw [ofTree_pipe_other value us hpipe hident hcall]
    by_cases hinner : q.kind = .pipe
    · rcases ofTree_called q us (Or.inr hinner) with ⟨callee, args, heq⟩
      rw [heq, piped, if_neg hcall]
    · rw [ofTree_node q us hcall hinner, piped, if_neg hident]

theorem Term.Recast.piped (hkind : p.kind = .pipe) {v v' s s' : Term}
    (h : Recast lic [v, s] [v', s']) : Recast lic [Term.piped p v s] [Term.piped p v' s'] := by
  have hother : p.kind.isDeclaration = false := by rw [hkind]; rfl
  have hnothing : Recast lic [.call p (some []) []] [.call p (some []) []] :=
    .call p _ [] [] [] [] hother .nil .nil
  have hident (q : Payload) (parts parts' : List Term) :
      Recast lic [Term.piped p v (.node q parts)] [Term.piped p v' (.node q parts')] := by
    rw [Term.piped, Term.piped]
    split_ifs
    · exact .call p _ _ _ [] [] hother h.uncons.1 .nil
    · exact hnothing
  have hcomputed {q q' : Payload} (parts parts' : List Term)
      (hq : q.kind = .integer ∨ q.kind = .binary) (hq' : q'.kind = .integer ∨ q'.kind = .binary) :
      Recast lic [Term.piped p v (.node q parts)] [Term.piped p v' (.node q' parts')] := by
    rw [Term.piped, Term.piped, if_neg (by rcases hq with h | h <;> rw [h] <;> exact nofun),
      if_neg (by rcases hq' with h | h <;> rw [h] <;> exact nofun)]
    exact hnothing
  cases h.uncons.2 with
  | node q parts parts' => exact hident q parts parts'
  | cut q kept dead kept' => exact hident q (kept ++ dead) kept'
  | constant _ _ _ _ before after =>
    rcases before.kind with ⟨q, parts, rfl, hq⟩
    rcases after.kind with ⟨q', parts', rfl, hq'⟩
    exact hcomputed parts parts' hq hq'
  | product _ _ x' _ parts _ _ _ hq =>
    exact hcomputed parts [x', x'] (Or.inr hq) (Or.inr rfl)
  | call q _ _ _ _ _ _ inside =>
    rw [Term.piped, Term.piped]
    split_ifs
    · exact .call p _ _ _ [] [] hother (h.uncons.1.cons inside) .nil
    · exact hnothing

theorem recast_node {cs cs' : List Tree} (hf : Tree.Formed [.node p cs])
    (hf' : Tree.Formed [.node p cs']) (hname : Tree.SameName cs cs')
    (h : Recast lic (ofTrees cs) (ofTrees cs')) :
    Recast lic [ofTree (.node p cs)] [ofTree (.node p cs')] := by
  cases hf with
  | cons _ _ _ fits children _ =>
  cases hf' with
  | cons _ _ _ fits' children' =>
    by_cases hcall : p.kind = .call
    · have hlen : 1 ≤ cs.length := by simpa [Payload.Fits, hcall] using fits
      have hlen' : 1 ≤ cs'.length := by simpa [Payload.Fits, hcall] using fits'
      rcases children.head hlen with ⟨q, us, args, rfl⟩
      rcases children'.head hlen' with ⟨q', us', args', rfl⟩
      have hcallee : (Tree.node q' us').name? = (Tree.node q us).name? := hname
      rw [ofTree_call p _ _ hcall, ofTree_call p _ _ hcall, hcallee]
      exact .call p _ _ _ [] [] (by rw [hcall]; rfl) h.uncons.2 .nil
    by_cases hpipe : p.kind = .pipe
    · have hlen : cs.length = 2 := by simpa [Payload.Fits, hpipe] using fits
      have hlen' : cs'.length = 2 := by simpa [Payload.Fits, hpipe] using fits'
      rcases children.pair hlen with ⟨value, q, us, rfl⟩
      rcases children'.pair hlen' with ⟨value', q', us', rfl⟩
      rw [ofTree_pipe value hpipe (children.sublist (by simp)),
        ofTree_pipe value' hpipe (children'.sublist (by simp))]
      exact h.piped hpipe
    · rw [ofTree_node p cs hcall hpipe, ofTree_node p cs' hcall hpipe]
      exact .node p _ _ [] [] h .nil

end Nodes

namespace Tree

open Term

variable {lic : Licence} {ts : List Tree}

theorem ofTrees_take (ts : List Tree) (count : Nat) :
    ofTrees (ts.take count) = (ofTrees ts).take count := by
  rw [ofTrees_eq_map, ofTrees_eq_map, map_take]

theorem ofTree_blockLike (h : p.kind.isBlockLike = true) (ts : List Tree) :
    ofTree (.node p ts) = .node p (ofTrees ts) := by
  refine ofTree_node p ts ?_ ?_ <;> intro hkind <;> rw [hkind] at h <;> cases h

theorem ofTree_binary (h : p.kind = .binary) (l r : Tree) :
    ofTree (.node p [l, r]) = .node p [ofTree l, ofTree r] :=
  ofTree_node p [l, r] (by rw [h]; exact nofun) (by rw [h]; exact nofun)

theorem constant_ofInteger (value : Int64) : Constant (ofTree (ofInteger value)) :=
  constant_ofTree (formed_ofInteger value) _ (by simp) rfl rfl

theorem constant_asInteger (hf : Formed [t]) (h : t.numeral = true) :
    Constant (ofTree t.asInteger) :=
  constant_ofTree (formed_asInteger hf).1 _ (by simp [asIntegers])
    (numeral_asInteger hf t (by simp) h) ((plain_asInteger hf).1 t (by simp))

theorem numeral_fate (hf : Formed [l, r]) (hkind : p.kind = .binary) :
    match fate p.op l.simplified r.simplified with
    | .folds => numeral (.node p [l, r]) = true
    | .doublesLeft => r.numeral = true
    | .doublesRight => l.numeral = true
    | .stays => True := by
  have hnumeral := numeral_of_literal hf
  have hfate := simplified_fate p l r hkind
  generalize fate p.op l.simplified r.simplified = outcome at hfate
  cases outcome with
  | folds =>
    obtain ⟨_, op, a, b, -, hop, ha, hb⟩ := hfate
    exact numeral_binary hkind hop (hnumeral l (by simp) a ha) (hnumeral r (by simp) b hb)
  | doublesLeft => exact hnumeral r (by simp) 2 hfate.2.2
  | doublesRight => exact hnumeral l (by simp) 2 hfate.2.2
  | stays => trivial

theorem saved_of_doubles (hkind : p.kind = .binary)
    (h : fate p.op l r = .doublesLeft ∨ fate p.op l r = .doublesRight) :
    (saved p [l, r]).reduced = 1 := by
  rw [saved_binary p l r hkind]
  unfold fate at h
  unfold doubled?
  cases hfolded : folded? p.op l r with
  | some => simp [hfolded] at h
  | none =>
    split_ifs at h ⊢
    any_goals rfl
    all_goals simp at h

/-- The products with two that are replaced in trees are licensed, or there are none. -/
def Covered (lic : Licence) (ts : List Tree) : Prop :=
  lic.doubles = true ∨ (savingsAll ts).reduced = 0

theorem Covered.uncons (h : Covered lic (.node p ts :: us)) :
    Covered lic ts ∧ Covered lic us ∧
      (lic.doubles = true ∨ (saved p (simplifiedAll ts)).reduced = 0) := by
  rcases h with hlic | hzero
  · exact ⟨Or.inl hlic, Or.inl hlic, Or.inl hlic⟩
  · have hsum : (savingsAll ts).reduced + (saved p (simplifiedAll ts)).reduced +
      (savingsAll us).reduced = 0 := hzero
    exact ⟨Or.inr (by omega), Or.inr (by omega), Or.inr (by omega)⟩

theorem Covered.doubles (h : Covered lic (.node p [l, r] :: us)) (hkind : p.kind = .binary)
    (hfate : fate p.op l.simplified r.simplified = .doublesLeft ∨
      fate p.op l.simplified r.simplified = .doublesRight) : lic.doubles = true := by
  refine h.uncons.2.2.resolve_right fun hzero => ?_
  simp only [simplifiedAll, saved_of_doubles hkind hfate] at hzero
  cases hzero

/-- What becomes of a binary expression is a rewriting of a term that has what its fate
    asks for. -/
theorem recast_binary {before : Term} (hf : Formed [l, r]) (hkind : p.kind = .binary)
    (hcovered : Covered lic (.node p [l, r] :: us))
    (h : match fate p.op l.simplified r.simplified with
      | .folds => numeral (.node p [l, r]) = true → Constant before
      | .doublesLeft => ∃ x two, before = .node p [x, two] ∧ (r.numeral = true → Constant two) ∧
          Recast lic [x] [ofTree l.simplified]
      | .doublesRight => ∃ x two, before = .node p [two, x] ∧ (l.numeral = true → Constant two) ∧
          Recast lic [x] [ofTree r.simplified]
      | .stays => ∃ x y, before = .node p [x, y] ∧
          Recast lic [x, y] [ofTree l.simplified, ofTree r.simplified]) :
    Recast lic [before] [ofTree (simplified (.node p [l, r]))] := by
  have hfate := simplified_fate p l r hkind
  have hnumeral := numeral_fate hf hkind
  have hlic := hcovered.doubles hkind
  generalize fate p.op l.simplified r.simplified = outcome at *
  cases outcome with
  | folds =>
    obtain ⟨value, _, _, _, heq, -⟩ := hfate
    rw [heq]
    exact .constant _ _ [] [] (h hnumeral) (constant_ofInteger value) .nil
  | doublesLeft | doublesRight =>
    obtain ⟨x, two, rfl, htwo, hx⟩ := h
    rw [hfate.1, twice]
    exact .product p _ _ _ _ [] [] (hlic (by simp)) hkind hfate.2.1 (by simp) (htwo hnumeral) hx .nil
  | stays =>
    obtain ⟨x, y, rfl, hparts⟩ := h
    rw [hfate, ofTree_binary hkind]
    exact .node p _ _ [] [] hparts .nil

/-- The simplified trees are rewritings of the stripped ones, and nothing is left out. -/
theorem recast_stripped (hf : Formed ts) (hcovered : Covered lic ts) :
    Recast lic (ofTrees (strippedAll ts)) (ofTrees (simplifiedAll ts)) := by
  induction hf with
  | nil => exact .nil
  | cons p ts _ fits children _ ihC ihS =>
    have hparts := ihC hcovered.uncons.1
    refine Recast.cons ?_ (ihS hcovered.uncons.2.1)
    by_cases hkind : p.kind = .binary
    · rcases fits.operands (by simp [hkind]) with ⟨l, r, rfl⟩
      rw [stripped_binary p l r hkind]
      refine recast_binary children hkind hcovered ?_
      -- What the fate takes away is kept as integers, so it is constant.
      cases fate p.op l.simplified r.simplified with
      | folds => exact constant_asInteger (.cons p _ [] fits children .nil)
      | doublesLeft =>
        exact ⟨_, _, ofTree_binary hkind _ _, constant_asInteger (children.sublist (by simp)),
          hparts.uncons.1⟩
      | doublesRight =>
        exact ⟨_, _, ofTree_binary hkind _ _, constant_asInteger (children.sublist (by simp)),
          hparts.uncons.2⟩
      | stays => exact ⟨_, _, ofTree_binary hkind _ _, hparts⟩
    · rw [stripped_other p ts hkind, simplified_other p ts hkind]
      unfold settled
      by_cases hblock : p.kind.isBlockLike = true
      · rw [if_pos hblock, if_pos hblock, ofTree_blockLike hblock, ofTree_blockLike hblock,
          reachable_eq_take, reachable_eq_take (simplifiedAll ts), ofTrees_take, ofTrees_take,
          (alike_stripped children).length_reachable, (alike_simplified children).length_reachable]
        exact .node p _ _ [] [] (hparts.take _) .nil
      · rw [if_neg hblock, if_neg hblock]
        have hname : SameName (strippedAll ts) (simplifiedAll ts) :=
          (alike_simplified children).sameName.trans (alike_stripped children).sameName.symm
        exact recast_node
          (.cons p _ [] (by rwa [length_strippedAll]) (formed_strippedAll children) .nil)
          (.cons p _ [] (by rwa [length_simplifiedAll]) (formed_simplifiedAll children) .nil)
          hname hparts

/-- The simplified trees are rewritings of the trees themselves, if their constants are
    integers and statements may be left out. -/
theorem recast_simplified (hcut : lic.cuts = true) (hf : Formed ts) (hplain : plainAll ts = true)
    (hcovered : Covered lic ts) : Recast lic (ofTrees ts) (ofTrees (simplifiedAll ts)) := by
  induction hf with
  | nil => exact .nil
  | cons p ts _ fits children _ ihC ihS =>
    rw [plainAll, Bool.and_eq_true] at hplain
    have hchildren : plainAll ts = true := by
      have hhead := hplain.1
      rw [plain, Bool.and_eq_true] at hhead
      exact hhead.2
    have hparts := ihC hchildren hcovered.uncons.1
    refine Recast.cons ?_ (ihS hplain.2 hcovered.uncons.2.1)
    by_cases hkind : p.kind = .binary
    · rcases fits.operands (by simp [hkind]) with ⟨l, r, rfl⟩
      simp only [plainAll, Bool.and_eq_true] at hchildren
      have hconstant := constant_ofTree children
      refine recast_binary children hkind hcovered ?_
      cases fate p.op l.simplified r.simplified with
      | folds =>
        exact fun h => constant_ofTree (.cons p _ [] fits children .nil) _ (by simp) h hplain.1
      | doublesLeft =>
        exact ⟨_, _, ofTree_binary hkind _ _, fun h => hconstant r (by simp) h hchildren.2.1,
          hparts.uncons.1⟩
      | doublesRight =>
        exact ⟨_, _, ofTree_binary hkind _ _, fun h => hconstant l (by simp) h hchildren.1,
          hparts.uncons.2⟩
      | stays => exact ⟨_, _, ofTree_binary hkind _ _, hparts⟩
    · rw [simplified_other p ts hkind]
      unfold settled
      by_cases hblock : p.kind.isBlockLike = true
      · rw [if_pos hblock, ofTree_blockLike hblock, ofTree_blockLike hblock,
          reachable_eq_take (simplifiedAll ts), ofTrees_take,
          (alike_simplified children).length_reachable]
        have hkept := Recast.cut p _ ((ofTrees ts).drop (reachable ts).length) _ [] [] hcut hblock
          (hparts.take (reachable ts).length) .nil
        rwa [take_append_drop] at hkept
      · rw [if_neg hblock]
        exact recast_node (.cons p _ [] fits children .nil)
          (.cons p _ [] (by rwa [length_simplifiedAll]) (formed_simplifiedAll children) .nil)
          (alike_simplified children).sameName hparts

end Tree

end Codegen
