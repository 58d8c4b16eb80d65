import Codegen.Proofs.Arm64.Survey
import Codegen.Proofs.Document.Reread
import Codegen.Proofs.Outputs
import Codegen.Proofs.Wasm.Survey

/-!
# Representations and Types

A generator decides from the type of an expression how many words a variable, an argument or a
printed value has, and lowers the expression to code that leaves as many words as that code
happens to leave. The survey of a backend knows the latter, so the two are compared kind by kind.

They are the same unless an operator stands before a text or an array. No operator works on
these, and code for one leaves a single zero. Two operands then have no type, but a lone operand
passes its type on, and that is a type of two words. In WebAssembly a call that has the wrong
number of arguments is left out, and with it the text or array that the function would return.

## Theorems

* `document_representations`: When the two are the same, in both backends.
-/

namespace Codegen

open Term Context List

variable {ts : List Tree}

namespace Tree

mutual

/-- A tree and all that is below it. -/
def subtrees : Tree → List Tree
  | .node p ts => .node p ts :: subtreesAll ts
  | .missing => [.missing]

def subtreesAll : List Tree → List Tree
  | [] => []
  | t :: ts => subtrees t ++ subtreesAll ts

end

theorem Formed.subtrees (h : Formed ts) : ∀ t ∈ subtreesAll ts, Formed [t] := by
  induction h with
  | nil => exact forall_mem_nil _
  | cons p ts _ fits children _ ihC ihS =>
    refine forall_mem_append.mpr ⟨forall_mem_cons.mpr ⟨?_, ihC⟩, ihS⟩
    exact .cons p ts [] fits children .nil

theorem Formed.of_mem_subtrees {root t : Tree} (h : Formed [root]) (ht : t ∈ root.subtrees) :
    Formed [t] := by
  refine h.subtrees t ?_
  rw [subtreesAll, subtreesAll, append_nil]
  exact ht

end Tree

/-- Nodes of which no type was resolved. -/
def Payload.isBare (p : Payload) : Bool :=
  (resolvedType? p).all fun type => type = p.kind.default

def Tree.isBare : Tree → Bool
  | .node p _ => p.isBare
  | .missing => true

namespace Payload

variable {p : Payload}

theorem isBare_iff : p.isBare = true ↔
    resolvedType? p = none ∨ resolvedType? p = some p.kind.default := by
  unfold isBare
  cases resolvedType? p with
  | none => simp
  | some => simp

theorem getD_resolvedType? (h : p.isBare = true) :
    (resolvedType? p).getD p.kind.default = p.kind.default := by
  rcases isBare_iff.mp h with hnone | hsome
  · rw [hnone, Option.getD_none]
  · rw [hsome, Option.getD_some]

theorem resolvedType?_eq_none (h : p.isBare = true) (hkind : p.kind.default = .unknown) :
    resolvedType? p = none := by
  rcases isBare_iff.mp h with hnone | hsome
  · exact hnone
  · rw [hkind] at hsome
    obtain ⟨hresolved, htype⟩ := Option.ite_none_right_eq_some.mp hsome
    simp [Option.some.inj htype] at hresolved

end Payload

namespace Context

/-- An operator other than `not` stands before a text or an array. -/
def Overrates (ctx : Context) (t : Term) : Prop :=
  ∃ p operand rest type, t = .node p (operand :: rest) ∧ p.kind = .unary ∧ p.op ≠ "not" ∧
    ctx.typeOf operand = .ok type ∧ type.rep = .fat

/-- A function that returns a text or an array is called with the wrong number of arguments. -/
def Miscounts (ctx : Context) (t : Term) : Prop :=
  ∃ p name args sym, t = .call p (some name) args ∧ name ≠ "print" ∧ name ≠ "length" ∧
    ctx.funcNamed? name = some sym ∧ args.length ≠ sym.params.length ∧ sym.result.rep = .fat

theorem rep_arithmeticType (left right : Ty) : (arithmeticType left right).rep = .scalar := by
  unfold arithmeticType
  split
  · rfl
  next hfat =>
  simp only [Bool.or_eq_true, decide_eq_true_eq, not_or] at hfat
  -- None of the operands is fat, so whichever passes its type on, the type is not.
  have hscalar {type : Ty} (h : type.rep ≠ .fat) : type.rep = .scalar := by
    cases hrep : type.rep with
    | scalar => rfl
    | fat => exact absurd hrep h
  split
  · rfl
  split
  · exact hscalar hfat.2
  · exact hscalar hfat.1

end Context

namespace Rules

variable (rules : Rules) {ctx : Context} {p : Payload} {parts : List Term}

/-- A function is called, and what is left is not the representation of its result. -/
def Drops (ctx : Context) (t : Term) : Prop :=
  ∃ p name args sym, t = .call p (some name) args ∧ name ≠ "print" ∧ name ≠ "length" ∧
    ctx.funcNamed? name = some sym ∧ rules.result sym args.length ≠ sym.result.rep

/-- When a call leaves what its type says. -/
theorem rep_called_iff (hbare : resolvedType? p = none) (name : Bytes) (args : List Term) :
    (rules.survey ctx (.call p (some name) args)).rep =
        (ctx.typed (.call p (some name) args)).rep ↔
      ¬ rules.Drops ctx (.call p (some name) args) := by
  rw [survey, typed, hbare]
  simp only [Option.getD_some, called, callType, surveys_eq_map, length_map]
  by_cases hprint : name = "print"
  · subst hprint
    refine iff_of_true rfl ?_
    rintro ⟨_, _, _, _, heq, hne, -⟩
    exact hne (Option.some.inj (call.inj heq).2.1).symm
  by_cases hlength : name = "length"
  · subst hlength
    refine iff_of_true rfl ?_
    rintro ⟨_, _, _, _, heq, -, hne, -⟩
    exact hne (Option.some.inj (call.inj heq).2.1).symm
  simp only [if_neg hprint, if_neg hlength]
  cases hsym : ctx.funcNamed? name with
  | none =>
    refine iff_of_true rfl ?_
    rintro ⟨_, _, _, sym, heq, -, -, hfound, -⟩
    obtain ⟨-, hname, -⟩ := call.inj heq
    rw [← Option.some.inj hname, hsym] at hfound
    cases hfound
  | some sym =>
    constructor
    · rintro hrep ⟨_, _, _, found, heq, -, -, hfound, hne⟩
      obtain ⟨-, hname, rfl⟩ := call.inj heq
      rw [← Option.some.inj hname, hsym] at hfound
      cases hfound
      exact hne hrep
    · intro hkept
      by_contra hne
      exact hkept ⟨p, name, args, sym, rfl, hprint, hlength, hsym, hne⟩

theorem rep_inspected (hf : Term.Formed [.node p parts]) (hbare : p.isBare = true)
    (hcall : p.kind ≠ .call) (hpipe : p.kind ≠ .pipe) (hunary : p.kind ≠ .unary) :
    (rules.survey ctx (.node p parts)).rep = (ctx.typed (.node p parts)).rep := by
  have hdefault := Payload.getD_resolvedType? hbare
  have hnone := @Payload.resolvedType?_eq_none p hbare
  rw [survey, typed.eq_def]
  cases hkind : p.kind with
  | call => exact absurd hkind hcall
  | pipe => exact absurd hkind hpipe
  | unary => exact absurd hkind hunary
  | integer | decimal | boolean | string | array =>
    rw [hkind] at hdefault
    simp only [inspected, hkind]
    exact congrArg Ty.rep hdefault.symm
  | ident =>
    have hresolved := hnone (by rw [hkind]; rfl)
    simp only [inspected, hkind, hresolved]
    cases hsym : ctx.varNamed? p.name with
    | some => rfl
    | none =>
      rw [typed.eq_def]
      simp [hkind, hresolved, hsym]
  | binary =>
    have hresolved := hnone (by rw [hkind]; rfl)
    cases hf with
    | node _ _ _ fits =>
      rcases fits.operands (by simp [hkind]) with ⟨left, right, rfl⟩
      simp only [surveys, inspected, hkind, hresolved, Option.getD_none]
      split_ifs
      · rfl
      · rw [rep_arithmeticType]
  | index =>
    have hresolved := hnone (by rw [hkind]; rfl)
    cases hf with
    | node _ _ _ fits =>
      rcases fits.operands (by simp [hkind]) with ⟨base, index, rfl⟩
      simp only [inspected, hkind, hresolved]
      rfl
  | _ =>
    have hresolved := hnone (by rw [hkind]; rfl)
    simp only [inspected, hkind, hresolved]
    rfl

theorem rep_unary_iff (hf : Term.Formed [.node p parts]) (hbare : p.isBare = true)
    (hunary : p.kind = .unary) :
    (rules.survey ctx (.node p parts)).rep = (ctx.typed (.node p parts)).rep ↔
      ¬ ctx.Overrates (.node p parts) := by
  have hresolved := Payload.resolvedType?_eq_none hbare (by rw [hunary]; rfl)
  cases hf with
  | node _ _ _ fits inside =>
    have hlen : parts.length = 1 := by simpa [Payload.Fits, hunary] using fits
    rcases length_eq_one_iff.mp hlen with ⟨operand, rfl⟩
    have htype : ctx.typeOf operand = .ok (ctx.typed operand) :=
      (Context.Agrees.refl (fun _ => rfl) ctx).typeOf inside operand (by simp)
    rw [survey, typed.eq_def]
    simp only [inspected, hunary, hresolved, Option.getD_none]
    split_ifs with hnot
    · refine iff_of_true rfl ?_
      rintro ⟨_, _, _, _, heq, -, hop, -⟩
      cases heq
      exact hop hnot
    constructor
    · rintro hrep ⟨_, _, _, type, heq, -, -, hfound, hfat⟩
      cases heq
      cases htype.symm.trans hfound
      rw [hfat] at hrep
      cases hrep
    · intro hplain
      cases hrep : (ctx.typed operand).rep with
      | scalar => rfl
      | fat => exact absurd ⟨p, operand, [], _, rfl, hunary, hnot, htype, hrep⟩ hplain

/-- What code leaves is the representation of the type, unless an operator stands before a text
    or an array, or the result of a function is dropped. -/
theorem rep_survey_iff (hf : Tree.Formed [.node p ts]) (hbare : p.isBare = true) :
    (rules.survey ctx (.ofTree (.node p ts))).rep = (ctx.typed (.ofTree (.node p ts))).rep ↔
      ¬ ctx.Overrates (.ofTree (.node p ts)) ∧ ¬ rules.Drops ctx (.ofTree (.node p ts)) := by
  have hterm : Term.Formed [.ofTree (.node p ts)] := hf.terms.1
  by_cases hcalled : p.kind = .call ∨ p.kind = .pipe
  · have hresolved := Payload.resolvedType?_eq_none hbare
      (by rcases hcalled with h | h <;> rw [h] <;> rfl)
    rcases ofTree_called p ts hcalled with ⟨callee, args, heq⟩
    rw [heq] at hterm ⊢
    cases hterm with
    | call _ name =>
      rw [rules.rep_called_iff hresolved name args]
      refine (and_iff_right ?_).symm
      rintro ⟨_, _, _, _, hnode, -⟩
      cases hnode
  rw [not_or] at hcalled
  rw [ofTree_node p ts hcalled.1 hcalled.2] at hterm ⊢
  have hkept : ¬ rules.Drops ctx (.node p (ofTrees ts)) := by
    rintro ⟨_, _, _, _, hcall, -⟩
    cases hcall
  rw [and_iff_left hkept]
  by_cases hunary : p.kind = .unary
  · exact rules.rep_unary_iff hterm hbare hunary
  · refine iff_of_true (rules.rep_inspected hterm hbare hcalled.1 hcalled.2 hunary) ?_
    rintro ⟨q, _, _, _, hnode, hkind, -⟩
    obtain ⟨rfl, -⟩ := node.inj hnode
    exact hunary hkind

end Rules

theorem Arm64.not_drops (ctx : Context) (t : Term) : ¬ Arm64.rules.Drops ctx t := by
  rintro ⟨_, _, _, _, -, -, -, -, hne⟩
  exact hne rfl

theorem Wasm.drops_iff (ctx : Context) (t : Term) : Wasm.rules.Drops ctx t ↔ ctx.Miscounts t := by
  have hresult (sym : Symbol) (count : Nat) : Wasm.rules.result sym count ≠ sym.result.rep ↔
      count ≠ sym.params.length ∧ sym.result.rep = .fat := by
    simp only [Wasm.rules]
    by_cases hcount : count = sym.params.length
    · simp [hcount]
    · cases sym.result.rep <;> simp
  unfold Rules.Drops Context.Miscounts
  simp only [hresult]

/-- A node of which no type was resolved has a type, and is lowered by both backends, in any
    context. What their code leaves is the representation of the type but for the exceptions. -/
theorem Tree.Formed.representations {t : Tree} (hf : Formed [t]) (hbare : t.isBare = true)
    (ctx : Context) :
    ∃ type, ctx.typeOf (.ofTree t) = .ok type ∧
      (∀ flavor s, ∃ c rep s' ctx', Ends (Arm64.expr flavor (.ofTree t)) s ctx (c, rep) s' ctx' ∧
        (rep = type.rep ↔ ¬ ctx.Overrates (.ofTree t))) ∧
      ∀ scratch s, ∃ c rep s' ctx', Ends (Wasm.value scratch (.ofTree t)) s ctx (c, rep) s' ctx' ∧
        (rep = type.rep ↔ ¬ ctx.Overrates (.ofTree t) ∧ ¬ ctx.Miscounts (.ofTree t)) := by
  have hterm : Term.Formed [.ofTree t] := hf.terms.1
  have hmem : ofTree t ∈ [ofTree t] := mem_singleton.mpr rfl
  have hself : ctx.Agrees Eq ctx := .refl (fun _ => rfl) ctx
  cases hf with
  | cons p ts _ fits children =>
    have hf : Formed [.node p ts] := .cons p ts [] fits children .nil
    refine ⟨_, hself.typeOf hterm _ hmem, fun flavor s => ?_, fun scratch s => ?_⟩
    · rcases (Arm64.lowers_of_formed flavor ctx hterm _ hmem).1 s ctx hself with
        ⟨c, reads, s', ctx', h, -⟩
      refine ⟨c, (Arm64.rules.survey ctx _).rep, s', ctx', h.runs, ?_⟩
      rw [Arm64.rules.rep_survey_iff hf hbare]
      exact and_iff_left (Arm64.not_drops ctx _)
    · rcases (Wasm.lowers_of_formed scratch ctx hterm _ hmem).1 s ctx hself with
        ⟨c, cells, reads, s', ctx', h, hrep, -⟩
      refine ⟨_, (Wasm.settle (c, cells)).2, s', ctx', ends_map Wasm.settle h.runs, ?_⟩
      rw [hrep, Wasm.rules.rep_survey_iff hf hbare, Wasm.drops_iff]

/-- In every document, and whatever its names stand for, a node of which no type was resolved has
    a type, and is lowered by both backends. AArch64 code leaves a value of the representation of
    this type unless the node is an operator before a text or an array, and WebAssembly code does
    unless it is that or a call with the wrong number of arguments of a function that returns a
    text or an array. -/
theorem document_representations {opts : Options} {source : Bytes} {root t : Tree}
    (htree : Document.tree source = .ok root) (ht : t ∈ (opts.prepared root).subtrees)
    (hbare : t.isBare = true) (ctx : Context) :
    ∃ type, ctx.typeOf (.ofTree t) = .ok type ∧
      (∀ flavor s, ∃ c rep s' ctx', Ends (Arm64.expr flavor (.ofTree t)) s ctx (c, rep) s' ctx' ∧
        (rep = type.rep ↔ ¬ ctx.Overrates (.ofTree t))) ∧
      ∀ scratch s, ∃ c rep s' ctx', Ends (Wasm.value scratch (.ofTree t)) s ctx (c, rep) s' ctx' ∧
        (rep = type.rep ↔ ¬ ctx.Overrates (.ofTree t) ∧ ¬ ctx.Miscounts (.ofTree t)) := by
  have hf : Tree.Formed [t] := (opts.formed_prepared htree).of_mem_subtrees ht
  exact hf.representations hbare ctx

namespace Sample

/-- A text that is negated, and a function that returns a text. -/
def negation : Bytes :=
  "(program (func \"f\" (params) text (block)) (var \"x\" unknown (unary \"-\" (string \"a\"))) " ++
    "(call (ident \"print\") (call (ident \"f\"))))"

def isNegated (t : Tree) : Bool :=
  match ofTree t with
  | .node p [.node q _] => p.kind = .unary && p.op = "-" && q.kind = .string && q.type = .text
  | _ => false

/-- Whether a tree is a call of the function without arguments. -/
def isCalled (t : Tree) : Bool :=
  match ofTree t with
  | .call p (some name) args => name = "f" && args.isEmpty && p.type = .unknown
  | _ => false

/-- The names of the document, as far as they matter for the call. -/
def returning : Context :=
  { target := Wasm.target, globals := [.ofFunction "f" [] .text "$fn_f"] }

theorem negation_read : ∃ root, Document.tree negation = .ok root ∧
    (root.subtrees.any (fun t => t.isBare && isNegated t) &&
      root.subtrees.any (fun t => t.isBare && isCalled t)) = true := ok_of_any (by decide +kernel)

end Sample

theorem document_representations_returned :
    ∃ root t c s' ctx', Document.tree Sample.negation = .ok root ∧ t ∈ root.subtrees ∧
      t.isBare = true ∧ Sample.returning.typeOf (.ofTree t) = .ok .text ∧
      Ends (Wasm.value 0 (.ofTree t)) {} Sample.returning (c, .fat) s' ctx' := by
  rcases Sample.negation_read with ⟨root, htree, hany⟩
  rcases List.any_eq_true.mp (Bool.and_eq_true_iff.mp hany).2 with ⟨t, ht, hcalled⟩
  obtain ⟨hbare, hcalled⟩ := Bool.and_eq_true_iff.mp hcalled
  rcases @document_representations { optimize := false } _ _ _ htree ht hbare Sample.returning with
    ⟨type, htype, -, hwasm⟩
  rcases hwasm 0 {} with ⟨c, rep, s', ctx', hends, hrep⟩
  -- The call is one of the function without parameters, so it neither negates nor miscounts.
  unfold Sample.isCalled at hcalled
  cases hterm : ofTree t with
  | missing | node => simp [hterm] at hcalled
  | call p callee =>
    cases callee with
    | none => simp [hterm] at hcalled
    | some =>
      simp only [hterm, Bool.and_eq_true, decide_eq_true_eq, List.isEmpty_iff] at hcalled
      obtain ⟨⟨rfl, rfl⟩, hunknown⟩ := hcalled
      rw [hterm] at htype hrep hends
      have htext : Sample.returning.typeOf (.call p (some "f") []) = .ok .text := by
        simp only [typeOf, resolvedType?, hunknown]
        rfl
      cases htext.symm.trans htype
      have hfat : rep = Ty.text.rep := by
        refine hrep.mpr ⟨?_, ?_⟩
        · rintro ⟨_, _, _, _, hnode, -⟩
          cases hnode
        · rintro ⟨_, _, _, sym, heq, -, -, hsym, hcount, -⟩
          obtain ⟨-, hname, rfl⟩ := call.inj heq
          cases hname
          cases hsym
          exact hcount rfl
      subst hfat
      exact ⟨root, t, c, s', ctx', htree, ht, hbare, by rw [hterm]; exact htext,
        by rw [hterm]; exact hends⟩

/-- A string with a sign has the type of a text in every context, but neither backend leaves a
    text for it. -/
theorem document_representations_negated :
    ∃ root t, Document.tree Sample.negation = .ok root ∧ t ∈ root.subtrees ∧ t.isBare = true ∧
      ∀ ctx : Context, ∃ type, ctx.typeOf (.ofTree t) = .ok type ∧
        (∀ flavor s, ∃ c rep s' ctx',
          Ends (Arm64.expr flavor (.ofTree t)) s ctx (c, rep) s' ctx' ∧ rep ≠ type.rep) ∧
        ∀ scratch s, ∃ c rep s' ctx',
          Ends (Wasm.value scratch (.ofTree t)) s ctx (c, rep) s' ctx' ∧ rep ≠ type.rep := by
  rcases Sample.negation_read with ⟨root, htree, hany⟩
  rcases List.any_eq_true.mp (Bool.and_eq_true_iff.mp hany).1 with ⟨t, ht, hnegated⟩
  obtain ⟨hbare, hnegated⟩ := Bool.and_eq_true_iff.mp hnegated
  refine ⟨root, t, htree, ht, hbare, fun ctx => ?_⟩
  have hoverrates : ctx.Overrates (.ofTree t) := by
    unfold Sample.isNegated at hnegated
    split at hnegated
    · next p q parts hterm =>
      simp only [Bool.and_eq_true, decide_eq_true_eq] at hnegated
      obtain ⟨⟨⟨hunary, hop⟩, hstring⟩, htext⟩ := hnegated
      refine ⟨p, _, [], .text, hterm, hunary, by rw [hop]; decide, ?_, rfl⟩
      rw [typeOf.eq_def]
      simp only [resolvedType?, hstring, htext]
      rfl
    · cases hnegated
  have hf : Tree.Formed [t] := (Document.formed_tree htree).of_mem_subtrees ht
  rcases hf.representations hbare ctx with ⟨type, htype, harm, hwasm⟩
  refine ⟨type, htype, fun flavor s => ?_, fun scratch s => ?_⟩
  · rcases harm flavor s with ⟨c, rep, s', ctx', hends, hrep⟩
    exact ⟨c, rep, s', ctx', hends, fun heq => hrep.mp heq hoverrates⟩
  · rcases hwasm scratch s with ⟨c, rep, s', ctx', hends, hrep⟩
    exact ⟨c, rep, s', ctx', hends, fun heq => (hrep.mp heq).1 hoverrates⟩

end Codegen
