import Codegen.Ast.Printer
import Codegen.Proofs.Document.Settled
import Codegen.Proofs.Sexpr.Roundtrip
import Codegen.Proofs.Stripped

/-!
# Reading Back What Was Written

A tree from a document can be written as a document and read again. What comes back is the
tree except for types, and `Tree.reread` says which: a literal or an array whose type is not
known comes back with the type that its kind implies, because neither of the two is written,
and a type that is called `unknown` comes back as the type that is not known, because that is
how the latter is written.

The writer and the reader decide the same things for each kind of node, so the proof is one
lemma for each thing they decide: types, parameters, the items before the children
(`Form.ofArgs_arguments`, where every kind is a case) and the metadata. Trees follow by
induction, and texts by the same for data.

## Theorems

* `optimized_reread`: Writing and reading trees that were optimized.
-/

namespace Codegen

open Datum Payload List

variable {p : Payload} {ds : List Datum} {t : Tree} {form : Form} {count : Nat} {k : Kind}

/-! ## What comes back -/

def Ty.reread (t : Ty) : Ty := if t.name = "unknown" then .unknown else t

def Param.reread (q : Param) : Param := { q with type := q.type.reread }

/-- The type of nodes of a kind when nothing is written of it. -/
def Kind.default : Kind → Ty
  | .integer => .integer
  | .decimal => .decimal
  | .boolean => .boolean
  | .string => .text
  | .array => .array
  | _ => .unknown

/-- A payload after it was written and read: types change, and nothing else does. -/
def Payload.reread (p : Payload) : Payload :=
  { p with
    type := if p.type = .unknown then p.kind.default else p.type.reread
    params := p.params.map Param.reread
    result := p.result.reread
    fields := p.fields.map Param.reread }

namespace Tree

mutual

/-- A tree after it was written and read. -/
def reread : Tree → Tree
  | .node p ts => .node p.reread (rereadAll ts)
  | .missing => .missing

def rereadAll : List Tree → List Tree
  | [] => []
  | t :: ts => reread t :: rereadAll ts

end

end Tree

/-! ## Types and parameters -/

namespace Form

/-- The words of the language: the name of the type that is not known, the two truth values,
    what begins a list of parameters or fields and each of them, and the key of types. -/
def vocabulary : List Bytes :=
  ["unknown", "true", "false", "params", "param", "fields", "field", "type"]

set_option maxRecDepth 20000 in
theorem isSymbolText_vocabulary :
    ∀ text ∈ vocabulary ++ Kind.all.map Kind.head, Sexpr.isSymbolText text = true := by
  decide

theorem isSymbolText_unknown : Sexpr.isSymbolText "unknown" = true :=
  isSymbolText_vocabulary _ (by simp [vocabulary])

theorem isSymbol_word {text : Bytes} (h : text ∈ vocabulary) : Sexpr.isSymbol text = true := by
  rw [Sexpr.isSymbol, isSymbolText_vocabulary text (mem_append_left _ h)]
  rfl

theorem isSymbol_head (hk : ∀ name, k ≠ .other name) : Sexpr.isSymbol k.head = true := by
  have hall : k ∈ Kind.all := by
    cases k with
    | other name => exact absurd rfl (hk name)
    | _ => decide
  have hhead := mem_append_right vocabulary (mem_map_of_mem (f := Kind.head) hall)
  rw [Sexpr.isSymbol, isSymbolText_vocabulary _ hhead]
  rfl

theorem typeArg_toDatum {head : Bytes} {args : List Datum} {i : Nat} {t : Ty}
    (h : args[i]? = some t.toDatum) : typeArg head args i = .ok t.reread := by
  unfold Ty.toDatum at h
  unfold typeArg symbolArg Ty.reread
  split at h
  · next hunknown =>
    rw [h, hunknown]
    rfl
  by_cases hsymbol : Sexpr.isSymbolText t.name = true
  · rw [if_pos hsymbol] at h
    rw [h]
    rfl
  · -- A name that is no symbol is not the one that is reserved.
    have hname : t.name ≠ "unknown" := by
      intro heq
      rw [heq] at hsymbol
      exact hsymbol isSymbolText_unknown
    rw [if_neg hsymbol] at h
    rw [h, if_neg hname]

theorem wellFormed_typeDatum {t : Ty} (h : 0 ∉ t.name) : t.toDatum.wellFormed = true := by
  unfold Ty.toDatum
  split
  · simp [wellFormed, Sexpr.isSymbol, isSymbolText_unknown]
  split
  · next hsymbol => simp [wellFormed, Sexpr.isSymbol, hsymbol]
  · simpa [wellFormed] using h

theorem param_datum (itemHead : Bytes) (q : Param) :
    param itemHead (.plain [.symbol itemHead, .string q.name, q.type.toDatum]) = .ok q.reread := by
  have htype : typeArg itemHead [.string q.name, q.type.toDatum] 1 = .ok q.type.reread :=
    typeArg_toDatum rfl
  simp only [param, plain, atomText, htype]
  rfl

theorem params_datum (listHead itemHead : Bytes) (qs : List Param) :
    params listHead itemHead (paramsDatum listHead itemHead qs) =
      .ok (qs.map Param.reread) := by
  simp only [params, paramsDatum, plain, atomText, if_true]
  induction qs with
  | nil => rfl
  | cons q _ ih =>
    have hfirst := param_datum itemHead q
    simp only [plain] at hfirst
    rw [map_cons, mapM_cons, hfirst, ih]
    rfl

theorem wellFormed_plain (items : List Datum) :
    (plain items).wellFormed = wellFormedAll items := by
  simp [plain, wellFormed, wellFormedAll]

theorem wellFormed_paramsDatum {listHead itemHead : Bytes} (hlist : Sexpr.isSymbol listHead = true)
    (hitem : Sexpr.isSymbol itemHead = true) {qs : List Param} (hqs : ∀ q ∈ qs, q.Settled) :
    (paramsDatum listHead itemHead qs).wellFormed = true := by
  rw [paramsDatum, wellFormed_plain, wellFormedAll_iff]
  refine forall_mem_cons.mpr ⟨hlist, ?_⟩
  intro d hd
  rcases mem_map.mp hd with ⟨q, hq, rfl⟩
  have hname : 0 ∉ q.name := (hqs q hq).1
  have htype := wellFormed_typeDatum (hqs q hq).2
  rw [wellFormed_plain]
  simp [wellFormed, wellFormedAll, hitem, hname, htype]

end Form

/-! ## Nodes -/

/-- What the items of a node's list say of its payload, without the metadata. -/
def Payload.unmarked (p : Payload) : Payload :=
  { p.reread with type := if p.kind = .varDecl then p.type.reread else p.kind.default }

theorem Payload.Fits.known (h : p.Fits count) (name : Bytes) : p.kind ≠ .other name := by
  intro hkind
  unfold Payload.Fits at h
  rw [hkind] at h
  exact h

namespace Form

theorem ofHead_head (hk : ∀ name, k ≠ .other name) : Kind.ofHead? k.head = some k := by
  cases k with
  | other name => exact absurd rfl (hk name)
  | _ => rfl

/-- The items before the children of a node are read as the fields that its kind needs, and
    the children are what comes after them. -/
theorem ofArgs_kept (p : Payload) (hcanonical : p.kept.decimal.Canonical) (ds : List Datum)
    (hfits : p.kept.Fits ds.length) (d : Datum) :
    ∃ form, ofArgs d p.kept.kind (p.kept.arguments ++ ds) = .ok form ∧
      form.payload = p.kept.unmarked ∧
      (symbol p.kept.kind.head :: (p.kept.arguments ++ ds)).drop form.skip = ds := by
  rcases p with ⟨kind, name, text, integer, decimal, boolean, op, type, params, result, fields⟩
  -- What is written before the children is where the reader looks for it, kind by kind.
  cases kind with
  | integer =>
    obtain rfl := length_eq_zero_iff.mp hfits.1
    refine ⟨⟨{ kind := .integer, integer, type := .integer }, 2, none⟩, ?_, rfl, rfl⟩
    simp only [ofArgs, kept, arguments, append_nil, Form.integer,
      Integer.read_print]
    rfl
  | decimal =>
    obtain rfl := length_eq_zero_iff.mp hfits
    refine ⟨⟨{ kind := .decimal, decimal, type := .decimal }, 2, none⟩, ?_, rfl, rfl⟩
    have hread : Decimal.read decimal.print = .ok decimal := Decimal.read_print hcanonical
    simp only [ofArgs, kept, arguments, append_nil, stringArg,
      getElem?_cons_zero, bind, Except.bind, hread]
    rfl
  | boolean =>
    obtain rfl := length_eq_zero_iff.mp hfits
    cases boolean <;> exact ⟨_, rfl, rfl, rfl⟩
  | string | ident =>
    obtain rfl := length_eq_zero_iff.mp hfits
    exact ⟨_, rfl, rfl, rfl⟩
  | binary =>
    rcases length_eq_two.mp hfits.1 with ⟨l, r, rfl⟩
    exact ⟨_, rfl, rfl, rfl⟩
  | unary =>
    rcases length_eq_one_iff.mp hfits with ⟨operand, rfl⟩
    exact ⟨_, rfl, rfl, rfl⟩
  | forRange =>
    rcases length_eq_three.mp hfits with ⟨start, stop, body, rfl⟩
    exact ⟨_, rfl, rfl, rfl⟩
  | varDecl =>
    refine ⟨⟨{ kind := .varDecl, name, type := type.reread }, 3, none⟩, ?_, rfl, rfl⟩
    have htype : typeArg Kind.varDecl.head (.string name :: type.toDatum :: ds) 1 =
        .ok type.reread := typeArg_toDatum rfl
    have hfew : ¬ 3 < (string name :: type.toDatum :: ds).length := by
      have hcount : ds.length ≤ 1 := hfits
      simp only [length_cons]
      omega
    simp only [ofArgs, kept, arguments, cons_append, nil_append, htype]
    exact if_neg hfew
  | funcDecl =>
    rcases length_eq_one_iff.mp hfits with ⟨body, rfl⟩
    let read : Payload :=
      { kind := .funcDecl, name, params := params.map Param.reread, result := result.reread }
    refine ⟨⟨read, 4, some name⟩, ?_, rfl, rfl⟩
    have hparams := params_datum "params" "param" params
    have hresult : typeArg Kind.funcDecl.head
        [.string name, paramsDatum "params" "param" params, result.toDatum, body] 2 =
          .ok result.reread := typeArg_toDatum rfl
    simp only [ofArgs, kept, arguments, cons_append, nil_append, hparams, hresult]
    rfl
  | classDecl =>
    obtain rfl := length_eq_zero_iff.mp hfits
    let read : Payload := { kind := .classDecl, name, fields := fields.map Param.reread }
    refine ⟨⟨read, 3, none⟩, ?_, rfl, rfl⟩
    have hfields := params_datum "fields" "field" fields
    simp only [ofArgs, kept, arguments, append_nil, hfields]
    rfl
  | call =>
    cases ds with
    | nil => exact absurd hfits (Nat.not_succ_le_zero 0)
    | cons => exact ⟨_, rfl, rfl, rfl⟩
  | cond =>
    have hmany : ¬ ds.length < 2 := Nat.not_lt.mpr hfits
    exact ⟨⟨{ kind := .cond }, 1, none⟩, if_neg hmany, rfl, rfl⟩
  | ret =>
    have hfew : ¬ 1 < ds.length := Nat.not_lt.mpr hfits
    exact ⟨⟨{ kind := .ret }, 1, none⟩, if_neg hfew, rfl, rfl⟩
  | pipe | whileLoop | assign | index =>
    rcases length_eq_two.mp hfits with ⟨l, r, rfl⟩
    exact ⟨_, rfl, rfl, rfl⟩
  | brk | cont =>
    obtain rfl := length_eq_zero_iff.mp hfits
    exact ⟨_, rfl, rfl, rfl⟩
  | array | block | program =>
    exact ⟨_, rfl, rfl, rfl⟩
  | other => cases hfits

/-- The items before the children of a node. -/
theorem ofArgs_arguments (h : p.Settled) (hfits : p.Fits ds.length) (d : Datum) :
    ∃ form, ofArgs d p.kind (p.arguments ++ ds) = .ok form ∧ form.payload = p.unmarked ∧
      (symbol p.kind.head :: (p.arguments ++ ds)).drop form.skip = ds := by
  have hread := ofArgs_kept p
  rw [h.kept] at hread
  exact hread h.canonical ds hfits d

end Form

namespace Payload

theorem unmarked_eq_reread (h : p.Settled) (hwrites : p.writesType = false) :
    p.unmarked = p.reread := by
  unfold unmarked
  split_ifs with hvar
  · unfold reread
    by_cases hunknown : p.type = .unknown
    · rw [hunknown, hvar]
      rfl
    · rw [if_neg hunknown]
  by_cases hfunc : p.kind = .funcDecl
  · -- Functions have no type besides that of their results.
    have htype : p.type = .unknown := by
      rw [← h.kept]
      simp [kept, hfunc]
    simp [reread, if_pos htype]
  have htype : p.type = .unknown ∨ p.type = p.kind.implied := by
    unfold writesType at hwrites
    split at hwrites
    · exact absurd ‹_› hvar
    · exact absurd ‹_› hfunc
    · simpa [Decidable.or_iff_not_imp_left] using hwrites
  by_cases hunknown : p.type = .unknown
  · simp [reread, if_pos hunknown]
  · have himplied := htype.resolve_left hunknown
    have hdefault : p.type.reread = p.kind.default := by
      rw [himplied] at hunknown ⊢
      cases hkind : p.kind <;> rw [hkind] at hunknown <;>
        first | rfl | exact absurd rfl hunknown
    simp [reread, hdefault]

end Payload

namespace Form

theorem annotate_toDatum (h : p.Settled) (hform : form.payload = p.unmarked) (items : List Datum) :
    form.annotate (if p.writesType then .list items ["type"] [p.type.toDatum] else .plain items) =
      .ok p.reread := by
  by_cases hwrites : p.writesType = true
  · have hkinds : p.kind ≠ .varDecl ∧ p.kind ≠ .funcDecl ∧ p.type ≠ .unknown := by
      unfold writesType at hwrites
      split at hwrites
      · cases hwrites
      · cases hwrites
      · next hvar hfunc =>
        simp only [Bool.and_eq_true, bne_iff_ne] at hwrites
        exact ⟨hvar, hfunc, hwrites.1⟩
    have htype : typeArg p.kind.head [p.type.toDatum] 0 = .ok p.type.reread := typeArg_toDatum rfl
    have hkind : form.payload.kind = p.kind := by rw [hform]; rfl
    have hnote : (list items ["type"] [p.type.toDatum]).note? "type" = some p.type.toDatum :=
      rfl
    rw [if_pos hwrites]
    unfold annotate
    simp only [hnote, hkind, htype, Except.mapError]
    split
    · exact absurd ‹_› hkinds.1
    · exact absurd ‹_› hkinds.2.1
    · rw [hform]
      simp only [reread, if_neg hkinds.2.2]
      rfl
  · rw [if_neg hwrites]
    have hread := unmarked_eq_reread h (Bool.eq_false_iff.mpr hwrites)
    exact congrArg Except.ok (hform.trans hread)

theorem ofDatum_toDatum (h : p.Settled) (hfits : p.Fits ds.length) :
    ∃ form, ofDatum (p.toDatum ds) = .ok form ∧ form.annotate (p.toDatum ds) = .ok p.reread ∧
      form.children (p.toDatum ds) = ds := by
  unfold toDatum
  split
  · next hbare =>
    -- A bare integer says neither that it is one nor what its type is.
    simp only [Bool.and_eq_true, Bool.or_eq_true, decide_eq_true_eq] at hbare
    have hfits' := hfits
    unfold Payload.Fits at hfits'
    rw [hbare.1] at hfits'
    obtain rfl := length_eq_zero_iff.mp hfits'.1
    have hread : integer (Integer.print p.integer) =
        .ok { kind := .integer, integer := p.integer, type := .integer } := by
      simp [integer, Integer.read_print]
    have hp : p.reread = { kind := .integer, integer := p.integer, type := .integer } := by
      have hkept : p = { kind := .integer, integer := p.integer, type := p.type } := by
        conv_lhs => rw [← h.kept]
        simp [kept, hbare.1]
      rw [hkept]
      rcases hbare.2 with htype | htype <;> rw [htype] <;> rfl
    refine ⟨⟨{ kind := .integer, integer := p.integer, type := .integer }, 0, none⟩, ?_, ?_, rfl⟩
    · simp only [ofDatum, hread]
      rfl
    · exact congrArg Except.ok hp.symm
  · next hbare =>
    extract_lets items
    generalize hd : (if p.writesType = true then list items ["type"] [p.type.toDatum]
      else plain items) = d
    rcases ofArgs_arguments h hfits d with ⟨form, hform, hpayload, hskip⟩
    have hlist : ∃ keys notes, d = .list items keys notes := by
      rw [← hd]
      split <;> exact ⟨_, _, rfl⟩
    have hannotate := annotate_toDatum h hpayload items
    rw [hd] at hannotate
    rcases hlist with ⟨keys, notes, rfl⟩
    refine ⟨form, ?_, hannotate, hskip⟩
    simp only [ofDatum, items, ofHead_head hfits.known]
    exact hform

theorem wellFormed_arguments (h : p.Settled) : ∀ d ∈ p.arguments, d.wellFormed = true := by
  have hstring {text : Bytes} (htext : 0 ∉ text) : (string text).wellFormed = true := by
    simpa [wellFormed] using htext
  unfold arguments
  intro d hd
  split at hd
  all_goals simp only [mem_cons, not_mem_nil, or_false] at hd
  · exact hd ▸ Sexpr.isIntegerText_print p.integer
  · exact hd ▸ hstring p.decimal.zero_not_mem_print
  · subst hd
    cases p.boolean <;> exact isSymbol_word (by simp [vocabulary])
  · exact hd ▸ hstring h.text
  · exact hd ▸ hstring h.name
  · exact hd ▸ hstring h.op
  · exact hd ▸ hstring h.op
  · rcases hd with rfl | rfl
    · exact hstring h.name
    · exact wellFormed_typeDatum h.type
  · rcases hd with rfl | rfl | rfl
    · exact hstring h.name
    · exact wellFormed_paramsDatum (isSymbol_word (by simp [vocabulary]))
        (isSymbol_word (by simp [vocabulary])) h.params
    · exact wellFormed_typeDatum h.result
  · rcases hd with rfl | rfl
    · exact hstring h.name
    · exact wellFormed_paramsDatum (isSymbol_word (by simp [vocabulary]))
        (isSymbol_word (by simp [vocabulary])) h.fields
  · exact hd ▸ hstring h.name

theorem wellFormed_toDatum (h : p.Settled) (hknown : ∀ name, p.kind ≠ .other name)
    (hds : wellFormedAll ds = true) : (p.toDatum ds).wellFormed = true := by
  have hitems : wellFormedAll (.symbol p.kind.head :: (p.arguments ++ ds)) = true := by
    rw [wellFormedAll_iff, forall_mem_cons, forall_mem_append]
    exact ⟨isSymbol_head hknown, wellFormed_arguments h, wellFormedAll_iff.mp hds⟩
  unfold toDatum
  split
  · exact Sexpr.isIntegerText_print p.integer
  split
  · have hnote : wellFormedAll [p.type.toDatum] = true := by
      rw [wellFormedAll, wellFormed_typeDatum h.type]
      rfl
    rw [wellFormed, hitems, hnote]
    rfl
  · rw [wellFormed_plain]
    exact hitems

end Form

theorem Payload.Fits.eq_zero (h : p.Fits count) (hwrites : p.writesChildren = false) :
    count = 0 := by
  unfold Payload.Fits at h
  unfold writesChildren at hwrites
  split at h <;> simp_all

/-! ## Trees -/

namespace Tree

variable {ts : List Tree}

theorem length_rereadAll (ts : List Tree) : (rereadAll ts).length = ts.length := by
  induction ts with
  | nil => rfl
  | cons _ _ ih => rw [rereadAll, length_cons, length_cons, ih]

/-- Reading the datum of a tree. -/
theorem ofDatum_toDatum (hformed : Formed ts) (hsettled : Settled ts) :
    ∃ ds, toData? ts = some ds ∧ ds.length = ts.length ∧ wellFormedAll ds = true ∧
      ofItems 0 ds = .ok (rereadAll ts) := by
  induction hformed with
  | nil => exact ⟨[], rfl, rfl, rfl, rfl⟩
  | cons p ts us fits children siblings ihC ihS =>
    cases hsettled with
    | cons _ _ _ payload hchildren hsiblings =>
      rcases ihC hchildren with ⟨ds, hds, hlen, hwell, hread⟩
      rcases ihS hsiblings with ⟨es, hes, hlen', hwell', hread'⟩
      have hfits : p.Fits ds.length := hlen ▸ fits
      have hdatum : toDatum? (.node p ts) = some (p.toDatum ds) := by
        rw [toDatum?]
        split
        · rw [hds]
          rfl
        · next hwrites =>
          have hnone := hfits.eq_zero (Bool.eq_false_iff.mpr hwrites)
          rw [length_eq_zero_iff.mp hnone]
      rcases Form.ofDatum_toDatum payload hfits with ⟨form, hform, hannotate, hitems⟩
      have htree := ofDatum_eq_ok_iff.mpr ⟨form, _, _, hform, hannotate, hitems.symm ▸ hread, rfl⟩
      refine ⟨p.toDatum ds :: es, ?_, ?_, ?_, ?_⟩
      · rw [toData?, hdatum, hes]
      · rw [length_cons, length_cons, hlen']
      · rw [wellFormedAll, Form.wellFormed_toDatum payload fits.known hwell, hwell']
        rfl
      · rw [ofItems.eq_def]
        dsimp only
        rw [htree]
        rw [hread']
        rfl

/-- Reading the text of a tree. -/
theorem tree_print (hformed : Formed [t]) (hsettled : Settled [t]) :
    ∃ text, t.print? = some text ∧ Document.tree text = .ok t.reread := by
  rcases ofDatum_toDatum hformed hsettled with ⟨ds, hds, hlen, hwell, hread⟩
  rcases length_eq_one_iff.mp hlen with ⟨d, rfl⟩
  have hdatum : t.toDatum? = some d := by
    rw [toData?] at hds
    split at hds
    · next e es he _ =>
      obtain rfl := (cons.inj (Option.some.inj hds)).1
      exact he
    · cases hds
  have htree : ofDatum d = .ok t.reread := by
    rcases ofItems_cons hread with ⟨u, us, htrees, hu, -⟩
    rw [hu, ← (cons.inj htrees).1]
  have hd : d.wellFormed = true := wellFormedAll_iff.mp hwell d mem_cons_self
  refine ⟨d.print, ?_, ?_⟩
  · rw [print?, hdatum]
    rfl
  · unfold Document.tree
    rw [Sexpr.read_print hd]
    dsimp only
    rw [htree]
    rfl

end Tree

/-! ## Optimized trees -/

namespace Optimize

/-- Several passes of the optimizer, each over the root that the one before it left. -/
def passes : Nat → NodeId → Arena.Build NodeId
  | 0, root => pure root
  | n + 1, root => do
    let (root', _) ← run root
    passes n root'

theorem builds_passes (n : Nat) {a : Arena} {root : NodeId} {foot : List NodeId}
    (h : Arena.Forest a [root] [t] foot) : ∃ root' b,
    Arena.Builds (passes n root) a root' b ∧ b.tree root' = Tree.simplified^[n] t := by
  induction n generalizing a root t foot with
  | zero => exact ⟨root, a, Arena.builds_pure root a, h.tree⟩
  | succ n ih =>
    rcases builds_run h with ⟨root', b, hrun, foot', hforest, -⟩
    rcases ih hforest with ⟨root'', c, hpasses, htree⟩
    exact ⟨root'', c, Arena.builds_bind hrun hpasses, htree⟩

end Optimize

theorem Tree.simplified_iterate (n : Nat) (hformed : Formed [t]) (hsettled : Settled [t]) :
    Formed [simplified^[n] t] ∧ Settled [simplified^[n] t] := by
  induction n generalizing t with
  | zero => exact ⟨hformed, hsettled⟩
  | succ n ih => exact ih (formed_simplifiedAll hformed) (settled_simplifiedAll hsettled)

/-- A tree of a document, after any number of passes of the optimizer, can be written and read.
    What is read is the tree with the types of `Tree.reread` and otherwise the same. -/
theorem optimized_reread {source : Bytes} {t : Tree} (h : Document.tree source = .ok t)
    (n : Nat) : ∃ root a text,
    (Arena.add t >>= Optimize.passes n).run {} = (.ok root, a) ∧
    a.tree root = Tree.simplified^[n] t ∧
    (a.tree root).print? = some text ∧ Document.tree text = .ok (a.tree root).reread := by
  obtain ⟨hformed, hsettled⟩ := Document.sound_tree h
  rcases Arena.builds_add t hformed.solid {} with ⟨first, b, hadd, foot, hforest, -⟩
  rcases Optimize.builds_passes n hforest with ⟨root, a, hpasses, htree⟩
  have hgood := Tree.simplified_iterate n hformed hsettled
  rcases Tree.tree_print hgood.1 hgood.2 with ⟨text, hprint, hread⟩
  refine ⟨root, a, text, Arena.builds_bind hadd hpasses, htree, ?_⟩
  rw [htree]
  exact ⟨hprint, hread⟩

namespace Sample

/-- A program whose variable has a type called `unknown` and whose constants fold. -/
def marked : Bytes :=
  "(program (var \"x\" \"unknown\" (binary \"+\" (integer ^\x7btype: unknown\x7d 1) 2)))"

end Sample

theorem optimized_reread_twice : ∃ t root a text,
    Document.tree Sample.marked = .ok t ∧ t.savings = ⟨1, 0, 0⟩ ∧
    (Arena.add t >>= Optimize.passes 2).run {} = (.ok root, a) ∧
    (a.tree root).print? = some text ∧ Document.tree text = .ok (a.tree root).reread := by
  have hread : ∃ t, Document.tree Sample.marked = .ok t ∧
      decide (t.savings = ⟨1, 0, 0⟩) = true := ok_of_any (by decide +kernel)
  rcases hread with ⟨t, htree, hsavings⟩
  rcases optimized_reread htree 2 with ⟨root, a, text, hpasses, -, hprint, hreread⟩
  exact ⟨t, root, a, text, htree, of_decide_eq_true hsavings, hpasses, hprint, hreread⟩

end Codegen
