import Codegen.Ast.Document
import Codegen.Proofs.Number.Decimal
import Codegen.Proofs.Sexpr.WellFormed
import Codegen.Proofs.Shape
import Codegen.Proofs.Simplify

/-!
# What Trees from Documents Hold

The reader checks how many operands the list of each kind has. It counts items of a list,
some of which come before the children. `Form` says how many those are, and
`Form.children` are the items behind them, so a tree that was read is formed.

A payload has a field for everything that some kind of node needs, and a text for each name.
The reader fills the fields that the kind of a node needs and leaves the others alone, takes
its texts from a document, where none can hold a zero byte, and its decimals from a reader
that knows one NaN only. A payload of which all this is true is settled, and a settled payload
is determined by what is written of it.

The optimizer keeps payloads or makes new ones of the same sort, so trees stay settled through
any number of passes.
-/

namespace Codegen

open Datum List

namespace Payload

/-- A payload with the fields that its kind needs and defaults for the others. -/
def kept (p : Payload) : Payload :=
  match p.kind with
  | .integer => { kind := p.kind, type := p.type, integer := p.integer }
  | .decimal => { kind := p.kind, type := p.type, decimal := p.decimal }
  | .boolean => { kind := p.kind, type := p.type, boolean := p.boolean }
  | .string => { kind := p.kind, type := p.type, text := p.text }
  | .ident | .varDecl | .forRange => { kind := p.kind, type := p.type, name := p.name }
  | .binary | .unary => { kind := p.kind, type := p.type, op := p.op }
  | .funcDecl => { kind := p.kind, name := p.name, params := p.params, result := p.result }
  | .classDecl => { kind := p.kind, type := p.type, name := p.name, fields := p.fields }
  | _ => { kind := p.kind, type := p.type }

end Payload

def Param.Settled (q : Param) : Prop := 0 ∉ q.name ∧ 0 ∉ q.type.name

theorem Decimal.canonical_zero : Canonical ⟨0⟩ := by decide

theorem Ty.zero_not_mem_builtin : ∀ t ∈ Ty.builtins, 0 ∉ t.name := by decide

/-- A payload as documents have them. -/
structure Payload.Settled (p : Payload) : Prop where
  kept : p.kept = p
  canonical : p.decimal.Canonical := by exact Decimal.canonical_zero
  name : 0 ∉ p.name := by exact not_mem_nil
  text : 0 ∉ p.text := by exact not_mem_nil
  op : 0 ∉ p.op := by exact not_mem_nil
  type : 0 ∉ p.type.name := by exact not_mem_nil
  params : ∀ q ∈ p.params, q.Settled := by exact forall_mem_nil _
  result : 0 ∉ p.result.name := by exact not_mem_nil
  fields : ∀ q ∈ p.fields, q.Settled := by exact forall_mem_nil _

/-- Another type without a zero byte, for kinds that have one of their own to be written. -/
theorem Payload.Settled.retype {p : Payload} (h : p.Settled) {type : Ty} (htype : 0 ∉ type.name)
    (hkind : p.kind ≠ .funcDecl) : ({ p with type } : Payload).Settled where
  kept := by
    have hkept := h.kept
    rcases p with ⟨kind, name, text, integer, decimal, boolean, op, old, params, result, fields⟩
    cases kind <;> simp_all [Payload.kept]
  canonical := h.canonical
  name := h.name
  text := h.text
  op := h.op
  type := htype
  params := h.params
  result := h.result
  fields := h.fields

theorem ok_of_bind {ε α β : Type} {step : Except ε α} {rest : α → Except ε β} {result : β}
    (h : step >>= rest = .ok result) : ∃ a, step = .ok a ∧ rest a = .ok result := by
  rcases step with e | a
  · cases h
  · exact ⟨a, rfl, h⟩

theorem ok_of_mapError {ε ε' α : Type} {x : Except ε α} {f : ε → ε'} {a : α}
    (h : x.mapError f = .ok a) : x = .ok a := by
  cases x with
  | error => cases h
  | ok => exact congrArg Except.ok (Except.ok.inj h)

variable {p : Payload} {type : Ty}

namespace Form

variable {args : List Datum} {i : Nat} {d : Datum} {form : Form} {itemHead head text : Bytes}

theorem length_of_exactly {operands : List Datum} {count : Nat} {u : Unit}
    (h : exactly head operands count = .ok u) : operands.length = count := by
  unfold exactly at h
  by_cases hlen : operands.length = count
  · exact hlen
  · rw [if_neg hlen] at h
    cases h

theorem getElem?_of_stringArg (h : stringArg head args i = .ok text) :
    args[i]? = some (.string text) := by
  unfold stringArg at h
  split at h <;> cases h
  assumption

theorem zero_not_mem_stringArg (hargs : ∀ a ∈ args, a.wellFormed = true)
    (h : stringArg head args i = .ok text) : 0 ∉ text := by
  simpa [wellFormed] using hargs _ (mem_of_getElem? (getElem?_of_stringArg h))

theorem zero_not_mem_typeArg (hargs : ∀ a ∈ args, a.wellFormed = true)
    (h : typeArg head args i = .ok type) : 0 ∉ type.name := by
  unfold typeArg at h
  split at h
  · next text hfound =>
    rw [← Except.ok.inj h]
    simpa [wellFormed] using hargs _ (mem_of_getElem? hfound)
  · rcases ok_of_bind h with ⟨text, hsymbol, h⟩
    rw [← Except.ok.inj h]
    unfold symbolArg at hsymbol
    split at hsymbol
    · next found hfound =>
      have hwell : Sexpr.isSymbol found = true := hargs _ (mem_of_getElem? hfound)
      rw [← Except.ok.inj hsymbol]
      split
      · decide
      · exact Sexpr.zero_not_mem_symbol hwell
    · cases hsymbol

theorem settled_param (hd : d.wellFormed = true) {q : Param} (h : param itemHead d = .ok q) :
    q.Settled := by
  unfold param at h
  split at h
  · next first second third keys notes =>
    have hargs := (forall_mem_cons.mp (wellFormed_list.mp hd).1).2
    split at h
    · rcases ok_of_bind h with ⟨name, hname, h⟩
      rcases ok_of_bind h with ⟨type, htype, h⟩
      rw [← Except.ok.inj h]
      exact ⟨zero_not_mem_stringArg hargs hname, zero_not_mem_typeArg hargs htype⟩
    · cases h
  · cases h

theorem settled_params {listHead : Bytes} (hd : d.wellFormed = true) {qs : List Param}
    (h : params listHead itemHead d = .ok qs) : ∀ q ∈ qs, q.Settled := by
  unfold params at h
  split at h
  · next first items keys notes =>
    have hitems := (forall_mem_cons.mp (wellFormed_list.mp hd).1).2
    split at h
    · clear hd
      induction items generalizing qs with
      | nil =>
        rw [← Except.ok.inj h]
        exact forall_mem_nil _
      | cons _ _ ih =>
        rw [mapM_cons] at h
        rcases ok_of_bind h with ⟨q, hq, h⟩
        rcases ok_of_bind h with ⟨rest, hrest, h⟩
        have hitem := forall_mem_cons.mp hitems
        rw [← Except.ok.inj h]
        exact forall_mem_cons.mpr ⟨settled_param hitem.1 hq, ih hitem.2 hrest⟩
    · cases h
  · cases h

theorem integer_spec (h : integer text = .ok p) : p.Fits 0 ∧ p.Settled := by
  unfold integer at h
  split at h <;> cases h
  exact ⟨⟨rfl, rfl⟩, { kept := rfl, type := Ty.zero_not_mem_builtin .integer (by decide) }⟩

/-- Its payload is settled, and it leaves as many items for the children as the kind asks for. -/
def Sound (form : Form) (args : List Datum) : Prop :=
  form.payload.Fits (args.length + 1 - form.skip) ∧ form.payload.Settled

theorem sound_decimal (h : ofArgs d .decimal args = .ok form) : form.Sound args := by
  rcases ok_of_bind h with ⟨text, -, h⟩
  split at h <;> cases h
  next value hvalue =>
  exact ⟨by simp [Payload.Fits], rfl, Decimal.canonical_read hvalue, not_mem_nil, not_mem_nil,
    not_mem_nil, Ty.zero_not_mem_builtin .decimal (by decide), forall_mem_nil _, not_mem_nil,
    forall_mem_nil _⟩

theorem sound_varDecl (hargs : ∀ a ∈ args, a.wellFormed = true)
    (h : ofArgs d .varDecl args = .ok form) : form.Sound args := by
  rcases ok_of_bind h with ⟨name, hname, h⟩
  rcases ok_of_bind h with ⟨type, htype, h⟩
  split at h <;> cases h
  next hmany =>
  refine ⟨?_, rfl, Decimal.canonical_zero, zero_not_mem_stringArg hargs hname, not_mem_nil,
    not_mem_nil, zero_not_mem_typeArg hargs htype, forall_mem_nil _, not_mem_nil, forall_mem_nil _⟩
  simp only [Payload.Fits]
  omega

theorem sound_funcDecl (hargs : ∀ a ∈ args, a.wellFormed = true)
    (h : ofArgs d .funcDecl args = .ok form) : form.Sound args := by
  rcases ok_of_bind h with ⟨name, hname, h⟩
  split at h
  · next first ps third body _ =>
    rcases ok_of_bind h with ⟨params, hparams, h⟩
    rcases ok_of_bind h with ⟨result, hresult, h⟩
    cases h
    have hps : ps.wellFormed = true := hargs ps (by simp)
    exact ⟨by simp [Payload.Fits], rfl, Decimal.canonical_zero, zero_not_mem_stringArg hargs hname,
      not_mem_nil, not_mem_nil, not_mem_nil, settled_params hps (ok_of_mapError hparams),
      zero_not_mem_typeArg hargs hresult, forall_mem_nil _⟩
  · cases h

theorem sound_classDecl (hargs : ∀ a ∈ args, a.wellFormed = true)
    (h : ofArgs d .classDecl args = .ok form) : form.Sound args := by
  rcases ok_of_bind h with ⟨name, hname, h⟩
  split at h
  · next first fs _ =>
    rcases ok_of_bind h with ⟨fields, hfields, h⟩
    cases h
    have hfs : fs.wellFormed = true := hargs fs (by simp)
    exact ⟨by simp [Payload.Fits], rfl, Decimal.canonical_zero, zero_not_mem_stringArg hargs hname,
      not_mem_nil, not_mem_nil, not_mem_nil, forall_mem_nil _, not_mem_nil,
      settled_params hfs hfields⟩
  · cases h

/-- What the reader makes of the items of a list before its children. -/
theorem ofArgs_spec {kind : Kind} (hargs : ∀ a ∈ args, a.wellFormed = true)
    (h : ofArgs d kind args = .ok form) : form.Sound args := by
  cases kind with
  | decimal => exact sound_decimal h
  | varDecl => exact sound_varDecl hargs h
  | funcDecl => exact sound_funcDecl hargs h
  | classDecl => exact sound_classDecl hargs h
  | integer =>
    unfold ofArgs at h
    dsimp only at h
    split at h
    · rcases ok_of_bind h with ⟨p, hp, hform⟩
      cases hform
      exact integer_spec hp
    · cases h
  | boolean =>
    rcases ok_of_bind h with ⟨word, -, h⟩
    have htype : 0 ∉ Ty.boolean.name := Ty.zero_not_mem_builtin .boolean (by decide)
    split at h
    · cases h
      exact ⟨by simp [Payload.Fits], { kept := rfl, type := htype }⟩
    · split at h <;> cases h
      exact ⟨by simp [Payload.Fits], { kept := rfl, type := htype }⟩
  | string =>
    rcases ok_of_bind h with ⟨text, htext, h⟩
    cases h
    exact ⟨by simp [Payload.Fits],
      { kept := rfl
        text := zero_not_mem_stringArg hargs htext
        type := Ty.zero_not_mem_builtin .text (by decide) }⟩
  | ident =>
    rcases ok_of_bind h with ⟨name, hname, h⟩
    cases h
    exact ⟨by simp [Payload.Fits], { kept := rfl, name := zero_not_mem_stringArg hargs hname }⟩
  | binary | unary | forRange =>
    rcases ok_of_bind h with ⟨text, htext, h⟩
    rcases ok_of_bind h with ⟨u, hcount, h⟩
    cases h
    have hlen := length_of_exactly hcount
    rw [length_drop] at hlen
    have hzero := zero_not_mem_stringArg hargs htext
    refine ⟨?_, by first | exact { kept := rfl, op := hzero } | exact { kept := rfl, name := hzero }⟩
    simp only [Payload.Fits, and_true]
    omega
  | call | cond | ret =>
    unfold ofArgs at h
    dsimp only at h
    split at h <;> cases h
    next hcount =>
    refine ⟨?_, { kept := rfl }⟩
    simp only [Payload.Fits, List.isEmpty_iff, ← length_eq_zero_iff] at hcount ⊢
    omega
  | pipe | whileLoop | assign | index | brk | cont =>
    rcases ok_of_bind h with ⟨u, hcount, h⟩
    cases h
    have hlen := length_of_exactly hcount
    refine ⟨?_, { kept := rfl }⟩
    simp only [Payload.Fits]
    omega
  | array =>
    cases h
    exact ⟨trivial, { kept := rfl, type := Ty.zero_not_mem_builtin .array (by decide) }⟩
  | block | program =>
    cases h
    exact ⟨trivial, { kept := rfl }⟩
  | other => cases h

def children (form : Form) : Datum → List Datum
  | .list items _ _ => items.drop form.skip
  | _ => []

theorem ofDatum_spec (hd : d.wellFormed = true) (h : ofDatum d = .ok form) :
    form.payload.Fits (form.children d).length ∧ form.payload.Settled := by
  unfold ofDatum at h
  split at h
  · rcases ok_of_bind h with ⟨p, hp, hform⟩
    cases hform
    exact integer_spec hp
  · split at h
    · rw [children, length_drop]
      exact ofArgs_spec (forall_mem_cons.mp (wellFormed_list.mp hd).1).2 h
    · cases h
  · cases h

theorem annotate_spec {count : Nat} (hd : d.wellFormed = true)
    (hform : form.payload.Fits count ∧ form.payload.Settled) (h : form.annotate d = .ok p) :
    p.Fits count ∧ p.Settled := by
  unfold annotate at h
  split at h
  · exact Except.ok.inj h ▸ hform
  · next note hnote =>
    rcases ok_of_bind h with ⟨type, htype, h⟩
    have hnote' : ∀ a ∈ [note], a.wellFormed = true := by
      simpa using wellFormed_note hd hnote
    split at h <;> cases h
    · exact hform
    · exact hform
    · next hvar hfunc =>
      exact ⟨hform.1.congr rfl rfl,
        hform.2.retype (zero_not_mem_typeArg hnote' (ok_of_mapError htype)) hfunc⟩

end Form

variable {t : Tree}

namespace Tree

variable {ts us : List Tree}

/-- Trees whose payloads are settled. -/
abbrev Settled (ts : List Tree) : Prop := Every (fun p _ => p.Settled) ts

theorem ofItems_drop (skip : Nat) (items : List Datum) :
    ofItems skip items = ofItems 0 (items.drop skip) := by
  induction items generalizing skip with
  | nil =>
    rw [drop_nil, ofItems.eq_def, ofItems.eq_def]
  | cons _ _ ih =>
    cases skip with
    | zero => rfl
    | succ => rw [ofItems.eq_def, drop_succ_cons, ← ih]

theorem ofItems_cons {d : Datum} {rest : List Datum} (h : ofItems 0 (d :: rest) = .ok ts) :
    ∃ t us, ts = t :: us ∧ ofDatum d = .ok t ∧ ofItems 0 rest = .ok us := by
  rw [ofItems.eq_def] at h
  dsimp only at h
  split at h
  · cases h
  · next t ht =>
    split at h
    · cases h
    · next us hus => exact ⟨t, us, (Except.ok.inj h).symm, ht, hus⟩

theorem ofDatum_eq (d : Datum) : ofDatum d =
    match Form.ofDatum d with
    | .error cause => .error ⟨[], cause⟩
    | .ok form =>
      match ofItems 0 (form.children d) with
      | .error refusal => .error { refusal with cause := form.locate refusal.cause }
      | .ok ts =>
        match form.annotate d with
        | .error cause => .error ⟨ts, cause⟩
        | .ok payload => .ok (.node payload ts) := by
  cases d with
  | list =>
    simp only [Form.children, ← ofItems_drop]
    rfl
  | _ => rfl

/-- A datum is read as a node when its list, its children and its metadata are. -/
theorem ofDatum_eq_ok_iff {d : Datum} :
    ofDatum d = .ok t ↔ ∃ form p ts, Form.ofDatum d = .ok form ∧ form.annotate d = .ok p ∧
      ofItems 0 (form.children d) = .ok ts ∧ t = .node p ts := by
  rw [ofDatum_eq]
  cases Form.ofDatum d with
  | error => simp
  | ok form =>
    cases hts : ofItems 0 (form.children d) with
    | error => simp [hts]
    | ok => cases hp : form.annotate d <;> simp [hts, hp, eq_comm]

theorem sound_ofItems {items : List Datum}
    (hitems : ∀ d ∈ items, ∀ t, ofDatum d = .ok t → Formed [t] ∧ Settled [t])
    (h : ofItems 0 items = .ok ts) : ts.length = items.length ∧ Formed ts ∧ Settled ts := by
  induction items generalizing ts with
  | nil =>
    exact Except.ok.inj h ▸ ⟨rfl, .nil, .nil⟩
  | cons _ _ ih =>
    rcases ofItems_cons h with ⟨t, us, rfl, ht, hus⟩
    have hd := forall_mem_cons.mp hitems
    have hfirst := hd.1 t ht
    have hrest := ih hd.2 hus
    exact ⟨congrArg Nat.succ hrest.1, hfirst.1.consOne hrest.2.1,
      every_cons.mpr ⟨hfirst.2, hrest.2.2⟩⟩

theorem sound_node {d : Datum} (hd : d.wellFormed = true)
    (hparts : ∀ form : Form, ∀ e ∈ form.children d, ∀ u, ofDatum e = .ok u →
      Formed [u] ∧ Settled [u]) (h : ofDatum d = .ok t) : Formed [t] ∧ Settled [t] := by
  rcases ofDatum_eq_ok_iff.mp h with ⟨form, p, ts, hform, hp, hts, rfl⟩
  have hspec := Form.annotate_spec hd (Form.ofDatum_spec hd hform) hp
  obtain ⟨hlen, hformed, hsettled⟩ := sound_ofItems (hparts form) hts
  exact ⟨.cons p ts [] (hlen ▸ hspec.1) hformed .nil, .cons p ts [] hspec.2 hsettled .nil⟩

theorem sound_ofDatum (d : Datum) (hd : d.wellFormed = true) (t : Tree) (h : ofDatum d = .ok t) :
    Formed [t] ∧ Settled [t] := by
  induction d using induction generalizing t with
  | list _ _ _ hitems =>
    refine sound_node hd (fun form e he => ?_) h
    have hmem := mem_of_mem_drop he
    exact hitems e hmem ((wellFormed_list.mp hd).1 e hmem)
  | _ => exact sound_node hd (fun _ => nofun) h

/-! ## Optimizing -/

/-- Optimizing keeps trees settled. -/
theorem settled_simplifiedAll (h : Settled ts) : Settled (simplifiedAll ts) := by
  have hop : 0 ∉ Bytes.ofString "+" := by decide
  refine every_simplifiedAll (fun value => ?_) (fun p hp => ?_) (fun _ _ _ _ hp => hp) h
  · exact { kept := rfl, type := Ty.zero_not_mem_builtin .integer (by decide) }
  · exact { kept := rfl, op := hop, type := hp.type }

end Tree

/-- Trees from documents are formed and settled. -/
theorem Document.sound_tree {source : Bytes} (h : tree source = .ok t) :
    Tree.Formed [t] ∧ Tree.Settled [t] := by
  unfold tree at h
  split at h
  · cases h
  · next d hread =>
    exact Tree.sound_ofDatum d (Sexpr.read_wellFormed hread) t (ok_of_mapError h)

theorem Document.formed_tree {source : Bytes} (h : tree source = .ok t) : Tree.Formed [t] :=
  (sound_tree h).1

end Codegen
