import Codegen.Proofs.Document.Reread

/-!
# Trees That Are Read Back Unchanged

Writing a tree and reading it changes types only, so the tree that is read is equivalent to
the one that was written unless some node shows a difference. There are three ways to show
one: a literal or an array whose type is not known comes back with the type of its kind, a
type that is called `unknown` comes back as the type that is not known, and a NaN is not
equivalent to itself. A node that shows none of them is faithful, and whether all nodes are is
what the comparison of the two trees answers.

## Theorems

* `document_reread`: Documents are written and read back.
-/

namespace Codegen

def Ty.legible (t : Ty) : Bool := t.name ≠ "unknown"

theorem Ty.reread_eq_iff {t : Ty} : t.reread = t ↔ t.legible = true := by
  unfold reread legible
  by_cases hname : t.name = "unknown"
  · have hne : Ty.unknown ≠ t := by
      rintro rfl
      exact absurd hname (by decide)
    simp [hne]
  · simp [hname]

theorem Param.map_reread_eq_iff {qs : List Param} :
    qs.map Param.reread = qs ↔ ∀ q ∈ qs, q.type.legible = true := by
  induction qs with
  | nil => simp
  | cons q _ ih =>
    have hfirst : q.reread = q ↔ q.type.legible = true := by
      rw [← Ty.reread_eq_iff]
      exact ⟨congrArg Param.type, congrArg (Param.mk q.name)⟩
    rw [List.map_cons, List.cons.injEq, hfirst, ih, List.forall_mem_cons]

namespace Payload

/-- Whether the type of a node is missing although its kind implies one. -/
def untyped (p : Payload) : Bool := p.type = .unknown && p.kind.default ≠ .unknown

def types (p : Payload) : List Ty :=
  p.type :: p.result :: (p.params ++ p.fields).map Param.type

/-- Whether a node is read back as what it was, and that can be seen. -/
def faithful (p : Payload) : Bool :=
  !p.decimal.isNaN && !p.untyped && p.types.all Ty.legible

theorem type_reread_eq_iff {p : Payload} :
    p.reread.type = p.type ↔ p.untyped = false ∧ p.type.legible = true := by
  by_cases hunknown : p.type = .unknown
  · have hlegible : Ty.legible .unknown = true := by decide
    simp [reread, untyped, hunknown, hlegible]
  · simp [reread, untyped, hunknown, Ty.reread_eq_iff]

theorem reread_eq_iff {p : Payload} :
    p.reread = p ↔ p.untyped = false ∧ ∀ t ∈ p.types, t.legible = true := by
  have hfields : p.reread = p ↔ p.reread.type = p.type ∧ p.params.map Param.reread = p.params ∧
      p.result.reread = p.result ∧ p.fields.map Param.reread = p.fields := by
    rcases p with ⟨kind, name, text, integer, decimal, boolean, op, type, params, result, fields⟩
    simp [reread]
  rw [hfields, type_reread_eq_iff, Param.map_reread_eq_iff, Param.map_reread_eq_iff,
    Ty.reread_eq_iff]
  simp only [types, List.forall_mem_cons, List.forall_mem_map, List.forall_mem_append]
  tauto

/-- Comparing a payload with what is read back. -/
theorem agrees_reread (p : Payload) : p.agrees p.reread = p.faithful := by
  have hsame : p.decimal.same p.reread.decimal = !p.decimal.isNaN := by
    have hdecimal : p.reread.decimal = p.decimal := rfl
    rw [hdecimal, Decimal.same, beq_self_eq_true, Bool.true_or, Bool.and_true, Bool.and_self]
  have hequal : decide ({ p with decimal := p.reread.decimal } = p.reread) =
      (!p.untyped && p.types.all Ty.legible) := by
    rw [Bool.eq_iff_iff, decide_eq_true_eq, Bool.and_eq_true, Bool.not_eq_true', List.all_eq_true,
      ← reread_eq_iff]
    exact eq_comm
  unfold agrees faithful
  rw [hsame, hequal, Bool.and_assoc]

end Payload

namespace Tree

mutual

/-- Whether all nodes of a tree are read back as what they were. -/
def faithful : Tree → Bool
  | .node p ts => p.faithful && faithfulAll ts
  | .missing => false

def faithfulAll : List Tree → Bool
  | [] => true
  | t :: ts => faithful t && faithfulAll ts

end

/-- Comparing trees with what is read back. -/
theorem equivalentAll_reread {ts : List Tree} (h : Solid ts) :
    equivalentAll ts (rereadAll ts) = some (faithfulAll ts) := by
  induction h with
  | nil => rfl
  | cons p ts _ _ _ ihC ihS =>
    have hnode : equivalent (.node p ts) (.node p.reread (rereadAll ts)) =
        some (p.faithful && faithfulAll ts) := by
      rw [equivalent, Payload.agrees_reread, length_rereadAll]
      cases p.faithful with
      | true => simpa using ihC
      | false => rfl
    rw [rereadAll, reread, equivalentAll, hnode, faithfulAll, faithful]
    cases p.faithful && faithfulAll ts with
    | true => simpa using ihS
    | false => rfl

theorem equivalent_reread {t : Tree} (h : Solid [t]) :
    t.equivalent t.reread = some t.faithful := by
  have hall := equivalentAll_reread h
  rw [rereadAll, equivalentAll, faithfulAll, faithfulAll, Bool.and_true] at hall
  split at hall
  · next htrue => rw [htrue, ← hall]; rfl
  · exact hall

end Tree

/-- The tree of a document can be written and read, and what is read is equivalent to it
    exactly if all of its nodes are faithful. -/
theorem document_reread {source : Bytes} {t : Tree} (h : Document.tree source = .ok t) :
    ∃ text again, t.print? = some text ∧ Document.tree text = .ok again ∧
      t.equivalent again = some t.faithful := by
  obtain ⟨hformed, hsettled⟩ := Document.sound_tree h
  rcases Tree.tree_print hformed hsettled with ⟨text, hprint, hread⟩
  exact ⟨text, t.reread, hprint, hread, Tree.equivalent_reread hformed.solid⟩

namespace Sample

/-- A program with decimals, texts, types as metadata and a class whose name is no symbol. -/
def faithful : Bytes :=
  "(program (class \"a b\" (fields (field \"x\" decimal)))
     (func \"f\" (params (param \"c\" \"a b\")) text (block (return (string \"a \\\"q\\\"\"))))
     (var \"y\" decimal (binary ^\x7btype: decimal\x7d \"*\" (decimal \"1e-7\") -3)))"

/-- Documents with an integer, a truth value and an array whose types are not known, with a
    variable, a parameter, a result and a field whose types are called `unknown`, and with a
    NaN. -/
def altered : List Bytes := [
  "(integer ^\x7btype: unknown\x7d 5)",
  "(boolean ^\x7btype: unknown\x7d true)",
  "(array ^\x7btype: unknown\x7d 1)",
  "(var \"x\" \"unknown\")",
  "(func \"f\" (params (param \"x\" \"unknown\")) void (block))",
  "(func \"f\" (params) \"unknown\" (block))",
  "(class \"c\" (fields (field \"x\" \"unknown\")))",
  "(decimal \"nan\")"]

/-- Whether the tree of a document is equivalent to what is read of its text. -/
def comparison (source : Bytes) : Option Bool := do
  let t ← (Document.tree source).toOption
  let text ← t.print?
  let again ← (Document.tree text).toOption
  t.equivalent again

end Sample

theorem document_reread_faithful : ∃ t text again,
    Document.tree Sample.faithful = .ok t ∧ t.print? = some text ∧
    Document.tree text = .ok again ∧ t.equivalent again = some true := by
  have hread : ∃ t, Document.tree Sample.faithful = .ok t ∧ t.faithful = true :=
    ok_of_any (by decide +kernel)
  rcases hread with ⟨t, htree, hfaithful⟩
  rcases document_reread htree with ⟨text, again, hprint, hagain, hequal⟩
  exact ⟨t, text, again, htree, hprint, hagain, hfaithful ▸ hequal⟩

/-- Documents whose trees come back different. -/
theorem document_reread_altered :
    Sample.altered.map Sample.comparison = List.replicate Sample.altered.length (some false) := by
  decide +kernel

end Codegen
