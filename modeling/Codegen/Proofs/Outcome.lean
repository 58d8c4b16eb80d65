import Codegen.Proofs.Clean

/-!
# How Compilations End

A compilation ends in one of three ways: the document is refused, the options are
refused, or there is a program. Limitations are part of the third. What a generator
calls a fault is none of them: a part of a tree that is not there, a frame that is too
small, a slot that was not taken, a scope that was not opened. The type of results allows
for faults, since trees can be built by hand; here they are ruled out for trees that were
read.

Nothing has to be shown about faults one by one. A document is read as a formed tree,
optimizing keeps it formed, and both generators end with a program on formed trees, so
there is no room left for a fault of any kind. That the frame is large enough, that the
counter of a loop is bound to a slot that was taken, and that scopes are left as often
as they are entered is what the runs of the generators on formed trees consist of.

## Theorems

* `compileSource_outcome`: How the compilation of a document ends.
-/

namespace Codegen

variable {source : Bytes} {t : Tree} {opts : Options}

/-- Both generators have a program for every formed tree. -/
theorem generate_total (opts : Options) (hf : Tree.Formed [t]) : ∃ g, generate opts t = .ok g := by
  rcases generate_formed opts with ⟨rules, name, -, hgenerate⟩
  rcases hgenerate t hf with ⟨text, hg⟩
  exact ⟨_, hg⟩

/-- What a program comes with are limitations only. -/
theorem onlyLimitations_problem (g : Generated) :
    g.problem = none ∨ ∃ problem, g.problem = some problem ∧ problem.onlyLimitations = true := by
  unfold Generated.problem
  cases g.limitations with
  | nil => exact Or.inl rfl
  | cons =>
    refine Or.inr ⟨_, rfl, ?_⟩
    simp [Problem.onlyLimitations, Problem.isLimitation]

theorem compileSource_ok (hopts : opts.validate = .ok ()) (htree : Document.tree source = .ok t) :
    ∃ g, compileSource opts source = .ok g := by
  have hf := Document.formed_tree htree
  -- The optimizer is the only step between the reader and the generator, and it keeps
  -- the tree formed.
  have hready : Tree.Formed [if opts.optimize then t.simplified else t] := by
    cases opts.optimize with
    | false => exact hf
    | true => exact Tree.formed_simplifiedAll hf
  rcases generate_total opts hready with ⟨g, hg⟩
  exact ⟨g, compileSource_eq hopts htree hg⟩

theorem compileSource_document {cause : DocumentError} (opts : Options)
    (htree : Document.tree source = .error cause) :
    compileSource opts source = .error (.document cause) := by
  unfold compileSource
  rw [htree]
  rfl

theorem compileSource_options {cause : OptionError} (hopts : opts.validate = .error cause)
    (htree : Document.tree source = .ok t) :
    compileSource opts source = .error (.options cause) := by
  have hsolid := (Document.formed_tree htree).solid
  rcases Arena.builds_add t hsolid {} with ⟨root, a, hadd, -⟩
  have hrefused : Arena.Builds (compile opts root) a (.error cause) a := by
    unfold compile
    rw [hopts]
    exact Arena.builds_pure _ a
  have hrun : (Arena.add t >>= compile opts).run {} = (.ok (.error cause), a) :=
    Arena.builds_bind hadd hrefused
  unfold compileSource
  rw [htree]
  simp only [Except.mapError, bind, Except.bind] at hrun ⊢
  rw [hrun]
  rfl

/-- The arena that compiling a tree leaves behind. -/
def workspace (opts : Options) (t : Tree) : Arena := ((Arena.add t >>= compile opts).run {}).2

/-- If there is room for what a document is laid out and simplified to, no index is too large for
    32 bits, and compiling never ends in a fault. It ends in an error exactly if the document or
    the options are refused, the document being asked first, and otherwise in a program whose
    problem, if it has one, consists of limitations. -/
theorem compileSource_outcome (opts : Options) (source : Bytes)
    (hroom : ∀ t, Document.tree source = .ok t → (workspace opts t).size ≤ Arena.capacity) :
    (∀ t id, Document.tree source = .ok t → (workspace opts t).valid id = true → NodeId.Fits id) ∧
    (∀ fault, compileSource opts source ≠ .error (.fault fault)) ∧
    ((∃ cause, compileSource opts source = .error cause) ↔
      (∃ cause, Document.tree source = .error cause) ∨ ∃ cause, opts.validate = .error cause) ∧
    (∀ cause, Document.tree source = .error cause →
      compileSource opts source = .error (.document cause)) ∧
    (∀ t cause, Document.tree source = .ok t → opts.validate = .error cause →
      compileSource opts source = .error (.options cause)) ∧
    ∀ g, compileSource opts source = .ok g →
      g.problem = none ∨ ∃ problem, g.problem = some problem ∧ problem.onlyLimitations = true := by
  refine ⟨fun t id htree => Arena.fits_of_valid (hroom t htree), ?_, ?_,
    fun cause => compileSource_document opts,
    fun t cause htree hopts => compileSource_options hopts htree,
    fun g _ => onlyLimitations_problem g⟩
  -- The document is looked at first, then the options, and then nothing can go wrong.
  · intro fault
    cases htree : Document.tree source with
    | error =>
      rw [compileSource_document opts htree]
      exact nofun
    | ok =>
      cases hopts : opts.validate with
      | error =>
        rw [compileSource_options hopts htree]
        exact nofun
      | ok =>
        rcases compileSource_ok hopts htree with ⟨g, hg⟩
        rw [hg]
        exact nofun
  · constructor
    · rintro ⟨cause, herror⟩
      cases htree : Document.tree source with
      | error cause => exact Or.inl ⟨cause, rfl⟩
      | ok =>
        cases hopts : opts.validate with
        | error cause => exact Or.inr ⟨cause, rfl⟩
        | ok =>
          rcases compileSource_ok hopts htree with ⟨g, hg⟩
          rw [hg] at herror
          cases herror
    · intro hrefused
      cases htree : Document.tree source with
      | error => exact ⟨_, compileSource_document opts htree⟩
      | ok =>
        rcases hrefused with ⟨cause, hcause⟩ | ⟨cause, hopts⟩
        · rw [htree] at hcause
          cases hcause
        · exact ⟨_, compileSource_options hopts htree⟩

namespace Sample

/-- A product with two, which becomes a sum of copies. -/
def doubled : Bytes :=
  "(program (var \"x\" integer 3) (call (ident \"print\") (binary \"*\" (ident \"x\") 2)))"

end Sample

theorem compileSource_outcome_doubled :
    ∃ t, Document.tree Sample.doubled = .ok t ∧ (workspace {} t).size = 10 ∧
      (∀ id, (workspace {} t).valid id = true → NodeId.Fits id) ∧
      ∀ fault, compileSource {} Sample.doubled ≠ .error (.fault fault) := by
  have hread : ∃ t, Document.tree Sample.doubled = .ok t ∧
      decide ((workspace {} t).size = 10) = true := ok_of_any (by decide +kernel)
  rcases hread with ⟨t, htree, hsize⟩
  have hsize := of_decide_eq_true hsize
  have hroom (u : Tree) (hu : Document.tree Sample.doubled = .ok u) :
      (workspace {} u).size ≤ Arena.capacity := by
    obtain rfl := Except.ok.inj (htree.symm.trans hu)
    rw [hsize]
    decide
  obtain ⟨hfits, hnever, -⟩ := compileSource_outcome {} Sample.doubled hroom
  exact ⟨t, htree, hsize, fun id => hfits t id htree, hnever⟩

end Codegen
