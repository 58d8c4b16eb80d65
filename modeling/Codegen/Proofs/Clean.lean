import Codegen.Compile
import Codegen.Proofs.Arm64.Program
import Codegen.Proofs.Document.Settled
import Codegen.Proofs.Stripped
import Codegen.Proofs.Wasm.Program

/-!
# Limitations of Optimized Programs

Optimizing a program may add limitations to it. There are three ways, and this module
shows that there are no others.

A statement after a top-level `return` is dropped together with what it declares, although
declarations at the top level count wherever they stand. A constant that is folded loses
the type that a document may have given it. And a product with two that becomes a sum
loses the type of the two, so a product that was an integer may become something void,
which cannot be printed.

The first two do not depend on any value. `Tree.stripped` has them and nothing else, so
whether the optimized program is without limitations is decided by the stripped one, up to
the printing of something void. A program that is cut after no declaration and whose
constants are integers is as good as its stripped form.

## Theorems

* `compileSource_optimized`: When an optimized program is without limitations.
-/

namespace Codegen

open Term Codegen.Tree List

variable {t : Tree}

namespace Tree

variable {p : Payload}

/-- Whether a statement of the top level declares something. -/
def declares (s : Tree) : Bool := s.kind?.any Kind.isDeclaration

/-- The statements after the first `return` of a program. -/
def unreached (t : Tree) : List Tree := t.statements.drop (reachable t.statements).length

theorem statements_blockLike (h : p.kind.isBlockLike = true) (ts : List Tree) :
    (node p ts).statements = ts := by
  rw [statements, if_pos h]

theorem statements_lone (h : p.kind.isBlockLike = false) (ts : List Tree) :
    (node p ts).statements = [.node p ts] := by
  rw [statements, h]
  rfl

theorem reachable_singleton (t : Tree) : reachable [t] = [t] := by
  rw [reachable]
  split
  · rfl
  · rfl

theorem statements_of_succeeds {ts : List Tree} (h : Succeeds p t)
    (hother : p.kind ≠ .binary → t = settled p ts) :
    t.statements = reachable (if p.kind.isBlockLike then ts else [t]) := by
  by_cases hblock : p.kind.isBlockLike = true
  · rw [hother fun h => absurd hblock (by rw [h]; exact nofun), settled,
      statements_blockLike hblock, if_pos hblock, if_pos hblock]
  · obtain ⟨q, us, rfl, -, hkind⟩ := h
    have hlone : q.kind.isBlockLike = false := by
      rcases hkind with hkind | ⟨-, hkind⟩ <;> rw [hkind]
      · exact eq_false_of_ne_true hblock
      · rfl
    rw [if_neg hblock, reachable_singleton, statements_lone hlone]

theorem statements_simplified (hf : Formed [t]) :
    t.simplified.statements = reachable (simplifiedAll t.statements) := by
  cases hf with
  | cons p ts _ fits =>
    rw [statements_of_succeeds (simplified_node p fits) (simplified_other p ts), statements]
    split <;> rfl

theorem statements_stripped (hf : Formed [t]) :
    t.stripped.statements = reachable (strippedAll t.statements) := by
  cases hf with
  | cons p ts _ fits =>
    rw [statements_of_succeeds (stripped_node p fits) (stripped_other p ts), statements]
    split <;> rfl

theorem plainAll_statements (h : t.plain = true) : plainAll t.statements = true := by
  have hone : plainAll [t] = true := by
    rw [plainAll, h]
    rfl
  cases t with
  | missing => exact hone
  | node =>
    rw [statements]
    split
    · rw [plain, Bool.and_eq_true] at h
      exact h.2
    · exact hone

theorem reduced_statements (h : t.savings.reduced = 0) : (savingsAll t.statements).reduced = 0 := by
  have hone : (savingsAll [t]).reduced = 0 := h
  cases t with
  | missing => exact hone
  | node p ts =>
    rw [statements]
    split
    · have hsum : (savingsAll ts).reduced + (saved p (simplifiedAll ts)).reduced = 0 := h
      omega
    · exact hone

end Tree

section Programs

variable {rules : Rules} {double : Bool}

theorem program_stripped (hsteady : rules.Steady ⟨false, double⟩) (hf : Tree.Formed [t])
    (hdouble : double = true ∨ t.savings.reduced = 0) :
    Follows ⟨false, double⟩ (rules.program (ofTrees t.stripped.statements))
      (rules.program (ofTrees t.simplified.statements)) := by
  have hstatements := hf.statements
  rw [statements_stripped hf, statements_simplified hf, reachable_eq_take,
    reachable_eq_take (simplifiedAll _), ofTrees_take, ofTrees_take,
    (alike_stripped hstatements).length_reachable, (alike_simplified hstatements).length_reachable]
  have hrecast : Recast ⟨false, double⟩ _ _ := recast_stripped hstatements
    (hdouble.imp id reduced_statements)
  exact (hrecast.take _).program hsteady

theorem kind_ofTrees {ts : List Tree} (hf : Tree.Formed ts)
    (h : ∀ s ∈ ts, s.declares = false) : ∀ s ∈ ofTrees ts, s.kind.isDeclaration = false := by
  rw [ofTrees_eq_map, forall_mem_map]
  refine fun s hs => hf.forall_mem (motive := fun s => s.declares = false →
    (ofTree s).kind.isDeclaration = false) (fun p us _ _ _ hdeclares => ?_) s hs (h s hs)
  rw [kind_ofTree]
  exact hdeclares

theorem ofTrees_drop (ts : List Tree) (count : Nat) :
    ofTrees (ts.drop count) = (ofTrees ts).drop count := by
  rw [ofTrees_eq_map, ofTrees_eq_map, map_drop]

/-- An optimized program against the program itself. What is dropped declares nothing, so
    only issues go with it. -/
theorem program_simplified (hsteady : rules.Steady ⟨true, double⟩) (hf : Tree.Formed [t])
    (hdouble : double = true ∨ t.savings.reduced = 0) (hplain : t.plain = true)
    (hnames : ∀ s ∈ t.unreached, s.declares = false) :
    Follows ⟨true, double⟩ (rules.program (ofTrees t.statements))
      (rules.program (ofTrees t.simplified.statements)) := by
  have hstatements := hf.statements
  have hrecast : Recast ⟨true, double⟩ _ _ := recast_simplified rfl hstatements
    (plainAll_statements hplain) (hdouble.imp id reduced_statements)
  have hdead := kind_ofTrees (hstatements.sublist (drop_sublist _ _)) hnames
  rw [ofTrees_drop] at hdead
  rcases program_append rules ((ofTrees t.statements).take (reachable t.statements).length) _
    hdead with ⟨js, hjs⟩
  rw [take_append_drop] at hjs
  rw [hjs, statements_simplified hf, reachable_eq_take (simplifiedAll _),
    ofTrees_take, (alike_simplified hstatements).length_reachable]
  exact ((hrecast.take _).program hsteady).cut rfl js

end Programs

/-- The generator of either target reports the issues of its own rules, which are steady. -/
theorem generate_formed (opts : Options) : ∃ (rules : Rules) (name : Bytes),
    (∀ lic, rules.Steady lic) ∧ ∀ t, Tree.Formed [t] → ∃ text, generate opts t =
      .ok ⟨text, (rules.program (ofTrees t.statements)).map (Issue.limitation name)⟩ := by
  by_cases hwasm : opts.target = Wasm.target
  · refine ⟨Wasm.rules, Wasm.target, Wasm.steady_rules, fun t hf => ?_⟩
    rcases Wasm.compile_formed hf with ⟨text, heq⟩
    refine ⟨text, ?_⟩
    unfold generate
    rw [if_pos hwasm, heq]
    rfl
  · refine ⟨Arm64.rules, Arm64.target, Arm64.steady_rules, fun t hf => ?_⟩
    rcases Arm64.compile_formed (.ofOs opts.os) hf with ⟨text, heq⟩
    refine ⟨text, ?_⟩
    unfold generate
    rw [if_neg hwasm, heq]
    rfl

def compiled (opts : Options) (t : Tree) : Except Fault (Except OptionError Generated) :=
  match opts.validate with
  | .error cause => .ok (.error cause)
  | .ok () => (generate opts (if opts.optimize then t.simplified else t)).map .ok

variable {opts : Options}

/-- Compiling depends on nothing in an arena but the tree below the index, which no other
    node shares if it is optimized. -/
theorem run_compile {a : Arena} {root : NodeId}
    (h : opts.optimize = true → ∃ foot, a.Forest [root] [a.tree root] foot) :
    ((compile opts root).run a).1 = compiled opts (a.tree root) := by
  unfold compile compiled
  cases opts.validate with
  | error => rfl
  | ok =>
    cases hoptimize : opts.optimize with
    | false =>
      refine (congrArg Prod.fst (Arena.run_bind (Arena.builds_pure root a))).trans ?_
      refine (congrArg Prod.fst (Arena.run_bind (Arena.builds_get a))).trans ?_
      rw [if_neg Bool.false_ne_true]
      cases generate opts (a.tree root) <;> rfl
    | true =>
      rcases h hoptimize with ⟨foot, hforest⟩
      rcases Optimize.builds_run hforest with ⟨root', b, hrun, foot', hforest', _⟩
      have htree : b.tree root' = (a.tree root).simplified := hforest'.tree
      refine (congrArg Prod.fst (Arena.run_bind
        (Arena.builds_bind hrun (Arena.builds_pure root' b)))).trans ?_
      refine (congrArg Prod.fst (Arena.run_bind (Arena.builds_get b))).trans ?_
      rw [htree, if_pos rfl]
      cases generate opts (a.tree root).simplified <;> rfl

variable {source : Bytes}

theorem compileSource_compiled (htree : Document.tree source = .ok t) :
    compileSource opts source = match compiled opts t with
      | .ok (.ok g) => .ok g
      | .ok (.error cause) => .error (.options cause)
      | .error fault => .error (.fault fault) := by
  have hsolid := (Document.formed_tree htree).solid
  rcases Arena.builds_add t hsolid {} with ⟨root, a, hadd, foot, hforest, _⟩
  have hrun : (Arena.add t >>= compile opts).run {} = (compile opts root).run a :=
    Arena.run_bind hadd
  obtain rfl : a.tree root = t := hforest.tree
  unfold compileSource
  rw [htree, ← run_compile fun _ => ⟨foot, hforest⟩]
  simp only [Except.mapError, bind, Except.bind] at hrun ⊢
  rw [hrun]
  rcases (compile opts root).run a with ⟨fault | cause | g, b⟩ <;> rfl

/-- A document is compiled by generating its tree, simplified or not. -/
theorem compileSource_eq {g : Generated} (hopts : opts.validate = .ok ())
    (htree : Document.tree source = .ok t)
    (hg : generate opts (if opts.optimize then t.simplified else t) = .ok g) :
    compileSource opts source = .ok g := by
  rw [compileSource_compiled htree, compiled, hopts, hg]
  rfl

/-- The limitation of printing something void. -/
def Limitation.printsVoid (l : Limitation) : Bool :=
  l.message = (Unsupported.printOf .void).message

/-- What follows issues that there are none of, with and without a licence to double. -/
theorem printsVoid_of_follows {cuts : Bool} {never : Prop} {is is' : List Issue} (name : Bytes)
    (h : ∀ double : Bool, (double = true ∨ never) → Follows ⟨cuts, double⟩ is is')
    (hclean : is.map (Issue.limitation name) = []) :
    (∀ l ∈ is'.map (Issue.limitation name), l.printsVoid = true) ∧
      (never → is'.map (Issue.limitation name) = []) := by
  have hnone : is = [] := map_eq_nil_iff.mp hclean
  refine ⟨fun l hl => ?_, fun hnever => ?_⟩
  · rcases mem_map.mp hl with ⟨i, hi, rfl⟩
    have hcause : i.cause = .printOf .void := ((h true (Or.inl rfl)).1 hnone i hi).2
    exact decide_eq_true (congrArg Unsupported.message hcause)
  · rw [map_eq_nil_iff, eq_nil_iff_forall_not_mem]
    exact fun i hi => Bool.false_ne_true ((h false (Or.inr hnever)).1 hnone i hi).1

namespace Sample

/-- A program with a constant to fold and a statement to drop. -/
def folding : Bytes :=
  "(program (call (ident \"print\") (binary \"*\" (integer 3) (integer 4))) (return) (return))"

/-- A program that returns before the function that it calls is declared. -/
def early : Bytes := "(program (call (ident \"f\")) (return) (func \"f\" (params) void (block)))"

def doubling : Bytes :=
  "(program (var \"x\" void) (call (ident \"print\") (binary \"*\" (integer 2) (ident \"x\"))))"

/-- A program with a constant that is said to be a text. -/
def typing : Bytes :=
  "(program (call (ident \"length\") (binary ^\x7btype: text\x7d \"+\" (integer 1) (integer 2))))"

/-- The program is without limitations until it is optimized. -/
def Spoiled (target source kind message : Bytes) : Prop :=
  (compileSource { target, optimize := false } source).toOption.map Generated.limitations =
    some [] ∧
  (compileSource { target, optimize := true } source).toOption.map Generated.limitations =
    some [⟨target, kind, message⟩]

end Sample

/-- The program of a document is compiled with and without the optimizer. Its optimized
    form has no limitation exactly if the stripped form has none and nothing void is
    printed. If the stripped form has none, printing something void is all that there may
    be, and without a product that is replaced there is nothing. The same holds if the
    program itself has none, its constants are integers, and what it loses declares
    nothing. -/
theorem compileSource_optimized {opts : Options} {source : Bytes} {t : Tree}
    (hopts : opts.validate = .ok ()) (htree : Document.tree source = .ok t) :
    ∃ off on kept : Generated,
      compileSource { opts with optimize := false } source = .ok off ∧
      compileSource { opts with optimize := true } source = .ok on ∧
      generate opts t.stripped = .ok kept ∧
      (on.limitations = [] ↔
        kept.limitations = [] ∧ ∀ l ∈ on.limitations, l.printsVoid = false) ∧
      (kept.limitations = [] →
        (∀ l ∈ on.limitations, l.printsVoid = true) ∧
        (t.savings.reduced = 0 → on.limitations = [])) ∧
      (off.limitations = [] → t.plain = true → (∀ s ∈ t.unreached, s.declares = false) →
        (∀ l ∈ on.limitations, l.printsVoid = true) ∧
        (t.savings.reduced = 0 → on.limitations = [])) := by
  have hf := Document.formed_tree htree
  rcases generate_formed opts with ⟨rules, name, hsteady, hgenerate⟩
  rcases hgenerate t hf with ⟨textOff, hoff⟩
  rcases hgenerate t.simplified (formed_simplifiedAll hf) with ⟨textOn, hon⟩
  rcases hgenerate t.stripped (formed_strippedAll hf) with ⟨textKept, hkept⟩
  have hstripped := printsVoid_of_follows name
    fun double hdouble => program_stripped (hsteady ⟨false, double⟩) hf hdouble
  refine ⟨_, _, _, compileSource_eq hopts htree hoff, compileSource_eq hopts htree hon, hkept,
    ⟨fun hclean => ?_, fun ⟨hclean, hvoid⟩ => ?_⟩, hstripped, fun hclean hplain hnames => ?_⟩
  · have hfollows := program_stripped (hsteady ⟨false, true⟩) hf (Or.inl rfl)
    have hnone := hfollows.2 rfl (map_eq_nil_iff.mp hclean)
    exact ⟨map_eq_nil_iff.mpr hnone, fun l hl => absurd hl (by rw [hclean]; exact nofun)⟩
  · rw [eq_nil_iff_forall_not_mem]
    intro l hl
    have hprints := (hstripped hclean).1 l hl
    rw [hvoid l hl] at hprints
    exact Bool.false_ne_true hprints
  · exact printsVoid_of_follows name
      (fun double hdouble => program_simplified (hsteady ⟨true, double⟩) hf hdouble hplain hnames)
      hclean

/-- The optimizer does something to the program, and it stays without limitations. -/
theorem compileSource_optimized_folding :
    ∃ t off on, Document.tree Sample.folding = .ok t ∧ t.savings = ⟨1, 0, 1⟩ ∧
      compileSource { optimize := false } Sample.folding = .ok off ∧ off.limitations = [] ∧
      compileSource { optimize := true } Sample.folding = .ok on ∧ on.limitations = [] := by
  have hread : ∃ t, Document.tree Sample.folding = .ok t ∧ decide (t.savings = ⟨1, 0, 1⟩ ∧
      t.plain = true ∧ ∀ s ∈ t.unreached, s.declares = false) = true :=
    ok_of_any (by decide +kernel)
  have hclean : ∃ off, compileSource { optimize := false } Sample.folding = .ok off ∧
      decide (off.limitations = []) = true :=
    ok_of_any (by decide +kernel)
  rcases hread with ⟨t, htree, hsavings⟩
  rcases hclean with ⟨off, hoff, hclean⟩
  obtain ⟨hsavings, hplain, hnames⟩ := of_decide_eq_true hsavings
  have hopts : Options.validate {} = .ok () := rfl
  rcases compileSource_optimized hopts htree with
    ⟨off', on, -, hoff', hon, -, -, -, honly⟩
  obtain rfl : off' = off := Except.ok.inj (hoff'.symm.trans hoff)
  have hreduced : t.savings.reduced = 0 := congrArg Stats.reduced hsavings
  exact ⟨t, off', on, htree, hsavings, hoff, of_decide_eq_true hclean, hon,
    (honly (of_decide_eq_true hclean) hplain hnames).2 hreduced⟩

/-- There are programs that each of the three ways spoils, on each target but for the
    constants that only one target asks for their type. -/
theorem compileSource_spoiled :
    Sample.Spoiled Arm64.target Sample.early "NodeCall" "call to unresolved function \"f\"" ∧
    Sample.Spoiled Wasm.target Sample.early "NodeCall" "call to unresolved function \"f\"" ∧
    Sample.Spoiled Arm64.target Sample.doubling "NodeBinary" "print of void value" ∧
    Sample.Spoiled Wasm.target Sample.doubling "NodeBinary" "print of void value" ∧
    Sample.Spoiled Wasm.target Sample.typing "NodeCall"
      "length needs one text or array argument" := by
  unfold Sample.Spoiled
  decide +kernel

end Codegen
