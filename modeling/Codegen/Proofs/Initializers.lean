import Codegen.Proofs.Arm64.Initializers
import Codegen.Proofs.Symbols
import Codegen.Proofs.Wasm.Initializers

/-!
# Initializers of a Document

A variable at the top level has storage of its own in both outputs, and the entry sets it where
the statement of the variable stands. It does so by name, after the statements before have been
lowered, and that goes wrong in one way only: a declaration that is itself the body of a loop or
of a condition stays in the scope of the entry and takes the place of a variable of its name.
The initializer then goes to that local, and the variable that functions see stays zero.

## Theorems

* `document_initializers`: Where the initializers go in both outputs.
-/

namespace Codegen

/-- A document whose names at the top level are different, and a variable there. In both outputs
    the storage of the variable is there, and the code of its statement in the entry ends by
    storing to it if and only if no statement before has left its name in the scope of the entry.
    Otherwise it ends by storing to a local. -/
theorem document_initializers {opts : Options} {source : Bytes} {root : Tree}
    {before after ts : List Tree} {p : Payload} (hopts : opts.validate = .ok ())
    (htree : Document.tree source = .ok root) (hnodup : root.declaredNames.Nodup)
    (hroot : (opts.prepared root).statements = before ++ .node p ts :: after)
    (hkind : p.kind = .varDecl) :
    (∃ fs out ctx c type,
      Arm64.Isolates (.ofOs opts.os) (opts.prepared root) before (.node p ts) after fs c
        (out, ctx) ∧
      compileSource { opts with target := "arm64" } source =
        .ok ⟨out.text (.ofOs opts.os), ctx.limitations⟩ ∧
      out.code = (fs.map Prod.snd).flatten ∧
      ⟨Arm64.globalStorage p, type.rep.words * 8⟩ ∈ out.storage ∧
      ((∃ init, c = init ++ Arm64.store (.staticVar p.name type (Arm64.globalStorage p))) ↔
        p.name ∉ before.flatMap Tree.leftover) ∧
      (p.name ∈ before.flatMap Tree.leftover →
        ∃ init sym, sym.global = false ∧ c = init ++ Arm64.store sym)) ∧
    ∃ fs out ctx c type,
      Wasm.Isolates (opts.prepared root) before (.node p ts) after fs c (out, ctx) ∧
      compileSource { opts with target := "wasm" } source =
        .ok ⟨(Wasm.assemble out ctx.data).text, ctx.limitations⟩ ∧
      out.funcs = fs.map Prod.snd ∧
      Wasm.globalCells p type ⊆ out.globals ∧
      ((∃ init, c = init ++ Wasm.store (Wasm.globalSymbol p type)) ↔
        p.name ∉ before.flatMap Tree.leftover) ∧
      (p.name ∈ before.flatMap Tree.leftover →
        ∃ init sym, sym.global = false ∧ c = init ++ Wasm.store sym) := by
  have hnodup := (opts.declaredNames_prepared htree).nodup hnodup
  constructor
  · rcases compileSource_arm64 hopts htree with ⟨fs, out, ctx, hfs, hcompile⟩
    rcases hfs.isolates hroot with ⟨c, hc⟩
    rcases hc.stores hkind hnodup with ⟨type, hstores⟩
    exact ⟨fs, out, ctx, c, type, hc, hcompile, hfs.branches.1, hstores⟩
  · rcases compileSource_wasm hopts htree with ⟨fs, out, ctx, hfs, hcompile⟩
    rcases hfs.isolates hroot with ⟨c, hc⟩
    rcases hc.stores hkind hnodup with ⟨type, hstores⟩
    exact ⟨fs, out, ctx, c, type, hc, hcompile, hfs.funcs, hstores⟩

namespace Sample

/-- A variable after a block that has declared its name, and after a condition that has left
    another name. -/
def enclosing : Bytes :=
  "(program (block (var \"x\" integer 1)) (if (boolean true) (var \"y\" integer 5)) " ++
    "(var \"x\" text (string \"a\")))"

/-- A variable after a condition that has left its name. -/
def leaking : Bytes :=
  "(program (if (boolean true) (var \"x\" integer 5)) (var \"x\" integer 7))"

/-- Whether names at the top level are different, and the last statement is a variable of this
    name, which was left behind or not. -/
def endsIn (name : Bytes) (left : Bool) (root : Tree) : Bool :=
  decide (root.declaredNames.Nodup ∧
    (root.statements.getLast?.bind Tree.declaration?) = some (name, .variable) ∧
    decide (name ∈ root.statements.dropLast.flatMap Tree.leftover) = left)

theorem statements_of_endsIn {name : Bytes} {left : Bool} {root : Tree}
    (h : endsIn name left root = true) :
    root.declaredNames.Nodup ∧ ∃ before p ts, root.statements = before ++ [.node p ts] ∧
      p.kind = .varDecl ∧ p.name = name ∧ decide (name ∈ before.flatMap Tree.leftover) = left := by
  obtain ⟨hnodup, hlast, hleft⟩ := of_decide_eq_true h
  rcases Option.bind_eq_some_iff.mp hlast with ⟨t, ht, hdecl⟩
  have hstatements := List.dropLast_append_getLast? t ht
  cases t with
  | missing => cases hdecl
  | node p ts =>
    have hkind : p.kind = .varDecl ∧ p.name = name := by
      unfold Tree.declaration? at hdecl
      cases hkind : p.kind <;> simp_all
    exact ⟨hnodup, _, p, ts, hstatements.symm, hkind.1, hkind.2, hleft⟩

end Sample

theorem document_initializers_enclosing :
    ∃ root before p ts, Document.tree Sample.enclosing = .ok root ∧ root.declaredNames.Nodup ∧
      root.statements = before ++ [.node p ts] ∧ p.kind = .varDecl ∧ p.name = ("x" : Bytes) ∧
      (∃ fs st c type init, Arm64.Isolates .linux root before (.node p ts) [] fs c st ∧
        c = init ++ Arm64.store (.staticVar p.name type (Arm64.globalStorage p))) ∧
      ∃ fs st c type init, Wasm.Isolates root before (.node p ts) [] fs c st ∧
        c = init ++ Wasm.store (Wasm.globalSymbol p type) := by
  have hread : ∃ root, Document.tree Sample.enclosing = .ok root ∧
      Sample.endsIn "x" false root = true := ok_of_any (by decide +kernel)
  rcases hread with ⟨root, htree, hroot⟩
  rcases Sample.statements_of_endsIn hroot with
    ⟨hnodup, before, p, ts, hstatements, hkind, hname, hleft⟩
  have hfree : p.name ∉ before.flatMap Tree.leftover := hname ▸ of_decide_eq_false hleft
  rcases @document_initializers { optimize := false } _ _ _ _ _ _ rfl htree hnodup hstatements
    hkind with ⟨⟨fs, _, _, c, type, hc, -, -, -, hiff, -⟩, fs', _, _, c', type', hc', -, -, -,
      hiff', -⟩
  rcases hiff.mpr hfree with ⟨init, hinit⟩
  rcases hiff'.mpr hfree with ⟨init', hinit'⟩
  exact ⟨root, before, p, ts, htree, hnodup, hstatements, hkind, hname,
    ⟨fs, _, c, type, init, hc, hinit⟩, fs', _, c', type', init', hc', hinit'⟩

/-- After a condition that has left its name, a variable is not stored to. -/
theorem document_initializers_left :
    ∃ root before p ts, Document.tree Sample.leaking = .ok root ∧ root.declaredNames.Nodup ∧
      root.statements = before ++ [.node p ts] ∧ p.kind = .varDecl ∧ p.name = ("x" : Bytes) ∧
      (∃ fs out ctx c, Arm64.Isolates .linux root before (.node p ts) [] fs c (out, ctx) ∧
        compileSource { target := "arm64", optimize := false } Sample.leaking =
          .ok ⟨out.text .linux, ctx.limitations⟩ ∧
        ∀ type init, c ≠ init ++ Arm64.store (.staticVar p.name type (Arm64.globalStorage p))) ∧
      ∃ fs out ctx c, Wasm.Isolates root before (.node p ts) [] fs c (out, ctx) ∧
        compileSource { target := "wasm", optimize := false } Sample.leaking =
          .ok ⟨(Wasm.assemble out ctx.data).text, ctx.limitations⟩ ∧
        ∀ type init, c ≠ init ++ Wasm.store (Wasm.globalSymbol p type) := by
  have hread : ∃ root, Document.tree Sample.leaking = .ok root ∧
      Sample.endsIn "x" true root = true := ok_of_any (by decide +kernel)
  rcases hread with ⟨root, htree, hroot⟩
  rcases Sample.statements_of_endsIn hroot with
    ⟨hnodup, before, p, ts, hstatements, hkind, hname, hleft⟩
  have hleft : p.name ∈ before.flatMap Tree.leftover := hname ▸ of_decide_eq_true hleft
  refine ⟨root, before, p, ts, htree, hnodup, hstatements, hkind, hname, ?_, ?_⟩
  · rcases @compileSource_arm64 { optimize := false } _ _ rfl htree with
      ⟨fs, out, ctx, hfs, hcompile⟩
    rcases hfs.isolates hstatements with ⟨c, hc⟩
    rcases hc.stores hkind hnodup with ⟨-, -, -, hstores⟩
    rcases hstores hleft with ⟨init, sym, hlocal, hinit⟩
    refine ⟨fs, out, ctx, c, hc, hcompile, fun type other h => ?_⟩
    exact Arm64.append_store_ne rfl hlocal _ _ (h.symm.trans hinit)
  · rcases @compileSource_wasm { optimize := false } _ _ rfl htree with
      ⟨fs, out, ctx, hfs, hcompile⟩
    rcases hfs.isolates hstatements with ⟨c, hc⟩
    rcases hc.stores hkind hnodup with ⟨-, -, -, hstores⟩
    rcases hstores hleft with ⟨init, sym, hlocal, hinit⟩
    refine ⟨fs, out, ctx, c, hc, hcompile, fun type other h => ?_⟩
    exact Wasm.append_store_ne rfl hlocal _ _ (h.symm.trans hinit)

namespace Sample

/-- A variable without a type that is set by a call. -/
def untyped : Bytes := "(var \"x\" unknown (call (ident \"f\")))"

/-- The function that is called. -/
def callee : Bytes := "(func \"f\" (params) text (block))"

/-- What a program with these two statements is compiled to for a target. -/
def compiled (target first last : Bytes) : Option Generated :=
  (compileSource { target, optimize := false } ("(program " ++ first ++ last ++ ")")).toOption

end Sample

/-- The type of a variable is that of its initializer where it is declared, and a function that is
    declared behind it has none there. So it matters where the function stands. -/
theorem document_moved : ∀ target ∈ ([Arm64.target, Wasm.target] : List Bytes),
    ((Sample.compiled target Sample.untyped Sample.callee).any fun g =>
      (Sample.compiled target Sample.callee Sample.untyped).any fun g' => g.text ≠ g'.text) =
        true := by
  decide +kernel

end Codegen
