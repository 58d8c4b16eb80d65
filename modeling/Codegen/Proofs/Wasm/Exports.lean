import Codegen.Number.Based
import Codegen.Proofs.Symbols

/-!
# Exports of WebAssembly Modules

A module exports its memory, its entry and the functions of the program, each under the name that
the program has for it. These names are no identifiers: the program may use the names `memory` and
`main` as well. Only a function `main` without parameters is not exported, and that only if the
name still stands for it at the end. `document_exports` says when this is enough for the names of
the exports to be different.

## Theorems

* `document_exports`: When they are different.
-/

namespace Codegen

open Codegen.Tree List

variable {sym : Symbol} {name : Bytes}

abbrev mainName : Bytes := "main"

abbrev memoryName : Bytes := "memory"

namespace Symbol

/-- Whether a symbol is that of a function `main` without parameters. -/
def isMain (sym : Symbol) : Bool :=
  sym.kind = .function && sym.name = mainName && sym.params.isEmpty

theorem name_of_isMain (h : sym.isMain = true) : sym.name = mainName := by
  simp only [isMain, Bool.and_eq_true, decide_eq_true_eq] at h
  exact h.1.2

end Symbol

namespace Tree

/-- Whether a statement declares a function `main` without parameters. -/
def isMain : Tree → Bool
  | .missing => false
  | .node p _ => p.kind = .funcDecl && p.name = mainName && p.params.isEmpty

/-- Whether the last statement that declares `main` is such a function. -/
def ownsMain : List Tree → Bool
  | [] => false
  | t :: ts => if ((declarations ts).map Prod.fst).contains mainName then ownsMain ts else t.isMain

/-- The functions of a program that are exported: all but its own entry. -/
def exported (ts : List Tree) : List Bytes :=
  (namesOf .function ts).filter fun name => !(name = mainName && ownsMain ts)

section Exported

variable {ts : List Tree}

theorem ownsMain_of_mem (t : Tree) (h : mainName ∈ (declarations ts).map Prod.fst) :
    ownsMain (t :: ts) = ownsMain ts := by
  rw [ownsMain, if_pos (contains_iff_mem.mpr h)]

theorem ownsMain_of_not_mem (t : Tree) (h : mainName ∉ (declarations ts).map Prod.fst) :
    ownsMain (t :: ts) = t.isMain := by
  rw [ownsMain, if_neg (mt contains_iff_mem.mp h)]

theorem mem_exported :
    name ∈ exported ts ↔
      name ∈ namesOf .function ts ∧ (name = mainName → ownsMain ts = false) := by
  rw [exported, mem_filter, Bool.not_eq_true', Bool.and_eq_false_imp, decide_eq_true_eq]

/-- Exported functions are different from each other, so it is about the other two names. -/
theorem nodup_exported (h : (namesOf .function ts).Nodup) :
    (memoryName :: (exported ts ++ [mainName])).Nodup ↔
      memoryName ∉ namesOf .function ts ∧
        (mainName ∈ namesOf .function ts → ownsMain ts = true) := by
  have hexported : (exported ts).Nodup := h.filter _
  have hne : memoryName ≠ mainName := by decide
  rw [nodup_cons, mem_append, mem_singleton, or_iff_left hne, mem_exported,
    nodup_append]
  constructor
  · rintro ⟨hmemory, -, -, hmain⟩
    refine ⟨fun hmem => hmemory ⟨hmem, fun heq => absurd heq hne⟩, fun hmem => ?_⟩
    refine (Bool.eq_false_or_eq_true _).resolve_right fun howns => ?_
    exact hmain _ (mem_exported.mpr ⟨hmem, fun _ => howns⟩) _ (mem_singleton_self _) rfl
  · rintro ⟨hmemory, hmain⟩
    refine ⟨fun hmem => hmemory hmem.1, hexported, nodup_singleton _, ?_⟩
    rintro name hname _ hmem rfl
    obtain rfl := mem_singleton.mp hmem
    obtain ⟨hmem, howns⟩ := mem_exported.mp hname
    exact Bool.noConfusion ((howns rfl).symm.trans (hmain hmem))

end Exported

end Tree

namespace Wasm

/-- The bytes that a text string stands for. -/
def unescape : Bytes → Bytes
  | [] => []
  | [b] => [b]
  | [b, c] => [b, c]
  | b :: high :: low :: rest =>
    if b = '\\'.toNat.toUInt8 then
      ((Based.value? 16 [high, low]).getD 0).toUInt8 :: unescape rest
    else b :: unescape (high :: low :: rest)

/-- The names of the exports of a module, as they are printed. -/
def Module.exports (m : Module) : List Bytes :=
  memoryName :: (m.funcs ++ m.helpers).filterMap fun f => f.exportName.map escape

section Escaping

theorem escapeByte_cases (b : UInt8) :
    escapeByte b = [b] ∧ b ≠ '\\'.toNat.toUInt8 ∨
      ∃ high low, escapeByte b = ['\\'.toNat.toUInt8, high, low] ∧
        Based.value? 16 [high, low] = some b.toNat := by
  -- For two digits there are few enough values to go through.
  have hhex : ∀ n < 256, (Bytes.hex 2 n).length = 2 ∧ Based.value? 16 (Bytes.hex 2 n) = some n := by
    decide +kernel
  unfold escapeByte
  split
  · next h =>
    simp only [Bool.and_eq_true, bne_iff_ne] at h
    exact .inl ⟨rfl, h.1.2⟩
  · obtain ⟨hlength, hvalue⟩ := hhex b.toNat b.toNat_lt
    rcases length_eq_two.mp hlength with ⟨high, low, hdigits⟩
    rw [hdigits] at hvalue ⊢
    exact .inr ⟨high, low, rfl, hvalue⟩

theorem unescape_cons {b : UInt8} (h : b ≠ '\\'.toNat.toUInt8) (rest : Bytes) :
    unescape (b :: rest) = b :: unescape rest := by
  rcases rest with _ | ⟨_, _ | _⟩
  · rfl
  · rfl
  · exact if_neg h

/-- Bytes can be told from the text string. -/
theorem unescape_escape (bytes : Bytes) : unescape (escape bytes) = bytes := by
  induction bytes with
  | nil => rfl
  | cons b rest ih =>
    rw [escape, flatMap_cons]
    rcases escapeByte_cases b with ⟨hself, hne⟩ | ⟨high, low, hdigits, hvalue⟩
    · rw [hself, singleton_append, unescape_cons hne]
      exact congrArg _ ih
    · rw [hdigits]
      change ((Based.value? 16 [high, low]).getD 0).toUInt8 :: unescape (escape rest) = _
      rw [hvalue, ih, Option.getD_some, Nat.toUInt8_eq, UInt8.ofNat_toNat]

end Escaping

/-- What the name `main` stands for after declarations, and which function is called at the end. -/
structure Mains (ts : List Tree) (userMain : Option Symbol) (before after : Scope) : Prop where
  absent : mainName ∉ (declarations ts).map Prod.fst →
    userMain = none ∧ ownsMain ts = false ∧ after.find? mainName = before.find? mainName
  present : mainName ∈ (declarations ts).map Prod.fst →
    ∃ sym, after.find? mainName = some sym ∧ sym.isMain = ownsMain ts ∧
      (sym.isMain = true → userMain = some sym)
  own : ∀ sym, userMain = some sym → sym.isMain = true

namespace Mains

variable {t : Tree} {ts : List Tree} {later : Option Symbol} {before after : Scope}

theorem skip (h : Mains ts later before after) (hdecl : t.declaration? = none)
    (hmain : t.isMain = false) : Mains (t :: ts) later before after := by
  have hnames : declarations (t :: ts) = declarations ts :=
    filterMap_cons_none hdecl
  refine ⟨fun hnot => ?_, fun hmem => ?_, h.own⟩
  · rw [hnames] at hnot
    rw [ownsMain_of_not_mem t hnot, hmain]
    obtain ⟨huser, -, hfind⟩ := h.absent hnot
    exact ⟨huser, rfl, hfind⟩
  · rw [hnames] at hmem
    rw [ownsMain_of_mem t hmem]
    exact h.present hmem

theorem cons (h : Mains ts later (sym :: before) after)
    (hdecl : t.declaration? = some (sym.name, sym.kind)) (hmain : sym.isMain = t.isMain) :
    Mains (t :: ts) (later.orElse fun _ => if sym.isMain then some sym else none) before after := by
  have hnames : (declarations (t :: ts)).map Prod.fst =
      sym.name :: (declarations ts).map Prod.fst := by
    rw [declarations, filterMap_cons_some hdecl]
    rfl
  refine ⟨fun hnot => ?_, fun hmem => ?_, fun found hfound => ?_⟩
  · rw [hnames, mem_cons, not_or] at hnot
    obtain ⟨huser, -, hfind⟩ := h.absent hnot.2
    have hother : sym.isMain = false :=
      Bool.eq_false_iff.mpr fun hown => hnot.1 (Symbol.name_of_isMain hown).symm
    rw [ownsMain_of_not_mem t hnot.2, ← hmain, hother, huser, hfind]
    refine ⟨rfl, rfl, find?_cons_of_neg ?_⟩
    exact fun heq => hnot.1 (eq_of_beq heq).symm
  · -- The last declaration of the name counts, so this one only if there is none after it.
    by_cases hlater : mainName ∈ (declarations ts).map Prod.fst
    · rcases h.present hlater with ⟨found, hfind, howns, huser⟩
      rw [ownsMain_of_mem t hlater]
      exact ⟨found, hfind, howns, fun hown => by rw [huser hown]; rfl⟩
    · obtain ⟨huser, -, hfind⟩ := h.absent hlater
      rw [hnames, mem_cons, or_iff_left hlater] at hmem
      rw [ownsMain_of_not_mem t hlater, huser]
      refine ⟨sym, hfind.trans (find?_cons_of_pos (beq_iff_eq.mpr hmem.symm)), hmain, ?_⟩
      exact fun hown => if_pos hown
  · cases later with
    | some => exact h.own found hfound
    | none =>
      by_cases hown : sym.isMain = true
      · cases (if_pos hown).symm.trans hfound
        exact hown
      · have hnone := (if_neg hown).symm.trans hfound
        cases hnone

/-- The function that is called at the end is the one that `main` stands for, if that is a
    function without parameters. -/
theorem eq_iff (h : Mains ts later before after) (hfind : after.find? name = some sym) :
    later = some sym ↔ (name = mainName && ownsMain ts) = true := by
  have hname : (sym.name == name) = true :=
    find?_some (p := fun sym : Symbol => sym.name == name) hfind
  replace hname := eq_of_beq hname
  rw [Bool.and_eq_true, decide_eq_true_eq]
  by_cases hmem : mainName ∈ (declarations ts).map Prod.fst
  · rcases h.present hmem with ⟨main, hmain, howns, huser⟩
    rw [← howns]
    constructor
    · intro hlater
      have hown := h.own sym hlater
      obtain rfl := hname.symm.trans (Symbol.name_of_isMain hown)
      cases hfind.symm.trans hmain
      exact ⟨rfl, hown⟩
    · rintro ⟨rfl, hown⟩
      exact (huser hown).trans (hmain.symm.trans hfind)
  · obtain ⟨huser, howns, -⟩ := h.absent hmem
    rw [huser, howns]
    simp

end Mains

section Modules

variable {st st' : Stage} {ts : List Tree} {userMain : Option Symbol} {fs : List (Frame × Func)}

/-- What the name `main` stands for, and which function is called at the end. -/
theorem Introduces.mains (h : Introduces ts st userMain st') (hscopes : st.2.scopes = []) :
    Mains ts userMain st.2.globals st'.2.globals := by
  have hnone (later : Option Symbol) : (later.orElse fun _ => none) = later := by
    cases later <;> rfl
  induction h with
  | nil =>
    refine ⟨fun _ => ⟨rfl, rfl, rfl⟩, fun hmem => absurd hmem not_mem_nil, fun sym hsym => ?_⟩
    cases hsym
  | @function p ts _ _ _ _ _ hkind _ ih =>
    have hmain : (functionSymbol p).isMain = isMain (.node p ts) := by
      simp only [isMain, hkind]
      rfl
    exact (ih hscopes).cons (declaration?_function ts hkind) hmain
  -- Classes and variables are no entry, but they hide one.
  | @classDecl p ts _ _ ctx later _ hkind _ ih =>
    rw [← ctx.declareGlobally_eq _ hscopes] at ih
    rw [← hnone later]
    refine (ih hscopes).cons (declaration?_class ts hkind) ?_
    simp only [isMain, hkind]
    rfl
  | @varDecl p ts _ _ _ _ later _ hkind _ _ ih =>
    rw [← hnone later]
    refine (ih hscopes).cons (declaration?_variable ts hkind) ?_
    simp only [isMain, hkind]
    rfl
  | @other p ts _ _ _ _ hkind _ ih =>
    refine (ih hscopes).skip (declaration?_other ts hkind) ?_
    have hne : p.kind ≠ .funcDecl := fun heq => absurd (heq ▸ hkind) (by decide)
    rw [isMain, decide_eq_false hne]
    rfl

theorem Functions.exports {owns : Bool} (h : Functions userMain ts st fs st')
    (hscopes : st.2.scopes = [])
    (hmain : ∀ name sym, st.2.globals.find? name = some sym →
      (userMain = some sym ↔ (name = mainName && owns) = true)) :
    fs.filterMap (fun f => f.2.exportName) =
      (namesOf .function ts).filter fun name : Bytes => !(name = mainName && owns) := by
  induction h with
  | nil => rfl
  | @function p _ _ _ _ _ _ _ _ _ hkind hdefines _ ih =>
    obtain ⟨hscopes1, hglobals1⟩ := hdefines.outside hscopes
    rw [namesOf_cons, namesOf_singleton (declaration?_function _ hkind),
      singleton_append, filter_cons, filterMap_cons,
      ih hscopes1 (hglobals1 ▸ hmain)]
    cases hdefines with
    | mk hsym _ _ _ _ _ _ hf =>
      rw [Context.lookup?_global hscopes] at hsym
      -- The entry is told by its symbol, which is that of the last declaration of the name.
      have hown := hmain p.name _ hsym
      rw [hf]
      by_cases howns : ((p.name = mainName) && owns) = true
      · simp [if_pos (hown.mpr howns), howns]
      · simp [if_neg (mt hown.mp howns), Bool.not_eq_true _ ▸ howns]
  | other hkind _ ih =>
    rw [namesOf_cons, namesOf_function_ne hkind]
    exact ih hscopes hmain

/-- The names of the exports. -/
theorem Generates.exports {root : Tree} (h : Generates root fs st) :
    (assemble st.1 st.2.data).exports.map unescape =
      memoryName :: (exported root.statements ++ [mainName]) := by
  have hfuncs := h.funcs
  have hhelpers : st.1.helpers.filterMap Func.exportName = [] := by
    rcases h.equipped with ⟨-, hhelpers⟩ | ⟨-, yes, no, hhelpers⟩ <;>
    · rw [hhelpers]
      rfl
  have hnames : fs.filterMap (fun f => f.2.exportName) =
      exported root.statements ++ [mainName] := by
    cases h with
    | mk hintroduced hfunctions hentry =>
      rcases hintroduced.introduced rfl with ⟨syms, hsyms⟩
      have hscopes := congrArg Context.scopes hsyms.context
      have hmains := hintroduced.mains rfl
      rw [filterMap_append, hfunctions.exports hscopes fun _ _ => hmains.eq_iff]
      cases hentry with
      | mk _ _ _ _ hf =>
        rw [hf]
        rfl
  unfold Module.exports
  rw [map_cons, map_filterMap]
  change _ :: (st.1.funcs ++ st.1.helpers).filterMap _ = _
  simp only [Option.map_map, Function.comp_def, unescape_escape, Option.map_id']
  rw [filterMap_append, hhelpers, append_nil, hfuncs, filterMap_map, ← hnames]
  rfl

end Modules

end Wasm

/-- A document whose functions have different names is compiled for WebAssembly. The module exports
    its memory, its functions and its entry, and no two exports have the same name if and only if
    no function is called `memory`, and a function that is called `main` has no parameters and is
    not hidden by a later declaration. -/
theorem document_exports {opts : Options} {source : Bytes} {root : Tree}
    (hopts : opts.validate = .ok ()) (htree : Document.tree source = .ok root)
    (hnodup : (namesOf .function root.statements).Nodup) :
    ∃ fs out ctx, Wasm.Generates (opts.prepared root) fs (out, ctx) ∧
      compileSource { opts with target := "wasm" } source =
        .ok ⟨(Wasm.assemble out ctx.data).text, ctx.limitations⟩ ∧
      let ts := (opts.prepared root).statements
      (Wasm.assemble out ctx.data).exports.map Wasm.unescape =
        memoryName :: (exported ts ++ [mainName]) ∧
      (((Wasm.assemble out ctx.data).exports.map Wasm.unescape).Nodup ↔
        memoryName ∉ namesOf .function ts ∧
          (mainName ∈ namesOf .function ts → ownsMain ts = true)) := by
  rcases compileSource_wasm hopts htree with ⟨fs, out, ctx, hgenerates, hcompile⟩
  have hexports := hgenerates.exports
  have hnodup : (namesOf .function (opts.prepared root).statements).Nodup :=
    hnodup.sublist (((opts.declarations_prepared htree).filter _).map _)
  refine ⟨fs, out, ctx, hgenerates, hcompile, hexports, ?_⟩
  rw [hexports]
  exact nodup_exported hnodup

namespace Sample

/-- A variable and then a function that are called `main`. -/
def entries : Bytes :=
  "(program (var \"main\" integer 1) (func \"f\" (params) void (block)) " ++
    "(func \"main\" (params) void (block)))"

/-- Functions whose names the module has for something else: the memory, the entry, and the entry
    again because the name is hidden. -/
def clashing : List Bytes :=
  ["(program (func \"memory\" (params) void (block)))",
   "(program (func \"main\" (params (param \"x\" integer)) void (block)))",
   "(program (func \"main\" (params) void (block)) (var \"main\" integer 1))"]

/-- The functions of a document have different names, and the exports of its module have not. -/
def Clashes (source : Bytes) : Prop :=
  ∃ root fs out ctx, Document.tree source = .ok root ∧
    (namesOf .function root.statements).Nodup ∧ Wasm.Generates root fs (out, ctx) ∧
    ¬ ((Wasm.assemble out ctx.data).exports.map Wasm.unescape).Nodup

end Sample

theorem document_exports_entries :
    ∃ root fs out ctx, Document.tree Sample.entries = .ok root ∧
      namesOf .function root.statements = ["f", "main"] ∧
      Wasm.Generates root fs (out, ctx) ∧
      (Wasm.assemble out ctx.data).exports.map Wasm.unescape = ["memory", "f", "main"] ∧
      ((Wasm.assemble out ctx.data).exports.map Wasm.unescape).Nodup := by
  have hread : ∃ root, Document.tree Sample.entries = .ok root ∧
      decide (namesOf .function root.statements = ["f", "main"] ∧
        ownsMain root.statements = true) = true := ok_of_any (by decide +kernel)
  rcases hread with ⟨root, htree, hread⟩
  obtain ⟨hnames, howns⟩ := of_decide_eq_true hread
  rcases @document_exports { optimize := false } _ _ rfl htree (by rw [hnames]; decide) with
    ⟨fs, out, ctx, hgenerates, -, hexports, hnodup⟩
  refine ⟨root, fs, out, ctx, htree, hnames, hgenerates, hexports.trans ?_, hnodup.mpr ⟨?_, ?_⟩⟩
  · rw [exported]
    change memoryName :: ((namesOf .function root.statements).filter
      (fun name => !(name = mainName && ownsMain root.statements)) ++ [mainName]) = _
    rw [hnames, howns]
    decide
  · change _ ∉ namesOf .function root.statements
    rw [hnames]
    decide
  · exact fun _ => howns

theorem document_exports_clashing : List.Forall Sample.Clashes Sample.clashing := by
  have hread : ∀ source ∈ Sample.clashing, ∃ root, Document.tree source = .ok root ∧
      decide ((namesOf .function root.statements).Nodup ∧
        ¬ (memoryName :: (exported root.statements ++ [mainName])).Nodup) = true := by
    intro source hsource
    refine ok_of_any ?_
    revert source
    decide +kernel
  refine forall_iff_forall_mem.mpr fun source hsource => ?_
  rcases hread source hsource with ⟨root, htree, hread⟩
  obtain ⟨hnodup, hclash⟩ := of_decide_eq_true hread
  rcases @compileSource_wasm { optimize := false } _ _ rfl htree with ⟨fs, out, ctx, hgenerates, -⟩
  refine ⟨root, fs, out, ctx, htree, hnodup, hgenerates, ?_⟩
  rw [hgenerates.exports]
  exact hclash

end Codegen
