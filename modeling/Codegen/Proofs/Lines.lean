import Codegen.Proofs.Arm64.Marks
import Codegen.Proofs.Comments
import Codegen.Proofs.Mangling
import Codegen.Proofs.Wasm.Uses

/-!
# Lines of Code and Lines of Text

Code is a list of lines, and so is the text that it is printed as. A line of code is printed as
pieces of text with the end of a line behind each of them, and the lines of the whole text are the
lines of these pieces. Where a piece has no newline it is one line, and what is known of the lines
of code is known of the text. All pieces are of this kind but remarks and symbols, and symbols are
so by mangling. A remark has the names and operators of the program as they are, and so it may be
printed as any lines whatever. These may define a label or a symbol once more, or end a block.
-/

namespace Codegen

open List

namespace Bytes

variable {text : Bytes}

theorem lines_of_not_mem (h : newline ∉ text) : text.lines = [text] := by
  unfold lines
  induction text with
  | nil => rfl
  | cons b rest ih =>
    obtain ⟨hb, hrest⟩ := not_or.mp (mem_cons.not.mp h)
    rw [splitOn, if_neg (Ne.symm hb), ih hrest]

/-- A newline ends a line and begins the next. -/
theorem lines_append_newline (text rest : Bytes) :
    (text ++ newline :: rest).lines = text.lines ++ rest.lines := by
  unfold lines
  induction text with
  | nil => simp [splitOn]
  | cons b text ih =>
    rw [cons_append, splitOn, splitOn, ih]
    split
    · rfl
    · cases htext : splitOn newline text with
      | nil =>
        have hlength := length_lines text
        rw [lines, htext] at hlength
        cases hlength
      | cons => rfl

/-- Pieces of text, each with the end of a line behind it. -/
def unlines (pieces : List Bytes) : Bytes := pieces.flatMap (· ++ [newline])

/-- The lines of a text that is put together of pieces are those of the pieces. -/
theorem lines_unlines_append (pieces : List Bytes) (rest : Bytes) :
    (unlines pieces ++ rest).lines = pieces.flatMap lines ++ rest.lines := by
  induction pieces with
  | nil => rfl
  | cons piece pieces ih =>
    rw [unlines, flatMap_cons, append_assoc, append_assoc, singleton_append, lines_append_newline]
    rw [unlines] at ih
    rw [ih, flatMap_cons, append_assoc]

theorem flatMap_lines_of_not_mem {pieces : List Bytes} (h : ∀ piece ∈ pieces, newline ∉ piece) :
    pieces.flatMap lines = pieces := by
  induction pieces with
  | nil => rfl
  | cons piece pieces ih =>
    obtain ⟨hpiece, hpieces⟩ := forall_mem_cons.mp h
    rw [flatMap_cons, lines_of_not_mem hpiece, ih hpieces, singleton_append]

theorem newline_not_mem_ofNat (n : Nat) : newline ∉ ofNat n := fun h =>
  absurd (isDigitByte_ofNat h) (by decide)

theorem newline_not_mem_ofInt (n : Int) : newline ∉ ofInt n := by
  cases n with
  | ofNat n => exact newline_not_mem_ofNat n
  | negSucc n => simpa [ofInt, newline] using newline_not_mem_ofNat (n + 1)

end Bytes

/-- The symbols of a program have no newlines. -/
theorem newline_not_mem_mangle (name : Bytes) : Bytes.newline ∉ mangle name := by
  rw [mangle_eq]
  refine mem_flatMap.not.mpr fun ⟨code, hcode, h⟩ => ?_
  have hsymbol := all_mangleCode (codes_lt name code hcode) _ h
  exact absurd hsymbol (by decide)

namespace Arm64

variable {flavor : Flavor}

/-- The lines that a line of code is printed as, without their ends. -/
def Line.pieces (flavor : Flavor) : Line → List Bytes
  | .instr i => ["\t" ++ i.text flavor]
  | .label l => [flavor.label l ++ ":"]
  | .comment text => ["\t// " ++ text]
  | .routine symbol exported =>
    let exporting : List Bytes := if exported then ["\t.globl " ++ flavor.symbol symbol] else []
    [] :: exporting ++ ([("\t.p2align 2" : Bytes), flavor.symbol symbol ++ ":"] : List Bytes)

/-- Printing a line prints its pieces. -/
theorem unlines_pieces (flavor : Flavor) (l : Line) :
    Bytes.unlines (l.pieces flavor) = l.text flavor := by
  have hend : ("\n" : Bytes) = [Bytes.newline] := rfl
  have hcolon : (":\n" : Bytes) = ":" ++ [Bytes.newline] := rfl
  have halign : ("\t.p2align 2\n" : Bytes) = "\t.p2align 2" ++ [Bytes.newline] := rfl
  cases l with
  | routine symbol exported =>
    cases exported <;> simp [Bytes.unlines, Line.pieces, Line.text, hend, hcolon, halign]
  | _ => simp [Bytes.unlines, Line.pieces, Line.text, hend, hcolon]

/-- The lines before the code. -/
def Program.opening (flavor : Flavor) : List Bytes :=
  [("// generated by kwc for aarch64" : Bytes), flavor.textSection.dropLast]

/-- What comes after the code. -/
def Program.sections (flavor : Flavor) (p : Program) : Bytes :=
  sectionText flavor.constSection (p.constantsText flavor)
    ++ sectionText flavor.zeroSection (p.storageText flavor)
    ++ sectionText flavor.textSection (p.helpers.text flavor)

/-- The lines of a program are those that its lines of code are printed as. -/
theorem Program.lines_text (flavor : Flavor) (p : Program) :
    (p.text flavor).lines =
      (opening flavor ++ p.code.flatMap (Line.pieces flavor)).flatMap Bytes.lines
        ++ (p.sections flavor).lines := by
  have hcode : p.code.text flavor = Bytes.unlines (p.code.flatMap (Line.pieces flavor)) := by
    rw [Bytes.unlines, flatMap_assoc, Code.text]
    exact flatMap_congr fun l _ => (unlines_pieces flavor l).symm
  have hopening : "// generated by kwc for aarch64\n" ++ flavor.textSection =
      Bytes.unlines (opening flavor) := by cases flavor <;> rfl
  rw [← Bytes.lines_unlines_append, Bytes.unlines, flatMap_append]
  rw [text, hopening, hcode, sections]
  simp only [Bytes.unlines, append_assoc]

section Plain

variable {i : Instr}

theorem newline_not_mem_join {sep : Bytes} {pieces : List Bytes} (hsep : Bytes.newline ∉ sep)
    (h : ∀ piece ∈ pieces, Bytes.newline ∉ piece) : Bytes.newline ∉ Bytes.join sep pieces := by
  fun_induction Bytes.join sep pieces <;> simp_all

theorem newline_not_mem_operation {mnemonic : Bytes} {operands : List Bytes}
    (hmnemonic : Bytes.newline ∉ mnemonic) (h : ∀ operand ∈ operands, Bytes.newline ∉ operand) :
    Bytes.newline ∉ operation mnemonic operands := by
  have hjoin := newline_not_mem_join (by decide : Bytes.newline ∉ (", " : Bytes)) h
  have hspace : Bytes.newline ∉ (" " : Bytes) := by decide
  simp [operation, hmnemonic, hspace, hjoin]

theorem newline_not_mem_label (flavor : Flavor) (l : Label) : Bytes.newline ∉ flavor.label l := by
  have hid := Bytes.newline_not_mem_ofNat l.id
  cases flavor <;> exact mem_append.not.mpr (not_or.mpr ⟨by decide, hid⟩)

theorem newline_not_mem_reg (r : Reg) : Bytes.newline ∉ r.text := by
  cases r with
  | x n => exact mem_append.not.mpr (not_or.mpr ⟨by decide, Bytes.newline_not_mem_ofNat n⟩)
  | sp => decide

theorem newline_not_mem_addr (addr : Addr) : Bytes.newline ∉ addr.text := by
  have hplain : ∀ s ∈ (["[", "]", ", #", ", #-", "]!", "], #", ", ", ", lsl #3]"] : List String),
      Bytes.newline ∉ Bytes.ofString s := by decide
  cases addr <;> simp_all [Addr.text, newline_not_mem_reg, Bytes.newline_not_mem_ofNat,
    Bytes.newline_not_mem_ofInt]

/-- An instruction is printed on one line, unless it names a symbol that has newlines. -/
theorem newline_not_mem_instr
    (h : ∀ symbol, (Line.instr i).mark? = some (.uses symbol) → Bytes.newline ∉ symbol) :
    Bytes.newline ∉ i.text flavor := by
  have hliterals : ∀ s ∈ (["#", "lsl #", "d", "_", "@PAGE", "@PAGEOFF", ":lo12:"] : List String),
      Bytes.newline ∉ Bytes.ofString s := by decide
  simp only [forall_mem_cons, not_mem_nil, false_imp_iff, implies_true, and_true] at hliterals
  have hcond (c : Cond) : Bytes.newline ∉ c.text := by cases c <;> decide
  cases i with
  | ret => exact (by decide : Bytes.newline ∉ ("ret" : Bytes))
  | word op | float op =>
    refine newline_not_mem_operation (by cases op <;> decide) ?_
    simp [floatReg, hliterals, newline_not_mem_reg, Bytes.newline_not_mem_ofNat]
  | branchIf cond target =>
    refine newline_not_mem_operation (by cases cond <;> decide) ?_
    simp [newline_not_mem_label]
  | adrp _ symbol | addPageOffset _ _ symbol | bl symbol =>
    have hsymbol := h symbol rfl
    refine newline_not_mem_operation (by decide) ?_
    cases flavor <;> simp [Flavor.page, Flavor.pageOffset, Flavor.symbol, hliterals, hsymbol,
      newline_not_mem_reg]
  | _ =>
    refine newline_not_mem_operation (by decide) ?_
    simp [immediate, floatReg, hliterals, hcond, newline_not_mem_reg, newline_not_mem_addr,
      newline_not_mem_label, Bytes.newline_not_mem_ofNat, Bytes.newline_not_mem_ofInt]

/-- So is any line of code but the beginning of a routine, unless it is a remark that has. -/
theorem newline_not_mem_pieces {l : Line}
    (huses : ∀ symbol, l.mark? = some (.uses symbol) → Bytes.newline ∉ symbol)
    (hbegins : ∀ symbol, l.mark? = some (.begins symbol) → Bytes.newline ∉ symbol)
    (hremark : ∀ body, l.remark? = some body → Bytes.newline ∉ body) :
    ∀ piece ∈ l.pieces flavor, Bytes.newline ∉ piece := by
  have hliterals : ∀ s ∈ (["\t", ":", "\t// ", "\t.globl ", "\t.p2align 2", "_"] : List String),
      Bytes.newline ∉ Bytes.ofString s := by decide
  cases l with
  | instr i => simp_all [Line.pieces, newline_not_mem_instr huses]
  | label l => simp_all [Line.pieces, newline_not_mem_label]
  | comment text =>
    have hbody := hremark text rfl
    simp_all [Line.pieces]
  | routine symbol exported =>
    have hsymbol := hbegins symbol rfl
    cases exported <;> cases flavor <;> simp_all [Line.pieces, Flavor.symbol]

/-- If neither a remark nor a symbol has newlines, the lines of an output up to its constants are
    its lines of code. -/
theorem Output.lines_text_plain {out : Output}
    (hsymbols : ∀ symbol ∈ uses out.code ++ begun out.code, Bytes.newline ∉ symbol)
    (hremarks : ∀ body ∈ out.remarks, Bytes.newline ∉ body) :
    (out.text flavor).lines = Program.opening flavor ++ out.code.flatMap (Line.pieces flavor)
      ++ (out.sections flavor).lines := by
  rw [Program.lines_text, Bytes.flatMap_lines_of_not_mem]
  refine forall_mem_append.mpr ⟨by cases flavor <;> decide, fun piece hpiece => ?_⟩
  rcases mem_flatMap.mp hpiece with ⟨l, hl, hpiece⟩
  have hmark {mark : Mark} (h : l.mark? = some mark) : mark ∈ marks out.code :=
    mem_filterMap.mpr ⟨l, hl, h⟩
  refine newline_not_mem_pieces (fun symbol h => hsymbols symbol ?_)
    (fun symbol h => hsymbols symbol ?_) (fun body h => hremarks body ?_) piece hpiece
  · exact mem_append_left _ (mem_filterMap.mpr ⟨_, hmark h, rfl⟩)
  · exact mem_append_right _ (mem_filterMap.mpr ⟨_, hmark h, rfl⟩)
  · exact mem_flatMap.mpr ⟨l, hl, Option.mem_toList.mpr h⟩

end Plain

end Arm64

namespace Wasm

/-- A line as it is printed, without its end. -/
def Line.piece (l : Line) : Bytes := replicate (2 * l.depth) ' '.toNat.toUInt8 ++ l.text

/-- The lines of a module are those that its lines are printed as. -/
theorem Module.lines_text (m : Module) :
    m.text.lines = (m.lines.map Line.piece).flatMap Bytes.lines ++ [[]] := by
  have htext : m.text = Bytes.unlines (m.lines.map Line.piece) ++ [] := by
    rw [Bytes.unlines, flatMap_map, append_nil]
    rfl
  rw [htext, Bytes.lines_unlines_append]
  rfl

theorem newline_not_mem_piece {l : Line} (h : Bytes.newline ∉ l.text) :
    Bytes.newline ∉ l.piece := by
  refine mem_append.not.mpr (not_or.mpr ⟨fun hspace => ?_, h⟩)
  exact absurd (eq_of_mem_replicate hspace) (by decide)

/-- The name that is referred to. -/
def Use.name : Use → Bytes
  | .function name | .global name => name

theorem newline_not_mem_labelText (l : Label) : Bytes.newline ∉ labelText l := by
  have hid := Bytes.newline_not_mem_ofNat l.id
  have hliterals : ∀ s ∈ (["$", "L"] : List String), Bytes.newline ∉ Bytes.ofString s := by decide
  simp_all [labelText, Label.text]

theorem newline_not_mem_escape (bytes : Bytes) : Bytes.newline ∉ escape bytes := by
  have hbyte : ∀ n < 256, Bytes.newline ∉ escapeByte n.toUInt8 := by decide +kernel
  refine mem_flatMap.not.mpr fun ⟨b, _, h⟩ => hbyte b.toNat b.toNat_lt ?_
  rwa [Nat.toUInt8_eq, UInt8.ofNat_toNat]

mutual

/-- An instruction is printed on lines of its own, unless it names something that has newlines. -/
theorem newline_not_mem_instrLines (depth : Nat) : (i : Instr) →
    (∀ use ∈ i.uses, Bytes.newline ∉ use.name) → (∀ body ∈ i.remarks, Bytes.newline ∉ body) →
    ∀ l ∈ i.lines depth, Bytes.newline ∉ l.text
  | .block label body, hnames, hremarks | .loop label body, hnames, hremarks => by
    have hbody := newline_not_mem_bodyLines (depth + 1) body
      (by simpa [Instr.uses] using hnames) (by simpa [Instr.remarks] using hremarks)
    have hlabel := newline_not_mem_labelText label
    have hliterals : ∀ s ∈ (["block ", "loop ", "end"] : List String),
        Bytes.newline ∉ Bytes.ofString s := by decide
    simp_all [Instr.lines, or_imp, forall_and]
  | .cond yes none, hnames, hremarks => by
    have hyes := newline_not_mem_bodyLines (depth + 1) yes
      (by simpa [Instr.uses] using hnames) (by simpa [Instr.remarks] using hremarks)
    have hliterals : ∀ s ∈ (["if", "end"] : List String),
        Bytes.newline ∉ Bytes.ofString s := by decide
    simp_all [Instr.lines, or_imp, forall_and]
  | .cond yes (some no), hnames, hremarks => by
    rw [Instr.uses] at hnames
    rw [Instr.remarks] at hremarks
    obtain ⟨hnames, hnames'⟩ := forall_mem_append.mp hnames
    obtain ⟨hremarks, hremarks'⟩ := forall_mem_append.mp hremarks
    have hyes := newline_not_mem_bodyLines (depth + 1) yes hnames hremarks
    have hno := newline_not_mem_bodyLines (depth + 1) no hnames' hremarks'
    have hliterals : ∀ s ∈ (["if", "else", "end"] : List String),
        Bytes.newline ∉ Bytes.ofString s := by decide
    simp_all [Instr.lines, or_imp, forall_and]
  | .call name, hnames, _ | .globalGet name, hnames, _ | .globalSet name, hnames, _ => by
    have hliterals : ∀ s ∈ (["call ", "global.get ", "global.set "] : List String),
        Bytes.newline ∉ Bytes.ofString s := by decide
    simp_all [Instr.lines, Instr.uses, Use.name]
  | .comment text, _, hremarks => by
    have hmark : Bytes.newline ∉ (";; " : Bytes) := by decide
    simp_all [Instr.lines, Instr.remarks]
  | .num op, _, _ => by
    have hop : Bytes.newline ∉ op.text := by cases op <;> decide
    simpa [Instr.lines] using hop
  | .const _, _, _ | .const32 _, _, _ | .localGet _, _, _ | .localSet _, _, _ | .localTee _, _, _
  | .load, _, _ | .store, _, _ | .drop, _, _ | .nop, _, _ | .ret, _, _ | .br _, _, _
  | .brIf _, _, _ => by
    have hliterals : ∀ s ∈ (["i64.const ", "i32.const ", "local.get ", "local.set ", "local.tee ",
      "i64.load", "i64.store", "drop", "nop", "return", "br ", "br_if "] : List String),
        Bytes.newline ∉ Bytes.ofString s := by decide
    simp_all [Instr.lines, Bytes.newline_not_mem_ofNat, Bytes.newline_not_mem_ofInt,
      newline_not_mem_labelText]

theorem newline_not_mem_bodyLines (depth : Nat) : (c : Code) →
    (∀ use ∈ uses c, Bytes.newline ∉ use.name) → (∀ body ∈ remarksAll c, Bytes.newline ∉ body) →
    ∀ l ∈ bodyLines depth c, Bytes.newline ∉ l.text
  | [], _, _ => by simp [bodyLines]
  | i :: rest, hnames, hremarks => by
    rw [uses_cons] at hnames
    rw [remarksAll] at hremarks
    obtain ⟨hname, hnames⟩ := forall_mem_append.mp hnames
    obtain ⟨hremark, hremarks⟩ := forall_mem_append.mp hremarks
    rw [bodyLines]
    exact forall_mem_append.mpr ⟨newline_not_mem_instrLines depth i hname hremark,
      newline_not_mem_bodyLines depth rest hnames hremarks⟩

end

theorem newline_not_mem_funcLines {f : Func} (hname : Bytes.newline ∉ f.name)
    (hnames : ∀ use ∈ uses f.body, Bytes.newline ∉ use.name)
    (hremarks : ∀ body ∈ remarksAll f.body, Bytes.newline ∉ body) :
    ∀ l ∈ f.lines, Bytes.newline ∉ l.text := by
  have hbody := newline_not_mem_bodyLines 2 f.body hnames hremarks
  have hliterals : ∀ s ∈ (["(func ", " (export \"", "\")", " (param i64)", " (result i64)",
      "(local", " i64", ")"] : List String), Bytes.newline ∉ Bytes.ofString s := by decide
  have hheader : Bytes.newline ∉ f.header := by
    cases hexport : f.exportName <;> cases hresult : f.hasResult <;>
      simp_all [Func.header, newline_not_mem_escape]
  by_cases hlocals : f.locals = 0 <;> simp_all [Func.lines, or_imp, forall_and]

/-- If neither a remark nor a name has newlines, the lines of a module are the structured ones. -/
theorem Module.lines_text_plain {m : Module} (hglobals : ∀ name ∈ m.globals, Bytes.newline ∉ name)
    (hfuncs : ∀ f ∈ m.funcs ++ m.helpers, Bytes.newline ∉ f.name ∧
      (∀ use ∈ uses f.body, Bytes.newline ∉ use.name) ∧
      ∀ body ∈ remarksAll f.body, Bytes.newline ∉ body) :
    m.text.lines = m.lines.map Line.piece ++ [[]] := by
  have hliterals : ∀ s ∈ (["(memory (export \"memory\") ", ")", "(data (i32.const 0) \"", "\")",
      "(global ", " (mut i64) (i64.const 0))"] : List String),
      Bytes.newline ∉ Bytes.ofString s := by decide
  have himports : ∀ l ∈ m.preamble, Bytes.newline ∉ l.text := by
    have hfixed : ∀ s ∈ (["(module", "(import \"env\" \"print_i64\" (func $print_i64 (param i64)))",
        "(import \"env\" \"print_str\" (func $print_str (param i32 i32)))"] : List String),
        Bytes.newline ∉ Bytes.ofString s := by decide
    simp_all [preamble, Bytes.newline_not_mem_ofInt]
  have hending : ∀ l ∈ m.ending, Bytes.newline ∉ l.text := by
    unfold ending
    split <;> simp_all [newline_not_mem_escape]
  rw [lines_text, Bytes.flatMap_lines_of_not_mem]
  refine forall_mem_map.mpr fun l hl => newline_not_mem_piece ?_
  simp only [lines, mem_append, mem_map, mem_flatMap] at hl
  rcases hl with (((hl | ⟨name, hname, rfl⟩) | ⟨f, hf, hl⟩) | ⟨f, hf, hl⟩) | hl
  · exact himports l hl
  · have hplain := hglobals name hname
    simp_all [globalLine]
  · obtain ⟨hname, hnames, hremarks⟩ := hfuncs f (mem_append_left _ hf)
    exact newline_not_mem_funcLines hname hnames hremarks l hl
  · obtain ⟨hname, hnames, hremarks⟩ := hfuncs f (mem_append_right _ hf)
    exact newline_not_mem_funcLines hname hnames hremarks l hl
  · exact hending l hl

end Wasm

namespace Sample

/-- A class and a function. -/
def beside (name : Bytes) : Bytes :=
  "(program (func \"f\" (params) void (block)) (block (class \"" ++ name ++ "\" (fields))))"

/-- The lines of an output that begin with this, without the blanks before it. -/
def beginning (mark : Bytes) (g : Generated) : List Bytes :=
  (g.text.lines.map fun line => line.dropWhile fun b => b = ' '.toNat.toUInt8
    || b = '\t'.toNat.toUInt8).filter mark.isPrefixOf

end Sample

/-- The symbol of a function is defined twice. -/
theorem document_symbols_injected :
    ((compileSource {} (Sample.beside "a\nfn_f:\n\t//")).toOption.any fun g =>
      (Sample.beginning "fn_f:" g).length = 2) = true ∧
    ((compileSource { target := "wasm" } (Sample.beside "a\n(func $fn_f)\n;;")).toOption.any
      fun g => (Sample.beginning "(func $fn_f" g).length = 2) = true := by
  decide +kernel

end Codegen
