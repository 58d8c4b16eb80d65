import Codegen.Proofs.Outputs
import Mathlib.Algebra.GroupWithZero.Nat

/-!
# Comments in the Output

Where a construct is left out, a comment says so, and the names, operators and types in it are
those of the document. They are written as they are. A comment ends with its line, so what is
in a name after a newline is no longer part of the comment: it is a line of the output.

This module leaves the bodies of all comments out of an output and compares the texts. They
differ in the bodies and in nothing else, and they have the same number of lines exactly if no
body has a newline in it.

## Theorems

* `document_comments`: The comments in the outputs of a document.
-/

namespace Codegen

open List

/-- A text, the bodies of its comments in order, and the text without them. A body stands
    between the mark that begins a comment and the end of a line. -/
inductive Commented (mark : Bytes) : List Bytes → Bytes → Bytes → Prop where
  | plain (text : Bytes) : Commented mark [] text text
  | comment (before body : Bytes) {bodies : List Bytes} {text blank : Bytes}
      (h : Commented mark bodies text blank) :
      Commented mark (body :: bodies) (before ++ mark ++ body ++ "\n" ++ text)
        (before ++ mark ++ "\n" ++ blank)

namespace Commented

variable {mark text text' blank blank' : Bytes} {bodies bodies' : List Bytes}

theorem prepend (before : Bytes) (h : Commented mark bodies text blank) :
    Commented mark bodies (before ++ text) (before ++ blank) := by
  cases h with
  | plain text => exact .plain (before ++ text)
  | comment before' body h =>
    simpa using comment (before ++ before') body h

theorem append (h : Commented mark bodies text blank) (h' : Commented mark bodies' text' blank') :
    Commented mark (bodies ++ bodies') (text ++ text') (blank ++ blank') := by
  induction h with
  | plain text => exact h'.prepend text
  | comment before body h ih =>
    simpa using comment before body ih

theorem flatMap {α : Type} {remarks : α → List Bytes} {print print' : α → Bytes}
    (h : ∀ a, Commented mark (remarks a) (print a) (print' a)) (as : List α) :
    Commented mark (as.flatMap remarks) (as.flatMap print) (as.flatMap print') := by
  induction as with
  | nil => exact .plain []
  | cons a _ ih => exact (h a).append ih

/-- The newlines of a text that has comments are those of their bodies and the others. -/
theorem count_newline (h : Commented mark bodies text blank) :
    text.count Bytes.newline =
      blank.count Bytes.newline + (bodies.map (count Bytes.newline)).sum := by
  induction h with
  | plain => rfl
  | comment _ _ _ ih =>
    simp only [count_append, map_cons, sum_cons]
    omega

end Commented

theorem Bytes.length_lines (text : Bytes) : text.lines.length = text.count newline + 1 := by
  unfold lines
  induction text with
  | nil => rfl
  | cons b rest ih =>
    rw [splitOn]
    by_cases hb : b = newline
    · simp [hb, ih]
    · rw [if_neg hb]
      split
      · next hnone => simp [hnone] at ih
      · next piece pieces hsome => simpa [hsome, hb] using ih

/-- Leaving bodies out keeps lines if they have no newlines. -/
theorem Commented.lines_eq_iff {mark text blank : Bytes} {bodies : List Bytes}
    (h : Commented mark bodies text blank) :
    text.lines.length = blank.lines.length ↔ ∀ body ∈ bodies, Bytes.newline ∉ body := by
  have hnone : (bodies.map (count Bytes.newline)).sum = 0 ↔
      ∀ body ∈ bodies, Bytes.newline ∉ body := by
    simp [List.sum_eq_zero_iff_forall_eq_nat, List.count_eq_zero]
  rw [Bytes.length_lines, Bytes.length_lines, h.count_newline, ← hnone]
  omega

namespace Arm64

def Line.remark? : Line → Option Bytes
  | .comment text => some text
  | _ => none

/-- A line without the body of a comment. -/
def Line.blanked : Line → Line
  | .comment _ => .comment []
  | line => line

def Output.remarks (out : Output) : List Bytes := out.code.flatMap fun l => l.remark?.toList

/-- An output without the bodies of its comments. -/
def Output.blanked (out : Output) : Output := { out with code := out.code.map Line.blanked }

theorem commented_line (flavor : Flavor) (l : Line) :
    Commented "\t// " l.remark?.toList (l.text flavor) (l.blanked.text flavor) := by
  cases l with
  | comment text =>
    simpa [Line.text, Line.blanked, Line.remark?] using Commented.comment [] text (.plain [])
  | _ => exact .plain _

/-- Leaving out the bodies of comments in an output. -/
theorem commented_text (flavor : Flavor) (out : Output) :
    Commented "\t// " out.remarks (out.text flavor) (out.blanked.text flavor) := by
  have hcode : Commented "\t// " out.remarks (out.code.text flavor)
      (Code.text flavor (out.code.map Line.blanked)) := by
    unfold Code.text
    rw [flatMap_map]
    exact .flatMap (commented_line flavor) out.code
  have hall := (hcode.append (.plain (Program.sectionText flavor.constSection (out.constantsText flavor)
    ++ Program.sectionText flavor.zeroSection (out.storageText flavor)
    ++ Program.sectionText flavor.textSection (out.helpers.text flavor)))).prepend
      ("// generated by kwc for aarch64\n" ++ flavor.textSection)
  simp only [Program.text, append_assoc, append_nil] at hall ⊢
  exact hall

end Arm64

namespace Wasm

mutual

def Instr.remarks : Instr → List Bytes
  | .block _ body | .loop _ body | .cond body none => remarksAll body
  | .cond yes (some no) => remarksAll yes ++ remarksAll no
  | .comment text => [text]
  | _ => []

def remarksAll : Code → List Bytes
  | [] => []
  | i :: rest => i.remarks ++ remarksAll rest

end

mutual

def Instr.blanked : Instr → Instr
  | .block label body => .block label (blankedAll body)
  | .loop label body => .loop label (blankedAll body)
  | .cond yes none => .cond (blankedAll yes) none
  | .cond yes (some no) => .cond (blankedAll yes) (some (blankedAll no))
  | .comment _ => .comment []
  | i => i

/-- A fragment without the bodies of comments. -/
def blankedAll : Code → Code
  | [] => []
  | i :: rest => i.blanked :: blankedAll rest

end

def Func.blanked (f : Func) : Func := { f with body := blankedAll f.body }

def Output.remarks (out : Output) : List Bytes := out.funcs.flatMap fun f => remarksAll f.body

/-- An output without the bodies of its comments. -/
def Output.blanked (out : Output) : Output := { out with funcs := out.funcs.map Func.blanked }

theorem Commented.between {bodies : List Bytes} {ls ls' : List Line} (first last : List Line)
    (h : Commented ";; " bodies (ls.flatMap Line.print) (ls'.flatMap Line.print)) :
    Commented ";; " bodies ((first ++ (ls ++ last)).flatMap Line.print)
      ((first ++ (ls' ++ last)).flatMap Line.print) := by
  simp only [flatMap_append]
  simpa using (h.append (.plain _)).prepend (first.flatMap Line.print)

mutual

theorem commented_instr (depth : Nat) : (i : Instr) →
    Commented ";; " i.remarks ((i.lines depth).flatMap Line.print)
      ((i.blanked.lines depth).flatMap Line.print)
  | .block _ body | .loop _ body | .cond body none =>
    Commented.between [_] [_] (commented_body (depth + 1) body)
  | .cond yes (some no) => by
    have hno := Commented.between [⟨depth, "else"⟩] [⟨depth, "end"⟩] (commented_body (depth + 1) no)
    have hyes := (commented_body (depth + 1) yes).append hno
    rw [← flatMap_append, ← flatMap_append] at hyes
    exact hyes.prepend (Line.print ⟨depth, "if"⟩)
  | .comment text => by
    simpa [Instr.lines, Line.print, Instr.remarks, Instr.blanked] using Commented.comment
      (replicate (2 * depth) ' '.toNat.toUInt8) text (.plain [])
  | .const _ | .const32 _ | .num _ | .localGet _ | .localSet _ | .localTee _ | .globalGet _
  | .globalSet _ | .load | .store | .call _ | .drop | .nop | .ret | .br _ | .brIf _ => .plain _

theorem commented_body (depth : Nat) : (c : Code) →
    Commented ";; " (remarksAll c) ((bodyLines depth c).flatMap Line.print)
      ((bodyLines depth (blankedAll c)).flatMap Line.print)
  | [] => .plain []
  | i :: rest => by
    simpa only [bodyLines, remarksAll, blankedAll, flatMap_append] using
      (commented_instr depth i).append (commented_body depth rest)

end

theorem commented_func (f : Func) : Commented ";; " (remarksAll f.body)
    (f.lines.flatMap Line.print) (f.blanked.lines.flatMap Line.print) := by
  have hbody := Commented.between (⟨1, f.header⟩ :: if f.locals = 0 then []
    else [⟨2, "(local" ++ (replicate f.locals (" i64" : Bytes)).flatten ++ ")"⟩]) [⟨1, ")"⟩]
    (commented_body 2 f.body)
  simp only [Func.lines, append_assoc] at hbody ⊢
  exact hbody

/-- Leaving out the bodies of comments in a module. -/
theorem commented_text (out : Output) (data : DataSegment) :
    Commented ";; " out.remarks (assemble out data).text (assemble out.blanked data).text := by
  have hfuncs := Commented.flatMap commented_func out.funcs
  rw [← flatMap_assoc, ← flatMap_assoc, ← flatMap_map Func.blanked] at hfuncs
  have hall := Commented.between
    ((assemble out data).preamble ++ out.globals.map Module.globalLine)
    (out.helpers.flatMap Func.lines ++ (assemble out data).ending) hfuncs
  simp only [Module.text, Module.lines, append_assoc] at hall ⊢
  exact hall

end Wasm

namespace Sample

/-- A program in which a class is declared inside of a block. -/
def classy (name : Bytes) : Bytes := "(program (block (class \"" ++ name ++ "\" (fields))))"

end Sample

/-- The outputs of a document and the same outputs without the bodies of their comments differ
    in these and in nothing else, and they have as many lines exactly if no body has a newline
    in it. -/
theorem document_comments {opts : Options} {source : Bytes} {root : Tree}
    (hopts : opts.validate = .ok ()) (htree : Document.tree source = .ok root) :
    (∃ fs out ctx, Arm64.Generates (.ofOs opts.os) (opts.prepared root) fs (out, ctx) ∧
      compileSource { opts with target := "arm64" } source =
        .ok ⟨out.text (.ofOs opts.os), ctx.limitations⟩ ∧
      Commented "\t// " out.remarks (out.text (.ofOs opts.os)) (out.blanked.text (.ofOs opts.os)) ∧
      ((out.text (.ofOs opts.os)).lines.length = (out.blanked.text (.ofOs opts.os)).lines.length ↔
        ∀ body ∈ out.remarks, Bytes.newline ∉ body)) ∧
    ∃ fs out ctx, Wasm.Generates (opts.prepared root) fs (out, ctx) ∧
      compileSource { opts with target := "wasm" } source =
        .ok ⟨(Wasm.assemble out ctx.data).text, ctx.limitations⟩ ∧
      Commented ";; " out.remarks (Wasm.assemble out ctx.data).text
        (Wasm.assemble out.blanked ctx.data).text ∧
      ((Wasm.assemble out ctx.data).text.lines.length =
          (Wasm.assemble out.blanked ctx.data).text.lines.length ↔
        ∀ body ∈ out.remarks, Bytes.newline ∉ body) := by
  rcases compileSource_arm64 hopts htree with ⟨fs, out, ctx, hfs, harm⟩
  rcases compileSource_wasm hopts htree with ⟨fs', out', ctx', hfs', hwasm⟩
  have hcommented := Arm64.commented_text (.ofOs opts.os) out
  have hcommented' := Wasm.commented_text out' ctx'.data
  exact ⟨⟨fs, out, ctx, hfs, harm, hcommented, hcommented.lines_eq_iff⟩,
    fs', out', ctx', hfs', hwasm, hcommented', hcommented'.lines_eq_iff⟩

theorem document_comments_classy :
    ∃ root fs out ctx, Document.tree (Sample.classy "a") = .ok root ∧
      Arm64.Generates .linux (({} : Options).prepared root) fs (out, ctx) ∧
      Commented "\t// " out.remarks (out.text .linux) (out.blanked.text .linux) := by
  have hread : ∃ root, Document.tree (Sample.classy "a") = .ok root ∧ true = true :=
    ok_of_any (by decide +kernel)
  rcases hread with ⟨root, htree, -⟩
  rcases @document_comments {} _ _ rfl htree with ⟨⟨fs, out, ctx, hfs, -, hcommented, -⟩, -⟩
  exact ⟨root, fs, out, ctx, htree, hfs, hcommented⟩

/-- Names that become lines. -/
theorem document_comments_injected :
    ((compileSource {} (Sample.classy "a\nb")).toOption.any fun g =>
      g.text.lines.contains "b: 0 fields") = true ∧
    ((compileSource { target := "wasm" } (Sample.classy "a\nb")).toOption.any fun g =>
      g.text.lines.contains "b: 0 fields") = true := by
  decide +kernel

end Codegen
