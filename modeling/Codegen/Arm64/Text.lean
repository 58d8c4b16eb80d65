import Codegen.Arm64.Instr

/-!
# AArch64 Assembly Text

The text of a program for the two object formats. They differ in the decoration
of symbols and local labels, in how the page of a symbol is written, and in the
names of sections.
-/

namespace Codegen.Arm64

/-- The object formats. -/
inductive Flavor where
  | linux
  | darwin
  deriving DecidableEq, Repr, Inhabited

namespace Flavor

def symbol : Flavor → Bytes → Bytes
  | .linux, name => name
  | .darwin, name => "_" ++ name

def label : Flavor → Label → Bytes
  | .linux, l => ".Lkw" ++ Bytes.ofNat l.id
  | .darwin, l => "Lkw" ++ Bytes.ofNat l.id

def page : Flavor → Bytes → Bytes
  | .linux, name => name
  | .darwin, name => "_" ++ name ++ "@PAGE"

def pageOffset : Flavor → Bytes → Bytes
  | .linux, name => ":lo12:" ++ name
  | .darwin, name => "_" ++ name ++ "@PAGEOFF"

def textSection : Flavor → Bytes
  | .linux => "\t.text\n"
  | .darwin => "\t.section __TEXT,__text,regular,pure_instructions\n"

def constSection : Flavor → Bytes
  | .linux => "\t.section .rodata\n"
  | .darwin => "\t.section __TEXT,__const\n"

/-- The directive of the section for zeroed storage; where each entry names its
    section there is none. -/
def zeroSection : Flavor → Bytes
  | .linux => "\t.bss\n"
  | .darwin => []

end Flavor

def Reg.text : Reg → Bytes
  | .x n => "x" ++ Bytes.ofNat n
  | .sp => "sp"

def floatReg (d : Nat) : Bytes := "d" ++ Bytes.ofNat d

def immediate (n : Nat) : Bytes := "#" ++ Bytes.ofNat n

def Addr.text : Addr → Bytes
  | .base r => "[" ++ r.text ++ "]"
  | .offset r bytes => "[" ++ r.text ++ ", #" ++ Bytes.ofNat bytes ++ "]"
  | .back r bytes => "[" ++ r.text ++ ", #-" ++ Bytes.ofInt bytes ++ "]"
  | .preDecrement r bytes => "[" ++ r.text ++ ", #-" ++ Bytes.ofNat bytes ++ "]!"
  | .postIncrement r bytes => "[" ++ r.text ++ "], #" ++ Bytes.ofNat bytes
  | .sum r index => "[" ++ r.text ++ ", " ++ index.text ++ "]"
  | .word r index => "[" ++ r.text ++ ", " ++ index.text ++ ", lsl #3]"

def Cond.text : Cond → Bytes
  | .eq => "eq"
  | .ne => "ne"
  | .lt => "lt"
  | .le => "le"
  | .gt => "gt"
  | .ge => "ge"
  | .mi => "mi"
  | .ls => "ls"

def WordOp.text : WordOp → Bytes
  | .add => "add"
  | .sub => "sub"
  | .mul => "mul"
  | .sdiv => "sdiv"
  | .and => "and"
  | .orr => "orr"

def FloatOp.text : FloatOp → Bytes
  | .fadd => "fadd"
  | .fsub => "fsub"
  | .fmul => "fmul"
  | .fdiv => "fdiv"

def operation (mnemonic : Bytes) (operands : List Bytes) : Bytes :=
  mnemonic ++ " " ++ Bytes.join ", " operands

def Instr.text (flavor : Flavor) : Instr → Bytes
  | .movImm rd value => operation "mov" [rd.text, "#" ++ Bytes.ofInt value]
  | .mov rd rn => operation "mov" [rd.text, rn.text]
  | .movz rd chunk => operation "movz" [rd.text, immediate chunk]
  | .movk rd chunk shift => operation "movk" [rd.text, immediate chunk, "lsl #" ++ Bytes.ofNat shift]
  | .adrp rd symbol => operation "adrp" [rd.text, flavor.page symbol]
  | .addPageOffset rd rn symbol => operation "add" [rd.text, rn.text, flavor.pageOffset symbol]
  | .addImm rd rn value => operation "add" [rd.text, rn.text, immediate value]
  | .subImm rd rn value => operation "sub" [rd.text, rn.text, immediate value]
  | .word op rd rn rm => operation op.text [rd.text, rn.text, rm.text]
  | .msub rd rn rm ra => operation "msub" [rd.text, rn.text, rm.text, ra.text]
  | .neg rd rn => operation "neg" [rd.text, rn.text]
  | .ldur rt addr => operation "ldur" [rt.text, addr.text]
  | .stur rt addr => operation "stur" [rt.text, addr.text]
  | .ldr rt addr => operation "ldr" [rt.text, addr.text]
  | .str rt addr => operation "str" [rt.text, addr.text]
  | .ldp rt ru addr => operation "ldp" [rt.text, ru.text, addr.text]
  | .stp rt ru addr => operation "stp" [rt.text, ru.text, addr.text]
  | .cmp rn rm => operation "cmp" [rn.text, rm.text]
  | .cmpImm rn value => operation "cmp" [rn.text, immediate value]
  | .cset rd cond => operation "cset" [rd.text, cond.text]
  | .csel rd rn rm cond => operation "csel" [rd.text, rn.text, rm.text, cond.text]
  | .fmovIn d rn => operation "fmov" [floatReg d, rn.text]
  | .fmovOut rd d => operation "fmov" [rd.text, floatReg d]
  | .float op d a b => operation op.text [floatReg d, floatReg a, floatReg b]
  | .fneg d a => operation "fneg" [floatReg d, floatReg a]
  | .fcmp a b => operation "fcmp" [floatReg a, floatReg b]
  | .scvtf d rn => operation "scvtf" [floatReg d, rn.text]
  | .branch target => operation "b" [flavor.label target]
  | .branchIf cond target => operation ("b." ++ cond.text) [flavor.label target]
  | .cbz rt target => operation "cbz" [rt.text, flavor.label target]
  | .bl symbol => operation "bl" [flavor.symbol symbol]
  | .ret => "ret"

/-- The text of a line of code. -/
def Line.text (flavor : Flavor) : Line → Bytes
  | .instr i => "\t" ++ i.text flavor ++ "\n"
  | .label l => flavor.label l ++ ":\n"
  | .comment text => "\t// " ++ text ++ "\n"
  | .routine symbol exported =>
    let name := flavor.symbol symbol
    let globl : Bytes := if exported then "\t.globl " ++ name ++ "\n" else []
    "\n" ++ globl ++ "\t.p2align 2\n" ++ name ++ ":\n"

def Code.text (flavor : Flavor) (c : Code) : Bytes := c.flatMap (Line.text flavor)

def escapeByte (b : UInt8) : Bytes :=
  if b = '"'.toNat.toUInt8 then "\\\""
  else if b = '\\'.toNat.toUInt8 then "\\\\"
  else if b = '\n'.toNat.toUInt8 then "\\n"
  else if b = '\t'.toNat.toUInt8 then "\\t"
  else if 0x20 ≤ b.toNat && b.toNat < 0x7F then [b]
  else "\\" ++ Bytes.octal 3 b.toNat

def escape (bytes : Bytes) : Bytes := bytes.flatMap escapeByte

/-- A named constant; `terminated` ones end in a zero byte that is not written. -/
structure Constant where
  symbol : Bytes
  bytes : Bytes
  terminated : Bool
  deriving DecidableEq, Repr

def Constant.text (flavor : Flavor) (c : Constant) : Bytes :=
  let directive : Bytes := if c.terminated then ".asciz" else ".ascii"
  flavor.symbol c.symbol ++ ":\n\t" ++ directive ++ " \"" ++ escape c.bytes ++ "\"\n"

/-- Named storage of zero bytes, aligned to words. -/
structure Storage where
  symbol : Bytes
  size : Nat
  deriving DecidableEq, Repr

def Storage.text : Flavor → Storage → Bytes
  | .linux, s => "\t.p2align 3\n" ++ s.symbol ++ ":\n\t.zero " ++ Bytes.ofNat s.size ++ "\n"
  | .darwin, s =>
    "\t.zerofill __DATA,__bss,_" ++ s.symbol ++ "," ++ Bytes.ofNat s.size ++ ",3\n"

/-- All sections of a program. -/
structure Program where
  code : Code := []
  constants : List Constant := []
  storage : List Storage := []
  helpers : Code := []
  deriving DecidableEq, Repr

namespace Program

def constantsText (flavor : Flavor) (p : Program) : Bytes := p.constants.flatMap (Constant.text flavor)

def storageText (flavor : Flavor) (p : Program) : Bytes := p.storage.flatMap (Storage.text flavor)

/-- A section after a blank line; nothing when it is empty. -/
def sectionText (directive body : Bytes) : Bytes :=
  if body.isEmpty then [] else "\n" ++ directive ++ body

/-- The text of a program. -/
def text (flavor : Flavor) (p : Program) : Bytes :=
  "// generated by kwc for aarch64\n" ++ flavor.textSection ++ p.code.text flavor
    ++ sectionText flavor.constSection (p.constantsText flavor)
    ++ sectionText flavor.zeroSection (p.storageText flavor)
    ++ sectionText flavor.textSection (p.helpers.text flavor)

end Program

end Codegen.Arm64
