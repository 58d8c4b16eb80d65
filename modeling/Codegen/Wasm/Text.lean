import Codegen.Wasm.Instr

/-!
# WebAssembly Text

The text of a module: one instruction a line, two spaces deeper inside each block,
loop and conditional.
-/

namespace Codegen.Wasm

/-- The name of an operation. -/
def NumOp.text : NumOp → Bytes
  | .add => "i64.add"
  | .sub => "i64.sub"
  | .mul => "i64.mul"
  | .divS => "i64.div_s"
  | .remS => "i64.rem_s"
  | .and => "i64.and"
  | .or => "i64.or"
  | .shl => "i64.shl"
  | .shrU => "i64.shr_u"
  | .eq => "i64.eq"
  | .ne => "i64.ne"
  | .ltS => "i64.lt_s"
  | .leS => "i64.le_s"
  | .gtS => "i64.gt_s"
  | .geS => "i64.ge_s"
  | .eqz => "i64.eqz"
  | .fadd => "f64.add"
  | .fsub => "f64.sub"
  | .fmul => "f64.mul"
  | .fdiv => "f64.div"
  | .fneg => "f64.neg"
  | .feq => "f64.eq"
  | .fne => "f64.ne"
  | .flt => "f64.lt"
  | .fle => "f64.le"
  | .fgt => "f64.gt"
  | .fge => "f64.ge"
  | .eqz32 => "i32.eqz"
  | .mul32 => "i32.mul"
  | .add32 => "i32.add"
  | .extendU => "i64.extend_i32_u"
  | .wrap => "i32.wrap_i64"
  | .toBits => "i64.reinterpret_f64"
  | .ofBits => "f64.reinterpret_i64"
  | .ofInteger => "f64.convert_i64_s"
  | .toInteger => "i64.trunc_sat_f64_s"

def labelText (l : Label) : Bytes := "$" ++ l.text

/-- A line of text and how deep it is indented. -/
structure Line where
  depth : Nat
  text : Bytes
  deriving DecidableEq, Repr

/-- The text of a line, two spaces for each level, its end included. -/
def Line.print (l : Line) : Bytes :=
  List.replicate (2 * l.depth) ' '.toNat.toUInt8 ++ l.text ++ "\n"

mutual

/-- The lines of an instruction at a depth. -/
def Instr.lines (depth : Nat) : Instr → List Line
  | .const value => [⟨depth, "i64.const " ++ Bytes.ofInt value⟩]
  | .const32 value => [⟨depth, "i32.const " ++ Bytes.ofInt value⟩]
  | .num op => [⟨depth, op.text⟩]
  | .localGet index => [⟨depth, "local.get " ++ Bytes.ofNat index⟩]
  | .localSet index => [⟨depth, "local.set " ++ Bytes.ofNat index⟩]
  | .localTee index => [⟨depth, "local.tee " ++ Bytes.ofNat index⟩]
  | .globalGet name => [⟨depth, "global.get " ++ name⟩]
  | .globalSet name => [⟨depth, "global.set " ++ name⟩]
  | .load => [⟨depth, "i64.load"⟩]
  | .store => [⟨depth, "i64.store"⟩]
  | .call name => [⟨depth, "call " ++ name⟩]
  | .drop => [⟨depth, "drop"⟩]
  | .nop => [⟨depth, "nop"⟩]
  | .ret => [⟨depth, "return"⟩]
  | .br target => [⟨depth, "br " ++ labelText target⟩]
  | .brIf target => [⟨depth, "br_if " ++ labelText target⟩]
  | .block label body =>
    ⟨depth, "block " ++ labelText label⟩ :: (bodyLines (depth + 1) body ++ [⟨depth, "end"⟩])
  | .loop label body =>
    ⟨depth, "loop " ++ labelText label⟩ :: (bodyLines (depth + 1) body ++ [⟨depth, "end"⟩])
  | .cond yes none => ⟨depth, "if"⟩ :: (bodyLines (depth + 1) yes ++ [⟨depth, "end"⟩])
  | .cond yes (some no) =>
    ⟨depth, "if"⟩ :: (bodyLines (depth + 1) yes
      ++ ⟨depth, "else"⟩ :: (bodyLines (depth + 1) no ++ [⟨depth, "end"⟩]))
  | .comment text => [⟨depth, ";; " ++ text⟩]

def bodyLines (depth : Nat) : List Instr → List Line
  | [] => []
  | i :: rest => Instr.lines depth i ++ bodyLines depth rest

end

def escapeByte (b : UInt8) : Bytes :=
  if 0x20 ≤ b.toNat && b.toNat ≤ 0x7E && b != '\\'.toNat.toUInt8 && b != '"'.toNat.toUInt8 then [b]
  else "\\" ++ Bytes.hex 2 b.toNat

/-- Bytes in a text string. -/
def escape (bytes : Bytes) : Bytes := bytes.flatMap escapeByte

namespace Func

/-- The first line of a function, without its indentation. -/
def header (f : Func) : Bytes :=
  let exported : Bytes :=
    match f.exportName with
    | some name => " (export \"" ++ escape name ++ "\")"
    | none => []
  let result : Bytes := if f.hasResult then " (result i64)" else []
  "(func " ++ f.name ++ exported ++ (List.replicate f.params (" (param i64)" : Bytes)).flatten
    ++ result

def lines (f : Func) : List Line :=
  let locals : List Line :=
    if f.locals = 0 then []
    else [⟨2, "(local" ++ (List.replicate f.locals (" i64" : Bytes)).flatten ++ ")"⟩]
  ⟨1, f.header⟩ :: (locals ++ bodyLines 2 f.body ++ [⟨1, ")"⟩])

end Func

namespace Module

def globalLine (name : Bytes) : Line := ⟨1, "(global " ++ name ++ " (mut i64) (i64.const 0))"⟩

/-- The lines before the globals: imports and memory. -/
def preamble (m : Module) : List Line :=
  [⟨0, "(module"⟩,
   ⟨1, "(import \"env\" \"print_i64\" (func $print_i64 (param i64)))"⟩,
   ⟨1, "(import \"env\" \"print_str\" (func $print_str (param i32 i32)))"⟩,
   ⟨1, "(memory (export \"memory\") " ++ Bytes.ofInt m.pages ++ ")"⟩]

/-- The lines after the functions: the contents of the memory, unless it is empty. -/
def ending (m : Module) : List Line :=
  (if m.data.isEmpty then [] else [⟨1, "(data (i32.const 0) \"" ++ escape m.data ++ "\")"⟩])
    ++ [⟨0, ")"⟩]

/-- The lines of a module. -/
def lines (m : Module) : List Line :=
  m.preamble ++ m.globals.map globalLine ++ m.funcs.flatMap Func.lines
    ++ m.helpers.flatMap Func.lines ++ m.ending

/-- The text of a module. -/
def text (m : Module) : Bytes := m.lines.flatMap Line.print

end Module

end Codegen.Wasm
