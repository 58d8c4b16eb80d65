import Codegen.Number.Integer

/-!
# String Literals and the Data Segment

A string literal of the source is text with escape sequences; its contents are
bytes. Literals and reserved space share one data segment, in the order in which
they are asked for. Offsets and sizes are 64 bits wide and signed, and nothing
stops them from running over: what is asked for beyond that begins below zero.
The AArch64 backend names literals by label, the WebAssembly backend by offset.
-/

namespace Codegen

def escapeByte? (b : UInt8) : Option UInt8 :=
  if b = 'n'.toNat.toUInt8 then some 10
  else if b = 't'.toNat.toUInt8 then some 9
  else if b = 'r'.toNat.toUInt8 then some 13
  else if b = '\\'.toNat.toUInt8 then some b
  else if b = '"'.toNat.toUInt8 then some b
  else if b = '0'.toNat.toUInt8 then some 0
  else none

/-- The contents of a literal. -/
def decodeEscapes : Bytes → Bytes
  | [] => []
  | [b] => [b]
  | b :: c :: rest =>
    if b = '\\'.toNat.toUInt8 then
      match escapeByte? c with
      | some byte => byte :: decodeEscapes rest
      | none => b :: c :: decodeEscapes rest
    else b :: decodeEscapes (c :: rest)

/-- An entry of the literal table. -/
structure Literal where
  index : Nat
  offset : Int
  bytes : Bytes
  deriving DecidableEq, Repr

namespace Literal

def label (lit : Literal) : Bytes := "str" ++ Bytes.ofNat lit.index

def length (lit : Literal) : Nat := lit.bytes.length

end Literal

/-- Zeroed space in the data segment. -/
structure Reservation where
  offset : Int
  size : Int
  deriving DecidableEq, Repr

/-- Literals and reserved space, laid out one after the other. -/
structure DataSegment where
  literals : List Literal := []
  reservations : List Reservation := []
  size : Int := 0
  deriving DecidableEq, Repr

namespace DataSegment

/-- Adds a literal at the end. Equal contents still get entries of their own. -/
def addLiteral (data : DataSegment) (raw : Bytes) : Literal × DataSegment :=
  let lit : Literal := ⟨data.literals.length, data.size, decodeEscapes raw⟩
  (lit, { data with
    literals := data.literals ++ [lit]
    size := Integer.narrow (data.size + lit.length) })

/-- The next multiple of an alignment. The remainder has the sign of the size. -/
def alignUp (size align : Int) : Int :=
  if 1 < align && size.tmod align != 0 then Integer.narrow (size + (align - size.tmod align))
  else size

def reserve (data : DataSegment) (size align : Int) : Int × DataSegment :=
  let offset := alignUp data.size align
  (offset, { data with
    reservations := data.reservations ++ [⟨offset, size⟩]
    size := Integer.narrow (offset + size) })

/-- Writes bytes over others from an offset on, as far as those go. -/
def overlay (offset : Nat) (bytes base : Bytes) : Bytes :=
  base.take offset ++ (bytes.take (base.length - offset) ++ base.drop (offset + bytes.length))

def contents (data : DataSegment) : Bytes :=
  data.literals.foldl (fun base lit => overlay lit.offset.toNat lit.bytes base)
    (List.replicate data.size.toNat 0)

end DataSegment

end Codegen
