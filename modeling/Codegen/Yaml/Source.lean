import Codegen.Text.Utf8
import Codegen.Yaml.Error

/-!
# The Characters of YAML Text

A text is bytes in UTF-8, or in UTF-16 when it begins with the byte order mark of
that. Either way it is read as characters before anything else is looked at, and
a text that cannot be read, or holds a control character, is refused as a whole.
The several ways to end a line become one, except for the line and paragraph
separators, which also end a line but stay what they are.
-/

namespace Codegen.Yaml

namespace Source

/-- Whether a character can be in a text. -/
def isAllowed (code : Nat) : Bool :=
  code = 0x9 || code = 0xA || code = 0xD || (0x20 ≤ code && code ≤ 0x7E) || code = 0x85
    || (0xA0 ≤ code && code ≤ 0xFFFD) || 0x10000 ≤ code

def character (code : Nat) : Except Cause Char :=
  if isAllowed code then .ok (Char.ofNat code) else .error .controlCharacter

def octetFault (b : UInt8) (rest : Bytes) : Cause :=
  let n := b.toNat
  let count := if n / 32 = 6 then 1 else if n / 16 = 14 then 2 else if n / 8 = 30 then 3 else 0
  if count = 0 then .leadingOctet
  else if rest.length < count then .incompleteOctets
  else if !(rest.take count).all Utf8.isTail then .trailingOctet
  else if n = 0xED || 0xF4 ≤ n then .invalidCharacter
  else .octetLength

/-- The characters of UTF-8; the first `skip` bytes belong to a character before. -/
def narrow (skip : Nat) : Bytes → Except Cause (List Char)
  | [] => .ok []
  | b :: rest =>
    match skip with
    | n + 1 => narrow n rest
    | 0 =>
      match Utf8.sequence? (b :: rest) with
      | none => .error (octetFault b rest)
      | some (code, length) => do
        let c ← character code
        let cs ← narrow (length - 1) rest
        return c :: cs

def unit (bigEndian : Bool) (a b : UInt8) : Nat :=
  if bigEndian then a.toNat * 256 + b.toNat else b.toNat * 256 + a.toNat

/-- The characters of UTF-16. -/
def wide (bigEndian : Bool) : Bytes → Except Cause (List Char)
  | [] => .ok []
  | [_] => .error .incompleteUnit
  | a :: b :: rest =>
    let high := unit bigEndian a b
    if high / 1024 = 55 then .error .strayLowHalf
    else if high / 1024 = 54 then
      match rest with
      | c :: d :: rest =>
        let low := unit bigEndian c d
        if low / 1024 = 55 then do
          let c ← character (0x10000 + high % 1024 * 1024 + low % 1024)
          let cs ← wide bigEndian rest
          return c :: cs
        else .error .missingLowHalf
      | _ => .error .incompletePair
    else do
      let c ← character high
      let cs ← wide bigEndian rest
      return c :: cs

/-- The characters with a line feed for every other way to end a line. -/
def unify : List Char → List Char
  | [] => []
  | '\r' :: '\n' :: rest => '\n' :: unify rest
  | c :: rest => (if c = '\r' || c = '\x85' then '\n' else c) :: unify rest

/-- The characters of a text. -/
def characters (source : Bytes) : Except Cause (List Char) := do
  let cs ← match source with
    | 0xFF :: 0xFE :: rest => wide false rest
    | 0xFE :: 0xFF :: rest => wide true rest
    | 0xEF :: 0xBB :: 0xBF :: rest => narrow 0 rest
    | _ => narrow 0 source
  return unify cs

end Source

end Codegen.Yaml
