import Codegen.Yaml.Cursor

/-!
# Names of Anchors and Tags

An anchor names a part of a document, so that an alias can stand for that part
again. A tag says what a part is: it is an address, written out in angle brackets
or behind a handle that stands for the beginning of one.
-/

namespace Codegen.Yaml

/-- The name of an anchor or an alias, after the character that begins it. -/
def anchorName (text : List Char) : Except Cause (List Char) :=
  let name := text.takeWhile isNameChar
  let rest := text.drop name.length
  if !name.isEmpty && (atBlank rest || rest.head?.any "?:,]\x7d%@`".toList.contains) then .ok name
  else .error .anchorName

def isAddressChar (c : Char) : Bool := isNameChar c || ";/?:@&=+$,.!~*'()[]".toList.contains c

/-- The number of octets that follow the first one of a character. -/
def octetsAfter? (octet : Nat) : Option Nat :=
  if octet < 0x80 then some 0
  else if octet / 32 = 6 then some 1
  else if octet / 16 = 14 then some 2
  else if octet / 8 = 30 then some 3
  else none

/-- Reads the address at the beginning of a text, with percent signs undone;
    `pending` octets are still to come. -/
def tagAddress (pending : Nat) : List Char → Except Cause (Bytes × List Char)
  | '%' :: a :: b :: rest =>
    match hexValue? [a, b] with
    | none => .error .addressOctet
    | some octet => do
      let pending ←
        if pending = 0 then ((octetsAfter? octet).map Except.ok).getD (.error .addressLeadingOctet)
        else if octet / 64 = 2 then .ok (pending - 1)
        else .error .addressTrailingOctet
      let (address, rest) ← tagAddress pending rest
      return (octet.toUInt8 :: address, rest)
  | c :: rest =>
    if pending != 0 || c = '%' then .error .addressOctet
    else if isAddressChar c then do
      let (address, rest) ← tagAddress 0 rest
      return (bytesOf [c] ++ address, rest)
    else .ok ([], c :: rest)
  | [] => if pending != 0 then .error .addressOctet else .ok ([], [])

/-- A tag as written: a handle, which is empty for an address in angle brackets,
    and what follows it. -/
structure Shorthand where
  handle : Bytes
  suffix : Bytes
  deriving DecidableEq, Repr

namespace Shorthand

/-- The handle at the beginning of a text that begins with an exclamation mark, and
    whether another one completes it after the characters of a name. -/
def leadingHandle (text : List Char) : List Char × Bool :=
  let name := (text.drop 1).takeWhile isNameChar
  if (text.drop (name.length + 1)).head? = some '!' then ('!' :: name ++ ['!'], true)
  else ('!' :: name, false)

def address (text : List Char) : Except Cause (Bytes × List Char) := do
  let (address, rest) ← tagAddress 0 text
  if rest.length = text.length then throw .tagAddress else return (address, rest)

def written (text : List Char) : Except Cause (Shorthand × List Char) :=
  match text with
  | _ :: '<' :: inner => do
    let (suffix, rest) ← address inner
    match rest with
    | '>' :: rest => return (⟨[], suffix⟩, rest)
    | _ => throw .tagBracket
  | _ => do
    let (handle, complete) := leadingHandle text
    let rest := text.drop handle.length
    if complete then
      let (suffix, rest) ← address rest
      return (⟨bytesOf handle, suffix⟩, rest)
    else
      let (suffix, rest) ← tagAddress 0 rest
      let suffix := bytesOf (handle.drop 1) ++ suffix
      return (if suffix.isEmpty then ⟨[], "!"⟩ else ⟨"!", suffix⟩, rest)

/-- Reads a tag. -/
def read (text : List Char) : Except Cause (Shorthand × List Char) := do
  let (tag, rest) ← written text
  if atBlank rest then return (tag, rest) else throw .tagEnd

end Shorthand

end Codegen.Yaml
