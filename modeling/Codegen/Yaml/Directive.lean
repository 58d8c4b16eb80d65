import Codegen.Yaml.Property

/-!
# Directives

A document may be preceded by directives: the version of the language, and the
beginnings of addresses that the handles of tags stand for.
-/

namespace Codegen.Yaml

/-- A directive. -/
inductive Directive where
  | version (major minor : Nat)
  | shorthand (handle address : Bytes)
  deriving DecidableEq, Repr

namespace Directive

def number (c : Cursor) : Except Cause (Nat × Cursor) :=
  let digits := c.text.takeWhile Char.isDigit
  if digits.isEmpty then .error .versionNumber
  else if 2 < digits.length then .error .versionLength
  else .ok (digits.foldl (fun n d => n * 10 + (d.toNat - '0'.toNat)) 0, c.skip digits.length)

def readVersion (c : Cursor) : Except Cause (Directive × Cursor) := do
  let (major, c) ← number c.skipBlanks
  if c.text.head? != some '.' then throw .versionPoint
  let (minor, c) ← number (c.skip 1)
  return (.version major minor, c)

def readShorthand (c : Cursor) : Except Cause (Directive × Cursor) := do
  let c := c.skipBlanks
  if c.text.head? != some '!' then throw .tagMark
  let (handle, complete) := Shorthand.leadingHandle c.text
  if !complete && handle.length != 1 then throw .tagMark
  let c := c.skip handle.length
  if !c.text.head?.any isBlank then throw .shorthandSpace
  let c := c.skipBlanks
  let (address, rest) ← Shorthand.address c.text
  if atBlank rest then return (.shorthand (bytesOf handle) address, c.skipTo rest)
  else throw .tagEnd

/-- Reads a directive, after the percent sign. A comment may follow it. -/
def read (c : Cursor) : Except Cause (Directive × Cursor) := do
  let name := c.text.takeWhile isNameChar
  let c := c.skip name.length
  if name.isEmpty then throw .directiveName
  if !atBlank c.text then throw .directiveLetter
  let (directive, c) ←
    if name = "YAML".toList then readVersion c
    else if name = "TAG".toList then readShorthand c
    else throw .unknownDirective
  let c := c.skipComment.skipBlanks
  if atBreak c.text then return (directive, c.skip 1) else throw .headerEnd

end Directive

end Codegen.Yaml
