import Codegen.Text.CodeRange

/-!
# White Space

The code points with the property White Space. They separate the tokens of a
document and are trimmed from the ends of a line of text.
-/

namespace Codegen

/-- The table. -/
def blankRanges : List CodeRange :=
  [⟨0x9, 0xD⟩, ⟨0x20, 0x20⟩, ⟨0x85, 0x85⟩, ⟨0xA0, 0xA0⟩, ⟨0x1680, 0x1680⟩, ⟨0x2000, 0x200A⟩,
   ⟨0x2028, 0x2029⟩, ⟨0x202F, 0x202F⟩, ⟨0x205F, 0x205F⟩, ⟨0x3000, 0x3000⟩]

/-- Membership. -/
def isBlank (code : Nat) : Bool := CodeRange.covers code blankRanges

end Codegen
