import Codegen.Ast.Build
import Codegen.Fixture
import Codegen.Main
import Codegen.Proofs.Arm64.Expression
import Codegen.Proofs.Arm64.Immediates
import Codegen.Proofs.Arm64.Registers
import Codegen.Proofs.Arm64.Stack
import Codegen.Proofs.Brackets
import Codegen.Proofs.Branches
import Codegen.Proofs.Calls
import Codegen.Proofs.Cases
import Codegen.Proofs.Chains
import Codegen.Proofs.CommandLine.Precedence
import Codegen.Proofs.Comments
import Codegen.Proofs.Copies
import Codegen.Proofs.Correspondence
import Codegen.Proofs.Document.Faithful
import Codegen.Proofs.Equivalence
import Codegen.Proofs.Folding
import Codegen.Proofs.Initializers
import Codegen.Proofs.Problems
import Codegen.Proofs.Representations
import Codegen.Proofs.Requests
import Codegen.Proofs.Segment
import Codegen.Proofs.Sexpr.Metadata
import Codegen.Proofs.Sexpr.Mismatches
import Codegen.Proofs.Slots
import Codegen.Proofs.StaticTypes
import Codegen.Proofs.Strings
import Codegen.Proofs.Wasm.Exports
import Codegen.Proofs.Wasm.Modules
import Codegen.Proofs.Wasm.Packing
