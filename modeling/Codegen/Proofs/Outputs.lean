import Codegen.Proofs.Arm64.Program
import Codegen.Proofs.Outcome
import Codegen.Proofs.Wasm.Program

/-!
# The Outputs of a Document

A document that is read is compiled for both targets, and the outputs come about by the rules
of the two generators, from the tree of the document or from the simplified tree.
-/

namespace Codegen

/-- The tree that code is generated for. -/
def Options.prepared (opts : Options) (root : Tree) : Tree :=
  if opts.optimize then root.simplified else root

section Documents

variable {opts : Options} {source : Bytes} {root : Tree}

theorem Options.formed_prepared (htree : Document.tree source = .ok root) :
    Tree.Formed [opts.prepared root] := by
  have hf := Document.formed_tree htree
  unfold prepared
  cases opts.optimize with
  | false => exact hf
  | true => exact Tree.formed_simplifiedAll hf

theorem Options.validate_target (h : opts.validate = .ok ()) {target : Bytes}
    (htarget : target = "arm64" ∨ target = "wasm") : { opts with target }.validate = .ok () := by
  unfold validate at h ⊢
  have hknown : (target != "arm64" && target != "wasm") = false := by
    rcases htarget with rfl | rfl <;> rfl
  split at h
  · cases h
  · simp only [hknown]
    exact h

/-- What holds of the program that a tree is lowered to holds of what its document compiles to. -/
theorem any_compileSource (hopts : opts.validate = .ok ()) (htree : Document.tree source = .ok root)
    {holds : Generated → Bool}
    (h : (generate opts (opts.prepared root)).toOption.any holds = true) :
    (compileSource opts source).toOption.any holds = true := by
  rcases ok_of_any h with ⟨g, hg, hholds⟩
  rw [compileSource_eq hopts htree hg]
  exact hholds

/-- The AArch64 output of a document comes about by the rules. -/
theorem compileSource_arm64 (hopts : opts.validate = .ok ())
    (htree : Document.tree source = .ok root) :
    ∃ fs out ctx, Arm64.Generates (.ofOs opts.os) (opts.prepared root) fs (out, ctx) ∧
      compileSource { opts with target := "arm64" } source =
        .ok ⟨out.text (.ofOs opts.os), ctx.limitations⟩ := by
  have hvalid := opts.validate_target hopts (Or.inl rfl)
  rcases Arm64.generates_of_formed (.ofOs opts.os) (opts.formed_prepared htree) with
    ⟨fs, out, ctx, hfs, -⟩
  refine ⟨fs, out, ctx, hfs, compileSource_eq hvalid htree ?_⟩
  exact congrArg (· >>= _) hfs.compile_eq

/-- So does the WebAssembly output. -/
theorem compileSource_wasm (hopts : opts.validate = .ok ())
    (htree : Document.tree source = .ok root) :
    ∃ fs out ctx, Wasm.Generates (opts.prepared root) fs (out, ctx) ∧
      compileSource { opts with target := "wasm" } source =
        .ok ⟨(Wasm.assemble out ctx.data).text, ctx.limitations⟩ := by
  have hvalid := opts.validate_target hopts (Or.inr rfl)
  rcases Wasm.generates_of_formed (opts.formed_prepared htree) with ⟨fs, out, ctx, hfs, -⟩
  refine ⟨fs, out, ctx, hfs, compileSource_eq hvalid htree ?_⟩
  exact congrArg (· >>= _) hfs.compile_eq

end Documents

end Codegen
