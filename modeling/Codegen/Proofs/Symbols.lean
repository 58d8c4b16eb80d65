import Codegen.Proofs.Arm64.Symbols
import Codegen.Proofs.Clean
import Codegen.Proofs.Outputs
import Codegen.Proofs.Wasm.Symbols

/-!
# Declarations of a Document

Simplifying a document drops statements at the top level but declares nothing new, so what is
said of the names of a document as it was read holds for what is compiled.
-/

namespace Codegen

open List

variable {root : Tree} {source : Bytes}

namespace Tree

variable {ts : List Tree}

/-- Simplifying a statement keeps its name, and keeps its kind unless it is an operation. -/
theorem declaration?_simplified (p : Payload) (fits : p.Fits ts.length) :
    (simplified (.node p ts)).declaration? = declaration? (.node p ts) := by
  rcases simplified_node p fits with ⟨q, ts', heq, hname, hkind | ⟨hbinary, hinteger⟩⟩
  · rw [heq, declaration?, declaration?, hkind, hname]
  · rw [heq, declaration?_other _ (by rw [hinteger]; rfl), declaration?_other _ (by rw [hbinary]; rfl)]

theorem declarations_simplifiedAll (hf : Formed ts) :
    declarations (simplifiedAll ts) = declarations ts := by
  unfold declarations
  induction hf with
  | nil => rfl
  | cons p _ _ fits _ _ _ ih =>
    rw [simplifiedAll, filterMap_cons, filterMap_cons, declaration?_simplified p fits, ih]

theorem declarations_simplified (hf : Formed [root]) :
    (declarations root.simplified.statements).Sublist (declarations root.statements) := by
  rw [statements_simplified hf, reachable_eq_take, ← declarations_simplifiedAll hf.statements]
  exact (take_sublist _ _).filterMap _

end Tree

theorem Options.declarations_prepared (opts : Options) (htree : Document.tree source = .ok root) :
    (Tree.declarations (opts.prepared root).statements).Sublist
      (Tree.declarations root.statements) := by
  unfold prepared
  cases opts.optimize with
  | false => exact List.Sublist.refl _
  | true => exact Tree.declarations_simplified (Document.formed_tree htree)

theorem Options.declaredNames_prepared (opts : Options) (htree : Document.tree source = .ok root) :
    (opts.prepared root).declaredNames.Sublist root.declaredNames :=
  (opts.declarations_prepared htree).map _

end Codegen
