import Codegen.Ast.Term
import Mathlib.Data.List.Induction
import Mathlib.Logic.Relation

/-!
# Control

What a machine does with a fragment of code whose inside does not matter: control enters it at its
beginning and comes out at its end. A chain of conditions with bodies is made of such fragments,
and which of them run is set by the values of the conditions.
-/

namespace Codegen

/-- A machine gets from one place to another. -/
abbrev Reaches {α : Type} (next : α → Option α) : α → α → Prop :=
  Relation.ReflTransGen fun a b => next a = some b

/-- Conditions and bodies in turn with their fragments. A last body without a condition is that of
    `else`. -/
inductive Alternates {κ : Type} (condition body : Term → κ → Prop) : List Term → List κ → Prop where
  | nil : Alternates condition body [] []
  | last {t b} (h : body t b) : Alternates condition body [t] [b]
  | link {t u rest c b cs} (hc : condition t c) (hb : body u b)
      (h : Alternates condition body rest cs) :
      Alternates condition body (t :: u :: rest) (c :: b :: cs)

/-- The conditions are evaluated in order up to the first that holds, and its body is run. If none
    holds, it is that of `else`, or nothing. Nothing is said of the fragments after. -/
inductive FirstTrue {κ σ : Type} (test : κ → σ → Bool → σ → Prop) (falls : κ → σ → σ → Prop) :
    List κ → σ → σ → Prop where
  | none {s} : FirstTrue test falls [] s s
  | otherwise {b s s'} (h : falls b s s') : FirstTrue test falls [b] s s'
  | taken {c b rest s s1 s'} (hc : test c s true s1) (hb : falls b s1 s') :
      FirstTrue test falls (c :: b :: rest) s s'
  | skipped {c b rest s s1 s'} (hc : test c s false s1) (h : FirstTrue test falls rest s1 s') :
      FirstTrue test falls (c :: b :: rest) s s'

end Codegen
