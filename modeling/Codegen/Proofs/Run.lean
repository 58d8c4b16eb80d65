import Codegen.Context.Typing

/-!
# Runs of a Generator

A backend is a program in a state monad over the generation context. `Ends` says
where such a program gets to: the result, the output and the context it leaves.
It composes along `>>=`, so a statement about a piece of lowering is a chain of
the statements about its steps, and the monad itself is unfolded only here.
-/

namespace Codegen

variable {σ α β : Type}

/-- Started with output `s` and context `ctx`, the operation ends with the result
    `a`, the output `s'` and the context `ctx'`. -/
def Ends (x : StateT σ Gen α) (s : σ) (ctx : Context) (a : α) (s' : σ) (ctx' : Context) : Prop :=
  (x.run s).run ctx = .ok ((a, s'), ctx')

/-- A result without effects. -/
theorem ends_pure {a : α} {s : σ} {ctx : Context} : Ends (pure a) s ctx a s ctx := rfl

/-- One operation after another. -/
theorem ends_bind {x : StateT σ Gen α} {f : α → StateT σ Gen β} {s s1 s2 : σ}
    {ctx ctx1 ctx2 : Context} {a : α} {b : β} (hx : Ends x s ctx a s1 ctx1)
    (hf : Ends (f a) s1 ctx1 b s2 ctx2) : Ends (x >>= f) s ctx b s2 ctx2 := by
  change ((x.run s).run ctx >>= fun r => ((f r.1.1).run r.1.2).run r.2) = _
  rw [hx]
  exact hf

/-- A function of a result. -/
theorem ends_map {x : StateT σ Gen α} (f : α → β) {s s' : σ} {ctx ctx' : Context} {a : α}
    (hx : Ends x s ctx a s' ctx') : Ends (f <$> x) s ctx (f a) s' ctx' := by
  rw [map_eq_pure_bind]
  exact ends_bind hx ends_pure

/-- An operation on the context alone. -/
theorem ends_lift {x : Gen α} {s : σ} {ctx ctx' : Context} {a : α}
    (h : x.run ctx = .ok (a, ctx')) : Ends (liftM x : StateT σ Gen α) s ctx a s ctx' := by
  change (x.run ctx >>= fun r => pure ((r.1, s), r.2)) = _
  rw [h]
  rfl

/-- Reading the context. -/
theorem ends_context {s : σ} {ctx : Context} :
    Ends (liftM (get : Gen Context) : StateT σ Gen Context) s ctx ctx s ctx := rfl

/-- Asking for a type. -/
theorem ends_typeOf {t : Term} {s : σ} {ctx : Context} {type : Ty} (h : ctx.typeOf t = .ok type) :
    Ends (liftM (Gen.typeOf t) : StateT σ Gen Ty) s ctx type s ctx := by
  refine ends_lift ?_
  simp only [Gen.typeOf, StateT.run_bind, StateT.run_get, pure_bind, h]
  rfl

end Codegen
