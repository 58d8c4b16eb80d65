import Codegen.Proofs.Run

/-!
# The Operations of a Generator

What each operation on the generation context does, as a run that ends. Most of them always
end; those that look at the function under way, or at the scopes, end where there is one.
-/

namespace Codegen

open Gen

namespace Integer

variable {n : Int}

theorem narrow_of_fits (hlow : -0x8000000000000000 ≤ n) (hhigh : n < 0x8000000000000000) :
    narrow n = n := Int64.toInt_ofInt_of_le hlow hhigh

/-- A number that is not negative gets smaller in 64 bits, or stays as it is. -/
theorem narrow_le (h : 0 ≤ n) : narrow n ≤ n := by
  rw [narrow, Int64.toInt_ofInt, Int.bmod_def]
  simp only [Int64.size]
  omega

end Integer

/-- What is not supported, and the kind of the node where it was found. -/
structure Issue where
  kind : Kind
  cause : Unsupported
  deriving DecidableEq, Repr

def Issue.limitation (target : Bytes) (issue : Issue) : Limitation :=
  ⟨target, issue.kind.name, issue.cause.message⟩

namespace Context

/-- The context with more limitations. -/
def reporting (ctx : Context) (issues : List Issue) : Context :=
  { ctx with limitations := ctx.limitations ++ issues.map (Issue.limitation ctx.target) }

theorem reporting_nil (ctx : Context) : ctx.reporting [] = ctx := by
  unfold reporting
  rw [List.map_nil, List.append_nil]

def entering (ctx : Context) : Context := { ctx with scopes := [] :: ctx.scopes }

def labeling (ctx : Context) (count : Nat) : Context := { ctx with labels := ctx.labels + count }

def claiming (ctx : Context) (name : Bytes) : Context :=
  { ctx with helpers := name :: ctx.helpers }

/-- A context whose function under way has taken more slots. -/
def taking (ctx : Context) (fn : FunctionState) (words : Nat) : Context :=
  { ctx with function := some { fn with nextSlot := fn.nextSlot + words } }

/-- The context after a local was declared. -/
def declaring (ctx : Context) (fn : FunctionState) (name : Bytes) (type : Ty) : Context :=
  (ctx.taking fn type.rep.words).declareHere (.localVar name type fn.nextSlot)

/-- The context at the beginning of a function. -/
def beginning (ctx : Context) (name : Bytes) (result : Ty) : Context :=
  { ctx with
    labels := ctx.labels + 1
    scopes := [] :: ctx.scopes
    function := some { name, result, ret := ⟨ctx.labels⟩ } }

/-- A context with other targets for `break` and `continue`. -/
def looping (ctx : Context) (fn : FunctionState) (loop : Option LoopTargets) : Context :=
  { ctx with function := some { fn with loop } }

theorem lookup?_eq (ctx : Context) (name : Bytes) :
    ctx.lookup? name = (Scope.resolve? ctx.scopes name).or (ctx.globals.find? name) := by
  unfold lookup? Scope.resolve?
  rw [List.findSome?_append, List.findSome?_singleton]

theorem lookup?_global {ctx : Context} (h : ctx.scopes = []) (name : Bytes) :
    ctx.lookup? name = ctx.globals.find? name := by
  rw [lookup?_eq, h]
  rfl

end Context

section Operations

variable {σ : Type} {s : σ} {ctx ctx' : Context} {fn : FunctionState} {outer : List Scope}
  {scope : Scope} {name : Bytes}

/-- A run ends in one way only. -/
theorem Ends.unique {α : Type} {x : StateT σ Gen α} {a b : α} {s' s'' : σ} {ctx'' : Context}
    (h : Ends x s ctx a s' ctx') (h' : Ends x s ctx b s'' ctx'') :
    a = b ∧ s' = s'' ∧ ctx' = ctx'' := by
  have heq := Except.ok.inj (h.symm.trans h')
  exact ⟨congrArg (·.1.1) heq, congrArg (·.1.2) heq, congrArg (·.2) heq⟩

theorem ends_modify {f : σ → σ} :
    Ends (modify f : StateT σ Gen PUnit) s ctx ⟨⟩ (f s) ctx := rfl

/-- A limitation is recorded. -/
theorem ends_limit {kind : Kind} {cause : Unsupported} :
    Ends (liftM (limit kind cause) : StateT σ Gen Unit) s ctx ()
      s (ctx.reporting [⟨kind, cause⟩]) := rfl

theorem ends_newLabel :
    Ends (liftM newLabel : StateT σ Gen Label) s ctx ⟨ctx.labels⟩ s (ctx.labeling 1) := rfl

theorem ends_addLiteral {raw : Bytes} :
    Ends (liftM (addLiteral raw) : StateT σ Gen Literal) s ctx (ctx.data.addLiteral raw).1
      s { ctx with data := (ctx.data.addLiteral raw).2 } := rfl

theorem ends_reserveData {size align : Int} :
    Ends (liftM (reserveData size align) : StateT σ Gen Int) s ctx
      (ctx.data.reserve size align).1
      s { ctx with data := (ctx.data.reserve size align).2 } := rfl

/-- A scope is opened. -/
theorem ends_enterScope :
    Ends (liftM enterScope : StateT σ Gen Unit) s ctx () s ctx.entering := rfl

theorem ends_leaveScope (h : ctx.scopes = scope :: outer) :
    Ends (liftM leaveScope : StateT σ Gen Unit) s ctx () s { ctx with scopes := outer } := by
  refine ends_lift ?_
  simp only [leaveScope, StateT.run_bind, StateT.run_get, pure_bind, h]
  rfl

theorem run_allocSlots (type : Ty) (h : ctx.function = some fn) :
    (allocSlots type).run ctx = .ok (fn.nextSlot, ctx.taking fn type.rep.words) := by
  simp only [allocSlots, StateT.run_bind, StateT.run_get, pure_bind, h]
  rfl

theorem ends_hiddenLocal (type : Ty) (h : ctx.function = some fn) :
    Ends (liftM (hiddenLocal type) : StateT σ Gen Nat) s ctx fn.nextSlot
      s (ctx.taking fn type.rep.words) :=
  ends_lift (run_allocSlots type h)

/-- A local is declared. -/
theorem ends_declareLocal {type : Ty} (h : ctx.function = some fn) :
    Ends (liftM (declareLocal name type) : StateT σ Gen Symbol) s ctx
      (.localVar name type fn.nextSlot) s (ctx.declaring fn name type) := by
  refine ends_lift ?_
  change ((allocSlots type).run ctx >>= _) = _
  rw [run_allocSlots type h]
  rfl

theorem ends_bindLocal (name : Bytes) {type : Ty} {slot : Nat} (h : ctx.function = some fn)
    (hslot : slot + type.rep.words ≤ fn.nextSlot) :
    Ends (liftM (bindLocal name type slot) : StateT σ Gen Symbol) s ctx
      (.localVar name type slot) s (ctx.declareHere (.localVar name type slot)) := by
  refine ends_lift ?_
  change (if ctx.reserves type slot = true then _ else _ : Gen Symbol).run ctx = _
  have hend : Integer.narrow (slot + type.rep.words) ≤ fn.nextSlot :=
    Int.le_trans (Integer.narrow_le (by omega)) (by omega)
  rw [if_pos (by simpa [Context.reserves, h] using hend)]
  rfl

theorem ends_declareClass {fields : List Param} :
    Ends (liftM (declareClass name fields) : StateT σ Gen Symbol) s ctx (.ofClass name fields)
      s (ctx.declareHere (.ofClass name fields)) := rfl

theorem ends_declareFunction {params : List Param} {result : Ty} {storage : Bytes} :
    Ends (liftM (declareFunction name params result storage) : StateT σ Gen Symbol) s ctx
      (.ofFunction name params result storage)
      s (ctx.declareGlobally (.ofFunction name params result storage)) := rfl

theorem ends_declareGlobal {type : Ty} {storage : Bytes} :
    Ends (liftM (declareGlobal name type storage) : StateT σ Gen Symbol) s ctx
      (.staticVar name type storage)
      s (ctx.declareGlobally (.staticVar name type storage)) := rfl

theorem ends_beginFunction {result : Ty} :
    Ends (liftM (beginFunction name result) : StateT σ Gen Unit) s ctx ()
      s (ctx.beginning name result) := rfl

theorem ends_endFunction (h : ctx.scopes = scope :: outer) :
    Ends (liftM endFunction : StateT σ Gen Unit) s ctx ()
      s { ctx with scopes := outer, function := none } := by
  refine ends_lift ?_
  simp only [endFunction, leaveScope, StateT.run_bind, StateT.run_get, pure_bind, h]
  rfl

theorem ends_current {α : Type} {f : FunctionState → Gen α} {a : α} (h : ctx.function = some fn)
    (hf : (f fn).run ctx = .ok (a, ctx')) :
    Ends (liftM (current >>= f) : StateT σ Gen α) s ctx a s ctx' := by
  refine ends_lift ?_
  simp only [current, StateT.run_bind, StateT.run_get, pure_bind, h]
  exact hf

theorem ends_returnLabel (h : ctx.function = some fn) :
    Ends (liftM returnLabel : StateT σ Gen Label) s ctx fn.ret s ctx :=
  ends_current h rfl

theorem ends_slotsUsed (h : ctx.function = some fn) :
    Ends (liftM slotsUsed : StateT σ Gen Nat) s ctx fn.nextSlot s ctx :=
  ends_current h rfl

theorem ends_enterLoop {targets : LoopTargets} (h : ctx.function = some fn) :
    Ends (liftM (enterLoop targets) : StateT σ Gen (Option LoopTargets)) s ctx fn.loop
      s (ctx.looping fn (some targets)) :=
  ends_current h rfl

theorem ends_leaveLoop {saved : Option LoopTargets} (h : ctx.function = some fn) :
    Ends (liftM (leaveLoop saved) : StateT σ Gen Unit) s ctx () s (ctx.looping fn saved) :=
  ends_current h rfl

theorem run_claimHelper (name : Bytes) (ctx : Context) :
    (claimHelper name).run ctx =
      if name ∈ ctx.helpers then .ok (false, ctx) else .ok (true, ctx.claiming name) := by
  change (if ctx.helpers.contains name = true then _ else _ : Gen Bool).run ctx = _
  by_cases hclaimed : name ∈ ctx.helpers
  · rw [if_pos (List.contains_iff_mem.mpr hclaimed), if_pos hclaimed]
    rfl
  · rw [if_neg fun h => hclaimed (List.contains_iff_mem.mp h), if_neg hclaimed]
    rfl

theorem ends_requestHelper_old (emit : StateT σ Gen Unit) (h : name ∈ ctx.helpers) :
    Ends (requestHelper name emit) s ctx false s ctx :=
  ends_bind (ends_lift ((run_claimHelper name ctx).trans (if_pos h))) ends_pure

theorem ends_requestHelper_new {emit : StateT σ Gen Unit} {s' : σ} (h : name ∉ ctx.helpers)
    (hemit : Ends emit s (ctx.claiming name) () s' ctx') :
    Ends (requestHelper name emit) s ctx true s' ctx' :=
  ends_bind (ends_lift ((run_claimHelper name ctx).trans (if_neg h)))
    (ends_bind hemit ends_pure)

end Operations

end Codegen
