import Codegen.Proofs.Operations
import Mathlib.Data.List.Nodup

/-!
# Sessions with a Generation Context

A session asks one thing after the other of a generation context, whatever makes sense or not. An
operation that fails has no context to hand on, so there is no saying in `Gen` what it did before
it failed. `Operation.act` is the text of the operations for any monad with a context and faults:
in `Gen` it is what the operations are, and in a monad that changes its context in place a fault
leaves behind what was changed until then. `Operation.inPlace_eq` says that nothing was.

## Theorems

* `session_invariant`: What holds in every session.
-/

namespace Codegen

open List

variable {fn : FunctionState}

/-- What can be asked of a context. -/
inductive Operation where
  | newLabel
  | enterScope
  | leaveScope
  | lookup (name : Bytes)
  | declareGlobal (name : Bytes) (type : Ty) (storage : Bytes)
  | declareLocal (name : Bytes) (type : Ty)
  | hiddenLocal (type : Ty)
  | bindLocal (name : Bytes) (type : Ty) (slot : Int64)
  | declareFunction (name : Bytes) (params : List Param) (result : Ty) (storage : Bytes)
  | declareClass (name : Bytes) (fields : List Param)
  | beginFunction (name : Bytes) (result : Ty)
  | endFunction
  | returnType
  | returnLabel
  | slotsUsed
  | enterLoop (targets : LoopTargets)
  | leaveLoop (saved : Option LoopTargets)
  | loopTargets
  | addLiteral (raw : Bytes)
  | reserveData (size align : Int64)
  | claimHelper (name : Bytes)
  | record (kind message : Bytes)

/-- What a context answers. -/
inductive Answer where
  | done
  | label (label : Label)
  | symbol (sym : Symbol)
  | found (sym? : Option Symbol)
  | count (n : Int)
  | type (type : Ty)
  | targets (loop : Option LoopTargets)
  | literal (lit : Literal)
  | flag (b : Bool)

namespace Operation

/-- The operations of a generation pass. The answer to the beginning of a function is its return
    label. -/
def perform : Operation → Gen Answer
  | .newLabel => return .label (← Gen.newLabel)
  | .enterScope => do Gen.enterScope; return .done
  | .leaveScope => do Gen.leaveScope; return .done
  | .lookup name => return .found ((← get).lookup? name)
  | .declareGlobal name type storage => return .symbol (← Gen.declareGlobal name type storage)
  | .declareLocal name type => return .symbol (← Gen.declareLocal name type)
  | .hiddenLocal type => return .count (← Gen.hiddenLocal type)
  | .bindLocal name type slot => return .symbol (← Gen.bindLocal name type slot.toInt)
  | .declareFunction name params result storage =>
    return .symbol (← Gen.declareFunction name params result storage)
  | .declareClass name fields => return .symbol (← Gen.declareClass name fields)
  | .beginFunction name result => do
    Gen.beginFunction name result
    return .label (← Gen.returnLabel)
  | .endFunction => do Gen.endFunction; return .done
  | .returnType => return .type (← get).returnType
  | .returnLabel => return .label (← Gen.returnLabel)
  | .slotsUsed => return .count (← Gen.slotsUsed)
  | .enterLoop targets => return .targets (← Gen.enterLoop targets)
  | .leaveLoop saved => do Gen.leaveLoop saved; return .done
  | .loopTargets => return .targets (← get).loopTargets?
  | .addLiteral raw => return .literal (← Gen.addLiteral raw)
  | .reserveData size align => return .count (← Gen.reserveData size.toInt align.toInt)
  | .claimHelper name => return .flag (← Gen.claimHelper name)
  | .record kind message => do Gen.record kind message; return .done

section Text

variable {m : Type → Type} [Monad m] [MonadStateOf Context m] [MonadExceptOf Fault m]

def current : m FunctionState := do
  match (← get).function with
  | some fn => return fn
  | none => throw .noFunction

def closeScope : m Unit := do
  let ctx ← get
  match ctx.scopes with
  | [] => throw .leavingGlobalScope
  | _ :: outer => set { ctx with scopes := outer }

def takeSlots (type : Ty) : m Nat := do
  match (← get).function with
  | none => throw .localOutsideFunction
  | some fn =>
    modify fun ctx => ctx.taking fn type.rep.words
    return fn.nextSlot

def declare (place : Context → Symbol → Context) (sym : Symbol) : m Answer := do
  modify fun ctx => place ctx sym
  return .symbol sym

/-- An operation where contexts are changed in place. -/
def act : Operation → m Answer
  | .newLabel => do
    let ctx ← get
    set (ctx.labeling 1)
    return .label ⟨ctx.labels⟩
  | .enterScope => do modify Context.entering; return .done
  | .leaveScope => do closeScope; return .done
  | .lookup name => return .found ((← get).lookup? name)
  | .declareGlobal name type storage =>
    declare Context.declareGlobally (.staticVar name type storage)
  | .declareLocal name type => do
    declare Context.declareHere (.localVar name type (← takeSlots type))
  | .hiddenLocal type => return .count (← takeSlots type)
  | .bindLocal name type slot => do
    if (← get).reserves type slot.toInt then
      declare Context.declareHere (.localVar name type slot.toInt)
    else throw (.unreservedSlot name slot.toInt)
  | .declareFunction name params result storage =>
    declare Context.declareGlobally (.ofFunction name params result storage)
  | .declareClass name fields => declare Context.declareHere (.ofClass name fields)
  | .beginFunction name result => do
    let ctx ← get
    set (ctx.labeling 1)
    modify fun ctx' => { ctx' with function := some { name, result, ret := ⟨ctx.labels⟩ } }
    modify Context.entering
    -- There is a function now, so this does not fail.
    return .label (← current).ret
  | .endFunction => do
    -- If this fails, the function is still there.
    closeScope
    modify fun ctx => { ctx with function := none }
    return .done
  | .returnType => return .type (← get).returnType
  | .returnLabel => return .label (← current).ret
  | .slotsUsed => return .count (← current).nextSlot
  | .enterLoop targets => do
    let fn ← current
    modify fun ctx => ctx.looping fn (some targets)
    return .targets fn.loop
  | .leaveLoop saved => do
    let fn ← current
    modify fun ctx => ctx.looping fn saved
    return .done
  | .loopTargets => return .targets (← get).loopTargets?
  | .addLiteral raw => do
    let ctx ← get
    let (lit, data) := ctx.data.addLiteral raw
    set { ctx with data }
    return .literal lit
  | .reserveData size align => do
    let ctx ← get
    let (offset, data) := ctx.data.reserve size.toInt align.toInt
    set { ctx with data }
    return .count offset
  | .claimHelper name => do
    let ctx ← get
    if ctx.helpers.contains name then return .flag false
    else
      set (ctx.claiming name)
      return .flag true
  | .record kind message => do
    modify fun ctx => { ctx with limitations := ctx.limitations ++ [⟨ctx.target, kind, message⟩] }
    return .done

end Text

/-- The text of the operations is what they are. -/
theorem act_eq_perform (op : Operation) : op.act = op.perform := by
  refine StateT.ext fun ctx => ?_
  cases op with
  | bindLocal =>
    simp only [act, perform, Gen.bindLocal, StateT.run_bind, StateT.run_get, pure_bind]
    split <;> rfl
  | claimHelper =>
    simp only [act, perform, Gen.claimHelper, StateT.run_bind, StateT.run_get, pure_bind]
    split <;> rfl
  | _ =>
    -- The others look at no more of a context than whether there is a function and a scope.
    rcases ctx with ⟨_, _, _, _, _ | ⟨_, _⟩, _, _ | _, _⟩ <;> rfl

/-- An operation on a context that is changed in place: what it answers, and the context after
    it, also after a fault. -/
def inPlace (op : Operation) (ctx : Context) : Except Fault Answer × Context :=
  (op.act : ExceptT Fault (StateM Context) Answer).run ctx

section InPlace

variable (ctx : Context)

theorem inPlace_bindLocal (name : Bytes) (type : Ty) (slot : Int64) :
    (bindLocal name type slot).inPlace ctx =
      if ctx.reserves type slot.toInt then
        (.ok (.symbol (.localVar name type slot.toInt)),
          ctx.declareHere (.localVar name type slot.toInt))
      else (.error (.unreservedSlot name slot.toInt), ctx) := by
  change (if _ = true then _ else _ : ExceptT Fault (StateM Context) Answer).run ctx = _
  split <;> rfl

theorem inPlace_claimHelper (name : Bytes) :
    (claimHelper name).inPlace ctx =
      if ctx.helpers.contains name then (.ok (.flag false), ctx)
      else (.ok (.flag true), ctx.claiming name) := by
  change (if _ = true then _ else _ : ExceptT Fault (StateM Context) Answer).run ctx = _
  split <;> rfl

theorem inPlace_slotsUsed {ctx : Context} (hfn : ctx.function = some fn) :
    (slotsUsed.inPlace ctx).1 = .ok (.count fn.nextSlot) := by
  rcases ctx with ⟨_, _, _, _, _, _, _, _⟩
  obtain rfl := hfn
  rfl

/-- A fault leaves the context as it was. -/
theorem inPlace_eq (op : Operation) :
    op.inPlace ctx = (op.perform.run ctx).casesOn (fun fault => (.error fault, ctx))
      fun after => (.ok after.1, after.2) := by
  rw [← act_eq_perform]
  cases op with
  | bindLocal =>
    rw [inPlace_bindLocal]
    simp only [act, StateT.run_bind, StateT.run_get, pure_bind]
    split <;> rfl
  | claimHelper =>
    rw [inPlace_claimHelper]
    simp only [act, StateT.run_bind, StateT.run_get, pure_bind]
    split <;> rfl
  | _ => rcases ctx with ⟨_, _, _, _, _ | ⟨_, _⟩, _, _ | _, _⟩ <;> rfl

def fault? (ctx : Context) : Operation → Option Fault
  | .leaveScope | .endFunction => if ctx.scopes = [] then some .leavingGlobalScope else none
  | .declareLocal _ _ | .hiddenLocal _ =>
    if ctx.function = none then some .localOutsideFunction else none
  | .bindLocal name type slot =>
    if ctx.reserves type slot.toInt then none else some (.unreservedSlot name slot.toInt)
  | .returnLabel | .slotsUsed | .enterLoop _ | .leaveLoop _ =>
    if ctx.function = none then some .noFunction else none
  | _ => none

theorem fault?_eq (op : Operation) :
    op.fault? ctx = (op.perform.run ctx).casesOn some fun _ => none := by
  rw [← act_eq_perform]
  cases op with
  | bindLocal =>
    simp only [act, fault?, StateT.run_bind, StateT.run_get, pure_bind]
    split <;> rfl
  | claimHelper =>
    simp only [act, StateT.run_bind, StateT.run_get, pure_bind]
    split <;> rfl
  | _ => rcases ctx with ⟨_, _, _, _, _ | ⟨_, _⟩, _, _ | _, _⟩ <;> rfl

theorem perform_eq_error_iff (op : Operation) (fault : Fault) :
    op.perform.run ctx = .error fault ↔ op.fault? ctx = some fault := by
  rw [fault?_eq]
  cases op.perform.run ctx with
  | error => simp
  | ok => simp

end InPlace

end Operation

/-- What was asked, and the answer or the fault. -/
structure Event where
  op : Operation
  answer : Except Fault Answer

/-- Operations one after the other, with all answers and faults. -/
def session : List Operation → Context → List Event × Context
  | [], ctx => ([], ctx)
  | op :: ops, ctx =>
    let after := op.inPlace ctx
    let rest := session ops after.2
    (⟨op, after.1⟩ :: rest.1, rest.2)

/-- Places from one on. -/
structure Span where
  first : Int
  count : Nat

namespace Event

def label? : Event → Option Label
  | ⟨.newLabel, .ok (.label l)⟩ | ⟨.beginFunction _ _, .ok (.label l)⟩ => some l
  | _ => none

def taken? : Event → Option Span
  | ⟨.declareLocal _ type, .ok (.symbol sym)⟩ => some ⟨sym.slot, type.rep.words⟩
  | ⟨.hiddenLocal type, .ok (.count slot)⟩ => some ⟨slot, type.rep.words⟩
  | _ => none

def bound? : Event → Option Span
  | ⟨.bindLocal _ type slot, .ok _⟩ => some ⟨slot.toInt, type.rep.words⟩
  | _ => none

def delimits : Event → Bool
  | ⟨.beginFunction _ _, _⟩ | ⟨.endFunction, .ok _⟩ => true
  | _ => false

end Event

/-- Spans lie one after the other, from one place up to another. `next` says how far a span may be
    from the one before it. -/
def Laid (next : Int → Int → Prop) : Int → List Span → Int → Prop
  | start, [], stop => start = stop
  | start, span :: spans, stop =>
    next start span.first ∧ Laid next (span.first + span.count) spans stop

namespace Laid

variable {next : Int → Int → Prop} {start middle stop : Int} {spans spans' : List Span}

theorem append (h : Laid next start spans middle) (h' : Laid next middle spans' stop) :
    Laid next start (spans ++ spans') stop := by
  induction spans generalizing start with
  | nil =>
    obtain rfl : start = middle := h
    exact h'
  | cons _ _ ih => exact ⟨h.1, ih h.2⟩

theorem le (hnext : ∀ {a b}, next a b → a ≤ b) (h : Laid next start spans stop) :
    start ≤ stop := by
  induction spans generalizing start with
  | nil => exact Int.le_of_eq h
  | cons _ _ ih =>
    have hfirst := hnext h.1
    have hrest := ih h.2
    omega

theorem pairwise (hnext : ∀ {a b}, next a b → a ≤ b) (h : Laid next start spans stop) :
    (∀ span ∈ spans, start ≤ span.first ∧ span.first + span.count ≤ stop) ∧
      spans.Pairwise fun a b : Span => a.first + a.count ≤ b.first := by
  induction spans generalizing start with
  | nil => exact ⟨forall_mem_nil _, .nil⟩
  | cons span _ ih =>
    -- The rest is laid from the end of this span on.
    obtain ⟨hwithin, hpairwise⟩ := ih h.2
    refine ⟨forall_mem_cons.mpr ⟨⟨hnext h.1, h.2.le hnext⟩, fun later hlater => ?_⟩,
      .cons (fun later hlater => (hwithin later hlater).1) hpairwise⟩
    have := hnext h.1
    have := hwithin later hlater
    omega

end Laid

section Steps

variable (op : Operation) {ctx : Context}

theorem label?_inPlace (ctx : Context) : ∃ count,
    (Event.mk op (op.inPlace ctx).1).label?.toList = (range' ctx.labels count).map Label.mk ∧
      (op.inPlace ctx).2.labels = ctx.labels + count := by
  cases op with
  | newLabel | beginFunction => exact ⟨1, rfl, rfl⟩
  | bindLocal =>
    refine ⟨0, rfl, ?_⟩
    rw [Operation.inPlace_bindLocal]
    split
    · rcases ctx with ⟨_, _, _, _, _ | ⟨_, _⟩, _, _, _⟩ <;> rfl
    · rfl
  | claimHelper =>
    refine ⟨0, rfl, ?_⟩
    rw [Operation.inPlace_claimHelper]
    split <;> rfl
  | _ => exact ⟨0, by rcases ctx with ⟨_, _, _, _, _ | ⟨_, _⟩, _, _ | _, _⟩ <;> exact ⟨rfl, rfl⟩⟩

/-- Where a name is bound, its slots are taken, or they end behind the last number of 64 bits. -/
def Span.Bound (used : Nat) (span : Span) : Prop :=
  span.first + span.count ≤ used ∨ 0x8000000000000000 ≤ span.first + span.count

theorem Span.Bound.mono {span : Span} {n m : Nat} (h : span.Bound n) (hle : (n : Int) ≤ m) :
    span.Bound m := h.imp_left fun hend => Int.le_trans hend hle

theorem bound_of_reserves {type : Ty} {slot : Int64} (hfn : ctx.function = some fn)
    (h : ctx.reserves type slot.toInt = true) : Span.Bound fn.nextSlot ⟨slot.toInt, type.rep.words⟩ := by
  have hend : Integer.narrow (slot.toInt + type.rep.words) ≤ fn.nextSlot := by
    simpa [Context.reserves, hfn] using h
  refine Decidable.or_iff_not_imp_right.mpr fun hfits => ?_
  have hlow := slot.le_toInt
  have hhigh : slot.toInt + type.rep.words < 0x8000000000000000 := Int.not_le.mp hfits
  rwa [Integer.narrow_of_fits (by omega) hhigh] at hend

/-- Between its beginning and its end, a function takes the next slots or none, and names are
    bound to slots that it took. -/
theorem taken?_inPlace (hfn : ctx.function = some fn)
    (h : (Event.mk op (op.inPlace ctx).1).delimits = false) : ∃ fn',
    (op.inPlace ctx).2.function = some fn' ∧
      Laid Eq fn.nextSlot (Event.mk op (op.inPlace ctx).1).taken?.toList fn'.nextSlot ∧
      ∀ span ∈ (Event.mk op (op.inPlace ctx).1).bound?.toList, span.Bound fn'.nextSlot := by
  rcases ctx with ⟨_, _, _, _, scopes, _, function, _⟩
  obtain rfl : function = some fn := hfn
  cases op with
  | beginFunction => cases h
  | endFunction =>
    -- Without a scope it fails, and the function goes on.
    cases scopes with
    | nil => exact ⟨_, rfl, rfl, forall_mem_nil _⟩
    | cons => cases h
  | declareLocal _ type | hiddenLocal type =>
    refine ⟨{ fn with nextSlot := fn.nextSlot + type.rep.words }, ?_, ⟨rfl, rfl⟩,
      forall_mem_nil _⟩
    cases scopes <;> rfl
  | bindLocal name type slot =>
    rw [Operation.inPlace_bindLocal]
    split
    · next hslot =>
      exact ⟨fn, by cases scopes <;> rfl, rfl,
        forall_mem_singleton.mpr (bound_of_reserves rfl hslot)⟩
    · exact ⟨fn, rfl, rfl, forall_mem_nil _⟩
  | claimHelper =>
    refine ⟨fn, ?_, rfl, forall_mem_nil _⟩
    rw [Operation.inPlace_claimHelper]
    split <;> rfl
  | _ => exact ⟨_, by cases scopes <;> rfl, by cases scopes <;> rfl, forall_mem_nil _⟩

end Steps

section Runs

/-- What a session has of something is what its first operation has and then its rest. -/
theorem filterMap_session {α : Type} (f : Event → Option α) (op : Operation)
    (ops : List Operation) (ctx : Context) :
    (session (op :: ops) ctx).1.filterMap f =
      (f ⟨op, (op.inPlace ctx).1⟩).toList ++ (session ops (op.inPlace ctx).2).1.filterMap f := by
  rw [session, filterMap_eq_flatMap_toList, flatMap_cons,
    ← filterMap_eq_flatMap_toList]

theorem session_append (ops ops' : List Operation) (ctx : Context) :
    (session (ops ++ ops') ctx).2 = (session ops' (session ops ctx).2).2 := by
  induction ops generalizing ctx with
  | nil => rfl
  | cons _ _ ih => exact ih _

theorem labels_session (ops : List Operation) (ctx : Context) : ∃ count,
    (session ops ctx).1.filterMap Event.label? = (range' ctx.labels count).map Label.mk := by
  induction ops generalizing ctx with
  | nil => exact ⟨0, rfl⟩
  | cons op _ ih =>
    rcases label?_inPlace op ctx with ⟨first, hlabel, hlabels⟩
    rcases ih (op.inPlace ctx).2 with ⟨later, hrest⟩
    -- The later labels begin where the first ones end.
    refine ⟨first + later, ?_⟩
    rw [filterMap_session, hlabel, hrest, hlabels, ← map_append, range'_append_1]

theorem slots_session (ops : List Operation) {ctx : Context} (hfn : ctx.function = some fn)
    (h : ∀ event ∈ (session ops ctx).1, event.delimits = false) :
    ∃ fn', (session ops ctx).2.function = some fn' ∧
      Laid Eq fn.nextSlot ((session ops ctx).1.filterMap Event.taken?) fn'.nextSlot ∧
      ∀ span ∈ (session ops ctx).1.filterMap Event.bound?, span.Bound fn'.nextSlot := by
  induction ops generalizing ctx fn with
  | nil => exact ⟨fn, hfn, rfl, forall_mem_nil _⟩
  | cons op _ ih =>
    obtain ⟨hop, hops⟩ := forall_mem_cons.mp h
    rcases taken?_inPlace op hfn hop with ⟨fn1, hfn1, htaken, hbound⟩
    rcases ih hfn1 hops with ⟨fn', hfn', hrest, hbound'⟩
    -- Slots are only added, so what was bound before stays below.
    rw [filterMap_session, filterMap_session]
    exact ⟨fn', hfn', htaken.append hrest, forall_mem_append.mpr
      ⟨fun span hspan => (hbound span hspan).mono (hrest.le Int.le_of_eq), hbound'⟩⟩

/-- What holds in every session with a new context. No label is handed out twice. From the
    beginning of a function on, until another begins or it ends, slots are taken one after the
    other from zero up to the number of slots used, so no two of them overlap, and names are bound
    to slots below that number, unless the slots end behind the last number of 64 bits. An
    operation does in place what it does in `Gen`, and where it fails, as it does for few reasons,
    it leaves the context as it was. -/
theorem session_invariant (target : Bytes) :
    (∀ ops, ((session ops { target }).1.filterMap Event.label?).Nodup) ∧
    (∀ before name result inside,
      let begun := (session (before ++ [.beginFunction name result]) { target }).2
      let events := (session inside begun).1
      (∀ event ∈ events, event.delimits = false) →
        ∃ used : Nat, (Operation.slotsUsed.inPlace (session inside begun).2).1 = .ok (.count used) ∧
          Laid Eq 0 (events.filterMap Event.taken?) used ∧
          ((events.filterMap Event.taken?).Pairwise fun a b : Span => a.first + a.count ≤ b.first) ∧
          ∀ span ∈ events.filterMap Event.bound?, span.first + span.count ≤ used ∨
            0x8000000000000000 ≤ span.first + span.count) ∧
    ∀ (op : Operation) (ctx : Context),
      (∀ answer ctx', op.perform.run ctx = .ok (answer, ctx') →
        op.inPlace ctx = (.ok answer, ctx')) ∧
      (∀ fault, op.perform.run ctx = .error fault → op.inPlace ctx = (.error fault, ctx)) ∧
      ∀ fault, op.perform.run ctx = .error fault ↔ op.fault? ctx = some fault := by
  refine ⟨fun ops => ?_, ?_, fun op ctx => ⟨fun answer ctx' h => ?_, fun fault h => ?_,
    op.perform_eq_error_iff ctx⟩⟩
  · rcases labels_session ops { target } with ⟨count, hlabels⟩
    rw [hlabels]
    exact List.Nodup.map (fun a b h => congrArg Label.id h) nodup_range'
  · intro before name result inside begun events h
    have hbegun : begun = _ := session_append before [.beginFunction name result] { target }
    rcases slots_session inside (congrArg Context.function hbegun) h with ⟨fn, hfn, hlaid, hbound⟩
    exact ⟨fn.nextSlot, Operation.inPlace_slotsUsed hfn, hlaid, (hlaid.pairwise Int.le_of_eq).2,
      hbound⟩
  · rw [op.inPlace_eq ctx, h]
  · rw [op.inPlace_eq ctx, h]

/-- The last number of 64 bits is accepted as a slot although no slot was taken. -/
theorem binding_running_over :
    let after := session [.beginFunction "f" .void, .bindLocal "x" .integer Int64.maxValue]
      { target := "arm64" }
    after.1.filterMap Event.bound? = [⟨0x7FFFFFFFFFFFFFFF, 1⟩] ∧
      (Operation.slotsUsed.inPlace after.2).1 = .ok (.count 0) := ⟨rfl, rfl⟩

end Runs

end Codegen
