import Codegen.Proofs.Session

/-!
# Balanced Sessions

Scopes, functions and loops are opened and closed by operations of their own, and it is up to
whoever asks for them to close what is open and to hand back the loop that was there before. A
`Balanced` session does both. Whatever else it asks for, it leaves the scopes around it alone: it
declares in scopes that it closes, or globally. So a scope that is opened and closed again hides
and keeps nothing, except that functions and variables may have come to the global scope
(`scope_bracketed`).

## Theorems

* `scope_bracketed`: What there is after a scope is what there was before it.
-/

namespace Codegen

open List

namespace Operation

def bracket : Operation → Bool
  | .enterScope | .leaveScope | .beginFunction _ _ | .endFunction | .enterLoop _ | .leaveLoop _ =>
    true
  | _ => false

def delimits : Operation → Bool
  | .beginFunction _ _ | .endFunction => true
  | _ => false

/-- What an operation declares globally. -/
def declared? : Operation → Option Symbol
  | .declareGlobal name type storage => some (.staticVar name type storage)
  | .declareFunction name params result storage => some (.ofFunction name params result storage)
  | _ => none

end Operation

/-- Operations that close what they open, from a context on. A loop ends with the targets that
    there were when it began. -/
inductive Balanced : Context → List Operation → Prop
  | nil {ctx} : Balanced ctx []
  | plain {ctx op} (h : op.bracket = false) : Balanced ctx [op]
  | append {ctx ops ops'} (h : Balanced ctx ops) (h' : Balanced (session ops ctx).2 ops') :
      Balanced ctx (ops ++ ops')
  | scope {ctx body} (h : Balanced (Operation.enterScope.inPlace ctx).2 body) :
      Balanced ctx (.enterScope :: (body ++ [.leaveScope]))
  | function {ctx name result body}
      (h : Balanced ((Operation.beginFunction name result).inPlace ctx).2 body) :
      Balanced ctx (.beginFunction name result :: (body ++ [.endFunction]))
  | loop {ctx targets body} (h : Balanced ((Operation.enterLoop targets).inPlace ctx).2 body) :
      Balanced ctx (.enterLoop targets :: (body ++ [.leaveLoop ctx.loopTargets?]))

/-- What a function knows of where it is. -/
def Context.frame (ctx : Context) : Option (Ty × Option LoopTargets) :=
  ctx.function.map fun fn => (fn.result, fn.loop)

/-- What operations keep of the context in which they start, within a scope of their own. -/
structure Kept (outer : List Scope) (ops : List Operation) (ctx ctx' : Context) : Prop where
  scopes : ∃ scope, ctx'.scopes = scope :: outer
  globals : ctx'.globals = (ops.filterMap Operation.declared?).reverse ++ ctx.globals
  frame : (∀ op ∈ ops, op.delimits = false) → ctx'.frame = ctx.frame

variable {ctx : Context} {scope : Scope} {outer : List Scope}

/-- What one operation keeps that opens and closes nothing. -/
theorem plain_inPlace {op : Operation} (h : op.bracket = false)
    (hscopes : ctx.scopes = scope :: outer) : Kept outer [op] ctx (op.inPlace ctx).2 := by
  rcases ctx with ⟨_, _, _, _, _, _, function, _⟩
  obtain rfl := hscopes
  cases op with
  | enterScope | leaveScope | beginFunction | endFunction | enterLoop | leaveLoop => cases h
  | bindLocal =>
    rw [Operation.inPlace_bindLocal]
    split <;> exact ⟨⟨_, rfl⟩, rfl, fun _ => rfl⟩
  | claimHelper =>
    rw [Operation.inPlace_claimHelper]
    split <;> exact ⟨⟨_, rfl⟩, rfl, fun _ => rfl⟩
  | _ => cases function <;> exact ⟨⟨_, rfl⟩, rfl, fun _ => rfl⟩

theorem session_bracketed (first last : Operation) (body : List Operation) (ctx : Context) :
    (session (first :: (body ++ [last])) ctx).2 =
      (last.inPlace (session body (first.inPlace ctx).2).2).2 :=
  session_append body [last] (first.inPlace ctx).2

theorem declared?_bracketed {first last : Operation} (hfirst : first.declared? = none)
    (hlast : last.declared? = none) (body : List Operation) :
    (first :: (body ++ [last])).filterMap Operation.declared? =
      body.filterMap Operation.declared? := by
  rw [filterMap_cons_none hfirst, filterMap_append, filterMap_cons_none hlast]
  exact append_nil _

theorem leaveScope_inPlace (hscopes : ctx.scopes = scope :: outer) :
    Operation.leaveScope.inPlace ctx = (.ok .done, { ctx with scopes := outer }) := by
  rcases ctx with ⟨_, _, _, _, _, _, _, _⟩
  obtain rfl := hscopes
  rfl

theorem endFunction_inPlace (hscopes : ctx.scopes = scope :: outer) :
    Operation.endFunction.inPlace ctx =
      (.ok .done, { ctx with scopes := outer, function := none }) := by
  rcases ctx with ⟨_, _, _, _, _, _, _, _⟩
  obtain rfl := hscopes
  rfl

theorem leaveLoop_inPlace (saved : Option LoopTargets) (ctx : Context) :
    let ctx' := ((Operation.leaveLoop saved).inPlace ctx).2
    ctx'.scopes = ctx.scopes ∧ ctx'.globals = ctx.globals ∧
      ctx'.frame = ctx.frame.map fun frame => (frame.1, saved) := by
  rcases ctx with ⟨_, _, _, _, _, _, _ | _, _⟩ <;> exact ⟨rfl, rfl, rfl⟩

theorem enterLoop_inPlace (targets : LoopTargets) (ctx : Context) :
    ((Operation.enterLoop targets).inPlace ctx).2 =
      ((Operation.leaveLoop (some targets)).inPlace ctx).2 := by
  rcases ctx with ⟨_, _, _, _, _, _, _ | _, _⟩ <;> rfl

/-- Balanced operations declare in scopes that they close, in the innermost scope around them, or
    globally. -/
theorem Balanced.kept {ops : List Operation} (h : Balanced ctx ops)
    (hscopes : ctx.scopes = scope :: outer) : Kept outer ops ctx (session ops ctx).2 := by
  -- The scopes outside are kept general, since a body runs with one scope more.
  induction h generalizing scope outer with
  | nil => exact ⟨⟨scope, hscopes⟩, rfl, fun _ => rfl⟩
  | plain h => exact plain_inPlace h hscopes
  | append _ _ ih ih' =>
    -- The first part may have declared something in the innermost scope.
    have hfirst := ih hscopes
    rcases hfirst.scopes with ⟨scope', hscopes'⟩
    have hsecond := ih' hscopes'
    rw [session_append]
    refine ⟨hsecond.scopes, ?_, fun hops => ?_⟩
    · rw [hsecond.globals, hfirst.globals, filterMap_append, reverse_append,
        append_assoc]
    · obtain ⟨hops, hops'⟩ := forall_mem_append.mp hops
      rw [hsecond.frame hops', hfirst.frame hops]
  | scope _ ih =>
    have hbody := ih (congrArg (cons []) hscopes)
    rcases hbody.scopes with ⟨scope', hscopes'⟩
    rw [session_bracketed, leaveScope_inPlace hscopes']
    refine ⟨⟨scope, rfl⟩, ?_, fun hops => ?_⟩
    · rw [declared?_bracketed rfl rfl]
      exact hbody.globals
    · exact hbody.frame fun op hop => hops op (.tail _ (mem_append_left _ hop))
  | function _ ih =>
    have hbody := ih (congrArg (cons []) hscopes)
    rcases hbody.scopes with ⟨scope', hscopes'⟩
    rw [session_bracketed, endFunction_inPlace hscopes']
    -- A function begins here, so there is nothing to say about the frame.
    refine ⟨⟨scope, rfl⟩, ?_, fun hops => Bool.noConfusion (hops _ (.head _))⟩
    rw [declared?_bracketed rfl rfl]
    exact hbody.globals
  | @loop ctx targets body _ ih =>
    rw [session_bracketed]
    -- A loop is entered like it is left, by setting the targets.
    rw [enterLoop_inPlace] at ih ⊢
    obtain ⟨hscopes1, hglobals1, hframe1⟩ := leaveLoop_inPlace (some targets) ctx
    have hbody := ih (hscopes1.trans hscopes)
    obtain ⟨hscopes2, hglobals2, hframe2⟩ := leaveLoop_inPlace ctx.loopTargets? (session body _).2
    refine ⟨hscopes2 ▸ hbody.scopes, ?_, fun hops => ?_⟩
    · rw [declared?_bracketed rfl rfl, hglobals2, hbody.globals, hglobals1]
    · rw [hframe2, hbody.frame fun op hop => hops op (.tail _ (mem_append_left _ hop))]
      rcases ctx with ⟨_, _, _, _, _, _, _ | _, _⟩ <;> rfl

namespace Context

theorem loopTargets?_frame (ctx : Context) : ctx.loopTargets? = ctx.frame.bind Prod.snd := by
  unfold loopTargets? frame
  cases ctx.function <;> rfl

theorem returnType_frame (ctx : Context) :
    ctx.returnType = (ctx.frame.map Prod.fst).getD .void := by
  unfold returnType frame
  cases ctx.function <;> rfl

end Context

/-- After a scope that is opened and closed again, with balanced operations in between, names
    stand for what they stood for before it. Only where no scope but the global one has a name may
    it stand for the last function or variable of that name that was declared globally meanwhile.
    If no function began or ended, the result type and the loop are those of before. -/
theorem scope_bracketed (ctx : Context) {body : List Operation}
    (h : Balanced (Operation.enterScope.inPlace ctx).2 body) :
    let after := (session (.enterScope :: (body ++ [.leaveScope])) ctx).2
    after.scopes = ctx.scopes ∧
    (∀ name, after.lookup? name =
      if Scope.resolve? ctx.scopes name = none then
        ((body.filterMap Operation.declared?).reverse.find? (·.name == name)).or (ctx.lookup? name)
      else ctx.lookup? name) ∧
    ((∀ op ∈ body, op.delimits = false) →
      after.loopTargets? = ctx.loopTargets? ∧ after.returnType = ctx.returnType) := by
  intro after
  have hbody := h.kept rfl
  rcases hbody.scopes with ⟨scope, hscopes⟩
  have hafter : after = { (session body (Operation.enterScope.inPlace ctx).2).2 with
      scopes := ctx.scopes } := by
    unfold after
    rw [session_bracketed, leaveScope_inPlace hscopes]
  have hscopes : after.scopes = ctx.scopes := by rw [hafter]
  have hglobals : after.globals = _ := (congrArg _ hafter).trans hbody.globals
  refine ⟨hscopes, fun name => ?_, fun hops => ?_⟩
  · -- The scopes come first, and they are the old ones.
    rw [after.lookup?_eq, ctx.lookup?_eq, hscopes, hglobals, Scope.find?, List.find?_append]
    cases Scope.resolve? ctx.scopes name <;> rfl
  · have hframe : after.frame = ctx.frame := (congrArg _ hafter).trans (hbody.frame hops)
    rw [after.loopTargets?_frame, after.returnType_frame, hframe, ctx.loopTargets?_frame,
      ctx.returnType_frame]
    exact ⟨rfl, rfl⟩

namespace Sample

def within : Context :=
  { target := "wasm"
    scopes := [[.localVar "x" .text 0]]
    function := some ⟨"f", .text, 2, ⟨0⟩, some ⟨⟨1⟩, ⟨2⟩⟩⟩ }

def brackets : List Operation :=
  [.declareGlobal "x" .text "x"] ++ ([.declareGlobal "y" .text "y"] ++
    .enterLoop ⟨⟨3⟩, ⟨4⟩⟩ :: (.enterScope :: ([.declareLocal "y" .text] ++ [.leaveScope]) ++
      [.leaveLoop (some ⟨⟨1⟩, ⟨2⟩⟩)]))

end Sample

/-- The first variable stays hidden, the second one is new, and the loop is the outer one. -/
theorem scope_bracketed_nested :
    Balanced (Operation.enterScope.inPlace Sample.within).2 Sample.brackets ∧
    (session (.enterScope :: (Sample.brackets ++ [.leaveScope])) Sample.within).2.lookup? "x" =
      some (.localVar "x" .text 0) ∧
    (session (.enterScope :: (Sample.brackets ++ [.leaveScope])) Sample.within).2.lookup? "y" =
      some (.staticVar "y" .text "y") ∧
    (session (.enterScope :: (Sample.brackets ++ [.leaveScope])) Sample.within).2.loopTargets? =
      some ⟨⟨1⟩, ⟨2⟩⟩ := by
  have h : Balanced (Operation.enterScope.inPlace Sample.within).2 Sample.brackets :=
    .append (.plain rfl) (.append (.plain rfl) (.loop (.scope (.plain rfl))))
  obtain ⟨-, hlookup, hloop⟩ := scope_bracketed Sample.within h
  exact ⟨h, (hlookup "x").trans (by decide), (hlookup "y").trans (by decide),
    (hloop (by decide)).1⟩

end Codegen
