import Codegen.Proofs.Outputs
import Mathlib.Algebra.GroupWithZero.Nat

/-!
# The Two Generators Side by Side

Both generators drive a context of their own through a program. They look at the program in
different ways: they evaluate arguments in different orders, refuse different expressions and
keep other data. Still they declare the same names with the same types in the same order, and
a name that both look up means the same thing to them.

Where a name is kept differs in two ways only. A function of a module has a scratch cell after
its parameters, so every later slot is one more, and the names of a module begin with a dollar
sign.

The argument is a simulation. Contexts are alongside each other if their scopes correspond
entry by entry and their next slots are one apart. The rules for AArch64 and the rules for
WebAssembly that apply to the same statement take such contexts to such contexts.

## Theorems

* `document_beside`: Documents.
-/

namespace Codegen

open Context List

variable {a w : Symbol}

/-- What a name stands for in the two outputs, in a function whose parameters take `base` slots. -/
inductive Symbol.Corresponds (base : Nat) : Symbol → Symbol → Prop where
  | param {name type slot} (h : slot < base) :
      Corresponds base (.localVar name type slot) (.localVar name type slot)
  | local {name type slot} (h : base ≤ slot) :
      Corresponds base (.localVar name type slot) (.localVar name type (slot + 1))
  | static {name type storage} :
      Corresponds base (.staticVar name type storage) (.staticVar name type ("$" ++ storage))
  | function {name params result storage} :
      Corresponds base (.ofFunction name params result storage)
        (.ofFunction name params result ("$" ++ storage))
  | classType {name fields} : Corresponds base (.ofClass name fields) (.ofClass name fields)

namespace Symbol.Corresponds

variable {base : Nat}

theorem name (h : a.Corresponds base w) : a.name = w.name := by cases h <;> rfl

theorem alike (h : a.Corresponds base w) : a.Alike Eq w := by cases h <;> exact ⟨rfl, rfl, rfl, rfl⟩

end Symbol.Corresponds

/-- The generators do the same: they declare the same name in corresponding slots, take
    corresponding slots, or evaluate the same expressions, and a name that both look up stands
    for corresponding things. -/
inductive Step.Beside (base : Nat) : Step → Step → Prop where
  | declared {name type slot} (h : base ≤ slot) :
      Beside base (.declared (.localVar name type slot)) (.declared (.localVar name type (slot + 1)))
  | classDecl {name fields} :
      Beside base (.declared (.ofClass name fields)) (.declared (.ofClass name fields))
  | reserved {slot} (h : base ≤ slot) : Beside base (.reserved slot) (.reserved (slot + 1))
  | evaluated {ts reads reads'}
      (h : ∀ a ∈ reads, ∀ w ∈ reads', a.name = w.name →
        Option.Rel (Symbol.Corresponds base) a.symbol w.symbol) :
      Beside base (.evaluated ts reads) (.evaluated ts reads')

def Frame.base (f : Frame) : Nat := (f.params.map fun sym => sym.type.rep.words).sum

/-- The generators do the same in a function. -/
structure Frame.Beside (a w : Frame) : Prop where
  name : a.name = w.name
  params : a.params = w.params
  steps : Forall₂ (Step.Beside a.base) a.steps w.steps

section Names

variable {base : Nat} {scope scope' : Scope} {ca cw : Context}

theorem find?_corresponds (h : Forall₂ (Symbol.Corresponds base) scope scope') (name : Bytes) :
    Option.Rel (Symbol.Corresponds base) (scope.find? name) (scope'.find? name) := by
  unfold Scope.find?
  induction h with
  | nil => exact .none
  | @cons _ w _ _ hsym _ ih =>
    rw [find?_cons, find?_cons, hsym.name]
    cases w.name == name with
    | true => exact .some hsym
    | false => exact ih

theorem resolve?_corresponds {scopes scopes' : List Scope}
    (h : Forall₂ (Forall₂ (Symbol.Corresponds base)) scopes scopes') (name : Bytes) :
    Option.Rel (Symbol.Corresponds base) (Scope.resolve? scopes name)
      (Scope.resolve? scopes' name) := by
  unfold Scope.resolve?
  induction h with
  | nil => exact .none
  | @cons a w _ _ hscope _ ih =>
    rw [findSome?_cons, findSome?_cons]
    have hfound := find?_corresponds hscope name
    generalize a.find? name = x at hfound ⊢
    generalize w.find? name = y at hfound ⊢
    cases hfound with
    | some hsym => exact .some hsym
    | none => exact ih

/-- Types depend on names only. -/
theorem Context.Agrees.typeOf_eq (h : ca.Agrees Eq cw) (t : Term) : ca.typeOf t = cw.typeOf t := by
  induction t using Term.induction with
  | missing => rfl
  | call => simp [Context.typeOf, h.callType]
  | node p parts ih =>
    rw [Context.typeOf.eq_def, Context.typeOf.eq_def]
    have hnames : ((ca.varNamed? p.name).map Symbol.type).getD .unknown =
        ((cw.varNamed? p.name).map Symbol.type).getD .unknown := by
      rcases h.varNamed? p.name with ⟨ha, hw⟩ | ⟨a, w, ha, hw, hsym⟩
      · rw [ha, hw]
      · rw [ha, hw, Option.map_some, Option.map_some, hsym.type]
    rcases parts with _ | ⟨first, _ | ⟨second, rest⟩⟩
    · simp [hnames]
    · simp [hnames, ih first (by simp)]
    · simp [hnames, ih first (by simp), ih second (by simp)]

end Names

/-- Contexts whose scopes correspond entry by entry. -/
structure Context.Mirrors (base : Nat) (ca cw : Context) : Prop where
  globals : Forall₂ (Symbol.Corresponds base) ca.globals cw.globals
  scopes : Forall₂ (Forall₂ (Symbol.Corresponds base)) ca.scopes cw.scopes

variable {type : Ty}

namespace Context.Mirrors

variable {base : Nat} {ca cw : Context}

theorem lookup? (h : ca.Mirrors base cw) (name : Bytes) :
    Option.Rel (Symbol.Corresponds base) (ca.lookup? name) (cw.lookup? name) :=
  resolve?_corresponds (rel_append h.scopes (.cons h.globals .nil)) name

theorem agrees (h : ca.Mirrors base cw) : ca.Agrees Eq cw := by
  intro name
  generalize ha : ca.lookup? name = a
  generalize hw : cw.lookup? name = w
  have hsyms := h.lookup? name
  rw [ha, hw] at hsyms
  cases hsyms with
  | none => exact Or.inl ⟨rfl, rfl⟩
  | some hsym => exact Or.inr ⟨_, _, rfl, rfl, hsym.alike⟩

theorem declaredType (h : ca.Mirrors base cw) {init : Term} {a w : Ty}
    (ha : ca.declaredType type init = .ok a) (hw : cw.declaredType type init = .ok w) : a = w := by
  unfold Context.declaredType at ha hw
  rw [h.agrees.typeOf_eq init] at ha
  exact Except.ok.inj (ha.symm.trans hw)

theorem declareHere (h : ca.Mirrors base cw) (hsym : a.Corresponds base w) :
    (ca.declareHere a).Mirrors base (cw.declareHere w) := by
  have hscopes := h.scopes
  unfold Context.declareHere
  cases ha : ca.scopes with rw [ha] at hscopes
  | nil =>
    rw [forall₂_nil_left_iff.mp hscopes]
    exact ⟨.cons hsym h.globals, .nil⟩
  | cons =>
    cases hw : cw.scopes with rw [hw] at hscopes
    | nil => cases hscopes
    | cons =>
      obtain ⟨hscope, houter⟩ := forall₂_cons.mp hscopes
      exact ⟨h.globals, .cons (.cons hsym hscope) houter⟩

theorem declaring (h : ca.Mirrors base cw) {fa fw : FunctionState} {name : Bytes}
    (hsym : (Symbol.localVar name type fa.nextSlot).Corresponds base
      (.localVar name type fw.nextSlot)) :
    (ca.declaring fa name type).Mirrors base (cw.declaring fw name type) := by
  have htaken : (ca.taking fa type.rep.words).Mirrors base (cw.taking fw type.rep.words) :=
    ⟨h.globals, h.scopes⟩
  exact htaken.declareHere hsym

theorem reported (h : ca.Mirrors base cw) (is js : List Issue) :
    (ca.reporting is).Mirrors base (cw.reporting js) := ⟨h.globals, h.scopes⟩

theorem reads (h : ca.Mirrors base cw) {reads reads' : List Read}
    (ha : ∀ read ∈ reads, read = ca.reading read.name)
    (hw : ∀ read ∈ reads', read = cw.reading read.name) (ts : List Term) :
    Step.Beside base (.evaluated ts reads) (.evaluated ts reads') := by
  refine .evaluated fun a hmem w hmem' hname => ?_
  rw [ha a hmem, hw w hmem', hname]
  exact h.lookup? w.name

end Context.Mirrors

/-- Contexts in which the generators do the same: their scopes correspond, and the next slots
    are past the parameters and one apart. -/
structure Context.Alongside (base : Nat) (ca cw : Context) : Prop extends ca.Mirrors base cw where
  slots : ∀ {fa fw}, ca.function = some fa → cw.function = some fw →
    base ≤ fa.nextSlot ∧ fw.nextSlot = fa.nextSlot + 1

namespace Context.Alongside

variable {base : Nat} {ca ca' cw cw' : Context} {fa fw : FunctionState}

theorem kept (h : ca.Alongside base cw) (ha : ca.Kept ca') (hw : cw.Kept cw') :
    ca'.Alongside base cw' where
  globals := by rw [ha.globals, hw.globals]; exact h.globals
  scopes := by rw [ha.scopes, hw.scopes]; exact h.scopes
  slots hfa hfw := h.slots (ha.function.symm.trans hfa) (hw.function.symm.trans hfw)

theorem scratch (h : ca.Mirrors base cw) (hfa : ca.function = some fa) (ha : fa.nextSlot = base)
    (hw : fw.nextSlot = base) : ca.Alongside base (cw.taking fw 1) := by
  refine ⟨⟨h.globals, h.scopes⟩, fun hca hcw => ?_⟩
  cases hfa.symm.trans hca
  cases hcw
  rw [ha]
  exact ⟨Nat.le_refl _, congrArg (· + 1) hw⟩

theorem reported (h : ca.Alongside base cw) (issues : List Issue) :
    ca.Alongside base (cw.reporting issues) := h.kept (.refl _) .reporting

theorem labeling (h : ca.Alongside base cw) (n m : Nat) :
    (ca.labeling n).Alongside base (cw.labeling m) := ⟨⟨h.globals, h.scopes⟩, h.slots⟩

theorem entering (h : ca.Alongside base cw) : ca.entering.Alongside base cw.entering :=
  ⟨⟨h.globals, .cons .nil h.scopes⟩, h.slots⟩

theorem leaving (h : ca.Alongside base cw) {scope scope' : Scope} {outer outer' : List Scope}
    (ha : ca.scopes = scope :: outer) (hw : cw.scopes = scope' :: outer') :
    Context.Alongside base { ca with scopes := outer } { cw with scopes := outer' } := by
  have hscopes := h.scopes
  rw [ha, hw] at hscopes
  exact ⟨⟨h.globals, (forall₂_cons.mp hscopes).2⟩, h.slots⟩

theorem looping (h : ca.Alongside base cw) (ha : ca.function = some fa) (hw : cw.function = some fw)
    (la lw : Option LoopTargets) : (ca.looping fa la).Alongside base (cw.looping fw lw) := by
  refine ⟨⟨h.globals, h.scopes⟩, fun hfa hfw => ?_⟩
  cases hfa
  cases hfw
  have hslots := h.slots ha hw
  exact hslots

theorem taking (h : ca.Alongside base cw) (ha : ca.function = some fa) (hw : cw.function = some fw)
    (words : Nat) : (ca.taking fa words).Alongside base (cw.taking fw words) := by
  refine ⟨⟨h.globals, h.scopes⟩, fun hfa hfw => ?_⟩
  cases hfa
  cases hfw
  have hslots := h.slots ha hw
  constructor
  · exact Nat.le_trans hslots.1 (Nat.le_add_right _ _)
  · change fw.nextSlot + words = fa.nextSlot + words + 1
    omega

theorem declareHere (h : ca.Alongside base cw) (hsym : a.Corresponds base w) :
    (ca.declareHere a).Alongside base (cw.declareHere w) := by
  refine ⟨h.toMirrors.declareHere hsym, fun hfa hfw => ?_⟩
  rw [function_declareHere] at hfa hfw
  exact h.slots hfa hfw

theorem declaring (h : ca.Alongside base cw) (ha : ca.function = some fa)
    (hw : cw.function = some fw) (name : Bytes) (type : Ty) :
    (ca.declaring fa name type).Alongside base (cw.declaring fw name type) := by
  have hslots := h.slots ha hw
  refine (h.taking ha hw type.rep.words).declareHere ?_
  rw [hslots.2]
  exact .local hslots.1

theorem declared (h : ca.Alongside base cw) (ha : ca.function = some fa)
    (hw : cw.function = some fw) (name : Bytes) (type : Ty) :
    Step.Beside base (.declared (.localVar name type fa.nextSlot))
      (.declared (.localVar name type fw.nextSlot)) := by
  have hslots := h.slots ha hw
  rw [hslots.2]
  exact .declared hslots.1

/-- A counting loop takes two slots, evaluates its bounds and declares its counter. -/
theorem counting (h : ca.Alongside base cw) (ha : ca.function = some fa)
    (hw : cw.function = some fw) {ts us : List Term} {ra rb rc rd : List Read}
    (hfirst : Step.Beside base (.evaluated ts ra) (.evaluated ts rb))
    (hlast : Step.Beside base (.evaluated us rc) (.evaluated us rd)) (name : Bytes) :
    Forall₂ (Step.Beside base)
      [.reserved fa.nextSlot, .reserved (fa.nextSlot + 1), .evaluated ts ra, .evaluated us rc,
        .declared (.localVar name .integer fa.nextSlot)]
      [.reserved fw.nextSlot, .reserved (fw.nextSlot + 1), .evaluated ts rb, .evaluated us rd,
        .declared (.localVar name .integer fw.nextSlot)] := by
  have hslots := h.slots ha hw
  refine .cons ?_ (.cons ?_ (.cons hfirst (.cons hlast (.cons (h.declared ha hw name _) .nil))))
  · rw [hslots.2]
    exact .reserved hslots.1
  · rw [hslots.2]
    exact .reserved (Nat.le_succ_of_le hslots.1)

end Context.Alongside

def Arm64.Task.besides : Arm64.Task → Wasm.Task
  | .stmt inner => .stmt inner
  | .stmts ts => .stmts ts
  | .chain _ ts => .chain ts

variable {ts : List Tree}

section Simulation

variable {flavor : Arm64.Flavor} {scratch base : Nat} {sta sta' : Arm64.Stage} {stw stw' : Wasm.Stage}
  {ca : Arm64.Code} {cw : Wasm.Code} {stepsA stepsW : List Step}

/-- Statements. -/
theorem executes_beside {task : Arm64.Task} (ha : Arm64.Executes flavor task sta ca stepsA sta')
    (hw : Wasm.Executes scratch task.besides stw cw stepsW stw')
    (h : sta.2.Alongside base stw.2) :
    Forall₂ (Step.Beside base) stepsA stepsW ∧ sta'.2.Alongside base stw'.2 := by
  induction ha generalizing stw stw' cw stepsW with
  | expression ha | assign ha =>
    cases hw
    next hw => exact ⟨.cons (h.reads ha.reads hw.reads _) .nil, h.kept ha.kept hw.kept⟩
  | block _ hscopes ih =>
    cases hw with
    | block hw hscopes' =>
      rcases ih hw h.entering with ⟨hsteps, halong⟩
      exact ⟨hsteps, halong.leaving hscopes hscopes'⟩
  | declare htype ha hfn hsym =>
    cases hw with
    | declare htype' hw _ hfn' hsym' =>
      obtain rfl := h.declaredType htype htype'
      have halong := h.kept ha.kept hw.kept
      subst hsym hsym'
      exact ⟨.cons (h.reads ha.reads hw.reads _) (.cons (halong.declared hfn hfn' _ _) .nil),
        (halong.reported _).declaring hfn hfn' _ _⟩
  | declareZero hfn hsym =>
    cases hw with
    | declareZero hfn' hsym' =>
      subst hsym hsym'
      exact ⟨.cons (h.declared hfn hfn' _ _) .nil, h.declaring hfn hfn' _ _⟩
  | cond _ _ ih =>
    cases hw with
    | cond hw => exact ih hw (h.labeling 1 0)
  | whileLoop _ _ ha hfn hstmt _ hfn2 ih =>
    cases hw with
    | whileLoop _ _ hw hfn' hstmt' hbody hfn2' =>
      cases hstmt.symm.trans hstmt'
      have hlabeled := h.labeling 2 2
      have halong := hlabeled.kept ha.kept hw.kept
      rcases ih hbody (halong.looping hfn hfn' _ _) with ⟨hsteps, hafter⟩
      exact ⟨.cons (hlabeled.reads ha.reads hw.reads _) hsteps, hafter.looping hfn2 hfn2' _ _⟩
  | forRange hfn hfirst hlast hsym hctx3 _ _ _ hfn3 hstmt _ hfn4 hscopes ih =>
    cases hw with
    | forRange hfn' hfirst' _ hlast' _ hsym' hctx3' _ _ _ hfn3' hstmt' hbody hfn4' hscopes' =>
      cases hstmt.symm.trans hstmt'
      have hslots := h.slots hfn hfn'
      -- Both cells are taken before the bounds are evaluated.
      have hcells := h.entering.taking hfn hfn' 2
      have hbetween := hcells.kept hfirst.kept hfirst'.kept
      have hbounds := (hbetween.reported _).kept hlast.kept hlast'.kept
      subst hsym hsym'
      have hloop := ih hbody <| by
        refine Alongside.looping (.labeling ?_ 3 3) hfn3 hfn3' _ _
        rw [hctx3, hctx3', hslots.2]
        exact (hbounds.reported _).declareHere (.local hslots.1)
      rcases hloop with ⟨hsteps, hafter⟩
      exact ⟨rel_append (h.counting hfn hfn' (hcells.reads hfirst.reads hfirst'.reads _)
        ((hbetween.reported _).reads hlast.reads hlast'.reads _) _) hsteps,
        (hafter.looping hfn4 hfn4' _ _).leaving hscopes hscopes'⟩
  | ret ha =>
    cases hw with
    | ret _ hw | retEffect _ hw =>
      exact ⟨.cons (h.reads ha.reads hw.reads _) .nil, h.kept ha.kept hw.kept⟩
  | retZero | nil | chainNil =>
    cases hw
    exact ⟨.nil, h⟩
  | jump =>
    cases hw with
    | jump => exact ⟨.nil, h⟩
    | jumpOutside => exact ⟨.nil, h.kept (.refl _) .reporting⟩
  | jumpOutside =>
    cases hw with
    | jump => exact ⟨.nil, h.kept .reporting (.refl _)⟩
    | jumpOutside => exact ⟨.nil, h.kept .reporting .reporting⟩
  | classDecl =>
    cases hw
    exact ⟨.cons .classDecl .nil, h.declareHere .classType⟩
  | refused =>
    cases hw
    exact ⟨.nil, h.kept .reporting .reporting⟩
  | cons hstmt _ _ ih1 ih2 =>
    cases hw with
    | cons hstmt' hw hrest =>
      cases hstmt.symm.trans hstmt'
      rcases ih1 hw h with ⟨hsteps, halong⟩
      rcases ih2 hrest halong with ⟨hsteps', hafter⟩
      exact ⟨rel_append hsteps hsteps', hafter⟩
  | chainLast hstmt _ ih =>
    cases hw with
    | chainLast hstmt' hw =>
      cases hstmt.symm.trans hstmt'
      exact ih hw h
  | chainLink _ ha hstmt _ _ ih1 ih2 =>
    have hlabeled := h.labeling 1 0
    cases hw with
    | chainEnd hw hstmt' hbody =>
      cases hstmt.symm.trans hstmt'
      rcases ih1 hbody (hlabeled.kept ha.kept hw.kept) with ⟨hsteps, halong⟩
      rcases ih2 .chainNil halong with ⟨hnone, hafter⟩
      have hboth := rel_append hsteps hnone
      simp only [append_nil] at hboth
      exact ⟨.cons (hlabeled.reads ha.reads hw.reads _) hboth, hafter⟩
    | chainLink hw hstmt' hbody hrest' =>
      cases hstmt.symm.trans hstmt'
      rcases ih1 hbody (hlabeled.kept ha.kept hw.kept) with ⟨hsteps, halong⟩
      rcases ih2 hrest' halong with ⟨hsteps', hafter⟩
      exact ⟨.cons (hlabeled.reads ha.reads hw.reads _) (rel_append hsteps hsteps'), hafter⟩

theorem enters_beside (ha : Arm64.Enters flavor ts sta ca stepsA sta')
    (hw : Wasm.Enters scratch ts stw cw stepsW stw') (h : sta.2.Alongside base stw.2) :
    Forall₂ (Step.Beside base) stepsA stepsW := by
  induction ha generalizing stw cw stepsW with
  | nil =>
    cases hw with
    | nil => exact .nil
  | declared hkind _ ih =>
    cases hw with
    | declared _ hrest => exact ih hrest h
    | varInit hkind' | varZero hkind' => simp [hkind'] at hkind
    | stmt hkind' => rcases hkind with hkind | hkind <;> simp [hkind, Kind.isDeclaration] at hkind'
  | varInit hkind _ ha _ ih =>
    cases hw with
    | declared hkind' => simp [hkind] at hkind'
    | varInit _ _ hw _ hrest =>
      refine .cons (h.reads ?_ ?_ _) (ih hrest ((h.kept ha.kept hw.kept).reported _))
      · exact forall_reads_append (.refl _) (forall_reads_singleton _ _) ha.reads
      · exact forall_reads_append (.refl _) (forall_reads_singleton _ _) hw.reads
    | stmt hkind' => simp [hkind, Kind.isDeclaration] at hkind'
  | varZero hkind _ _ ih =>
    cases hw with
    | declared hkind' => simp [hkind] at hkind'
    | varZero _ _ hrest =>
      refine .cons (h.reads ?_ ?_ _) (ih hrest h)
      · exact forall_reads_singleton _ _
      · exact forall_reads_singleton _ _
    | stmt hkind' => simp [hkind, Kind.isDeclaration] at hkind'
  | stmt hkind hstmt ha _ ih =>
    cases hw with
    | declared hkind' => rcases hkind' with h' | h' <;> simp [h', Kind.isDeclaration] at hkind
    | varInit hkind' | varZero hkind' => simp [hkind', Kind.isDeclaration] at hkind
    | stmt _ hstmt' hw hrest =>
      cases hstmt.symm.trans hstmt'
      rcases executes_beside ha hw h with ⟨hsteps, halong⟩
      exact rel_append hsteps (ih hrest halong)

end Simulation

section Programs

variable {flavor : Arm64.Flavor} {sta sta' : Arm64.Stage} {stw stw' : Wasm.Stage}
  {as : List (Frame × Arm64.Code)} {ws : List (Frame × Wasm.Func)} {userMain : Option Symbol}

/-- Contexts outside of every function, whose global scopes correspond. -/
structure Context.Level (ca cw : Context) : Prop where
  left : ca.scopes = []
  right : cw.scopes = []
  globals : ∀ base, Forall₂ (Symbol.Corresponds base) ca.globals cw.globals

namespace Context.Level

variable {ca cw : Context}

theorem mirrors (h : ca.Level cw) (base : Nat) : ca.Mirrors base cw :=
  ⟨h.globals base, by rw [h.left, h.right]; exact .nil⟩

theorem beginning (h : ca.Level cw) (base : Nat) (name : Bytes) (ra rw : Ty) :
    (ca.beginning name ra).Mirrors base (cw.beginning name rw) :=
  ⟨h.globals base, .cons .nil (h.mirrors base).scopes⟩

theorem declareGlobally (h : ca.Level cw) (hsym : ∀ base, a.Corresponds base w) :
    (ca.declareGlobally a).Level (cw.declareGlobally w) :=
  ⟨h.left, h.right, fun base => .cons (hsym base) (h.globals base)⟩

theorem topType (h : ca.Level cw) {a w : Ty} (ha : ca.topType type ts = .ok a)
    (hw : cw.topType type ts = .ok w) : a = w := by
  cases ts with
  | nil => exact Except.ok.inj (ha.symm.trans hw)
  | cons => exact (h.mirrors 0).declaredType ha hw

end Context.Level

theorem binds_beside {base : Nat} {params : List Param} {ca ca' cw cw' : Context}
    {symsA symsW : List Symbol} {fa fw : FunctionState} (ha : Binds params ca symsA ca')
    (hw : Binds params cw symsW cw') (h : ca.Mirrors base cw) (hfa : ca.function = some fa)
    (hfw : cw.function = some fw) (hslot : fw.nextSlot = fa.nextSlot)
    (hbase : fa.nextSlot + (symsA.map fun sym => sym.type.rep.words).sum = base) :
    symsA = symsW ∧ ca'.Mirrors base cw' ∧ ∃ fa' fw', ca'.function = some fa' ∧
      cw'.function = some fw' ∧ fa'.nextSlot = base ∧ fw'.nextSlot = base := by
  induction ha generalizing cw symsW fa fw with
  | nil =>
    cases hw with
    | nil => exact ⟨rfl, h, fa, fw, hfa, hfw, by simpa using hbase, by simpa [hslot] using hbase⟩
  | @cons param _ ctx fn issues _ _ hfn _ ih =>
    cases hw with
    | @cons _ _ _ fn' _ _ _ hfn' hw =>
      cases hfn.symm.trans hfa
      obtain rfl := Option.some.inj (hfn'.symm.trans hfw)
      have hwords : 0 < param.type.rep.words := by cases param.type.rep <;> decide
      have hparam : Symbol.Corresponds base (.localVar param.name param.type fn.nextSlot)
          (.localVar param.name param.type fn'.nextSlot) := by
        rw [hslot]
        refine .param ?_
        change fn.nextSlot + (param.type.rep.words + _) = base at hbase
        omega
      rcases ih hw ((h.declaring hparam).reported issues _) (function_declaring ctx fn _ _)
        (function_declaring _ fn' _ _) (by rw [hslot])
        (by rw [← hbase]; exact Nat.add_assoc _ _ _) with ⟨rfl, hafter⟩
      exact ⟨by rw [hslot], hafter⟩

theorem Context.Level.ended {ca ca' cw cw' : Context} (h : ca.Level cw) {name : Bytes}
    {ra rw : Ty} {scopeA scopeW : Scope} {outerA outerW : List Scope}
    (ha : (ca.beginning name ra).Advances ca') (hscopesA : ca'.scopes = scopeA :: outerA)
    (hw : (cw.beginning name rw).Advances cw') (hscopesW : cw'.scopes = scopeW :: outerW) :
    Context.Level { ca' with scopes := outerA, function := none }
      { cw' with scopes := outerW, function := none } := by
  obtain ⟨houterA, hglobalsA⟩ := ha.ended h.left hscopesA
  obtain ⟨houterW, hglobalsW⟩ := hw.ended h.right hscopesW
  refine ⟨houterA, houterW, fun base => ?_⟩
  rw [hglobalsA, hglobalsW]
  exact h.globals base

theorem defines_beside {p : Payload} {body : Tree} {fa fw : Frame} {ca : Arm64.Code} {f : Wasm.Func}
    (ha : Arm64.Defines flavor p body sta fa ca sta')
    (hw : Wasm.Defines userMain p body stw fw f stw') (h : sta.2.Level stw.2) :
    fa.Beside fw ∧ sta'.2.Level stw'.2 := by
  cases ha with
  | mk _ _ hbinds _ hstmt hbody _ _ hscopes =>
    cases hw with
    | mk _ hbinds' hfn1 hstmt' hbody' _ hscopes' =>
      cases hstmt.symm.trans hstmt'
      rcases binds_beside hbinds hbinds' (h.beginning _ _ _ _) rfl rfl rfl rfl with
        ⟨rfl, hmirrors, fa', fw', hfa', hfw', hslotA, hslotW⟩
      cases hfn1.symm.trans hfw'
      rcases executes_beside hbody hbody' (.scratch hmirrors hfa' hslotA hslotW) with ⟨hsteps, -⟩
      refine ⟨⟨rfl, rfl, ?_⟩, ?_⟩
      · rw [Nat.zero_add] at hsteps
        exact hsteps
      · exact h.ended (hbinds.advances.trans hbody.advances) hscopes
          (hbinds'.advances.trans ((Advances.taking _ hfn1 1).trans hbody'.advances)) hscopes'

theorem functions_beside (ha : Arm64.Functions flavor ts sta as sta')
    (hw : Wasm.Functions userMain ts stw ws stw') (h : sta.2.Level stw.2) :
    Forall₂ Frame.Beside (as.map Prod.fst) (ws.map Prod.fst) ∧ sta'.2.Level stw'.2 := by
  induction ha generalizing stw ws with
  | nil =>
    cases hw with
    | nil => exact ⟨.nil, h⟩
  | function hkind ha _ ih =>
    cases hw with
    | function _ hw hrest =>
      rcases defines_beside ha hw h with ⟨hframe, hlevel⟩
      rcases ih hrest hlevel with ⟨hframes, hafter⟩
      exact ⟨.cons hframe hframes, hafter⟩
    | other hkind' => exact absurd hkind hkind'
  | other hkind _ ih =>
    cases hw with
    | function hkind' => exact absurd hkind' hkind
    | other _ hrest => exact ih hrest h

theorem introduces_beside {mainA mainW : Option Symbol} (ha : Arm64.Introduces ts sta mainA sta')
    (hw : Wasm.Introduces ts stw mainW stw') (h : sta.2.Level stw.2) : sta'.2.Level stw'.2 := by
  induction ha generalizing stw mainW with
  | nil =>
    cases hw with
    | nil => exact h
  | function hkind _ ih =>
    cases hw with
    | function _ hw => exact ih hw (h.declareGlobally fun _ => .function)
    | classDecl hkind' | varDecl hkind' => simp [hkind] at hkind'
    | other hkind' => simp [hkind, Kind.isDeclaration] at hkind'
  | classDecl hkind _ ih =>
    cases hw with
    | classDecl _ hw =>
      refine ih hw ?_
      rw [← declareGlobally_eq _ _ h.left, ← declareGlobally_eq _ _ h.right]
      exact h.declareGlobally fun _ => .classType
    | function hkind' | varDecl hkind' => simp [hkind] at hkind'
    | other hkind' => simp [hkind, Kind.isDeclaration] at hkind'
  | varDecl hkind htype _ ih =>
    cases hw with
    | varDecl _ htype' hw =>
      obtain rfl := h.topType htype htype'
      exact ih hw (h.declareGlobally fun _ => .static)
    | function hkind' | classDecl hkind' => simp [hkind] at hkind'
    | other hkind' => simp [hkind, Kind.isDeclaration] at hkind'
  | other hkind _ ih =>
    cases hw with
    | other _ hw => exact ih hw h
    | function hkind' | classDecl hkind' | varDecl hkind' =>
      simp [hkind', Kind.isDeclaration] at hkind

/-- Programs. -/
theorem generates_beside {root : Tree} (ha : Arm64.Generates flavor root as sta)
    (hw : Wasm.Generates root ws stw) :
    Forall₂ Frame.Beside (as.map Prod.fst) (ws.map Prod.fst) := by
  cases ha with
  | mk hintroduced hfunctions hentry =>
    cases hw with
    | mk hintroduced' hfunctions' hentry' =>
      have hstart := introduces_beside hintroduced hintroduced' ⟨rfl, rfl, fun _ => .nil⟩
      rcases functions_beside hfunctions hfunctions' hstart with ⟨hframes, hlevel⟩
      rw [map_append, map_append]
      refine rel_append hframes (.cons ?_ .nil)
      cases hentry with
      | mk _ hbody =>
        cases hentry' with
        | mk hfn1 hbody' =>
          cases hfn1
          exact ⟨rfl, rfl, enters_beside hbody hbody'
            (.scratch (hlevel.beginning 0 _ _ _) rfl rfl rfl)⟩

end Programs

def Tree.functionName? : Tree → Option Bytes
  | .missing => none
  | .node p _ => if p.kind = .funcDecl then some p.name else none

theorem functions_names {flavor : Arm64.Flavor} {st st' : Arm64.Stage}
    {fs : List (Frame × Arm64.Code)} (h : Arm64.Functions flavor ts st fs st') :
    fs.map (fun f => f.1.name) = ts.filterMap Tree.functionName? := by
  induction h with
  | nil => rfl
  | function hkind hdefines _ ih =>
    cases hdefines
    rw [filterMap_cons_some (by rw [Tree.functionName?, if_pos hkind]), map_cons, ih]
  | other hkind _ ih =>
    rw [filterMap_cons_none (by rw [Tree.functionName?, if_neg hkind]), ih]

/-- A document is compiled for both targets, each of its functions and the entry has a frame in
    both outputs, and the generators do the same in these. -/
theorem document_beside {opts : Options} {source : Bytes} {root : Tree}
    (hopts : opts.validate = .ok ()) (htree : Document.tree source = .ok root) :
    ∃ as sa ca ws sw cw,
      Arm64.Generates (.ofOs opts.os) (opts.prepared root) as (sa, ca) ∧
      compileSource { opts with target := "arm64" } source =
        .ok ⟨sa.text (.ofOs opts.os), ca.limitations⟩ ∧
      Wasm.Generates (opts.prepared root) ws (sw, cw) ∧
      compileSource { opts with target := "wasm" } source =
        .ok ⟨(Wasm.assemble sw cw.data).text, cw.limitations⟩ ∧
      as.map (fun f => f.1.name) =
        (opts.prepared root).statements.filterMap Tree.functionName? ++ [("main" : Bytes)] ∧
      List.Forall₂ Frame.Beside (as.map Prod.fst) (ws.map Prod.fst) := by
  rcases compileSource_arm64 hopts htree with ⟨as, sa, ca, harm, hcompileA⟩
  rcases compileSource_wasm hopts htree with ⟨ws, sw, cw, hwasm, hcompileW⟩
  refine ⟨as, sa, ca, ws, sw, cw, harm, hcompileA, hwasm, hcompileW, ?_,
    generates_beside harm hwasm⟩
  cases harm with
  | mk _ hfunctions hentry =>
    cases hentry
    rw [map_append, functions_names hfunctions]
    rfl

namespace Sample

/-- A function whose loop declares a variable that hides its parameter. -/
def shadowing : Bytes :=
  "(program (var \"n\" integer 3) (func \"f\" (params (param \"s\" text)) integer (block " ++
    "(for \"i\" 1 (call (ident \"length\") (ident \"s\")) (block (var \"s\" integer (ident \"i\")) " ++
    "(assign (ident \"n\") (binary \"+\" (ident \"n\") (ident \"s\"))))) (return (ident \"n\")))) " ++
    "(call (ident \"print\") (call (ident \"f\") (string \"abc\"))))"

end Sample

theorem document_beside_shadowing :
    ∃ root as sa ca ws sw cw, Document.tree Sample.shadowing = .ok root ∧
      Arm64.Generates .linux root as (sa, ca) ∧ Wasm.Generates root ws (sw, cw) ∧
      as.map (fun f => f.1.name) = ["f", "main"] ∧
      List.Forall₂ Frame.Beside (as.map Prod.fst) (ws.map Prod.fst) := by
  have hread : ∃ root, Document.tree Sample.shadowing = .ok root ∧
      decide (root.statements.filterMap Tree.functionName? = ["f"]) = true :=
    ok_of_any (by decide +kernel)
  rcases hread with ⟨root, htree, hnames⟩
  rcases @document_beside { optimize := false } _ _ rfl htree with
    ⟨as, sa, ca, ws, sw, cw, harm, -, hwasm, -, hframes, hbeside⟩
  refine ⟨root, as, sa, ca, ws, sw, cw, htree, harm, hwasm, ?_, hbeside⟩
  rw [hframes]
  exact congrArg (· ++ [("main" : Bytes)]) (of_decide_eq_true hnames)

end Codegen
