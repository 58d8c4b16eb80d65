import Codegen.Proofs.Arm64.Registers
import Codegen.Proofs.Arm64.Symbols

/-!
# Slots of AArch64 Functions

A function reserves its frame before its body is generated, for the words of its parameters and
for as many as a look at the tree says that the body may need. The body then takes slots one after
the other, and every access goes to the slot of a name in scope or to one of the two that a
counting loop keeps for itself. All of them were taken before the end, so they are in the frame.

Besides, code uses the stack to keep a value while other code runs. What is pushed and what is
popped is decided in different places, for arguments even in different orders, so `Framed` has the
code in between as a part.
-/

namespace Codegen.Arm64

open Context

/-- Whether a register is neither the stack pointer nor the frame pointer. -/
def Reg.isGeneral (r : Reg) : Bool := r ≠ .sp && r ≠ .fp

/-- The register that an address moves. -/
def Addr.moved : Addr → List Reg
  | .preDecrement r _ | .postIncrement r _ => [r]
  | _ => []

/-- The registers that an instruction writes. -/
def Instr.written : Instr → List Reg
  | .movImm rd _ | .mov rd _ | .movz rd _ | .movk rd _ _ | .adrp rd _ | .addPageOffset rd _ _
  | .addImm rd _ _ | .subImm rd _ _ | .word _ rd _ _ | .msub rd _ _ _ | .neg rd _ | .cset rd _
  | .csel rd _ _ _ | .fmovOut rd _ => [rd]
  | .ldur rt addr | .ldr rt addr => rt :: addr.moved
  | .ldp rt ru addr => rt :: ru :: addr.moved
  | .stur _ addr | .str _ addr | .stp _ _ addr => addr.moved
  | _ => []

/-- Whether a line has nothing to do with the stack and the frame. -/
def Line.isApart : Line → Bool
  | .instr i => (i.sources ++ i.written).all Reg.isGeneral
  | _ => true

/-- Code that uses the frame pointer only to load and store slots of which a condition holds, and
    the stack pointer only to keep values while other such code runs. -/
inductive Framed (P : Int → Prop) : Code → Prop where
  | lines {c} (h : c.all Line.isApart = true) : Framed P c
  | load {r slot} (hr : r.isGeneral = true) (h : P slot) : Framed P (loadSlot r slot)
  | store {r slot} (h : P slot) : Framed P (storeSlot r slot)
  | saved {c} (h : Framed P c) (rep : Rep) {reg : Nat} (hreg : reg + 1 < 29) :
      Framed P (push rep ++ c ++ pop rep reg)
  | append {a b} (ha : Framed P a) (hb : Framed P b) : Framed P (a ++ b)

section Fragments

variable {P : Int → Prop} {c : Code} {sym : Symbol} {rep : Rep}

theorem framed_zero : Framed P (zero rep) := by cases rep <;> exact .lines rfl

theorem apart_loadImm {r : Reg} (hr : r.isGeneral = true) (value : Int64) :
    (loadImm r value).all Line.isApart = true := by
  unfold loadImm
  split
  · simp [Line.isApart, Instr.sources, Instr.written, hr]
  · rw [List.all_cons, highChunks, List.all_flatMap, Bool.and_eq_true, List.all_eq_true]
    refine ⟨by simp [Line.isApart, Instr.sources, Instr.written, hr], fun shift _ => ?_⟩
    split
    · rfl
    · simp [Line.isApart, Instr.sources, Instr.written, hr]

theorem framed_literalCode? {p : Payload} (h : literalCode? p = some c) : Framed P c := by
  unfold literalCode? at h
  cases hkind : p.kind <;> simp only [hkind, Option.some.injEq, reduceCtorEq] at h <;> subst h
  case boolean => exact .lines rfl
  all_goals exact .lines (apart_loadImm rfl _)

theorem framed_storeElement (storage : Bytes) (index : Nat) :
    Framed P (storeElement storage index) := by
  refine .append (.lines rfl) ?_
  split
  · exact .lines rfl
  · exact .append (.lines (apart_loadImm rfl _)) (.lines rfl)

/-- Calculations are done on the registers of values. -/
theorem framed_calculates (h : ∀ line ∈ c, line.calculates = true) : Framed P c := by
  refine .lines (List.all_eq_true.mpr fun line hline => ?_)
  have hplain := h line hline
  have hvalue {r : Reg} (hr : [x0, x1, x2].contains r = true) : r.isGeneral = true := by
    simp only [List.contains_eq_mem, List.mem_cons, List.not_mem_nil, or_false,
      decide_eq_true_eq] at hr
    rcases hr with rfl | rfl | rfl <;> rfl
  cases line with
  | instr i =>
    obtain ⟨hsources, hrest⟩ := Bool.and_eq_true_iff.mp hplain
    rw [Line.isApart, List.all_append, Bool.and_eq_true_iff]
    refine ⟨List.all_eq_true.mpr fun r hr => hvalue (List.all_eq_true.mp hsources r hr), ?_⟩
    cases i with
    | movImm | word | msub | neg | cset | fmovOut => simpa [Instr.written] using hvalue hrest
    | cmp | cmpImm | fmovIn | float | fneg | fcmp | scvtf => rfl
    | _ => cases hrest
  | _ => rfl

theorem framed_access
    (h : sym.global = false → ∀ i : Nat, i < sym.type.rep.words → P (sym.slot + i)) :
    Framed P (load sym) ∧ Framed P (store sym) := by
  unfold load store
  cases hglobal : sym.global with
  | true => cases sym.type.rep <;> exact ⟨.lines rfl, .lines rfl⟩
  | false =>
    have hslot := h hglobal
    have hfirst : P sym.slot := by simpa using hslot 0 (words_pos _)
    cases hrep : sym.type.rep with
    | scalar => exact ⟨.load rfl hfirst, .store hfirst⟩
    | fat =>
      have hsecond := hslot 1 (by rw [hrep]; decide)
      exact ⟨.append (.load rfl hfirst) (.load rfl hsecond),
        .append (.store hfirst) (.store hsecond)⟩

theorem framed_forCode {counter limit : Nat} {start step done : Label} {a b : Code}
    (hcounter : P counter) (hlimit : P limit) (ha : Framed P a) (hb : Framed P b)
    (hc : Framed P c) : Framed P (forCode counter limit start step done a b c) := by
  unfold forCode
  exact ha.append (.store hcounter) |>.append hb |>.append (.store hlimit) |>.append (.lines rfl)
    |>.append (.load rfl hcounter) |>.append (.load rfl hlimit) |>.append (.lines rfl)
    |>.append hc |>.append (.lines rfl) |>.append (.load rfl hcounter) |>.append (.lines rfl)
    |>.append (.store hcounter) |>.append (.lines rfl) |>.append (.lines rfl)

end Fragments

/-- No more than eight arguments fit. -/
theorem fitting_le {ctx ctx' : Context} {args : List Term} {words count : Nat}
    (h : (fitting words args).run ctx = .ok (count, ctx')) (hwords : words ≤ 8) :
    words + count ≤ 8 := by
  induction args generalizing words count ctx ctx' with
  | nil =>
    obtain ⟨rfl, -⟩ := Prod.mk.inj (Except.ok.inj h)
    exact hwords
  | cons arg rest ih =>
    cases htype : ctx.typeOf arg with
    | error fault =>
      simp only [fitting, Gen.typeOf, StateT.run_bind, StateT.run_get, pure_bind, htype] at h
      cases h
    | ok type =>
      have hone := words_pos type.rep
      simp only [fitting, Gen.typeOf, StateT.run_bind, StateT.run_get, pure_bind, htype,
        StateT.run_pure] at h
      split at h
      · obtain ⟨rfl, -⟩ := Prod.mk.inj (Except.ok.inj h)
        exact hwords
      · next hroom =>
        rw [StateT.run_bind] at h
        cases hrest : (fitting (words + type.rep.words) rest).run ctx with
        | error fault =>
          rw [hrest] at h
          cases h
        | ok result =>
          rw [hrest] at h
          obtain ⟨rfl, -⟩ := Prod.mk.inj (Except.ok.inj h)
          have := ih hrest (Nat.le_of_not_lt hroom)
          omega

variable {flavor : Flavor} {job : Job} {task : Task} {st st' : Stage} {r : Lowered} {n : Nat}
  {P : Int → Prop}  {c : Code} {steps : List Step}

theorem framed_named {ctx : Context} {name : Bytes} {sym : Symbol}
    (hctx : ctx.Scoped (Symbol.Occupies P)) (h : ctx.varNamed? name = some sym) :
    Framed P (load sym) ∧ Framed P (store sym) := by
  have hfound := Option.filter_eq_some_iff.mp h
  exact framed_access (hctx.lookup? hfound.1 (by simpa using hfound.2))

/-- What the code of a job is like. That of arguments is only complete once they are popped. -/
abbrev Job.Frames (P : Int → Prop) : Job → Lowered → Prop
  | .pushes count _, r => r.reps.length ≤ count ∧ ∀ c reg, Framed P c →
    reg + 2 * r.reps.length ≤ 28 → Framed P (r.code ++ c ++ popArgs reg r.reps)
  | _, r => Framed P r.code

/-- Code of expressions uses the slots of names in scope. -/
theorem Produces.frames (h : Produces flavor job st r st')
    (hst : st.2.Scoped (Symbol.Occupies P)) : job.Frames P r := by
  induction h with
  | print _ ih => exact ih hst
  | printRefused _ _ _ ih => exact .append (.lines rfl) (ih hst)
  | lengthFat _ ih | lengthScalar _ ih | assign _ _ ih => exact Framed.append (ih hst) (.lines rfl)
  | lengthArity | unresolved | binaryRefused | other | printNone | elementsNone | assignUnresolved
  | assignRefused => exact Framed.lines rfl
  | unknown => exact framed_zero
  | call _ _ _ hcount _ _ ih =>
    obtain ⟨hle, hpopped⟩ := ih hst
    have hfits := fitting_le hcount (Nat.zero_le 8)
    have hargs := hpopped [] 0 (.lines rfl) (by omega)
    rw [List.append_nil] at hargs
    exact hargs.append (.lines rfl)
  | literal h => exact framed_literalCode? h
  | string => exact Framed.append (.lines rfl) (.lines (apart_loadImm rfl _))
  | ident _ hsym => exact (framed_named hst hsym).1
  | binary _ _ _ _ hl _ hop ihl ihr =>
    rcases (plain_combine _ _ _ _ _).of_ends hop with ⟨-, -, -, x, y, z, hplain, rfl⟩
    simp only [List.forall_mem_append] at hplain
    obtain ⟨⟨hx, hy⟩, hz⟩ := hplain
    have hright := Framed.append (ihr (hl.kept.scoped hst)) (framed_calculates hy)
    have hall := (Framed.append (ihl hst) (framed_calculates hx)).append
      (hright.saved .scalar (show 1 + 1 < 29 by decide)) |>.append (framed_calculates hz)
    simpa only [List.append_assoc] using hall
  | unary _ _ _ hop ih =>
    rcases (plain_applyUnary _ _ _ _).of_ends hop with ⟨-, -, -, d, hplain, rfl⟩
    exact Framed.append (ih hst) (framed_calculates hplain)
  | array _ _ ih =>
    exact Framed.append (Framed.append (ih hst) (.lines rfl)) (.lines (apart_loadImm rfl _))
  | index _ hb _ ihb ihi =>
    have hindex := Framed.saved (ihi (hb.kept.scoped hst)) .scalar (show 1 + 1 < 29 by decide)
    have hload : Framed P (code [.ldr x0 (.word x1 x0)]) := .lines rfl
    simpa only [List.append_assoc] using (Framed.append (ihb hst) hindex).append hload
  | pushNone =>
    refine ⟨Nat.zero_le _, fun c _ hc _ => ?_⟩
    rw [popArgs, List.append_nil]
    exact hc
  | @push _ _ _ _ pushes reps _ _ a rep _ _ hargs _ ihargs iharg =>
    obtain ⟨hle, hpopped⟩ := ihargs hst
    refine ⟨Nat.succ_le_succ hle, fun c reg hc hreg => ?_⟩
    have hwords := words_le rep
    rw [List.length_cons] at hreg
    dsimp only at hpopped
    -- The argument that is pushed last is popped first.
    have hinner := Framed.append (iharg (hargs.kept.scoped hst))
      (hc.saved rep (show reg + 1 < 29 by omega))
    have hall := hpopped _ (reg + rep.words) hinner (by omega)
    simpa only [popArgs, List.append_assoc] using hall
  | printValue _ _ harg hhelper hlength _ iharg ihargs =>
    have hrest := ihargs (hhelper.kept.scoped (harg.kept.scoped hst))
    refine Framed.append (Framed.append (Framed.append (iharg hst) ?_) (.lines rfl)) hrest
    rw [hlength]
    split <;> exact .lines rfl
  | elementFat helement _ _ ihe ihr =>
    exact Framed.append (ihe hst) (ihr (Kept.reporting.scoped (helement.kept.scoped hst)))
  | elementScalar helement _ ihe ihr =>
    exact Framed.append (Framed.append (ihe hst) (framed_storeElement _ _))
      (ihr (helement.kept.scoped hst))
  | assignVariable _ hsym _ ih => exact Framed.append (ih hst) (framed_named hst hsym).2
  | assignElement _ hb hi _ ihb ihi ihv =>
    have hst1 := hb.kept.scoped hst
    have hvalue := Framed.saved (ihv (hi.kept.scoped hst1)) .scalar (show 2 + 1 < 29 by decide)
    have hindex := (Framed.append (ihi hst1) hvalue).saved .scalar (show 1 + 1 < 29 by decide)
    have hstore : Framed P (code [.str x0 (.word x1 x2)]) := .lines rfl
    simpa only [List.append_assoc] using (Framed.append (ihb hst) hindex).append hstore

/-- Code of statements uses slots that are taken at the end. -/
theorem Executes.framed (hP : ∀ slot : Nat, slot < n → P slot)
    (h : Executes flavor task st c steps st') (hle : st'.2.slotsTaken ≤ n)
    (hst : st.2.Scoped (Symbol.Occupies P)) : Framed P c := by
  have hlocal {ctx : Context} {fn : FunctionState} {name : Bytes} {type : Ty} {sym : Symbol}
      (hle : (ctx.declaring fn name type).slotsTaken ≤ n)
      (hsym : sym = .localVar name type fn.nextSlot) : Framed P (store sym) := by
    rw [slotsTaken_eq (function_declaring ..)] at hle
    rw [hsym]
    exact (framed_access fun _ i hi => hP (fn.nextSlot + i) (Nat.lt_of_lt_of_le
      (Nat.add_lt_add_left hi _) hle)).2
  induction h with
  | expression h | assign h => exact h.frames hst
  | block _ _ ih => exact ih hle hst.entering
  | declare _ h _ hsym => exact Framed.append (h.frames hst) (hlocal hle hsym)
  | declareZero _ hsym => exact framed_zero.append (hlocal hle hsym)
  | cond _ _ ih => exact (ih hle hst).append (.lines rfl)
  | whileLoop _ _ hcondition _ _ _ hfn' ih =>
    have hst1 := hcondition.kept.scoped hst
    have hbody := ih (Nat.le_trans (Nat.le_of_eq (slotsTaken_eq hfn')) hle) hst1
    exact (((((Framed.lines rfl).append (hcondition.frames hst)).append (.lines rfl)).append
      hbody).append (.lines rfl)).append (.lines rfl)
  | forRange hfn hfirst hlast hsym hctx3 _ _ _ hfn3 _ h hfn4 _ ih =>
    have hle4 := Nat.le_trans (Nat.le_of_eq (slotsTaken_eq hfn4)) hle
    have hle3 := Nat.le_trans (Nat.le_of_eq (slotsTaken_eq hfn3))
      (Nat.le_trans h.advances.slots_le hle4)
    have hkept := hfirst.kept.trans hlast.kept
    have hbody := ih hle4 ((Advances.counting hfn hkept hsym hctx3).occupies hP hle3 hst.entering)
    rw [Advances.slotsTaken_counting hkept hctx3] at hle3
    -- The counter and the bound are in the two slots that the loop takes.
    exact framed_forCode (hP _ (Nat.lt_of_succ_lt hle3)) (hP _ hle3) (hfirst.frames hst.entering)
      (hlast.frames (hfirst.kept.scoped hst.entering)) hbody
  | ret h => exact Framed.append (h.frames hst) (.lines rfl)
  | retZero => exact framed_zero.append (.lines rfl)
  | jump | jumpOutside | classDecl | refused | nil | chainNil => exact .lines rfl
  | cons _ h hrest ih1 ih2 =>
    have hle1 := Nat.le_trans hrest.advances.slots_le hle
    exact (ih1 hle1 hst).append (ih2 hle (h.advances.occupies hP hle1 hst))
  | chainLast _ _ ih => exact ih hle hst
  | chainLink _ hcondition _ h hrest ih1 ih2 =>
    have hle1 := Nat.le_trans hrest.advances.slots_le hle
    have hst1 := hcondition.kept.scoped hst
    exact (((Framed.append (hcondition.frames hst) (.lines rfl)).append (ih1 hle1 hst1)).append
      (.lines rfl)).append (.lines rfl) |>.append (ih2 hle (h.advances.occupies hP hle1 hst1))

theorem framed_storeParams {syms : List Symbol} (hP : ∀ slot : Nat, slot < n → P slot)
    (h : ∀ sym ∈ syms, 0 ≤ sym.slot ∧ sym.slot + sym.type.rep.words ≤ n)
    (regs : List (Option Nat)) : Framed P (storeParams syms regs) := by
  have hslot {slot : Int} (hlow : 0 ≤ slot) (hhigh : slot < n) : P slot := by
    have hslot := hP slot.toNat (by omega)
    rwa [Int.toNat_of_nonneg hlow] at hslot
  induction syms generalizing regs with
  | nil => exact .lines rfl
  | cons sym syms ih =>
    obtain ⟨⟨hlow, hhigh⟩, h⟩ := List.forall_mem_cons.mp h
    rcases regs with _ | ⟨_ | reg, regs⟩
    · exact .lines rfl
    · exact ih h regs
    · refine Framed.append (a := storeParam reg sym) ?_ (ih h regs)
      unfold storeParam
      cases hrep : sym.type.rep with
      | scalar =>
        rw [hrep] at hhigh
        exact .store (hslot hlow (Int.lt_of_add_one_le hhigh))
      | fat =>
        rw [hrep] at hhigh
        have hsecond : sym.slot + 1 < n := by change sym.slot + 2 ≤ n at hhigh; omega
        exact .append (.store (hslot hlow (by omega))) (.store (hslot (by omega) hsecond))

/-- The slots of a frame of so many words. -/
def FrameSlot (words : Nat) (slot : Int) : Prop := 0 ≤ slot ∧ slot < words

theorem frameSlot_of_lt (slot : Nat) (h : slot < n) : FrameSlot n slot :=
  ⟨Int.natCast_nonneg _, Int.ofNat_lt.mpr h⟩

/-- A function that reserves a frame for its parameters and for what its body may need, and
    otherwise uses the frame for slots in there, until it returns. -/
inductive InFrame : Tree → Code → Prop where
  | mk {p body more symbol words c ret} (hwords : body.localWords = some words)
      (h : Framed (FrameSlot (words + paramWords p.params)) c) :
      InFrame (.node p (body :: more))
        (prologue symbol (words + paramWords p.params) ++ c ++ (zero p.result.rep ++ epilogue ret))

/-- The functions of a program. -/
theorem Functions.inFrame {ts : List Tree} {fs : List (Frame × Code)}
    (h : Functions flavor ts st fs st') (hscopes : st.2.scopes = [])
    (hst : st.2.Scoped (Symbol.Below 0)) :
    List.Forall₂ InFrame (ts.filter Tree.isFunction) (fs.map Prod.snd) := by
  induction h with
  | nil => exact .nil
  | function hkind hdefines _ ih =>
    rw [List.filter_cons_of_pos (by simp [Tree.isFunction, hkind])]
    cases hdefines with
    | mk _ hwords hbinds _ _ hbody hfn hfits hinner hwhole hbound =>
      rcases ends_bindParams _ hbinds 0 _ rfl with ⟨_, hends⟩
      obtain ⟨rfl, -⟩ := hbound.unique hends
      have hle := Nat.le_trans (Nat.le_of_eq (slotsTaken_eq hfn)) hfits
      have hle1 := Nat.le_trans hbody.advances.slots_le hle
      have houter := (hbinds.advances.trans hbody.advances).ended hscopes hinner
      rw [List.map_cons, hwhole, List.append_assoc (prologue _ _)]
      have hst1 := hbinds.advances.occupies frameSlot_of_lt hle1 fun scope hscope sym hsym =>
        (hst.begun _ scope hscope sym hsym).occupies frameSlot_of_lt
      have hframed := hbody.framed frameSlot_of_lt hle hst1
      have hslots (sym) (hsym) := (hbinds.slots_below sym hsym).imp_right fun hend =>
        Int.le_trans hend (Int.ofNat_le.mpr hle1)
      exact .cons (.mk hwords ((framed_storeParams frameSlot_of_lt hslots _).append hframed))
        (ih houter.1 (hst.outside houter))
  | other hkind _ ih =>
    rw [List.filter_cons_of_neg (by simp [Tree.isFunction, hkind])]
    exact ih hscopes hst

theorem Generates.inFrame {root : Tree} {fs : List (Frame × Code)}
    (h : Generates flavor root fs st) : ∃ gs entry, fs = gs ++ [entry] ∧
      List.Forall₂ InFrame (root.statements.filter Tree.isFunction) (gs.map Prod.snd) := by
  cases h with
  | mk hintroduced hfunctions _ =>
    rcases hintroduced.introduced rfl with ⟨_, hintroduced⟩
    exact ⟨_, _, rfl, hfunctions.inFrame hintroduced.slotless.1 hintroduced.slotless.2⟩

/-- A frame is a multiple of sixteen bytes, and all of its slots are in it. -/
theorem frameSize_holds (n : Nat) :
    frameSize n % 16 = 0 ∧ ∀ slot < n, slotOffset slot ≤ frameSize n := by
  simp only [frameSize, slotOffset, bne_iff_ne]
  split
  · exact ⟨by omega, fun slot hslot => by omega⟩
  · exact ⟨by omega, fun slot hslot => by omega⟩

end Codegen.Arm64
