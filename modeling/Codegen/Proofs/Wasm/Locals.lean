import Codegen.Proofs.Wasm.Symbols

/-!
# Locals of WebAssembly Functions

A function has its parameters as its first locals, then one for itself, and then those that its
body takes. How many there are is known when the body is done and is written in the header. Every
access is to the local of a name in scope, to one of the two of a counting loop, or to the one
for itself, and these were all taken before the end.
-/

namespace Codegen.Wasm

open Context

/-- Whether an instruction has no parts, and uses no local from a bound on. -/
def Instr.isWithin (n : Nat) : Instr → Bool
  | .localGet index | .localSet index | .localTee index => index < n
  | .block _ _ | .loop _ _ | .cond _ _ => false
  | _ => true

/-- Code that uses locals below a bound, at any depth. -/
inductive Confined (n : Nat) : Code → Prop where
  | instrs {c} (h : c.all (Instr.isWithin n) = true) : Confined n c
  | block {label c} (h : Confined n c) : Confined n [.block label c]
  | loop {label c} (h : Confined n c) : Confined n [.loop label c]
  | cond {c} (h : Confined n c) : Confined n [.cond c none]
  | condElse {c d} (hc : Confined n c) (hd : Confined n d) : Confined n [.cond c (some d)]
  | append {a b} (ha : Confined n a) (hb : Confined n b) : Confined n (a ++ b)

variable {n scratch : Nat} {c : Code} {sym : Symbol}

theorem Confined.bare (h : Bare c) : Confined n c := by
  refine .instrs (List.all_eq_true.mpr fun i hi => ?_)
  have hbare := List.all_eq_true.mp h i hi
  cases i <;> first | rfl | cases hbare

theorem Confined.compositional : Compositional (Confined n) := ⟨.append, .bare⟩

theorem confined_variable (h : sym.Below n) (hkind : sym.kind = .variable) :
    Confined n (load sym) ∧ Confined n (store sym) := by
  unfold load store
  cases hglobal : sym.global with
  | true => cases sym.type.rep <;> exact ⟨.instrs rfl, .instrs rfl⟩
  | false =>
    obtain ⟨hlow, hslot⟩ := h hkind hglobal
    cases hrep : sym.type.rep with
    | scalar =>
      have hslot : sym.slot + 1 ≤ n := by rwa [hrep] at hslot
      have hslot : sym.slot.toNat < n := by omega
      exact ⟨.instrs (by simp [Instr.isWithin, hslot]), .instrs (by simp [Instr.isWithin, hslot])⟩
    | fat =>
      have hslot : sym.slot + 2 ≤ n := by rwa [hrep] at hslot
      have hslot : sym.slot.toNat + 1 < n := by omega
      have hfirst := Nat.lt_of_succ_lt hslot
      exact ⟨.instrs (by simp [Instr.isWithin, hslot, hfirst]),
        .instrs (by simp [Instr.isWithin, hslot, hfirst])⟩

theorem confined_named {ctx : Context} {name : Bytes} (hctx : ctx.Scoped (Symbol.Below n))
    (h : ctx.varNamed? name = some sym) : Confined n (load sym) ∧ Confined n (store sym) := by
  have hfound := Option.filter_eq_some_iff.mp h
  exact confined_variable (hctx.lookup? hfound.1) (by simpa using hfound.2)

theorem confined_afterCall (h : scratch < n) (result : Ty) :
    Confined n (afterCall scratch result).1 := by
  unfold afterCall unpack
  split
  · exact .instrs rfl
  · split
    · exact .instrs (by simp [Instr.isWithin, h])
    · exact .instrs rfl

theorem confined_returning (h : scratch < n) (rep : Rep) : Confined n (returning scratch rep) := by
  cases rep with
  | fat => exact .instrs (by simp [Instr.isWithin, returning, pack, h])
  | scalar => exact .instrs rfl

theorem confined_forCode {counter limit : Nat} {done top step : Label} {a b : Code}
    (hcounter : counter < n) (hlimit : limit < n) (ha : Confined n a) (hb : Confined n b)
    (hc : Confined n c) : Confined n (forCode counter limit done top step a b c) := by
  have hset {i : Nat} (h : i < n) : Confined n [.localSet i] := .instrs (by simp [Instr.isWithin, h])
  have htest : Confined n ([.localGet counter, .localGet limit, .num .gtS, .brIf done]
      ++ [.block step c]) := .append (.instrs (by simp [Instr.isWithin, hcounter, hlimit])) (.block hc)
  have hnext : Confined n [.localGet counter, .const 1, .num .add, .localSet counter, .br top] :=
    .instrs (by simp [Instr.isWithin, hcounter])
  exact ha.append (hset hcounter) |>.append hb |>.append (hset hlimit)
    |>.append (.block (.loop (htest.append hnext)))

variable {job : Job} {task : Task} {st st' : Stage} {r : Lowered} {steps : List Step}

/-- Code of expressions uses the locals of names in scope, and the one for itself. -/
theorem Produces.confined (h : Produces scratch job st r st') (hscratch : scratch < n)
    (hst : st.2.Scoped (Symbol.Below n)) : Confined n r.code := by
  have hQ := @Confined.compositional n
  induction h with
  | printCall _ ih | assign _ _ ih => exact ih hst
  | length _ _ _ ih =>
    exact (hQ.settle (ih hst) _).append (.instrs (by simp [Instr.isWithin, hscratch]))
  | lengthRefused | lengthArity | unresolved | callArity | literal | string | binaryRefused
  | unaryRefused | other | passNone | printLiteral | printsNone | elementsNone | assignUnresolved
  | assignRefused => exact .instrs rfl
  | call _ _ _ _ _ hafter ih =>
    have hafter := hafter ▸ confined_afterCall hscratch _
    exact ((ih hst).append (.instrs rfl)).append hafter
  | ident _ hsym => exact (confined_named hst hsym).1
  | unknown => exact .bare (bare_zero _)
  | binary _ _ _ hop hl _ ihl ihr =>
    exact hQ.combination hop (hQ.settle (ihl hst) _) (hQ.settle (ihr (hl.kept.scoped hst)) _)
  | unary _ _ hop _ ih => exact hQ.application hop (hQ.settle (ih hst) _)
  | array _ _ _ ih => exact (ih hst).append (.instrs rfl)
  | index _ hb _ ihb ihi =>
    exact (hQ.elementAddress (hQ.settle (ihb hst) _) (hQ.settle (ihi (hb.kept.scoped hst)) _) _).append
      (.instrs rfl)
  | pass harg hv _ iharg ihargs =>
    subst hv
    exact (hQ.coercion (hQ.settle (iharg hst) _) _ _ _).append
      (ihargs (Kept.reporting.scoped (harg.kept.scoped hst)))
  | printText _ _ _ hlength ih =>
    rw [hlength]
    refine ((hQ.settle (ih hst) _).append ?_).append
      (.instrs (by simp [Instr.isWithin, hscratch]))
    split <;> exact .instrs rfl
  | printBoolean _ _ _ ih | printDecimal _ _ ih | printInteger _ _ _ ih =>
    exact (hQ.settle (ih hst) _).append (.instrs rfl)
  | printRefused _ _ _ ih => exact ((ih hst).append (.bare (bare_discard _))).append (.instrs rfl)
  | prints harg _ iharg ihargs => exact (iharg hst).append (ihargs (harg.kept.scoped hst))
  | elementFat helement _ _ _ ihe ihr =>
    exact ((Confined.append (.instrs rfl) (hQ.settle (ihe hst) _)).append (.instrs rfl)).append
      (ihr (Kept.reporting.scoped (helement.kept.scoped hst)))
  | elementScalar helement _ _ ihe ihr =>
    exact ((Confined.append (.instrs rfl) (hQ.settle (ihe hst) _)).append (.instrs rfl)).append
      (ihr (helement.kept.scoped hst))
  | assignVariable _ hsym _ hv ih =>
    subst hv
    exact (hQ.coercion (hQ.settle (ih hst) _) _ _ _).append (confined_named hst hsym).2
  | assignElement _ hb hi _ hv ihb ihi ih =>
    subst hv
    have hst1 := hb.kept.scoped hst
    exact ((hQ.elementAddress (hQ.settle (ihb hst) _) (hQ.settle (ihi hst1) _) _).append
      (hQ.coercion (hQ.settle (ih (hi.kept.scoped hst1)) _) _ _ _)).append (.instrs rfl)

/-- Code of statements uses locals that are taken at the end. -/
theorem Executes.confined (h : Executes scratch task st c steps st') (hscratch : scratch < n)
    (hle : st'.2.slotsTaken ≤ n) (hst : st.2.Scoped (Symbol.Below n)) : Confined n c := by
  have hQ := @Confined.compositional n
  have hlocal {ctx : Context} {fn : FunctionState} {name : Bytes} {type : Ty} {sym : Symbol}
      (hle : (ctx.declaring fn name type).slotsTaken ≤ n)
      (hsym : sym = .localVar name type fn.nextSlot) : Confined n (store sym) := by
    rw [slotsTaken_eq (function_declaring ..)] at hle
    rw [hsym]
    have hbelow : (Symbol.localVar name type fn.nextSlot).Below n := fun _ _ =>
      ⟨Int.natCast_nonneg _, Int.ofNat_le.mpr hle⟩
    exact (confined_variable hbelow rfl).2
  induction h with
  | expression h => exact (h.confined hscratch hst).append (.bare (bare_discard _))
  | assign h => exact h.confined hscratch hst
  | block _ _ ih => exact ih hle hst.entering
  | declare _ h hv _ hsym =>
    subst hv
    exact (hQ.coercion (hQ.settle (h.confined hscratch hst) _) _ _ _).append (hlocal hle hsym)
  | declareZero _ hsym => exact (Confined.bare (bare_zero _)).append (hlocal hle hsym)
  | cond _ ih | chainLast _ _ ih => exact ih hle hst
  | whileLoop _ _ hcondition _ _ _ hfn' ih =>
    have hbody := ih (Nat.le_trans (Nat.le_of_eq (slotsTaken_eq hfn')) hle)
      (hcondition.kept.scoped hst)
    exact .block (.loop ((((hQ.settle (hcondition.confined hscratch hst) _).append
      (.instrs rfl)).append (.instrs rfl)).append hbody |>.append (.instrs rfl)))
  | forRange hfn hfirst hva hlast hvb hsym hctx3 _ _ _ hfn3 _ h hfn4 _ ih =>
    subst hva hvb
    have hle4 := Nat.le_trans (Nat.le_of_eq (slotsTaken_eq hfn4)) hle
    have hle3 := Nat.le_trans (Nat.le_of_eq (slotsTaken_eq hfn3))
      (Nat.le_trans h.advances.slots_le hle4)
    have hkept := (hfirst.kept.trans .reporting).trans hlast.kept
    have hcounting := Advances.counting hfn (hkept.trans .reporting) hsym hctx3
    have hbody := ih hle4 (hcounting.below hle3 hst.entering)
    rw [Advances.slotsTaken_counting (hkept.trans .reporting) hctx3] at hle3
    have hst1 := hfirst.kept.scoped hst.entering
    -- The counter and the bound are in the two locals that the loop takes.
    exact confined_forCode (Nat.lt_of_succ_lt hle3) hle3
      (hQ.coercion (hQ.settle (hfirst.confined hscratch hst.entering) _) _ _ _)
      (hQ.coercion (hQ.settle (hlast.confined hscratch (Kept.reporting.scoped hst1)) _) _ _ _) hbody
  | ret _ h => exact (hQ.settle (h.confined hscratch hst) _).append (confined_returning hscratch _)
  | retEffect _ h =>
    exact ((h.confined hscratch hst).append (.bare (bare_discard _))).append (.instrs rfl)
  | retZero hcode =>
    rw [hcode]
    split <;> exact .instrs rfl
  | jump | jumpOutside | classDecl | refused | nil | chainNil => exact .instrs rfl
  | cons _ h hrest ih1 ih2 =>
    have hle1 := Nat.le_trans hrest.advances.slots_le hle
    exact (ih1 hle1 hst).append (ih2 hle (h.advances.below hle1 hst))
  | chainEnd hcondition _ _ ih =>
    exact ((hQ.settle (hcondition.confined hscratch hst) _).append (.instrs rfl)).append
      (.cond (ih hle (hcondition.kept.scoped hst)))
  | chainLink hcondition _ h hrest ih1 ih2 =>
    have hle1 := Nat.le_trans hrest.advances.slots_le hle
    have hst1 := hcondition.kept.scoped hst
    exact ((hQ.settle (hcondition.confined hscratch hst) _).append (.instrs rfl)).append
      (.condElse (ih1 hle1 hst1) (ih2 hle (h.advances.below hle1 hst1)))

/-- A function with the cells of its parameters, that uses locals in its header. -/
def InHeader : Tree → Func → Prop
  | .node p _, f => f.params = paramCells p.params ∧ Confined (f.params + f.locals) f.body
  | .missing, _ => False

/-- The functions of a module. -/
theorem Functions.inHeader {ts : List Tree} {fs : List (Frame × Func)} {userMain : Option Symbol}
    (h : Functions userMain ts st fs st') (hscopes : st.2.scopes = [])
    (hst : st.2.Scoped (Symbol.Below 0)) :
    List.Forall₂ InHeader (ts.filter Tree.isFunction) (fs.map Prod.snd) := by
  induction h with
  | nil => exact .nil
  | @function p _ _ _ _ _ _ _ _ _ hkind hdefines _ ih =>
    have houter := hdefines.outside hscopes
    rw [List.filter_cons_of_pos (by simp [Tree.isFunction, hkind])]
    refine .cons ?_ (ih houter.1 (hst.outside houter))
    cases hdefines with
    | mk _ hbinds hfn1 _ hbody hfn _ hf =>
      -- The scratch local is the one after the parameters.
      have hle := Nat.le_trans (Nat.le_of_eq (slotsTaken_eq hfn))
        ((Nat.sub_le_iff_le_add' (b := paramCells p.params)).mp (Nat.le_refl _))
      have htaken := hbinds.advances.trans (.taking _ hfn1 1)
      have hle1 := Nat.le_trans hbody.advances.slots_le hle
      rw [hf]
      refine ⟨rfl, .append (hbody.confined hle1 hle (htaken.below hle1 (hst.begun _))) ?_⟩
      cases p.result.hasResult <;> exact .instrs rfl
  | other hkind _ ih =>
    rw [List.filter_cons_of_neg (by simp [Tree.isFunction, hkind])]
    exact ih hscopes hst

theorem Generates.inHeader {root : Tree} {fs : List (Frame × Func)} (h : Generates root fs st) :
    ∃ gs entry, fs = gs ++ [entry] ∧
      List.Forall₂ InHeader (root.statements.filter Tree.isFunction) (gs.map Prod.snd) := by
  cases h with
  | mk hintroduced hfunctions _ =>
    rcases hintroduced.introduced rfl with ⟨_, hintroduced⟩
    exact ⟨_, _, rfl, hfunctions.inHeader hintroduced.slotless.1 hintroduced.slotless.2⟩

end Codegen.Wasm
