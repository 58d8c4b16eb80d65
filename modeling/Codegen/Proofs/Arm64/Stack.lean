import Mathlib.Algebra.Order.BigOperators.Group.List
import Codegen.Proofs.Arm64.Fragment
import Codegen.Proofs.Arm64.Slots
import Codegen.Proofs.Outputs

/-!
# The Stack under AArch64 Code

Code is followed line by line (`Walks`), whatever calls, branches and decimal instructions do to
registers other than the stack pointer and the frame pointer. A line moves the stack by sixteen
bytes or not at all, and the depth of the stack below the level where a fragment begins is never
negative (`Sinks`). A fragment is level if it ends at the depth where it began. Code that is framed
is level, so expressions and statements are, those that are refused included. It follows that
wherever a statement begins or ends, the stack pointer is where the prologue of the function put it.

## Theorems

* `document_stack`: The stack pointer is at the end of the frame between statements.
-/

namespace Codegen

namespace Arm64

open Context

/-- A machine with the stack pointer and the frame pointer of another. -/
def Machine.Stands (m m' : Machine) : Prop := m'.sp = m.sp ∧ m'.get .fp = m.get .fp

/-- What a line does to a machine in the order of the lines. Nothing is known of the decimal that
    is moved to a register, and nothing but the pointers after a call. -/
def Line.Moves (symbols : Bytes → Word) (line : Line) (m m' : Machine) : Prop :=
  match line with
  | .instr (.fmovOut rd _) => ∃ v, m' = m.set rd v
  | .instr i =>
    match i.step? symbols m with
    | some m1 => m' = m1
    | none => m.Stands m'
  | _ => m' = m

/-- What code does to a machine, line by line. -/
def Walks (symbols : Bytes → Word) : Code → Machine → Machine → Prop
  | [], m, m' => m' = m
  | line :: rest, m, m' => ∃ m1, line.Moves symbols m m1 ∧ Walks symbols rest m1 m'

/-- A line that takes the stack from one depth to another, in steps of sixteen bytes below some
    level, and leaves the frame pointer. -/
def Line.Sinks (line : Line) (depth depth' : Nat) : Prop :=
  depth' ≤ depth + 1 ∧ depth ≤ depth' + 1 ∧ ∀ symbols m m', line.Moves symbols m m' →
    m'.sp + BitVec.ofNat 64 (16 * depth') = m.sp + BitVec.ofNat 64 (16 * depth) ∧
      m'.get .fp = m.get .fp

/-- Code that takes the stack from one depth to another, line by line. -/
inductive Sinks : Code → Nat → Nat → Prop where
  | nil {depth} : Sinks [] depth depth
  | cons {line rest depth depth1 depth'} (h : line.Sinks depth depth1)
      (hrest : Sinks rest depth1 depth') : Sinks (line :: rest) depth depth'

/-- Code that ends at the depth where it began, whatever that is. -/
def Level (c : Code) : Prop := ∀ depth, Sinks c depth depth

section Levels

variable {a b c : Code} {symbols : Bytes → Word} {m m' : Machine} {i j k : Nat}

theorem Sinks.append (ha : Sinks a i j) (hb : Sinks b j k) : Sinks (a ++ b) i k := by
  induction ha with
  | nil => exact hb
  | cons h _ ih => exact .cons h (ih hb)

theorem Level.append (ha : Level a) (hb : Level b) : Level (a ++ b) := fun depth =>
  (ha depth).append (hb depth)

theorem stands_set {r : Reg} (hr : r.isGeneral = true) (v : Word) : m.Stands (m.set r v) := by
  cases r with
  | sp => cases hr
  | x n =>
    refine ⟨rfl, if_neg fun h => ?_⟩
    subst h
    cases hr

theorem Machine.Stands.trans {m1 : Machine} (h : m.Stands m1) (h' : m1.Stands m') : m.Stands m' :=
  ⟨h'.1.trans h.1, h'.2.trans h.2⟩

theorem stands_writeBack {addr : Addr} (h : addr.moved.all Reg.isGeneral = true) :
    m.Stands (addr.writeBack m) := by
  cases addr with
  | preDecrement | postIncrement => exact stands_set (by simpa [Addr.moved] using h) _
  | _ => exact ⟨rfl, rfl⟩

/-- An instruction leaves the registers that it does not write. -/
theorem stands_step {i : Instr} (h : i.step? symbols m = some m')
    (hi : i.written.all Reg.isGeneral = true) : m.Stands m' := by
  cases i with
  | ldur | ldr =>
    obtain rfl := Option.some.inj h
    obtain ⟨hrt, haddr⟩ := Bool.and_eq_true_iff.mp hi
    exact (stands_writeBack haddr).trans (stands_set hrt _)
  | ldp =>
    obtain rfl := Option.some.inj h
    obtain ⟨hrt, hi⟩ := Bool.and_eq_true_iff.mp hi
    obtain ⟨hru, haddr⟩ := Bool.and_eq_true_iff.mp hi
    exact ((stands_writeBack haddr).trans (stands_set hrt _)).trans (stands_set hru _)
  | stur | str | stp =>
    obtain rfl := Option.some.inj h
    exact stands_writeBack hi
  | cmp | cmpImm =>
    obtain rfl := Option.some.inj h
    exact ⟨rfl, rfl⟩
  | fmovIn | fmovOut | float | fneg | fcmp | scvtf | branch | branchIf | cbz | bl | ret => cases h
  | _ =>
    obtain rfl := Option.some.inj h
    exact stands_set (Bool.and_eq_true_iff.mp hi).1 _

/-- Whether a line leaves the stack pointer and the frame pointer. -/
def Line.isStill : Line → Bool
  | .instr i => i.written.all Reg.isGeneral
  | _ => true

theorem Line.Moves.stands {line : Line} (h : line.Moves symbols m m') (hline : line.isStill = true) :
    m.Stands m' := by
  unfold Line.Moves at h
  split at h
  · rcases h with ⟨v, rfl⟩
    exact stands_set (Bool.and_eq_true_iff.mp hline).1 v
  · split at h
    · next hstep => exact h ▸ stands_step hstep hline
    · exact h
  · exact h ▸ ⟨rfl, rfl⟩

theorem level_still (h : c.all Line.isStill = true) : Level c := by
  intro depth
  induction c with
  | nil => exact .nil
  | cons line rest ih =>
    obtain ⟨hline, hrest⟩ := Bool.and_eq_true_iff.mp h
    refine .cons ⟨Nat.le_succ _, Nat.le_succ _, fun symbols m m' hmoves => ?_⟩ (ih hrest)
    obtain ⟨hsp, hfp⟩ := hmoves.stands hline
    exact ⟨congrArg (· + _) hsp, hfp⟩

theorem still_apart (h : c.all Line.isApart = true) : c.all Line.isStill = true := by
  refine List.all_eq_true.mpr fun line hline => ?_
  have hapart := List.all_eq_true.mp h line hline
  cases line with
  | instr i =>
    rw [Line.isApart, List.all_append] at hapart
    exact (Bool.and_eq_true_iff.mp hapart).2
  | _ => rfl

theorem still_slotAddress (offset : Nat) : (slotAddress offset).all Line.isStill = true := by
  unfold slotAddress
  split
  · rfl
  · rw [List.all_append, loadNat, still_apart (apart_loadImm rfl _)]
    rfl

theorem sinks_push (rep : Rep) (depth : Nat) : Sinks (push rep) depth (depth + 1) := by
  cases rep <;>
  · refine .cons ⟨Nat.le_refl _, by omega, fun symbols m m' h => ?_⟩ .nil
    obtain rfl := h
    refine ⟨?_, rfl⟩
    rw [Nat.mul_succ, BitVec.ofNat_add]
    change m.sp - 16#64 + _ = _
    bv_omega

theorem sinks_pop (rep : Rep) {n : Nat} (hn : n + 1 < 29) (depth : Nat) :
    Sinks (pop rep n) (depth + 1) depth := by
  have hreg {r : Nat} (hr : r < 29) : Reg.isGeneral (.x r) = true := by
    simp only [Reg.isGeneral, Reg.fp, ne_eq, reduceCtorEq, not_false_eq_true, decide_true,
      Reg.x.injEq, Bool.true_and, decide_eq_true_eq]
    omega
  have hpopped {m m' : Machine} (h : (m.set .sp (m.sp + 16#64)).Stands m') :
      m'.sp + BitVec.ofNat 64 (16 * depth) = m.sp + BitVec.ofNat 64 (16 * (depth + 1)) ∧
        m'.get .fp = m.get .fp := by
    refine ⟨?_, h.2⟩
    rw [h.1, Nat.mul_succ, BitVec.ofNat_add]
    change m.sp + 16#64 + _ = _
    bv_omega
  cases rep with
  | scalar =>
    refine .cons ⟨by omega, Nat.le_refl _, fun symbols m m' h => ?_⟩ .nil
    obtain rfl := h
    exact hpopped (stands_set (hreg (by omega)) _)
  | fat =>
    refine .cons ⟨by omega, Nat.le_refl _, fun symbols m m' h => ?_⟩ .nil
    obtain rfl := h
    exact hpopped ((stands_set (hreg (by omega)) _).trans (stands_set (hreg hn) _))

/-- Framed code is level: what is saved is taken back. -/
theorem Framed.level {P : Int → Prop} (h : Framed P c) : Level c := by
  induction h with
  | lines h => exact level_still (still_apart h)
  | @load r _ hr =>
    have hload (addr : Addr) (haddr : addr.moved = []) :
        (code [.ldr r addr]).all Line.isStill = true ∧ (code [.ldur r addr]).all Line.isStill = true := by
      simp [code, Line.isStill, Instr.written, haddr, hr]
    refine level_still ?_
    unfold loadSlot
    dsimp only
    split
    · exact (hload _ rfl).2
    · rw [List.all_append, still_slotAddress, (hload _ rfl).1]
      rfl
  | store =>
    refine level_still ?_
    unfold storeSlot
    dsimp only
    split
    · rfl
    · rw [List.all_append, still_slotAddress]
      rfl
  | saved _ _ hreg ih =>
    exact fun depth => ((sinks_push _ depth).append (ih (depth + 1))).append (sinks_pop _ hreg depth)
  | append _ _ iha ihb => exact iha.append ihb

theorem walks_append : Walks symbols (a ++ b) m m' ↔
    ∃ m1, Walks symbols a m m1 ∧ Walks symbols b m1 m' := by
  induction a generalizing m with
  | nil => simp [Walks]
  | cons line rest ih =>
    simp only [List.cons_append, Walks, ih]
    constructor
    · rintro ⟨m1, hline, m2, hrest, h⟩
      exact ⟨m2, ⟨m1, hline, hrest⟩, h⟩
    · rintro ⟨m2, ⟨m1, hline, hrest⟩, h⟩
      exact ⟨m1, hline, m2, hrest, h⟩

/-- The stack of a machine is as deep as the code says. -/
theorem Walks.depth (h : Walks symbols c m m') (hsinks : Sinks c i j) :
    m'.sp + BitVec.ofNat 64 (16 * j) = m.sp + BitVec.ofNat 64 (16 * i) ∧
      m'.get .fp = m.get .fp := by
  induction hsinks generalizing m with
  | nil =>
    cases h
    exact ⟨rfl, rfl⟩
  | cons hline _ ih =>
    rcases h with ⟨m1, hmoves, hrest⟩
    obtain ⟨hsp, hfp⟩ := hline.2.2 symbols m m1 hmoves
    obtain ⟨hsp', hfp'⟩ := ih hrest
    exact ⟨hsp'.trans hsp, hfp'.trans hfp⟩

/-- Integer code walks as it runs. -/
theorem Walks.run (h : Walks symbols c m m') {m1 : Machine} (hrun : run? symbols c m = some m1) :
    m' = m1 := by
  induction c generalizing m with
  | nil =>
    cases hrun
    exact h
  | cons line rest ih =>
    rcases h with ⟨m2, hline, hrest⟩
    cases line with
    | instr i =>
      simp only [run?, Option.bind_eq_bind, Option.bind_eq_some_iff] at hrun
      rcases hrun with ⟨m3, hstep, hrun⟩
      cases i
      case fmovOut => cases hstep
      all_goals
        simp only [Line.Moves, hstep] at hline
        exact ih (hline ▸ hrest) hrun
    | label l | comment text | routine symbol exported =>
      cases hline
      exact ih hrest hrun

/-- Code after which the stack pointer is at the end of a frame of local words. -/
def Seated (words : Nat) (c : Code) : Prop := ∀ symbols m m', Walks symbols c m m' →
  m'.sp = m'.get .fp - BitVec.ofNat 64 (frameSize words)

theorem seated_prologue (symbol : Bytes) (words : Nat) : Seated words (prologue symbol words) := by
  intro symbols m m' h
  have hopen : ∃ m1, run? symbols ([.routine symbol true] ++ openFrame) m = some m1 ∧
      m1.sp = m1.x 29 := ⟨_, rfl, rfl⟩
  have hrun : ∃ m1, run? symbols (prologue symbol words) m = some m1 ∧
      m1.sp = m1.x 29 - BitVec.ofNat 64 (frameSize words) := by
    rcases hopen with ⟨m1, hrun, hsp⟩
    rw [prologue, run_append, hrun, Option.bind_some, reserveFrame]
    split
    · next hzero => exact ⟨m1, rfl, by rw [hzero, hsp]; exact (BitVec.sub_zero _).symm⟩
    · split
      · exact ⟨_, rfl, congrArg (· - _) hsp⟩
      · rw [run_append, loadNat, x9, run_loadImm]
        exact ⟨_, rfl, congrArg (· - _) hsp⟩
  rcases hrun with ⟨m1, hrun, hsp⟩
  rw [h.run hrun]
  exact hsp

theorem Seated.append {words : Nat} (ha : Seated words a) (hb : Level b) : Seated words (a ++ b) := by
  intro symbols m m' h
  rcases walks_append.mp h with ⟨m1, hfirst, hrest⟩
  obtain ⟨hsp, hfp⟩ := hrest.depth (hb 0)
  rw [hfp, ← ha symbols m m1 hfirst]
  exact (BitVec.add_left_inj _).mp hsp

end Levels

section Rules

variable {flavor : Flavor} {st st' : Stage} {c pre : Code} {steps : List Step} {task : Task}

theorem Produces.level {t : Term} {r : Lowered} (h : Produces flavor (.expr t) st r st') :
    Level r.code := by
  have hframed : Framed (fun _ => True) r.code := h.frames fun _ _ _ _ _ _ _ _ => trivial
  exact hframed.level

theorem Executes.level (h : Executes flavor task st c steps st') : Level c := by
  have hframed : Framed (fun _ => True) c :=
    h.framed (fun _ _ => trivial) (Nat.le_refl _) fun _ _ _ _ _ _ _ _ => trivial
  exact hframed.level

theorem level_store (sym : Symbol) : Level (store sym) :=
  (framed_access (P := fun _ => True) fun _ _ _ => trivial).2.level

theorem Enters.level {ts : List Tree} (h : Enters flavor ts st c steps st') : Level c := by
  induction h with
  | nil => exact level_still rfl
  | declared _ _ ih => exact ih
  | varInit _ _ h _ ih => exact (h.level.append (level_store _)).append ih
  | varZero _ _ _ ih => exact ((framed_zero (P := fun _ => True)).level.append (level_store _)).append ih
  | stmt _ _ h _ ih => exact h.level.append ih

/-- Where in code a statement begins or ends, given by the code before. -/
inductive Boundary (flavor : Flavor) : Task → Code → Code → Prop where
  | start {stmt c} : Boundary flavor (.stmt stmt) c []
  | finish {stmt st c steps st'} (h : Executes flavor (.stmt stmt) st c steps st') :
      Boundary flavor (.stmt stmt) c c
  | block {body c pre} (h : Boundary flavor (.stmts body) c pre) :
      Boundary flavor (.stmt (.block body)) c pre
  | cond {parts join c pre} (h : Boundary flavor (.chain join parts) c pre) :
      Boundary flavor (.stmt (.cond parts)) (c ++ [.label join]) pre
  | whileLoop {condition body stmt start done st c reps reads st' b pre}
      (hcondition : Produces flavor (.expr condition) st ⟨c, reps, reads⟩ st')
      (hstmt : body.stmt? = some stmt) (h : Boundary flavor (.stmt stmt) b pre) :
      Boundary flavor (.stmt (.whileLoop condition body)) (whileCode start done c b)
        ([.label start] ++ c ++ code [.cbz x0 done] ++ pre)
  | forRange {name first last body stmt counter limit start step done st a reps reads st' st1 b reps1
        reads1 st1' c pre} (hfirst : Produces flavor (.expr first) st ⟨a, reps, reads⟩ st')
      (hlast : Produces flavor (.expr last) st1 ⟨b, reps1, reads1⟩ st1')
      (hstmt : body.stmt? = some stmt) (h : Boundary flavor (.stmt stmt) c pre) :
      Boundary flavor (.stmt (.forRange name first last body))
        (forCode counter limit start step done a b c)
        (a ++ storeSlot x0 counter ++ b ++ storeSlot x0 limit ++ [.label start]
          ++ loadSlot x0 counter ++ loadSlot x1 limit ++ code [.cmp x0 x1, .branchIf .gt done] ++ pre)
  | head {t ts stmt c cs pre} (hstmt : t.stmt? = some stmt)
      (h : Boundary flavor (.stmt stmt) c pre) : Boundary flavor (.stmts (t :: ts)) (c ++ cs) pre
  | tail {t ts stmt st c steps st' cs pre} (hstmt : t.stmt? = some stmt)
      (hfirst : Executes flavor (.stmt stmt) st c steps st')
      (h : Boundary flavor (.stmts ts) cs pre) :
      Boundary flavor (.stmts (t :: ts)) (c ++ cs) (c ++ pre)
  | chainLast {join body stmt c pre} (hstmt : body.stmt? = some stmt)
      (h : Boundary flavor (.stmt stmt) c pre) : Boundary flavor (.chain join [body]) c pre
  | chainBody {join condition body rest stmt next st c reps reads st' b cs pre}
      (hcondition : Produces flavor (.expr condition) st ⟨c, reps, reads⟩ st')
      (hstmt : body.stmt? = some stmt) (h : Boundary flavor (.stmt stmt) b pre) :
      Boundary flavor (.chain join (condition :: body :: rest))
        (c ++ code [.cbz x0 next] ++ b ++ code [.branch join] ++ [.label next] ++ cs)
        (c ++ code [.cbz x0 next] ++ pre)
  | chainRest {join condition body rest stmt next st c reps reads st' st1 b steps st1' cs pre}
      (hcondition : Produces flavor (.expr condition) st ⟨c, reps, reads⟩ st')
      (hstmt : body.stmt? = some stmt) (hbody : Executes flavor (.stmt stmt) st1 b steps st1')
      (h : Boundary flavor (.chain join rest) cs pre) :
      Boundary flavor (.chain join (condition :: body :: rest))
        (c ++ code [.cbz x0 next] ++ b ++ code [.branch join] ++ [.label next] ++ cs)
        (c ++ code [.cbz x0 next] ++ b ++ code [.branch join] ++ [.label next] ++ pre)

/-- Where in the code of the entry a statement begins or ends. -/
inductive TopBoundary (flavor : Flavor) : List Tree → Code → Code → Prop where
  | start {ts c} : TopBoundary flavor ts c []
  | inside {t ts stmt c cs pre} (hstmt : (Term.ofTree t).stmt? = some stmt)
      (h : Boundary flavor (.stmt stmt) c pre) : TopBoundary flavor (t :: ts) (c ++ cs) pre
  | tail {t ts st c steps st' cs pre} (hfirst : Enters flavor [t] st c steps st')
      (h : TopBoundary flavor ts cs pre) : TopBoundary flavor (t :: ts) (c ++ cs) (c ++ pre)

/-- The code before the beginning or the end of a statement is level. -/
theorem Boundary.level (h : Boundary flavor task c pre) : Level pre := by
  have hlines {c : Code} (h : c.all Line.isApart = true) : Level c := level_still (still_apart h)
  have hslot {c : Code} (h : Framed (fun _ => True) c) : Level c := h.level
  induction h with
  | start => exact hlines rfl
  | finish h => exact h.level
  | block _ ih | cond _ ih | head _ _ ih | chainLast _ _ ih => exact ih
  | whileLoop hcondition _ _ ih =>
    exact (((hlines rfl).append hcondition.level).append (hlines rfl)).append ih
  | @forRange _ _ _ _ _ counter limit _ _ _ _ _ _ _ _ _ _ _ _ _ _ _ hfirst hlast _ _ ih =>
    have hstore (slot : Int) := hslot (@Framed.store _ x0 slot trivial)
    have hcounter := hslot (@Framed.load _ x0 counter rfl trivial)
    have hlimit := hslot (@Framed.load _ x1 limit rfl trivial)
    exact (((((((hfirst.level.append (hstore counter)).append hlast.level).append
      (hstore limit)).append (hlines rfl)).append hcounter).append hlimit).append
      (hlines rfl)).append ih
  | tail _ hfirst _ ih => exact hfirst.level.append ih
  | chainBody hcondition _ _ ih => exact (hcondition.level.append (hlines rfl)).append ih
  | chainRest hcondition _ hbody _ ih =>
    exact ((((hcondition.level.append (hlines rfl)).append hbody.level).append (hlines rfl)).append
      (hlines rfl)).append ih

theorem TopBoundary.level {ts : List Tree} (h : TopBoundary flavor ts c pre) : Level pre := by
  induction h with
  | start => exact level_still rfl
  | inside _ h => exact h.level
  | tail hfirst _ ih => exact hfirst.level.append ih

/-- Code of a function or of the entry of a program. After the prologue and the stores of
    parameters, the stack pointer is at the end of the frame wherever a statement begins or ends. -/
inductive Seats (flavor : Flavor) (root : Tree) : Code → Prop where
  | function {p body more stmt n symbol params st c steps st' rest}
      (hmem : .node p (body :: more) ∈ root.statements) (hkind : p.kind = .funcDecl)
      (hstmt : (Term.ofTree body).stmt? = some stmt)
      (hbody : Executes flavor (.stmt stmt) st c steps st') (hn : body.localWords = some n)
      (h : ∀ pre, Boundary flavor (.stmt stmt) c pre →
        Seated (n + paramWords p.params) (prologue symbol (n + paramWords p.params) ++ params ++ pre)) :
      Seats flavor root (prologue symbol (n + paramWords p.params) ++ params ++ c ++ rest)
  | entry {words st c steps st' rest} (hwords : root.entryWords = some words)
      (hbody : Enters flavor root.statements st c steps st')
      (h : ∀ pre, TopBoundary flavor root.statements c pre →
        Seated words (prologue "main" words ++ pre)) :
      Seats flavor root (prologue "main" words ++ c ++ rest)

theorem Functions.seats {root : Tree} {ts : List Tree} {fs : List (Frame × Code)}
    (h : Functions flavor ts st fs st') (hsub : ts ⊆ root.statements) :
    ∀ f ∈ fs, Seats flavor root f.2 := by
  induction h with
  | nil => exact List.forall_mem_nil _
  | function hkind h _ ih =>
    obtain ⟨hmem, hrest⟩ := List.cons_subset.mp hsub
    refine List.forall_mem_cons.mpr ⟨?_, ih hrest⟩
    cases h with
    | mk _ hn hbinds _ hstmt hbody _ _ _ hwhole hbound =>
      rcases ends_bindParams _ hbinds 0 _ rfl with ⟨_, hends⟩
      obtain ⟨rfl, -⟩ := hbound.unique hends
      have hparams (regs) := (framed_storeParams (P := fun _ => True) (fun _ _ => trivial)
        hbinds.slots_below regs).level
      rw [hwhole]
      exact .function hmem hkind hstmt hbody hn fun pre hpre =>
        ((seated_prologue _ _).append (hparams _)).append hpre.level
  | other _ _ ih => exact ih (List.cons_subset.mp hsub).2

theorem Generates.seats {root : Tree} {fs : List (Frame × Code)} (h : Generates flavor root fs st) :
    ∀ f ∈ fs, Seats flavor root f.2 := by
  cases h with
  | mk _ hfunctions hentry =>
    refine List.forall_mem_append.mpr ⟨hfunctions.seats (List.Subset.refl _), ?_⟩
    refine List.forall_mem_singleton.mpr ?_
    cases hentry with
    | mk hwords hbody _ _ _ hwhole =>
      rw [hwhole, List.append_assoc _ (callMain _)]
      exact .entry hwords hbody fun pre hpre => (seated_prologue _ _).append hpre.level

end Rules

end Arm64

/-- Expressions and statements are lowered to code that ends at the depth of the stack where it
    began, and goes below it in steps of sixteen bytes only. The output for a document is made of
    functions in which the stack pointer is at the end of the frame wherever a statement begins or
    ends. -/
theorem document_stack {opts : Options} {source : Bytes} {root : Tree}
    (hopts : opts.validate = .ok ()) (htree : Document.tree source = .ok root)
    (flavor : Arm64.Flavor) :
    (∀ t, Term.Formed [t] → ∀ s ctx, ∃ c rep s' ctx',
      Ends (Arm64.expr flavor t) s ctx (c, rep) s' ctx' ∧ Arm64.Level c) ∧
    (∀ t, Term.Formed [t] → ∀ looping s ctx, ctx.Inside looping → ∃ c s' ctx',
      Ends (Arm64.stmt flavor t) s ctx c s' ctx' ∧ Arm64.Level c) ∧
    ∃ fs out ctx, Arm64.Generates (.ofOs opts.os) (opts.prepared root) fs (out, ctx) ∧
      compileSource { opts with target := "arm64" } source =
        .ok ⟨out.text (.ofOs opts.os), ctx.limitations⟩ ∧
      out.code = (fs.map Prod.snd).flatten ∧
      ∀ f ∈ fs, Arm64.Seats (.ofOs opts.os) (opts.prepared root) f.2 := by
  have hself (ctx : Context) : ctx.Agrees Eq ctx := .refl (fun _ => rfl) ctx
  refine ⟨fun t hf s ctx => ?_, fun t hf looping s ctx hin => ?_, ?_⟩
  · rcases Arm64.exists_expr flavor hf s ctx (hself ctx) with ⟨c, rep, _, s', ctx', h, -⟩
    exact ⟨c, rep, s', ctx', h.runs, h.level⟩
  · rcases Arm64.performs_of_formed flavor hf t (by simp) ctx looping s ctx hin (hself ctx) with
      ⟨inner, c, _, s', ctx', hinner, h, -⟩
    refine ⟨c, s', ctx', ?_, h.level⟩
    rw [Arm64.stmt_eq hinner]
    exact h.runs
  · rcases compileSource_arm64 hopts htree with ⟨fs, out, ctx, h, hcompile⟩
    exact ⟨fs, out, ctx, h, hcompile, h.branches.1, h.seats⟩

namespace Sample

/-- Values that are kept while a call is made, and a statement that is refused. -/
def keeping : Bytes :=
  "(program (func \"f\" (params (param \"n\" integer)) integer (return (binary \"+\" (ident \"n\") " ++
    "(call (ident \"f\") (binary \"*\" (ident \"n\") 2))))) (func \"g\" (params) void (break)))"

end Sample

theorem document_stack_keeping :
    ∃ root fs out ctx, Document.tree Sample.keeping = .ok root ∧
      (root.statements.filter Tree.isFunction).length = 2 ∧
      Arm64.Generates .linux root fs (out, ctx) ∧ ∀ f ∈ fs, Arm64.Seats .linux root f.2 := by
  have hread : ∃ root, Document.tree Sample.keeping = .ok root ∧
      decide ((root.statements.filter Tree.isFunction).length = 2) = true :=
    ok_of_any (by decide +kernel)
  rcases hread with ⟨root, htree, hfunctions⟩
  rcases (@document_stack { optimize := false } _ _ rfl htree .linux).2.2 with
    ⟨fs, out, ctx, h, -, -, hseats⟩
  exact ⟨root, fs, out, ctx, htree, of_decide_eq_true hfunctions, h, hseats⟩

end Codegen
