import Codegen.Proofs.Arm64.Machine
import Codegen.Proofs.Expression
import Codegen.Arm64.Lower

/-!
# What the Fragments Do

One statement for each fragment that the code of an integer expression is put
together from: constants, variables, operators, and the stack.

A constant that one move cannot load is built sixteen bits at a time, and a chunk
of zeros is left out. The low bits that are right grow by one chunk at each step
whether or not there is an instruction for it, since a register that a chunk is
left out of has zeros there already (`run_chunk`).

A variable out of reach of an offset is addressed through scratch registers, so
what a fragment leaves in those is not part of any statement. `Keeps` says what
stays: the other registers, the stack pointer and memory.
-/

namespace Codegen.Arm64

namespace Machine

@[simp] theorem set_x (m : Machine) (n : Nat) (v : Word) (k : Nat) :
    (m.set (.x n) v).x k = if k = n then v else m.x k := rfl

@[simp] theorem set_sp (m : Machine) (n : Nat) (v : Word) : (m.set (.x n) v).sp = m.sp := rfl

@[simp] theorem set_flags (m : Machine) (n : Nat) (v : Word) :
    (m.set (.x n) v).flags = m.flags := rfl

@[simp] theorem set_mem (m : Machine) (r : Reg) (v : Word) : (m.set r v).mem = m.mem := by
  cases r <;> rfl

@[simp] theorem get_x (m : Machine) (n : Nat) : m.get (.x n) = m.x n := rfl

theorem set_set (m : Machine) (n : Nat) (v w : Word) :
    (m.set (.x n) v).set (.x n) w = m.set (.x n) w := by
  refine congrArg (fun x => { m with x := x }) (funext fun k => ?_)
  by_cases hk : k = n <;> simp [hk]

theorem set_get (m : Machine) (n : Nat) : m.set (.x n) (m.x n) = m := by
  refine congrArg (fun x => { m with x := x }) (funext fun k => ?_)
  by_cases hk : k = n
  · rw [hk, if_pos rfl]
  · rw [if_neg hk]

end Machine

/-- The low bits of a word. -/
def lowBits (v : Word) (count : Nat) : Word := (v.setWidth count).setWidth 64

theorem getLsbD_lowBits (v : Word) (count i : Nat) :
    (lowBits v count).getLsbD i = (decide (i < count) && v.getLsbD i) := by
  unfold lowBits
  simp only [BitVec.getLsbD_setWidth]
  by_cases hi : i < 64
  · simp [hi]
  · rw [BitVec.getLsbD_of_ge v i (by omega)]
    simp

theorem getLsbD_chunk (v : UInt64) (shift i : Nat) :
    (BitVec.ofNat 64 (chunk v shift)).getLsbD i = (decide (i < 16) && v.toBitVec.getLsbD (shift + i)) := by
  unfold chunk
  rw [BitVec.getLsbD_ofNat, show (0x10000 : Nat) = 2 ^ 16 from rfl, Nat.testBit_mod_two_pow,
    show Nat.pow 2 shift = 2 ^ shift from rfl, Nat.testBit_div_two_pow, Nat.add_comm i shift]
  by_cases hi : i < 16
  · simp only [show i < 64 by omega]
    rfl
  · simp [hi]

theorem keepInsert_chunk (v : UInt64) (shift : Nat) :
    keepInsert (lowBits v.toBitVec shift) (chunk v shift) shift = lowBits v.toBitVec (shift + 16) := by
  apply BitVec.eq_of_getLsbD_eq
  intro i hi
  unfold keepInsert
  simp only [BitVec.getLsbD_or, BitVec.getLsbD_and, BitVec.getLsbD_not, BitVec.getLsbD_shiftLeft,
    getLsbD_lowBits, getLsbD_chunk, hi, decide_true]
  by_cases hlow : i < shift
  · simp [hlow, show i < shift + 16 by omega]
  · have hsum : shift + (i - shift) = i := by omega
    have hlt : (i - shift < 16) = (i < shift + 16) := by
      apply propext
      omega
    simp [hlow, hsum, hlt]

theorem lowBits_of_chunk (v : UInt64) (shift : Nat) (h : chunk v shift = 0) :
    lowBits v.toBitVec (shift + 16) = lowBits v.toBitVec shift := by
  apply BitVec.eq_of_getLsbD_eq
  intro i hi
  rw [getLsbD_lowBits, getLsbD_lowBits]
  by_cases hlow : i < shift
  · simp [hlow, show i < shift + 16 by omega]
  · have hbit := getLsbD_chunk v shift (i - shift)
    rw [h, show shift + (i - shift) = i by omega] at hbit
    simp only [BitVec.getLsbD_zero] at hbit
    by_cases hhigh : i < shift + 16
    · rw [decide_eq_true (show i - shift < 16 by omega), Bool.true_and] at hbit
      simp [← hbit]
    · simp [hlow, hhigh]
/-- Inserts a chunk into a register that has the bits below it, or nothing where the
    chunk is zero. -/
theorem run_chunk (symbols : Bytes → Word) (n : Nat) (v : UInt64) (shift : Nat) (m : Machine)
    (h : m.x n = lowBits v.toBitVec shift) :
    run? symbols (if chunk v shift = 0 then [] else [.instr (.movk (.x n) (chunk v shift) shift)]) m
      = some (m.set (.x n) (lowBits v.toBitVec (shift + 16))) := by
  split_ifs with hz
  · rw [lowBits_of_chunk v shift hz, ← h, Machine.set_get]
    rfl
  · rw [← keepInsert_chunk v shift, ← h]
    rfl

/-- A constant gets into a register, whatever it is. -/
theorem run_loadImm (symbols : Bytes → Word) (n : Nat) (v : Int64) (m : Machine) :
    run? symbols (loadImm (.x n) v) m = some (m.set (.x n) v.toBitVec) := by
  unfold loadImm
  by_cases hs : isShort v = true
  · rw [if_pos hs, show v.toBitVec = BitVec.ofInt 64 v.toInt from (BitVec.ofInt_toInt).symm]
    rfl
  · -- The chunks in order, each on top of the bits below it.
    have hlow : BitVec.ofNat 64 (chunk v.toUInt64 0) = lowBits v.toBitVec 16 := by
      apply BitVec.eq_of_getLsbD_eq
      intro i hi
      rw [getLsbD_chunk, getLsbD_lowBits, Nat.zero_add]
      rfl
    have hhigh : lowBits v.toBitVec 64 = v.toBitVec := by
      apply BitVec.eq_of_getLsbD_eq
      intro i hi
      rw [getLsbD_lowBits, decide_eq_true hi, Bool.true_and]
    have hstep : ∀ (shift : Nat) (w : Machine), w.x n = lowBits v.toBitVec shift →
        run? symbols (if chunk v.toUInt64 shift = 0 then []
          else [.instr (.movk (.x n) (chunk v.toUInt64 shift) shift)]) w
          = some (w.set (.x n) (lowBits v.toBitVec (shift + 16))) :=
      fun shift w hw => run_chunk symbols n v.toUInt64 shift w hw
    rw [if_neg hs]
    simp only [run?, Instr.step?, highChunks, List.flatMap_cons, List.flatMap_nil, List.append_nil,
      Option.bind_eq_bind, Option.bind_some, hlow]
    rw [run_append, hstep 16 _ (by rw [Machine.set_x, if_pos rfl]), Machine.set_set,
      Option.bind_some, run_append, hstep 32 _ (by rw [Machine.set_x, if_pos rfl]),
      Machine.set_set, Option.bind_some,
      hstep 48 _ (by rw [Machine.set_x, if_pos rfl]), Machine.set_set, hhigh]

/-- So does the address of a symbol. -/
theorem run_loadAddress (symbols : Bytes → Word) (n : Nat) (symbol : Bytes) (m : Machine) :
    run? symbols (loadAddress (.x n) symbol) m = some (m.set (.x n) (symbols symbol)) := by
  have hsplit : (symbols symbol &&& ~~~0xFFF#64) + (symbols symbol &&& 0xFFF#64)
      = symbols symbol := by
    rw [BitVec.add_eq_or_of_and_eq_zero _ _ ?_]
    · apply BitVec.eq_of_getLsbD_eq
      intro i hi
      simp only [BitVec.getLsbD_or, BitVec.getLsbD_and, BitVec.getLsbD_not, hi, decide_true,
        Bool.true_and, ← Bool.and_or_distrib_left, Bool.not_or_self, Bool.and_true]
    · apply BitVec.eq_of_getLsbD_eq
      intro i hi
      simp only [BitVec.getLsbD_and, BitVec.getLsbD_not, hi, BitVec.getLsbD_zero]
      cases (symbols symbol).getLsbD i <;> cases (0xFFF#64).getLsbD i <;> rfl
  simp only [loadAddress, code, List.map_cons, List.map_nil, run?, Instr.step?, Machine.get_x,
    Machine.set_x, if_true, hsplit, Machine.set_set, Option.bind_eq_bind, Option.bind_some]

/-- The registers that fragments may change. -/
def scratch : List Nat := [0, 1, 2, 9, 10]

/-- A machine that differs in scratch registers and flags only. -/
structure Keeps (m m' : Machine) : Prop where
  x : ∀ n, n ∉ scratch → m'.x n = m.x n
  sp : m'.sp = m.sp
  mem : m'.mem = m.mem

namespace Keeps

theorem refl (m : Machine) : Keeps m m := ⟨fun _ _ => rfl, rfl, rfl⟩

theorem set {m m' : Machine} (h : Keeps m m') (n : Nat) (v : Word) (hn : n ∈ scratch) :
    Keeps m (m'.set (.x n) v) := by
  refine ⟨fun k hk => ?_, h.sp, h.mem⟩
  have hne : k ≠ n := fun hkn => hk (hkn ▸ hn)
  rw [Machine.set_x, if_neg hne, h.x k hk]

theorem flags {m m' : Machine} (h : Keeps m m') (f : Flags) : Keeps m { m' with flags := f } :=
  ⟨h.x, h.sp, h.mem⟩

end Keeps

/-- The address of a variable. -/
def place (symbols : Bytes → Word) (m : Machine) (sym : Symbol) : Word :=
  if sym.global then symbols sym.storage else m.x 29 - BitVec.ofInt 64 (slotOffset sym.slot)

/-- Addresses are words, so a distance may as well be narrowed. -/
theorem ofInt_slotDistance (slot : Int) :
    BitVec.ofInt 64 (slotDistance slot) = BitVec.ofInt 64 (slotOffset slot) :=
  BitVec.ofInt_toInt

theorem run_slotAddress (symbols : Bytes → Word) (offset : Nat) (m : Machine) :
    ∃ x, run? symbols (slotAddress offset) m = some { m with x } ∧
      x 9 = m.x 29 - BitVec.ofNat 64 offset ∧ ∀ k, k ∉ [9, 10] → x k = m.x k := by
  unfold slotAddress
  split_ifs
  · exact ⟨_, rfl, rfl, fun k hk => if_neg (by simp_all)⟩
  · rw [run_append, loadNat, x10, run_loadImm]
    refine ⟨_, rfl, rfl, fun k hk => (if_neg (by simp_all)).trans (if_neg (by simp_all))⟩

theorem run_loadSlot (symbols : Bytes → Word) (n : Nat) (slot : Int) (m : Machine) :
    ∃ x, run? symbols (loadSlot (.x n) slot) m = some { m with x } ∧
      x n = m.mem.word (m.x 29 - BitVec.ofInt 64 (slotOffset slot)) ∧
      ∀ k, k ∉ [9, 10, n] → x k = m.x k := by
  rw [← ofInt_slotDistance]
  unfold loadSlot
  by_cases hs : slotDistance slot ≤ 256
  · simp only [hs]
    exact ⟨_, rfl, if_pos rfl, fun k hk => if_neg (by simp_all)⟩
  · simp only [hs, if_false]
    rcases run_slotAddress symbols (slotDistance slot).toNat m with ⟨x, hrun, haddr, hrest⟩
    rw [← BitVec.ofInt_natCast, Int.toNat_of_nonneg (by omega)] at haddr
    rw [run_append, hrun, ← haddr]
    exact ⟨_, rfl, if_pos rfl, fun k hk => (if_neg (by simp_all)).trans (hrest k (by simp_all))⟩

/-- Variables. -/
theorem run_load (symbols : Bytes → Word) (sym : Symbol) (m : Machine)
    (hrep : sym.type.rep = .scalar) :
    ∃ m', run? symbols (load sym) m = some m' ∧ m'.x 0 = m.mem.word (place symbols m sym) ∧
      Keeps m m' := by
  unfold load place
  cases hg : sym.global with
  | true =>
    simp only [hrep]
    rw [run_append, x9, run_loadAddress]
    exact ⟨_, rfl, rfl, ((Keeps.refl m).set 9 _ (by decide)).set 0 _ (by decide)⟩
  | false =>
    simp only [hrep]
    rcases run_loadSlot symbols 0 sym.slot m with ⟨x, hrun, hvalue, hrest⟩
    exact ⟨_, hrun, hvalue, fun k hk => hrest k (by simp_all [scratch]), rfl, rfl⟩

/-- The code of an operator on integers. -/
def operatorCode : BinaryOp → Code
  | .arith op => arithCode op
  | .compare op => code [.cmp x1 x0, .cset x0 (compareCond op)]
  | .logic op => logicCode op

theorem sdiv_result (a b : Int64) :
    WordOp.sdiv.result a.toBitVec b.toBitVec = (a / b).toBitVec := by
  have hdiv : (a / b).toBitVec = BitVec.ofInt 64 (a.toInt.tdiv b.toInt) := by
    apply BitVec.eq_of_toInt_eq
    rw [BitVec.toInt_ofInt]
    exact Int64.toInt_div a b
  simp only [WordOp.result]
  by_cases hb : b.toBitVec = 0
  · have hz : b.toInt = 0 := by
      rw [← Int64.toInt_toBitVec, hb]
      rfl
    rw [if_pos hb, hdiv, hz, Int.tdiv_zero]
    rfl
  · rw [if_neg hb, hdiv]
    rfl

theorem run_arithCode (symbols : Bytes → Word) (op : Arith) (a b : Int64) (m : Machine)
    (ha : m.x 1 = a.toBitVec) (hb : m.x 0 = b.toBitVec) :
    ∃ m', run? symbols (arithCode op) m = some m' ∧ m'.x 0 = (op.wrap a b).toBitVec ∧
      Keeps m m' := by
  cases op with
  | add =>
    refine ⟨_, rfl, ?_, (Keeps.refl m).set 0 _ (by decide)⟩
    change m.x 1 + m.x 0 = _
    rw [ha, hb]
    exact Int64.toBitVec_add.symm
  | sub =>
    refine ⟨_, rfl, ?_, (Keeps.refl m).set 0 _ (by decide)⟩
    change m.x 1 - m.x 0 = _
    rw [ha, hb]
    exact Int64.toBitVec_sub.symm
  | mul =>
    refine ⟨_, rfl, ?_, (Keeps.refl m).set 0 _ (by decide)⟩
    change m.x 1 * m.x 0 = _
    rw [ha, hb]
    exact Int64.toBitVec_mul.symm
  | div =>
    refine ⟨_, rfl, ?_, (Keeps.refl m).set 0 _ (by decide)⟩
    change WordOp.sdiv.result (m.x 1) (m.x 0) = _
    rw [ha, hb]
    exact sdiv_result a b
  | rem =>
    refine ⟨_, rfl, ?_, ((Keeps.refl m).set 2 _ (by decide)).set 0 _ (by decide)⟩
    change m.x 1 - WordOp.sdiv.result (m.x 1) (m.x 0) * m.x 0 = _
    rw [ha, hb, sdiv_result, Arith.wrap, Arith.rem_eq_sub, Int64.toBitVec_sub, Int64.toBitVec_mul]

theorem holds_compareCond (op : Compare) (a b : Int64) :
    (compareCond op).holds (.compare a.toBitVec b.toBitVec) = op.holds a b := by
  have hz : (Flags.compare a.toBitVec b.toBitVec).zero = decide (a.toInt = b.toInt) := by
    rw [Flags.compare_zero, decide_eq_decide, Int64.toBitVec_inj, Int64.toInt_inj]
  have hl : ((Flags.compare a.toBitVec b.toBitVec).negative !=
      (Flags.compare a.toBitVec b.toBitVec).overflow) = decide (a.toInt < b.toInt) :=
    Flags.compare_less a.toBitVec b.toBitVec
  have hg : ((Flags.compare a.toBitVec b.toBitVec).negative ==
      (Flags.compare a.toBitVec b.toBitVec).overflow) = decide (¬ a.toInt < b.toInt) := by
    rw [decide_not, ← hl, bne, Bool.not_not]
  cases op <;>
    simp only [compareCond, Cond.holds, Compare.holds, hz, hl, hg, ← Bool.decide_or,
      ← Bool.decide_and, ← decide_not, decide_eq_decide, Int64.lt_iff_toInt_lt,
      Int64.le_iff_toInt_le, ← Int64.toInt_inj, ne_eq]
  all_goals omega

theorem toBitVec_truthWord (b : Bool) :
    (truthWord b).toBitVec = if b = true then (1 : Word) else 0 := by
  cases b <;> rfl

theorem holds_ne_zero (a : Int64) :
    Cond.ne.holds (.compare a.toBitVec (BitVec.ofNat 64 0)) = decide (a ≠ 0) :=
  holds_compareCond .ne a 0

theorem run_logicCode (symbols : Bytes → Word) (op : Logic) (a b : Int64) (m : Machine)
    (ha : m.x 1 = a.toBitVec) (hb : m.x 0 = b.toBitVec) :
    ∃ m', run? symbols (logicCode op) m = some m' ∧
      m'.x 0 = (truthWord (op.join a b)).toBitVec ∧ Keeps m m' := by
  refine ⟨_, rfl, ?_, ((((((Keeps.refl m).flags _).set 1 _ (by decide)).flags _).set 0 _
    (by decide)).set 0 _ (by decide))⟩
  change WordOp.result _ (if Cond.ne.holds (.compare (m.x 1) (BitVec.ofNat 64 0)) then 1 else 0)
    (if Cond.ne.holds (.compare (m.x 0) (BitVec.ofNat 64 0)) then 1 else 0) = _
  rw [ha, hb, holds_ne_zero, holds_ne_zero]
  cases op <;> cases hl : decide (a ≠ 0) <;> cases hr : decide (b ≠ 0) <;>
    simp only [Logic.join, hl, hr] <;> rfl

/-- Operators. -/
theorem run_operatorCode (symbols : Bytes → Word) (op : BinaryOp) (a b : Int64) (m : Machine)
    (ha : m.x 1 = a.toBitVec) (hb : m.x 0 = b.toBitVec) :
    ∃ v, op.value? Arith.wrap? a b = some v ∧
      ∃ m', run? symbols (operatorCode op) m = some m' ∧ m'.x 0 = v.toBitVec ∧ Keeps m m' := by
  cases op with
  | arith op => exact ⟨_, rfl, run_arithCode symbols op a b m ha hb⟩
  | compare op =>
    refine ⟨_, rfl, _, rfl, ?_, ((Keeps.refl m).flags _).set 0 _ (by decide)⟩
    change (if (compareCond op).holds (.compare (m.x 1) (m.x 0)) = true then (1 : Word) else 0)
      = _
    rw [ha, hb, holds_compareCond, toBitVec_truthWord]
  | logic op => exact ⟨_, rfl, run_logicCode symbols op a b m ha hb⟩

end Codegen.Arm64
