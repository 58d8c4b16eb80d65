import Codegen.Proofs.Session
import Codegen.Wasm.Generate
import Mathlib.Data.List.Pairwise
import Mathlib.Order.Bounds.Defs

/-!
# The Layout of the Data Segment

Literals and reserved space are laid out in the order in which they are asked for, and only later
is the segment filled in: literals are written over zeros. `segment_layout` says that the two
agree, whatever else is asked of the context in between. What is allotted in a session is disjoint
(`Laid`, the invariant of a run), so no literal is written over another one or over space.

All of this needs numbers that are large enough. The segment adds its sizes up in 64 bits, and
`Operation.reach` adds them up without a limit; the two are the same as long as the limit is not
reached. Past it, space is allotted below zero (`segment_running_over`).

## Theorems

* `segment_layout`: The contents hold what was allotted, and fit the memory.
-/

namespace Codegen

open List

variable {lit : Literal}

namespace DataSegment

/-- The next multiple of an alignment, if there is one to keep. -/
def roundUp (size align : Nat) : Nat :=
  if 1 < align ∧ size % align ≠ 0 then size + (align - size % align) else size

theorem le_roundUp (size align : Nat) : size ≤ roundUp size align := by
  unfold roundUp
  split
  · exact Nat.le_add_right _ _
  · exact Nat.le_refl _

theorem dvd_roundUp (size : Nat) {align : Nat} (h : 1 < align) : align ∣ roundUp size align := by
  unfold roundUp
  split
  · -- What is missing to the next multiple is added.
    have hlt := Nat.mod_lt size (Nat.zero_lt_of_lt h)
    have hsize := Nat.div_add_mod size align
    exact ⟨size / align + 1, by rw [Nat.mul_add]; omega⟩
  · next haligned => exact Nat.dvd_of_mod_eq_zero (by_contra fun hne => haligned ⟨h, hne⟩)

theorem alignUp_eq {size : Nat} {align : Int}
    (h : roundUp size align.toNat < 0x8000000000000000) :
    alignUp size align = roundUp size align.toNat := by
  by_cases halign : 1 < align
  · lift align to Nat using by omega
    rw [Int.toNat_natCast] at h ⊢
    have hlt := Nat.mod_lt size (show 0 < align by omega)
    by_cases hrest : size % align = 0
    · simp [alignUp, roundUp, ← Int.ofNat_tmod, hrest]
    · have hround : roundUp size align = size + (align - size % align) :=
        if_pos ⟨by omega, hrest⟩
      rw [hround] at h ⊢
      rw [alignUp, ← Int.ofNat_tmod, if_pos (by simp; omega),
        Integer.narrow_of_fits (by omega) (by omega)]
      omega
  · rw [alignUp, roundUp, if_neg (by simp [halign]), if_neg (by omega)]

section Contents

variable {offset i : Nat} {bytes base : Bytes} {lits : List Literal}

theorem length_overlay (h : offset + bytes.length ≤ base.length) :
    (overlay offset bytes base).length = base.length := by
  simp only [overlay, length_append, length_take, length_drop]
  omega

/-- What is there after bytes are written. -/
theorem getElem?_overlay (h : offset + bytes.length ≤ base.length) :
    (overlay offset bytes base)[i]? =
      if offset ≤ i ∧ i < offset + bytes.length then bytes[i - offset]? else base[i]? := by
  have htake : bytes.take (base.length - offset) = bytes :=
    take_of_length_le (Nat.le_sub_of_add_le' h)
  rw [overlay, htake, getElem?_append, length_take,
    Nat.min_eq_left (Nat.le_trans (Nat.le_add_right _ _) h), getElem?_append]
  split
  · next hi => rw [if_neg (by omega), getElem?_take_of_lt hi]
  · split
    · rw [if_pos (by omega)]
    · rw [if_neg (by omega), getElem?_drop]
      congr 1
      omega

def written (lits : List Literal) (base : Bytes) : Bytes :=
  lits.foldl (fun base lit => overlay lit.offset.toNat lit.bytes base) base

theorem length_written (h : ∀ lit ∈ lits, lit.offset.toNat + lit.length ≤ base.length) :
    (written lits base).length = base.length := by
  induction lits generalizing base with
  | nil => rfl
  | cons _ _ ih =>
    obtain ⟨hlit, hlits⟩ := forall_mem_cons.mp h
    rw [← length_overlay hlit] at hlits ⊢
    exact ih hlits

/-- What no literal covers is as it was. -/
theorem written_outside (h : ∀ lit ∈ lits, lit.offset.toNat + lit.length ≤ base.length)
    (hout : ∀ lit ∈ lits, i < lit.offset.toNat ∨ lit.offset.toNat + lit.length ≤ i) :
    (written lits base)[i]? = base[i]? := by
  induction lits generalizing base with
  | nil => rfl
  | cons lit lits ih =>
    obtain ⟨hlit, hlits⟩ := forall_mem_cons.mp h
    obtain ⟨hfirst, hrest⟩ := forall_mem_cons.mp hout
    rw [← length_overlay hlit] at hlits
    calc (written lits (overlay lit.offset.toNat lit.bytes base))[i]?
      _ = (overlay lit.offset.toNat lit.bytes base)[i]? := ih hlits hrest
      _ = base[i]? := by
        rw [getElem?_overlay hlit, if_neg]
        exact fun hin => hfirst.elim (Nat.not_lt.mpr hin.1) (Nat.not_le.mpr hin.2)

/-- Literals that lie apart are all there once they are written. -/
theorem written_within (h : ∀ lit ∈ lits, lit.offset.toNat + lit.length ≤ base.length)
    (hapart : lits.Pairwise fun a b => a.offset.toNat + a.length ≤ b.offset.toNat) (hlit : lit ∈ lits)
    (hi : i < lit.length) : (written lits base)[lit.offset.toNat + i]? = lit.bytes[i]? := by
  induction lits generalizing base with
  | nil => exact absurd hlit not_mem_nil
  | cons first lits ih =>
    obtain ⟨hfirst, hlits⟩ := forall_mem_cons.mp h
    obtain ⟨hlater, hapart⟩ := pairwise_cons.mp hapart
    rw [← length_overlay hfirst] at hlits
    -- Later literals lie behind the first one and do not touch it.
    rcases mem_cons.mp hlit with rfl | hlit
    · calc (written lits (overlay lit.offset.toNat lit.bytes base))[lit.offset.toNat + i]?
        _ = (overlay lit.offset.toNat lit.bytes base)[lit.offset.toNat + i]? :=
          written_outside hlits fun later h => .inl (by have := hlater later h; omega)
        _ = lit.bytes[i]? := by
          rw [getElem?_overlay hfirst, Nat.add_sub_cancel_left]
          exact if_pos ⟨Nat.le_add_right _ _, Nat.add_lt_add_left hi _⟩
    · exact ih hlits hapart hlit

theorem take_drop_eq {n : Nat} (hlength : bytes.length = n)
    (h : ∀ i < n, base[offset + i]? = bytes[i]?) : (base.drop offset).take n = bytes := by
  refine ext_getElem? fun i => ?_
  rw [getElem?_take]
  split
  · next hi => rw [getElem?_drop, h i hi]
  · next hi => exact (getElem?_eq_none (hlength ▸ Nat.le_of_not_lt hi)).symm

end Contents

end DataSegment

namespace Event

variable {span : Span} {event : Event} {events : List Event}

/-- The literal that an operation added. -/
def literal? : Event → Option Literal
  | ⟨.addLiteral _, .ok (.literal lit)⟩ => some lit
  | _ => none

def space? : Event → Option Span
  | ⟨.reserveData size _, .ok (.count offset)⟩ => some ⟨offset, size.toInt.toNat⟩
  | _ => none

/-- The bytes that an operation allotted. -/
def allotted? (event : Event) : Option Span :=
  (event.literal?.map fun lit => ⟨lit.offset, lit.length⟩).or event.space?

/-- Literals and space are always allotted, and space is aligned. -/
def Answered : Event → Prop
  | ⟨.addLiteral raw, answer⟩ => ∃ lit, answer = .ok (.literal lit) ∧ lit.bytes = decodeEscapes raw
  | ⟨.reserveData _ align, answer⟩ =>
    ∃ offset, answer = .ok (.count offset) ∧ (1 < align.toInt → align.toInt ∣ offset)
  | _ => True

theorem allotted?_of_literal? (h : event.literal? = some lit) :
    event.allotted? = some ⟨lit.offset, lit.length⟩ := by
  rw [allotted?, h, Option.map_some, Option.some_or]

theorem literal?_of_space? (h : event.space? = some span) : event.literal? = none := by
  revert h
  fun_cases space? event with
  | case1 => exact fun _ => rfl
  | case2 => exact fun h => absurd h (by simp)

theorem allotted?_of_space? (h : event.space? = some span) : event.allotted? = some span := by
  rw [allotted?, literal?_of_space? h, Option.map_none, Option.none_or, h]

theorem literal_mem_allotted (h : lit ∈ events.filterMap literal?) :
    ⟨lit.offset, lit.length⟩ ∈ events.filterMap allotted? := by
  rcases mem_filterMap.mp h with ⟨event, hevent, hliteral⟩
  exact mem_filterMap.mpr ⟨event, hevent, allotted?_of_literal? hliteral⟩

theorem space_mem_allotted (h : span ∈ events.filterMap space?) :
    span ∈ events.filterMap allotted? := by
  rcases mem_filterMap.mp h with ⟨event, hevent, hspace⟩
  exact mem_filterMap.mpr ⟨event, hevent, allotted?_of_space? hspace⟩

section Apart

variable (hapart : (events.filterMap allotted?).Pairwise fun a b : Span => a.first + a.count ≤ b.first)

include hapart

theorem literals_apart :
    (events.filterMap literal?).Pairwise fun a b : Literal => a.offset + a.length ≤ b.offset := by
  rw [pairwise_filterMap] at hapart ⊢
  refine hapart.imp ?_
  intro first second h lit hlit later hlater
  exact h _ (allotted?_of_literal? hlit) _ (allotted?_of_literal? hlater)

theorem space_apart (hspan : span ∈ events.filterMap space?)
    (hlit : lit ∈ events.filterMap literal?) :
    lit.offset + lit.length ≤ span.first ∨ span.first + span.count ≤ lit.offset := by
  -- Two events may come in either order, so the order is taken out of the relation first.
  let Apart (a b : Event) : Prop := ∀ s, a.allotted? = some s → ∀ t, b.allotted? = some t →
    s.first + s.count ≤ t.first ∨ t.first + t.count ≤ s.first
  have : Std.Symm Apart := ⟨fun a b h s hs t ht => (h t ht s hs).symm⟩
  rcases mem_filterMap.mp hspan with ⟨reserved, hreserved, hspace⟩
  rcases mem_filterMap.mp hlit with ⟨added, hadded, hliteral⟩
  have hne : added ≠ reserved := by
    rintro rfl
    exact Option.some_ne_none _ (hliteral.symm.trans (literal?_of_space? hspace))
  have h : events.Pairwise Apart :=
    (pairwise_filterMap.mp hapart).imp fun h s hs t ht => .inl (h s hs t ht)
  exact h.forall hadded hreserved hne _ (allotted?_of_literal? hliteral) _
    (allotted?_of_space? hspace)

end Apart

end Event

namespace Operation

/-- How far a segment that reaches so far reaches after an operation. -/
def reach (size : Nat) : Operation → Nat
  | .addLiteral raw => size + (decodeEscapes raw).length
  | .reserveData bytes align => DataSegment.roundUp size align.toInt.toNat + bytes.toInt.toNat
  | _ => size

/-- Space is asked for in sizes that are not negative. -/
def Sized : Operation → Prop
  | .reserveData size _ => 0 ≤ size.toInt
  | _ => True

theorem le_reach (size : Nat) (op : Operation) : size ≤ op.reach size := by
  cases op with
  | addLiteral => exact Nat.le_add_right _ _
  | reserveData => exact Nat.le_trans (DataSegment.le_roundUp _ _) (Nat.le_add_right _ _)
  | _ => exact Nat.le_refl _

theorem le_foldl_reach (size : Nat) (ops : List Operation) : size ≤ ops.foldl reach size := by
  induction ops generalizing size with
  | nil => exact Nat.le_refl _
  | cons op _ ih => exact Nat.le_trans (le_reach size op) (ih _)

end Operation

/-- Within the limit, an operation allots what comes next in the segment, or nothing. -/
theorem allotted?_inPlace (op : Operation) {ctx : Context} {size : Nat} (hsize : ctx.data.size = size)
    (hsized : op.Sized) (hreach : op.reach size < 0x8000000000000000) :
    (op.inPlace ctx).2.data.literals =
        ctx.data.literals ++ (Event.mk op (op.inPlace ctx).1).literal?.toList ∧
      (op.inPlace ctx).2.data.size = op.reach size ∧
      Laid (· ≤ ·) size (Event.mk op (op.inPlace ctx).1).allotted?.toList (op.reach size) ∧
      (Event.mk op (op.inPlace ctx).1).Answered := by
  cases op with
  | addLiteral raw =>
    have hend : Integer.narrow (ctx.data.size + (decodeEscapes raw).length) =
        (size + (decodeEscapes raw).length : Nat) := by
      rw [hsize, ← Int.natCast_add]
      exact Integer.narrow_of_fits (by omega) (Int.ofNat_lt.mpr hreach)
    exact ⟨rfl, hend, ⟨Int.le_of_eq hsize.symm, by rw [hsize]; rfl⟩, _, rfl, rfl⟩
  | reserveData bytes align =>
    have hbytes : (bytes.toInt.toNat : Int) = bytes.toInt := Int.toNat_of_nonneg hsized
    have hstart : DataSegment.alignUp ctx.data.size align.toInt =
        DataSegment.roundUp size align.toInt.toNat := by
      rw [hsize]
      exact DataSegment.alignUp_eq (Nat.lt_of_le_of_lt (Nat.le_add_right _ _) hreach)
    have hend : Integer.narrow (DataSegment.alignUp ctx.data.size align.toInt + bytes.toInt) =
        (DataSegment.roundUp size align.toInt.toNat + bytes.toInt.toNat : Nat) := by
      rw [hstart, ← hbytes, ← Int.natCast_add]
      exact Integer.narrow_of_fits (by omega) (Int.ofNat_lt.mpr hreach)
    refine ⟨(append_nil _).symm, hend, ⟨?_, ?_⟩, _, rfl, fun halign => ?_⟩
    · change (size : Int) ≤ DataSegment.alignUp ctx.data.size align.toInt
      rw [hstart]
      exact Int.ofNat_le.mpr (DataSegment.le_roundUp _ _)
    · change DataSegment.alignUp ctx.data.size align.toInt + bytes.toInt.toNat = _
      rw [hstart]
      rfl
    · rw [hstart, ← Int.toNat_of_nonneg (show 0 ≤ align.toInt by omega)]
      exact Int.ofNat_dvd.mpr (DataSegment.dvd_roundUp _ (by omega))
  | bindLocal =>
    rw [Operation.inPlace_bindLocal]
    split
    · rcases ctx with ⟨_, _, _, _, _ | ⟨_, _⟩, _, _, _⟩ <;>
        exact ⟨(append_nil _).symm, hsize, rfl, trivial⟩
    · exact ⟨(append_nil _).symm, hsize, rfl, trivial⟩
  | claimHelper =>
    rw [Operation.inPlace_claimHelper]
    split <;> exact ⟨(append_nil _).symm, hsize, rfl, trivial⟩
  -- The others leave the segment as it is.
  | _ =>
    rcases ctx with ⟨_, _, _, _, _ | ⟨_, _⟩, _, _ | _, _⟩ <;>
      exact ⟨(append_nil _).symm, hsize, rfl, trivial⟩

/-- A session allots one span after the other. -/
theorem layout_session (ops : List Operation) {ctx : Context} {size : Nat}
    (hsize : ctx.data.size = size) (hsized : ∀ op ∈ ops, op.Sized)
    (hreach : ops.foldl Operation.reach size < 0x8000000000000000) :
    (session ops ctx).2.data.literals =
        ctx.data.literals ++ (session ops ctx).1.filterMap Event.literal? ∧
      (session ops ctx).2.data.size = ops.foldl Operation.reach size ∧
      Laid (· ≤ ·) size ((session ops ctx).1.filterMap Event.allotted?)
        (ops.foldl Operation.reach size : Nat) ∧
      ∀ event ∈ (session ops ctx).1, event.Answered := by
  induction ops generalizing ctx size with
  | nil => exact ⟨(append_nil _).symm, hsize, rfl, forall_mem_nil _⟩
  | cons op ops ih =>
    obtain ⟨hop, hops⟩ := forall_mem_cons.mp hsized
    -- What is reached now is reached in the end.
    have hnow := Nat.lt_of_le_of_lt (Operation.le_foldl_reach (op.reach size) ops) hreach
    obtain ⟨hlits, hsize, hlaid, hanswered⟩ := allotted?_inPlace op hsize hop hnow
    obtain ⟨hlits', hsize', hlaid', hanswered'⟩ := ih hsize hops hreach
    rw [filterMap_session, filterMap_session]
    refine ⟨?_, hsize', hlaid.append hlaid', forall_mem_cons.mpr ⟨hanswered, hanswered'⟩⟩
    rw [← append_assoc, ← hlits]
    exact hlits'

theorem Wasm.isLeast_pagesFor {size : Nat} (h : size + 0xFFFF < 0x8000000000000000) :
    ∃ pages : Nat, pagesFor size = pages ∧ IsLeast {n | 1 ≤ n ∧ size ≤ n * pageSize} pages := by
  have hsum : Integer.narrow (size + pageSize - 1) = (size + 0xFFFF : Nat) := by
    rw [Integer.narrow_of_fits (by unfold pageSize; omega) (by unfold pageSize; omega)]
    unfold pageSize
    omega
  refine ⟨max 1 ((size + 0xFFFF) / pageSize), ?_, ⟨Nat.le_max_left _ _, ?_⟩, fun n hn =>
    Nat.max_le.mpr ⟨hn.1, ?_⟩⟩
  · rw [pagesFor, hsum, ← Int.ofNat_tdiv]
    unfold pageSize
    split
    · omega
    · omega
  · unfold pageSize
    omega
  · have := hn.2
    unfold pageSize at this ⊢
    omega

/-- The layout of the data segment, whatever is asked of a new context, as long as the sizes that
    are asked for are not negative and add up in 64 bits. What is allotted for literals and space
    is disjoint and within the segment, space is aligned, and the contents, as long as the segment,
    hold each literal in its place and zeros everywhere else. The memory of the module has the
    least number of pages that holds them, but at least one. -/
theorem segment_layout (target : Bytes) (ops : List Operation) (out : Wasm.Output)
    (hsized : ∀ op ∈ ops, op.Sized)
    (hreach : ops.foldl Operation.reach 0 < 0x8000000000000000) :
    let events := (session ops { target }).1
    let data := (session ops { target }).2.data
    let allotted := events.filterMap Event.allotted?
    let size := ops.foldl Operation.reach 0
    data.size = size ∧ (∀ event ∈ events, event.Answered) ∧
    (allotted.Pairwise fun a b : Span => a.first + a.count ≤ b.first) ∧
    (∀ span ∈ allotted, 0 ≤ span.first ∧ span.first + span.count ≤ size) ∧
    data.contents.length = size ∧
    (∀ lit ∈ events.filterMap Event.literal?,
      (data.contents.drop lit.offset.toNat).take lit.length = lit.bytes) ∧
    (∀ span ∈ events.filterMap Event.space?,
      (data.contents.drop span.first.toNat).take span.count = replicate span.count 0) ∧
    (∀ i < size, (∀ span ∈ allotted, i < span.first ∨ span.first + span.count ≤ i) →
      data.contents[i]? = some 0) ∧
    (size + 0xFFFF < 0x8000000000000000 →
      ∃ pages, IsLeast {n | 1 ≤ n ∧ size ≤ n * Wasm.pageSize} pages ∧
        ⟨1, "(memory (export \"memory\") " ++ Bytes.ofNat pages ++ ")"⟩ ∈
          (Wasm.assemble out data).lines) := by
  intro events data allotted size
  obtain ⟨hlits, hsize, hlaid, hanswered⟩ := @layout_session ops { target } 0 rfl hsized hreach
  obtain ⟨hwithin, hapart⟩ := hlaid.pairwise id
  replace hlits : data.literals = events.filterMap Event.literal? := hlits
  replace hsize : data.size = size := hsize
  replace hwithin : ∀ span ∈ allotted, 0 ≤ span.first ∧ span.first + span.count ≤ size := hwithin
  have hplace (lit : Literal) (hlit : lit ∈ data.literals) :
      0 ≤ lit.offset ∧ lit.offset + lit.length ≤ size :=
    hwithin _ (Event.literal_mem_allotted (hlits ▸ hlit))
  have hzeros : replicate data.size.toNat (0 : UInt8) = replicate size 0 := by
    rw [hsize, Int.toNat_natCast]
  have hroom : ∀ lit ∈ data.literals,
      lit.offset.toNat + lit.length ≤ (replicate size (0 : UInt8)).length := by
    intro lit hlit
    have := hplace lit hlit
    rw [length_replicate]
    omega
  have hcontents : data.contents = DataSegment.written data.literals (replicate size 0) := by
    rw [DataSegment.contents, hzeros]
    rfl
  -- The contents are zeros at first, and only literals are written over them.
  have hzero : ∀ i < size,
      (∀ lit ∈ data.literals, i < lit.offset.toNat ∨ lit.offset.toNat + lit.length ≤ i) →
      data.contents[i]? = some 0 := fun i hi h => by
    rw [hcontents, DataSegment.written_outside hroom h, getElem?_replicate_of_lt hi]
  refine ⟨hsize, hanswered, hapart, hwithin, ?_, fun lit hlit => ?_, fun span hspan => ?_,
    fun i hi h => ?_, fun hpages => ?_⟩
  · rw [hcontents]
    exact (DataSegment.length_written hroom).trans length_replicate
  · refine DataSegment.take_drop_eq rfl fun i hi => ?_
    rw [hcontents]
    rw [← hlits] at hlit
    refine DataSegment.written_within hroom ?_ hlit hi
    have hafter := Event.literals_apart hapart
    rw [← hlits] at hafter
    refine hafter.imp_of_mem fun ha _ h => ?_
    have := hplace _ ha
    omega
  · refine DataSegment.take_drop_eq length_replicate fun i hi => ?_
    obtain ⟨hfirst, hend⟩ := hwithin _ (Event.space_mem_allotted hspan)
    rw [getElem?_replicate_of_lt hi]
    refine hzero _ (by omega) fun lit hlit => ?_
    have := Event.space_apart hapart hspan (hlits ▸ hlit)
    have := hplace lit hlit
    omega
  · refine hzero i hi fun lit hlit => ?_
    have hout : i < lit.offset ∨ lit.offset + lit.length ≤ i :=
      h _ (Event.literal_mem_allotted (hlits ▸ hlit))
    have := hplace lit hlit
    omega
  · rcases Wasm.isLeast_pagesFor hpages with ⟨pages, hpages, hleast⟩
    refine ⟨pages, hleast, ?_⟩
    -- The memory is the last line of the preamble.
    have hline : ⟨1, "(memory (export \"memory\") " ++ Bytes.ofInt (Wasm.pagesFor data.size) ++ ")"⟩ ∈
        (Wasm.assemble out data).lines :=
      mem_append_left _ (mem_append_left _ (mem_append_left _ (mem_append_left _
        (.tail _ (.tail _ (.tail _ (.head _)))))))
    rw [hsize, hpages] at hline
    exact hline

namespace Sample

/-- Literals and aligned space, with a function begun in between. -/
def allotting : List Operation :=
  [.addLiteral "abc", .beginFunction "f" .void, .reserveData 16 8, .reserveData 0 3,
    .addLiteral "\\n"]

end Sample

theorem segment_layout_allotting :
    let data := (session Sample.allotting { target := "wasm" }).2.data
    data.size = 25 ∧ data.contents.length = 25 ∧ (data.contents.drop 24).take 1 = "\n" ∧
      ∃ pages, IsLeast {n | 1 ≤ n ∧ 25 ≤ n * Wasm.pageSize} pages := by
  have hsized : ∀ op ∈ Sample.allotting, op.Sized := by
    simp [Sample.allotting, Operation.Sized]
  have hreach : Sample.allotting.foldl Operation.reach 0 = 25 := rfl
  have hlayout := segment_layout "wasm" Sample.allotting {} hsized (by rw [hreach]; decide)
  rw [hreach] at hlayout
  obtain ⟨hsize, -, -, -, hlength, hliterals, -, -, hmemory⟩ := hlayout
  rcases hmemory (by decide) with ⟨pages, hpages, -⟩
  exact ⟨hsize, hlength, hliterals ⟨1, 24, "\n"⟩ (.tail _ (.head _)), pages, hpages⟩

/-- Twice `2 ^ 62` bytes are more than 64 bits hold, and the size of the segment is negative. -/
theorem segment_running_over :
    (session [.reserveData 0x4000000000000000 1, .reserveData 0x4000000000000000 1]
      { target := "wasm" }).2.data.size = -0x8000000000000000 := rfl

end Codegen
