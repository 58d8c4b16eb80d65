import Codegen.Sexpr.Token
import Mathlib.Tactic.SplitIfs

/-!
# Glyphs of Texts That Are Put Together

The scanner sees a text as glyphs, and the printer puts texts together byte by byte. This
module says when the two agree. Bytes go into one glyph only if all but the first of them
are continuation bytes, so the cut at a byte that is none is always a cut between glyphs
(`firstGlyph_eq_takeWhile`). A glyph that is no replacement character is a complete sequence,
and whatever follows it is cut on its own (`glyphs_append`).
-/

namespace Codegen.Utf8

open List

variable {b : UInt8} {text : Bytes} {g : Glyph}

theorem isTail_of_second3 {c : UInt8} (h : second3 b c = true) : isTail c = true := by
  unfold second3 at h
  split_ifs at h <;> simp only [isTail, within, Bool.and_eq_true, decide_eq_true_eq] at * <;> omega

theorem isTail_of_second4 {c : UInt8} (h : second4 b c = true) : isTail c = true := by
  unfold second4 at h
  split_ifs at h <;> simp only [isTail, within, Bool.and_eq_true, decide_eq_true_eq] at * <;> omega

/-- The bytes of a character, one to four of them. -/
inductive Spells : Bytes → Nat → Prop where
  | one {b code} (h : b.toNat < 0x80) (hcode : code = b.toNat) : Spells [b] code
  | two {b0 b1 code} (h0 : within 0xC2 0xDF b0 = true) (h1 : isTail b1 = true)
      (hcode : code = b0.toNat % 32 * 64 + payload b1) : Spells [b0, b1] code
  | three {b0 b1 b2 code} (h0 : within 0xE0 0xEF b0 = true) (h1 : second3 b0 b1 = true)
      (h2 : isTail b2 = true)
      (hcode : code = (b0.toNat % 16 * 64 + payload b1) * 64 + payload b2) :
      Spells [b0, b1, b2] code
  | four {b0 b1 b2 b3 code} (h0 : within 0xF0 0xF4 b0 = true) (h1 : second4 b0 b1 = true)
      (h2 : isTail b2 = true) (h3 : isTail b3 = true)
      (hcode : code = ((b0.toNat % 8 * 64 + payload b1) * 64 + payload b2) * 64 + payload b3) :
      Spells [b0, b1, b2, b3] code

theorem Spells.bounds {bytes : Bytes} {code : Nat} (h : Spells bytes code) :
    bytes.length = 1 ∧ code < 0x80 ∨ bytes.length = 2 ∧ 0x80 ≤ code ∧ code < 0x800 ∨
      bytes.length = 3 ∧ 0x800 ≤ code ∧ code < 0x10000 ∨
      bytes.length = 4 ∧ 0x10000 ≤ code ∧ code < 0x200000 := by
  cases h with
  | one => exact Or.inl ⟨rfl, by omega⟩
  | two =>
    simp only [within, Bool.and_eq_true, decide_eq_true_eq, payload] at *
    exact Or.inr (Or.inl ⟨rfl, by omega⟩)
  | three _ h1 =>
    -- After the lowest leading byte, the second byte is not among the lowest.
    refine Or.inr (Or.inr (Or.inl ⟨rfl, ?_⟩))
    unfold second3 at h1
    split_ifs at h1 <;>
      simp only [within, Bool.and_eq_true, decide_eq_true_eq, payload] at * <;> omega
  | four _ h1 =>
    refine Or.inr (Or.inr (Or.inr ⟨rfl, ?_⟩))
    unfold second4 at h1
    split_ifs at h1 <;>
      simp only [within, Bool.and_eq_true, decide_eq_true_eq, payload] at * <;> omega

/-- A byte sequence that spells a code point has a leading byte and continuation bytes, which
    decide the code point whatever comes after them. -/
theorem spells_of_sequence {rest : Bytes} {code width : Nat}
    (h : sequence? (b :: rest) = some (code, width)) :
    ∃ tails more, rest = tails ++ more ∧ width = tails.length + 1 ∧ Spells (b :: tails) code ∧
      (∀ t ∈ tails, isTail t = true) ∧
      ∀ other, sequence? (b :: (tails ++ other)) = some (code, width) := by
  unfold sequence? at h
  dsimp only at h
  repeat' split at h
  all_goals cases h
  · next hone => exact ⟨[], rest, rfl, rfl, .one hone rfl, nofun, fun _ => by simp [sequence?, hone]⟩
  · next hone htwo _ b1 more htail =>
    exact ⟨[b1], more, rfl, rfl, .two htwo htail rfl, by simpa using htail,
      fun _ => by simp [sequence?, hone, htwo, htail]⟩
  · next hone htwo hthree _ b1 b2 more htails =>
    obtain ⟨hsecond, hlast⟩ := Bool.and_eq_true_iff.mp htails
    exact ⟨[b1, b2], more, rfl, rfl, .three hthree hsecond hlast rfl,
      by simpa using ⟨isTail_of_second3 hsecond, hlast⟩,
      fun _ => by simp [sequence?, hone, htwo, hthree, hsecond, hlast]⟩
  · next hone htwo hthree hfour _ b1 b2 b3 more htails =>
    obtain ⟨htails, hlast⟩ := Bool.and_eq_true_iff.mp htails
    obtain ⟨hsecond, hthird⟩ := Bool.and_eq_true_iff.mp htails
    exact ⟨[b1, b2, b3], more, rfl, rfl, .four hfour hsecond hthird hlast rfl,
      by simpa using ⟨isTail_of_second4 hsecond, hthird, hlast⟩,
      fun _ => by simp [sequence?, hone, htwo, hthree, hfour, hsecond, hthird, hlast]⟩

theorem firstGlyph_ascii (hb : b.toNat < 0x80) (rest : Bytes) :
    firstGlyph b rest = ⟨b.toNat, [b]⟩ := by
  simp [firstGlyph, sequence?, hb]

/-- The first glyph beyond ASCII: its code is beyond ASCII too, and the bytes after the
    first are continuation bytes. -/
theorem firstGlyph_cases (hb : 0x80 ≤ b.toNat) (rest : Bytes) :
    ∃ tails more, rest = tails ++ more ∧ (∀ t ∈ tails, isTail t = true) ∧
      0x80 ≤ (firstGlyph b rest).code ∧ (firstGlyph b rest).bytes = b :: tails ∧
      ((firstGlyph b rest).code ≠ replacement →
        ∀ other, firstGlyph b (tails ++ other) = firstGlyph b rest) := by
  cases hseq : sequence? (b :: rest) with
  | none =>
    have hglyph : firstGlyph b rest = ⟨replacement, [b]⟩ := by simp [firstGlyph, hseq]
    refine ⟨[], rest, rfl, nofun, ?_, ?_, ?_⟩
    · have hlarge : 0x80 ≤ replacement := by decide
      rw [hglyph]
      exact hlarge
    · rw [hglyph]
    · intro hcode
      rw [hglyph] at hcode
      exact absurd rfl hcode
  | some cw =>
    rcases cw with ⟨code, width⟩
    rcases spells_of_sequence hseq with ⟨tails, more, rfl, rfl, hspells, htails, hany⟩
    have hcode : 0x80 ≤ code := by
      have hbounds := hspells.bounds
      cases hspells with
      | one => omega
      | _ => simp at hbounds; omega
    have hglyph (other : Bytes) : firstGlyph b (tails ++ other) = ⟨code, b :: tails⟩ := by
      simp [firstGlyph, hany other]
    refine ⟨tails, more, rfl, htails, ?_, ?_, ?_⟩
    · rw [hglyph more]
      exact hcode
    · rw [hglyph more]
    · intro _ other
      rw [hglyph, hglyph]

/-- The first glyph depends on the continuation bytes after the first byte, and on nothing
    behind them. -/
theorem firstGlyph_eq_takeWhile (b : UInt8) (rest : Bytes) :
    firstGlyph b rest = firstGlyph b (rest.takeWhile isTail) := by
  cases hseq : sequence? (b :: rest) with
  | some cw =>
    rcases spells_of_sequence hseq with ⟨tails, more, rfl, hwidth, -, htails, hany⟩
    rw [takeWhile_append_of_pos htails]
    simp [firstGlyph, hany, hwidth]
  | none =>
    -- A sequence among the continuation bytes would be one of the whole text.
    have hnone : sequence? (b :: rest.takeWhile isTail) = none := by
      cases hshort : sequence? (b :: rest.takeWhile isTail) with
      | none => rfl
      | some cw =>
        rcases spells_of_sequence hshort with ⟨tails, more, hsplit, -, -, -, hany⟩
        have hlong := hany (more ++ rest.dropWhile isTail)
        rw [← append_assoc, ← hsplit, takeWhile_append_dropWhile, hseq] at hlong
        cases hlong
    simp [firstGlyph, hseq, hnone]

@[simp] theorem glyphs_nil : glyphs [] = [] := rfl

/-- The glyphs of a text after its first glyph. -/
theorem glyphs_cons (b : UInt8) (rest : Bytes) :
    glyphs (b :: rest) =
      firstGlyph b rest :: glyphs (rest.drop ((firstGlyph b rest).bytes.length - 1)) := by
  unfold glyphs
  rw [cut, cut_eq_cut_drop]

theorem glyphs_ascii (hb : b.toNat < 0x80) (rest : Bytes) :
    glyphs (b :: rest) = ⟨b.toNat, [b]⟩ :: glyphs rest := by
  rw [glyphs_cons, firstGlyph_ascii hb]
  rfl

theorem glyphs_of_bytes {tails more : Bytes}
    (hbytes : (firstGlyph b (tails ++ more)).bytes = b :: tails) :
    glyphs (b :: (tails ++ more)) = firstGlyph b (tails ++ more) :: glyphs more := by
  rw [glyphs_cons, hbytes]
  simp

theorem glyphs_induction {motive : Bytes → Prop} (nil : motive [])
    (ascii : ∀ b rest, b.toNat < 0x80 → motive rest → motive (b :: rest))
    (longer : ∀ b tails more, 0x80 ≤ b.toNat → (∀ t ∈ tails, isTail t = true) →
      0x80 ≤ (firstGlyph b (tails ++ more)).code →
      (firstGlyph b (tails ++ more)).bytes = b :: tails →
      ((firstGlyph b (tails ++ more)).code ≠ replacement →
        ∀ other, firstGlyph b (tails ++ other) = firstGlyph b (tails ++ more)) →
      motive more → motive (b :: (tails ++ more)))
    (text : Bytes) : motive text := by
  induction hlength : text.length using Nat.strongRecOn generalizing text with
  | ind n ih =>
    cases text with
    | nil => exact nil
    | cons b rest =>
      rw [length_cons] at hlength
      by_cases hb : b.toNat < 0x80
      · exact ascii b rest hb (ih rest.length (by omega) rest rfl)
      · rcases firstGlyph_cases (b := b) (by omega) rest with
          ⟨tails, more, rfl, htails, hcode, hbytes, hany⟩
        rw [length_append] at hlength
        exact longer b tails more (by omega) htails hcode hbytes hany
          (ih more.length (by omega) more rfl)

/-- Glyphs of a text behind complete sequences. -/
theorem glyphs_append (hcomplete : ∀ g ∈ glyphs text, g.code ≠ replacement) (rest : Bytes) :
    glyphs (text ++ rest) = glyphs text ++ glyphs rest := by
  induction text using glyphs_induction with
  | nil => rfl
  | ascii _ _ hb ih =>
    rw [glyphs_ascii hb] at hcomplete
    rw [cons_append, glyphs_ascii hb, glyphs_ascii hb, cons_append,
      ih fun g hg => hcomplete g (mem_cons_of_mem _ hg)]
  | longer b tails more _ _ _ hbytes hany ih =>
    rw [glyphs_of_bytes hbytes] at hcomplete
    have hsame := hany (hcomplete _ mem_cons_self) (more ++ rest)
    have hbytes' : (firstGlyph b (tails ++ (more ++ rest))).bytes = b :: tails := by
      rw [hsame, hbytes]
    rw [cons_append, append_assoc, glyphs_of_bytes hbytes', glyphs_of_bytes hbytes,
      cons_append, hsame, ih fun g hg => hcomplete g (mem_cons_of_mem _ hg)]

theorem exists_firstGlyph {skip : Nat} (hg : g ∈ cut skip text) :
    ∃ b rest, g = firstGlyph b rest := by
  induction text generalizing skip with
  | nil => cases hg
  | cons b rest ih =>
    cases skip with
    | zero =>
      rcases mem_cons.mp hg with rfl | hg
      · exact ⟨b, rest, rfl⟩
      · exact ih hg
    | succ => exact ih hg

theorem bytes_of_ascii (hg : g ∈ glyphs text) (hcode : g.code < 0x80) :
    ∃ b : UInt8, g.bytes = [b] ∧ b.toNat = g.code := by
  rcases exists_firstGlyph hg with ⟨b, rest, rfl⟩
  by_cases hb : b.toNat < 0x80
  · rw [firstGlyph_ascii hb]
    exact ⟨b, rfl, rfl⟩
  · rcases firstGlyph_cases (Nat.not_lt.mp hb) rest with ⟨-, -, -, -, hlarge, -⟩
    omega

theorem zero_not_mem_bytes (hg : g ∈ glyphs text) (hcode : g.code ≠ 0) : 0 ∉ g.bytes := by
  rcases exists_firstGlyph hg with ⟨b, rest, rfl⟩
  intro hzero
  by_cases hb : b.toNat < 0x80
  · rw [firstGlyph_ascii hb] at hcode hzero
    rw [← mem_singleton.mp hzero] at hcode
    exact hcode rfl
  · rcases firstGlyph_cases (Nat.not_lt.mp hb) rest with ⟨tails, -, -, htails, -, hbytes, -⟩
    rw [hbytes] at hzero
    rcases mem_cons.mp hzero with rfl | hzero
    · exact absurd hb (by decide)
    · exact absurd (htails 0 hzero) (by decide)

theorem glyphs_bytes (hg : g ∈ glyphs text) (hcode : g.code ≠ replacement) :
    glyphs g.bytes = [g] := by
  rcases exists_firstGlyph hg with ⟨b, rest, rfl⟩
  by_cases hb : b.toNat < 0x80
  · rw [firstGlyph_ascii hb]
    exact glyphs_ascii hb []
  · rcases firstGlyph_cases (Nat.not_lt.mp hb) rest with ⟨tails, more, rfl, -, -, hbytes, hany⟩
    have halone := hany hcode []
    rw [append_nil] at halone
    rw [hbytes, glyphs_cons, halone, hbytes, length_cons, Nat.add_sub_cancel, drop_length]
    rfl

end Codegen.Utf8
