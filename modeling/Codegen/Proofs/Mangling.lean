import Codegen.Context.Symbol
import Codegen.Proofs.Sexpr.Glyphs
import Mathlib.Data.Nat.Digits.Defs

/-!
# Names and Their Mangled Forms

A name of the source may hold any character, and a symbol of the output may not. A letter or a
digit stays as it is, and everything else is spelled out behind an underscore, with as many
digits as the letter after the underscore says. So a mangled text can be read from the front
in one way only: different names have different mangled forms, and no mangled form is that of
another name with something behind it that is not mangled.

Names that are not UTF-8 are another matter. All their stray bytes read as the replacement
character, and the mangled form does not tell them apart.

## Theorems

* `mangle_separates`: All of this, and how mangled forms are spelled.
-/

namespace Codegen

open List

variable {width : Nat}

namespace Bytes

variable {n : Nat}

def upperDigit (d : Nat) : UInt8 := d.digitChar.toUpper.toNat.toUInt8

theorem upperDigit_inj {d e : Nat} (hd : d < 16) (he : e < 16)
    (h : upperDigit d = upperDigit e) : d = e := by
  have hall : ∀ d : Fin 16, ∀ e : Fin 16, upperDigit d = upperDigit e → d = e := by decide
  exact congrArg Fin.val (hall ⟨d, hd⟩ ⟨e, he⟩ h)

theorem hexUpper_one (hn : n < 16) : hexUpper 1 n = [upperDigit n] := by
  unfold hexUpper
  rw [Nat.toDigits_of_lt_base hn]
  rfl

theorem hexUpper_succ (hwidth : 0 < width) (n : Nat) :
    hexUpper (width + 1) n = hexUpper width (n / 16) ++ [upperDigit (n % 16)] := by
  have hlast (cs : List Char) (d : Nat) :
      ofChars ((cs ++ [d.digitChar]).map Char.toUpper) =
        ofChars (cs.map Char.toUpper) ++ [upperDigit d] := by
    simp [ofChars, upperDigit]
  unfold hexUpper padLeft
  by_cases hn : n < 16
  · rw [Nat.toDigits_of_lt_base hn, Nat.div_eq_of_lt hn, Nat.mod_eq_of_lt hn,
      Nat.toDigits_of_lt_base (by omega)]
    have hzero : ofChars ([Nat.digitChar 0].map Char.toUpper) = [zeroDigit] := by decide
    rw [hzero, ← replicate_succ', length_singleton, Nat.sub_add_cancel hwidth]
    exact congrArg (replicate width zeroDigit ++ ·) (hlast [] n)
  · rw [Nat.toDigits_of_base_le (by omega) (by omega), hlast, length_append,
      length_singleton, Nat.add_sub_add_right, append_assoc]

theorem length_hexUpper (hwidth : 0 < width) (hn : n < 16 ^ width) :
    (hexUpper width n).length = width := by
  induction width, hwidth using Nat.le_induction generalizing n with
  | base =>
    rw [hexUpper_one hn]
    rfl
  | succ _ hwidth ih =>
    rw [hexUpper_succ hwidth, length_append, ih, length_singleton]
    exact Nat.div_lt_of_lt_mul (by omega)

/-- Numbers with the same digits, padded to a width, are the same. -/
theorem hexUpper_inj {m : Nat} (hwidth : 0 < width) (hn : n < 16 ^ width) (hm : m < 16 ^ width)
    (h : hexUpper width n = hexUpper width m) : n = m := by
  induction width, hwidth using Nat.le_induction generalizing n m with
  | base =>
    rw [hexUpper_one hn, hexUpper_one hm] at h
    exact upperDigit_inj hn hm (singleton_inj.mp h)
  | succ _ hwidth ih =>
    rw [hexUpper_succ hwidth, hexUpper_succ hwidth] at h
    obtain ⟨hrest, hlast⟩ := append_inj' h rfl
    have hhigh := ih (Nat.div_lt_of_lt_mul (by omega)) (Nat.div_lt_of_lt_mul (by omega)) hrest
    have hlow := upperDigit_inj (Nat.mod_lt _ (by omega)) (Nat.mod_lt _ (by omega))
      (singleton_inj.mp hlast)
    omega

end Bytes

variable {rest : Bytes} {b : UInt8}

namespace Utf8

variable {text : Bytes} {g : Glyph}

namespace Spells

variable {bytes bytes' : Bytes} {code : Nat}

/-- A character has one spelling. -/
theorem inj (h : Spells bytes code) (h' : Spells bytes' code) : bytes = bytes' := by
  have hlength : bytes'.length = bytes.length := by
    have hbounds := h.bounds
    have hbounds' := h'.bounds
    omega
  -- With the same number of bytes, the bits of the code are in the same places.
  cases h with
  | one _ hcode =>
    cases h' with
    | one _ hcode' => rw [UInt8.toNat_inj.mp (hcode.symm.trans hcode')]
    | two | three | four => cases hlength
  | two h0 h1 hcode =>
    cases h' with
    | two h0' h1' hcode' =>
      simp only [isTail, within, Bool.and_eq_true, decide_eq_true_eq, payload, cons.injEq,
        ← UInt8.toNat_inj, and_true] at *
      omega
    | one | three | four => cases hlength
  | three h0 h1 h2 hcode =>
    cases h' with
    | three h0' h1' h2' hcode' =>
      have h1 := isTail_of_second3 h1
      have h1' := isTail_of_second3 h1'
      simp only [isTail, within, Bool.and_eq_true, decide_eq_true_eq, payload, cons.injEq,
        ← UInt8.toNat_inj, and_true] at *
      omega
    | one | two | four => cases hlength
  | four h0 h1 h2 h3 hcode =>
    cases h' with
    | four h0' h1' h2' h3' hcode' =>
      have h1 := isTail_of_second4 h1
      have h1' := isTail_of_second4 h1'
      simp only [isTail, within, Bool.and_eq_true, decide_eq_true_eq, payload, cons.injEq,
        ← UInt8.toNat_inj, and_true] at *
      omega
    | one | two | three => cases hlength

end Spells

theorem spells_or_stray (hg : g ∈ glyphs text) :
    Spells g.bytes g.code ∨ g.code = replacement ∧ g.bytes.length = 1 := by
  rcases exists_firstGlyph hg with ⟨b, rest, rfl⟩
  unfold firstGlyph
  cases hseq : sequence? (b :: rest) with
  | none => exact Or.inr ⟨rfl, rfl⟩
  | some =>
    rcases spells_of_sequence hseq with ⟨tails, more, rfl, hwidth, hspells, -⟩
    refine Or.inl ?_
    simp only [hwidth, Nat.add_sub_cancel, take_left]
    exact hspells

theorem code_lt (hg : g ∈ glyphs text) : g.code < 16 ^ 8 := by
  rcases spells_or_stray hg with hspells | ⟨hcode, -⟩
  · have hbounds := hspells.bounds
    omega
  · rw [hcode]
    decide

theorem spells_of_valid (htext : valid text = true) (hg : g ∈ glyphs text) :
    Spells g.bytes g.code := by
  rcases spells_or_stray hg with hspells | ⟨hcode, hlength⟩
  · exact hspells
  · have hkept := all_eq_true.mp htext g hg
    simp [hcode, hlength] at hkept

theorem bytesOf_inj {gs gs' : List Glyph} (hgs : ∀ g ∈ gs, Spells g.bytes g.code)
    (hgs' : ∀ g ∈ gs', Spells g.bytes g.code) (h : gs.map Glyph.code = gs'.map Glyph.code) :
    bytesOf gs = bytesOf gs' := by
  induction gs generalizing gs' with
  | nil => rw [map_eq_nil_iff.mp h.symm]
  | cons g _ ih =>
    rcases gs' with _ | ⟨g', gs'⟩
    · cases h
    obtain ⟨hfirst, hrest⟩ := cons.inj h
    rw [forall_mem_cons] at hgs hgs'
    have hbytes : g.bytes = g'.bytes := by
      rw [hfirst] at hgs
      exact hgs.1.inj hgs'.1
    have hrest := ih hgs.2 hgs'.2 hrest
    unfold bytesOf at hrest ⊢
    rw [flatMap_cons, flatMap_cons, hbytes, hrest]

end Utf8

section Names

variable {tag : Bytes}

/-- Texts that begin differently. -/
def Apart (a b : Bytes) : Prop := ¬ a <+: b ∧ ¬ b <+: a

instance (a b : Bytes) : Decidable (Apart a b) := inferInstanceAs (Decidable (_ ∧ _))

theorem Apart.not_prefix {a b y : Bytes} (h : Apart a b) (hy : b <+: y) : ¬ a <+: y := fun ha =>
  prefix_or_prefix_of_prefix ha hy |>.elim h.1 h.2

theorem Apart.append_ne {a b : Bytes} (h : Apart a b) (x y : Bytes) : a ++ x ≠ b ++ y := fun heq =>
  h.not_prefix (prefix_append b y) (heq ▸ prefix_append a x)

def underscore : UInt8 := '_'.toNat.toUInt8

theorem mangleCode_cases (code : Nat) :
    code = '_'.toNat ∧ mangleCode code = [underscore, underscore] ∨
      code < 128 ∧ code.toUInt8 ≠ underscore ∧ mangleCode code = [code.toUInt8] ∨
      code < 16 ^ 4 ∧
        mangleCode code = underscore :: 'u'.toNat.toUInt8 :: Bytes.hexUpper 4 code ∨
      16 ^ 4 ≤ code ∧
        mangleCode code = underscore :: 'U'.toNat.toUInt8 :: Bytes.hexUpper 8 code := by
  unfold mangleCode
  split
  · next hunderscore =>
    exact Or.inl ⟨hunderscore, rfl⟩
  split
  · next hkept =>
    have hascii : code < 128 := by
      simp [isAsciiAlphanumeric] at hkept
      omega
    refine Or.inr (Or.inl ⟨hascii, fun heq => ?_, rfl⟩)
    have hcode := congrArg UInt8.toNat heq
    rw [UInt8.toNat_ofNat'] at hcode
    have hvalue : underscore.toNat = 95 := rfl
    have hchar : '_'.toNat = 95 := rfl
    omega
  split
  · exact Or.inr (Or.inr (Or.inl ⟨by omega, rfl⟩))
  · exact Or.inr (Or.inr (Or.inr ⟨by omega, rfl⟩))

/-- Mangled characters are told apart from the front: the first byte says whether the character
    was kept, and the second how many digits there are. -/
theorem mangleCode_append_inj {a b : Nat} {s t : Bytes} (ha : a < 16 ^ 8) (hb : b < 16 ^ 8)
    (h : mangleCode a ++ s = mangleCode b ++ t) : a = b ∧ s = t := by
  rcases mangleCode_cases a with ⟨hcode, hform⟩ | ⟨hcode, hkept, hform⟩ | ⟨hcode, hform⟩ |
      ⟨hcode, hform⟩ <;>
    rcases mangleCode_cases b with ⟨hcode', hform'⟩ | ⟨hcode', hkept', hform'⟩ |
      ⟨hcode', hform'⟩ | ⟨hcode', hform'⟩ <;>
    rw [hform, hform'] at h <;>
    simp only [cons_append, cons.injEq] at h
  · exact ⟨hcode.trans hcode'.symm, h.2.2⟩
  · exact absurd h.1.symm hkept'
  · exact absurd h.2.1 (by decide)
  · exact absurd h.2.1 (by decide)
  · exact absurd h.1 hkept
  · have hbyte := congrArg UInt8.toNat h.1
    simp only [UInt8.toNat_ofNat'] at hbyte
    exact ⟨by omega, h.2⟩
  · exact absurd h.1 hkept
  · exact absurd h.1 hkept
  · exact absurd h.2.1 (by decide)
  · exact absurd h.1.symm hkept'
  · obtain ⟨hdigits, hrest⟩ := append_inj h.2.2
      ((Bytes.length_hexUpper (by omega) hcode).trans
        (Bytes.length_hexUpper (by omega) hcode').symm)
    exact ⟨Bytes.hexUpper_inj (by omega) hcode hcode' hdigits, hrest⟩
  · exact absurd h.2.1 (by decide)
  · exact absurd h.2.1 (by decide)
  · exact absurd h.1.symm hkept'
  · exact absurd h.2.1 (by decide)
  · obtain ⟨hdigits, hrest⟩ := append_inj h.2.2
      ((Bytes.length_hexUpper (by omega) ha).trans (Bytes.length_hexUpper (by omega) hb).symm)
    exact ⟨Bytes.hexUpper_inj (by omega) ha hb hdigits, hrest⟩

theorem mangleCode_ne_nil (code : Nat) : mangleCode code ≠ [] := by
  rcases mangleCode_cases code with ⟨-, hform⟩ | ⟨-, -, hform⟩ | ⟨-, hform⟩ | ⟨-, hform⟩ <;>
    rw [hform] <;> exact cons_ne_nil _ _

/-- What stands in front of a mangled text is mangled from the first of its characters. -/
theorem flatMap_mangleCode_append {as bs : List Nat} {t : Bytes} (has : ∀ a ∈ as, a < 16 ^ 8)
    (hbs : ∀ b ∈ bs, b < 16 ^ 8) (h : as.flatMap mangleCode = bs.flatMap mangleCode ++ t) :
    ∃ cs, as = bs ++ cs ∧ cs.flatMap mangleCode = t := by
  induction bs generalizing as with
  | nil => exact ⟨as, rfl, h⟩
  | cons b _ ih =>
    rw [forall_mem_cons] at hbs
    rw [flatMap_cons, append_assoc] at h
    rcases as with _ | ⟨a, as⟩
    · exact absurd (append_eq_nil_iff.mp h.symm).1 (mangleCode_ne_nil b)
    rw [forall_mem_cons] at has
    obtain ⟨rfl, hrest⟩ := mangleCode_append_inj has.1 hbs.1 h
    rcases ih has.2 hbs.2 hrest with ⟨cs, rfl, hcs⟩
    exact ⟨cs, rfl, hcs⟩

theorem mangle_eq (name : Bytes) :
    mangle name = ((Utf8.glyphs name).map Glyph.code).flatMap mangleCode := by
  unfold mangle
  rw [flatMap_map]

theorem codes_lt (name : Bytes) : ∀ code ∈ (Utf8.glyphs name).map Glyph.code, code < 16 ^ 8 := by
  intro code hcode
  rcases mem_map.mp hcode with ⟨g, hg, rfl⟩
  exact Utf8.code_lt hg

/-- Names of the same mangled form have the same characters. -/
theorem mangle_eq_iff {x y : Bytes} :
    mangle x = mangle y ↔ (Utf8.glyphs x).map Glyph.code = (Utf8.glyphs y).map Glyph.code := by
  rw [mangle_eq, mangle_eq]
  refine ⟨fun h => ?_, congrArg _⟩
  rw [← append_nil (flatMap _ ((Utf8.glyphs y).map _))] at h
  rcases flatMap_mangleCode_append (codes_lt x) (codes_lt y) h with ⟨cs, hcodes, hnone⟩
  have hcs : cs = [] := by
    cases cs with
    | nil => rfl
    | cons c => exact absurd (append_eq_nil_iff.mp hnone).1 (mangleCode_ne_nil c)
  rwa [hcs, append_nil] at hcodes

/-- Names that are UTF-8 are told apart by their mangled forms. -/
theorem mangle_inj {x y : Bytes} (hx : Utf8.valid x = true) (hy : Utf8.valid y = true)
    (h : mangle x = mangle y) : x = y := by
  have hbytes := Utf8.bytesOf_inj (fun g => Utf8.spells_of_valid hx)
    (fun g => Utf8.spells_of_valid hy) (mangle_eq_iff.mp h)
  rwa [Utf8.bytes_glyphs, Utf8.bytes_glyphs] at hbytes

/-- What no mangled form continues with. -/
theorem mangle_ne_append (x y : Bytes) (hunderscore : b ≠ underscore)
    (hshort : b ≠ 'u'.toNat.toUInt8) (hlong : b ≠ 'U'.toNat.toUInt8) :
    mangle x ≠ mangle y ++ underscore :: b :: rest := by
  rw [mangle_eq, mangle_eq]
  intro h
  rcases flatMap_mangleCode_append (codes_lt x) (codes_lt y) h with ⟨cs, -, hsuffix⟩
  cases cs with
  | nil => cases hsuffix
  | cons c =>
    rw [flatMap_cons] at hsuffix
    rcases mangleCode_cases c with ⟨-, hform⟩ | ⟨-, hkept, hform⟩ | ⟨-, hform⟩ | ⟨-, hform⟩ <;>
      rw [hform] at hsuffix <;>
      simp only [cons_append, cons.injEq] at hsuffix
    · exact hunderscore hsuffix.2.1.symm
    · exact hkept hsuffix.1
    · exact hshort hsuffix.2.1.symm
    · exact hlong hsuffix.2.1.symm

def isSymbolByte (b : UInt8) : Bool := isAsciiAlphanumeric b.toNat || b = underscore

theorem all_hexUpper {n : Nat} (hwidth : 0 < width) (hn : n < 16 ^ width) :
    ∀ b ∈ Bytes.hexUpper width n, isSymbolByte b = true := by
  have hdigit : ∀ d < 16, isSymbolByte (Bytes.upperDigit d) = true := by decide
  induction width, hwidth using Nat.le_induction generalizing n with
  | base =>
    rw [Bytes.hexUpper_one hn]
    exact forall_mem_singleton.mpr (hdigit n hn)
  | succ _ hwidth ih =>
    rw [Bytes.hexUpper_succ hwidth]
    exact forall_mem_append.mpr ⟨ih (Nat.div_lt_of_lt_mul (by omega)),
      forall_mem_singleton.mpr (hdigit _ (Nat.mod_lt _ (by omega)))⟩

theorem all_mangleCode {code : Nat} (hcode : code < 16 ^ 8) :
    ∀ b ∈ mangleCode code, isSymbolByte b = true := by
  unfold mangleCode
  split_ifs with hunderscore hkept hshort
  · exact all_eq_true.mp rfl
  · have hascii : code < 128 := by
      simp [isAsciiAlphanumeric] at hkept
      omega
    have hbyte : code.toUInt8.toNat = code := by
      rw [UInt8.toNat_ofNat', Nat.mod_eq_of_lt (by omega)]
    rw [forall_mem_singleton, isSymbolByte, hbyte, hkept, Bool.true_or]
  · exact forall_mem_append.mpr ⟨all_eq_true.mp rfl, all_hexUpper (by omega) (by omega)⟩
  · exact forall_mem_append.mpr ⟨all_eq_true.mp rfl, all_hexUpper (by omega) hcode⟩

/-- Names of the same mangled form have the same characters, and are the same if they are UTF-8.
    The symbols of lengths are apart from them, and all are spelled in letters, digits and
    underscores. -/
theorem mangle_separates (x y : Bytes) :
    (mangle x = mangle y ↔ (Utf8.glyphs x).map Glyph.code = (Utf8.glyphs y).map Glyph.code) ∧
      (Utf8.valid x = true → Utf8.valid y = true → x ≠ y → mangle x ≠ mangle y) ∧
      mangle x ≠ mangle y ++ "_len" ∧ ∀ b ∈ mangle x, isSymbolByte b = true := by
  refine ⟨mangle_eq_iff, fun hx hy => mt (mangle_inj hx hy),
    mangle_ne_append x y (by decide) (by decide) (by decide), fun b hb => ?_⟩
  obtain ⟨g, hg, hb⟩ := mem_flatMap.mp hb
  exact all_mangleCode (Utf8.code_lt hg) b hb

/-- A name that looks like the mangled form of another, and stray bytes that are not told apart. -/
theorem mangle_separates_escaped :
    mangle "a_u00E9" ≠ mangle "aé" ∧ mangle [0x80] = mangle [0xFF] :=
  ⟨(mangle_separates _ _).2.1 (by decide) (by decide) (by decide),
    (mangle_separates _ _).1.mpr (by decide)⟩

end Names

end Codegen
