import Codegen.Text.Bytes

/-!
# Characters of a Byte String

UTF-8 as a view of bytes that never fails and never loses anything. A byte
string is cut into glyphs; a glyph is a well-formed sequence of one to four
bytes, or a single byte that begins none, and it always keeps the bytes it was
cut from. A stray byte reads as the replacement character, so scanners see code
points only, while whatever they copy is copied byte for byte.

The cut is a structural recursion on the bytes: `cut` carries the number of
bytes that the last sequence still covers and walks over them.
-/

namespace Codegen

/-- A code point and the bytes it was read from. -/
structure Glyph where
  code : Nat
  bytes : Bytes
  deriving DecidableEq, Repr

namespace Utf8

/-- The code point that stands for a byte outside any well-formed sequence. -/
def replacement : Nat := 0xFFFD

def within (lo hi : Nat) (b : UInt8) : Bool := lo ≤ b.toNat && b.toNat ≤ hi

def isTail (b : UInt8) : Bool := within 0x80 0xBF b

def payload (b : UInt8) : Nat := b.toNat % 64

/-- The range of second bytes that keeps a three-byte sequence shortest and off the surrogates. -/
def second3 (b0 : UInt8) : UInt8 → Bool :=
  if b0.toNat = 0xE0 then within 0xA0 0xBF
  else if b0.toNat = 0xED then within 0x80 0x9F
  else isTail

/-- The range of second bytes that keeps a four-byte sequence shortest and within the code space. -/
def second4 (b0 : UInt8) : UInt8 → Bool :=
  if b0.toNat = 0xF0 then within 0x90 0xBF
  else if b0.toNat = 0xF4 then within 0x80 0x8F
  else isTail

/-- The code point and the length of the well-formed sequence that begins the text. -/
def sequence? : Bytes → Option (Nat × Nat)
  | [] => none
  | b0 :: rest =>
    if b0.toNat < 0x80 then some (b0.toNat, 1)
    else if within 0xC2 0xDF b0 then
      match rest with
      | b1 :: _ => if isTail b1 then some (b0.toNat % 32 * 64 + payload b1, 2) else none
      | _ => none
    else if within 0xE0 0xEF b0 then
      match rest with
      | b1 :: b2 :: _ =>
        if second3 b0 b1 && isTail b2 then
          some ((b0.toNat % 16 * 64 + payload b1) * 64 + payload b2, 3)
        else none
      | _ => none
    else if within 0xF0 0xF4 b0 then
      match rest with
      | b1 :: b2 :: b3 :: _ =>
        if second4 b0 b1 && isTail b2 && isTail b3 then
          some (((b0.toNat % 8 * 64 + payload b1) * 64 + payload b2) * 64 + payload b3, 4)
        else none
      | _ => none
    else none

/-- The first glyph of a text that begins with the byte `b`. -/
def firstGlyph (b : UInt8) (rest : Bytes) : Glyph :=
  match sequence? (b :: rest) with
  | some (code, width) => ⟨code, b :: rest.take (width - 1)⟩
  | none => ⟨replacement, [b]⟩

/-- The glyphs of a text after its first `skip` bytes. -/
def cut (skip : Nat) : Bytes → List Glyph
  | [] => []
  | b :: rest =>
    match skip with
    | n + 1 => cut n rest
    | 0 => firstGlyph b rest :: cut ((firstGlyph b rest).bytes.length - 1) rest

/-- A byte string as glyphs. -/
def glyphs (text : Bytes) : List Glyph := cut 0 text

def bytesOf (gs : List Glyph) : Bytes := gs.flatMap Glyph.bytes

/-- The UTF-8 bytes of a code point; the replacement character's when it has none. -/
def encode (code : Nat) : Bytes :=
  String.utf8EncodeChar (if code.isValidChar then Char.ofNat code else Char.ofNat replacement)

/-- Whether no byte is stray. -/
def valid (text : Bytes) : Bool :=
  (glyphs text).all fun g => !(g.code == replacement && g.bytes.length == 1)

theorem cut_eq_cut_drop (skip : Nat) (text : Bytes) : cut skip text = cut 0 (text.drop skip) := by
  induction text generalizing skip with
  | nil => simp [cut]
  | cons b rest ih =>
    cases skip with
    | zero => rfl
    | succ n => rw [cut, ih n, List.drop_succ_cons]

theorem firstGlyph_bytes_append (b : UInt8) (rest : Bytes) :
    (firstGlyph b rest).bytes ++ rest.drop ((firstGlyph b rest).bytes.length - 1) = b :: rest := by
  unfold firstGlyph
  split
  · next width _ =>
    simp only [List.cons_append, List.length_cons, List.length_take, Nat.add_sub_cancel]
    congr 1
    rcases Nat.le_total (width - 1) rest.length with h | h
    · rw [Nat.min_eq_left h, List.take_append_drop]
    · rw [Nat.min_eq_right h, List.take_of_length_le h, List.drop_length, List.append_nil]
  · simp

/-- The glyphs of a byte string spell it. -/
@[simp] theorem bytes_glyphs (text : Bytes) : bytesOf (glyphs text) = text := by
  unfold glyphs
  induction h : text.length using Nat.strongRecOn generalizing text with
  | ind n ih =>
    cases text with
    | nil => rfl
    | cons b rest =>
      rw [cut, cut_eq_cut_drop, bytesOf, List.flatMap_cons]
      have := ih (rest.drop ((firstGlyph b rest).bytes.length - 1)).length
        (by simp only [List.length_drop, ← h, List.length_cons]; omega) _ rfl
      rw [bytesOf] at this
      rw [this, firstGlyph_bytes_append]

end Utf8

end Codegen
