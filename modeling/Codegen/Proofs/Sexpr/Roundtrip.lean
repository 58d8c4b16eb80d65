import Codegen.Proofs.Sexpr.WellFormed

/-!
# Data Survive Being Printed and Read

Printing a well-formed datum and reading the text gives the datum back. The text is followed
through both layers of the reader.

`Scan.Reads` says that the scanner, standing between tokens, turns a text into some lexemes
and then stands between tokens in front of the rest. It hides where tokens begin, which
only messages depend on. A symbol or an integer ends where the next glyph cannot continue it,
so the rest has to be `Delimited`, and everything the printer puts behind a datum is. Strings
may hold any bytes at all but zero, and they come back byte by byte: what the printer inserts
is ASCII and never falls into a longer glyph.

The rest is grammar: a well-formed datum is derived from its lexemes, so the reader accepts
them and gives the datum.

## Theorems

* `read_eq_symbol_iff`: The reader and the printer agree on what a symbol is.
* `read_print_inverse`: Reading and printing are inverse on well-formed data.
-/

namespace Codegen

open Utf8 Datum List

namespace Datum

open Sexpr

mutual

/-- The lexemes of a datum. -/
def lexemes : Datum → List Lexeme
  | .symbol text => [.symbol text]
  | .integer text => [.integer text]
  | .string text => [.string text]
  | .ellipsis => [.ellipsis]
  | .list items [] _ => [.punct .openList] ++ lexemesAll items ++ [.punct .closeList]
  | .list items (key :: keys) notes =>
    [.punct .openList, .punct .caret, .punct .openMap] ++ entryLexemes [] (key :: keys) notes ++
      [.punct .closeMap] ++ lexemesAll items ++ [.punct .closeList]
  | .map keys values => [.punct .openMap] ++ entryLexemes [] keys values ++ [.punct .closeMap]
  | .unknown _ => []

def lexemesAll : List Datum → List Lexeme
  | [] => []
  | d :: rest => lexemes d ++ lexemesAll rest

/-- The lexemes of keys with their values, `lead` before the first. -/
def entryLexemes (lead : List Lexeme) : List Bytes → List Datum → List Lexeme
  | key :: keys, d :: rest =>
    lead ++ [.symbol key, .punct .colon] ++ lexemes d ++ entryLexemes [.punct .comma] keys rest
  | _, _ => []

end

@[simp] theorem printEntries_nil (lead : Bytes) (ds : List Datum) :
    printEntries lead [] ds = [] := by
  cases ds <;> rfl

@[simp] theorem entryLexemes_nil (lead : List Lexeme) (ds : List Datum) :
    entryLexemes lead [] ds = [] := by
  cases ds <;> rfl

end Datum

namespace Sexpr

variable {code : Nat} {ds : List Datum} {keys : List Bytes} {d : Datum} {entries : Entries}

/-! ## Classes of characters -/

theorem mem_of_covers {ranges : List CodeRange} (h : CodeRange.covers code ranges = true) :
    ∃ r ∈ ranges, r.lo ≤ code ∧ code ≤ r.hi := by
  induction ranges with
  | nil => cases h
  | cons r rest ih =>
    unfold CodeRange.covers at h
    split at h
    · cases h
    split at h
    · next hlo hhi => exact ⟨r, mem_cons_self, by omega, hhi⟩
    · rcases ih h with ⟨s, hs, hbounds⟩
      exact ⟨s, mem_cons_of_mem _ hs, hbounds⟩

set_option maxRecDepth 20000 in
theorem isBlank_of_isLetter (hletter : isLetter code = true) : isBlank code = false := by
  by_contra hblank
  rw [Bool.not_eq_false] at hblank
  rcases mem_of_covers hblank with ⟨r, hr, hlo, hhi⟩
  -- There are few white characters, so each of them is tested.
  have hnone : ∀ r ∈ blankRanges, ∀ c ∈ range' r.lo (r.hi + 1 - r.lo),
      isLetter c = false := by
    decide
  have hcode := hnone r hr code (mem_range'_1.mpr ⟨hlo, by omega⟩)
  rw [hletter] at hcode
  exact Bool.noConfusion hcode

theorem ne_of_isLetter (hletter : isLetter code = true) {c : Nat} (hc : isLetter c = false) :
    code ≠ c := by
  rintro rfl
  rw [hletter] at hc
  exact Bool.noConfusion hc

theorem not_isAsciiDigit (hcode : isSymbolCode code = false) : ¬ isAsciiDigit code = true := by
  intro hdigit
  simp only [isAsciiDigit, Bool.and_eq_true, decide_eq_true_eq] at hdigit
  have hrange : isDigit code = true := by
    unfold isDigit digitRanges CodeRange.covers
    rw [if_neg (by exact Nat.not_lt.mpr hdigit.1), if_pos (by exact hdigit.2)]
  simp [isSymbolCode, hrange] at hcode

/-- Texts that end the token before them. -/
def Delimited (rest : Bytes) : Prop :=
  ∀ g ∈ (glyphs rest).head?, isSymbolCode g.code = false

theorem delimited_nil : Delimited [] := nofun

theorem delimited_cons {b : UInt8} (hb : b.toNat < 0x80) (hcode : isSymbolCode b.toNat = false)
    (rest : Bytes) : Delimited (b :: rest) := by
  unfold Delimited
  rw [glyphs_ascii hb]
  intro g hg
  rw [← Option.some.inj hg]
  exact hcode

theorem delimited_space (rest : Bytes) : Delimited (" " ++ rest) :=
  delimited_cons (by decide) (by decide) rest

theorem delimited_mark (mark : Punct) (rest : Bytes) :
    Delimited (mark.char.toNat.toUInt8 :: rest) := by
  cases mark <;> exact delimited_cons (by decide) (by decide) rest

/-! ## The scanner -/

namespace Scan

variable {g : Glyph} {gs : List Glyph} {b : UInt8} {rest text tails lead : Bytes} {offset : Nat}
  {ls : List Lexeme} {token : Token} {s next : Scan}

theorem begin_letter (offset : Nat) (hletter : isLetter g.code = true) :
    begin offset g = ([], .ok (.symbol offset g.bytes.reverse)) := by
  have hpunct : Punct.ofCode? g.code = none := by
    refine find?_eq_none.mpr fun mark _ => ?_
    have hmark : isLetter mark.char.toNat = false := by cases mark <;> decide
    simpa using (ne_of_isLetter hletter hmark).symm
  simp only [begin, isBlank_of_isLetter hletter, hpunct, Bool.false_eq_true, if_false,
    if_neg (ne_of_isLetter hletter (by decide : isLetter ';'.toNat = false)),
    if_neg (ne_of_isLetter hletter (by decide : isLetter '"'.toNat = false)),
    if_neg (ne_of_isLetter hletter (by decide : isLetter '.'.toNat = false)), hletter, if_true]

theorem begin_digit (offset : Nat) (hb : Integer.isDigitByte b = true) :
    begin offset ⟨b.toNat, [b]⟩ = ([], .ok (.integer offset [b])) := by
  have hdigits : ∀ c ∈ range' 48 10,
      begin offset ⟨c, [b]⟩ = ([], .ok (.integer offset [b])) := by
    intro c hc
    simp only [range', mem_cons, not_mem_nil, or_false] at hc
    rcases hc with rfl | rfl | rfl | rfl | rfl | rfl | rfl | rfl | rfl | rfl <;> rfl
  simp only [Integer.isDigitByte, Bool.and_eq_true, decide_eq_true_eq] at hb
  have hzero : '0'.toNat = 48 := by decide
  have hnine : '9'.toNat = 57 := by decide
  exact hdigits b.toNat (mem_range'_1.mpr (by omega))

theorem run_cons (gs : List Glyph) (hfeed : feed offset g s = ([], .ok next)) :
    run s offset (g :: gs) = run next (offset + g.bytes.length) gs := by
  rw [run, hfeed]
  rfl

/-- The scanner goes on to the end of the token under way, and then stands before the rest. -/
def Completes (s : Scan) (gs : List Glyph) (token : Token) (rest : Bytes) : Prop :=
  ∀ offset, ∃ after, run s offset gs =
    (token :: (run .blank after (glyphs rest)).1, (run .blank after (glyphs rest)).2)

theorem Completes.cons (h : Completes next gs token rest)
    (hfeed : ∀ offset, feed offset g s = ([], .ok next)) :
    Completes s (g :: gs) token rest := by
  intro offset
  rw [run_cons gs (hfeed offset)]
  exact h (offset + g.bytes.length)

theorem completes_pending {lexeme : Lexeme} {start : Nat}
    (hfeed : ∀ offset g, isSymbolCode g.code = false →
      feed offset g s = yield lexeme start (begin offset g))
    (hclose : s.close = ([⟨lexeme, start⟩], none)) (hrest : Delimited rest) :
    Completes s (glyphs rest) ⟨lexeme, start⟩ rest := by
  intro offset
  refine ⟨offset, ?_⟩
  unfold Delimited at hrest
  cases hglyphs : glyphs rest with
  | nil => exact hclose
  | cons g gs =>
    -- The glyph that ends the token is the first of whatever comes next.
    rw [hglyphs] at hrest
    rw [run, run, hfeed offset g (hrest g rfl)]
    have hblank : feed offset g .blank = begin offset g := rfl
    rw [hblank]
    rcases begin offset g with ⟨tokens, next⟩
    cases next with
    | error => rfl
    | ok => rfl

/-- The scanner, between tokens, makes lexemes of a text up to the rest. -/
def Reads (text : Bytes) (ls : List Lexeme) (rest : Bytes) : Prop :=
  ∀ offset, ∃ after ts, ts.map Token.lexeme = ls ∧
    run .blank offset (glyphs text) =
      (ts ++ (run .blank after (glyphs rest)).1, (run .blank after (glyphs rest)).2)

theorem Reads.refl (text : Bytes) : Reads text [] text := fun offset => ⟨offset, [], rfl, rfl⟩

theorem Reads.trans {middle : Bytes} {ms : List Lexeme} (hfirst : Reads text ls middle)
    (hsecond : Reads middle ms rest) : Reads text (ls ++ ms) rest := by
  intro offset
  rcases hfirst offset with ⟨between, ts, hts, hrun⟩
  rcases hsecond between with ⟨after, us, hus, hrun'⟩
  refine ⟨after, ts ++ us, by rw [map_append, hts, hus], ?_⟩
  rw [hrun, hrun', append_assoc]

theorem Reads.of_begin {lexeme : Lexeme} {f : Nat → Scan} (hglyphs : glyphs text = g :: gs)
    (hbegin : ∀ offset, begin offset g = ([], .ok (f offset)))
    (h : ∀ start, Completes (f start) gs ⟨lexeme, start⟩ rest) : Reads text [lexeme] rest := by
  intro offset
  rcases h offset (offset + g.bytes.length) with ⟨after, hrun⟩
  refine ⟨after, [⟨lexeme, offset⟩], rfl, ?_⟩
  have hfeed : feed offset g .blank = ([], .ok (f offset)) := hbegin offset
  rw [hglyphs, run_cons gs hfeed, hrun]
  rfl

theorem reads_ascii (hb : b.toNat < 0x80)
    (hbegin : ∀ offset, begin offset ⟨b.toNat, [b]⟩ = (ls.map fun l => ⟨l, offset⟩, .ok .blank))
    (rest : Bytes) : Reads (b :: rest) ls rest := by
  intro offset
  refine ⟨offset + 1, ls.map fun l => ⟨l, offset⟩, ?_, ?_⟩
  · rw [map_map]
    exact map_id ls
  have hfeed : feed offset ⟨b.toNat, [b]⟩ .blank = begin offset ⟨b.toNat, [b]⟩ := rfl
  rw [glyphs_ascii hb, run, hfeed, hbegin]
  rfl

theorem reads_mark (mark : Punct) (rest : Bytes) :
    Reads (mark.char.toNat.toUInt8 :: rest) [.punct mark] rest := by
  cases mark <;> exact reads_ascii (by decide) (fun offset => rfl) rest

theorem reads_space (rest : Bytes) : Reads (" " ++ rest) [] rest :=
  reads_ascii (by decide) (fun offset => rfl) rest

theorem completes_symbol (hgs : ∀ g ∈ gs, isSymbolCode g.code = true) (hrest : Delimited rest)
    (start : Nat) (seen : Bytes) : Completes (.symbol start seen) (gs ++ glyphs rest)
      ⟨.symbol (seen.reverse ++ bytesOf gs), start⟩ rest := by
  induction gs generalizing seen with
  | nil =>
    have hend : Completes (.symbol start seen) (glyphs rest) ⟨.symbol seen.reverse, start⟩ rest :=
      completes_pending (fun _ _ hg => by rw [feed, if_neg (by simp [hg])]) rfl hrest
    simpa [bytesOf] using hend
  | cons g _ ih =>
    have hg := forall_mem_cons.mp hgs
    have hmore := (ih hg.2 (g.bytes.reverse ++ seen)).cons (s := .symbol start seen)
      fun offset => by rw [feed, if_pos hg.1]
    simpa [bytesOf] using hmore

theorem reads_sign (hb : b.toNat < 0x80)
    (hbegin : ∀ offset, begin offset ⟨b.toNat, [b]⟩ = ([], .ok (.sign offset [b])))
    (hrest : Delimited rest) : Reads (b :: rest) [.symbol [b]] rest := by
  refine .of_begin (glyphs_ascii hb rest) hbegin fun start => completes_pending ?_ rfl hrest
  intro offset g hg
  rw [feed, if_neg (not_isAsciiDigit hg)]
  rfl

theorem reads_symbol (htext : isSymbol text = true) (hrest : Delimited rest) :
    Reads (text ++ rest) [.symbol text] rest := by
  simp only [isSymbol, Bool.or_eq_true, decide_eq_true_eq] at htext
  rcases htext with (htext | rfl) | rfl
  · -- Glyphs of a symbol are complete, so the rest cannot add bytes to the last of them.
    have hcomplete (h : Glyph) (hh : h ∈ glyphs text) : h.code ≠ replacement :=
      ne_replacement_of_isSymbolCode (isSymbolCode_of_mem htext h hh)
    rcases isSymbolText_iff.mp htext with ⟨g, gs, hglyphs, hletter, hgs⟩
    have hbytes : g.bytes ++ bytesOf gs = text := by
      have hspell := bytes_glyphs text
      rwa [hglyphs, bytesOf] at hspell
    have hall : glyphs (text ++ rest) = g :: (gs ++ glyphs rest) := by
      rw [glyphs_append hcomplete, hglyphs, cons_append]
    refine .of_begin hall (fun offset => begin_letter offset hletter) fun start => ?_
    have hmore := completes_symbol hgs hrest start g.bytes.reverse
    rwa [reverse_reverse, hbytes] at hmore
  · exact reads_sign (by decide) (fun offset => rfl) hrest
  · exact reads_sign (by decide) (fun offset => rfl) hrest

theorem ascii_of_isDigitByte (hb : Integer.isDigitByte b = true) : b.toNat < 0x80 := by
  simp only [Integer.isDigitByte, Bool.and_eq_true, decide_eq_true_eq] at hb
  have hnine : '9'.toNat < 0x80 := by decide
  omega

theorem completes_integer {digits : Bytes} (hdigits : ∀ b ∈ digits, Integer.isDigitByte b = true)
    (hrest : Delimited rest) (start : Nat) (seen : Bytes) :
    Completes (.integer start seen) (glyphs (digits ++ rest))
      ⟨.integer (seen.reverse ++ digits), start⟩ rest := by
  induction digits generalizing seen with
  | nil =>
    have hend : Completes (.integer start seen) (glyphs rest) ⟨.integer seen.reverse, start⟩ rest :=
      completes_pending (fun _ _ hg => by rw [feed, if_neg (not_isAsciiDigit hg)]) rfl hrest
    simpa using hend
  | cons b _ ih =>
    have hb := forall_mem_cons.mp hdigits
    have hmore := (ih hb.2 (b :: seen)).cons (g := ⟨b.toNat, [b]⟩) (s := .integer start seen)
      fun offset => by
        rw [feed, if_pos (by simpa [isAsciiDigit, Integer.isDigitByte] using hb.1)]
        rfl
    rw [cons_append, glyphs_ascii (ascii_of_isDigitByte hb.1)]
    simpa using hmore

theorem reads_integer (htext : isIntegerText text = true) (hrest : Delimited rest) :
    Reads (text ++ rest) [.integer text] rest := by
  cases text with
  | nil => exact absurd htext (by decide)
  | cons b digits =>
    unfold isIntegerText at htext
    -- A sign and digits, or digits.
    by_cases hsign : b = '+'.toNat.toUInt8 ∨ b = '-'.toNat.toUInt8
    · have hsplit : (Integer.splitSign (b :: digits)).2 = digits := by
        rcases hsign with rfl | rfl <;> rfl
      have hb : b.toNat < 0x80 := by rcases hsign with rfl | rfl <;> decide
      rw [hsplit] at htext
      cases digits with
      | nil => exact absurd htext (by decide)
      | cons c digits =>
        have hc : Integer.isDigitByte c = true ∧ ∀ d ∈ digits, Integer.isDigitByte d = true := by
          simpa using htext
        refine .of_begin (f := fun offset => .sign offset [b])
          (glyphs_ascii hb (c :: (digits ++ rest)))
          (fun offset => by rcases hsign with rfl | rfl <;> rfl) fun start => ?_
        rw [glyphs_ascii (ascii_of_isDigitByte hc.1)]
        refine (completes_integer hc.2 hrest start [c, b]).cons fun offset => ?_
        rw [feed, if_pos (by simpa [isAsciiDigit, Integer.isDigitByte] using hc.1)]
        rfl
    · have hsplit : (Integer.splitSign (b :: digits)).2 = b :: digits := by
        rw [not_or] at hsign
        rw [Integer.splitSign, if_neg hsign.1, if_neg hsign.2]
      rw [hsplit] at htext
      have hb : Integer.isDigitByte b = true ∧ ∀ d ∈ digits, Integer.isDigitByte d = true := by
        simpa using htext
      exact .of_begin (glyphs_ascii (ascii_of_isDigitByte hb.1) _)
        (fun offset => begin_digit offset hb.1) fun start => completes_integer hb.2 hrest start [b]

theorem reads_ellipsis (rest : Bytes) : Reads ("..." ++ rest) [.ellipsis] rest := by
  intro offset
  refine ⟨offset + 3, [⟨.ellipsis, offset⟩], rfl, ?_⟩
  rfl

theorem escape_cons (b : UInt8) (text : Bytes) :
    Datum.escape (b :: text) =
      (if b = '\\'.toNat.toUInt8 then ("\\\\" : Bytes)
        else if b = '"'.toNat.toUInt8 then ("\\\"" : Bytes) else [b]) ++ Datum.escape text := rfl

theorem escape_beyond (hb : 0x80 ≤ b.toNat) (text : Bytes) :
    Datum.escape (b :: text) = b :: Datum.escape text := by
  have hne (c : UInt8) (hc : c.toNat < 0x80) : b ≠ c := by
    rintro rfl
    omega
  rw [escape_cons, if_neg (hne _ (by decide)), if_neg (hne _ (by decide))]
  rfl

theorem escape_tail (hb : isTail b = true) (text : Bytes) :
    Datum.escape (b :: text) = b :: Datum.escape text := by
  refine escape_beyond ?_ text
  simp only [isTail, within, Bool.and_eq_true, decide_eq_true_eq] at hb
  exact hb.1

theorem escape_tails (htails : ∀ t ∈ tails, isTail t = true) (text : Bytes) :
    Datum.escape (tails ++ text) = tails ++ Datum.escape text := by
  induction tails with
  | nil => rfl
  | cons _ _ ih =>
    have ht := forall_mem_cons.mp htails
    rw [cons_append, escape_tail ht.1, ih ht.2, cons_append]

/-- Escaping a text and closing it with a quote keeps the continuation bytes that it begins
    with, and no others come in front. -/
theorem takeWhile_escape (text rest : Bytes) :
    (Datum.escape text ++ '"'.toNat.toUInt8 :: rest).takeWhile isTail =
      text.takeWhile isTail := by
  induction text with
  | nil => rw [Datum.escape, flatMap_nil, nil_append,
      takeWhile_cons_of_neg (by decide), takeWhile_nil]
  | cons b _ ih =>
    by_cases hb : isTail b = true
    · rw [escape_tail hb, cons_append, takeWhile_cons_of_pos hb, ih,
        takeWhile_cons_of_pos hb]
    · rw [takeWhile_cons_of_neg hb, escape_cons]
      split
      · exact takeWhile_cons_of_neg (by decide)
      split
      · exact takeWhile_cons_of_neg (by decide)
      · exact takeWhile_cons_of_neg hb

theorem firstGlyph_escape (b : UInt8) (htails : ∀ t ∈ tails, isTail t = true)
    (more rest : Bytes) :
    firstGlyph b (tails ++ (Datum.escape more ++ '"'.toNat.toUInt8 :: rest)) =
      firstGlyph b (tails ++ more) := by
  rw [firstGlyph_eq_takeWhile, takeWhile_append_of_pos htails, takeWhile_escape,
    ← takeWhile_append_of_pos htails, ← firstGlyph_eq_takeWhile]

theorem feed_string (hquote : g.code ≠ '"'.toNat) (hzero : g.code ≠ 0)
    (hslash : g.code ≠ '\\'.toNat) (offset start : Nat) (seen : Bytes) :
    feed offset g (.string start seen) = ([], .ok (.string start (g.bytes.reverse ++ seen))) := by
  rw [feed, if_neg hquote, if_neg hzero, if_neg hslash]

theorem Completes.escaped {start : Nat} {seen more : Bytes}
    (h : Completes (.string start (b :: seen)) (glyphs more) token rest)
    (hb : b = '"'.toNat.toUInt8 ∨ b = '\\'.toNat.toUInt8) :
    Completes (.string start seen) (glyphs ('\\'.toNat.toUInt8 :: b :: more)) token rest := by
  have hascii : b.toNat < 0x80 := by rcases hb with rfl | rfl <;> decide
  rw [glyphs_ascii (by decide), glyphs_ascii hascii]
  have hescaped := h.cons (g := ⟨b.toNat, [b]⟩) (s := .escape start seen)
    fun offset => by rcases hb with rfl | rfl <;> rfl
  exact hescaped.cons fun offset => rfl

theorem completes_string (htext : 0 ∉ text) (rest : Bytes) (start : Nat) (seen : Bytes) :
    Completes (.string start seen) (glyphs (Datum.escape text ++ '"'.toNat.toUInt8 :: rest))
      ⟨.string (seen.reverse ++ text), start⟩ rest := by
  induction text using glyphs_induction generalizing seen with
  | nil =>
    intro offset
    refine ⟨offset + 1, ?_⟩
    rw [append_nil]
    rfl
  | ascii b text hb ih =>
    have hmore := ih (fun hmem => htext (mem_cons_of_mem _ hmem)) (b :: seen)
    rw [reverse_cons, append_assoc] at hmore
    rw [escape_cons]
    -- An escaped byte takes two glyphs of the text, any other takes one.
    split
    · next hslash =>
      subst hslash
      exact hmore.escaped (Or.inr rfl)
    next hslash =>
    split
    · next hquote =>
      subst hquote
      exact hmore.escaped (Or.inl rfl)
    next hquote =>
    have hne (c : UInt8) (hc : b ≠ c) : b.toNat ≠ c.toNat := fun heq =>
      hc (UInt8.toNat_inj.mp heq)
    have hzero : b ≠ 0 := fun heq => htext (heq ▸ mem_cons_self)
    rw [append_assoc, singleton_append, glyphs_ascii hb]
    exact hmore.cons fun offset =>
      feed_string (hne _ hquote) (hne _ hzero) (hne _ hslash) offset start seen
  | longer b tails more _ htails _ hbytes _ ih =>
    -- The bytes need not be a character. Escaping inserts no continuation bytes behind them,
    -- so the glyph is the same in the escaped text.
    have hsame := firstGlyph_escape b htails more rest
    generalize hg : firstGlyph b (tails ++ more) = g at *
    have hbytes' := hbytes
    rw [← hsame] at hbytes'
    have hmore := ih (fun hmem => htext (mem_cons_of_mem _ (mem_append_right _ hmem)))
      (g.bytes.reverse ++ seen)
    have hgrown : (g.bytes.reverse ++ seen).reverse ++ more =
        seen.reverse ++ b :: (tails ++ more) := by
      simp [hbytes]
    rw [hgrown] at hmore
    rw [escape_beyond (by omega), escape_tails htails, cons_append, append_assoc,
      glyphs_of_bytes hbytes', hsame]
    have hascii (c : Nat) (hc : c < 0x80) : g.code ≠ c := by omega
    exact hmore.cons fun offset => feed_string (hascii _ (by decide)) (hascii _ (by decide))
      (hascii _ (by decide)) offset start seen

theorem reads_string (htext : 0 ∉ text) (rest : Bytes) :
    Reads ("\"" ++ Datum.escape text ++ "\"" ++ rest) [.string text] rest := by
  have hshape : ("\"" : Bytes) ++ Datum.escape text ++ "\"" ++ rest =
      '"'.toNat.toUInt8 :: (Datum.escape text ++ '"'.toNat.toUInt8 :: rest) := by
    rw [append_assoc]
    rfl
  rw [hshape]
  exact .of_begin (glyphs_ascii (by decide) _) (fun offset => rfl) fun start =>
    completes_string htext rest start []

theorem delimited_printItems (hrest : Delimited rest) (ds : List Datum) :
    Delimited (printItems " " ds ++ rest) := by
  cases ds with
  | nil => exact hrest
  | cons =>
    exact delimited_space _

theorem delimited_printEntries (hrest : Delimited rest) (keys : List Bytes) (ds : List Datum) :
    Delimited (printEntries ", " keys ds ++ rest) := by
  cases keys with
  | nil =>
    rw [printEntries_nil]
    exact hrest
  | cons =>
    cases ds with
    | nil => exact hrest
    | cons => exact delimited_mark .comma _

theorem reads_printItems
    (hds : ∀ d ∈ ds, ∀ rest, Delimited rest → Reads (d.print ++ rest) d.lexemes rest)
    (hrest : Delimited rest) (hlead : lead = [] ∨ lead = " ") :
    Reads (printItems lead ds ++ rest) (lexemesAll ds) rest := by
  induction ds generalizing lead with
  | nil => exact Reads.refl rest
  | cons d ds ih =>
    have hd := forall_mem_cons.mp hds
    -- Behind an item there is a space, or whatever ends the list.
    have hitem := hd.1 _ (delimited_printItems hrest ds)
    have hitems := hitem.trans (ih hd.2 (Or.inr rfl))
    rw [printItems, append_assoc]
    rcases hlead with rfl | rfl
    · exact hitems
    · exact (reads_space _).trans hitems

theorem reads_printEntries (hkeys : ∀ key ∈ keys, isSymbol key = true)
    (hds : ∀ d ∈ ds, ∀ rest, Delimited rest → Reads (d.print ++ rest) d.lexemes rest)
    (hrest : Delimited rest) (hlead : lead = [] ∧ ls = [] ∨ lead = ", " ∧ ls = [.punct .comma]) :
    Reads (printEntries lead keys ds ++ rest) (entryLexemes ls keys ds) rest := by
  induction keys generalizing ds lead ls with
  | nil =>
    rw [printEntries_nil, entryLexemes_nil]
    exact Reads.refl rest
  | cons _ keys ih =>
    cases ds with
    | nil => exact Reads.refl rest
    | cons d ds =>
      have hkey := forall_mem_cons.mp hkeys
      have hd := forall_mem_cons.mp hds
      have hvalue := hd.1 _ (delimited_printEntries hrest keys ds)
      have hvalues := hvalue.trans (ih hkey.2 hd.2 (Or.inr ⟨rfl, rfl⟩))
      have hcolon := (reads_mark .colon _).trans ((reads_space _).trans hvalues)
      have hentry := (reads_symbol hkey.1 (delimited_mark .colon _)).trans hcolon
      simp only [printEntries, append_assoc]
      rcases hlead with ⟨rfl, rfl⟩ | ⟨rfl, rfl⟩
      · exact hentry
      · exact (reads_mark .comma _).trans ((reads_space _).trans hentry)

/-- The text of a datum is scanned as its lexemes. -/
theorem reads_print (d : Datum) (hd : d.wellFormed = true) (rest : Bytes) (hrest : Delimited rest) :
    Reads (d.print ++ rest) d.lexemes rest := by
  induction d using induction generalizing rest with
  | symbol => exact reads_symbol hd hrest
  | string text =>
    have hzero : 0 ∉ text := by simpa [wellFormed] using hd
    exact reads_string hzero rest
  | integer => exact reads_integer hd hrest
  | ellipsis => exact reads_ellipsis rest
  | list items keys _ hitems hnotes =>
    obtain ⟨hitemsWell, hnotesWell, -, hkeys, -⟩ := wellFormed_list.mp hd
    have hinside (lead : Bytes) (hlead : lead = [] ∨ lead = " ") :=
      (reads_printItems (fun d hmem => hitems d hmem (hitemsWell d hmem))
        (delimited_mark .closeList rest) hlead).trans (reads_mark .closeList rest)
    -- Metadata stand before the items, in a map that is left out if there are none.
    cases keys with
    | nil =>
      rw [print, append_assoc]
      exact (reads_mark .openList _).trans (hinside [] (Or.inl rfl))
    | cons =>
      have hnotes' := reads_printEntries hkeys
        (fun d hmem => hnotes d hmem (hnotesWell d hmem))
        (delimited_mark .closeMap (printItems " " items ++ (")" ++ rest)))
        (Or.inl ⟨rfl, rfl⟩)
      have hmap := hnotes'.trans ((reads_mark .closeMap _).trans (hinside " " (Or.inr rfl)))
      have hopen := (reads_mark .caret _).trans ((reads_mark .openMap _).trans hmap)
      simp only [print, lexemes, append_assoc]
      exact (reads_mark .openList _).trans hopen
  | map _ _ hvalues =>
    obtain ⟨hwell, -, hkeys⟩ := wellFormed_map.mp hd
    have hentries := reads_printEntries hkeys (fun d hmem => hvalues d hmem (hwell d hmem))
      (delimited_mark .closeMap rest) (Or.inl ⟨rfl, rfl⟩)
    simp only [print, append_assoc]
    exact (reads_mark .openMap _).trans (hentries.trans (reads_mark .closeMap rest))
  | unknown => cases hd

theorem scan_print (hd : d.wellFormed = true) :
    (scan d.print).tokens.map Token.lexeme = d.lexemes ∧ (scan d.print).failure = none := by
  rcases reads_print d hd [] delimited_nil 0 with ⟨after, ts, hts, hrun⟩
  rw [append_nil] at hrun
  have hend : run .blank after (glyphs []) = ([], none) := rfl
  rw [hend, append_nil] at hrun
  unfold scan
  rw [hrun]
  exact ⟨hts, rfl⟩

end Scan

/-! ## The reader -/

theorem mergeEntry_of_notMem {key : Bytes} (value : Datum) (hkey : key ∉ entries.map Prod.fst) :
    mergeEntry entries key value = entries ++ [(key, value)] := by
  induction entries with
  | nil => rfl
  | cons e _ ih =>
    rw [map_cons, mem_cons, not_or] at hkey
    rw [mergeEntry, if_neg (Ne.symm hkey.1), ih hkey.2, cons_append]

theorem latest_of_nodup (hnodup : (entries.map Prod.fst).Nodup) : latest entries = entries := by
  rw [← merge_nil_eq_latest]
  -- An entry whose key is new goes to the end, where merging puts it.
  induction entries using reverseRecOn with
  | nil => rfl
  | append_singleton entries e ih =>
    rw [map_append, nodup_append] at hnodup
    have hnew : e.1 ∉ entries.map Prod.fst := fun hmem =>
      hnodup.2.2 e.1 hmem e.1 mem_cons_self rfl
    rw [merge_concat, ih hnodup.1, mergeEntry_of_notMem e.2 hnew]

theorem derives_lexemesAll (hds : ∀ d ∈ ds, Derives (.datum d) d.lexemes) :
    Derives (.parts ds []) (lexemesAll ds) := by
  induction ds with
  | nil => exact .nothing
  | cons _ _ ih =>
    have hd := forall_mem_cons.mp hds
    exact .item hd.1 (ih hd.2)

theorem derives_entryLexemes (key : Bytes) (hlength : keys.length = ds.length)
    (hds : ∀ e ∈ d :: ds, Derives (.datum e) e.lexemes) :
    Derives (.entries ((key, d) :: keys.zip ds)) (entryLexemes [] (key :: keys) (d :: ds)) := by
  induction keys generalizing key d ds with
  | nil =>
    rw [entryLexemes, entryLexemes_nil, append_nil]
    exact .entry key (hds d mem_cons_self)
  | cons next keys ih =>
    cases ds with
    | nil => cases hlength
    | cons e ds =>
      have hd := forall_mem_cons.mp hds
      have hrest := ih next (Nat.succ.inj hlength) hd.2
      have hall := Derives.entries key hd.1 hrest
      simpa [entryLexemes] using hall

theorem derives_mapLexemes (hlength : keys.length = ds.length)
    (hds : ∀ d ∈ ds, Derives (.datum d) d.lexemes) :
    Derives (.map (keys.zip ds))
      ([.punct .openMap] ++ entryLexemes [] keys ds ++ [.punct .closeMap]) := by
  cases keys with
  | nil =>
    rw [entryLexemes_nil]
    exact .empty
  | cons key =>
    cases ds with
    | nil => cases hlength
    | cons => exact .map (derives_entryLexemes key (Nat.succ.inj hlength) hds)

/-- The grammar derives a datum from its lexemes. -/
theorem derives_lexemes (d : Datum) (hd : d.wellFormed = true) : Derives (.datum d) d.lexemes := by
  induction d using induction with
  | symbol text => exact .symbol text
  | string text => exact .string text
  | integer text => exact .integer text
  | ellipsis => exact .ellipsis
  | list _ keys notes hitems hnotes =>
    obtain ⟨hitemsWell, hnotesWell, hlength, -, hnodup⟩ := wellFormed_list.mp hd
    have hinside := derives_lexemesAll fun d hmem => hitems d hmem (hitemsWell d hmem)
    have hfst : (keys.zip notes).map Prod.fst = keys := map_fst_zip hlength.le
    have hsnd : (keys.zip notes).map Prod.snd = notes := map_snd_zip hlength.ge
    -- The keys differ, so the reader keeps the entries as they are.
    have hlatest : latest (keys.zip notes) = keys.zip notes :=
      latest_of_nodup (by rwa [hfst])
    cases keys with
    | nil =>
      rw [length_eq_zero_iff.mp hlength.symm]
      exact .list hinside
    | cons =>
      have hnote := derives_mapLexemes hlength fun d hmem => hnotes d hmem (hnotesWell d hmem)
      have hwhole := Derives.list (.note hnote hinside)
      rw [append_nil, hlatest, hfst, hsnd] at hwhole
      simpa [lexemes] using hwhole
  | map _ _ hvalues =>
    obtain ⟨hwell, hlength, -⟩ := wellFormed_map.mp hd
    have hmap := derives_mapLexemes hlength fun d hmem => hvalues d hmem (hwell d hmem)
    have hwhole := Derives.dictionary hmap
    rwa [map_fst_zip hlength.le, map_snd_zip hlength.ge] at hwhole
  | unknown => cases hd

/-- Reading a printed datum. -/
theorem read_print (hd : d.wellFormed = true) : read d.print = .ok d := by
  rcases Scan.scan_print hd with ⟨htokens, hfailure⟩
  refine read_of_derives hfailure ?_
  rw [htokens]
  exact derives_lexemes d hd

/-- A text is read as the symbol with that very text exactly when it is spelled like one. -/
theorem read_eq_symbol_iff (text : Bytes) :
    read text = .ok (.symbol text) ↔ isSymbolText text = true ∨ text = "+" ∨ text = "-" := by
  have hsymbol : (Datum.symbol text).wellFormed = true ↔
      isSymbolText text = true ∨ text = "+" ∨ text = "-" := by
    simp [Datum.wellFormed, isSymbol, or_assoc]
  rw [← hsymbol]
  exact ⟨read_wellFormed, read_print⟩

/-- Reading and printing are inverse: what is read is well formed, and what is well formed is
    read from its text. -/
theorem read_print_inverse :
    (∀ (text : Bytes) (d : Datum), read text = .ok d → d.wellFormed = true) ∧
      ∀ d : Datum, d.wellFormed = true → read d.print = .ok d :=
  ⟨fun _ _ hread => read_wellFormed hread, fun _ hd => read_print hd⟩

/-- A lone sign beside integers, bytes that are no characters between a quote and a backslash,
    metadata, and a map with a key twice. -/
theorem read_print_adjacent :
    let d : Datum := .list
      [.symbol "-", .integer "12", .integer "-3", .symbol "+", .ellipsis,
        .string [0xE2, '"'.toNat.toUInt8, 0x82, '\\'.toNat.toUInt8, 0xFF],
        .map ["k", "k"] [.integer "1", .list [] [] []]]
      ["type", "line-no"] [.string "", .map [] []]
    d.wellFormed = true ∧ read d.print = .ok d ∧ ∃ e, read d.print = .ok e ∧ e.wellFormed = true := by
  intro d
  have hd : d.wellFormed = true := by decide
  have hread := read_print_inverse.2 d hd
  exact ⟨hd, hread, d, hread, read_print_inverse.1 d.print d hread⟩

end Sexpr

end Codegen
