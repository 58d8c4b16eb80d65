import Codegen.Proofs.Sexpr.Glyphs
import Codegen.Proofs.Number.Digits
import Codegen.Proofs.Sexpr.Grammar

/-!
# Data That Documents Can Hold

Not every datum is the datum of a document: a symbol may hold a space, an integer may hold
letters, a key may lack its value. A datum is well formed if each of its atoms is spelled as
the scanner spells it and keys and values belong together, and reading only ever gives
well-formed data.

The proof is an invariant of the scanner and an induction over the grammar. What the scanner
has seen of a token is a beginning of a well-formed one, for any glyph that a text can have
(`Glyph.Proper`), so every token it ends is well formed. What a phrase stands for is well
formed if its tokens are.
-/

namespace Codegen

open Utf8 Integer List

namespace Sexpr

/-- Whether a text is the spelling of a symbol, a lone sign included. -/
def isSymbol (text : Bytes) : Bool := isSymbolText text || text = "+" || text = "-"

/-- Whether a text is an integer: digits, after a sign or none. -/
def isIntegerText (text : Bytes) : Bool :=
  let digits := (splitSign text).2
  !digits.isEmpty && digits.all isDigitByte

theorem isIntegerText_print (n : Int64) : isIntegerText (print n) = true := by
  unfold isIntegerText
  rw [splitSign_print]
  have hsome := isEmpty_eq_false_iff.mpr (Bytes.ofNat_ne_nil n.toInt.natAbs)
  simp only [hsome, Bool.not_false, Bool.true_and, all_eq_true]
  exact fun b hb => Bytes.isDigitByte_ofNat hb

end Sexpr

namespace Datum

mutual

/-- Data that documents can hold. -/
def wellFormed : Datum → Bool
  | .symbol text => Sexpr.isSymbol text
  | .string text => !text.contains 0
  | .integer text => Sexpr.isIntegerText text
  | .ellipsis => true
  | .list items keys notes =>
    wellFormedAll items && wellFormedAll notes && keys.length == notes.length &&
      keys.all Sexpr.isSymbol && decide keys.Nodup
  | .map keys values =>
    wellFormedAll values && keys.length == values.length && keys.all Sexpr.isSymbol
  | .unknown _ => false

def wellFormedAll : List Datum → Bool
  | [] => true
  | d :: rest => wellFormed d && wellFormedAll rest

end

theorem wellFormedAll_iff {ds : List Datum} :
    wellFormedAll ds = true ↔ ∀ d ∈ ds, d.wellFormed = true := by
  induction ds with
  | nil => simp [wellFormedAll]
  | cons _ _ ih => simp [wellFormedAll, ih]

theorem wellFormed_list {items notes : List Datum} {keys : List Bytes} :
    (list items keys notes).wellFormed = true ↔ (∀ d ∈ items, d.wellFormed = true) ∧
      (∀ d ∈ notes, d.wellFormed = true) ∧ keys.length = notes.length ∧
      (∀ key ∈ keys, Sexpr.isSymbol key = true) ∧ keys.Nodup := by
  simp [wellFormed, wellFormedAll_iff, and_assoc]

theorem wellFormed_map {values : List Datum} {keys : List Bytes} :
    (map keys values).wellFormed = true ↔ (∀ d ∈ values, d.wellFormed = true) ∧
      keys.length = values.length ∧ ∀ key ∈ keys, Sexpr.isSymbol key = true := by
  simp [wellFormed, wellFormedAll_iff, and_assoc]

theorem wellFormed_note {d note : Datum} {key : Bytes} (hd : d.wellFormed = true)
    (h : d.note? key = some note) : note.wellFormed = true := by
  unfold note? noteEntries at h
  split at h
  · exact (wellFormed_list.mp hd).2.1 note (of_mem_zip (Sexpr.mem_of_lookup h)).2
  · cases h

/-- Induction over data. -/
theorem induction {motive : Datum → Prop} (symbol : ∀ text, motive (.symbol text))
    (string : ∀ text, motive (.string text)) (integer : ∀ text, motive (.integer text))
    (ellipsis : motive .ellipsis)
    (list : ∀ items keys notes, (∀ d ∈ items, motive d) → (∀ d ∈ notes, motive d) →
      motive (.list items keys notes))
    (map : ∀ keys values, (∀ d ∈ values, motive d) → motive (.map keys values))
    (unknown : ∀ code, motive (.unknown code)) (d : Datum) : motive d :=
  @Datum.rec motive (fun ds => ∀ d ∈ ds, motive d) symbol string integer ellipsis
    list map unknown nofun (fun _ _ hd hds => forall_mem_cons.mpr ⟨hd, hds⟩) d

end Datum

/-! ## The scanner -/

/-- Glyphs as texts have them: ASCII codes are bytes, only the zero byte has a zero byte,
    and what is no replacement character is a text of its own. -/
structure Glyph.Proper (g : Glyph) : Prop where
  ascii : g.code < 0x80 → ∃ b : UInt8, g.bytes = [b] ∧ b.toNat = g.code
  nonzero : g.code ≠ 0 → 0 ∉ g.bytes
  complete : g.code ≠ replacement → glyphs g.bytes = [g]

variable {g : Glyph}

theorem Utf8.proper_of_mem {text : Bytes} (hg : g ∈ glyphs text) : g.Proper where
  ascii := bytes_of_ascii hg
  nonzero := zero_not_mem_bytes hg
  complete := glyphs_bytes hg

namespace Sexpr

variable {text key : Bytes} {d : Datum} {notes entries : Entries} {token : Token} {code : Nat}
  {b : UInt8}

/-- Tokens that are spelled as the scanner spells them. -/
def Lexeme.wellFormed : Lexeme → Bool
  | .symbol text => isSymbol text
  | .string text => !text.contains 0
  | .integer text => isIntegerText text
  | _ => true

set_option maxRecDepth 20000 in
theorem isSymbolCode_replacement : isSymbolCode replacement = false := by decide

theorem ne_replacement_of_isSymbolCode (hcode : isSymbolCode code = true) :
    code ≠ replacement := by
  rintro rfl
  rw [isSymbolCode_replacement] at hcode
  exact Bool.noConfusion hcode

theorem isSymbolCode_of_isLetter (hcode : isLetter code = true) : isSymbolCode code = true := by
  simp [isSymbolCode, hcode]

theorem isSymbolText_iff :
    isSymbolText text = true ↔ ∃ g gs, glyphs text = g :: gs ∧ isLetter g.code = true ∧
      ∀ h ∈ gs, isSymbolCode h.code = true := by
  unfold isSymbolText
  cases glyphs text with
  | nil => simp
  | cons g gs =>
    simp only [Bool.and_eq_true, all_eq_true]
    constructor
    · rintro ⟨hletter, hrest⟩
      exact ⟨g, gs, rfl, hletter, hrest⟩
    · rintro ⟨_, _, heq, hletter, hrest⟩
      cases heq
      exact ⟨hletter, hrest⟩

theorem isSymbolCode_of_mem (htext : isSymbolText text = true) :
    ∀ g ∈ glyphs text, isSymbolCode g.code = true := by
  rcases isSymbolText_iff.mp htext with ⟨g, gs, hglyphs, hletter, hrest⟩
  rw [hglyphs]
  exact forall_mem_cons.mpr ⟨isSymbolCode_of_isLetter hletter, hrest⟩

theorem isSymbolText_letter (hg : g.Proper) (hletter : isLetter g.code = true) :
    isSymbolText g.bytes = true := by
  have hcode := isSymbolCode_of_isLetter hletter
  have halone := hg.complete (ne_replacement_of_isSymbolCode hcode)
  exact isSymbolText_iff.mpr ⟨g, [], halone, hletter, nofun⟩

theorem isSymbolText_append (hg : g.Proper) (htext : isSymbolText text = true)
    (hcode : isSymbolCode g.code = true) : isSymbolText (text ++ g.bytes) = true := by
  have hcomplete (h : Glyph) (hh : h ∈ glyphs text) : h.code ≠ replacement :=
    ne_replacement_of_isSymbolCode (isSymbolCode_of_mem htext h hh)
  have halone := hg.complete (ne_replacement_of_isSymbolCode hcode)
  rcases isSymbolText_iff.mp htext with ⟨first, rest, hglyphs, hletter, hrest⟩
  refine isSymbolText_iff.mpr ⟨first, rest ++ [g], ?_, hletter, ?_⟩
  · rw [glyphs_append hcomplete, hglyphs, halone, cons_append]
  · intro h hh
    rcases mem_append.mp hh with hh | hh
    · exact hrest h hh
    · rw [mem_singleton.mp hh]
      exact hcode

theorem zero_not_mem_symbol (htext : isSymbol text = true) : 0 ∉ text := by
  simp only [isSymbol, Bool.or_eq_true, decide_eq_true_eq] at htext
  rcases htext with (htext | rfl) | rfl
  · intro hmem
    rw [← bytes_glyphs text, bytesOf, mem_flatMap] at hmem
    rcases hmem with ⟨g, hg, hbyte⟩
    have hcode := isSymbolCode_of_mem htext g hg
    refine zero_not_mem_bytes hg ?_ hbyte
    intro heq
    rw [heq] at hcode
    exact Bool.noConfusion hcode
  · decide
  · decide

theorem bytes_of_isAsciiDigit (hg : g.Proper) (hdigit : isAsciiDigit g.code = true) :
    ∃ b : UInt8, g.bytes = [b] ∧ isDigitByte b = true := by
  simp only [isAsciiDigit, Bool.and_eq_true, decide_eq_true_eq] at hdigit
  have hnine : '9'.toNat < 0x80 := by decide
  rcases hg.ascii (by omega) with ⟨b, hbytes, hcode⟩
  refine ⟨b, hbytes, ?_⟩
  simp only [isDigitByte, hcode, Bool.and_eq_true, decide_eq_true_eq]
  exact hdigit

theorem isIntegerText_digit (hb : isDigitByte b = true) : isIntegerText [b] = true := by
  unfold isIntegerText
  rw [splitSign_digit [] hb]
  simp [hb]

theorem isIntegerText_append (hb : isDigitByte b = true)
    (htext : isIntegerText text = true ∨ text = "+" ∨ text = "-") :
    isIntegerText (text ++ [b]) = true := by
  rcases htext with htext | rfl | rfl
  · cases text with
    | nil => exact absurd htext (by decide)
    | cons c rest =>
      have hsplit : (splitSign (c :: rest ++ [b])).2 =
          (splitSign (c :: rest)).2 ++ [b] := by
        simp only [cons_append, splitSign]
        split
        · rfl
        split <;> rfl
      unfold isIntegerText at htext ⊢
      rw [hsplit]
      simp only [Bool.and_eq_true, all_append, all_cons, all_nil, hb,
        Bool.and_true] at htext ⊢
      exact ⟨by simp, htext.2⟩
  · have hsplit : (splitSign ("+" ++ [b])).2 = [b] := rfl
    simp [isIntegerText, hsplit, hb]
  · have hsplit : (splitSign ("-" ++ [b])).2 = [b] := rfl
    simp [isIntegerText, hsplit, hb]

namespace Scan

variable {state next : Scan}

/-- What has been seen of a token is the beginning of a well-formed one. -/
def Sound : Scan → Prop
  | .symbol _ seen => isSymbolText seen.reverse = true
  | .sign _ seen => seen.reverse = "+" ∨ seen.reverse = "-"
  | .integer _ seen => isIntegerText seen.reverse = true
  | .string _ seen | .escape _ seen => 0 ∉ seen
  | .blank | .comment | .dots .. => True

def Step.Sound (step : Step) : Prop :=
  (∀ t ∈ step.1, t.lexeme.wellFormed = true) ∧ ∀ next, step.2 = .ok next → next.Sound

theorem Step.sound_of_state (hnext : next.Sound) : Step.Sound ([], .ok next) :=
  ⟨nofun, fun _ heq => Except.ok.inj heq ▸ hnext⟩

theorem Step.sound_error (cause : LexicalError) : Step.Sound ([], .error cause) := ⟨nofun, nofun⟩

theorem Step.sound_of_token (htoken : token.lexeme.wellFormed = true) (hnext : next.Sound) :
    Step.Sound ([token], .ok next) :=
  ⟨fun _ ht => mem_singleton.mp ht ▸ htoken, fun _ heq => Except.ok.inj heq ▸ hnext⟩

theorem sound_yield {lexeme : Lexeme} {start : Nat} {next : Step}
    (hlexeme : lexeme.wellFormed = true) (hnext : next.Sound) : (yield lexeme start next).Sound :=
  ⟨forall_mem_cons.mpr ⟨hlexeme, hnext.1⟩, hnext.2⟩

theorem sound_begin (offset : Nat) (hg : g.Proper) : (begin offset g).Sound := by
  unfold begin
  dsimp only
  split
  · exact Step.sound_of_state trivial
  split
  · exact Step.sound_of_token rfl trivial
  split
  · exact Step.sound_of_state trivial
  split
  · exact Step.sound_of_state not_mem_nil
  split
  · exact Step.sound_of_state trivial
  split
  · next hletter =>
    refine Step.sound_of_state ?_
    simpa [Scan.Sound] using isSymbolText_letter hg hletter
  split
  · next hdigit =>
    rcases bytes_of_isAsciiDigit hg hdigit with ⟨b, hbytes, hb⟩
    refine Step.sound_of_state ?_
    simpa [Scan.Sound, hbytes] using isIntegerText_digit hb
  split
  · next hsign =>
    refine Step.sound_of_state ?_
    simp only [Bool.or_eq_true, decide_eq_true_eq] at hsign
    have hplus : '+'.toNat < 0x80 := by decide
    have hminus : '-'.toNat < 0x80 := by decide
    rcases hg.ascii (by omega) with ⟨b, hbytes, hcode⟩
    simp only [hbytes]
    rcases hsign with hsign | hsign
    · left
      have hplus : '+'.toNat = ('+'.toNat.toUInt8).toNat := by decide
      rw [UInt8.toNat_inj.mp (hcode.trans (hsign.trans hplus))]
      rfl
    · right
      have hminus : '-'.toNat = ('-'.toNat.toUInt8).toNat := by decide
      rw [UInt8.toNat_inj.mp (hcode.trans (hsign.trans hminus))]
      rfl
  · exact Step.sound_error _

/-- One character ends well-formed tokens only. -/
theorem sound_feed (offset : Nat) (hg : g.Proper) (hstate : state.Sound) :
    (feed offset g state).Sound := by
  have hbegin := sound_begin offset hg
  cases state with
  | blank => exact hbegin
  | comment =>
    rw [feed]
    split
    · exact hbegin
    · exact Step.sound_of_state trivial
  -- What does not continue a lexeme ends it, and is read as the beginning of the next.
  | symbol start seen =>
    have hseen : isSymbolText seen.reverse = true := hstate
    rw [feed]
    split
    · next hcode =>
      refine Step.sound_of_state ?_
      simpa [Scan.Sound] using isSymbolText_append hg hseen hcode
    · exact sound_yield (by simp [Lexeme.wellFormed, isSymbol, hseen]) hbegin
  | sign start seen =>
    rw [feed]
    split
    · next hdigit =>
      rcases bytes_of_isAsciiDigit hg hdigit with ⟨b, hbytes, hb⟩
      refine Step.sound_of_state ?_
      simpa [Scan.Sound, hbytes] using isIntegerText_append hb (Or.inr hstate)
    · refine sound_yield ?_ hbegin
      rcases hstate with hsign | hsign <;> simp [Lexeme.wellFormed, isSymbol, hsign]
  | integer start seen =>
    have hseen : isIntegerText seen.reverse = true := hstate
    rw [feed]
    split
    · next hdigit =>
      rcases bytes_of_isAsciiDigit hg hdigit with ⟨b, hbytes, hb⟩
      refine Step.sound_of_state ?_
      simpa [Scan.Sound, hbytes] using isIntegerText_append hb (Or.inl hseen)
    · exact sound_yield hseen hbegin
  | string start seen =>
    have hseen : 0 ∉ seen := hstate
    rw [feed]
    split
    · refine Step.sound_of_token ?_ trivial
      simpa [Lexeme.wellFormed] using hseen
    split
    · exact Step.sound_error _
    split
    · exact Step.sound_of_state hseen
    · next hcode _ =>
      refine Step.sound_of_state ?_
      simpa [Scan.Sound] using ⟨hg.nonzero hcode, hseen⟩
  | escape start seen =>
    have hseen : 0 ∉ seen := hstate
    rw [feed]
    split
    · next hcode =>
      refine Step.sound_of_state ?_
      have hnonzero : g.code ≠ 0 := by
        intro hzero
        rw [hzero] at hcode
        exact absurd hcode (by decide)
      simpa [Scan.Sound] using ⟨hg.nonzero hnonzero, hseen⟩
    · exact Step.sound_error _
  | dots =>
    rw [feed]
    split
    · split
      · exact Step.sound_of_token rfl trivial
      · exact Step.sound_of_state trivial
    · exact Step.sound_error _

theorem sound_close (hstate : state.Sound) : ∀ t ∈ state.close.1, t.lexeme.wellFormed = true := by
  cases state with
  | symbol _ seen =>
    have hseen : isSymbolText seen.reverse = true := hstate
    simp [close, Lexeme.wellFormed, isSymbol, hseen]
  | sign =>
    rcases hstate with hsign | hsign <;> simp [close, Lexeme.wellFormed, isSymbol, hsign]
  | integer _ seen =>
    have hseen : isIntegerText seen.reverse = true := hstate
    simp [close, Lexeme.wellFormed, hseen]
  | blank | comment | string start seen | escape start seen | dots start count =>
    simp [close]

/-- All tokens of a scan are well formed. -/
theorem sound_run (hstate : state.Sound) (offset : Nat) {gs : List Glyph}
    (hgs : ∀ g ∈ gs, g.Proper) : ∀ t ∈ (run state offset gs).1, t.lexeme.wellFormed = true := by
  induction gs generalizing state offset with
  | nil => exact sound_close hstate
  | cons g gs ih =>
    have hstep := sound_feed offset (hgs g mem_cons_self) hstate
    unfold run
    split
    · next tokens cause hfeed =>
      rw [hfeed] at hstep
      exact hstep.1
    · next tokens next hfeed =>
      rw [hfeed] at hstep
      have hrest := ih (hstep.2 next rfl) (offset + g.bytes.length) fun h hh =>
        hgs h (mem_cons_of_mem _ hh)
      intro t ht
      rcases mem_append.mp ht with ht | ht
      · exact hstep.1 t ht
      · exact hrest t ht

end Scan

theorem scan_wellFormed (text : Bytes) : ∀ t ∈ (scan text).tokens, t.lexeme.wellFormed = true :=
  have hblank : Scan.Sound .blank := trivial
  Scan.sound_run hblank 0 fun _ hg => proper_of_mem hg

/-! ## The grammar -/

def SoundEntries (entries : Entries) : Prop :=
  ∀ e ∈ entries, isSymbol e.1 = true ∧ e.2.wellFormed = true

theorem SoundEntries.unzip (hentries : SoundEntries entries) :
    (∀ d ∈ entries.map Prod.snd, d.wellFormed = true) ∧
      (entries.map Prod.fst).length = (entries.map Prod.snd).length ∧
      ∀ key ∈ entries.map Prod.fst, isSymbol key = true :=
  ⟨forall_mem_map.mpr fun e he => (hentries e he).2, by simp,
    forall_mem_map.mpr fun e he => (hentries e he).1⟩

theorem SoundEntries.latest (hentries : SoundEntries entries) : SoundEntries (latest entries) := by
  intro e he
  rcases mem_filterMap.mp he with ⟨key, -, hlookup⟩
  rcases Option.map_eq_some_iff.mp hlookup with ⟨value, hvalue, rfl⟩
  exact hentries _ (mem_reverse.mp (mem_of_lookup hvalue))

/-- Phrases that stand for well-formed data. -/
def Phrase.WellFormed : Phrase → Prop
  | .datum d => d.wellFormed = true
  | .parts items notes => (∀ d ∈ items, d.wellFormed = true) ∧ SoundEntries notes
  | .map entries | .entries entries => SoundEntries entries

/-- Well-formed tokens stand for well-formed data. -/
theorem Derives.wellFormed {phrase : Phrase} {ls : List Lexeme} (h : Derives phrase ls)
    (hls : ∀ l ∈ ls, l.wellFormed = true) : phrase.WellFormed := by
  induction h with
  | symbol text | string text | integer text => exact hls _ mem_cons_self
  | ellipsis => rfl
  | @list _ notes _ _ ih =>
    obtain ⟨hitems, hnotes⟩ := ih fun l hl => hls l (by simp [hl])
    obtain ⟨hvalues, hlength, hkeys⟩ := hnotes.latest.unzip
    have hnodup := nodup_merge_nil notes
    rw [merge_nil_eq_latest] at hnodup
    exact Datum.wellFormed_list.mpr ⟨hitems, hvalues, hlength, hkeys, hnodup⟩
  | dictionary _ ih => exact Datum.wellFormed_map.mpr (ih hls).unzip
  | nothing => exact ⟨nofun, nofun⟩
  | item _ _ ihfirst ihrest =>
    obtain ⟨hfirst, hrest⟩ := forall_mem_append.mp hls
    exact ⟨forall_mem_cons.mpr ⟨ihfirst hfirst, (ihrest hrest).1⟩, (ihrest hrest).2⟩
  | note _ _ ihfirst ihrest =>
    obtain ⟨hfirst, hrest⟩ := forall_mem_append.mp hls
    have hmap := ihfirst fun l hl => hfirst l (mem_append_right _ hl)
    exact ⟨(ihrest hrest).1, forall_mem_append.mpr ⟨hmap, (ihrest hrest).2⟩⟩
  | empty => exact nofun
  | map _ ih | mapComma _ ih => exact ih fun l hl => hls l (by simp [hl])
  | entry key _ ih =>
    have hvalue := ih fun l hl => hls l (mem_append_right _ hl)
    exact forall_mem_cons.mpr ⟨⟨hls (.symbol key) (by simp), hvalue⟩, nofun⟩
  | entries key _ _ ihvalue ihothers =>
    have hvalue := ihvalue fun l hl => hls l (by simp [hl])
    have hothers := ihothers fun l hl => hls l (by simp [hl])
    exact forall_mem_cons.mpr ⟨⟨hls (.symbol key) (by simp), hvalue⟩, hothers⟩

/-- Reading gives well-formed data. -/
theorem read_wellFormed (hread : read text = .ok d) : d.wellFormed = true :=
  (derives_of_read hread).2.wellFormed (forall_mem_map.mpr (scan_wellFormed text))

end Sexpr

end Codegen
