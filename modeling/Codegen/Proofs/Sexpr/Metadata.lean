import Codegen.Proofs.Sexpr.Grammar

/-!
# Metadata Among the Items of a List

A list may hold any number of maps of metadata, anywhere among its items. Here a list is taken
as it is written, a sequence of parts in which items and maps are interleaved, and what it is
read as is computed from the parts: the items on the one hand and the entries of all maps on
the other, so that the interleaving is lost. The grammar does the reading; what is left is to
tell the parts apart in a derivation.

## Theorems

* `Part.read_merged`: Each key is kept once, with its last value.
-/

namespace Codegen.Sexpr

open List

/-- A part of a list as it is written: an item, or a map of metadata behind a caret. -/
inductive Part where
  | item (d : Datum)
  | note (entries : Entries)

namespace Part

def item? : Part → Option Datum
  | .item d => some d
  | .note _ => none

def note? : Part → Option Entries
  | .item _ => none
  | .note entries => some entries

/-- The lexemes of parts. -/
inductive Spells : List Part → List Lexeme → Prop where
  | nil : Spells [] []
  | item {d : Datum} {parts : List Part} {ls ms : List Lexeme} (first : Derives (.datum d) ls)
      (rest : Spells parts ms) : Spells (.item d :: parts) (ls ++ ms)
  | note {entries : Entries} {parts : List Part} {ls ms : List Lexeme}
      (first : Derives (.map entries) ls) (rest : Spells parts ms) :
      Spells (.note entries :: parts) ([.punct .caret] ++ ls ++ ms)

/-- A text is a list of parts. -/
def Written (text : Bytes) (parts : List Part) : Prop :=
  (scan text).failure = none ∧ ∃ ls, Spells parts ls ∧
    (scan text).tokens.map Token.lexeme = [.punct .openList] ++ ls ++ [.punct .closeList]

variable {parts : List Part} {ls : List Lexeme} {text : Bytes}

/-- Where metadata stand among the items makes no difference to what is inside a list. -/
theorem Spells.derives (h : Spells parts ls) :
    Derives (.parts (parts.filterMap item?) (parts.filterMap note?).flatten) ls := by
  induction h with
  | nil => exact .nothing
  | item first _ ih => exact .item first ih
  | note first _ ih => exact .note first ih

theorem exists_spells {items : List Datum} {notes : Entries}
    (h : Derives (.parts items notes) ls) : ∃ parts, Spells parts ls := by
  generalize hphrase : Phrase.parts items notes = phrase at h
  induction h generalizing items notes with
  | nothing => exact ⟨[], .nil⟩
  | item first _ _ ih =>
    obtain ⟨parts, hparts⟩ := ih rfl
    exact ⟨_, .item first hparts⟩
  | note first _ _ ih =>
    obtain ⟨parts, hparts⟩ := ih rfl
    exact ⟨_, .note first hparts⟩
  | _ => cases hphrase

/-- Every list that is read was written as parts. -/
theorem exists_written {items notes : List Datum} {keys : List Bytes}
    (h : read text = .ok (.list items keys notes)) : ∃ parts, Written text parts := by
  obtain ⟨hscan, hderives⟩ := derives_of_read h
  generalize hls : (scan text).tokens.map Token.lexeme = ls at hderives
  cases hderives with
  | list inside =>
    obtain ⟨parts, hparts⟩ := exists_spells inside
    exact ⟨parts, hscan, _, hparts, hls⟩

/-- What a list of parts is read as. -/
theorem Written.read (h : Written text parts) :
    let notes := merge [] (parts.filterMap note?).flatten
    Sexpr.read text =
      .ok (.list (parts.filterMap item?) (notes.map Prod.fst) (notes.map Prod.snd)) := by
  obtain ⟨hscan, ls, hspells, htokens⟩ := h
  refine read_of_derives hscan ?_
  rw [htokens, merge_nil_eq_latest]
  exact .list hspells.derives

/-- However metadata are spread over a list, each key is there once, where it came first and with
    the value it had last, beside the items in their order. Where the maps stand among the items
    makes no difference. -/
theorem read_merged :
    (∀ text items keys notes, read text = .ok (.list items keys notes) →
      ∃ parts, Written text parts) ∧
    ∀ text parts, Written text parts → ∃ keys notes,
      read text = .ok (.list (parts.filterMap item?) keys notes) ∧ keys.Nodup ∧
      keys = ((parts.filterMap note?).flatten.map Prod.fst).eraseDups ∧
      keys.length = notes.length ∧
      (∀ key, (Datum.list (parts.filterMap item?) keys notes).note? key =
        (parts.filterMap note?).flatten.reverse.lookup key) ∧
      ∀ text' parts', Written text' parts' → parts'.filterMap item? = parts.filterMap item? →
        parts'.filterMap note? = parts.filterMap note? → read text' = read text := by
  refine ⟨fun _ _ _ _ => exists_written, fun text parts h => ?_⟩
  refine ⟨_, _, h.read, nodup_merge_nil _, keys_merge_nil _, by simp, fun key => ?_, ?_⟩
  · rw [Datum.note?, Datum.noteEntries, ← zip_of_prod rfl rfl, lookup_merge_nil]
  · intro text' parts' h' hitems hnotes
    rw [h'.read, h.read, hitems, hnotes]

/-- Two maps with a key in common, before and between the items. -/
theorem read_merged_between :
    let text : Bytes := "(^\x7ba: 1, b: 2\x7d f ^\x7bc: 3, a: 4\x7d x)"
    let entry (key value : Bytes) : Bytes × Datum := (key, .integer value)
    let parts : List Part := [.note [entry "a" "1", entry "b" "2"], .item (.symbol "f"),
      .note [entry "c" "3", entry "a" "4"], .item (.symbol "x")]
    Written text parts ∧ ∃ keys notes,
      read text = .ok (.list [.symbol "f", .symbol "x"] keys notes) ∧ keys = ["a", "b", "c"] := by
  intro text entry parts
  have htwo (key value other value' : Bytes) : Derives (.map [entry key value, entry other value'])
      [.punct .openMap, .symbol key, .punct .colon, .integer value, .punct .comma, .symbol other,
        .punct .colon, .integer value', .punct .closeMap] :=
    .map (.entries key (.integer value) (.entry other (.integer value')))
  have hwritten : Written text parts := ⟨by decide, _,
    .note (htwo _ _ _ _) (.item (.symbol _) (.note (htwo _ _ _ _) (.item (.symbol _) .nil))),
    by decide⟩
  obtain ⟨keys, notes, hread, -, hkeys, -⟩ := read_merged.2 text parts hwritten
  exact ⟨hwritten, keys, notes, hread, hkeys.trans (by decide)⟩

end Part

end Codegen.Sexpr
