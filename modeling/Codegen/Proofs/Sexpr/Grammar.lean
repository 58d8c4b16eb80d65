import Codegen.Sexpr.Reader
import Mathlib.Data.List.Basic
import Mathlib.Data.List.Induction

/-!
# The Grammar of Documents

The reader is an automaton that takes one token at a time. This module states the grammar it
is meant for as a set of rules, with what each phrase stands for, and shows that the reader
accepts exactly the texts that the rules derive, and gives what they stand for.

A derivation groups a whole text at once, and the reader only knows what it has read. The
bridge from a run to a derivation is what has been read: every open list and every open map
on the stack is a beginning of a phrase (`Opened`), one token extends it or completes a phrase
(`State.traces_step`), and when the stack is empty the phrase is the document. The way back is
an induction on the derivation: whatever the reader has on its stack, it takes the lexemes of
a phrase to the state in which the phrase is complete.

Metadata may be given in several maps and between items. The rules collect the entries in the
order in which they stand, and only the finished list says what they come to: each key once,
where it was first, with the value it had last (`latest`). The reader merges map by map.

## Theorems

* `read_eq_ok_iff`: The reader accepts exactly the grammar.
-/

namespace Codegen.Sexpr

open List

variable {ls : List Lexeme} {d : Datum}

/-! ## Metadata -/

/-- Entries with each key once. -/
def latest (entries : Entries) : Entries :=
  (entries.map Prod.fst).eraseDups.filterMap fun key =>
    (entries.reverse.lookup key).map fun value => (key, value)

theorem lookup_cons_if (k : Bytes) (e : Bytes × Datum) (rest : Entries) :
    (e :: rest).lookup k = if k = e.1 then some e.2 else rest.lookup k := by
  by_cases hk : k = e.1
  · rw [lookup_cons, beq_iff_eq.mpr hk, if_pos hk]
  · rw [lookup_cons, beq_eq_false_iff_ne.mpr hk, if_neg hk]

theorem mem_of_lookup {entries : Entries} {key : Bytes} (h : entries.lookup key = some d) :
    (key, d) ∈ entries := by
  rcases lookup_eq_some_iff.mp h with ⟨before, after, rfl, -⟩
  simp

theorem filterMap_lookup {entries : Entries} (hnodup : (entries.map Prod.fst).Nodup) :
    ((entries.map Prod.fst).filterMap fun key =>
      (entries.lookup key).map fun value => (key, value)) = entries := by
  induction entries with
  | nil => rfl
  | cons e rest ih =>
    rcases e with ⟨key, value⟩
    rw [map_cons, nodup_cons] at hnodup
    have hfirst : ((key, value) :: rest).lookup key = some value := by simp
    rw [map_cons, filterMap_cons, hfirst]
    -- The other keys are not the first one, so the first entry is not found under them.
    have hothers : ∀ k ∈ rest.map Prod.fst,
        (((key, value) :: rest).lookup k).map (fun v => (k, v)) =
          (rest.lookup k).map (fun v => (k, v)) := by
      intro k hk
      have hne : k ≠ key := fun heq => hnodup.1 (heq ▸ hk)
      rw [lookup_cons_if, if_neg hne]
    rw [filterMap_congr hothers, ih hnodup.2]
    rfl

theorem lookup_mergeEntry (entries : Entries) (key : Bytes) (value : Datum) (k : Bytes) :
    (mergeEntry entries key value).lookup k =
      if k = key then some value else entries.lookup k := by
  induction entries with
  | nil => exact lookup_cons_if k (key, value) []
  | cons e _ ih =>
    rcases e with ⟨first, v⟩
    rw [mergeEntry]
    by_cases hfirst : first = key
    · subst hfirst
      by_cases hk : k = first <;> simp [lookup_cons_if, hk]
    · rw [if_neg hfirst, lookup_cons_if, lookup_cons_if, ih]
      by_cases hk : k = first
      · subst hk
        simp [hfirst]
      · simp [if_neg hk]

theorem keys_mergeEntry (entries : Entries) (key : Bytes) (value : Datum) :
    (mergeEntry entries key value).map Prod.fst =
      if key ∈ entries.map Prod.fst then entries.map Prod.fst
      else entries.map Prod.fst ++ [key] := by
  induction entries with
  | nil => simp [mergeEntry]
  | cons e _ ih =>
    rcases e with ⟨k, v⟩
    unfold mergeEntry
    by_cases hk : k = key
    · subst hk
      simp
    · simp only [if_neg hk, map_cons, ih, mem_cons, Ne.symm hk, false_or]
      split <;> simp

theorem nodup_mergeEntry {notes : Entries} (hnodup : (notes.map Prod.fst).Nodup) (key : Bytes) (value : Datum) :
    ((mergeEntry notes key value).map Prod.fst).Nodup := by
  rw [keys_mergeEntry]
  split
  · exact hnodup
  · next hnew =>
    refine nodup_append.mpr ⟨hnodup, nodup_cons.mpr ⟨nofun, nodup_nil⟩, ?_⟩
    intro k hk l hl heq
    rw [mem_singleton.mp hl] at heq
    exact hnew (heq ▸ hk)

theorem merge_concat (notes entries : Entries) (key : Bytes) (value : Datum) :
    merge notes (entries ++ [(key, value)]) = mergeEntry (merge notes entries) key value := by
  unfold merge
  rw [foldl_append]
  rfl

theorem merge_append (notes first second : Entries) :
    merge notes (first ++ second) = merge (merge notes first) second := by
  exact foldl_append

theorem keys_merge_nil (entries : Entries) :
    (merge [] entries).map Prod.fst = (entries.map Prod.fst).eraseDups := by
  -- Merging goes from left to right, so the entry that is taken off is the last one.
  induction entries using reverseRecOn with
  | nil => rfl
  | append_singleton entries e ih =>
    rcases e with ⟨key, value⟩
    rw [merge_concat, keys_mergeEntry, ih, map_append, eraseDups_append]
    by_cases hkey : key ∈ entries.map Prod.fst
    · simp [removeAll, hkey]
    · simp [removeAll, hkey, eraseDups_cons]

theorem lookup_merge_nil (entries : Entries) (key : Bytes) :
    (merge [] entries).lookup key = entries.reverse.lookup key := by
  induction entries using reverseRecOn with
  | nil => rfl
  | append_singleton _ _ ih =>
    rw [merge_concat, lookup_mergeEntry, ih, reverse_append, reverse_singleton,
      singleton_append, lookup_cons_if]

theorem nodup_merge_nil (entries : Entries) : ((merge [] entries).map Prod.fst).Nodup := by
  induction entries using reverseRecOn with
  | nil => exact nodup_nil
  | append_singleton _ e ih =>
    rw [merge_concat]
    exact nodup_mergeEntry ih e.1 e.2

/-- Merging entries one by one leaves the latest. -/
theorem merge_nil_eq_latest (entries : Entries) : merge [] entries = latest entries := by
  have hnodup := nodup_merge_nil entries
  rw [← filterMap_lookup hnodup, keys_merge_nil]
  unfold latest
  simp [lookup_merge_nil]

/-! ## The rules -/

/-- The phrases of the grammar, with what they stand for: a datum, what is inside a list, a
    map, and what is inside a map that is not empty. Metadata inside a list are collected in
    the order in which they stand. -/
inductive Phrase where
  | datum (d : Datum)
  | parts (items : List Datum) (notes : Entries)
  | map (entries : Entries)
  | entries (entries : Entries)

/-- The lexemes of a phrase. -/
inductive Derives : Phrase → List Lexeme → Prop where
  | symbol (text : Bytes) : Derives (.datum (.symbol text)) [.symbol text]
  | string (text : Bytes) : Derives (.datum (.string text)) [.string text]
  | integer (text : Bytes) : Derives (.datum (.integer text)) [.integer text]
  | ellipsis : Derives (.datum .ellipsis) [.ellipsis]
  | list {items : List Datum} {notes : Entries} {ls : List Lexeme}
      (inside : Derives (.parts items notes) ls) :
      Derives (.datum (.list items ((latest notes).map Prod.fst) ((latest notes).map Prod.snd)))
        ([.punct .openList] ++ ls ++ [.punct .closeList])
  | dictionary {entries : Entries} {ls : List Lexeme} (whole : Derives (.map entries) ls) :
      Derives (.datum (.map (entries.map Prod.fst) (entries.map Prod.snd))) ls
  | nothing : Derives (.parts [] []) []
  | item {d : Datum} {items : List Datum} {notes : Entries} {ls ms : List Lexeme}
      (first : Derives (.datum d) ls) (rest : Derives (.parts items notes) ms) :
      Derives (.parts (d :: items) notes) (ls ++ ms)
  | note {entries : Entries} {items : List Datum} {notes : Entries} {ls ms : List Lexeme}
      (first : Derives (.map entries) ls) (rest : Derives (.parts items notes) ms) :
      Derives (.parts items (entries ++ notes)) ([.punct .caret] ++ ls ++ ms)
  | empty : Derives (.map []) [.punct .openMap, .punct .closeMap]
  | map {entries : Entries} {ls : List Lexeme} (inside : Derives (.entries entries) ls) :
      Derives (.map entries) ([.punct .openMap] ++ ls ++ [.punct .closeMap])
  | mapComma {entries : Entries} {ls : List Lexeme} (inside : Derives (.entries entries) ls) :
      Derives (.map entries) ([.punct .openMap] ++ ls ++ [.punct .comma, .punct .closeMap])
  | entry (key : Bytes) {d : Datum} {ls : List Lexeme} (value : Derives (.datum d) ls) :
      Derives (.entries [(key, d)]) ([.symbol key, .punct .colon] ++ ls)
  | entries (key : Bytes) {d : Datum} {rest : Entries} {ls ms : List Lexeme}
      (value : Derives (.datum d) ls) (others : Derives (.entries rest) ms) :
      Derives (.entries ((key, d) :: rest))
        ([.symbol key, .punct .colon] ++ ls ++ [.punct .comma] ++ ms)

/-! ## From runs to derivations -/

section Concat

variable {items : List Datum} {notes entries : Entries} {ms : List Lexeme}

theorem Derives.parts_append {more : List Datum} {moreNotes : Entries}
    (h : Derives (.parts items notes) ls) (hmore : Derives (.parts more moreNotes) ms) :
    Derives (.parts (items ++ more) (notes ++ moreNotes)) (ls ++ ms) := by
  -- The rules add parts in front. The induction is on the first derivation, whose phrase is an
  -- equation so that the rules for other phrases fall away.
  generalize hphrase : Phrase.parts items notes = phrase at h
  induction h generalizing items notes with
  | nothing =>
    cases hphrase
    exact hmore
  | item first _ _ ih =>
    cases hphrase
    rw [append_assoc]
    exact .item first (ih rfl)
  | note first _ _ ih =>
    cases hphrase
    rw [append_assoc, append_assoc]
    exact .note first (ih rfl)
  | _ => cases hphrase

theorem Derives.parts_item (h : Derives (.parts items notes) ls) (hd : Derives (.datum d) ms) :
    Derives (.parts (items ++ [d]) notes) (ls ++ ms) := by
  have hone := Derives.item hd .nothing
  have hall := h.parts_append hone
  rwa [append_nil, append_nil] at hall

theorem Derives.parts_note (h : Derives (.parts items notes) ls) (hmap : Derives (.map entries) ms) :
    Derives (.parts items (notes ++ entries)) (ls ++ ([.punct .caret] ++ ms)) := by
  have hone := Derives.note hmap .nothing
  have hall := h.parts_append hone
  rwa [append_nil, append_nil, append_nil] at hall

theorem Derives.entries_concat (h : Derives (.entries entries) ls) (key : Bytes)
    (hd : Derives (.datum d) ms) :
    Derives (.entries (entries ++ [(key, d)]))
      (ls ++ [.punct .comma] ++ ([.symbol key, .punct .colon] ++ ms)) := by
  generalize hphrase : Phrase.entries entries = phrase at h
  induction h generalizing entries with
  | entry first value =>
    cases hphrase
    exact .entries first value (.entry key hd)
  | entries first value _ _ ih =>
    cases hphrase
    rw [append_assoc _ _ [Lexeme.punct .comma], append_assoc]
    exact .entries first value (ih rfl)
  | _ => cases hphrase

end Concat

/-- What has been read of a map that waits for a key: nothing, or entries and a comma. -/
def Begun (entries : Entries) (ls : List Lexeme) : Prop :=
  entries = [] ∧ ls = [] ∨ ∃ ms, Derives (.entries entries.reverse) ms ∧ ls = ms ++ [.punct .comma]

theorem Begun.entries {entries : Entries} {ms : List Lexeme} (h : Begun entries ls) (key : Bytes)
    (hd : Derives (.datum d) ms) :
    Derives (.entries ((key, d) :: entries).reverse)
      (ls ++ ([.symbol key, .punct .colon] ++ ms)) := by
  rw [reverse_cons]
  rcases h with ⟨rfl, rfl⟩ | ⟨before, hbefore, rfl⟩
  · exact .entry key hd
  · exact hbefore.entries_concat key hd

/-- Stacks that take any datum, and not only a map of metadata. -/
def Ready (stack : List Frame) : Prop :=
  ∀ items notes below, stack ≠ .note items notes :: below

/-- What has been read of lists and maps that are open. -/
inductive Opened : List Frame → List Lexeme → Prop where
  | nil : Opened [] []
  | item {items : List Datum} {notes : Entries} {stack : List Frame} {before ls : List Lexeme}
      (below : Opened stack before) (ready : Ready stack)
      (inside : Derives (.parts items.reverse notes) ls) :
      Opened (.item items (merge [] notes) :: stack) (before ++ ([.punct .openList] ++ ls))
  | note {items : List Datum} {notes : Entries} {stack : List Frame} {before ls : List Lexeme}
      (below : Opened stack before) (ready : Ready stack)
      (inside : Derives (.parts items.reverse notes) ls) :
      Opened (.note items (merge [] notes) :: stack)
        (before ++ ([.punct .openList] ++ ls) ++ [.punct .caret])
  | value {entries : Entries} {key : Bytes} {stack : List Frame} {before ls : List Lexeme}
      (below : Opened stack before) (inside : Begun entries ls) :
      Opened (.value entries key :: stack)
        (before ++ ([.punct .openMap] ++ ls) ++ [.symbol key, .punct .colon])

namespace State

variable {stack : List Frame} {before : List Lexeme} {token : Token} {next state : State}

/-- What has been read in a state. -/
def Traces : State → List Lexeme → Prop
  | .datum stack, ls => Opened stack ls ∧ Ready stack
  | .inList items notes stack, ls => Opened (.item items notes :: stack) ls
  | .afterCaret items notes stack, ls => Opened (.note items notes :: stack) ls
  | .inMap entries stack, ls =>
    ∃ before inside, Opened stack before ∧ Begun entries inside ∧
      ls = before ++ ([.punct .openMap] ++ inside)
  | .afterKey entries key stack, ls =>
    ∃ before inside, Opened stack before ∧ Begun entries inside ∧
      ls = before ++ ([.punct .openMap] ++ inside) ++ [.symbol key]
  | .afterValue entries stack, ls =>
    ∃ before inside, Opened stack before ∧ Derives (.entries entries.reverse) inside ∧
      ls = before ++ ([.punct .openMap] ++ inside)
  | .done d, ls => Derives (.datum d) ls

theorem traces_deliver (hstack : Opened stack before) (hready : Ready stack)
    (hd : Derives (.datum d) ls) : (deliver d stack).Traces (before ++ ls) := by
  cases hstack with
  | nil => exact hd
  | item below ready inside =>
    have hparts := inside.parts_item hd
    rw [← reverse_cons] at hparts
    rw [append_assoc]
    exact Opened.item below ready hparts
  -- Only a map can follow a caret, and a map is not delivered there.
  | note => exact absurd rfl (hready _ _ _)
  | @value entries key stack before inner below inside =>
    refine ⟨before, _, below, inside.entries key hd, ?_⟩
    simp

theorem traces_closeMap {entries : Entries} (hstack : Opened stack before)
    (hmap : Derives (.map entries.reverse) ls) :
    (closeMap entries stack).Traces (before ++ ls) := by
  unfold closeMap
  split
  · next items notes below =>
    cases hstack with
    | note below ready inside =>
      -- Merging the entries of this map last is merging all entries in order.
      have hopened := Opened.item below ready (inside.parts_note hmap)
      rw [merge_append] at hopened
      simp only [append_assoc] at hopened ⊢
      exact hopened
  · next hnote => exact traces_deliver hstack (fun _ _ _ heq => hnote _ _ _ heq) (.dictionary hmap)

theorem traces_begin (hstack : Opened stack before) (hready : Ready stack)
    (hbegin : begin token stack = .ok next) : next.Traces (before ++ [token.lexeme]) := by
  unfold begin at hbegin
  split at hbegin <;> cases hbegin
  · next text hlexeme =>
    rw [hlexeme]
    exact traces_deliver hstack hready (.symbol text)
  · next text hlexeme =>
    rw [hlexeme]
    exact traces_deliver hstack hready (.string text)
  · next text hlexeme =>
    rw [hlexeme]
    exact traces_deliver hstack hready (.integer text)
  · next hlexeme =>
    rw [hlexeme]
    exact traces_deliver hstack hready .ellipsis
  · next hlexeme =>
    rw [hlexeme]
    exact @Opened.item [] [] stack before [] hstack hready .nothing
  · next hlexeme =>
    rw [hlexeme]
    exact ⟨before, [], hstack, Or.inl ⟨rfl, rfl⟩, rfl⟩

/-- A step adds a lexeme to what has been read. -/
theorem traces_step (hstate : state.Traces before) (hstep : state.step token = .ok next) :
    next.Traces (before ++ [token.lexeme]) := by
  cases state with
  | datum => exact traces_begin hstate.1 hstate.2 hstep
  | inList items notes stack =>
    have hopened : Opened (.item items notes :: stack) before := hstate
    unfold step at hstep
    dsimp only at hstep
    split at hstep
    · next hlexeme =>
      rw [← Except.ok.inj hstep, hlexeme]
      cases hopened with
      | item below ready inside =>
        -- The metadata were merged map by map, and the finished list has the latest.
        rw [merge_nil_eq_latest, append_assoc]
        exact traces_deliver below ready (.list inside)
    · next hlexeme =>
      rw [← Except.ok.inj hstep, hlexeme]
      cases hopened with
      | item below ready inside => exact Opened.note below ready inside
    · cases hstep
    · exact traces_begin hopened nofun hstep
  | afterCaret items notes stack =>
    unfold step at hstep
    dsimp only at hstep
    split at hstep <;> cases hstep
    next hlexeme =>
    rw [hlexeme]
    exact ⟨before, [], hstate, Or.inl ⟨rfl, rfl⟩, rfl⟩
  | inMap entries stack =>
    rcases hstate with ⟨outer, inside, hstack, hbegun, rfl⟩
    unfold step at hstep
    dsimp only at hstep
    split at hstep <;> cases hstep
    · next hlexeme =>
      rw [hlexeme, append_assoc]
      refine traces_closeMap hstack ?_
      -- A map may end where a key is expected: at once, or behind a comma.
      rcases hbegun with ⟨rfl, rfl⟩ | ⟨ms, hms, rfl⟩
      · exact .empty
      · rw [append_assoc, append_assoc]
        exact .mapComma hms
    · next key hlexeme =>
      rw [hlexeme]
      exact ⟨outer, inside, hstack, hbegun, rfl⟩
  | afterKey entries key stack =>
    rcases hstate with ⟨outer, inside, hstack, hbegun, rfl⟩
    unfold step at hstep
    dsimp only at hstep
    split at hstep <;> cases hstep
    next hlexeme =>
    refine ⟨?_, nofun⟩
    rw [hlexeme, append_assoc]
    exact Opened.value hstack hbegun
  | afterValue entries stack =>
    rcases hstate with ⟨outer, inside, hstack, hentries, rfl⟩
    unfold step at hstep
    dsimp only at hstep
    split at hstep <;> cases hstep
    · next hlexeme =>
      refine ⟨outer, _, hstack, Or.inr ⟨inside, hentries, rfl⟩, ?_⟩
      simp [hlexeme]
    · next hlexeme =>
      rw [hlexeme, append_assoc]
      exact traces_closeMap hstack (.map hentries)
  | done => cases hstep

/-- A run that accepts is a derivation. -/
theorem derives_of_run {finish : Token} {tokens : List Token} (hstate : state.Traces before)
    (hrun : (State.run finish state tokens).result = .ok d) :
    Derives (.datum d) (before ++ tokens.map Token.lexeme) ∧
      (State.run finish state tokens).remaining = [] := by
  fun_induction State.run finish state tokens generalizing before with
  | case1 e =>
    -- The reader is done and no tokens are left.
    cases hrun
    rw [map_nil, append_nil]
    exact ⟨hstate, rfl⟩
  | case2 => cases hrun
  | case3 => cases hrun
  | case4 => cases hrun
  | case5 state t rest hnotdone next hstep ih =>
    -- A token is read, and what has been read grows by it.
    have hrest := ih (traces_step hstate hstep) hrun
    rw [append_assoc] at hrest
    exact hrest
  | case6 => cases hrun

end State

/-! ## From derivations to runs -/

namespace State

variable {state next : State} {stack : List Frame} {l : Lexeme}

/-- The reader goes from one state to another on tokens with these lexemes. -/
def Takes (state : State) (ls : List Lexeme) (next : State) : Prop :=
  ∀ finish ts more, ts.map Token.lexeme = ls →
    State.run finish state (ts ++ more) = State.run finish next more

theorem Takes.refl (state : State) : Takes state [] state := by
  intro finish ts more hts
  rw [map_eq_nil_iff.mp hts]
  rfl

theorem Takes.trans {middle : State} {ms : List Lexeme} (hfirst : Takes state ls middle)
    (hsecond : Takes middle ms next) : Takes state (ls ++ ms) next := by
  intro finish ts more hts
  rcases map_eq_append_iff.mp hts with ⟨us, vs, rfl, hus, hvs⟩
  rw [append_assoc, hfirst finish us _ hus, hsecond finish vs more hvs]

theorem takes_step (hstep : ∀ offset, state.step ⟨l, offset⟩ = .ok next) : Takes state [l] next := by
  intro finish ts more hts
  rcases map_eq_singleton_iff.mp hts with ⟨⟨_, offset⟩, rfl, rfl⟩
  have hnext := hstep offset
  rw [singleton_append]
  cases state with
  | done => cases hnext
  | _ =>
    rw [State.run, hnext]
    exact fun _ hdone => nomatch hdone

/-- States that wait for a datum, with the stack that takes it. -/
inductive Awaits : State → List Frame → Prop where
  | datum {stack : List Frame} (hstack : Ready stack) :
      Awaits (.datum stack) stack
  | inList (items : List Datum) (notes : Entries) (stack : List Frame) :
      Awaits (.inList items notes stack) (.item items notes :: stack)

theorem Awaits.takes (hstate : Awaits state stack)
    (hbegin : ∀ offset, begin ⟨l, offset⟩ stack = .ok next) : Takes state [l] next := by
  refine takes_step fun offset => ?_
  have hnext := hbegin offset
  cases hstate with
  | datum => exact hnext
  | inList =>
    -- Inside a list three tokens mean something else, and none of them begins a datum.
    unfold step
    dsimp only
    split
    · cases hnext
    · cases hnext
    · cases hnext
    · exact hnext

theorem Awaits.closeMap (hstate : Awaits state stack) (entries : Entries) :
    closeMap entries stack =
      deliver (.map (entries.reverse.map Prod.fst) (entries.reverse.map Prod.snd)) stack := by
  unfold State.closeMap
  split
  · next items notes below =>
    cases hstate with
    | datum hstack => exact absurd rfl (hstack items notes below)
  · rfl

end State

/-- What the reader does with the lexemes of a phrase. -/
def Phrase.Taken (ls : List Lexeme) : Phrase → Prop
  | .datum d => ∀ state stack, State.Awaits state stack → State.Takes state ls (.deliver d stack)
  | .parts items notes => ∀ before collected stack,
    State.Takes (.inList before collected stack) ls
      (.inList (items.reverse ++ before) (merge collected notes) stack)
  | .map es => ∃ inside, ls = [.punct .openMap] ++ inside ∧
    ∀ stack, State.Takes (.inMap [] stack) inside (.closeMap es.reverse stack)
  | .entries es => ∀ before stack,
    State.Takes (.inMap before stack) ls (.afterValue (es.reverse ++ before) stack)

section Complete

open State

variable {stack : List Frame} {entries : Entries}

theorem takes_key (key : Bytes) :
    Takes (.inMap entries stack) [.symbol key, .punct .colon]
      (.datum (.value entries key :: stack)) := by
  have hkey : Takes (.inMap entries stack) [.symbol key] (.afterKey entries key stack) :=
    takes_step fun _ => rfl
  have hcolon : Takes (.afterKey entries key stack) [.punct .colon]
      (.datum (.value entries key :: stack)) :=
    takes_step fun _ => rfl
  exact hkey.trans hcolon

theorem takes_comma :
    Takes (.afterValue entries stack) [.punct .comma] (.inMap entries stack) :=
  takes_step fun _ => rfl

theorem takes_closeMap :
    Takes (.afterValue entries stack) [.punct .closeMap] (closeMap entries stack) :=
  takes_step fun _ => rfl

theorem takes_closeMap_key :
    Takes (.inMap entries stack) [.punct .closeMap] (closeMap entries stack) :=
  takes_step fun _ => rfl

/-- A derivation is a run that accepts. -/
theorem Derives.taken {phrase : Phrase} (h : Derives phrase ls) : phrase.Taken ls := by
  induction h with
  | symbol text | string text | integer text | ellipsis =>
    exact fun state stack hstate => hstate.takes fun _ => rfl
  | list _ ih =>
    intro state stack hstate
    have hopen : Takes state [.punct .openList] (.inList [] [] stack) :=
      hstate.takes fun _ => rfl
    have hinside := ih [] [] stack
    rw [append_nil, merge_nil_eq_latest] at hinside
    have hclose (items : List Datum) (notes : Entries) : Takes (.inList items notes stack)
        [.punct .closeList] (closeList items notes stack) :=
      takes_step fun _ => rfl
    have hwhole := (hopen.trans hinside).trans (hclose _ _)
    rw [closeList, reverse_reverse] at hwhole
    exact hwhole
  | dictionary _ ih =>
    intro state stack hstate
    -- The opening brace is read as the beginning of a datum here, and behind a caret below.
    rcases ih with ⟨inside, rfl, hinside⟩
    have hopen : Takes state [.punct .openMap] (.inMap [] stack) :=
      hstate.takes fun _ => rfl
    have hwhole := hopen.trans (hinside stack)
    rw [hstate.closeMap, reverse_reverse] at hwhole
    exact hwhole
  | nothing => exact fun before collected stack => Takes.refl _
  | item _ _ ihfirst ihrest =>
    intro before collected stack
    have hitem := ihfirst _ _ (.inList before collected stack)
    have hitems := hitem.trans (ihrest _ collected stack)
    rw [reverse_cons, append_assoc]
    exact hitems
  | note _ _ ihfirst ihrest =>
    intro before collected stack
    rcases ihfirst with ⟨inside, rfl, hinside⟩
    have hcaret : Takes (.inList before collected stack) [.punct .caret]
        (.afterCaret before collected stack) :=
      takes_step fun _ => rfl
    have hbrace : Takes (.afterCaret before collected stack) [.punct .openMap]
        (.inMap [] (.note before collected :: stack)) :=
      takes_step fun _ => rfl
    have hnote := hcaret.trans (hbrace.trans (hinside (.note before collected :: stack)))
    rw [closeMap, reverse_reverse] at hnote
    -- The entries of this map are merged before those of the maps that follow.
    rw [merge_append]
    exact hnote.trans (ihrest before _ stack)
  | empty => exact ⟨_, rfl, fun stack => takes_closeMap_key⟩
  | map _ ih =>
    refine ⟨_, append_assoc .., fun stack => ?_⟩
    have hinside := ih [] stack
    rw [append_nil] at hinside
    exact hinside.trans takes_closeMap
  | mapComma _ ih =>
    refine ⟨_, append_assoc .., fun stack => ?_⟩
    have hinside := ih [] stack
    rw [append_nil] at hinside
    exact hinside.trans (takes_comma.trans takes_closeMap_key)
  | entry key _ ih =>
    intro before stack
    exact (takes_key key).trans (ih _ (.value before key :: stack) (.datum nofun))
  | entries key _ _ ihvalue ihothers =>
    intro before stack
    have hentry := (takes_key key).trans (ihvalue _ (.value before key :: stack) (.datum nofun))
    rw [reverse_cons, append_assoc (reverse _)]
    exact (hentry.trans takes_comma).trans (ihothers _ stack)

end Complete

/-! ## Documents -/

theorem read_of_derives {text : Bytes} (hscan : (scan text).failure = none)
    (h : Derives (.datum d) ((scan text).tokens.map Token.lexeme)) : read text = .ok d := by
  have htakes := h.taken (.datum []) [] (.datum nofun)
  have hrun := htakes ⟨.finish, (scan text).length⟩ (scan text).tokens [] rfl
  rw [append_nil] at hrun
  unfold read
  dsimp only
  rw [hscan, hrun]
  rfl

theorem derives_of_read {text : Bytes} (hread : read text = .ok d) :
    (scan text).failure = none ∧ Derives (.datum d) ((scan text).tokens.map Token.lexeme) := by
  unfold read at hread
  dsimp only at hread
  have hstart : (State.datum []).Traces [] := ⟨.nil, nofun⟩
  split at hread
  · cases hread
  · cases hread
  · next failure remaining hnil hone =>
    rcases State.derives_of_run hstart hread with ⟨hderives, hremaining⟩
    refine ⟨?_, hderives⟩
    -- A lexical error is reported where no tokens remain, and none remain.
    cases hfailure : (scan text).failure with
    | none => rfl
    | some cause => exact absurd hremaining (hnil cause hfailure)

/-- A text is read as a datum exactly when it consists of tokens that the grammar derives the
    datum from: no token is left over, and every datum of the grammar is accepted. -/
theorem read_eq_ok_iff (text : Bytes) (d : Datum) :
    read text = .ok d ↔
      (scan text).failure = none ∧ Derives (.datum d) ((scan text).tokens.map Token.lexeme) :=
  ⟨derives_of_read, fun h => read_of_derives h.1 h.2⟩

end Codegen.Sexpr
