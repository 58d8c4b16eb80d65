import Codegen.Proofs.Sexpr.WellFormed
import Codegen.Sexpr.Pattern

/-!
# What Patterns Match

A document is a pattern as well, and one may expect that it matches itself. Its metadata have each
key once, so each value is compared with itself. A map may have a key several times, and then each
of its values has to match all of them: this is the only reason for which a document does not
match itself.

A pattern is weakened by an ellipsis in the place of one of its parts, or by leaving out a key with
its value. An ellipsis among the items of a list is in the place of all that follow, so it says even
less than the item that it replaces, and what the pattern matched before it still matches.

The metadata of a list and the entries of a map are compared in a loop. Both loops are stated once,
as what has to hold of each key for them to succeed.

## Theorems

* `check_self`: Documents match themselves.
* `check_weaker`: A weaker pattern matches.
-/

namespace Codegen

open List

namespace Datum

/-- The parts of a datum. -/
inductive Within : Datum → Datum → Prop where
  | self (d) : Within d d
  | item {d e items keys notes} (h : Within d e) (he : e ∈ items) :
    Within d (.list items keys notes)
  | note {d e items keys notes} (h : Within d e) (he : e ∈ notes) :
    Within d (.list items keys notes)
  | value {d e keys values} (h : Within d e) (he : e ∈ values) : Within d (.map keys values)

/-- Data whose maps have one value for each key. -/
def Univocal (d : Datum) : Prop :=
  ∀ keys values, Within (.map keys values) d → ∀ key v w,
    (key, v) ∈ keys.zip values → (key, w) ∈ keys.zip values → v = w

end Datum

namespace Pattern

/-- A pattern, and the pattern with one of its parts weakened. -/
inductive Weaker : Datum → Datum → Prop where
  | hole (p) : Weaker p .ellipsis
  | item {p q items i keys notes} (h : Weaker p q) (hi : items[i]? = some p) :
    Weaker (.list items keys notes) (.list (items.set i q) keys notes)
  | note {p q notes i items keys} (h : Weaker p q) (hi : notes[i]? = some p) :
    Weaker (.list items keys notes) (.list items keys (notes.set i q))
  | value {p q values i keys} (h : Weaker p q) (hi : values[i]? = some p) :
    Weaker (.map keys values) (.map keys (values.set i q))
  | dropNote {items keys notes} (i) :
    Weaker (.list items keys notes) (.list items (keys.eraseIdx i) (notes.eraseIdx i))
  | dropValue {keys values} (i) :
    Weaker (.map keys values) (.map (keys.eraseIdx i) (values.eraseIdx i))

variable {path : List Step} {actual p q : Datum} {keys allKeys : List Bytes}
  {values all as : List Datum} {wanted found index i : Nat} {e : Bytes × Datum}

/-! ## Loops -/

theorem bind_eq_ok {x y : Except Failure Unit} :
    (x >>= fun _ => y) = .ok () ↔ x = .ok () ∧ y = .ok () := by
  cases x with
  | error => exact iff_of_false (fun h => by cases h) fun h => by cases h.1
  | ok => exact (and_iff_right rfl).symm

theorem forM_eq_ok {α : Type} {f : α → Except Failure Unit} {as : List α} :
    as.forM f = .ok () ↔ ∀ a ∈ as, f a = .ok () := by
  induction as with
  | nil => exact iff_of_true rfl (forall_mem_nil _)
  | cons _ _ ih => rw [List.forM, bind_eq_ok, ih, forall_mem_cons]

theorem candidates_eq (key : Bytes) (hlength : keys.length = values.length) :
    candidates key keys values = ((keys.zip values).filter (·.1 = key)).map (some ·.2) := by
  induction keys generalizing values with
  | nil => rfl
  | cons _ _ ih =>
    rcases values with _ | ⟨v, values⟩
    · cases hlength
    rw [candidates, zip_cons_cons, filter_cons, ih (Nat.succ.inj hlength)]
    simp only [decide_eq_true_eq]
    split <;> rfl

/-- The loop over notes, as a loop over pairs. -/
theorem checkNotes_eq (hlength : keys.length = values.length) :
    checkNotes path actual keys values = (keys.zip values).forM fun e =>
      (actual.note? e.1).elim (fail path (.missingNote e.1)) (checkAt (path ++ [.note e.1]) e.2) := by
  induction keys generalizing values with
  | nil => cases values <;> rfl
  | cons key _ ih =>
    rcases values with _ | ⟨v, values⟩
    · cases hlength
    rw [checkNotes, zip_cons_cons, List.forM, ← ih (Nat.succ.inj hlength)]
    cases actual.note? key <;> rfl

theorem isEmpty_filter_zip (key : Bytes) (hlength : keys.length = values.length) :
    ((keys.zip values).filter (·.1 = key)).isEmpty = true ↔ key ∉ keys := by
  rw [List.isEmpty_iff, filter_eq_nil_iff]
  simp only [decide_eq_true_eq]
  rw [← forall_mem_map (P := (¬ · = key)), map_fst_zip hlength.le]
  exact ⟨fun h hmem => h key hmem rfl, fun h k hk heq => h (heq ▸ hk)⟩

/-- The loop over entries, as a loop over pairs. -/
theorem checkEntries_eq (hall : allKeys.length = all.length)
    (hlength : keys.length = values.length) :
    checkEntries path allKeys all keys values = (keys.zip values).forM fun e =>
      if e.1 ∈ allKeys then ((allKeys.zip all).filter (·.1 = e.1)).forM fun f =>
        checkAt (path ++ [.entry e.1]) e.2 f.2
      else fail path (.missingKey e.1) := by
  induction keys generalizing values with
  | nil => cases values <;> rfl
  | cons key _ ih =>
    rcases values with _ | ⟨v, values⟩
    · cases hlength
    rw [checkEntries, zip_cons_cons, List.forM, ← ih (Nat.succ.inj hlength), candidates_eq key hall]
    simp only [isEmpty_map, forM_eq_forM, forM_map, isEmpty_filter_zip key hall, ite_not]
    split <;> rfl

/-- When the check of notes succeeds. -/
theorem checkNotes_ok (hlength : keys.length = values.length) :
    checkNotes path actual keys values = .ok () ↔ ∀ e ∈ keys.zip values, ∃ v,
      actual.note? e.1 = some v ∧ checkAt (path ++ [.note e.1]) e.2 v = .ok () := by
  rw [checkNotes_eq hlength, forM_eq_ok]
  refine forall₂_congr fun e _ => ?_
  cases actual.note? e.1 with
  | none => exact iff_of_false (fun h => by cases h) fun ⟨v, h, _⟩ => by cases h
  | some => simp

/-- When the check of entries succeeds. -/
theorem checkEntries_ok (hall : allKeys.length = all.length)
    (hlength : keys.length = values.length) :
    checkEntries path allKeys all keys values = .ok () ↔ ∀ e ∈ keys.zip values,
      e.1 ∈ allKeys ∧ ∀ f ∈ allKeys.zip all, f.1 = e.1 →
        checkAt (path ++ [.entry e.1]) e.2 f.2 = .ok () := by
  rw [checkEntries_eq hall hlength, forM_eq_ok]
  refine forall₂_congr fun e _ => ?_
  split
  · next hkey =>
    rw [forM_eq_ok, and_iff_right hkey]
    simp
  · next hkey => exact iff_of_false (fun h => by cases h) fun h => hkey h.1

theorem checkItems_cons_ok : checkItems path actual wanted found index (p :: values) as = .ok () ↔
    (p.kind ≠ .ellipsis → ∃ a rest, as = a :: rest ∧ checkAt (path ++ [.item index]) p a = .ok () ∧
      checkItems path actual wanted found (index + 1) values rest = .ok ()) := by
  by_cases hp : p.kind = .ellipsis
  · refine iff_of_true ?_ fun h => absurd hp h
    cases as <;> exact if_pos hp
  rw [forall_prop_of_true hp]
  cases as with
  | nil =>
    rw [checkItems, if_neg hp]
    exact iff_of_false (fun h => by cases h) fun ⟨_, _, h, _⟩ => by cases h
  | cons a as =>
    rw [checkItems, if_neg hp, bind_eq_ok]
    exact ⟨fun h => ⟨a, as, rfl, h⟩, fun ⟨_, _, heq, h⟩ => by cases heq; exact h⟩

theorem checkAt_list_ok {items notes : List Datum} :
    checkAt path (.list items keys notes) actual = .ok () ↔ ∃ as ks ns, actual = .list as ks ns ∧
      checkNotes path actual keys notes = .ok () ∧
      checkItems path actual items.length as.length 0 items as = .ok () := by
  cases actual with
  | list as ks ns =>
    rw [checkAt, bind_eq_ok]
    exact ⟨fun h => ⟨as, ks, ns, rfl, h⟩, fun ⟨_, _, _, heq, h⟩ => by cases heq; exact h⟩
  | _ => exact iff_of_false (fun h => by cases h) fun ⟨_, _, _, heq, _⟩ => by cases heq

theorem checkAt_map_ok :
    checkAt path (.map keys values) actual = .ok () ↔ ∃ ks vs, actual = .map ks vs ∧
      checkEntries path ks vs keys values = .ok () := by
  cases actual with
  | map ks vs =>
    exact ⟨fun h => ⟨ks, vs, rfl, h⟩, fun ⟨_, _, heq, h⟩ => by cases heq; exact h⟩
  | _ => exact iff_of_false (fun h => by cases h) fun ⟨_, _, heq, _⟩ => by cases heq

/-! ## Documents match themselves -/

theorem checkItems_self (hself : ∀ v ∈ values, ∀ path, checkAt path v v = .ok ()) :
    checkItems path actual found found index values values = .ok () := by
  induction values generalizing index with
  | nil => rw [checkItems, if_pos rfl]
  | cons v values ih =>
    rw [forall_mem_cons] at hself
    exact checkItems_cons_ok.mpr fun _ => ⟨v, values, rfl, hself.1 _, ih hself.2⟩

theorem lookup_zip (hkeys : keys.Nodup) :
    ∀ e ∈ keys.zip values, (keys.zip values).lookup e.1 = some e.2 := by
  induction keys generalizing values with
  | nil => exact forall_mem_nil _
  | cons key _ ih =>
    rcases values with _ | ⟨v, values⟩
    · exact forall_mem_nil _
    rw [nodup_cons] at hkeys
    refine forall_mem_cons.mpr ⟨lookup_cons_self, fun e he => ?_⟩
    have hne : e.1 ≠ key := fun heq => hkeys.1 (heq ▸ (of_mem_zip he).1)
    rw [zip_cons_cons, lookup_cons, beq_eq_false_iff_ne.mpr hne]
    exact ih hkeys.2 e he

/-- Well-formed data match themselves. -/
theorem checkAt_self (d : Datum) (hd : d.wellFormed = true) (hmaps : d.Univocal) (path : List Step) :
    checkAt path d d = .ok () := by
  induction d using Datum.induction generalizing path with
  | symbol | string | integer => exact if_pos rfl
  | ellipsis => rfl
  | list _ keys _ ihItems ihNotes =>
    obtain ⟨hitems, hnotes, hlength, -, hkeys⟩ := Datum.wellFormed_list.mp hd
    refine bind_eq_ok.mpr ⟨(checkNotes_ok hlength).mpr fun e he => ?_, checkItems_self fun v hv =>
      ihItems v hv (hitems v hv) fun keys values hwithin => hmaps keys values (hwithin.item hv)⟩
    have hmem := (of_mem_zip he).2
    exact ⟨e.2, lookup_zip hkeys e he, ihNotes _ hmem (hnotes _ hmem)
      (fun keys values hwithin => hmaps keys values (hwithin.note hmem)) _⟩
  | map keys values ih =>
    obtain ⟨hvalues, hlength, -⟩ := Datum.wellFormed_map.mp hd
    refine (checkEntries_ok hlength hlength).mpr fun e he => ⟨(of_mem_zip he).1, ?_⟩
    rintro ⟨key, v⟩ hv rfl
    obtain rfl := hmaps keys values (.self _) _ _ v he hv
    have hmem := (of_mem_zip he).2
    exact ih _ hmem (hvalues _ hmem) (fun keys values hwithin =>
      hmaps keys values (hwithin.value hmem)) _
  | unknown => cases hd

/-- Documents match themselves. -/
theorem check_self {text : Bytes} {d : Datum} (hread : Sexpr.read text = .ok d)
    (hmaps : d.Univocal) : check d d = .ok () :=
  checkAt_self d (Sexpr.read_wellFormed hread) hmaps []

/-- A key with one value twice, in a list with metadata and after an ellipsis. With two values
    it is a mismatch. -/
theorem check_self_twice :
    let d : Datum := .list [.symbol "a", .ellipsis, .map ["k", "k"] [.integer "1", .integer "1"]]
      ["n"] [.string ""]
    let e : Datum := .map ["k", "k"] [.integer "1", .integer "2"]
    Sexpr.read "(a ^\x7bn: 2, n: \"\"\x7d ... \x7bk: 1, k: 1\x7d)" = .ok d ∧ check d d = .ok () ∧
      Sexpr.read "\x7bk: 1, k: 2\x7d" = .ok e ∧
      check e e = fail [.entry "k"] (.differs (.integer "1") (.integer "2")) := by
  intro d e
  have hread : Sexpr.read "(a ^\x7bn: 2, n: \"\"\x7d ... \x7bk: 1, k: 1\x7d)" = .ok d := rfl
  refine ⟨hread, check_self hread fun keys values hwithin key v w hv hw => ?_, rfl, rfl⟩
  simp only [d] at hwithin
  rcases hwithin with _ | ⟨hwithin, he⟩ | ⟨hwithin, he⟩
  · rcases he with _ | ⟨_, _ | ⟨_, _ | ⟨_, ⟨⟩⟩⟩⟩ <;>
      rcases hwithin with _ | _ | _ | ⟨hwithin, he⟩
    · simp_all
    · rcases he with _ | ⟨_, _ | ⟨_, ⟨⟩⟩⟩ <;> cases hwithin
  · rcases he with _ | ⟨_, ⟨⟩⟩
    cases hwithin

/-! ## Weaker patterns -/

theorem mem_zip_set (he : e ∈ keys.zip (values.set i q)) (hi : values[i]? = some p) :
    e ∈ keys.zip values ∨ e.2 = q ∧ (e.1, p) ∈ keys.zip values := by
  obtain ⟨j, hj⟩ := mem_iff_getElem?.mp he
  rw [getElem?_zip_eq_some, getElem?_set] at hj
  obtain ⟨hkey, hvalue⟩ := hj
  split at hvalue
  · next heq =>
    subst heq
    rw [if_pos (List.getElem?_eq_some_iff.mp hi).1] at hvalue
    exact .inr ⟨(Option.some.inj hvalue).symm, mem_iff_getElem?.mpr
      ⟨i, getElem?_zip_eq_some.mpr ⟨hkey, hi⟩⟩⟩
  · exact .inl (mem_iff_getElem?.mpr ⟨j, getElem?_zip_eq_some.mpr ⟨hkey, hvalue⟩⟩)

theorem mem_zip_eraseIdx (he : e ∈ (keys.eraseIdx i).zip (values.eraseIdx i)) :
    e ∈ keys.zip values := by
  obtain ⟨j, hj⟩ := mem_iff_getElem?.mp he
  rw [getElem?_zip_eq_some, getElem?_eraseIdx, getElem?_eraseIdx] at hj
  split at hj <;> exact mem_iff_getElem?.mpr ⟨_, getElem?_zip_eq_some.mpr hj⟩

/-- A weaker item matches. -/
theorem checkItems_set (hi : values[i]? = some p)
    (hweaker : ∀ a ∈ as, ∀ path, checkAt path p a = .ok () → checkAt path q a = .ok ())
    (hhole : p.kind = .ellipsis → q.kind = .ellipsis)
    (hitems : checkItems path actual wanted found index values as = .ok ()) :
    checkItems path actual wanted found index (values.set i q) as = .ok () := by
  induction values generalizing i as index with
  | nil => cases hi
  | cons _ _ ih =>
    rw [checkItems_cons_ok] at hitems
    cases i with
    | zero =>
      cases hi
      rw [set_cons_zero, checkItems_cons_ok]
      intro hq
      obtain ⟨a, rest, rfl, hitem, hrest⟩ := hitems fun hp => hq (hhole hp)
      exact ⟨a, rest, rfl, hweaker a mem_cons_self _ hitem, hrest⟩
    | succ =>
      rw [set_cons_succ, checkItems_cons_ok]
      intro hv
      obtain ⟨a, rest, rfl, hitem, hrest⟩ := hitems hv
      exact ⟨a, rest, rfl, hitem, ih hi (fun a ha => hweaker a (mem_cons_of_mem _ ha)) hrest⟩

theorem checkAt_weaker (hweaker : Weaker p q) (hp : p.wellFormed = true)
    (ha : actual.wellFormed = true) (hmatch : checkAt path p actual = .ok ()) :
    checkAt path q actual = .ok () := by
  induction hweaker generalizing actual path with
  | hole => rfl
  | item h hi ih =>
    obtain ⟨as, ks, ns, rfl, hnotes, hitems⟩ := checkAt_list_ok.mp hmatch
    have hitem := (Datum.wellFormed_list.mp hp).1 _ (mem_of_getElem? hi)
    refine checkAt_list_ok.mpr ⟨as, ks, ns, rfl, hnotes, ?_⟩
    rw [length_set]
    refine checkItems_set hi (fun a hmem path => ih hitem ((Datum.wellFormed_list.mp ha).1 a hmem)) ?_ hitems
    intro hkind
    cases h with
    | hole => rfl
    | _ => cases hkind
  | note h hi ih =>
    obtain ⟨as, ks, ns, rfl, hnotes, hitems⟩ := checkAt_list_ok.mp hmatch
    obtain ⟨-, hwell, hlength, -⟩ := Datum.wellFormed_list.mp hp
    rw [checkNotes_ok hlength] at hnotes
    refine checkAt_list_ok.mpr ⟨as, ks, ns, rfl, ?_, hitems⟩
    rw [checkNotes_ok (by rw [length_set, hlength])]
    intro e he
    obtain hkept | ⟨rfl, hset⟩ := mem_zip_set he hi
    · exact hnotes e hkept
    · obtain ⟨v, hv, hmatch⟩ := hnotes _ hset
      exact ⟨v, hv, ih (hwell _ (mem_of_getElem? hi)) (Datum.wellFormed_note ha hv) hmatch⟩
  | value h hi ih =>
    obtain ⟨ks, vs, rfl, hentries⟩ := checkAt_map_ok.mp hmatch
    obtain ⟨hwell, hlength, -⟩ := Datum.wellFormed_map.mp hp
    obtain ⟨hall, hlengths, -⟩ := Datum.wellFormed_map.mp ha
    rw [checkEntries_ok hlengths hlength] at hentries
    refine checkAt_map_ok.mpr ⟨ks, vs, rfl, ?_⟩
    rw [checkEntries_ok hlengths (by rw [length_set, hlength])]
    intro e he
    obtain hkept | ⟨rfl, hset⟩ := mem_zip_set he hi
    · exact hentries e hkept
    · obtain ⟨hkey, hvalues⟩ := hentries _ hset
      exact ⟨hkey, fun f hf heq => ih (hwell _ (mem_of_getElem? hi)) (hall _ (of_mem_zip hf).2) (hvalues f hf heq)⟩
  | dropNote =>
    obtain ⟨as, ks, ns, rfl, hnotes, hitems⟩ := checkAt_list_ok.mp hmatch
    obtain ⟨-, -, hlength, -⟩ := Datum.wellFormed_list.mp hp
    refine checkAt_list_ok.mpr ⟨as, ks, ns, rfl, ?_, hitems⟩
    rw [checkNotes_ok hlength] at hnotes
    rw [checkNotes_ok (by rw [length_eraseIdx, length_eraseIdx, hlength])]
    exact fun e he => hnotes e (mem_zip_eraseIdx he)
  | dropValue =>
    obtain ⟨ks, vs, rfl, hentries⟩ := checkAt_map_ok.mp hmatch
    obtain ⟨hwell, hlength, -⟩ := Datum.wellFormed_map.mp hp
    obtain ⟨hall, hlengths, -⟩ := Datum.wellFormed_map.mp ha
    rw [checkEntries_ok hlengths hlength] at hentries
    refine checkAt_map_ok.mpr ⟨ks, vs, rfl, ?_⟩
    rw [checkEntries_ok hlengths (by rw [length_eraseIdx, length_eraseIdx, hlength])]
    exact fun e he => hentries e (mem_zip_eraseIdx he)

/-- A pattern that matches a document matches it when one of its parts is weakened. -/
theorem check_weaker {pattern document : Bytes} (hp : Sexpr.read pattern = .ok p)
    (ha : Sexpr.read document = .ok actual) (hmatch : check p actual = .ok ())
    (hweaker : Weaker p q) : check q actual = .ok () :=
  checkAt_weaker hweaker (Sexpr.read_wellFormed hp) (Sexpr.read_wellFormed ha) hmatch

/-- The second item of a list within a list becomes an ellipsis, which takes the place of the third
    as well. -/
theorem check_weaker_cutting :
    let inner := [Datum.symbol "b", .integer "5", .map ["k"] [.ellipsis]]
    let p := Datum.list [.symbol "a", .plain inner] ["n"] [.string ""]
    let a := Datum.list [.symbol "a", .plain [.symbol "b", .integer "5", .map ["j", "k"]
      [.integer "1", .integer "2"]]] ["m", "n"] [.symbol "x", .string ""]
    Sexpr.read "(a ^\x7bn: \"\"\x7d (b 5 \x7bk: ...\x7d))" = .ok p ∧
      Sexpr.read "(a ^\x7bm: x, n: \"\"\x7d (b 5 \x7bj: 1, k: 2\x7d))" = .ok a ∧
      check (.list [.symbol "a", .plain (inner.set 1 .ellipsis)] ["n"] [.string ""]) a = .ok () := by
  intro inner p a
  have hp : Sexpr.read "(a ^\x7bn: \"\"\x7d (b 5 \x7bk: ...\x7d))" = .ok p := rfl
  have ha : Sexpr.read "(a ^\x7bm: x, n: \"\"\x7d (b 5 \x7bj: 1, k: 2\x7d))" = .ok a := rfl
  exact ⟨hp, ha, check_weaker hp ha rfl (.item (i := 1) (.item (i := 1) (.hole _) rfl) rfl)⟩

end Pattern

end Codegen
