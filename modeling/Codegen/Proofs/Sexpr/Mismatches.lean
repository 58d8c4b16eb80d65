import Codegen.Proofs.Sexpr.Matching

/-!
# Where a Pattern and a Document Differ

A pattern without ellipses, maps and metadata matches one tree only: a document that is this tree
once the metadata of its lists are left out.

If a pattern does not match, the mismatch has a path. The same steps lead to a part of the pattern
and to a part of the document, and the reason is true of these two.

## Theorems

* `check_exact`: Both together, for documents.
-/

namespace Codegen

open List

namespace Datum

/-- Patterns of atoms and of lists without metadata. -/
inductive Concrete : Datum → Prop where
  | atom {d} (h : d.isAtom = true) (hopen : d.kind ≠ .ellipsis) : Concrete d
  | plain {items} (h : ∀ d ∈ items, Concrete d) : Concrete (.plain items)

/-- A datum without metadata. -/
def bare : Datum → Datum
  | .list items _ _ => .plain (items.map bare)
  | .map keys values => .map keys (values.map bare)
  | d => d

theorem Concrete.kind_ne {p : Datum} (hp : p.Concrete) : p.kind ≠ .ellipsis := by
  cases hp with
  | atom _ hopen => exact hopen
  | plain => exact fun h => by cases h

theorem bare_eq_atom {p a : Datum} (hp : p.isAtom = true) : a.bare = p ↔ p = a := by
  unfold bare
  split
  · refine iff_of_false ?_ ?_ <;>
    · rintro rfl
      cases hp
  · refine iff_of_false ?_ ?_ <;>
    · rintro rfl
      cases hp
  · exact eq_comm

end Datum

namespace Pattern

/-- A step from a datum to one of its parts. -/
inductive Part : Step → Datum → Datum → Prop where
  | item {items keys notes i d} (h : items[i]? = some d) : Part (.item i) (.list items keys notes) d
  | note {items keys notes key d} (h : (key, d) ∈ keys.zip notes) :
    Part (.note key) (.list items keys notes) d
  | entry {keys values key d} (h : (key, d) ∈ keys.zip values) :
    Part (.entry key) (.map keys values) d

/-- The steps of a path lead from a datum to one within it. -/
inductive Leads : List Step → Datum → Datum → Prop where
  | nil (d) : Leads [] d d
  | cons {s path d e f} (h : Part s d e) (hrest : Leads path e f) : Leads (s :: path) d f

/-- What a reason says of a pattern and a datum. -/
inductive Applies : Reason → Datum → Datum → Prop where
  | differs {p a} (h : p ≠ a) : Applies (.differs p a) p a
  | missingNote {key items keys notes as ks ns} (h : key ∈ keys) (hnone : key ∉ ks) :
    Applies (.missingNote key) (.list items keys notes) (.list as ks ns)
  | missingKey {key keys values ks vs} (h : key ∈ keys) (hnone : key ∉ ks) :
    Applies (.missingKey key) (.map keys values) (.map ks vs)
  | itemCount {items keys notes as ks ns} (h : items.length ≠ as.length) :
    Applies (.itemCount items.length as.length (.list as ks ns))
      (.list items keys notes) (.list as ks ns)

/-- A failure names a path to two parts, and a reason that applies to them. -/
def Explains (path : List Step) (p a : Datum) (f : Failure) : Prop :=
  ∃ steps reason q b, f = .mismatch ⟨path ++ steps, reason⟩ ∧ Leads steps p q ∧ Leads steps a b ∧
    Applies reason q b

variable {path : List Step} {s : Step} {actual p q a b : Datum} {keys allKeys : List Bytes}
  {values all as : List Datum} {wanted found index i : Nat} {e : Bytes × Datum} {f : Failure}

theorem explains_here {reason : Reason} (h : Applies reason p a) :
    Explains path p a (.mismatch ⟨path, reason⟩) :=
  ⟨[], reason, p, a, by rw [append_nil], .nil p, .nil a, h⟩

theorem Explains.part (h : Explains (path ++ [s]) q b f) (hp : Part s p q) (ha : Part s a b) :
    Explains path p a f := by
  obtain ⟨steps, reason, q, b, rfl, hq, hb, hreason⟩ := h
  exact ⟨s :: steps, reason, q, b, by rw [append_assoc, singleton_append], .cons hp hq, .cons ha hb,
    hreason⟩

theorem bind_eq_error {x y : Except Failure Unit} (h : (x >>= fun _ => y) = .error f) :
    x = .error f ∨ y = .error f := by
  cases x with
  | error => exact .inl h
  | ok => exact .inr h

theorem forM_eq_error {α : Type} {g : α → Except Failure Unit} {as : List α}
    (h : as.forM g = .error f) : ∃ a ∈ as, g a = .error f := by
  induction as with
  | nil => cases h
  | cons a _ ih =>
    obtain h | h := bind_eq_error h
    · exact ⟨a, mem_cons_self, h⟩
    · obtain ⟨b, hb, h⟩ := ih h
      exact ⟨b, mem_cons_of_mem _ hb, h⟩

/-- Atoms match themselves only. -/
theorem checkAt_atom (hp : p.isAtom = true) (hopen : p.kind ≠ .ellipsis) :
    checkAt path p a = .ok () ∧ p = a ∨ checkAt path p a = fail path (.differs p a) ∧ p ≠ a := by
  cases p with
  | symbol t | string t | integer t =>
    unfold checkAt
    split
    · split
      · next h => exact .inl ⟨rfl, congrArg _ h⟩
      · next h => exact .inr ⟨rfl, by simpa using h⟩
    · next hother => exact .inr ⟨rfl, fun heq => hother t heq.symm⟩
  | ellipsis => exact absurd rfl hopen
  | _ => cases hp

/-! ## Concrete patterns -/

theorem checkItems_concrete (hpatterns : ∀ p ∈ values, p.kind ≠ .ellipsis ∧
      ∀ a path, checkAt path p a = .ok () ↔ a.bare = p)
    (hwanted : wanted = index + values.length) (hfound : found = index + as.length) :
    checkItems path actual wanted found index values as = .ok () ↔ as.map Datum.bare = values := by
  induction values generalizing index as with
  | nil =>
    rw [checkItems, map_eq_nil_iff, ← length_eq_zero_iff]
    split
    · next h => exact iff_of_true rfl (by rw [length_nil] at hwanted; omega)
    · next h => exact iff_of_false (fun h => by cases h) (by rw [length_nil] at hwanted; omega)
  | cons _ _ ih =>
    rw [forall_mem_cons] at hpatterns
    rw [checkItems_cons_ok, forall_prop_of_true hpatterns.1.1, map_eq_cons_iff]
    refine exists₂_congr fun a rest => and_congr_right fun heq => ?_
    subst heq
    rw [length_cons] at hwanted hfound
    rw [hpatterns.1.2, ih hpatterns.2 (by omega) (by omega)]

/-- Concrete patterns match one tree. -/
theorem checkAt_concrete (hp : p.Concrete) : checkAt path p a = .ok () ↔ a.bare = p := by
  induction hp generalizing a path with
  | atom h hopen =>
    rw [Datum.bare_eq_atom h]
    obtain ⟨hok, heq⟩ | ⟨hfail, hne⟩ := checkAt_atom h hopen
    · exact iff_of_true hok heq
    · exact iff_of_false (fun hok => by rw [hfail] at hok; cases hok) hne
  | plain h ih =>
    unfold Datum.bare
    split
    · next as ks ns =>
      simp only [Datum.plain, Datum.list.injEq, and_true]
      refine bind_eq_ok.trans ((and_iff_right rfl).trans (checkItems_concrete ?_ ?_ ?_))
      · exact fun d hd => ⟨(h d hd).kind_ne, fun a path => ih d hd⟩
      all_goals exact (Nat.zero_add _).symm
    · exact iff_of_false (fun h => by cases h) (by simp [Datum.plain])
    · next hother _ =>
      refine iff_of_false (fun h => ?_) (hother _ _ _)
      obtain ⟨_, _, _, heq, _⟩ := checkAt_list_ok.mp h
      exact hother _ _ _ heq

/-! ## Mismatches -/

/-- Why items do not match. -/
theorem checkItems_error (h : checkItems path actual wanted found index values as = .error f)
    (hwanted : wanted = index + values.length) (hfound : found = index + as.length) :
    (∃ i p a, values[i]? = some p ∧ as[i]? = some a ∧
      checkAt (path ++ [.item (index + i)]) p a = .error f) ∨
    wanted ≠ found ∧ f = .mismatch ⟨path, .itemCount wanted found actual⟩ := by
  induction values generalizing index as with
  | nil =>
    rw [checkItems] at h
    split at h
    · cases h
    · next hne =>
      cases h
      exact .inr ⟨hne, rfl⟩
  | cons p _ ih =>
    rw [length_cons] at hwanted
    cases as with
    | nil =>
      rw [checkItems] at h
      split at h
      · cases h
      · cases h
        rw [length_nil] at hfound
        exact .inr ⟨by omega, rfl⟩
    | cons a =>
      rw [length_cons] at hfound
      rw [checkItems] at h
      split at h
      · cases h
      obtain h | h := bind_eq_error h
      · exact .inl ⟨0, p, a, rfl, rfl, h⟩
      obtain ⟨i, p, a, hp, ha, h⟩ | h := ih h (by omega) (by omega)
      · exact .inl ⟨i + 1, p, a, hp, ha, by rwa [Nat.add_assoc, Nat.add_comm 1] at h⟩
      · exact .inr h

theorem explains_atom (hp : p.isAtom = true) (hopen : p.kind ≠ .ellipsis)
    (h : checkAt path p a = .error f) : Explains path p a f := by
  obtain ⟨hok, -⟩ | ⟨hfail, hne⟩ := @checkAt_atom path p a hp hopen
  · rw [hok] at h
    cases h
  · rw [hfail] at h
    cases h
    exact explains_here (.differs hne)

/-- Why data do not match. -/
theorem checkAt_error (hp : p.wellFormed = true) (ha : a.wellFormed = true)
    (h : checkAt path p a = .error f) : Explains path p a f := by
  induction p using Datum.induction generalizing path a with
  | symbol | string | integer =>
    exact explains_atom rfl (fun h => by cases h) h
  | ellipsis => cases h
  | list _ _ _ ihItems ihNotes =>
    cases a with
    | list as ks ns =>
      obtain ⟨hitems, hnotes, hlength, -⟩ := Datum.wellFormed_list.mp hp
      obtain ⟨has, hns, hlengths, -⟩ := Datum.wellFormed_list.mp ha
      -- Notes are compared before items.
      obtain h | h := bind_eq_error h
      · rw [checkNotes_eq hlength] at h
        obtain ⟨⟨key, p⟩, he, h⟩ := forM_eq_error h
        obtain ⟨hkey, hp⟩ := of_mem_zip he
        cases hfound : (Datum.list as ks ns).note? key with
        | none =>
          simp only [hfound] at h
          cases h
          refine explains_here (.missingNote hkey fun hmem => ?_)
          rw [← map_fst_zip hlengths.le, mem_map] at hmem
          obtain ⟨e, hmem, rfl⟩ := hmem
          simpa using lookup_eq_none_iff.mp hfound e hmem
        | some v =>
          have hv := Sexpr.mem_of_lookup hfound
          simp only [hfound] at h
          exact (ihNotes p hp (hnotes p hp) (hns v (of_mem_zip hv).2) h).part (.note he) (.note hv)
      · obtain ⟨i, p, a, hp, ha, h⟩ | ⟨hne, rfl⟩ :=
          checkItems_error h (Nat.zero_add _).symm (Nat.zero_add _).symm
        · rw [Nat.zero_add] at h
          have hmem := mem_of_getElem? hp
          exact (ihItems p hmem (hitems p hmem) (has a (mem_of_getElem? ha)) h).part (.item hp)
            (.item ha)
        · exact explains_here (.itemCount hne)
    | _ =>
      cases h
      exact explains_here (.differs (by simp))
  | map keys values ih =>
    cases a with
    | map ks vs =>
      obtain ⟨hvalues, hlength, -⟩ := Datum.wellFormed_map.mp hp
      obtain ⟨hvs, hlengths, -⟩ := Datum.wellFormed_map.mp ha
      rw [checkAt, checkEntries_eq hlengths hlength] at h
      obtain ⟨e, he, h⟩ := forM_eq_error h
      split at h
      · obtain ⟨⟨key, v⟩, hv, h⟩ := forM_eq_error h
        obtain ⟨hv, heq⟩ := mem_filter.mp hv
        cases of_decide_eq_true heq
        have hp := (of_mem_zip he).2
        exact (ih _ hp (hvalues _ hp) (hvs v (of_mem_zip hv).2) h).part (.entry he) (.entry hv)
      · next hkey =>
        cases h
        exact explains_here (.missingKey (of_mem_zip he).1 hkey)
    | _ =>
      cases h
      exact explains_here (.differs (by simp))
  | unknown => cases hp

/-- A pattern that leaves nothing open matches the documents that are the same tree without their
    metadata. If a pattern does not match, the message begins with a path that leads to a part of
    the pattern and to a part of the document, and its reason applies to these two. -/
theorem check_exact {pattern document : Bytes} (hp : Sexpr.read pattern = .ok p)
    (ha : Sexpr.read document = .ok a) :
    (p.Concrete → (check p a = .ok () ↔ a.bare = p)) ∧
      ∀ f, check p a = .error f → ∃ m, f = .mismatch m ∧
        ("root" : Bytes) ++ m.path.flatMap Step.text <+: m.message ∧
        ∃ q b, Leads m.path p q ∧ Leads m.path a b ∧ Applies m.reason q b := by
  refine ⟨checkAt_concrete, fun f h => ?_⟩
  obtain ⟨steps, reason, q, b, rfl, hq, hb, hreason⟩ :=
    checkAt_error (Sexpr.read_wellFormed hp) (Sexpr.read_wellFormed ha) h
  refine ⟨⟨steps, reason⟩, rfl, ?_, q, b, hq, hb, hreason⟩
  rw [Mismatch.message, append_assoc]
  exact prefix_append _ _

/-- Metadata that the pattern does not have do not count, at any depth; another integer within the
    list does. -/
theorem check_exact_nested :
    let p := Datum.plain [.symbol "a", .plain [.symbol "b", .integer "5"]]
    let a := Datum.list [.symbol "a", .list [.symbol "b", .integer "5"] ["m"] [.ellipsis]] ["n"]
      [.string ""]
    let b := Datum.plain [.symbol "a", .list [.symbol "b", .integer "6"] ["m"] [.ellipsis]]
    Sexpr.read "(a (b 5))" = .ok p ∧ Sexpr.read "(a ^\x7bn: \"\"\x7d (b ^\x7bm: ...\x7d 5))" = .ok a ∧
      Sexpr.read "(a (b ^\x7bm: ...\x7d 6))" = .ok b ∧ check p a = .ok () ∧
      ∃ m, check p b = .error (.mismatch m) ∧ m.message = "root[1][1]: expected 5, got 6" ∧
        ∃ q r, Leads m.path p q ∧ Leads m.path b r ∧ Applies m.reason q r := by
  intro p a b
  have hp : Sexpr.read "(a (b 5))" = .ok p := rfl
  have ha : Sexpr.read "(a ^\x7bn: \"\"\x7d (b ^\x7bm: ...\x7d 5))" = .ok a := rfl
  have hb : Sexpr.read "(a (b ^\x7bm: ...\x7d 6))" = .ok b := rfl
  have hsymbol (text : Bytes) : (Datum.symbol text).Concrete := .atom rfl fun h => by cases h
  have hfive : (Datum.integer "5").Concrete := .atom rfl fun h => by cases h
  have hinner : (Datum.plain [.symbol "b", .integer "5"]).Concrete :=
    .plain (by simp [hsymbol, hfive])
  have hconcrete : p.Concrete := .plain (by simp [hsymbol, hinner])
  have hmatch := ((check_exact hp ha).1 hconcrete).mpr (by simp [a, p, Datum.bare, Datum.plain])
  obtain ⟨m, hm, -, hparts⟩ := (check_exact hp hb).2 _ rfl
  cases hm
  exact ⟨hp, ha, hb, hmatch, _, rfl, rfl, hparts⟩

end Pattern

end Codegen
