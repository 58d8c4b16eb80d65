import Codegen.Proofs.Operations
import Mathlib.Data.Finset.Card
import Mathlib.Data.List.Basic

/-!
# Requests for Helpers

What emits a helper may itself request helpers, its own among them, and what emits those may
request others. A helper is marked before it is emitted, so a request that comes back to one
that is under way is answered and nothing more. Every emission marks another name, so with
finitely many names all of them come to an end.

Callbacks that request each other are given by what each of them requests, and unrolled to a
depth, below which they fail. The number of names is depth enough: the callbacks below are
never started.

## Theorems

* `helpers_once`: The history of any requests.
-/

namespace Codegen.Requests

open List

variable {names : Finset Bytes} {ι : Type} {ctx ctx' : Context} {name : Bytes}

/-- A request for a helper with one of the given names, and the callback that emits it. -/
structure Request (names : Finset Bytes) (ι : Type) where
  name : Bytes
  known : name ∈ names
  callback : ι

/-- What was requested, the requests whose callbacks were started, and the answers. Requests
    are numbered in the order in which they are made. -/
structure History where
  asked : List Bytes := []
  started : List Nat := []
  answers : List (Nat × Bool) := []

/-- Makes a request and writes the answer down. -/
def Request.make (emit : ι → StateT History Gen Unit) (r : Request names ι) :
    StateT History Gen Unit := do
  let number ← modifyGet fun h => (h.asked.length, { h with asked := h.asked ++ [r.name] })
  let answer ← requestHelper r.name do
    modify fun h => { h with started := h.started ++ [number] }
    emit r.callback
  modify fun h => { h with answers := h.answers ++ [(number, answer)] }

/-- Callbacks that keep a history, to a depth. -/
def emitTo (requests : ι → List (Request names ι)) : Nat → ι → StateT History Gen Unit
  | 0, _ => throw .noFunction
  | depth + 1, i => (requests i).forM (Request.make (emitTo requests depth))

/-- What holds of a history while some requests wait for their callbacks: each of the others is
    answered once. -/
structure Faithful (h : History) (ctx : Context) (waiting : List Nat) : Prop where
  marked : ∀ name, name ∈ ctx.helpers ↔ name ∈ h.asked
  started : h.started = h.asked.eraseDups.map h.asked.idxOf
  begun : ∀ k ∈ waiting, k ∈ h.started
  once : waiting ++ h.answers.map Prod.fst ~ range h.asked.length
  answers : ∀ entry ∈ h.answers, entry.2 = true ↔ entry.1 ∈ h.started

namespace Faithful

variable {h : History} {waiting : List Nat}

theorem lt_of_started (hf : Faithful h ctx waiting) {k : Nat} (hk : k ∈ h.started) :
    k < h.asked.length := by
  rw [hf.started] at hk
  rcases mem_map.mp hk with ⟨name, hname, rfl⟩
  exact idxOf_lt_length_of_mem (mem_eraseDups.mp hname)

theorem firsts_append (asked : List Bytes) (name : Bytes) :
    (asked ++ [name]).eraseDups.map (asked ++ [name]).idxOf =
      asked.eraseDups.map asked.idxOf ++ if name ∈ asked then [] else [asked.length] := by
  have hsame : asked.eraseDups.map (asked ++ [name]).idxOf = asked.eraseDups.map asked.idxOf :=
    map_congr_left fun other hother => idxOf_append_of_mem (mem_eraseDups.mp hother)
  rw [eraseDups_append, map_append, hsame]
  split_ifs with h
  · simp [removeAll, h]
  · simp [removeAll, h, eraseDups_cons, idxOf_append_of_notMem h]

/-- A request for something that was claimed is answered at once. -/
theorem old (hf : Faithful h ctx waiting) (hname : name ∈ ctx.helpers) :
    Faithful ⟨h.asked ++ [name], h.started, h.answers ++ [(h.asked.length, false)]⟩ ctx
      waiting := by
  have hasked := (hf.marked name).mp hname
  refine ⟨fun other => ?_, ?_, hf.begun, ?_, fun entry hentry => ?_⟩
  · rw [hf.marked, mem_append, mem_singleton]
    exact ⟨.inl, fun hor => hor.elim id fun heq => heq ▸ hasked⟩
  · rw [firsts_append, if_pos hasked, append_nil, hf.started]
  · rw [map_append, ← append_assoc, length_append, length_singleton, range_succ]
    exact hf.once.append_right _
  · rcases mem_append.mp hentry with hin | hin
    · exact hf.answers entry hin
    · rw [mem_singleton.mp hin]
      exact iff_of_false Bool.false_ne_true fun hin => Nat.lt_irrefl _ (hf.lt_of_started hin)

/-- The callback of a request for any other helper is started, and the request waits. -/
theorem new (hf : Faithful h ctx waiting) (hname : name ∉ ctx.helpers) :
    Faithful ⟨h.asked ++ [name], h.started ++ [h.asked.length], h.answers⟩ (ctx.claiming name)
      (h.asked.length :: waiting) := by
  refine ⟨fun other => ?_, ?_, fun k hk => ?_, ?_, fun entry hentry => ?_⟩
  · rw [Context.claiming, mem_cons, hf.marked, mem_append, mem_singleton, or_comm]
  · rw [firsts_append, if_neg fun hin => hname ((hf.marked name).mpr hin), hf.started]
  · rcases mem_cons.mp hk with rfl | hk
    · simp
    · exact mem_append_left _ (hf.begun k hk)
  · rw [length_append, length_singleton, range_succ]
    exact (hf.once.cons _).trans (perm_append_singleton _ _).symm
  · -- An answer is to an earlier request.
    have hearlier := hf.once.mem_iff.mp (mem_append_right _ (mem_map_of_mem hentry))
    rw [hf.answers entry hentry, mem_append, mem_singleton]
    refine ⟨.inl, fun hor => hor.resolve_right fun heq => ?_⟩
    exact Nat.lt_irrefl _ (mem_range.mp (heq ▸ hearlier))

/-- A request is answered when its callback ends. -/
theorem answer {number : Nat} (hf : Faithful h ctx (number :: waiting)) :
    Faithful { h with answers := h.answers ++ [(number, true)] } ctx waiting := by
  refine ⟨hf.marked, hf.started, fun k hk => hf.begun k (mem_cons_of_mem _ hk), ?_,
    fun entry hentry => ?_⟩
  · rw [map_append, ← append_assoc]
    exact (perm_append_singleton _ _).trans hf.once
  · rcases mem_append.mp hentry with hin | hin
    · exact hf.answers entry hin
    · rw [mem_singleton.mp hin]
      exact iff_of_true rfl (hf.begun number mem_cons_self)

end Faithful

section Runs

variable (requests : ι → List (Request names ι)) {emit : ι → StateT History Gen Unit}
  {r : Request names ι} {h h' : History} {waiting : List Nat}

theorem ends_modifyGet {σ α : Type} {f : σ → α × σ} {s : σ} :
    Ends (modifyGet f : StateT σ Gen α) s ctx (f s).1 (f s).2 ctx := rfl

theorem ends_make_old (hname : r.name ∈ ctx.helpers) : Ends (r.make emit) h ctx ()
    ⟨h.asked ++ [r.name], h.started, h.answers ++ [(h.asked.length, false)]⟩ ctx :=
  ends_bind ends_modifyGet (ends_bind (ends_requestHelper_old _ hname) ends_modify)

theorem ends_make_new (hname : r.name ∉ ctx.helpers)
    (hemit : Ends (emit r.callback) ⟨h.asked ++ [r.name], h.started ++ [h.asked.length], h.answers⟩
      (ctx.claiming r.name) () h' ctx') :
    Ends (r.make emit) h ctx ()
      { h' with answers := h'.answers ++ [(h.asked.length, true)] } ctx' :=
  ends_bind ends_modifyGet
    (ends_bind (ends_requestHelper_new hname (ends_bind ends_modify hemit)) ends_modify)

/-- Requests come to an end. The induction is on the number of names that are not marked, and in
    it on the requests. -/
theorem ends_requests (free : Nat) (rs : List (Request names ι)) (hf : Faithful h ctx waiting)
    (hfree : (names \ ctx.helpers.toFinset).card ≤ free) : ∃ h' ctx', Faithful h' ctx' waiting ∧
      (names \ ctx'.helpers.toFinset).card ≤ free ∧ ∀ depth, free ≤ depth →
        Ends (rs.forM (Request.make (emitTo requests depth))) h ctx () h' ctx' := by
  induction free using Nat.strong_induction_on generalizing rs h ctx waiting with
  | _ free ih =>
    induction rs generalizing h ctx with
    | nil => exact ⟨h, ctx, hf, hfree, fun _ _ => ends_pure⟩
    | cons r rs ihrs =>
      by_cases hname : r.name ∈ ctx.helpers
      · rcases ihrs (hf.old hname) hfree with ⟨h', ctx', hf', hfree', hends⟩
        exact ⟨h', ctx', hf', hfree', fun depth hdepth =>
          ends_bind (ends_make_old hname) (hends depth hdepth)⟩
      · -- The callback has one name less to mark.
        have hless : (names \ (ctx.claiming r.name).helpers.toFinset).card <
            (names \ ctx.helpers.toFinset).card := by
          rw [Context.claiming, toFinset_cons, Finset.sdiff_insert]
          exact Finset.card_erase_lt_of_mem (by simp [r.known, hname])
        rcases ih _ (hless.trans_le hfree) (requests r.callback) (hf.new hname) (le_refl _) with
          ⟨h1, ctx1, hf1, hfree1, hends1⟩
        rcases ihrs hf1.answer (hfree1.trans (hless.le.trans hfree)) with
          ⟨h', ctx', hf', hfree', hends⟩
        refine ⟨h', ctx', hf', hfree', fun depth hdepth => ?_⟩
        obtain ⟨depth, rfl⟩ : ∃ k, depth = k + 1 := Nat.exists_eq_succ_of_ne_zero (by omega)
        exact ends_bind (ends_make_new hname (hends1 depth (by omega))) (hends _ hdepth)

/-- Whatever helpers are requested, by the callbacks of helpers too and those of themselves, the
    requests come to an end and each of them is answered once. For each name that is requested
    one callback is started, that of the first request for it, and they are started in the order
    of these requests. A request is answered with true exactly if its callback was started. -/
theorem helpers_once (rs : List (Request names ι)) (target : Bytes) : ∃ (h : History) (ctx : Context),
    (∀ depth, names.card ≤ depth →
      Ends (rs.forM (Request.make (emitTo requests depth))) {} { target } () h ctx) ∧
    h.started = h.asked.eraseDups.map h.asked.idxOf ∧
    h.answers.map Prod.fst ~ range h.asked.length ∧
    ∀ entry ∈ h.answers, entry.2 = true ↔ entry.1 ∈ h.started := by
  have hf : Faithful {} { target } [] :=
    ⟨fun _ => Iff.rfl, rfl, forall_mem_nil _, .nil, forall_mem_nil _⟩
  rcases ends_requests requests names.card rs hf (by simp) with ⟨h, ctx, hf', -, hends⟩
  exact ⟨h, ctx, hends, hf'.started, hf'.once, hf'.answers⟩

end Runs

end Codegen.Requests
