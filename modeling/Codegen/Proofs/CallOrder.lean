import Codegen.Proofs.Declarations
import Mathlib.Data.List.Perm.Basic

/-!
# The Calls in a Program

Which functions of the program a statement calls, and in which order, can be read off the
statement, if every part of it is lowered once. All parts come in the order in which they are
written, and a call comes after its arguments. What is left open is the order of the arguments
among themselves: it makes a difference if two of them call functions, and the order is a
parameter here.

In another order the same functions are called, each as often. If in every call at most one
argument calls anything, they are even called in the same order.
-/

namespace Codegen

/-- The order in which the arguments of a call are taken. -/
inductive Order where
  | forward
  | backward
  deriving DecidableEq

/-- A list in this order. -/
def Order.arrange {α : Type} : Order → List α → List α
  | .forward, as => as
  | .backward, as => as.reverse

/-- How many of the parts of a node are lowered, out of all. -/
def Kind.lowered (kind : Kind) (count : Nat) : Nat :=
  match kind with
  | .array | .block | .cond => count
  | .forRange => 3
  | .binary | .index | .assign | .whileLoop => 2
  | .unary | .varDecl | .ret => 1
  | _ => 0

/-- What stands behind a tag. -/
def behind? (tag text : Bytes) : Option Bytes :=
  if tag <+: text then some (text.drop tag.length) else none

theorem behind?_append (tag text : Bytes) : behind? tag (tag ++ text) = some text := by
  rw [behind?, if_pos (List.prefix_append tag text), List.drop_left]

/-- Whether a function is built in. -/
def isBuiltin (name : Bytes) : Bool := name = "print" || name = "length"

namespace Term

mutual

/-- The functions of the program that a term calls, one after the other. -/
def calls (order : Order) : Term → List Bytes
  | .missing => []
  | .call _ none _ => []
  | .call _ (some name) args =>
    if isBuiltin name then (callsAll order args).flatten
    else (order.arrange (callsAll order args)).flatten ++ [name]
  | .node p parts => ((callsAll order parts).take (p.kind.lowered parts.length)).flatten
termination_by structural t => t

/-- The same for each of several terms. -/
def callsAll (order : Order) : List Term → List (List Bytes)
  | [] => []
  | t :: ts => calls order t :: callsAll order ts
termination_by structural ts => ts

end

mutual

/-- Whether no call has two arguments that call functions of the program. -/
def orderly : Term → Bool
  | .missing => true
  | .call _ _ args =>
    orderlyAll args && decide (((callsAll .forward args).filter fun c => !c.isEmpty).length ≤ 1)
  | .node _ parts => orderlyAll parts
termination_by structural t => t

/-- The same for several terms. -/
def orderlyAll : List Term → Bool
  | [] => true
  | t :: ts => t.orderly && orderlyAll ts
termination_by structural ts => ts

end

section Lists

variable {order : Order} {p : Payload} {name : Bytes} {args parts : List Term}

theorem callsAll_eq_map (order : Order) (ts : List Term) :
    callsAll order ts = ts.map (calls order) := by
  induction ts with
  | nil => rw [callsAll, List.map_nil]
  | cons t ts ih => rw [callsAll, ih, List.map_cons]

theorem calls_builtin (h : isBuiltin name = true) :
    (Term.call p (some name) args).calls order = args.flatMap (calls order) := by
  rw [calls, if_pos h, callsAll_eq_map]
  rfl

theorem calls_call (h : isBuiltin name = false) :
    (Term.call p (some name) args).calls order =
      (order.arrange args).flatMap (calls order) ++ [name] := by
  have harrange :
      order.arrange (args.map (calls order)) = (order.arrange args).map (calls order) := by
    cases order with
    | forward => rfl
    | backward => exact List.map_reverse.symm
  rw [calls, if_neg (ne_true_of_eq_false h), callsAll_eq_map, harrange]
  rfl

theorem calls_node :
    (Term.node p parts).calls order =
      (parts.take (p.kind.lowered parts.length)).flatMap (calls order) := by
  rw [calls, callsAll_eq_map, ← List.map_take]
  rfl

/-- A node of which no part is lowered. -/
theorem calls_leaf (h : p.kind.lowered parts.length = 0) :
    (Term.node p parts).calls order = [] := by
  rw [calls_node, h, List.take_zero]
  rfl

end Lists

theorem flatten_perm {as bs : List (List Bytes)} (h : List.Forall₂ List.Perm as bs) :
    as.flatten.Perm bs.flatten := by
  induction h with
  | nil => exact .refl _
  | cons hfirst _ ih => exact hfirst.append ih

mutual

/-- The order of arguments changes only the order of calls. -/
theorem calls_perm : (t : Term) → (t.calls .forward).Perm (t.calls .backward)
  | .missing | .call _ none _ => by rw [calls, calls]
  | .call _ (some name) args => by
    have hargs := flatten_perm (callsAll_perm args)
    rw [calls, calls]
    split
    · exact hargs
    · exact (hargs.trans (List.reverse_perm _).symm.flatten).append_right _
  | .node _ parts => by
    rw [calls, calls]
    exact flatten_perm (List.forall₂_take _ (callsAll_perm parts))

theorem callsAll_perm : (ts : List Term) →
    List.Forall₂ List.Perm (callsAll .forward ts) (callsAll .backward ts)
  | [] => by
    rw [callsAll, callsAll]
    exact .nil
  | t :: ts => by
    rw [callsAll, callsAll]
    exact .cons (calls_perm t) (callsAll_perm ts)

end

/-- With at most one list that is not empty, the order of lists does not matter. -/
theorem flatten_reverse_of_filter {as : List (List Bytes)}
    (h : (as.filter fun a => !a.isEmpty).length ≤ 1) : as.reverse.flatten = as.flatten := by
  rw [← List.flatten_filter_not_isEmpty, ← List.flatten_filter_not_isEmpty (L := as),
    List.filter_reverse]
  rcases hfull : as.filter fun a => !a.isEmpty with _ | ⟨a, _ | ⟨b, bs⟩⟩
  · rw [hfull, List.reverse_nil]
  · rw [hfull, List.reverse_singleton]
  · rw [hfull, List.length_cons, List.length_cons] at h
    omega

mutual

/-- Where no call has two arguments that call, the order of arguments changes nothing. -/
theorem calls_of_orderly : (t : Term) → t.orderly = true → t.calls .backward = t.calls .forward
  | .missing, _ | .call _ none _, _ => by rw [calls, calls]
  | .call _ (some name) args, h => by
    rw [orderly, Bool.and_eq_true, decide_eq_true_eq] at h
    rw [calls, calls, callsAll_of_orderly args h.1, Order.arrange, Order.arrange,
      flatten_reverse_of_filter h.2]
  | .node _ parts, h => by
    rw [orderly] at h
    rw [calls, calls, callsAll_of_orderly parts h]

theorem callsAll_of_orderly : (ts : List Term) → orderlyAll ts = true →
    callsAll .backward ts = callsAll .forward ts
  | [], _ => by rw [callsAll, callsAll]
  | t :: ts, h => by
    rw [orderlyAll, Bool.and_eq_true] at h
    rw [callsAll, callsAll, calls_of_orderly t h.1, callsAll_of_orderly ts h.2]

end

end Term

/-- The functions of the program that a statement calls. -/
def Stmt.calls (order : Order) : Stmt → List Bytes
  | .expression t => t.calls order
  | .block body => body.flatMap (Term.calls order)
  | .declare _ _ init => init.toList.flatMap (Term.calls order)
  | .assign parts => (parts.take 2).flatMap (Term.calls order)
  | .cond parts => parts.flatMap (Term.calls order)
  | .whileLoop condition body => condition.calls order ++ body.calls order
  | .forRange _ first last body => first.calls order ++ last.calls order ++ body.calls order
  | .ret value => value.toList.flatMap (Term.calls order)
  | .jump _ | .classDecl _ _ | .refused _ => []

/-- A statement calls what its term calls. -/
theorem Stmt.calls_of_stmt? {order : Order} {t : Term} {stmt : Stmt} (h : t.stmt? = some stmt) :
    stmt.calls order = t.calls order := by
  rcases t with ⟨p, parts⟩ | ⟨p, callee, args⟩ | _
  · unfold Term.stmt? at h
    cases hkind : p.kind with
    | block | cond =>
      simp only [hkind, Option.some.injEq] at h
      rw [← h, Term.calls_node, hkind, Kind.lowered, List.take_length]
      rfl
    | assign =>
      simp only [hkind, Option.some.injEq] at h
      rw [← h, Term.calls_node, hkind]
      rfl
    | varDecl | ret =>
      simp only [hkind, Option.some.injEq] at h
      rw [← h, Term.calls_node, hkind]
      rcases parts with _ | ⟨part, rest⟩ <;> rfl
    | whileLoop =>
      rcases parts with _ | ⟨condition, _ | ⟨body, rest⟩⟩ <;>
        simp only [hkind, Option.some.injEq, reduceCtorEq] at h
      rw [← h, Term.calls_node, hkind]
      simp [Kind.lowered, Stmt.calls]
    | forRange =>
      rcases parts with _ | ⟨first, _ | ⟨last, _ | ⟨body, rest⟩⟩⟩ <;>
        simp only [hkind, Option.some.injEq, reduceCtorEq] at h
      rw [← h, Term.calls_node, hkind]
      simp [Kind.lowered, Stmt.calls]
    | brk | cont | classDecl | funcDecl | program | other =>
      simp only [hkind, Option.some.injEq] at h
      rw [← h, Term.calls_leaf (by rw [hkind]; rfl)]
      rfl
    | _ =>
      simp only [hkind, Option.some.injEq] at h
      rw [← h]
      rfl
  · obtain rfl := Option.some.inj h
    rfl
  · cases h

namespace Context

/-- The functions that names may stand for have storage under a tag. -/
def StoresFunctions (ctx : Context) (tag : Bytes) : Prop :=
  ctx.Scoped fun sym => sym.kind = .function → sym.storage = tag ++ mangle sym.name

section StoresFunctions

variable {ctx ctx' : Context} {tag : Bytes}

theorem Advances.storesFunctions (h : ctx.Advances ctx') (hctx : ctx.StoresFunctions tag) :
    ctx'.StoresFunctions tag := by
  refine h.keeps (fun sym hlocal _ hkind => ?_) hctx
  simp [Symbol.isStatic, hkind] at hlocal

/-- What a call is to. -/
theorem StoresFunctions.storage (h : ctx.StoresFunctions tag) {name : Bytes} {sym : Symbol}
    (hsym : ctx.funcNamed? name = some sym) : sym.storage = tag ++ mangle name := by
  obtain ⟨hsym, hkind⟩ := Option.filter_eq_some_iff.mp hsym
  rw [Scoped.lookup? h hsym (eq_of_beq hkind), (mem_of_lookup? hsym).1]

theorem storesFunctions_of_roster {vars : Bytes} {ts : List Tree} {syms : List Symbol}
    (h : Roster tag vars ts syms) (hglobals : ctx.globals = syms.reverse)
    (hscopes : ctx.scopes = []) : ctx.StoresFunctions tag := by
  unfold StoresFunctions Scoped
  rw [hglobals, hscopes]
  refine List.forall_mem_singleton.mpr fun sym hsym hkind => ?_
  have hstored := h.stored sym (List.mem_reverse.mp hsym)
  rw [Symbol.StoredUnder, hkind] at hstored
  exact hstored

end StoresFunctions

theorem reporting_clean {ctx : Context} {issues : List Issue}
    (h : (ctx.reporting issues).limitations = []) : issues = [] :=
  List.map_eq_nil_iff.mp (List.append_eq_nil_iff.mp h).2

end Context

namespace Tree

/-- The program's own entry, if the statement declares it. -/
def ownEntry? : Tree → Option Payload
  | .node p _ =>
    if p.kind = .funcDecl && (p.name = "main" && p.params.isEmpty) then some p else none
  | .missing => none

/-- The program's own entry; the last one counts. -/
def ownMain? : List Tree → Option Payload
  | [] => none
  | t :: ts => (ownMain? ts).orElse fun _ => t.ownEntry?

theorem ownMain?_cons_function {p : Payload} (h : p.kind = .funcDecl) (us ts : List Tree) :
    ownMain? (.node p us :: ts) =
      (ownMain? ts).orElse fun _ =>
        if p.name = "main" && p.params.isEmpty then some p else none := by
  rw [ownMain?, ownEntry?, h, decide_eq_true rfl, Bool.true_and]

theorem ownMain?_cons_other {p : Payload} (h : p.kind ≠ .funcDecl) (us ts : List Tree) :
    ownMain? (.node p us :: ts) = ownMain? ts := by
  rw [ownMain?, ownEntry?, decide_eq_false h, Bool.false_and]
  cases ownMain? ts <;> rfl

/-- The call of the program's own entry, if it has one. -/
def mainCalls (ts : List Tree) : List Bytes := (ownMain? ts).toList.map Payload.name

/-- The functions that the entry calls. -/
def entryCalls (order : Order) (ts : List Tree) : List Bytes :=
  ((ts.filter isEntered).map Term.ofTree).flatMap (Term.calls order)

/-- The functions that each function of a program calls, and last those that its entry calls. -/
def callSequences (order : Order) (root : Tree) : List (List Bytes) :=
  (root.statements.filterMap functionBody?).map (Term.calls order)
    ++ [entryCalls order root.statements ++ mainCalls root.statements]

theorem entryCalls_cons (order : Order) (t : Tree) (ts : List Tree) :
    entryCalls order (t :: ts) = entryCalls order [t] ++ entryCalls order ts := by
  unfold entryCalls
  rw [← List.singleton_append, List.filter_append, List.map_append, List.flatMap_append]

theorem entryCalls_singleton {order : Order} {t : Tree} (h : t.isEntered = true) :
    entryCalls order [t] = (Term.ofTree t).calls order := by
  simp [entryCalls, h]

/-- Functions and classes are not lowered in the entry. -/
theorem entryCalls_declared (order : Order) {p : Payload}
    (h : p.kind = .funcDecl ∨ p.kind = .classDecl) (ts : List Tree) :
    entryCalls order [.node p ts] = [] := by
  have hskipped : isEntered (.node p ts) = false := by rcases h with h | h <;> simp [isEntered, h]
  simp [entryCalls, hskipped]

/-- A variable at the top level calls what its first value calls. -/
theorem entryCalls_varDecl (order : Order) {p : Payload} (h : p.kind = .varDecl) (ts : List Tree) :
    entryCalls order [.node p ts] = (Term.ofTrees ts).head?.toList.flatMap (Term.calls order) := by
  have hentered : isEntered (.node p ts) = true := by simp [isEntered, h]
  rw [entryCalls_singleton hentered, ← Stmt.calls_of_stmt? (Term.stmt?_varDecl h ts)]
  rfl

/-- Routine by routine, another order of arguments calls the same functions. -/
theorem callSequences_perm (root : Tree) :
    List.Forall₂ List.Perm (root.callSequences .backward) (root.callSequences .forward) := by
  have hflat (ts : List Term) :
      (ts.flatMap (Term.calls .backward)).Perm (ts.flatMap (Term.calls .forward)) :=
    List.Perm.flatMap_left ts fun t _ => t.calls_perm.symm
  refine List.rel_append ?_ (.cons ((hflat _).append_right _) .nil)
  rw [List.forall₂_map_left_iff, List.forall₂_map_right_iff]
  exact List.forall₂_same.mpr fun t _ => t.calls_perm.symm

/-- A routine in which no call has two arguments that call does not depend on their order. -/
theorem callSequences_of_orderly (root : Tree) :
    List.Forall₂ (fun ts s => (∀ t ∈ ts, Term.orderly t = true) → s.1 = s.2) root.routines
      ((root.callSequences .backward).zip (root.callSequences .forward)) := by
  have hentry {ts : List Term} (h : ∀ t ∈ ts, t.orderly = true) :
      ts.flatMap (Term.calls .backward) = ts.flatMap (Term.calls .forward) := by
    rw [List.flatMap_def, List.map_congr_left fun t ht => t.calls_of_orderly (h t ht),
      ← List.flatMap_def]
  unfold callSequences routines
  rw [List.zip_append (by rw [List.length_map, List.length_map]), List.zip_map']
  refine List.rel_append ?_ (.cons (fun h => ?_) .nil)
  · rw [List.forall₂_map_left_iff, List.forall₂_map_right_iff]
    exact List.forall₂_same.mpr fun t _ h => t.calls_of_orderly (h t (List.mem_singleton_self t))
  · exact congrArg (· ++ _) (hentry h)

end Tree

end Codegen
