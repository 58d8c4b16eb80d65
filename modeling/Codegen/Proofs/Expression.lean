import Codegen.Context.Typing
import Codegen.Proofs.Shape

/-!
# Integer Expressions

What the integer expressions of a program mean, apart from any target. Every
value is a word of 64 bits, a truth value is zero or one, and both operands of an
operator are always evaluated, the left one first.

The targets agree on everything except division. One of them traps where there is
no quotient, the other one goes on with a word, so the meaning of an expression is
given over the arithmetic of a target. `Arith.eval?` is the arithmetic that traps,
`Arith.wrap?` the one that does not.

`IntegerTree` picks the trees that are integer expressions in a context: literals,
variables of one word that hold no decimal, and operators, none of them with a
type from metadata. A literal keeps the type that reading gives it. The static
type of such a tree is never fat and never decimal, which is what sends both
backends down their integer paths (`typeOf_integerTree`).
-/

namespace Codegen

open Context

def truthWord (b : Bool) : Int64 := if b then 1 else 0

namespace Arith

/-- Arithmetic without traps: the quotient by zero is zero, and the one quotient
    that no word can hold wraps around. -/
def wrap (op : Arith) (a b : Int64) : Int64 :=
  match op with
  | .add => a + b
  | .sub => a - b
  | .mul => a * b
  | .div => a / b
  | .rem => a % b

/-- Arithmetic without traps, in the form of one that may have them. -/
def wrap? (op : Arith) (a b : Int64) : Option Int64 := some (op.wrap a b)

/-- A remainder is what a quotient leaves. -/
theorem rem_eq_sub (a b : Int64) : a % b = a - a / b * b := by
  apply Int64.toInt_inj.mp
  have hrange := Int64.toInt_lt (a % b)
  have hrange' := Int64.le_toInt (a % b)
  have hsplit : a.toInt - a.toInt.tdiv b.toInt * b.toInt = a.toInt.tmod b.toInt := by
    have h := Int.tmod_add_tdiv_mul a.toInt b.toInt
    omega
  rw [Int64.toInt_sub, Int64.toInt_mul, Int64.toInt_div, Int.bmod_mul_bmod, Int.sub_bmod_bmod,
    hsplit, ← Int64.toInt_mod]
  exact (Int.bmod_eq_of_le (by omega) (by omega)).symm

end Arith

/-- Whether a comparison holds. -/
def Compare.holds (op : Compare) (a b : Int64) : Bool :=
  match op with
  | .eq => a = b
  | .ne => a ≠ b
  | .lt => a < b
  | .le => a ≤ b
  | .gt => b < a
  | .ge => b ≤ a

/-- A truth value from two words. -/
def Logic.join (op : Logic) (a b : Int64) : Bool :=
  match op with
  | .and => a ≠ 0 && b ≠ 0
  | .or => a ≠ 0 || b ≠ 0

/-- The value of a binary operator on two words, none where the arithmetic traps. -/
def BinaryOp.value? (arith : Arith → Int64 → Int64 → Option Int64) (op : BinaryOp)
    (a b : Int64) : Option Int64 :=
  match op with
  | .arith op => arith op a b
  | .compare op => some (truthWord (op.holds a b))
  | .logic op => some (truthWord (op.join a b))

namespace Tree

/-- The value of an integer expression, given the values of variables; none when
    the arithmetic traps. -/
def evaluate (arith : Arith → Int64 → Int64 → Option Int64) (env : Bytes → Int64) :
    Tree → Option Int64
  | .missing => none
  | .node p ts =>
    match p.kind with
    | .integer => some p.integer
    | .boolean => some (truthWord p.boolean)
    | .ident => some (env p.name)
    | .binary =>
      match ts with
      | [l, r] =>
        match BinaryOp.ofText? p.op with
        | some op => do
          let a ← evaluate arith env l
          let b ← evaluate arith env r
          op.value? arith a b
        | none => none
      | _ => none
    | .unary =>
      match ts with
      | [t] => do
        let a ← evaluate arith env t
        if p.op = "not" then some (truthWord (a = 0)) else some (-a)
      | _ => none
    | _ => none
termination_by structural t => t

section Equations

variable (arith : Arith → Int64 → Int64 → Option Int64) (env : Bytes → Int64) (p : Payload)

theorem evaluate_integer (ts : List Tree) (h : p.kind = .integer) :
    (Tree.node p ts).evaluate arith env = some p.integer := by
  rw [evaluate.eq_def]
  simp [h]

theorem evaluate_boolean (ts : List Tree) (h : p.kind = .boolean) :
    (Tree.node p ts).evaluate arith env = some (truthWord p.boolean) := by
  rw [evaluate.eq_def]
  simp [h]

theorem evaluate_ident (ts : List Tree) (h : p.kind = .ident) :
    (Tree.node p ts).evaluate arith env = some (env p.name) := by
  rw [evaluate.eq_def]
  simp [h]

theorem evaluate_binary (l r : Tree) (op : BinaryOp) (h : p.kind = .binary)
    (hop : BinaryOp.ofText? p.op = some op) :
    (Tree.node p [l, r]).evaluate arith env = (l.evaluate arith env).bind fun a =>
      (r.evaluate arith env).bind fun b => op.value? arith a b := by
  rw [evaluate.eq_def]
  simp only [h, hop]
  rfl

theorem evaluate_unary (t : Tree) (h : p.kind = .unary) :
    (Tree.node p [t]).evaluate arith env = (t.evaluate arith env).map fun a =>
      if p.op = "not" then truthWord (a = 0) else -a := by
  rw [evaluate.eq_def]
  simp only [h]
  cases t.evaluate arith env with
  | none => rfl
  | some => by_cases hn : p.op = "not" <;> simp [hn]

end Equations

end Tree

/-- The trees that are integer expressions in a context. Names stand for variables
    of one word that is no decimal, and nothing has a type from metadata. -/
inductive IntegerTree (ctx : Context) : Tree → Prop where
  | integer (p : Payload) (ts : List Tree) (kind : p.kind = .integer)
      (type : p.type = .unknown ∨ p.type = .integer) : IntegerTree ctx (.node p ts)
  | boolean (p : Payload) (ts : List Tree) (kind : p.kind = .boolean)
      (type : p.type = .unknown ∨ p.type = .boolean) : IntegerTree ctx (.node p ts)
  | ident (p : Payload) (ts : List Tree) (sym : Symbol) (kind : p.kind = .ident)
      (type : p.type = .unknown) (named : ctx.varNamed? p.name = some sym)
      (scalar : sym.type.rep = .scalar) (integral : sym.type ≠ .decimal) :
      IntegerTree ctx (.node p ts)
  | binary (p : Payload) (l r : Tree) (op : BinaryOp) (kind : p.kind = .binary)
      (type : p.type = .unknown) (named : BinaryOp.ofText? p.op = some op)
      (left : IntegerTree ctx l) (right : IntegerTree ctx r) : IntegerTree ctx (.node p [l, r])
  | unary (p : Payload) (t : Tree) (kind : p.kind = .unary) (type : p.type = .unknown)
      (named : p.op = "-" ∨ p.op = "not") (operand : IntegerTree ctx t) :
      IntegerTree ctx (.node p [t])

theorem arithmeticType_integral (l r : Ty) (hl : l.rep = .scalar) (hl' : l ≠ .decimal)
    (hr : r.rep = .scalar) (hr' : r ≠ .decimal) :
    (arithmeticType l r).rep = .scalar ∧ arithmeticType l r ≠ .decimal := by
  have hfat : ¬ (l.rep = .fat || r.rep = .fat) = true := by
    rw [hl, hr]
    decide
  have hdec : ¬ (l = .decimal || r = .decimal) = true := by
    simp [hl', hr']
  unfold arithmeticType
  split_ifs
  · exact ⟨hr, hr'⟩
  · exact ⟨hl, hl'⟩

theorem resolvedType_unknown (p : Payload) (h : p.type = .unknown) :
    resolvedType? p = none := by
  unfold resolvedType?
  rw [h]
  rfl

/-- The static type of a literal is that of its kind, whether reading gave it that
    type or nothing did. -/
theorem typeOf_literal (ctx : Context) (p : Payload) (parts : List Term) (type : Ty)
    (hp : p.type = .unknown ∨ p.type = type)
    (hkind : resolvedType? p = none → ctx.typeOf (.node p parts) = .ok type) :
    ctx.typeOf (.node p parts) = .ok type := by
  by_cases hr : resolvedType? p = none
  · exact hkind hr
  · have hne : p.type ≠ .unknown := fun h => hr (resolvedType_unknown p h)
    have hsome : resolvedType? p = some p.type := by
      unfold resolvedType? at hr ⊢
      split at hr
      · rw [if_pos (by assumption)]
      · exact absurd rfl hr
    rw [typeOf.eq_def]
    rcases hp with hu | ht
    · exact absurd hu hne
    · simp [hsome, ht]

/-- Integer expressions are scalar and not decimal. -/
theorem typeOf_integerTree (ctx : Context) (t : Tree) (h : IntegerTree ctx t) :
    ∃ type, ctx.typeOf (.ofTree t) = .ok type ∧ type.rep = .scalar ∧ type ≠ .decimal := by
  induction h with
  | integer p ts kind type =>
    refine ⟨.integer, ?_, by decide, by decide⟩
    rw [Term.ofTree_node p ts (by simp [kind]) (by simp [kind])]
    refine typeOf_literal ctx p _ .integer type (fun hr => ?_)
    rw [typeOf.eq_def]
    simp [hr, kind]
  | boolean p ts kind type =>
    refine ⟨.boolean, ?_, by decide, by decide⟩
    rw [Term.ofTree_node p ts (by simp [kind]) (by simp [kind])]
    refine typeOf_literal ctx p _ .boolean type (fun hr => ?_)
    rw [typeOf.eq_def]
    simp [hr, kind]
  | ident p ts sym kind type named scalar integral =>
    refine ⟨sym.type, ?_, scalar, integral⟩
    rw [Term.ofTree_node p ts (by simp [kind]) (by simp [kind]),
      typeOf.eq_def]
    simp [resolvedType_unknown p type, kind, named]
  | binary p _ _ _ kind type _ _ _ ihl ihr =>
    rcases ihl with ⟨lt, hlt, hls, hld⟩
    rcases ihr with ⟨rt, hrt, hrs, hrd⟩
    rw [Term.ofTree_node p _ (by simp [kind]) (by simp [kind]),
      typeOf.eq_def]
    simp only [resolvedType_unknown p type, kind, Term.ofTrees, hlt, hrt]
    split_ifs
    · exact ⟨.boolean, rfl, by decide, by decide⟩
    · exact ⟨_, rfl, arithmeticType_integral lt rt hls hld hrs hrd⟩
  | unary p _ kind type _ _ ih =>
    rcases ih with ⟨ty, hty, hs, hd⟩
    rw [Term.ofTree_node p _ (by simp [kind]) (by simp [kind]),
      typeOf.eq_def]
    simp only [resolvedType_unknown p type, kind, Term.ofTrees, hty]
    split_ifs
    · exact ⟨.boolean, rfl, by decide, by decide⟩
    · exact ⟨ty, rfl, hs, hd⟩

namespace Sample

def slot : Symbol := .localVar "x" .integer 600

def static : Symbol := .staticVar "g" .unknown "kw_g"

def context : Context := { target := "sample", globals := [static], scopes := [[slot]] }

/-- The expression `70000 - x / g`. -/
def tree : Tree :=
  .node { kind := .binary, op := "-" } [
    .node { kind := .integer, integer := 70000, type := .integer } [],
    .node { kind := .binary, op := "/" } [
      .node { kind := .ident, name := "x" } [],
      .node { kind := .ident, name := "g" } []]]

theorem integerTree : IntegerTree context tree := by
  refine .binary _ _ _ (.arith .sub) rfl rfl (by decide) ?_ ?_
  · exact .integer _ _ rfl (Or.inr rfl)
  · refine .binary _ _ _ (.arith .div) rfl rfl (by decide) ?_ ?_
    · exact .ident _ _ slot rfl rfl (by decide) (by decide) (by decide)
    · exact .ident _ _ static rfl rfl (by decide) (by decide) (by decide)

theorem varNamed (name : Bytes) (sym : Symbol) (h : context.varNamed? name = some sym) :
    (name = "x" ∧ sym = slot) ∨ (name = "g" ∧ sym = static) := by
  have hx : slot.name = "x" := rfl
  have hg : static.name = "g" := rfl
  simp only [varNamed?, lookup?, context, Scope.resolve?, Scope.find?, List.cons_append,
    List.nil_append, List.findSome?_cons, List.find?_cons, hx, hg] at h
  by_cases hname : name = "x"
  · subst hname
    exact Or.inl ⟨rfl, (Option.some.inj h).symm⟩
  · by_cases hname' : name = "g"
    · subst hname'
      exact Or.inr ⟨rfl, (Option.some.inj h).symm⟩
    · rw [beq_false_of_ne (Ne.symm hname), beq_false_of_ne (Ne.symm hname')] at h
      exact absurd h (by simp)

end Sample

end Codegen
