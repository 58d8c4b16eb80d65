import Codegen.Ast.Arena
import Codegen.Ast.Operator

/-!
# Optimization

One traversal, children before parents, that changes an arena in place:

* arithmetic on two integer literals becomes a literal, unless it would trap;
* a product with the literal two becomes a sum of the other factor with a copy of
  itself, if evaluating that factor twice makes no difference;
* statements after a `return` in the same block are dropped.

A node that is replaced keeps its old contents. Its replacement is a new node,
and the parent holds the new index; every other node is updated where it is.
-/

namespace Codegen

namespace Tree

mutual

/-- Whether evaluating a tree twice is indistinguishable from evaluating it once;
    none when the answer depends on a hole. -/
def isPure : Tree → Option Bool
  | .missing => none
  | .node p ts =>
    match p.kind with
    | .integer | .decimal | .boolean | .ident => some true
    | .binary | .unary | .index => allPure ts
    | _ => some false

def allPure : List Tree → Option Bool
  | [] => some true
  | t :: ts =>
    match isPure t with
    | some true => allPure ts
    | answer => answer

end

end Tree

/-- How often each simplification was applied. -/
structure Stats where
  folded : Nat := 0
  reduced : Nat := 0
  pruned : Nat := 0
  deriving DecidableEq, Repr

namespace Optimize

/-- Changing an arena while counting. A failure keeps the arena. -/
abbrev Pass := StateT Stats Arena.Build

def fetch (id : NodeId) : Pass Node := StateT.lift (Arena.fetch id)

def literal? (n : Node) : Option Int64 := if n.kind = .integer then some n.integer else none

def foldedValue? (op : Bytes) (left right : Node) : Option Int64 :=
  match BinaryOp.ofText? op, literal? left, literal? right with
  | some (.arith op), some a, some b => op.eval? a b
  | _, _, _ => none

def isPure (id : NodeId) : Pass Bool := do
  match ((← StateT.lift get).tree id).isPure with
  | some answer => return answer
  | none => throw .missingNode

/-- Whether `x`, which has the node `n`, may be doubled when its other factor is `other`. -/
def doubles (x : NodeId) (n other : Node) : Pass Bool := do
  if literal? other = some 2 && n.kind != .integer then isPure x else return false

def doubled? (op : Bytes) (left right : NodeId) : Pass (Option NodeId) := do
  if op = "*" then
    let l ← fetch left
    let r ← fetch right
    if ← doubles left l r then return some left
    else if ← doubles right r l then return some right
    else return none
  else return none

/-- How many statements remain when those after the first `return` are dropped. -/
def reachable : List NodeId → Pass Nat
  | [] => return 0
  | stmt :: rest => do
    let n ← fetch stmt
    if n.kind = .ret then return 1 else return (← reachable rest) + 1

/-- The replacement of a binary node whose operands are simplified, if it has one. -/
def replacement? (n : Node) (left right : NodeId) : Pass (Option NodeId) := do
  match foldedValue? n.op (← fetch left) (← fetch right) with
  | some value =>
    modify fun s => { s with folded := s.folded + 1 }
    let id ← StateT.lift (Arena.new { kind := .integer, integer := value, type := .integer })
    return some id
  | none =>
    match ← doubled? n.op left right with
    | some x =>
      modify fun s => { s with reduced := s.reduced + 1 }
      let copy ← StateT.lift (Arena.clone x)
      let sum : Node := { kind := .binary, op := "+", type := n.type, children := [x, copy] }
      let id ← StateT.lift (Arena.new sum)
      return some id
    | none => return none

/-- Stores a node whose children are simplified, without unreachable statements. -/
def settle (id : NodeId) (n : Node) : Pass NodeId := do
  if n.kind.isBlockLike then
    let count ← reachable n.children
    modify fun s => { s with pruned := s.pruned + (n.children.length - count) }
    StateT.lift (Arena.replace id { n with children := n.children.take count })
  else StateT.lift (Arena.replace id n)
  return id

/-- Simplifies the tree below an index down to a depth, and gives the index of the
    result. -/
def simplify : Nat → NodeId → Pass NodeId
  | 0, _ => throw .missingNode
  | depth + 1, id => do
    let old ← fetch id
    let children ← old.children.mapM (simplify depth)
    let n := { old with children }
    match n.kind, children with
    | .binary, [left, right] =>
      match ← replacement? n left right with
      | some new => return new
      | none => settle id n
    | _, _ => settle id n

/-- One pass over the tree below an index. -/
def run (root : NodeId) : Arena.Build (NodeId × Stats) := do
  (simplify ((← get).size + 1) root).run {}

end Optimize

end Codegen
