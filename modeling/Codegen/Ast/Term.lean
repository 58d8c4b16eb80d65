import Codegen.Ast.Tree

/-!
# Terms

A term is a syntax tree whose calls are resolved: what is called, and with which
arguments. A pipe is the call it abbreviates. `v |> f` calls `f` with `v`, and
`v |> f(a, b)` calls `f` with `v`, `a` and `b`; the node remains a pipe in
diagnostics and keeps the type of the pipe.

Code generators work on terms, so each of them sees one kind of call, and their
recursion follows the structure of the term.
-/

namespace Codegen

/-- A syntax tree with resolved calls. The callee is absent when it refers to no
    node, and empty when the call has no callee at all. -/
inductive Term where
  | node (payload : Payload) (parts : List Term)
  | call (payload : Payload) (callee : Option Bytes) (args : List Term)
  | missing
  deriving Repr, Inhabited

namespace Tree

def name? (t : Tree) : Option Bytes := t.payload?.map Payload.name

/-- The callee and the arguments of a call or a pipe; neither for any other tree,
    and no result when the callee refers to no node. -/
def callParts? : Tree → Option (Bytes × List Tree)
  | .missing => none
  | .node p ts =>
    match p.kind, ts with
    | .call, callee :: args => callee.name?.map (·, args)
    | .pipe, [value, .node q us] =>
      match q.kind, us with
      | .ident, _ => some (q.name, [value])
      | .call, callee :: args => callee.name?.map (·, value :: args)
      | _, _ => some ([], [])
    | .pipe, [_, .missing] => none
    | _, _ => some ([], [])

end Tree

namespace Term

mutual

/-- The term of a tree. -/
def ofTree : Tree → Term
  | .missing => .missing
  | .node p ts =>
    match p.kind, ts with
    | .call, [] => .call p (some []) []
    | .call, callee :: args => .call p callee.name? (ofTrees args)
    | .pipe, [value, .node q us] =>
      match q.kind, us with
      | .ident, _ => .call p (some q.name) [ofTree value]
      | .call, callee :: args => .call p callee.name? (ofTree value :: ofTrees args)
      | _, _ => .call p (some []) []
    | .pipe, [_, .missing] => .call p none []
    | .pipe, _ => .call p (some []) []
    | _, ts => .node p (ofTrees ts)

def ofTrees : List Tree → List Term
  | [] => []
  | t :: ts => ofTree t :: ofTrees ts

end

def payload? : Term → Option Payload
  | .node p _ | .call p _ _ => some p
  | .missing => none

def kind (t : Term) : Kind := (t.payload?.map Payload.kind).getD (.other [])

end Term

namespace Tree

/-- The statements of a program, or the tree itself when it is a lone statement. -/
def statements : Tree → List Tree
  | .node p ts => if p.kind.isBlockLike then ts else [.node p ts]
  | .missing => [.missing]

/-- The words that a node itself needs: those of a declared variable, and a
    counter and a limit for a counting loop. A variable whose type is inferred may
    turn out fat. -/
def ownWords (p : Payload) : Nat :=
  match p.kind with
  | .varDecl => if p.type = .unknown then Rep.fat.words else p.type.rep.words
  | .forRange => 2
  | _ => 0

mutual

/-- The words that a function body needs for its locals; none when it has a hole.
    Functions inside it are not counted. -/
def localWords : Tree → Option Nat
  | .missing => none
  | .node p ts =>
    if p.kind = .funcDecl then some 0 else (allWords ts).map (ownWords p + ·)

def allWords : List Tree → Option Nat
  | [] => some 0
  | t :: ts =>
    match localWords t, allWords ts with
    | some m, some n => some (m + n)
    | _, _ => none

end

/-- The words that the statements at the top level need. Variables declared there
    are global. -/
def entryWords (t : Tree) : Option Nat :=
  allWords (t.statements.filter fun s => s.payload?.map Payload.kind != some .varDecl)

end Tree

end Codegen
