import Codegen.Ast.Tree
import Codegen.Fault

/-!
# Arenas

An arena holds the nodes of one compilation in the order they were made. Nodes
refer to their children by index and are never freed: an optimization makes a new node
and changes the index that the parent holds. An index may refer to nothing, as
`-1` always does.

Operations that add nodes one after the other can fail halfway, and the nodes
added so far remain. They live in `Arena.Build`, whose failures keep the state.

`Arena.tree` is the view of the part of an arena below an index. The number of
nodes bounds the length of every path in an arena without cycles, so it serves as
fuel; a cycle would end in a hole.
-/

namespace Codegen

/-- Indices of nodes. They are kept in 32 bits with a sign, which is enough for an arena of at
    most `Arena.capacity` nodes. -/
abbrev NodeId := Int

/-- A payload with the indices of the children. -/
structure Node extends Payload where
  children : List NodeId := []
  deriving DecidableEq, Repr, Inhabited

/-- The nodes of one compilation. -/
structure Arena where
  nodes : Array Node := #[]
  deriving Repr, Inhabited

namespace Arena

def size (a : Arena) : Nat := a.nodes.size

/-- How many nodes can be told apart by an index of 32 bits, one of which is the sign. -/
def capacity : Nat := 0x80000000

/-- The node at an index. -/
def get? (a : Arena) (id : NodeId) : Option Node :=
  if id < 0 then none else a.nodes[id.toNat]?

def valid (a : Arena) (id : NodeId) : Bool := 0 ≤ id && id < a.size

/-- The arena with one more node; its index is the old size. -/
def push (a : Arena) (n : Node) : Arena := ⟨a.nodes.push n⟩

/-- The arena with another node at an index. -/
def put (a : Arena) (id : NodeId) (n : Node) : Arena := ⟨a.nodes.setIfInBounds id.toNat n⟩

def treeTo (a : Arena) : Nat → NodeId → Tree
  | 0, _ => .missing
  | depth + 1, id =>
    match a.get? id with
    | none => .missing
    | some n => .node n.toPayload (n.children.map (a.treeTo depth))

/-- The tree below an index. -/
def tree (a : Arena) (id : NodeId) : Tree := a.treeTo (a.size + 1) id

/-- Operations on an arena. A failure keeps what was done before it. -/
abbrev Build := ExceptT Fault (StateM Arena)

def new (n : Node) : Build NodeId := modifyGet fun a => (a.size, a.push n)

def fetch (id : NodeId) : Build Node := do
  match (← get).get? id with
  | some n => return n
  | none => throw .missingNode

def replace (id : NodeId) (n : Node) : Build Unit := do
  if (← get).valid id then modify fun a => a.put id n else throw .missingNode

mutual

/-- Lays a tree out, children first, and gives the index of its root. -/
def add : Tree → Build NodeId
  | .missing => throw .missingNode
  | .node p ts => do
    let ids ← addAll ts
    new { p with children := ids }

def addAll : List Tree → Build (List NodeId)
  | [] => return []
  | t :: ts => do
    let id ← add t
    let ids ← addAll ts
    return id :: ids

end

/-- A copy of the tree below an index. -/
def clone (id : NodeId) : Build NodeId := do
  add ((← get).tree id)

end Arena

end Codegen
