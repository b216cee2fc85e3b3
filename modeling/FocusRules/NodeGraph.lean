import FocusRules.Node

/-! Finitely many nodes with links to a parent and to children. The links are data: they need not
agree with each other, and ids may repeat, so a node is known by its place and not by its id. Walks
along the links take at most as many steps as there are nodes, which cuts a walk short only where
the links run in a circle. -/

namespace FocusRules

structure NodeGraph where
  size : Nat
  node : Fin size → Node
  parent : Fin size → Option (Fin size)
  children : Fin size → List (Fin size)

namespace NodeGraph

/-- One node with its links given as places in a table. -/
structure Row where
  node : Node
  parent : Option Nat := none
  children : List Nat := []

def place? (n k : Nat) : Option (Fin n) := if h : k < n then some ⟨k, h⟩ else none

theorem place?_eq_some_iff {n k : Nat} {v : Fin n} : place? n k = some v ↔ k = v := by
  rw [place?]
  split
  next h => rw [Option.some.injEq, Fin.ext_iff]
  next h => exact ⟨nofun, fun hk => absurd (hk ▸ v.isLt) h⟩

/-- The graph of a table. A link that leaves the table is no link. -/
def ofRows (rows : Array Row) : NodeGraph where
  size := rows.size
  node v := rows[v].node
  parent v := rows[v].parent.bind (place? rows.size)
  children v := rows[v].children.filterMap (place? rows.size)

variable (g : NodeGraph)

def places : List (Fin g.size) := List.finRange g.size

def id (v : Fin g.size) : NodeId := (g.node v).id

def ancestorsWithin : Nat → Fin g.size → List (Fin g.size)
  | 0, _ => []
  | steps + 1, v =>
    match g.parent v with
    | none => []
    | some p => p :: ancestorsWithin steps p

/-- The strict ancestors, nearest first. -/
def ancestors (v : Fin g.size) : List (Fin g.size) := g.ancestorsWithin g.size v

/-- The node and then its ancestors. -/
def chain (v : Fin g.size) : List (Fin g.size) := v :: g.ancestors v

def descendantsWithin : Nat → Fin g.size → List (Fin g.size)
  | 0, _ => []
  | steps + 1, v => g.children v ++ (g.children v).flatMap (descendantsWithin steps)

/-- The strict descendants: all children first, then the descendants of each child in turn. -/
def descendants (v : Fin g.size) : List (Fin g.size) := g.descendantsWithin g.size v

end NodeGraph

end FocusRules
