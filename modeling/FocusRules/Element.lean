import FocusRules.NodeGraph

/-! Trees of accessibility elements, and the node graph of a tree. The places of the graph are the
elements in pre-order, so an element's subtree occupies the places from its own on. -/

namespace FocusRules

inductive Element where
  | mk (id : NodeId) (attributes : Attributes) (modal : Bool) (children : List Element)

namespace Element

def id : Element → NodeId
  | mk id _ _ _ => id

def attributes : Element → Attributes
  | mk _ attributes _ _ => attributes

def modal : Element → Bool
  | mk _ _ modal _ => modal

def children : Element → List Element
  | mk _ _ _ children => children

def add (e : Element) (more : List Element) : Element :=
  mk e.id e.attributes e.modal (e.children ++ more)

/-- How many children there are, missing where the count has no 32-bit form. -/
def childrenCount (e : Element) : Option Int32 :=
  if e.children.length ≤ Int32.maxValue.toInt then some (Int32.ofNat e.children.length) else none

def node (e : Element) : Node := ⟨e.id, e.attributes, e.childrenCount, e.modal⟩

mutual

def size : Element → Nat
  | mk _ _ _ children => sizes children + 1

def sizes : List Element → Nat
  | [] => 0
  | e :: rest => size e + sizes rest

end

mutual

/-- The element and all below it, each before its children. -/
def preorder : Element → List Element
  | mk id attributes modal children => mk id attributes modal children :: preorders children

def preorders : List Element → List Element
  | [] => []
  | e :: rest => preorder e ++ preorders rest

end

/-- Where the trees of a list begin, the first of them at a given place. -/
def starts : Nat → List Element → List Nat
  | _, [] => []
  | start, e :: rest => start :: starts (start + e.size) rest

mutual

/-- The table of a tree whose root stands at a given place. -/
def rows (parent : Option Nat) (start : Nat) : Element → List NodeGraph.Row
  | mk id attributes modal children =>
    ⟨(mk id attributes modal children).node, parent, starts (start + 1) children⟩ ::
      rowsOf start (start + 1) children

def rowsOf (parent start : Nat) : List Element → List NodeGraph.Row
  | [] => []
  | e :: rest => rows (some parent) start e ++ rowsOf parent (start + e.size) rest

end

def graph (e : Element) : NodeGraph := .ofRows (e.rows none 0).toArray

mutual

theorem length_preorder : ∀ e : Element, e.preorder.length = e.size
  | mk _ _ _ children => by rw [preorder, size, List.length_cons, length_preorders children]

theorem length_preorders : ∀ l : List Element, (preorders l).length = sizes l
  | [] => rfl
  | e :: rest => by
    rw [preorders, sizes, List.length_append, length_preorder e, length_preorders rest]

end

mutual

theorem length_rows (parent : Option Nat) (start : Nat) : ∀ e : Element,
    (e.rows parent start).length = e.size
  | mk _ _ _ children => by rw [rows, size, List.length_cons, length_rowsOf start _ children]

theorem length_rowsOf (parent start : Nat) : ∀ l : List Element,
    (rowsOf parent start l).length = sizes l
  | [] => rfl
  | e :: rest => by
    rw [rowsOf, sizes, List.length_append, length_rows _ start e, length_rowsOf parent _ rest]

end

theorem graph_size (e : Element) : e.graph.size = e.size := by
  simp [graph, NodeGraph.ofRows, length_rows]

mutual

/-- The place, counted from the element itself, of the first element with this id. -/
def find? (x : NodeId) : Element → Option Nat
  | mk id _ _ children => if id = x then some 0 else (findIn? x children).map (· + 1)

def findIn? (x : NodeId) : List Element → Option Nat
  | [] => none
  | e :: rest =>
    match find? x e with
    | some i => some i
    | none => (findIn? x rest).map (· + e.size)

end

def findFrom? (e : Element) (start : Nat) (x : NodeId) : Option Nat :=
  e.preorder[start]?.bind fun sub => (sub.find? x).map (start + ·)

end Element

end FocusRules
