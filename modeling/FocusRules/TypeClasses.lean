import FocusRules.NodeGraph

/-! Classes of component types. Type names are compared without regard to the case of ASCII letters,
all other characters exactly. The root class decides which nodes block the rest of the screen. -/

namespace FocusRules

inductive TypeClass where
  | root
  | scrollIgnore
  | scrollable
deriving DecidableEq

/-- The type names of each class, with ASCII letters in lower case. -/
structure TypeClasses where
  root : StringSet := ∅
  scrollIgnore : StringSet := ∅
  scrollable : StringSet := ∅
deriving DecidableEq

namespace TypeClasses

instance : Inhabited TypeClasses := ⟨{}⟩

def foldCase (name : String) : String := name.map Char.toLower

def names (types : TypeClasses) : TypeClass → StringSet
  | .root => types.root
  | .scrollIgnore => types.scrollIgnore
  | .scrollable => types.scrollable

def add (types : TypeClasses) (name : String) : TypeClass → TypeClasses
  | .root => { types with root := types.root.insert (foldCase name) }
  | .scrollIgnore => { types with scrollIgnore := types.scrollIgnore.insert (foldCase name) }
  | .scrollable => { types with scrollable := types.scrollable.insert (foldCase name) }

def has (types : TypeClasses) (k : TypeClass) (name : String) : Bool :=
  (types.names k).contains (foldCase name)

/-- A node of a root type counts as one only while it is modal. -/
def isRoot (types : TypeClasses) (n : Node) : Bool :=
  n.attributes.type.any (types.has .root) && n.modal

def isScrollIgnored (types : TypeClasses) (n : Node) : Bool :=
  n.attributes.type.any (types.has .scrollIgnore)

def isScrollable (types : TypeClasses) (n : Node) : Bool :=
  n.attributes.type.any (types.has .scrollable)

/-- What one node on the way up says about availability. A root node is in front and shows what is
below it, and a root node that is last among its siblings covers the others. -/
def availableBy (types : TypeClasses) (g : NodeGraph) (v : Fin g.size) : Option Bool :=
  if types.isRoot (g.node v) then some true
  else if (g.children v).getLast?.any (fun c => types.isRoot (g.node c)) then some false
  else none

/-- The nearest node that says something decides, and a node is available if none does. -/
def isAvailable (types : TypeClasses) (g : NodeGraph) (v : Fin g.size) : Bool :=
  ((g.chain v).findSome? (types.availableBy g)).getD true

end TypeClasses

end FocusRules
