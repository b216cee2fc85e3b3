import FocusRules.NodeGraph

/-! Condition items, the atoms of a condition. An item looks at some nodes near the one in question
and asks each of them for a property or for the outcome of a named predicate. -/

namespace FocusRules

inductive Target where
  | self
  | parent
  | children
deriving DecidableEq

namespace Target

def name : Target → String
  | self => "default"
  | parent => "parent"
  | children => "children"

def all : List Target := [self, parent, children]

def ofName? (s : String) : Option Target := all.find? (·.name = s)

theorem ofName?_name (t : Target) : ofName? t.name = some t := by cases t <;> decide

theorem name_of_ofName? {s : String} {t : Target} (h : ofName? s = some t) : t.name = s := by
  simpa using List.find?_some h

end Target

/-- What is held against the value: a property of the node, or whether a predicate holds there. -/
inductive Subject where
  | property (name : String)
  | predicate (name : String)
deriving DecidableEq

namespace Subject

def name : Subject → String
  | property name => name
  | predicate name => name

def isPredicate : Subject → Bool
  | property _ => false
  | predicate _ => true

end Subject

structure Item where
  subject : Subject
  operator : Operator
  value : Value
  target : Target := .self
  cascade : Bool := false
deriving DecidableEq

namespace Item

def withPredicate (item : Item) (predicate : Bool) : Item :=
  { item with subject := if predicate then .predicate item.subject.name
                         else .property item.subject.name }

/-- With cascade, all ancestors stand for the parent and all descendants for the children. -/
def targets (item : Item) (g : NodeGraph) (v : Fin g.size) : List (Fin g.size) :=
  match item.target, item.cascade with
  | .self, _ => [v]
  | .parent, false => (g.parent v).toList
  | .parent, true => g.ancestors v
  | .children, false => g.children v
  | .children, true => g.descendants v

end Item

end FocusRules
