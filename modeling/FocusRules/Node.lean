import FocusRules.Value

/-! What one accessibility node carries, and the properties that rules read from it. Each of the ten
properties has one spelling in rule documents, and a node may lack any of them. -/

namespace FocusRules

abbrev NodeId := Int64

inductive Property where
  | text
  | hintText
  | description
  | accessibilityText
  | type
  | accessibilityLevel
  | accessibilityGroup
  | isEnable
  | childrenCount
  | actionNames
deriving DecidableEq

namespace Property

def name : Property → String
  | text => "text"
  | hintText => "hintText"
  | description => "description"
  | accessibilityText => "accessibilityText"
  | type => "type"
  | accessibilityLevel => "accessibilityLevel"
  | accessibilityGroup => "accessibilityGroup"
  | isEnable => "isEnable"
  | childrenCount => "children_count"
  | actionNames => "actionNames"

def all : List Property :=
  [text, hintText, description, accessibilityText, type, accessibilityLevel, accessibilityGroup,
    isEnable, childrenCount, actionNames]

def ofName? (s : String) : Option Property := all.find? (·.name = s)

theorem ofName?_name (p : Property) : ofName? p.name = some p := by cases p <;> decide

theorem name_of_ofName? {s : String} {p : Property} (h : ofName? s = some p) : p.name = s := by
  simpa using List.find?_some h

end Property

structure Attributes where
  text : Option String := none
  hintText : Option String := none
  description : Option String := none
  accessibilityText : Option String := none
  type : Option String := none
  accessibilityLevel : Option String := none
  accessibilityGroup : Option Bool := none
  isEnable : Option Bool := none
  actionNames : Option StringSet := none
deriving DecidableEq, Inhabited

structure Node where
  id : NodeId
  attributes : Attributes := {}
  childrenCount : Option Int32 := none
  modal : Bool := true
deriving DecidableEq, Inhabited

namespace Node

def read (n : Node) : Property → Option Value
  | .text => n.attributes.text.map .string
  | .hintText => n.attributes.hintText.map .string
  | .description => n.attributes.description.map .string
  | .accessibilityText => n.attributes.accessibilityText.map .string
  | .type => n.attributes.type.map .string
  | .accessibilityLevel => n.attributes.accessibilityLevel.map .string
  | .accessibilityGroup => n.attributes.accessibilityGroup.map .bool
  | .isEnable => n.attributes.isEnable.map .bool
  | .childrenCount => n.childrenCount.map .number
  | .actionNames => n.attributes.actionNames.map .strings

def readNamed (n : Node) (name : String) : Option Value := (Property.ofName? name).bind n.read

end Node

end FocusRules
