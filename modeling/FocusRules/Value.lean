import FocusRules.StringSet

/-! Property values and the operators that compare them. A comparison holds only between the kinds
its operator is for: equality within one scalar kind, membership of a string in a set, and overlap
of two sets. Every other pairing is false, for the negative operators too. -/

namespace FocusRules

inductive Operator where
  | eq
  | ne
  | notOneOf
  | isOneOf
  | hasAny
deriving DecidableEq

namespace Operator

def name : Operator → String
  | eq => "eq"
  | ne => "ne"
  | notOneOf => "not_oneof"
  | isOneOf => "is_oneof"
  | hasAny => "has_any"

def all : List Operator := [eq, ne, notOneOf, isOneOf, hasAny]

def ofName? (s : String) : Option Operator := all.find? (·.name = s)

theorem ofName?_name (o : Operator) : ofName? o.name = some o := by cases o <;> decide

theorem name_of_ofName? {s : String} {o : Operator} (h : ofName? s = some o) : o.name = s := by
  simpa using List.find?_some h

end Operator

inductive Value where
  | unknown
  | bool (b : Bool)
  | string (s : String)
  | strings (set : StringSet)
  | number (n : Int32)
deriving DecidableEq

namespace Value

inductive Kind where
  | unknown
  | bool
  | string
  | strings
  | number
deriving DecidableEq

def kind : Value → Kind
  | unknown => .unknown
  | bool _ => .bool
  | string _ => .string
  | strings _ => .strings
  | number _ => .number

/-- The first value is the one that a node carries, the second the one it is held against. -/
def compare : Value → Operator → Value → Bool
  | string s, .eq, string t => s = t
  | string s, .ne, string t => s ≠ t
  | string s, .isOneOf, strings set => set.contains s
  | string s, .notOneOf, strings set => !set.contains s
  | strings s, .hasAny, strings t => s.meets t
  | number m, .eq, number n => m = n
  | number m, .ne, number n => m ≠ n
  | bool a, .eq, bool b => a = b
  | bool a, .ne, bool b => a ≠ b
  | _, _, _ => false

def asString? : Value → Option String
  | string s => some s
  | _ => none

def asBool? : Value → Option Bool
  | bool b => some b
  | _ => none

/-- Strings stand between quotes as they are, the members of a set without any. -/
def render : Value → String
  | unknown => "<unknown>"
  | bool b => toString b
  | string s => "\"" ++ s ++ "\""
  | strings set => "[" ++ ", ".intercalate set.toList ++ "]"
  | number n => toString n.toInt

end Value

end FocusRules
