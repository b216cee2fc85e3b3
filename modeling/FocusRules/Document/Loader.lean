import FocusRules.Document.Fault
import FocusRules.Json.Reader
import FocusRules.RuleSet

/-! Rule documents as JSON. Fields are read in a fixed order, and the first fault counts. In lenient
reading a faulty part of a combined condition is no fault of the document: a placeholder stands in
its place. -/

namespace FocusRules

inductive Strictness where
  | lenient
  | strict
deriving DecidableEq

def Value.ofInt? (n : Int) : Option Value :=
  if Int32.minValue.toInt ≤ n ∧ n ≤ Int32.maxValue.toInt then some (.number (Int32.ofInt n))
  else none

def Value.numberOfJson (n : Json.Number) : Load Value :=
  match n.whole?.bind Value.ofInt? with
  | some value => .ok value
  | none => .fail (.outOfRange n)

def Value.ofJson : Json → Load Value
  | .bool b => .ok (.bool b)
  | .string s => .ok (.string s)
  | .number n => Value.numberOfJson n
  | .array items => return .strings (StringSet.ofList (← Load.each Load.string 0 items))
  | .null | .object _ => .fail (.expected .comparand)

def Item.ofJson (j : Json) : Load Item := do
  let members ← Load.object j
  let name ← Load.field "prop" Load.string members
  let operator ← Load.field "operator" (Load.named Operator.ofName? .unknownOperator) members
  let value ← Load.field "value" Value.ofJson members
  let target ← Load.fieldOr .self "target" (Load.named Target.ofName? .unknownTarget) members
  let predicate ← Load.fieldOr false "is_custom" Load.bool members
  let cascade ← Load.fieldOr false "cascade" Load.bool members
  let subject := if predicate then .predicate name else .property name
  return { subject, operator, value, target, cascade }

namespace Condition

def itemsOfJson (mode : Mode) (j : Json) : Load (List Item) :=
  if mode = .single then return [← Item.ofJson j]
  else do
    let items ← Load.array j
    if items.length < 2 then Load.fail (.tooFewItems mode)
    Load.each Item.ofJson 0 items

/-- Takes a part of a combined condition, in lenient reading with a placeholder for a faulty one. -/
def tolerate (s : Strictness) (part : Load Condition) : Load Condition :=
  match s, part with
  | .lenient, .error _ => .ok placeholder
  | _, part => part

mutual

def ofJson (s : Strictness) : Json → Load Condition
  | .object members => do
    let mode ← Load.field "condition_type" (Load.named Mode.ofName? .unknownMode) members
    match partsOfMembers s members with
    | some parts => return .combined mode (← Load.within (.key "combined_condition") parts)
    | none => return .flat mode (← Load.field "condition" (itemsOfJson mode) members)
  | _ => Load.fail (.expected .object)

def partsOfMembers (s : Strictness) : List (String × Json) → Option (Load (List Condition))
  | [] => none
  | (name, j) :: rest =>
    match partsOfMembers s rest with
    | some parts => some parts
    | none => if name = "combined_condition" then some (partsOfJson s j) else none

def partsOfJson (s : Strictness) : Json → Load (List Condition)
  | .array items =>
    if items.isEmpty then Load.fail .noParts else partsOfItems s 0 items
  | _ => Load.fail (.expected .array)

def partsOfItems (s : Strictness) (i : Nat) : List Json → Load (List Condition)
  | [] => .ok []
  | j :: rest => do
    let part ← Load.within (.index i) (tolerate s (ofJson s j))
    return part :: (← partsOfItems s (i + 1) rest)

end

def partOfJson (s : Strictness) (j : Json) : Load Condition := tolerate s (ofJson s j)

end Condition

def Rule.ofJson (s : Strictness) (j : Json) : Load Rule := do
  let members ← Load.object j
  let name ← Load.field "name" Load.string members
  let isFocus ← Load.field "isfocus" Load.bool members
  let condition ← Load.field "check" (Condition.ofJson s) members
  return { name, condition, isFocus }

/-- The names of two classes have to be strings. In the third, what is no string is passed over. -/
def TypeClasses.ofJson (j : Json) : Load TypeClasses := do
  let members ← Load.object j
  let roots ← Load.fieldOr [] "root_types" (Load.arrayOf Load.string) members
  let ignored ← Load.fieldOr [] "disabled_scroll_types" (Load.arrayOf Load.string) members
  let scrollable ← Load.fieldOr [] "scrollable_types" Load.array members
  let addAll (k : TypeClass) (types : TypeClasses) (names : List String) : TypeClasses :=
    names.foldl (fun types name => types.add name k) types
  let types := addAll .scrollIgnore (addAll .root {} roots) ignored
  return addAll .scrollable types (scrollable.filterMap Json.asString?)

/-- Definitions are read in ascending order of their names. -/
def Predicates.ofJson (s : Strictness) (j : Json) : Load Predicates := do
  let members ← Load.object j
  (Dictionary.ofList members).entries.foldlM (fun predicates e => do
    let condition ← Load.within (.key e.1) (Condition.ofJson s e.2)
    return predicates.insert e.1 condition) ∅

namespace RuleSet

def rulesOfJson (s : Strictness) (j : Json) : Load (List Rule) := do
  let items ← Load.array j
  if items.isEmpty then Load.fail .noRules
  Load.each (Rule.ofJson s) 0 items

def ofJson (s : Strictness) (j : Json) : Load RuleSet := do
  let members ← Load.object j
  let types ← Load.field "defines" TypeClasses.ofJson members
  let predicates ← Load.fieldOr ∅ "custom_props" (Predicates.ofJson s) members
  let rules ← Load.field "rules" (rulesOfJson s) members
  return { types, predicates, rules }

inductive Refusal where
  | notJson
  | fault (f : Fault)
deriving DecidableEq

def ofText (s : Strictness) (text : String) : Except Refusal RuleSet :=
  match Json.read? text with
  | none => .error .notJson
  | some j => (ofJson s j).mapError .fault

end RuleSet

end FocusRules
