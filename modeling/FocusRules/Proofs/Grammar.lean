import FocusRules.Document.Loader
import Mathlib.Data.List.Forall2

/-! The grammar of rule documents, said without a reader: which JSON values are documents, and which
rule set a document stands for. Members that the grammar does not name may stand anywhere. In
lenient reading the parts of a combined condition may be any JSON, and a placeholder stands for a
part that is no condition. -/

namespace FocusRules

def Json.get? (j : Json) (name : String) : Option Json := j.asObject?.bind (Json.member? name)

@[simp] theorem Json.get?_object (members : List (String × Json)) (name : String) :
    (Json.object members).get? name = Json.member? name members := rfl

/-- What a subject may be held against. A number counts without its fraction and has to fit 32
bits. -/
inductive IsComparand : Json → Prop
  | bool (b : Bool) : IsComparand (.bool b)
  | string (s : String) : IsComparand (.string s)
  | strings (names : List String) : IsComparand (.array (names.map .string))
  | number {n : Json.Number} : -2147483648 ≤ n.truncate → n.truncate ≤ 2147483647 →
      IsComparand (.number n)

structure IsItem (j : Json) : Prop where
  prop : ∃ name, j.get? "prop" = some (.string name)
  operator : ∃ o : Operator, j.get? "operator" = some (.string o.name)
  value : ∃ v, j.get? "value" = some v ∧ IsComparand v
  target : ∀ v, j.get? "target" = some v → ∃ t : Target, v = .string t.name
  custom : ∀ v, j.get? "is_custom" = some v → ∃ b, v = .bool b
  cascade : ∀ v, j.get? "cascade" = some v → ∃ b, v = .bool b

inductive IsCondition (s : Strictness) : Json → Prop
  | combined {j : Json} {mode : String} {parts : List Json} :
      j.get? "condition_type" = some (.string mode) → mode ∈ ["single", "and", "or"] →
      j.get? "combined_condition" = some (.array parts) → parts ≠ [] →
      (s = .strict → ∀ p ∈ parts, IsCondition s p) → IsCondition s j
  | single {j item : Json} :
      j.get? "condition_type" = some (.string "single") → j.get? "combined_condition" = none →
      j.get? "condition" = some item → IsItem item → IsCondition s j
  | list {j : Json} {mode : String} {items : List Json} :
      j.get? "condition_type" = some (.string mode) → mode ∈ ["and", "or"] →
      j.get? "combined_condition" = none → j.get? "condition" = some (.array items) →
      2 ≤ items.length → (∀ item ∈ items, IsItem item) → IsCondition s j

structure IsRule (s : Strictness) (j : Json) : Prop where
  name : ∃ name, j.get? "name" = some (.string name)
  focus : ∃ b, j.get? "isfocus" = some (.bool b)
  check : ∃ c, j.get? "check" = some c ∧ IsCondition s c

structure IsDefines (j : Json) : Prop where
  object : ∃ members, j = .object members
  root : ∀ v, j.get? "root_types" = some v → ∃ names : List String, v = .array (names.map .string)
  scrollIgnore : ∀ v, j.get? "disabled_scroll_types" = some v →
    ∃ names : List String, v = .array (names.map .string)
  scrollable : ∀ v, j.get? "scrollable_types" = some v → ∃ items, v = .array items

structure IsPredicates (s : Strictness) (j : Json) : Prop where
  object : ∃ members, j = .object members
  condition : ∀ name c, j.get? name = some c → IsCondition s c

structure IsDocument (s : Strictness) (j : Json) : Prop where
  defines : ∃ v, j.get? "defines" = some v ∧ IsDefines v
  predicates : ∀ v, j.get? "custom_props" = some v → IsPredicates s v
  rules : ∃ rules, j.get? "rules" = some (.array rules) ∧ rules ≠ [] ∧ ∀ r ∈ rules, IsRule s r

inductive Value.ReadFrom : Json → Value → Prop
  | bool (b : Bool) : ReadFrom (.bool b) (.bool b)
  | string (s : String) : ReadFrom (.string s) (.string s)
  | strings {names : List String} {set : StringSet} : (∀ x, x ∈ set ↔ x ∈ names) →
      ReadFrom (.array (names.map .string)) (.strings set)
  | number {n : Json.Number} {k : Int32} : k.toInt = n.truncate → ReadFrom (.number n) (.number k)

/-- An item looks at its own node, names a property and does not cascade unless it says so. -/
structure Item.ReadFrom (j : Json) (item : Item) : Prop where
  prop : j.get? "prop" = some (.string item.subject.name)
  operator : j.get? "operator" = some (.string item.operator.name)
  value : ∃ v, j.get? "value" = some v ∧ Value.ReadFrom v item.value
  target : j.get? "target" = some (.string item.target.name) ∨
    (j.get? "target" = none ∧ item.target = .self)
  custom : j.get? "is_custom" = some (.bool item.subject.isPredicate) ∨
    (j.get? "is_custom" = none ∧ item.subject.isPredicate = false)
  cascade : j.get? "cascade" = some (.bool item.cascade) ∨
    (j.get? "cascade" = none ∧ item.cascade = false)

inductive Condition.ReadFrom (s : Strictness) : Json → Condition → Prop
  | combined {j : Json} {mode : Mode} {parts : List (Json × Condition)} :
      j.get? "condition_type" = some (.string mode.name) → mode ≠ .unknown →
      j.get? "combined_condition" = some (.array (parts.map Prod.fst)) → parts ≠ [] →
      (∀ p ∈ parts, IsCondition s p.1 → ReadFrom s p.1 p.2) →
      (∀ p ∈ parts, ¬IsCondition s p.1 → s = .lenient ∧ p.2 = .placeholder) →
      ReadFrom s j (.combined mode (parts.map Prod.snd))
  | single {j v : Json} {item : Item} :
      j.get? "condition_type" = some (.string "single") → j.get? "combined_condition" = none →
      j.get? "condition" = some v → Item.ReadFrom v item → ReadFrom s j (.flat .single [item])
  | list {j : Json} {mode : Mode} {js : List Json} {items : List Item} :
      j.get? "condition_type" = some (.string mode.name) → mode = .and ∨ mode = .or →
      j.get? "combined_condition" = none → j.get? "condition" = some (.array js) →
      2 ≤ js.length → List.Forall₂ Item.ReadFrom js items → ReadFrom s j (.flat mode items)

structure Rule.ReadFrom (s : Strictness) (j : Json) (rule : Rule) : Prop where
  name : j.get? "name" = some (.string rule.name)
  focus : j.get? "isfocus" = some (.bool rule.isFocus)
  check : ∃ c, j.get? "check" = some c ∧ Condition.ReadFrom s c rule.condition

def TypeClass.key : TypeClass → String
  | root => "root_types"
  | scrollIgnore => "disabled_scroll_types"
  | scrollable => "scrollable_types"

/-- The strings of a list, in lower case, are the names of the class. -/
def TypeClasses.ReadFrom (j : Json) (types : TypeClasses) : Prop :=
  ∀ (k : TypeClass) (x : String), x ∈ types.names k ↔
    ∃ items name, j.get? k.key = some (.array items) ∧ .string name ∈ items ∧
      TypeClasses.foldCase name = x

structure Predicates.ReadFrom (s : Strictness) (j : Json) (predicates : Predicates) : Prop where
  object : ∃ members, j = .object members
  condition : ∀ name, Option.Rel (Condition.ReadFrom s) (j.get? name) (predicates.find? name)

structure RuleSet.ReadFrom (s : Strictness) (j : Json) (rules : RuleSet) : Prop where
  defines : ∃ v, j.get? "defines" = some v ∧ IsDefines v ∧ TypeClasses.ReadFrom v rules.types
  predicates : (∃ v, j.get? "custom_props" = some v ∧ Predicates.ReadFrom s v rules.predicates) ∨
    (j.get? "custom_props" = none ∧ rules.predicates = ∅)
  rules : ∃ js, j.get? "rules" = some (.array js) ∧ js ≠ [] ∧
    List.Forall₂ (Rule.ReadFrom s) js rules.rules

end FocusRules
