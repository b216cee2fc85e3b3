import FocusRules.Proofs.Grammar
import Mathlib.Data.List.Induction

/-! The order in which a rule document is read, said as a table: what a value is read as, which
members an object of that kind has and in which order they are read, and what can be wrong with a
value by itself. The first fault of a value is the first thing wrong with it in this order, at the
end of a path on which all that is read before is well formed. -/

namespace FocusRules

def Json.at? (j : Json) : List Segment → Option Json
  | [] => some j
  | .key name :: path => (j.get? name).bind (·.at? path)
  | .index i :: path => (j.asArray?.bind (·[i]?)).bind (·.at? path)

/-- The text of a path, step by step from the root. A key stands behind a point, but alone where
there is no text before it, and an index stands in brackets. -/
inductive Fault.Renders : List Segment → String → Prop
  | root : Renders [] ""
  | first {path : List Segment} {name : String} : Renders path "" →
      Renders (path ++ [.key name]) name
  | key {path : List Segment} {text name : String} : Renders path text → text ≠ "" →
      Renders (path ++ [.key name]) (text ++ "." ++ name)
  | index {path : List Segment} {text : String} {i : ℕ} : Renders path text →
      Renders (path ++ [.index i]) (text ++ "[" ++ toString i ++ "]")

theorem Fault.renders_foldl (path : List Segment) : Renders path (path.foldl extend "") := by
  induction path using List.reverseRecOn with
  | nil => exact .root
  | append_singleton path segment ih =>
    rw [List.foldl_append, List.foldl_cons, List.foldl_nil]
    cases segment with
    | key name =>
      rw [extend]
      split
      next h => exact .first (h ▸ ih)
      next h => exact .key ih h
    | index i => exact .index ih

theorem Fault.renders_iff {path : List Segment} {text : String} :
    Renders path text ↔ path.foldl extend "" = text := by
  refine ⟨fun h => ?_, fun h => h ▸ renders_foldl path⟩
  induction h with
  | root => rfl
  | first _ ih => simp [ih, extend]
  | key _ hne ih => simp [ih, extend, hne]
  | index _ ih => simp [ih, extend]

def Shape.Fits : Shape → Json → Prop
  | object, j => ∃ members, j = .object members
  | array, j => ∃ items, j = .array items
  | string, j => ∃ s, j = .string s
  | bool, j => ∃ b, j = .bool b
  | comparand, j => (∃ b, j = .bool b) ∨ (∃ s, j = .string s) ∨ (∃ items, j = .array items) ∨
      ∃ n, j = .number n

/-- What a value of a rule document is read as. The items of a list belong to a condition type. -/
inductive Role where
  | document
  | defines
  | typeNames
  | anyNames
  | predicates
  | rules
  | rule
  | text
  | flag
  | condition
  | mode
  | parts
  | items (type : String)
  | item
  | operator
  | comparand
  | target

structure Slot where
  name : String
  required : Bool
  role : Role

namespace Role

def shape : Role → Shape
  | document | defines | predicates | rule | condition | item => .object
  | typeNames | anyNames | rules | parts | items _ => .array
  | text | mode | operator | target => .string
  | flag => .bool
  | comparand => .comparand

/-- The member that holds what a condition of some type is made of. -/
def body (members : List (String × Json)) (type : String) : Slot :=
  if (Json.member? "combined_condition" members).isSome then ⟨"combined_condition", true, parts⟩
  else ⟨"condition", true, if type = "single" then item else items type⟩

def slots : Role → List (String × Json) → List Slot
  | document, _ =>
    [⟨"defines", true, defines⟩, ⟨"custom_props", false, predicates⟩, ⟨"rules", true, rules⟩]
  | defines, _ =>
    [⟨"root_types", false, typeNames⟩, ⟨"disabled_scroll_types", false, typeNames⟩,
      ⟨"scrollable_types", false, anyNames⟩]
  | rule, _ => [⟨"name", true, text⟩, ⟨"isfocus", true, flag⟩, ⟨"check", true, condition⟩]
  | condition, members =>
    ⟨"condition_type", true, mode⟩ ::
      match Json.member? "condition_type" members with
      | some (.string type) => [body members type]
      | _ => []
  | item, _ =>
    [⟨"prop", true, text⟩, ⟨"operator", true, operator⟩, ⟨"value", true, comparand⟩,
      ⟨"target", false, target⟩, ⟨"is_custom", false, flag⟩, ⟨"cascade", false, flag⟩]
  | _, _ => []

/-- What the elements of a list are read as. In lenient reading no part of a combined condition is
faulty, so what its parts are read as does not count. -/
def element? (s : Strictness) : Role → Option Role
  | typeNames | comparand => some text
  | rules => some rule
  | items _ => some item
  | parts => if s = .strict then some condition else none
  | _ => none

def Valid (s : Strictness) : Role → Json → Prop
  | document, j => IsDocument s j
  | defines, j => IsDefines j
  | typeNames, j => ∃ names : List String, j = .array (names.map .string)
  | anyNames, j => ∃ items, j = .array items
  | predicates, j => IsPredicates s j
  | rules, j => ∃ js, j = .array js ∧ js ≠ [] ∧ ∀ r ∈ js, IsRule s r
  | rule, j => IsRule s j
  | text, j => ∃ t, j = .string t
  | flag, j => ∃ b, j = .bool b
  | condition, j => IsCondition s j
  | mode, j => ∃ type ∈ ["single", "and", "or"], j = .string type
  | parts, j => ∃ js, j = .array js ∧ js ≠ [] ∧ (s = .strict → ∀ p ∈ js, IsCondition s p)
  | items _, j => ∃ js, j = .array js ∧ 2 ≤ js.length ∧ ∀ i ∈ js, IsItem i
  | item, j => IsItem j
  | operator, j => ∃ o : Operator, j = .string o.name
  | comparand, j => IsComparand j
  | target, j => ∃ t : Target, j = .string t.name

inductive Breaks : Role → Json → Cause → Prop
  | shape {r : Role} {j : Json} : ¬r.shape.Fits j → Breaks r j (.expected r.shape)
  | noRules : Breaks rules (.array []) .noRules
  | noParts : Breaks parts (.array []) .noParts
  | tooFewItems {m : Mode} {js : List Json} : m = .and ∨ m = .or → js.length < 2 →
      Breaks (items m.name) (.array js) (.tooFewItems m)
  | unknownMode {type : String} : type ∉ ["single", "and", "or"] →
      Breaks mode (.string type) (.unknownMode type)
  | unknownOperator {name : String} : (∀ o : Operator, o.name ≠ name) →
      Breaks operator (.string name) (.unknownOperator name)
  | unknownTarget {name : String} : (∀ t : Target, t.name ≠ name) →
      Breaks target (.string name) (.unknownTarget name)
  | outOfRange {n : Json.Number} : ¬(-2147483648 ≤ n.truncate ∧ n.truncate ≤ 2147483647) →
      Breaks comparand (.number n) (.outOfRange n)

end Role

/-- The member is well formed, or it is not there and need not be. -/
def Slot.Valid (s : Strictness) (members : List (String × Json)) (slot : Slot) : Prop :=
  match Json.member? slot.name members with
  | some v => slot.role.Valid s v
  | none => slot.required = false

/-- The first fault of a value that is read as something: the path to it and what is wrong there.
All members read before are well formed, and so are all elements before, and the definitions of all
names that come before in the order of names. -/
inductive FirstFault (s : Strictness) : Role → Json → List Segment → Cause → Prop
  | here {role : Role} {j : Json} {cause : Cause} : role.Breaks j cause →
      FirstFault s role j [] cause
  | missing {role : Role} {members : List (String × Json)} {before after : List Slot}
      {slot : Slot} :
      role.slots members = before ++ slot :: after → (∀ e ∈ before, e.Valid s members) →
      slot.required = true → Json.member? slot.name members = none →
      FirstFault s role (.object members) [.key slot.name] .missing
  | member {role : Role} {members : List (String × Json)} {before after : List Slot} {slot : Slot}
      {v : Json} {path : List Segment} {cause : Cause} :
      role.slots members = before ++ slot :: after → (∀ e ∈ before, e.Valid s members) →
      Json.member? slot.name members = some v → FirstFault s slot.role v path cause →
      FirstFault s role (.object members) (.key slot.name :: path) cause
  | definition {members : List (String × Json)} {name : String} {v : Json} {path : List Segment}
      {cause : Cause} :
      (∀ k u, k < name → Json.member? k members = some u → IsCondition s u) →
      Json.member? name members = some v → FirstFault s .condition v path cause →
      FirstFault s .predicates (.object members) (.key name :: path) cause
  | element {role r : Role} {items : List Json} {i : ℕ} {v : Json} {path : List Segment}
      {cause : Cause} :
      role.element? s = some r → (∀ cause, ¬role.Breaks (.array items) cause) →
      (∀ k < i, ∀ u, items[k]? = some u → r.Valid s u) → items[i]? = some v →
      FirstFault s r v path cause → FirstFault s role (.array items) (.index i :: path) cause

theorem Json.at?_key {members : List (String × Json)} {name : String} {v : Json}
    (h : Json.member? name members = some v) (path : List Segment) :
    (Json.object members).at? (.key name :: path) = v.at? path := by
  simp [Json.at?, h]

theorem Json.at?_index {items : List Json} {i : ℕ} {v : Json} (h : items[i]? = some v)
    (path : List Segment) : (Json.array items).at? (.index i :: path) = v.at? path := by
  simp [Json.at?, Json.asArray?, h]

theorem Role.Breaks.ne_missing {role : Role} {j : Json} {cause : Cause} (h : role.Breaks j cause) :
    cause ≠ .missing := by
  cases h <;> exact nofun

theorem Cause.message_eq_missing_iff {cause : Cause} :
    cause.message = "required field is missing" ↔ cause = .missing := by
  refine ⟨fun h => ?_, fun h => h ▸ rfl⟩
  -- no other message begins with the same letter
  have hchars := congrArg String.toList h
  cases cause with
  | missing => rfl
  | expected shape => change ("expected " ++ shape.describe).toList = _ at hchars; simp at hchars
  | noRules => change "at least one rule is required".toList = _ at hchars; simp at hchars
  | noParts => change "at least one condition is required".toList = _ at hchars; simp at hchars
  | tooFewItems mode =>
    change ("'" ++ mode.name ++ "' needs at least two items").toList = _ at hchars
    simp at hchars
  | unknownMode name =>
    change ("unknown condition type '" ++ name ++ "'").toList = _ at hchars
    simp at hchars
  | unknownOperator name =>
    change ("unknown operator '" ++ name ++ "'").toList = _ at hchars
    simp at hchars
  | unknownTarget name =>
    change ("unknown target '" ++ name ++ "'").toList = _ at hchars
    simp at hchars
  | outOfRange n =>
    change ("number " ++ n.render ++ " does not fit in 32 bits").toList = _ at hchars
    simp at hchars

namespace FirstFault

variable {s : Strictness} {role : Role} {j : Json} {path : List Segment} {cause : Cause}

/-- A missing member is missing from an object that the path leads to. -/
theorem exists_object_of_missing (h : FirstFault s role j path .missing) :
    ∃ before name members, path = before ++ [.key name] ∧ j.at? before = some (.object members) ∧
      Json.member? name members = none := by
  generalize hc : Cause.missing = cause at h
  induction h with
  | here hbreaks => exact absurd hc.symm hbreaks.ne_missing
  | missing _ _ _ hnone => exact ⟨[], _, _, rfl, rfl, hnone⟩
  | member _ _ hv _ ih =>
    obtain ⟨before, name, members, rfl, hat, hnone⟩ := ih hc
    exact ⟨_ :: before, name, members, rfl, (Json.at?_key hv before).trans hat, hnone⟩
  | definition _ hv _ ih =>
    obtain ⟨before, name, members, rfl, hat, hnone⟩ := ih hc
    exact ⟨_ :: before, name, members, rfl, (Json.at?_key hv before).trans hat, hnone⟩
  | element _ _ _ hv _ ih =>
    obtain ⟨before, name, members, rfl, hat, hnone⟩ := ih hc
    exact ⟨_ :: before, name, members, rfl, (Json.at?_index hv before).trans hat, hnone⟩

/-- Any other fault is with the value at the end of the path. -/
theorem exists_breaks (h : FirstFault s role j path cause) (hc : cause ≠ .missing) :
    ∃ v r, j.at? path = some v ∧ Role.Breaks r v cause := by
  induction h with
  | here hbreaks => exact ⟨_, _, rfl, hbreaks⟩
  | missing => exact absurd rfl hc
  | member _ _ hv _ ih =>
    obtain ⟨v, r, hat, hbreaks⟩ := ih hc
    exact ⟨v, r, (Json.at?_key hv _).trans hat, hbreaks⟩
  | definition _ hv _ ih =>
    obtain ⟨v, r, hat, hbreaks⟩ := ih hc
    exact ⟨v, r, (Json.at?_key hv _).trans hat, hbreaks⟩
  | element _ _ _ hv _ ih =>
    obtain ⟨v, r, hat, hbreaks⟩ := ih hc
    exact ⟨v, r, (Json.at?_index hv _).trans hat, hbreaks⟩

theorem exists_element_of_index {i : ℕ} (h : FirstFault s role j (.index i :: path) cause) :
    ∃ r, role.element? s = some r := by
  cases h with
  | element hr => exact ⟨_, hr⟩

/-- Only the parts of a condition are read from a member of that name. -/
theorem role_of_slot {members : List (String × Json)} {slot : Slot}
    (h : slot ∈ role.slots members) (hname : slot.name = "combined_condition") :
    slot.role = .parts := by
  cases role with
  | condition =>
    simp only [Role.slots, List.mem_cons] at h
    rcases h with rfl | h
    · simp at hname
    · split at h
      · obtain rfl := List.mem_singleton.1 h
        unfold Role.body at hname ⊢
        split at hname <;> simp_all
      · cases h
  | document | defines | rule | item =>
    have hmem := List.mem_map_of_mem (f := Slot.name) h
    rw [hname] at hmem
    simp [Role.slots] at hmem
  | _ => cases h

theorem not_into_part_cons {i : ℕ} {name : String} (h : FirstFault .lenient role j path cause)
    (hrole : name = "combined_condition" → role.element? .lenient = none)
    (hpath : ¬[.key "combined_condition", .index i] <:+: path) :
    ¬[.key "combined_condition", .index i] <:+: .key name :: path := by
  intro hinfix
  rcases List.infix_cons_iff.1 hinfix with hprefix | hinfix
  · obtain ⟨hname, rest, rfl⟩ := List.cons_prefix_cons.1 hprefix
    obtain ⟨r, hr⟩ := h.exists_element_of_index
    cases (hrole (Segment.key.inj hname).symm).symm.trans hr
  · exact hpath hinfix

/-- In lenient reading the path of a fault never steps into a part of a combined condition. -/
theorem not_into_part (h : FirstFault .lenient role j path cause) (i : ℕ) :
    ¬[.key "combined_condition", .index i] <:+: path := by
  induction h with
  | here => simp
  | missing => simp [List.infix_cons_iff]
  | member hslots _ _ hfault ih =>
    refine not_into_part_cons hfault (fun hname => ?_) ih
    have hslot := hslots ▸ List.mem_append_right _ List.mem_cons_self
    rw [role_of_slot hslot hname]
    rfl
  | definition _ _ hfault ih => exact not_into_part_cons hfault (fun _ => rfl) ih
  | element _ _ _ _ _ ih =>
    intro hinfix
    rcases List.infix_cons_iff.1 hinfix with hprefix | hinfix
    · simp at hprefix
    · exact ih hinfix

end FirstFault

end FocusRules
