import FocusRules.Proofs.LoadRuleSet

/-! Written rule sets and built ones. A draft lists what a rule set is put together from. It can be
built piece by piece, and it can be written as a document: reading the document gives the very rule
set that was built. -/

namespace FocusRules

/-- A way to list the members of a set: in any order, and any member more than once. -/
structure Listing where
  names : StringSet → List String
  mem_names : ∀ (set : StringSet) (x : String), x ∈ names set ↔ x ∈ set

/-- What a rule set is put together from. Type names are in any case, and a name may be defined more
than once. -/
structure Draft where
  types : List (TypeClass × String) := []
  predicates : List (String × Condition) := []
  rules : List Rule := []

section Writing

variable (l : Listing)

/-- No document has an unknown value. -/
def Value.toJson : Value → Json
  | unknown => .null
  | bool b => .bool b
  | string s => .string s
  | strings set => .array ((l.names set).map .string)
  | number n => .number (.integer n.toInt)

def Item.toJson (item : Item) : Json := .object [
  ("prop", .string item.subject.name),
  ("operator", .string item.operator.name),
  ("value", item.value.toJson l),
  ("target", .string item.target.name),
  ("is_custom", .bool item.subject.isPredicate),
  ("cascade", .bool item.cascade)]

namespace Condition

def itemsToJson : Mode → List Item → Json
  | .single, [item] => item.toJson l
  | _, items => .array (items.map (Item.toJson l))

mutual

def toJson : Condition → Json
  | flat mode items => .object [
      ("condition_type", .string mode.name),
      ("condition", itemsToJson l mode items)]
  | combined mode parts => .object [
      ("condition_type", .string mode.name),
      ("combined_condition", .array (partsToJson parts))]

def partsToJson : List Condition → List Json
  | [] => []
  | c :: rest => toJson c :: partsToJson rest

end

end Condition

def Rule.toJson (rule : Rule) : Json := .object [
  ("name", .string rule.name),
  ("isfocus", .bool rule.isFocus),
  ("check", rule.condition.toJson l)]

namespace Draft

variable (d : Draft)

def namesOf (k : TypeClass) : List String := (d.types.filter (·.1 = k)).map (·.2)

def typesToJson : Json := .object
  ([TypeClass.root, .scrollIgnore, .scrollable].map fun k =>
    (k.key, .array ((d.namesOf k).map .string)))

def toJson : Json := .object [
  ("defines", d.typesToJson),
  ("custom_props", .object (d.predicates.map fun e => (e.1, e.2.toJson l))),
  ("rules", .array (d.rules.map (Rule.toJson l)))]

/-- The rule set that grows out of the empty one, piece by piece. -/
def build : RuleSet :=
  let types := d.types.foldl (fun types e => types.add e.2 e.1) {}
  let defined := d.predicates.foldl (fun m e => m.define e.1 e.2) (RuleSet.withTypes {} types)
  d.rules.foldl RuleSet.addRule defined

end Draft

end Writing

/-- A `single` has one item, a flat `and` or `or` at least two, and a combined condition has at
least one part. -/
inductive Condition.Writable : Condition → Prop
  | single {item : Item} : item.value ≠ .unknown → Writable (.flat .single [item])
  | list {mode : Mode} {items : List Item} : mode = .and ∨ mode = .or → 2 ≤ items.length →
      (∀ item ∈ items, item.value ≠ .unknown) → Writable (.flat mode items)
  | combined {mode : Mode} {parts : List Condition} : mode ≠ .unknown → parts ≠ [] →
      (∀ c ∈ parts, Writable c) → Writable (.combined mode parts)

structure RuleSet.Writable (m : RuleSet) : Prop where
  rules_ne_nil : m.rules ≠ []
  rule : ∀ r ∈ m.rules, r.condition.Writable
  predicate : ∀ name c, m.predicates.find? name = some c → c.Writable

/-- What is said of each element and its image is said of the list and the list of images. -/
theorem forall₂_map_self {α β : Type} {R : β → α → Prop} {f : α → β} {as : List α}
    (h : ∀ a ∈ as, R (f a) a) : List.Forall₂ R (as.map f) as := by
  rw [List.forall₂_map_left_iff, List.forall₂_same]
  exact h

variable {l : Listing}

theorem Value.readFrom_toJson {value : Value} (h : value ≠ .unknown) :
    ReadFrom (value.toJson l) value := by
  cases value with
  | unknown => exact absurd rfl h
  | bool b => exact .bool b
  | string s => exact .string s
  | strings set => exact .strings fun x => (l.mem_names set x).symm
  | number n => exact .number rfl

theorem Item.readFrom_toJson {item : Item} (h : item.value ≠ .unknown) :
    ReadFrom (item.toJson l) item where
  prop := rfl
  operator := rfl
  value := ⟨_, rfl, Value.readFrom_toJson h⟩
  target := .inl rfl
  custom := .inl rfl
  cascade := .inl rfl

namespace Condition

theorem partsToJson_eq (parts : List Condition) : partsToJson l parts = parts.map (toJson l) := by
  induction parts with
  | nil => rfl
  | cons c rest ih => rw [partsToJson, ih, List.map_cons]

theorem itemsOfJson_itemsToJson {mode : Mode} {items : List Item}
    (hmode : mode = .and ∨ mode = .or) (hlen : 2 ≤ items.length)
    (hitems : ∀ item ∈ items, item.value ≠ .unknown) :
    itemsOfJson mode (itemsToJson l mode items) = .ok items := by
  have harray : itemsToJson l mode items = .array (items.map (Item.toJson l)) := by
    rcases hmode with rfl | rfl <;> rfl
  have hlist : mode ≠ .single := by rcases hmode with rfl | rfl <;> decide
  rw [harray, itemsOfJson_list hlist]
  refine ⟨_, rfl, ?_, forall₂_map_self fun item hitem => ?_⟩
  · rwa [List.length_map]
  · exact Item.readFrom_toJson (hitems item hitem)

theorem ofJson_toJson {s : Strictness} {c : Condition} (h : c.Writable) :
    ofJson s (c.toJson l) = .ok c := by
  induction h with
  | single hitem =>
    have hread := itemsOfJson_single.2 ⟨_, Item.readFrom_toJson (l := l) hitem, rfl⟩
    exact ofJson_eq_ok.2 ⟨.single, rfl, by decide, .inr ⟨rfl, _, _, rfl, hread, rfl⟩⟩
  | @list mode items hmode hlen hitems =>
    have hread := itemsOfJson_itemsToJson (l := l) hmode hlen hitems
    have hknown : mode ≠ .unknown := by rcases hmode with rfl | rfl <;> decide
    exact ofJson_eq_ok.2 ⟨mode, rfl, hknown, .inr ⟨rfl, _, items, rfl, hread, rfl⟩⟩
  | @combined mode parts hknown hne _ ih =>
    have hread : List.Forall₂ (fun p c => partOfJson s p = .ok c) (parts.map (toJson l)) parts :=
      forall₂_map_self fun c hc => partOfJson_eq_ok.2 (.inl (ih c hc))
    have hsome : parts.map (toJson l) ≠ [] := mt List.map_eq_nil_iff.1 hne
    rw [toJson, partsToJson_eq]
    exact ofJson_eq_ok.2 ⟨mode, rfl, hknown, .inl ⟨_, parts, rfl, hsome, hread, rfl⟩⟩

end Condition

theorem Rule.ofJson_toJson {s : Strictness} {rule : Rule} (h : rule.condition.Writable) :
    ofJson s (rule.toJson l) = .ok rule :=
  ofJson_eq_ok.2 ⟨rfl, rfl, _, rfl, Condition.ofJson_toJson h⟩

theorem TypeClasses.not_mem_names_empty (k : TypeClass) (x : String) : ¬x ∈ names {} k := by
  cases k <;> exact StringSet.not_mem_empty x

theorem TypeClasses.mem_names_foldl {entries : List (TypeClass × String)} {types : TypeClasses}
    {k : TypeClass} {x : String} :
    x ∈ (entries.foldl (fun types e => types.add e.2 e.1) types).names k ↔
      (∃ name, (k, name) ∈ entries ∧ foldCase name = x) ∨ x ∈ types.names k := by
  induction entries generalizing types with
  | nil => simp
  | cons e rest ih => rw [List.foldl_cons, ih, mem_names_add]; grind

theorem RuleSet.foldl_define (entries : List (String × Condition)) (m : RuleSet) :
    entries.foldl (fun m e => m.define e.1 e.2) m =
      { m with predicates := entries.foldl (fun d e => d.insert e.1 e.2) m.predicates } := by
  induction entries generalizing m with
  | nil => rfl
  | cons e rest ih => rw [List.foldl_cons, ih]; rfl

theorem RuleSet.foldl_addRule (rules : List Rule) (m : RuleSet) :
    rules.foldl addRule m = { m with rules := m.rules ++ rules } := by
  induction rules generalizing m with
  | nil => rw [List.append_nil]; rfl
  | cons r rest ih => rw [List.foldl_cons, ih, addRule, List.append_assoc]; rfl

namespace Draft

theorem build_eq (d : Draft) : d.build =
    { types := d.types.foldl (fun types e => types.add e.2 e.1) {}
      predicates := Dictionary.ofList d.predicates
      rules := d.rules } := by
  rw [build, RuleSet.foldl_define, RuleSet.foldl_addRule]
  rfl

variable {d : Draft}

theorem mem_names_build {k : TypeClass} {x : String} :
    x ∈ d.build.types.names k ↔ ∃ name, (k, name) ∈ d.types ∧ TypeClasses.foldCase name = x := by
  rw [build_eq, TypeClasses.mem_names_foldl, or_iff_left (TypeClasses.not_mem_names_empty k x)]

theorem mem_namesOf {k : TypeClass} {name : String} : name ∈ d.namesOf k ↔ (k, name) ∈ d.types := by
  simp [namesOf]

theorem get?_typesToJson (k : TypeClass) :
    d.typesToJson.get? k.key = some (.array ((d.namesOf k).map .string)) := by
  cases k <;> rfl

theorem ofJson_typesToJson : TypeClasses.ofJson d.typesToJson = .ok d.build.types := by
  have hlisted : ∀ (k : TypeClass) (v : Json), d.typesToJson.get? k.key = some v →
      ∃ names : List String, v = .array (names.map .string) := by
    intro k v hv
    rw [get?_typesToJson, Option.some.injEq] at hv
    exact ⟨_, hv.symm⟩
  refine TypeClasses.ofJson_eq_ok.2 ⟨⟨⟨_, rfl⟩, hlisted .root, hlisted .scrollIgnore, ?_⟩, ?_⟩
  · intro v hv
    obtain ⟨names, rfl⟩ := hlisted .scrollable v hv
    exact ⟨_, rfl⟩
  · intro k x
    simp [mem_names_build, get?_typesToJson, mem_namesOf]

theorem ofJson_predicates {s : Strictness}
    (h : ∀ name c, d.build.predicates.find? name = some c → c.Writable) :
    Predicates.ofJson s (.object (d.predicates.map fun e => (e.1, e.2.toJson l))) =
      .ok d.build.predicates := by
  have hbuild : d.build.predicates = Dictionary.ofList d.predicates := by rw [build_eq]
  refine Predicates.ofJson_eq_ok.2 ⟨⟨_, rfl⟩, fun name => ?_⟩
  have hwritten :=
    Dictionary.find?_ofList_map (fun _ _ h => h) (Condition.toJson l) d.predicates name
  rw [Json.get?_object, ← Dictionary.find?_ofList, hwritten, ← hbuild, Option.map_map]
  exact Option.map_congr fun c hc => (Condition.ofJson_toJson (h name c hc)).symm

theorem rulesOfJson_toJson {s : Strictness} {rules : List Rule} (hne : rules ≠ [])
    (h : ∀ r ∈ rules, r.condition.Writable) :
    RuleSet.rulesOfJson s (.array (rules.map (Rule.toJson l))) = .ok rules := by
  have hsome : rules.map (Rule.toJson l) ≠ [] := mt List.map_eq_nil_iff.1 hne
  have hread : List.Forall₂ (fun j r => Rule.ofJson s j = .ok r)
      (rules.map (Rule.toJson l)) rules :=
    forall₂_map_self fun r hr => Rule.ofJson_toJson (h r hr)
  exact RuleSet.rulesOfJson_eq_ok.2 ⟨_, rfl, hsome, hread⟩

/-- Drafts miss nothing: each rule set that keeps its type names in lower case is built by one. -/
theorem exists_build_eq {m : RuleSet}
    (h : ∀ k x, x ∈ m.types.names k → TypeClasses.foldCase x = x) : ∃ d : Draft, d.build = m := by
  let types := [TypeClass.root, .scrollIgnore, .scrollable].flatMap fun k =>
    (m.types.names k).toList.map fun x => (k, x)
  have hmem : ∀ k x, (k, x) ∈ types ↔ x ∈ m.types.names k := by
    intro k x
    rw [← StringSet.mem_toList]
    cases k <;> simp [types]
  have htypes : types.foldl (fun types e => types.add e.2 e.1) {} = m.types := by
    refine TypeClasses.names_ext fun k x => ?_
    rw [TypeClasses.mem_names_foldl, or_iff_left (TypeClasses.not_mem_names_empty k x)]
    constructor
    · rintro ⟨name, hname, rfl⟩
      rw [hmem] at hname
      rwa [h k name hname]
    · exact fun hx => ⟨x, (hmem k x).2 hx, h k x hx⟩
  refine ⟨⟨types, m.predicates.entries, m.rules⟩, ?_⟩
  rw [build_eq, htypes, Dictionary.ofList_entries]

/-- Reading what a draft writes gives what the draft builds, in either strictness: the same rules in
the same order, the same condition for each predicate and the same type classes, and so the same
verdict at every node. -/
theorem loaded_eq_built (l : Listing) (s : Strictness) (d : Draft) (h : d.build.Writable) :
    RuleSet.ofJson s (d.toJson l) = .ok d.build := by
  have hbuild : d.build.rules = d.rules := by rw [build_eq]
  have hrules := rulesOfJson_toJson (l := l) (s := s) h.rules_ne_nil h.rule
  rw [hbuild] at hrules
  exact RuleSet.ofJson_eq_ok.2 ⟨⟨_, rfl, ofJson_typesToJson⟩,
    .inl ⟨_, rfl, ofJson_predicates h.predicate⟩, _, rfl, hbuild ▸ hrules⟩

/-- A dialog type twice, and a predicate whose first definition no document can say. -/
def dialogs : Draft where
  types := [(.root, "Dialog"), (.scrollable, "List"), (.root, "DIALOG")]
  predicates := [
    ("inDialog", .placeholder),
    ("inDialog", .single ⟨.property "type", .isOneOf,
      .strings (StringSet.ofList ["Dialog", "Sheet"]), .parent, true⟩)]
  rules := [⟨"buttons", .combined .or [
    .flat .and [⟨.property "type", .eq, .string "Button", .self, false⟩,
      ⟨.predicate "inDialog", .ne, .bool false, .self, false⟩],
    .single ⟨.property "childCount", .eq, .number (-1), .children, true⟩], true⟩]

def twice : Listing where
  names set := set.toList ++ set.toList
  mem_names set x := by rw [List.mem_append, StringSet.mem_toList, or_self]

theorem loaded_eq_built_dialogs :
    dialogs.build.Writable ∧ RuleSet.ofJson .strict (dialogs.toJson twice) = .ok dialogs.build := by
  have hinDialog : ∀ name c, dialogs.build.predicates.find? name = some c → c.Writable := by
    intro name c hc
    rw [build_eq] at hc
    simp only [dialogs, Dictionary.ofList, List.foldl_cons, List.foldl_nil,
      Dictionary.find?_insert, Dictionary.find?_empty] at hc
    split_ifs at hc
    cases hc
    exact .single (by decide)
  have hbuttons : ∀ r ∈ dialogs.build.rules, r.condition.Writable := by
    rw [build_eq]
    refine List.forall_mem_singleton.2 (.combined (by decide) (by decide) ?_)
    refine List.forall_mem_cons.2 ⟨.list (.inl rfl) (by decide) (by decide), ?_⟩
    exact List.forall_mem_singleton.2 (.single (by decide))
  have hwritable : dialogs.build.Writable := ⟨by decide, hbuttons, hinDialog⟩
  exact ⟨hwritable, loaded_eq_built twice .strict dialogs hwritable⟩

end Draft

end FocusRules
