import FocusRules.Proofs.Congruence
import FocusRules.Proofs.LoadRuleSet

/-! The repair of a rule document. Each part of a combined condition that is refused in lenient
reading is replaced by one condition that never holds. The repaired document is accepted in strict
reading, and decides what the lenient reading of the document itself decides. -/

namespace FocusRules

namespace Json

def mapMembers (f : String → Json → Json) : Json → Json
  | object members => object (members.map fun m => (m.1, f m.1 m.2))
  | j => j

def mapItems (f : Json → Json) : Json → Json
  | array items => array (items.map f)
  | j => j

def mapMember (name : String) (f : Json → Json) (j : Json) : Json :=
  j.mapMembers fun k v => if k = name then f v else v

variable {f : Json → Json} {j : Json} {name k : String}

theorem get?_mapMembers (f : String → Json → Json) (j : Json) (name : String) :
    (j.mapMembers f).get? name = (j.get? name).map (f name) := by
  cases j with
  | object members =>
    rw [mapMembers, get?_object, get?_object]
    induction members with
    | nil => rfl
    | cons m rest ih =>
      rw [List.map_cons, member?, member?, ih]
      cases member? name rest with
      | some v => rfl
      | none => by_cases h : m.1 = name <;> simp [h]
  | _ => rfl

theorem get?_mapMember_self : (j.mapMember name f).get? name = (j.get? name).map f := by
  simp [mapMember, get?_mapMembers]

theorem get?_mapMember_of_ne (h : k ≠ name) : (j.mapMember name f).get? k = j.get? k := by
  simp [mapMember, get?_mapMembers, h]

end Json

namespace Condition

/-- What stands for a part after the repair: `stub` if it is refused in lenient reading. -/
def mend (stub j repaired : Json) : Json :=
  match ofJson .lenient j with
  | .ok _ => repaired
  | .error _ => stub

mutual

/-- Puts `stub` for the parts, at any depth, that are refused in lenient reading. -/
def repair (stub : Json) : Json → Json
  | .object members => .object (repairMembers stub members)
  | j => j

def repairMembers (stub : Json) : List (String × Json) → List (String × Json)
  | [] => []
  | (name, j) :: rest =>
    (name, if name = "combined_condition" then repairParts stub j else j) ::
      repairMembers stub rest

def repairParts (stub : Json) : Json → Json
  | .array items => .array (repairItems stub items)
  | j => j

def repairItems (stub : Json) : List Json → List Json
  | [] => []
  | j :: rest => mend stub j (repair stub j) :: repairItems stub rest

end

def repairPart (stub j : Json) : Json := mend stub j (repair stub j)

theorem repairItems_eq (stub : Json) (items : List Json) :
    repairItems stub items = items.map (repairPart stub) := by
  induction items with
  | nil => rfl
  | cons j rest ih => rw [repairItems, ih, List.map_cons, repairPart]

theorem repairParts_eq (stub j : Json) : repairParts stub j = j.mapItems (repairPart stub) := by
  cases j with
  | array items => rw [repairParts, repairItems_eq, Json.mapItems]
  | _ => rfl

theorem repair_eq (stub j : Json) :
    repair stub j = j.mapMember "combined_condition" (Json.mapItems (repairPart stub)) := by
  cases j with
  | object members =>
    rw [repair, Json.mapMember, Json.mapMembers]
    congr 1
    induction members with
    | nil => rfl
    | cons m rest ih => rw [repairMembers, ih, repairParts_eq, List.map_cons]
  | _ => rfl

theorem get?_repair_parts (stub j : Json) : (repair stub j).get? "combined_condition" =
    (j.get? "combined_condition").map (Json.mapItems (repairPart stub)) := by
  rw [repair_eq, Json.get?_mapMember_self]

theorem get?_repair_of_ne {stub j : Json} {k : String} (h : k ≠ "combined_condition") :
    (repair stub j).get? k = j.get? k := by
  rw [repair_eq, Json.get?_mapMember_of_ne h]

theorem repairPart_of_ok {stub j : Json} {c : Condition} (h : ofJson .lenient j = .ok c) :
    repairPart stub j = repair stub j := by
  rw [repairPart, mend, h]

theorem repairPart_of_fault {stub j : Json} (h : ∀ c, ofJson .lenient j ≠ .ok c) :
    repairPart stub j = stub := by
  rw [repairPart, mend]
  cases hj : ofJson .lenient j with
  | ok c => exact absurd hj (h c)
  | error f => rfl

end Condition

def Rule.repair (stub : Json) : Json → Json := Json.mapMember "check" (Condition.repair stub)

def Predicates.repair (stub : Json) : Json → Json :=
  Json.mapMembers fun _ => Condition.repair stub

/-- Repairs the check of every rule and the definition of every predicate. -/
def RuleSet.repair (stub j : Json) : Json :=
  (j.mapMember "custom_props" (Predicates.repair stub)).mapMember "rules"
    (Json.mapItems (Rule.repair stub))

theorem RuleSet.get?_repair_rules (stub j : Json) : (repair stub j).get? "rules" =
    (j.get? "rules").map (Json.mapItems (Rule.repair stub)) := by
  rw [repair, Json.get?_mapMember_self, Json.get?_mapMember_of_ne (by decide)]

theorem RuleSet.get?_repair_predicates (stub j : Json) : (repair stub j).get? "custom_props" =
    (j.get? "custom_props").map (Predicates.repair stub) := by
  rw [repair, Json.get?_mapMember_of_ne (by decide), Json.get?_mapMember_self]

theorem RuleSet.get?_repair_of_ne {stub j : Json} {k : String} (hp : k ≠ "custom_props")
    (hr : k ≠ "rules") : (repair stub j).get? k = j.get? k := by
  rw [repair, Json.get?_mapMember_of_ne hr, Json.get?_mapMember_of_ne hp]

section

variable {stub : Json} {never : Condition} (hstub : Condition.ofJson .strict stub = .ok never)

include hstub

/-- The parts that are refused become placeholders in lenient reading, and `never` in the repaired
document. All others are read, by induction, as conditions that are true alike. -/
theorem Condition.exists_ofJson_repair {j : Json} {c : Condition} (h : ofJson .lenient j = .ok c) :
    ∃ c', ofJson .strict (repair stub j) = .ok c' ∧ EqualUnless never c c' := by
  induction c generalizing j with
  | flat mode items =>
    obtain ⟨m, ht, hm, ⟨_, _, _, _, _, hc⟩ | ⟨hnone, v, items, hv, hi, hc⟩⟩ := ofJson_eq_ok.1 h
    · cases hc
    refine ⟨.flat m items, ofJson_eq_ok.2 ⟨m, ?_, hm, .inr ⟨?_, v, items, ?_, hi, rfl⟩⟩,
      hc ▸ .refl _⟩
    · rw [get?_repair_of_ne (by decide), ht]
    · rw [get?_repair_parts, hnone, Option.map_none]
    · rw [get?_repair_of_ne (by decide), hv]
  | combined mode parts ih =>
    obtain ⟨m, ht, hm, ⟨js, parts, hv, hne, hp, hc⟩ | ⟨_, _, _, _, _, hc⟩⟩ := ofJson_eq_ok.1 h
    · obtain ⟨rfl, rfl⟩ := Condition.combined.inj hc
      have hpart : ∀ p, ∀ c ∈ parts, partOfJson .lenient p = .ok c →
          ∃ c', partOfJson .strict (repairPart stub p) = .ok c' ∧ EqualUnless never c c' := by
        intro p c hc hpart
        rcases partOfJson_eq_ok.1 hpart with hread | ⟨-, hfault, rfl⟩
        · obtain ⟨c', hread', heq⟩ := ih c hc hread
          rw [repairPart_of_ok hread]
          exact ⟨c', partOfJson_eq_ok.2 (.inl hread'), heq⟩
        · rw [repairPart_of_fault hfault]
          exact ⟨never, partOfJson_eq_ok.2 (.inl hstub), .placeholder⟩
      obtain ⟨parts', hread, heq⟩ := exists_forall₂_of_forall₂ hp hpart
      refine ⟨.combined mode parts', ofJson_eq_ok.2 ⟨mode, ?_, hm,
        .inl ⟨js.map (repairPart stub), parts', ?_, ?_, ?_, rfl⟩⟩, .combined heq⟩
      · rw [get?_repair_of_ne (by decide), ht]
      · rw [get?_repair_parts, hv, Option.map_some, Json.mapItems]
      · exact mt List.map_eq_nil_iff.1 hne
      · exact List.forall₂_map_left_iff.2 hread
    · cases hc

theorem Rule.exists_ofJson_repair {j : Json} {rule : Rule} (h : ofJson .lenient j = .ok rule) :
    ∃ rule', ofJson .strict (repair stub j) = .ok rule' ∧ EqualUnless never rule rule' := by
  obtain ⟨hname, hfocus, v, hv, hread⟩ := Rule.ofJson_eq_ok.1 h
  obtain ⟨c', hread', heq⟩ := Condition.exists_ofJson_repair hstub hread
  refine ⟨⟨rule.name, c', rule.isFocus⟩, Rule.ofJson_eq_ok.2 ⟨?_, ?_, _, ?_, hread'⟩,
    ⟨rfl, rfl, heq⟩⟩
  · rw [repair, Json.get?_mapMember_of_ne (by decide), hname]
  · rw [repair, Json.get?_mapMember_of_ne (by decide), hfocus]
  · rw [repair, Json.get?_mapMember_self, hv, Option.map_some]

theorem Predicates.exists_ofJson_repair {j : Json} {predicates : Predicates}
    (h : ofJson .lenient j = .ok predicates) :
    ∃ predicates', ofJson .strict (repair stub j) = .ok predicates' ∧
      predicates.EqualUnless never predicates' := by
  obtain ⟨⟨members, rfl⟩, hfind⟩ := Predicates.ofJson_eq_ok.1 h
  have hget : ∀ name, (repair stub (.object members)).get? name =
      ((Json.object members).get? name).map (Condition.repair stub) :=
    Json.get?_mapMembers _ _
  obtain ⟨predicates', h'⟩ : ∃ predicates',
      ofJson .strict (repair stub (.object members)) = .ok predicates' := by
    refine Predicates.exists_ofJson fun name v hv => ?_
    have hrepaired := (hget name).symm.trans hv
    obtain ⟨u, hu, rfl⟩ := Option.map_eq_some_iff.1 hrepaired
    have hname := hfind name
    rw [hu, Option.map_some, Option.map_eq_some_iff] at hname
    obtain ⟨c, -, hc⟩ := hname
    obtain ⟨c', hread, -⟩ := Condition.exists_ofJson_repair hstub hc.symm
    exact ⟨c', hread⟩
  refine ⟨predicates', h', fun name => ?_⟩
  have hname := hfind name
  have hname' := (Predicates.ofJson_eq_ok.1 h').2 name
  rw [hget] at hname'
  cases hu : (Json.object members).get? name with
  | none =>
    simp only [hu, Option.map_none, Option.map_eq_none_iff] at hname hname'
    rw [hname, hname']
    exact .none
  | some u =>
    simp only [hu, Option.map_some, Option.map_eq_some_iff] at hname hname'
    obtain ⟨c, hc, hread⟩ := hname
    obtain ⟨c', hc', hread'⟩ := hname'
    obtain ⟨d, hd, heq⟩ := Condition.exists_ofJson_repair hstub hread.symm
    obtain rfl : d = c' := Except.ok.inj (hd.symm.trans hread'.symm)
    rw [hc, hc']
    exact .some heq

/-- A document may leave predicates out, before and after the repair. -/
theorem Predicates.exists_repair_of_optional {o : Option Json} {predicates : Predicates}
    (h : (∃ v, o = some v ∧ ofJson .lenient v = .ok predicates) ∨ (o = none ∧ predicates = ∅)) :
    ∃ predicates',
      ((∃ v, o.map (repair stub) = some v ∧ ofJson .strict v = .ok predicates') ∨
        (o.map (repair stub) = none ∧ predicates' = ∅)) ∧
      predicates.EqualUnless never predicates' := by
  rcases h with ⟨v, rfl, hread⟩ | ⟨rfl, rfl⟩
  · obtain ⟨predicates', hread', heq⟩ := Predicates.exists_ofJson_repair hstub hread
    exact ⟨predicates', .inl ⟨_, rfl, hread'⟩, heq⟩
  · exact ⟨∅, .inr ⟨rfl, rfl⟩, fun _ => .none⟩

theorem RuleSet.exists_rulesOfJson_repair {j : Json} {rules : List Rule}
    (h : rulesOfJson .lenient j = .ok rules) : ∃ rules',
      rulesOfJson .strict (j.mapItems (Rule.repair stub)) = .ok rules' ∧
      List.Forall₂ (Rule.EqualUnless never) rules rules' := by
  obtain ⟨js, rfl, hne, hrules⟩ := RuleSet.rulesOfJson_eq_ok.1 h
  obtain ⟨rules', hread, heq⟩ := exists_forall₂_of_forall₂ hrules
    fun _ _ _ hrule => Rule.exists_ofJson_repair hstub hrule
  refine ⟨rules', RuleSet.rulesOfJson_eq_ok.2 ⟨js.map (Rule.repair stub), rfl, ?_, ?_⟩, heq⟩
  · exact mt List.map_eq_nil_iff.1 hne
  · exact List.forall₂_map_left_iff.2 hread

theorem RuleSet.exists_ofJson_repair {j : Json} {m : RuleSet} (h : ofJson .lenient j = .ok m) :
    ∃ m', ofJson .strict (repair stub j) = .ok m' ∧ m.EqualUnless never m' := by
  obtain ⟨⟨v, hv, htypes⟩, hpredicates, w, hw, hrules⟩ := RuleSet.ofJson_eq_ok.1 h
  obtain ⟨predicates', hp, hequal⟩ := Predicates.exists_repair_of_optional hstub hpredicates
  obtain ⟨rules', hread, heq⟩ := RuleSet.exists_rulesOfJson_repair hstub hrules
  refine ⟨⟨m.types, predicates', rules'⟩,
    RuleSet.ofJson_eq_ok.2 ⟨⟨v, ?_, htypes⟩, ?_, _, ?_, hread⟩, ⟨rfl, hequal, heq⟩⟩
  · rw [get?_repair_of_ne (by decide) (by decide), hv]
  · rwa [get?_repair_predicates]
  · rw [get?_repair_rules, hw, Option.map_some]

end

namespace RuleSet

/-- A document that is accepted in lenient reading is accepted in strict reading once it is
repaired, whichever condition that never holds is put in. Both readings give the same classes of
types, and at every node the same verdict and the same outcome of each rule. -/
theorem strict_repair_of_lenient {stub : Json} {never : Condition}
    (hstub : Condition.ofJson .strict stub = .ok never) (hn : never.NeverHolds) {j : Json}
    {m : RuleSet} (h : ofJson .lenient j = .ok m) :
    ∃ m', ofJson .strict (repair stub j) = .ok m' ∧ m'.types = m.types ∧
      ∀ (g : NodeGraph) (v : Fin g.size),
        m'.evaluate g v = m.evaluate g v ∧ m'.outcomes g v = m.outcomes g v := by
  obtain ⟨m', hread, hequal⟩ := exists_ofJson_repair hstub h
  refine ⟨m', hread, hequal.types, fun g v => ?_⟩
  have houtcomes := hequal.outcomes_eq hn g v
  refine ⟨?_, houtcomes⟩
  rw [evaluate_eq_findSome?, evaluate_eq_findSome?, houtcomes]

def unheardOf : Json := .object [
  ("condition_type", .string "single"),
  ("condition", .object [("prop", .string "unheardOf"), ("operator", .string "eq"),
    ("value", .bool true)])]

/-- One rule, for nodes that are not plain, and one kind of plain node. Both have a broken part. -/
def brokenParts : Json := .object [
  ("defines", .object [("root_types", .array [.string "Dialog"])]),
  ("custom_props", .object [("plain", .object [
    ("condition_type", .string "and"),
    ("combined_condition", .array [.null, .object [
      ("condition_type", .string "single"),
      ("condition", .object [("prop", .string "type"), ("operator", .string "eq"),
        ("value", .string "Text")])]])])]),
  ("rules", .array [.object [
    ("name", .string "notPlain"), ("isfocus", .bool true),
    ("check", .object [
      ("condition_type", .string "or"),
      ("combined_condition", .array [.object [("condition_type", .string "mystery")], .object [
        ("condition_type", .string "single"),
        ("condition", .object [("prop", .string "plain"), ("operator", .string "ne"),
          ("value", .bool true), ("is_custom", .bool true)])]])])]])]

def loneText : NodeGraph := .ofRows #[
  { node := { id := 1, attributes := { type := some "Text" } } }]

theorem strict_repair_of_lenient_brokenParts :
    let v : Fin loneText.size := ⟨0, by decide⟩
    (∀ m, ofJson .strict brokenParts ≠ .ok m) ∧
      ∃ m m', ofJson .lenient brokenParts = .ok m ∧
        ofJson .strict (repair unheardOf brokenParts) = .ok m' ∧
        m.evaluate loneText v = some ⟨"notPlain", true⟩ ∧
        m'.evaluate loneText v = some ⟨"notPlain", true⟩ := by
  intro v
  have hstrict : ∀ m, ofJson .strict brokenParts ≠ .ok m := nofun
  obtain ⟨m, h, he⟩ : ∃ m, ofJson .lenient brokenParts = .ok m ∧
      m.evaluate loneText v = some ⟨"notPlain", true⟩ := ⟨_, rfl, by decide⟩
  have hstub : Condition.ofJson .strict unheardOf =
      .ok (.single ⟨.property "unheardOf", .eq, .bool true, .self, false⟩) := rfl
  obtain ⟨m', h', -, heq⟩ :=
    strict_repair_of_lenient hstub (Condition.neverHolds_single rfl (by decide)) h
  exact ⟨hstrict, m, m', h, h', he, (heq loneText v).1.trans he⟩

end RuleSet

end FocusRules
