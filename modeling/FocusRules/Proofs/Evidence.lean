import FocusRules.Proofs.Entailment
import FocusRules.Proofs.Strictness
import Mathlib.Logic.Relation

/-! Nothing comes of nothing. No document has an `and` of no items or no parts, which would hold
everywhere, and so a positive document handles a node only where some node in reach carries a
property that one of its items asks for. -/

namespace FocusRules

namespace Condition

/-- The conditions that a document can give: a `single` of one item, an `and` or `or` of at least
two, one of at least one part, and a placeholder. -/
inductive WellFormed : Condition → Prop
  | placeholder : WellFormed (flat .unknown [])
  | single {item : Item} : WellFormed (flat .single [item])
  | list {mode : Mode} {items : List Item} : mode = .and ∨ mode = .or → 2 ≤ items.length →
      WellFormed (flat mode items)
  | combined {mode : Mode} {parts : List Condition} : mode ≠ .unknown → parts ≠ [] →
      (∀ c ∈ parts, WellFormed c) → WellFormed (combined mode parts)

theorem ReadFrom.wellFormed {s : Strictness} {j : Json} {c : Condition} (h : ReadFrom s j c) :
    c.WellFormed := by
  induction h with
  | @combined j mode parts _ hmode _ hne _ hbroken ih =>
    refine .combined hmode (mt List.map_eq_nil_iff.1 hne) fun c hc => ?_
    obtain ⟨p, hp, rfl⟩ := List.mem_map.1 hc
    by_cases hcond : IsCondition s p.1
    · exact ih p hp hcond
    · rw [(hbroken p hp hcond).2]
      exact .placeholder
  | single => exact .single
  | list _ hmode _ _ hlen hitems => exact .list hmode (hitems.length_eq ▸ hlen)

theorem WellFormed.of_occursIn {c d : Condition} (hd : d.OccursIn c) (h : c.WellFormed) :
    d.WellFormed := by
  induction hd with
  | self => exact h
  | part hmem _ ih =>
    cases h with
    | combined _ _ hparts => exact ih (hparts _ hmem)

/-- It has items or parts, unless it is a placeholder. -/
theorem WellFormed.nonempty {c : Condition} (h : c.WellFormed) (hmode : c.mode ≠ .unknown) :
    c.items ≠ [] ∨ c.parts ≠ [] := by
  cases h with
  | placeholder => exact absurd rfl hmode
  | single => exact .inl (List.cons_ne_nil _ _)
  | list _ hlen =>
    refine .inl fun hnil => ?_
    rw [items] at hnil
    simp [hnil] at hlen
  | combined _ hne _ => exact .inr hne

/-- A condition that holds has an item that is true. -/
theorem Meets.exists_atom {truth : Item → Prop} {c : Condition} (h : c.Meets truth)
    (hc : c.WellFormed) : ∃ item ∈ c.atoms, truth item := by
  induction h with
  | @single item ht => exact ⟨item, by simp, ht⟩
  | @allItems items hall =>
    cases hc with
    | list _ hlen =>
      obtain ⟨item, hi⟩ := List.exists_mem_of_length_pos (Nat.lt_of_lt_of_le Nat.two_pos hlen)
      exact ⟨item, by simpa using hi, hall item hi⟩
  | someItem hi ht => exact ⟨_, by simpa using hi, ht⟩
  | @allParts parts _ ih =>
    cases hc with
    | combined _ hne hparts =>
      obtain ⟨d, hd⟩ := List.exists_mem_of_ne_nil parts hne
      obtain ⟨item, hi, ht⟩ := ih d hd (hparts d hd)
      exact ⟨item, mem_atoms_combined.2 ⟨d, hd, hi⟩, ht⟩
  | @somePart parts d hd _ ih =>
    cases hc with
    | combined _ _ hparts =>
      obtain ⟨item, hi, ht⟩ := ih (hparts d hd)
      exact ⟨item, mem_atoms_combined.2 ⟨d, hd, hi⟩, ht⟩

end Condition

def Item.CarriedBy (item : Item) (n : Node) : Prop :=
  ∃ name value, item.subject = .property name ∧ n.readNamed name = some value ∧
    value.compare item.operator item.value = true

namespace RuleSet

/-- All its conditions are such as documents give. -/
structure WellFormed (m : RuleSet) : Prop where
  rules : ∀ r ∈ m.rules, r.condition.WellFormed
  predicates : ∀ name c, m.predicates.find? name = some c → c.WellFormed

/-- The item occurs in the check of a rule or in the definition of a predicate. -/
def HasItem (m : RuleSet) (item : Item) : Prop :=
  (∃ r ∈ m.rules, item ∈ r.condition.atoms) ∨
    ∃ name c, m.predicates.find? name = some c ∧ item ∈ c.atoms

theorem forall_hasItem {m : RuleSet} {p : Item → Prop} : (∀ item, m.HasItem item → p item) ↔
    (∀ r ∈ m.rules, ∀ item ∈ r.condition.atoms, p item) ∧
      ∀ e ∈ m.predicates.entries, ∀ item ∈ e.2.atoms, p item := by
  constructor
  · intro h
    refine ⟨fun r hr item hi => h item (.inl ⟨r, hr, hi⟩), fun e he item hi => ?_⟩
    exact h item (.inr ⟨e.1, e.2, Dictionary.find?_eq_some_iff.2 he, hi⟩)
  · rintro ⟨hrules, hpredicates⟩ item (⟨r, hr, hi⟩ | ⟨name, c, hc, hi⟩)
    · exact hrules r hr item hi
    · exact hpredicates (name, c) (Dictionary.find?_eq_some_iff.1 hc) item hi

/-- Some item looks from the one node at the other. -/
def LooksAt (m : RuleSet) (g : NodeGraph) (u t : Fin g.size) : Prop :=
  ∃ item, m.HasItem item ∧ t ∈ item.targets g u

/-- A node within reach carries a property that an item asks for. -/
def HasEvidence (m : RuleSet) (g : NodeGraph) (v : Fin g.size) : Prop :=
  ∃ item t, m.HasItem item ∧ Relation.ReflTransGen (m.LooksAt g) v t ∧ item.CarriedBy (g.node t)

theorem wellFormed_of_ofJson {s : Strictness} {j : Json} {m : RuleSet} (h : ofJson s j = .ok m) :
    m.WellFormed := by
  obtain ⟨-, hpredicates, js, -, -, hrules⟩ := ofJson_iff_readFrom.1 h
  refine ⟨fun r hr => ?_, fun name c hc => ?_⟩
  · obtain ⟨_, -, hread⟩ := exists_of_forall₂ hrules.flip hr
    obtain ⟨_, -, hcheck⟩ := hread.check
    exact hcheck.wellFormed
  · rcases hpredicates with ⟨v, -, hread⟩ | ⟨-, hempty⟩
    · have hname := hread.condition name
      rw [hc] at hname
      generalize v.get? name = w at hname
      cases hname with
      | some hcond => exact hcond.wellFormed
    · rw [hempty, Dictionary.find?_empty] at hc
      cases hc

theorem WellFormed.nonempty {m : RuleSet} (h : m.WellFormed) {c : Condition} (hc : m.Contains c)
    (hmode : c.mode ≠ .unknown) : c.items ≠ [] ∨ c.parts ≠ [] := by
  rcases hc with ⟨r, hr, hoccurs⟩ | ⟨name, d, hd, hoccurs⟩
  · exact ((h.rules r hr).of_occursIn hoccurs).nonempty hmode
  · exact ((h.predicates name d hd).of_occursIn hoccurs).nonempty hmode

variable {m : RuleSet} {g : NodeGraph} {v : Fin g.size}

theorem HasEvidence.of_looksAt {t : Fin g.size} (h : m.LooksAt g v t) (ht : m.HasEvidence g t) :
    m.HasEvidence g v := by
  obtain ⟨item, u, hitem, hreach, hcarried⟩ := ht
  exact ⟨item, u, hitem, .head h hreach, hcarried⟩

/-- An item that is true has evidence, if the facts that make it true have. -/
theorem hasEvidence_of_meetsBy {facts : Set (Fact g)} (hfacts : ∀ f ∈ facts, m.HasEvidence g f.2)
    {item : Item} (hitem : m.HasItem item) (h : item.MeetsBy g facts v) : m.HasEvidence g v := by
  obtain ⟨t, ht, hcase⟩ := Item.meetsBy_iff.1 h
  have hlooks : m.LooksAt g v t := ⟨item, hitem, ht⟩
  rcases hcase with ⟨name, value, hs, hread, hcompare⟩ | ⟨name, -, -, hf⟩
  · exact ⟨item, t, hitem, .single hlooks, name, value, hs, hread, hcompare⟩
  · exact .of_looksAt hlooks (hfacts _ hf)

theorem hasEvidence_of_fact (hm : m.WellFormed) {k : ℕ} {f : Fact g}
    (hf : f ∈ (m.predicates.round g)^[k] ∅) : m.HasEvidence g f.2 := by
  induction k generalizing f with
  | zero => cases hf
  | succ k ih =>
    obtain ⟨c, hc, hholds⟩ := Predicates.mem_iterate_succ.1 hf
    obtain ⟨item, hi, hmeets⟩ := hholds.exists_atom (hm.predicates f.1 c hc)
    exact hasEvidence_of_meetsBy (fun _ => ih) (.inr ⟨f.1, c, hc, hi⟩) hmeets

theorem hasEvidence_of_handles (hm : m.WellFormed) (hpos : m.Positive) {r : Rule}
    (hr : r ∈ m.rules) (h : m.handles g v r = true) : m.HasEvidence g v := by
  rw [handles_eq] at h
  have hholds := Condition.meets_rounds_of_holds hpos.predicates (hpos.rules r hr) h
  obtain ⟨item, hi, hmeets⟩ := hholds.exists_atom (hm.rules r hr)
  exact hasEvidence_of_meetsBy (fun _ => hasEvidence_of_fact hm) (.inl ⟨r, hr, hi⟩) hmeets

theorem not_hasEvidence (h : ∀ (t : Fin g.size) (p : Property), (g.node t).read p = none) :
    ¬m.HasEvidence g v := by
  rintro ⟨item, t, -, -, name, value, -, hread, -⟩
  obtain ⟨p, -, hp⟩ := Option.bind_eq_some_iff.1 hread
  cases (h t p).symm.trans hp

/-- A rule of a positive document handles a node only on the evidence of a property that some node
in reach carries. No `and` of a document is empty, and where no node carries any property there is
no verdict. -/
theorem handled_only_on_evidence {s : Strictness} {j : Json} {m : RuleSet}
    (h : ofJson s j = .ok m) (hpos : m.Positive) (g : NodeGraph) :
    (∀ v, ∀ r ∈ m.rules, m.handles g v r = true → m.HasEvidence g v) ∧
    (∀ c, m.Contains c → c.mode = .and → c.items ≠ [] ∨ c.parts ≠ []) ∧
    ((∀ t p, (g.node t).read p = none) → ∀ v, m.evaluate g v = none) := by
  have hm := wellFormed_of_ofJson h
  refine ⟨fun v r hr => hasEvidence_of_handles hm hpos hr, fun c hc hmode => ?_, fun hbare v => ?_⟩
  · exact hm.nonempty hc (by rw [hmode]; decide)
  · rw [evaluate_eq_find?, Option.map_eq_none_iff, List.find?_eq_none]
    exact fun r hr hhandles => not_hasEvidence hbare (hasEvidence_of_handles hm hpos hr hhandles)

/-- One rule, for nodes in a frame whose parents are in a frame too. A node is in a frame if it is
one or its parent is in one. Part of the check is broken. -/
def framed : Json := .object [
  ("defines", .object []),
  ("custom_props", .object [("framed", .object [
    ("condition_type", .string "or"),
    ("condition", .array [
      .object [("prop", .string "type"), ("operator", .string "eq"), ("value", .string "Frame")],
      .object [("prop", .string "framed"), ("operator", .string "eq"), ("value", .bool true),
        ("target", .string "parent"), ("is_custom", .bool true)]])])]),
  ("rules", .array [.object [
    ("name", .string "framed"), ("isfocus", .bool true),
    ("check", .object [
      ("condition_type", .string "and"),
      ("combined_condition", .array [
        .object [
          ("condition_type", .string "or"),
          ("combined_condition", .array [.null, .object [
            ("condition_type", .string "single"),
            ("condition", .object [("prop", .string "framed"), ("operator", .string "ne"),
              ("value", .bool false), ("is_custom", .bool true)])]])],
        .object [
          ("condition_type", .string "single"),
          ("condition", .object [("prop", .string "framed"), ("operator", .string "eq"),
            ("value", .bool true), ("target", .string "parent"),
            ("is_custom", .bool true)])]])])]])]

def frameRowButton : NodeGraph := .ofRows #[
  { node := { id := 1, attributes := { type := some "Frame" } }, children := [1] },
  { node := { id := 2, attributes := { type := some "Row" } }, parent := some 0, children := [2] },
  { node := { id := 3, attributes := { type := some "Button" } }, parent := some 1 }]

def bareNodes : NodeGraph := .ofRows #[
  { node := { id := 1 }, children := [1] }, { node := { id := 2 }, parent := some 0 }]

theorem handled_only_on_evidence_framed :
    let v : Fin frameRowButton.size := ⟨2, by decide⟩
    let u : Fin bareNodes.size := ⟨1, by decide⟩
    ∃ m r, ofJson .lenient framed = .ok m ∧ m.Positive ∧ r ∈ m.rules ∧
      m.handles frameRowButton v r = true ∧ m.HasEvidence frameRowButton v ∧
      (∀ t p, (bareNodes.node t).read p = none) ∧ m.evaluate bareNodes u = none := by
  intro v u
  obtain ⟨m, r, h, hpos, hr, hhandles⟩ : ∃ m r, ofJson .lenient framed = .ok m ∧ m.Positive ∧
      r ∈ m.rules ∧ m.handles frameRowButton v r = true :=
    ⟨_, _, rfl, ⟨by decide, by decide⟩, List.mem_cons_self, by decide⟩
  have hbare : ∀ t p, (bareNodes.node t).read p = none := by
    intro t p
    cases p <;> revert t <;> decide
  obtain ⟨hevidence, -, -⟩ := handled_only_on_evidence h hpos frameRowButton
  obtain ⟨-, -, hnone⟩ := handled_only_on_evidence h hpos bareNodes
  exact ⟨m, r, h, hpos, hr, hhandles, hevidence v r hr hhandles, hbare, hnone hbare u⟩

/-- In a rule set that no document gives, an `and` of nothing handles nodes that carry nothing. -/
example : (RuleSet.mk {} ∅ [⟨"all", .flat .and [], true⟩]).evaluate bareNodes ⟨1, by decide⟩ =
    some ⟨"all", true⟩ := by decide

end RuleSet

end FocusRules
