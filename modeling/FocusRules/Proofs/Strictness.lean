import FocusRules.Proofs.LoadRuleSet

/-! Strict and lenient reading side by side. Both give the same rule set, or else the lenient one
shows a condition of unknown mode: no document names that mode, so it stands only where a part of a
combined condition was refused. -/

namespace FocusRules

/-- If a relation is another one with a demand on the second element, lists are related by it just
if they are by the other one and all second elements meet the demand. -/
theorem forall₂_iff_and {α β : Type} {R S : α → β → Prop} {p : β → Prop} {l : List α} {m : List β}
    (h : ∀ a, ∀ b ∈ m, S a b ↔ R a b ∧ p b) :
    List.Forall₂ S l m ↔ List.Forall₂ R l m ∧ ∀ b ∈ m, p b := by
  induction m generalizing l with
  | nil => simp
  | cons b m ih =>
    have hb : ∀ a, S a b ↔ R a b ∧ p b := fun a => h a b List.mem_cons_self
    have hm : ∀ l, List.Forall₂ S l m ↔ List.Forall₂ R l m ∧ ∀ b ∈ m, p b :=
      fun l => ih fun a c hc => h a c (List.mem_cons_of_mem _ hc)
    simp only [List.forall₂_cons_right_iff, hb, hm, List.forall_mem_cons]
    constructor
    · rintro ⟨a, l', ⟨hr, hp⟩, ⟨hrest, hps⟩, rfl⟩
      exact ⟨⟨a, l', hr, hrest, rfl⟩, hp, hps⟩
    · rintro ⟨⟨a, l', hr, hrest, rfl⟩, hp, hps⟩
      exact ⟨a, l', ⟨hr, hp⟩, ⟨hrest, hps⟩, rfl⟩

namespace Condition

inductive OccursIn (c : Condition) : Condition → Prop
  | self : OccursIn c c
  | part {mode : Mode} {parts : List Condition} {d : Condition} :
      d ∈ parts → OccursIn c d → OccursIn c (combined mode parts)

/-- No condition of unknown mode occurs in it. -/
def Intact (c : Condition) : Prop := ∀ d : Condition, d.OccursIn c → d.mode ≠ .unknown

theorem intact_flat {mode : Mode} {items : List Item} :
    (flat mode items).Intact ↔ mode ≠ .unknown := by
  refine ⟨fun h => h _ .self, fun h d hd => ?_⟩
  cases hd
  exact h

theorem intact_combined {mode : Mode} {parts : List Condition} :
    (combined mode parts).Intact ↔ mode ≠ .unknown ∧ ∀ c ∈ parts, c.Intact := by
  refine ⟨fun h => ⟨h _ .self, fun c hc d hd => h d (.part hc hd)⟩, fun h d hd => ?_⟩
  cases hd with
  | self => exact h.1
  | part hc hd => exact h.2 _ hc d hd

theorem not_intact_placeholder : ¬placeholder.Intact := fun h => intact_flat.1 h rfl

/-- A part is read in strict reading just if it is read leniently as a condition without any
placeholder, where this is known of the condition that is read. -/
theorem partOfJson_strict_iff {p : Json} {c : Condition}
    (ih : ofJson .strict p = .ok c ↔ ofJson .lenient p = .ok c ∧ c.Intact) :
    partOfJson .strict p = .ok c ↔ partOfJson .lenient p = .ok c ∧ c.Intact := by
  have hstrict : partOfJson .strict p = .ok c ↔ ofJson .strict p = .ok c := by
    simp [partOfJson_eq_ok]
  rw [hstrict, ih, partOfJson_eq_ok]
  refine and_congr_left fun hc => ⟨.inl, fun h => ?_⟩
  rcases h with h | ⟨-, -, rfl⟩
  · exact h
  · exact absurd hc not_intact_placeholder

theorem ofJson_strict_iff {j : Json} {c : Condition} :
    ofJson .strict j = .ok c ↔ ofJson .lenient j = .ok c ∧ c.Intact := by
  induction c generalizing j with
  | flat mode items =>
    rw [ofJson_eq_ok, ofJson_eq_ok, intact_flat]
    refine ⟨fun h => ?_, fun h => ?_⟩
    · obtain ⟨m, ht, hm, ⟨_, _, _, _, _, hc⟩ | hflat⟩ := h
      · cases hc
      obtain ⟨hnone, v, items, hv, hi, hc⟩ := hflat
      obtain ⟨rfl, rfl⟩ := Condition.flat.inj hc
      exact ⟨⟨mode, ht, hm, .inr ⟨hnone, v, _, hv, hi, rfl⟩⟩, hm⟩
    · obtain ⟨⟨m, ht, hm, ⟨_, _, _, _, _, hc⟩ | hflat⟩, -⟩ := h
      · cases hc
      exact ⟨m, ht, hm, .inr hflat⟩
  | combined mode parts ih =>
    have hparts : ∀ items, List.Forall₂ (fun p c => partOfJson .strict p = .ok c) items parts ↔
        List.Forall₂ (fun p c => partOfJson .lenient p = .ok c) items parts ∧
          ∀ c ∈ parts, c.Intact :=
      fun _ => forall₂_iff_and fun _ c hc => partOfJson_strict_iff (ih c hc)
    rw [ofJson_eq_ok, ofJson_eq_ok, intact_combined]
    constructor
    · rintro ⟨m, ht, hm, ⟨items, cs, hv, hne, hp, hc⟩ | ⟨_, _, _, _, _, hc⟩⟩
      · obtain ⟨rfl, rfl⟩ := Condition.combined.inj hc
        obtain ⟨hp, hintact⟩ := (hparts items).1 hp
        exact ⟨⟨mode, ht, hm, .inl ⟨items, parts, hv, hne, hp, rfl⟩⟩, hm, hintact⟩
      · cases hc
    · rintro ⟨⟨m, ht, hm, ⟨items, cs, hv, hne, hp, hc⟩ | ⟨_, _, _, _, _, hc⟩⟩, -, hintact⟩
      · obtain ⟨rfl, rfl⟩ := Condition.combined.inj hc
        exact ⟨mode, ht, hm, .inl ⟨items, parts, hv, hne, (hparts items).2 ⟨hp, hintact⟩, rfl⟩⟩
      · cases hc

end Condition

theorem Rule.ofJson_strict_iff {j : Json} {rule : Rule} :
    Rule.ofJson .strict j = .ok rule ↔
      Rule.ofJson .lenient j = .ok rule ∧ rule.condition.Intact := by
  simp only [Rule.ofJson_eq_ok, Condition.ofJson_strict_iff]
  constructor
  · rintro ⟨hname, hfocus, c, hc, hread, hintact⟩
    exact ⟨⟨hname, hfocus, c, hc, hread⟩, hintact⟩
  · rintro ⟨⟨hname, hfocus, c, hc, hread⟩, hintact⟩
    exact ⟨hname, hfocus, c, hc, hread, hintact⟩

theorem Predicates.ofJson_strict_iff {j : Json} {predicates : Predicates} :
    Predicates.ofJson .strict j = .ok predicates ↔
      Predicates.ofJson .lenient j = .ok predicates ∧
        ∀ name c, predicates.find? name = some c → c.Intact := by
  have hname : ∀ (v : Option Json) (c : Option Condition),
      c.map .ok = v.map (Condition.ofJson .strict) ↔
        c.map .ok = v.map (Condition.ofJson .lenient) ∧ ∀ d, c = some d → d.Intact := by
    intro v c
    cases v with
    | none => cases c <;> simp
    | some v =>
      cases c with
      | none => simp
      | some c => simpa [eq_comm] using Condition.ofJson_strict_iff
  simp only [Predicates.ofJson_eq_ok, hname, forall_and, and_assoc]

namespace RuleSet

theorem rulesOfJson_strict_iff {j : Json} {rules : List Rule} :
    rulesOfJson .strict j = .ok rules ↔
      rulesOfJson .lenient j = .ok rules ∧ ∀ r ∈ rules, r.condition.Intact := by
  have hrules : ∀ js, List.Forall₂ (fun j r => Rule.ofJson .strict j = .ok r) js rules ↔
      List.Forall₂ (fun j r => Rule.ofJson .lenient j = .ok r) js rules ∧
        ∀ r ∈ rules, r.condition.Intact :=
    fun _ => forall₂_iff_and fun _ _ _ => Rule.ofJson_strict_iff
  simp only [rulesOfJson_eq_ok, hrules]
  constructor
  · rintro ⟨js, rfl, hne, hread, hintact⟩
    exact ⟨⟨js, rfl, hne, hread⟩, hintact⟩
  · rintro ⟨⟨js, rfl, hne, hread⟩, hintact⟩
    exact ⟨js, rfl, hne, hread, hintact⟩

def Contains (m : RuleSet) (c : Condition) : Prop :=
  (∃ r ∈ m.rules, c.OccursIn r.condition) ∨
    ∃ name d, m.predicates.find? name = some d ∧ c.OccursIn d

theorem forall_contains_iff {m : RuleSet} : (∀ c, m.Contains c → c.mode ≠ .unknown) ↔
    (∀ r ∈ m.rules, r.condition.Intact) ∧
      ∀ name c, m.predicates.find? name = some c → c.Intact := by
  constructor
  · intro h
    exact ⟨fun r hr d hd => h d (.inl ⟨r, hr, hd⟩),
      fun name c hc d hd => h d (.inr ⟨name, c, hc, hd⟩)⟩
  · rintro ⟨hrules, hpredicates⟩ c (⟨r, hr, hc⟩ | ⟨name, d, hd, hc⟩)
    · exact hrules r hr c hc
    · exact hpredicates name d hd c hc

theorem ofJson_strict_iff {j : Json} {m : RuleSet} :
    ofJson .strict j = .ok m ↔
      ofJson .lenient j = .ok m ∧ ∀ c, m.Contains c → c.mode ≠ .unknown := by
  simp only [ofJson_eq_ok, Predicates.ofJson_strict_iff, rulesOfJson_strict_iff,
    forall_contains_iff]
  constructor
  · rintro ⟨htypes, hpredicates, w, hw, hrules, hintact⟩
    rcases hpredicates with ⟨v, hv, hread, hdefined⟩ | ⟨hnone, hempty⟩
    · exact ⟨⟨htypes, .inl ⟨v, hv, hread⟩, w, hw, hrules⟩, hintact, hdefined⟩
    · refine ⟨⟨htypes, .inr ⟨hnone, hempty⟩, w, hw, hrules⟩, hintact, fun name c hc => ?_⟩
      rw [hempty, Dictionary.find?_empty] at hc
      cases hc
  · rintro ⟨⟨htypes, hpredicates, w, hw, hrules⟩, hintact, hdefined⟩
    refine ⟨htypes, ?_, w, hw, hrules, hintact⟩
    rcases hpredicates with ⟨v, hv, hread⟩ | hnone
    · exact .inl ⟨v, hv, hread, hdefined⟩
    · exact .inr hnone

/-- A document is accepted in strict reading just if lenient reading accepts it and shows no
condition of unknown mode, and both give the same rule set. So what lenient reading refuses, strict
reading refuses too, and what only lenient reading accepts contains a condition of unknown mode. -/
theorem strict_iff_lenient_without_unknown (j : Json) :
    (∀ m, ofJson .strict j = .ok m ↔
      ofJson .lenient j = .ok m ∧ ∀ c, m.Contains c → c.mode ≠ .unknown) ∧
    (∀ f, ofJson .lenient j = .error f → ∃ f', ofJson .strict j = .error f') ∧
    ∀ m f, ofJson .lenient j = .ok m → ofJson .strict j = .error f →
      ∃ c, m.Contains c ∧ c.mode = .unknown := by
  refine ⟨fun m => ofJson_strict_iff, fun f hlenient => ?_, fun m f hlenient hstrict => ?_⟩
  · cases hstrict : ofJson .strict j with
    | error f' => exact ⟨f', rfl⟩
    | ok m =>
      have hok := (ofJson_strict_iff.1 hstrict).1
      cases hlenient.symm.trans hok
  · by_contra hnone
    have hintact : ∀ c, m.Contains c → c.mode ≠ .unknown :=
      fun c hc hmode => hnone ⟨c, hc, hmode⟩
    have hok := ofJson_strict_iff.2 ⟨hlenient, hintact⟩
    cases hstrict.symm.trans hok

def mysteryPart : Json := .object [
  ("defines", .object []),
  ("rules", .array [.object [
    ("name", .string "buttons"), ("isfocus", .bool true),
    ("check", .object [
      ("condition_type", .string "or"),
      ("combined_condition", .array [.object [("condition_type", .string "mystery")], .object [
        ("condition_type", .string "single"),
        ("condition", .object [("prop", .string "type"), ("operator", .string "eq"),
          ("value", .string "Button")])]])])]])]

theorem strict_iff_lenient_without_unknown_mysteryPart :
    ∃ m f, ofJson .lenient mysteryPart = .ok m ∧ ofJson .strict mysteryPart = .error f ∧
      ∃ c, m.Contains c ∧ c.mode = .unknown := by
  obtain ⟨m, hlenient⟩ : ∃ m, ofJson .lenient mysteryPart = .ok m := ⟨_, rfl⟩
  obtain ⟨f, hstrict⟩ : ∃ f, ofJson .strict mysteryPart = .error f := ⟨_, rfl⟩
  obtain ⟨-, -, hunknown⟩ := strict_iff_lenient_without_unknown mysteryPart
  exact ⟨m, f, hlenient, hstrict, hunknown m f hlenient hstrict⟩

end RuleSet

end FocusRules
