import FocusRules.Evaluation
import Mathlib.Data.Set.Basic

/-! What a condition says, as a proposition about the truth of its items. A condition says more the
more of its items are true, so only an item itself can turn an answer around: one that wants a
predicate to be false. -/

namespace FocusRules

theorem all_cases {α : Type} (l : List α) (p : α → Bool) :
    (l.all p = true ∧ ∀ a ∈ l, p a = true) ∨ (l.all p = false ∧ ∃ a ∈ l, p a = false) := by
  cases h : l.all p with
  | true => exact .inl ⟨rfl, List.all_eq_true.1 h⟩
  | false =>
    obtain ⟨a, ha, hf⟩ := List.all_eq_false.1 h
    exact .inr ⟨rfl, a, ha, Bool.eq_false_iff.2 hf⟩

theorem any_cases {α : Type} (l : List α) (p : α → Bool) :
    (l.any p = true ∧ ∃ a ∈ l, p a = true) ∨ (l.any p = false ∧ ∀ a ∈ l, p a = false) := by
  cases h : l.any p with
  | true => exact .inl ⟨rfl, List.any_eq_true.1 h⟩
  | false => exact .inr ⟨rfl, fun a ha => Bool.eq_false_iff.2 (List.any_eq_false.1 h a ha)⟩

namespace Condition

/-- The conditions that hold when an item is as true as `truth` says. -/
inductive Meets (truth : Item → Prop) : Condition → Prop
  | single {item : Item} : truth item → Meets truth (flat .single [item])
  | allItems {items : List Item} : (∀ item ∈ items, truth item) → Meets truth (flat .and items)
  | someItem {items : List Item} {item : Item} :
      item ∈ items → truth item → Meets truth (flat .or items)
  | allParts {parts : List Condition} :
      (∀ c ∈ parts, Meets truth c) → Meets truth (combined .and parts)
  | somePart {parts : List Condition} {c : Condition} :
      c ∈ parts → Meets truth c → Meets truth (combined .or parts)

theorem Meets.mono {p q : Item → Prop} {c : Condition} (h : ∀ item ∈ c.atoms, p item → q item)
    (hc : c.Meets p) : c.Meets q := by
  induction hc with
  | @single item hp => exact .single (h item (by simp) hp)
  | allItems hp => exact .allItems fun item hi => h item hi (hp item hi)
  | someItem hi hp => exact .someItem hi (h _ hi hp)
  | allParts _ ih =>
    exact .allParts fun c hc => ih c hc fun item hi => h item (mem_atoms_combined.2 ⟨c, hc, hi⟩)
  | @somePart parts c hc _ ih =>
    exact .somePart hc (ih fun item hi => h item (mem_atoms_combined.2 ⟨c, hc, hi⟩))

/-- The evaluation of a condition decides what the condition says. -/
theorem holdsBy_iff (truth : Item → Bool) (c : Condition) :
    c.holdsBy truth = true ↔ c.Meets (truth · = true) := by
  induction c with
  | flat mode items =>
    refine ⟨fun h => ?_, fun h => ?_⟩
    · cases mode with
      | unknown => simp [holdsBy] at h
      | single =>
        match items, h with
        | [item], h => exact .single (by simpa [holdsBy] using h)
      | and => exact .allItems (by simpa [holdsBy] using h)
      | or =>
        obtain ⟨item, hi, ht⟩ : ∃ item ∈ items, truth item = true := by simpa [holdsBy] using h
        exact .someItem hi ht
    · obtain h | h | ⟨hi, h⟩ := h
      · simpa [holdsBy] using h
      · simpa [holdsBy] using h
      · simpa [holdsBy] using ⟨_, hi, h⟩
  | combined mode parts ih =>
    refine ⟨fun h => ?_, fun h => ?_⟩
    · cases mode with
      | unknown => simp [holdsBy] at h
      | single => simp [holdsBy] at h
      | and =>
        rw [holdsBy, allHoldBy_eq, List.all_eq_true] at h
        exact .allParts fun c hc => (ih c hc).1 (h c hc)
      | or =>
        rw [holdsBy, someHoldsBy_eq, List.any_eq_true] at h
        obtain ⟨c, hc, h⟩ := h
        exact .somePart hc ((ih c hc).1 h)
    · cases h with
      | allParts h =>
        rw [holdsBy, allHoldBy_eq, List.all_eq_true]
        exact fun c hc => (ih c hc).2 (h c hc)
      | somePart hc h =>
        rw [holdsBy, someHoldsBy_eq, List.any_eq_true]
        exact ⟨_, hc, (ih _ hc).2 h⟩

/-- Only the truth of a condition's own items counts. -/
theorem holdsBy_congr {truth truth' : Item → Bool} {c : Condition}
    (h : ∀ item ∈ c.atoms, truth item = truth' item) : c.holdsBy truth = c.holdsBy truth' := by
  rw [Bool.eq_iff_iff, holdsBy_iff, holdsBy_iff]
  exact ⟨Meets.mono fun item hi ht => h item hi ▸ ht, Meets.mono fun item hi ht => h item hi ▸ ht⟩

theorem holdsBy_mono {truth truth' : Item → Bool} {c : Condition}
    (h : ∀ item ∈ c.atoms, truth item = true → truth' item = true) (hc : c.holdsBy truth = true) :
    c.holdsBy truth' = true :=
  (holdsBy_iff _ _).2 (((holdsBy_iff _ _).1 hc).mono h)

end Condition

namespace Item

/-- The item is an equality or inequality with a truth value. -/
def Admissible (item : Item) : Prop :=
  (item.operator = .eq ∨ item.operator = .ne) ∧ ∃ b, item.value = .bool b

/-- The item wants a predicate to be true. -/
def Affirms (item : Item) : Prop :=
  (item.operator = .eq ∧ item.value = .bool true) ∨ (item.operator = .ne ∧ item.value = .bool false)

/-- The item never wants a predicate to be false. -/
def Positive (item : Item) : Prop :=
  item.subject.isPredicate = true → item.Affirms ∨ ¬item.Admissible

instance (item : Item) : Decidable item.Admissible := inferInstanceAs (Decidable (_ ∧ _))

instance (item : Item) : Decidable item.Affirms := inferInstanceAs (Decidable (_ ∨ _))

instance (item : Item) : Decidable item.Positive := inferInstanceAs (Decidable (_ → _))

theorem expected?_eq_some_iff {item : Item} {b : Bool} :
    item.expected? = some b ↔ (item.operator = .eq ∧ item.value = .bool b) ∨
      (item.operator = .ne ∧ item.value = .bool !b) := by
  unfold expected?
  split
  next c ho hv => simp [ho, hv]
  next c ho hv => cases b <;> cases c <;> simp [ho, hv]
  next hne hnn =>
    refine ⟨fun h => ?_, fun h => ?_⟩
    · cases h
    · obtain ⟨ho, hv⟩ | ⟨ho, hv⟩ := h
      · exact absurd hv (hne _ ho)
      · exact absurd hv (hnn _ ho)

theorem affirms_iff {item : Item} : item.Affirms ↔ item.expected? = some true := by
  rw [expected?_eq_some_iff]; rfl

theorem admissible_iff {item : Item} : item.Admissible ↔ ∃ b, item.expected? = some b := by
  simp only [expected?_eq_some_iff]
  refine ⟨fun h => ?_, fun h => ?_⟩
  · obtain ⟨ho | ho, b, hv⟩ := h
    · exact ⟨b, .inl ⟨ho, hv⟩⟩
    · exact ⟨!b, .inr ⟨ho, by simpa using hv⟩⟩
  · obtain ⟨b, ⟨ho, hv⟩ | ⟨ho, hv⟩⟩ := h
    · exact ⟨.inl ho, b, hv⟩
    · exact ⟨.inr ho, !b, hv⟩

theorem expected?_eq_none_iff {item : Item} : item.expected? = none ↔ ¬item.Admissible := by
  rw [admissible_iff, not_exists, Option.eq_none_iff_forall_ne_some]

section

variable {g : NodeGraph} {ask : String → Fin g.size → Option Bool} {t : Fin g.size} {item : Item}
  {name : String}

theorem holdsAt_property (hs : item.subject = .property name) :
    item.holdsAt g ask t =
      ((g.node t).readNamed name).any (·.compare item.operator item.value) := by
  rw [holdsAt, hs]

theorem holdsAt_predicate (hs : item.subject = .predicate name) :
    item.holdsAt g ask t = item.expected?.any fun b => ask name t = some b := by
  rw [holdsAt, hs]

/-- Only an admissible item asks, and it asks for one predicate. -/
theorem holdsAt_congr {ask' : String → Fin g.size → Option Bool}
    (h : ∀ name, item.subject = .predicate name → item.Admissible → ask name t = ask' name t) :
    item.holdsAt g ask t = item.holdsAt g ask' t := by
  cases hs : item.subject with
  | property name => rw [holdsAt_property hs, holdsAt_property hs]
  | predicate name =>
    rw [holdsAt_predicate hs, holdsAt_predicate hs]
    by_cases ha : item.Admissible
    · rw [h name hs ha]
    · rw [expected?_eq_none_iff.2 ha]
      rfl

/-- With an answer about every node that it looks at, an item looks for the one that it wants. -/
theorem holdsWith_iff_of_answers {v : Fin g.size} {b : Bool} {truth : Fin g.size → Bool}
    (hs : item.subject = .predicate name) (hb : item.expected? = some b)
    (ha : ∀ t ∈ item.targets g v, ask name t = some (truth t)) :
    item.holdsWith g ask v = true ↔ ∃ t ∈ item.targets g v, truth t = b := by
  rw [holdsWith, List.any_eq_true]
  refine exists_congr fun t => and_congr_right fun ht => ?_
  rw [holdsAt_predicate hs, hb, ha t ht, Option.any_some, decide_eq_true_iff, Option.some.injEq]

end

theorem Positive.affirms {item : Item} (h : item.Positive) {name : String}
    (hs : item.subject = .predicate name) (ha : item.Admissible) : item.Affirms :=
  (h (by rw [hs]; rfl)).resolve_right fun hn => hn ha

end Item

/-- No item at any depth wants a predicate to be false. -/
def Condition.Positive (c : Condition) : Prop := ∀ item ∈ c.atoms, item.Positive

instance (c : Condition) : Decidable c.Positive := inferInstanceAs (Decidable (∀ _ ∈ _, _))

def Predicates.Positive (predicates : Predicates) : Prop :=
  ∀ name c, predicates.find? name = some c → c.Positive

theorem Predicates.positive_iff {predicates : Predicates} :
    predicates.Positive ↔ ∀ e ∈ predicates.entries, e.2.Positive :=
  ⟨fun h e he => h e.1 e.2 (Dictionary.find?_eq_some_iff.2 he),
    fun h name c hc => h (name, c) (Dictionary.find?_eq_some_iff.1 hc)⟩

instance (predicates : Predicates) : Decidable predicates.Positive :=
  decidable_of_iff' _ Predicates.positive_iff

variable {predicates : Predicates} {g : NodeGraph}

/-- When a question is answered, and how. -/
theorem answer_succ (left : ℕ) (opened : List Question) (name : String) (v : Fin g.size)
    (b : Bool) :
    answer predicates g (left + 1) opened name v = some b ↔ ⟨name, g.id v⟩ ∉ opened ∧
      ∃ c, predicates.find? name = some c ∧ c.holdsBy (Item.holdsWith g
        (answer predicates g left (⟨name, g.id v⟩ :: opened)) v) = b := by
  rw [answer]
  split
  next h => simp [h]
  next h => simp [h]

theorem answer_of_undefined {name : String} (h : predicates.find? name = none) (left : ℕ)
    (opened : List Question) (v : Fin g.size) : answer predicates g left opened name v = none := by
  cases left with
  | zero => rfl
  | succ left =>
    rw [answer]
    split
    · rfl
    · simp [h]

theorem answer_of_mem {opened : List Question} {name : String} {v : Fin g.size}
    (h : ⟨name, g.id v⟩ ∈ opened) (left : ℕ) : answer predicates g left opened name v = none := by
  cases left with
  | zero => rfl
  | succ left => rw [answer, if_pos h]

end FocusRules
