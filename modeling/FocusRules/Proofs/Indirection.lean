import FocusRules.Proofs.Ranked
import FocusRules.Proofs.Reference
import Mathlib.Data.Finset.Prod

/-! Asking for a predicate and evaluating its definition. Asking has one more question open, and one
question less is allowed below it. Where the questions that may come up are fewer than the limit,
the depth guard never refuses one, and a predicate that does not refer to itself is never asked
again, so the item finds out what the definition says. -/

namespace FocusRules

variable {predicates : Predicates} {g : NodeGraph}

/-- At least as many questions are allowed as are in scope and not open. -/
def Room (scope : Finset Question) (left : ℕ) (opened : List Question) : Prop :=
  (scope.filter (· ∉ opened)).card ≤ left

namespace Room

variable {scope : Finset Question} {left : ℕ} {opened : List Question} {q : Question}

theorem of_card_le (h : scope.card ≤ left) (opened : List Question) : Room scope left opened :=
  (Finset.card_filter_le _ _).trans h

theorem mem_of_zero (h : Room scope 0 opened) (hq : q ∈ scope) : q ∈ opened := by
  have hnone : scope.filter (· ∉ opened) = ∅ := Finset.card_eq_zero.1 (Nat.le_zero.1 h)
  exact not_not.1 (Finset.filter_eq_empty_iff.1 hnone hq)

/-- A question that is opened takes the place it needs. -/
theorem cons (h : Room scope (left + 1) opened) (hq : q ∈ scope) (ho : q ∉ opened) :
    Room scope left (q :: opened) := by
  have hfewer : scope.filter (· ∉ q :: opened) ⊂ scope.filter (· ∉ opened) := by
    refine Finset.ssubset_iff_of_subset ?_ |>.2 ⟨q, ?_, ?_⟩
    · exact Finset.monotone_filter_right _ fun q' _ hq' hmem => hq' (List.mem_cons_of_mem _ hmem)
    · exact Finset.mem_filter.2 ⟨hq, ho⟩
    · simp
  exact Nat.le_of_lt_succ ((Finset.card_lt_card hfewer).trans_le h)

end Room

section

variable {left left' : ℕ} {opened opened' : List Question} {v : Fin g.size}

/-- Only the answers to the questions that an item puts count. -/
theorem Item.holdsAt_answer_congr {item : Item} {t : Fin g.size} (ht : t ∈ item.targets g v)
    (h : ∀ name, ⟨name, g.id t⟩ ∈ item.questions predicates g v →
      answer predicates g left opened name t = answer predicates g left' opened' name t) :
    item.holdsAt g (answer predicates g left opened) t =
      item.holdsAt g (answer predicates g left' opened') t := by
  refine holdsAt_congr fun name hs ha => ?_
  cases hd : predicates.find? name with
  | none => rw [answer_of_undefined hd, answer_of_undefined hd]
  | some d => exact h name (mem_questions hs ha hd ht)

/-- And only those to the questions that a condition puts. -/
theorem Condition.holdsBy_answer_congr {c : Condition}
    (h : ∀ name t, ⟨name, g.id t⟩ ∈ c.questions predicates g v →
      answer predicates g left opened name t = answer predicates g left' opened' name t) :
    c.holdsBy (Item.holdsWith g (answer predicates g left opened) v) =
      c.holdsBy (Item.holdsWith g (answer predicates g left' opened') v) := by
  refine holdsBy_congr fun item hi => ?_
  rw [Item.holdsWith, Item.holdsWith, Bool.eq_iff_iff, List.any_eq_true, List.any_eq_true]
  refine exists_congr fun t => and_congr_right fun ht => ?_
  rw [Item.holdsAt_answer_congr ht fun name hq => ?_]
  exact h name t (List.mem_flatMap.2 ⟨item, hi, hq⟩)

end

/-- With room for all questions in scope, of which the same are open, the answers are the same,
whatever else is open and however many more are allowed. -/
theorem answer_eq_of_room {scope : Finset Question}
    (hclosed : ∀ q ∈ scope, ∀ q', q.LeadsTo predicates g q' → q' ∈ scope) {left left' : ℕ}
    {opened opened' : List Question} (hroom : Room scope left opened)
    (hroom' : Room scope left' opened') (hopen : ∀ q ∈ scope, q ∈ opened ↔ q ∈ opened')
    {name : String} {v : Fin g.size} (hq : ⟨name, g.id v⟩ ∈ scope) :
    answer predicates g left opened name v = answer predicates g left' opened' name v := by
  -- neither runs out before the other: without questions left, all in scope are open
  induction left generalizing left' opened opened' name v with
  | zero =>
    have ho := hroom.mem_of_zero hq
    rw [answer_of_mem ho, answer_of_mem ((hopen _ hq).1 ho)]
  | succ left ih =>
    by_cases ho : ⟨name, g.id v⟩ ∈ opened
    · rw [answer_of_mem ho, answer_of_mem ((hopen _ hq).1 ho)]
    have ho' : ⟨name, g.id v⟩ ∉ opened' := mt (hopen _ hq).2 ho
    cases left' with
    | zero => exact absurd (hroom'.mem_of_zero hq) ho'
    | succ left' =>
      cases hc : predicates.find? name with
      | none => rw [answer_of_undefined hc, answer_of_undefined hc]
      | some c =>
        rw [(answer_succ ..).2 ⟨ho, c, hc, rfl⟩, (answer_succ ..).2 ⟨ho', c, hc, rfl⟩]
        refine congrArg some (c.holdsBy_answer_congr fun name' t hq' => ?_)
        refine ih (hroom.cons hq ho) (hroom'.cons hq ho') (fun q hq => ?_)
          (hclosed _ hq _ ⟨c, v, hc, rfl, hq'⟩)
        rw [List.mem_cons, List.mem_cons, hopen q hq]

def NodeGraph.ids (g : NodeGraph) : Finset NodeId := Finset.univ.image g.id

namespace Condition

variable {c d : Condition} {q : Question} {name : String} {v : Fin g.size}

open Classical in
/-- The defined names that the condition refers to. -/
noncomputable def references (predicates : Predicates) (c : Condition) : Finset String :=
  predicates.keys.toFinset.filter (c.Refers predicates)

theorem mem_references : name ∈ c.references predicates ↔
    (predicates.find? name).isSome ∧ c.Refers predicates name := by
  simp only [references, Finset.mem_filter, List.mem_toFinset, Dictionary.mem_keys_iff]

/-- The questions that an evaluation of the condition may come to, at whatever node. -/
noncomputable def scope (predicates : Predicates) (g : NodeGraph) (c : Condition) :
    Finset Question :=
  (c.references predicates ×ˢ g.ids).image fun p => ⟨p.1, p.2⟩

theorem card_scope_le :
    (c.scope predicates g).card ≤ (c.references predicates).card * g.ids.card :=
  Finset.card_image_le.trans_eq (Finset.card_product _ _)

theorem mem_scope {u : Fin g.size} : ⟨name, g.id u⟩ ∈ c.scope predicates g ↔
    (predicates.find? name).isSome ∧ c.Refers predicates name := by
  simp [scope, mem_references, NodeGraph.ids]

theorem exists_of_mem_questions (h : q ∈ d.questions predicates g v) :
    ∃ name u, q = ⟨name, g.id u⟩ ∧ name ∈ d.mentioned ∧ (predicates.find? name).isSome := by
  obtain ⟨item, hi, hq⟩ := List.mem_flatMap.1 h
  cases hs : item.subject with
  | property name => simp [Item.questions, hs] at hq
  | predicate name =>
    simp only [Item.questions, hs] at hq
    split at hq
    next hasked =>
      obtain ⟨u, -, rfl⟩ := List.mem_map.1 hq
      exact ⟨name, u, rfl, mem_mentioned hi hs, hasked.2⟩
    next => cases hq

theorem mem_scope_of_mem_questions (hd : ∀ name ∈ d.mentioned, c.Refers predicates name)
    (h : q ∈ d.questions predicates g v) : q ∈ c.scope predicates g := by
  obtain ⟨name, u, rfl, hname, hdefined⟩ := exists_of_mem_questions h
  exact mem_scope.2 ⟨hdefined, hd name hname⟩

/-- Nothing that comes up leads out of scope. -/
theorem scope_closed {q' : Question} (hq : q ∈ c.scope predicates g)
    (h : q.LeadsTo predicates g q') : q' ∈ c.scope predicates g := by
  obtain ⟨d, u, hd, hu, hq'⟩ := h
  obtain ⟨name, id⟩ := q
  obtain rfl := hu
  exact mem_scope_of_mem_questions (fun _ hname => (mem_scope.1 hq).2.of_mentioned hd hname) hq'

/-- With room for what may come up, a predicate that does not refer to itself is answered by its
definition. -/
theorem answer_eq_holds (hdefined : predicates.find? name = some c)
    (hself : ¬c.Refers predicates name)
    (hroom : (c.references predicates).card * g.ids.card < questionLimit) (t : Fin g.size) :
    answer predicates g questionLimit [] name t = some (c.holds predicates g t) := by
  have hcard : (c.scope predicates g).card < questionLimit := card_scope_le.trans_lt hroom
  have hopen : ∀ q ∈ c.scope predicates g, q ∉ [(⟨name, g.id t⟩ : Question)] := by
    intro q hq hmem
    obtain rfl := List.mem_singleton.1 hmem
    exact hself (mem_scope.1 hq).2
  refine (answer_succ ..).2 ⟨List.not_mem_nil, c, hdefined, ?_⟩
  refine c.holdsBy_answer_congr fun name' u hq => ?_
  refine answer_eq_of_room (fun q hq q' => scope_closed hq) (.of_card_le ?_ _) (.of_card_le ?_ _)
    (fun q hq => ?_) (mem_scope_of_mem_questions (fun _ => .mention) hq)
  · exact Nat.le_of_lt_succ hcard
  · exact hcard.le
  · simp [hopen q hq]

end Condition

namespace Item

/-- A predicate that does not refer to itself may be asked for or evaluated: an item on it is true
where one of the nodes that the item looks at meets the definition as the item wants, provided that
the names that the definition refers to and the ids of the nodes make at most 31 questions. -/
theorem holds_iff_definition_holds (predicates : Predicates) (name : String) (c : Condition)
    (hdefined : predicates.find? name = some c) (hself : ¬c.Refers predicates name) (g : NodeGraph)
    (hroom : (c.references predicates).card * g.ids.card ≤ 31) (b : Bool) (target : Target)
    (cascade : Bool) (v : Fin g.size) :
    let item (operator : Operator) : Item := ⟨.predicate name, operator, .bool b, target, cascade⟩
    ((item .eq).holds predicates g v = true ↔
      ∃ t ∈ (item .eq).targets g v, c.holds predicates g t = b) ∧
    ((item .ne).holds predicates g v = true ↔
      ∃ t ∈ (item .ne).targets g v, c.holds predicates g t ≠ b) := by
  intro item
  have hanswer : ∀ t, answer predicates g questionLimit [] name t = some (c.holds predicates g t) :=
    c.answer_eq_holds hdefined hself (Nat.lt_succ_of_le hroom)
  constructor
  · exact holdsWith_iff_of_answers rfl rfl fun t _ => hanswer t
  · refine (holdsWith_iff_of_answers rfl rfl fun t _ => hanswer t).trans ?_
    simp only [Bool.eq_not, ne_eq]

def plain : Condition := .flat .and [⟨.predicate "up", .ne, .bool true, .self, false⟩,
  ⟨.predicate "odd", .eq, .bool false, .parent, false⟩]

/-- Two predicates that ask for each other, up and down, and one that asks for its own negation. -/
def amongCycles : Predicates := .ofList [
  ("plain", plain),
  ("up", .flat .or [⟨.property "type", .eq, .string "Dialog", .self, false⟩,
    ⟨.predicate "down", .eq, .bool false, .parent, false⟩]),
  ("down", .single ⟨.predicate "up", .eq, .bool true, .children, true⟩),
  ("odd", .single ⟨.predicate "odd", .ne, .bool true, .self, false⟩)]

theorem holds_iff_definition_holds_amongCycles :
    let g := Condition.dialogRowButton
    let v : Fin g.size := ⟨0, by decide⟩
    let item (operator : Operator) : Item :=
      ⟨.predicate "plain", operator, .bool true, .children, true⟩
    amongCycles.find? "plain" = some plain ∧ ¬plain.Refers amongCycles "plain" ∧
      (plain.references amongCycles).card * g.ids.card ≤ 31 ∧
      (∃ t ∈ (item .eq).targets g v, plain.holds amongCycles g t = true) ∧
      (item .eq).holds amongCycles g v = true ∧
      (∃ t ∈ (item .ne).targets g v, plain.holds amongCycles g t ≠ true) ∧
      (item .ne).holds amongCycles g v = true := by
  intro g v item
  have hdefined : amongCycles.find? "plain" = some plain := rfl
  have hnames : ∀ name, plain.Refers amongCycles name → name ∈ ["up", "odd", "down"] :=
    fun name h => h.mem_of_closed (by decide) (by decide)
  have hself : ¬plain.Refers amongCycles "plain" := fun h => absurd (hnames _ h) (by decide)
  have hthree : (plain.references amongCycles).card ≤ 3 :=
    Finset.card_le_card (t := ["up", "odd", "down"].toFinset) fun name h =>
      List.mem_toFinset.2 (hnames name (Condition.mem_references.1 h).2)
  have hroom : (plain.references amongCycles).card * g.ids.card ≤ 31 :=
    (Nat.mul_le_mul hthree (show g.ids.card ≤ 3 by decide)).trans (by decide)
  have heq : ∃ t ∈ (item .eq).targets g v, plain.holds amongCycles g t = true := by decide
  have hne : ∃ t ∈ (item .ne).targets g v, plain.holds amongCycles g t ≠ true := by decide
  obtain ⟨hholds, hholds'⟩ := holds_iff_definition_holds amongCycles "plain" plain hdefined hself g
    hroom true .children true v
  exact ⟨hdefined, hself, hroom, heq, hholds.2 heq, hne, hholds'.2 hne⟩

end Item

end FocusRules
