import FocusRules.Proofs.Truth
import FocusRules.RuleSet
import Mathlib.Data.List.Forall2

/-! Rule sets that differ only in conditions that never hold. Putting one such condition in the
place of another changes no answer, through any guard and under any expectation, since a predicate
is asked and refused alike in both. -/

namespace FocusRules

variable {never : Condition}

namespace Condition

/-- Whatever the predicates, and at every stage of an evaluation, the condition is false. -/
def NeverHolds (c : Condition) : Prop :=
  ∀ (predicates : Predicates) (g : NodeGraph) (left : ℕ) (opened : List Question)
    (v : Fin g.size), c.holdsBy (Item.holdsWith g (answer predicates g left opened) v) = false

theorem neverHolds_single {item : Item} {name : String} (hs : item.subject = .property name)
    (hname : Property.ofName? name = none) : (single item).NeverHolds := by
  intro predicates g left opened v
  have hread : ∀ t, item.holdsAt g (answer predicates g left opened) t = false := by
    intro t
    rw [Item.holdsAt_property hs, Node.readNamed, hname]
    rfl
  rw [single, holdsBy, Item.holdsWith, List.any_eq_false]
  exact fun t _ => Bool.eq_false_iff.1 (hread t)

/-- The two conditions are true alike whenever `never` is false. -/
def EqualUnless (never c c' : Condition) : Prop :=
  ∀ truth, never.holdsBy truth = false → c'.holdsBy truth = c.holdsBy truth

theorem EqualUnless.refl (c : Condition) : EqualUnless never c c := fun _ _ => rfl

theorem EqualUnless.placeholder : EqualUnless never placeholder never := fun _ h => h

theorem EqualUnless.combined {mode : Mode} {parts parts' : List Condition}
    (h : List.Forall₂ (EqualUnless never) parts parts') :
    EqualUnless never (.combined mode parts) (.combined mode parts') := by
  intro truth hn
  have hparts : allHoldBy truth parts' = allHoldBy truth parts ∧
      someHoldsBy truth parts' = someHoldsBy truth parts := by
    induction h with
    | nil => exact ⟨rfl, rfl⟩
    | cons hc _ ih =>
      rw [allHoldBy, allHoldBy, someHoldsBy, someHoldsBy, hc truth hn, ih.1, ih.2]
      exact ⟨rfl, rfl⟩
  cases mode with
  | and => rw [holdsBy, holdsBy, hparts.1]
  | or => rw [holdsBy, holdsBy, hparts.2]
  | single => rfl
  | unknown => rfl

end Condition

def Predicates.EqualUnless (never : Condition) (predicates predicates' : Predicates) : Prop :=
  ∀ name, Option.Rel (Condition.EqualUnless never) (predicates.find? name) (predicates'.find? name)

structure Rule.EqualUnless (never : Condition) (rule rule' : Rule) : Prop where
  name : rule'.name = rule.name
  focus : rule'.isFocus = rule.isFocus
  condition : Condition.EqualUnless never rule.condition rule'.condition

structure RuleSet.EqualUnless (never : Condition) (rules rules' : RuleSet) : Prop where
  types : rules'.types = rules.types
  predicates : Predicates.EqualUnless never rules.predicates rules'.predicates
  rules : List.Forall₂ (Rule.EqualUnless never) rules.rules rules'.rules

section

variable {predicates predicates' : Predicates} (hn : never.NeverHolds)
  (h : predicates.EqualUnless never predicates') (g : NodeGraph)

include hn h

/-- Every question has the same answer, however many are allowed and whichever are open. -/
theorem answer_eq (left : ℕ) (opened : List Question) :
    answer predicates' g left opened = answer predicates g left opened := by
  induction left generalizing opened with
  | zero => rfl
  | succ left ih =>
    funext name v
    rw [answer, answer, ih]
    have hname := h name
    generalize predicates.find? name = c at hname
    generalize predicates'.find? name = c' at hname
    cases hname with
    | none => rfl
    | some hc => rw [Option.map_some, Option.map_some, hc _ (hn predicates g left _ v)]

theorem Condition.EqualUnless.holds_eq {c c' : Condition} (hc : EqualUnless never c c')
    (v : Fin g.size) : c'.holds predicates' g v = c.holds predicates g v := by
  have htruth : (fun item : Item => item.holds predicates' g v) =
      Item.holdsWith g (answer predicates g questionLimit []) v := by
    rw [← answer_eq hn h]
    rfl
  rw [holds, htruth, hc _ (hn predicates g questionLimit [] v)]
  rfl

theorem Rule.EqualUnless.outcome_eq {rule rule' : Rule} (hr : rule.EqualUnless never rule')
    (v : Fin g.size) : rule'.outcome predicates' g v = rule.outcome predicates g v := by
  rw [outcome, outcome, hr.condition.holds_eq hn h, hr.focus]

end

def Outcome.verdict? (rule : String) : Outcome → Option Verdict
  | handled readable => some ⟨rule, readable⟩
  | unhandled => none

namespace RuleSet

/-- What each rule says about a node, in the order in which the rules are tried. -/
def outcomes (m : RuleSet) (g : NodeGraph) (v : Fin g.size) : List (String × Outcome) :=
  m.rules.map fun r => (r.name, r.outcome m.predicates g v)

/-- The first outcome that is no abstention decides. -/
theorem evaluate_eq_findSome? (m : RuleSet) (g : NodeGraph) (v : Fin g.size) :
    m.evaluate g v = (m.outcomes g v).findSome? fun o => o.2.verdict? o.1 := by
  rw [outcomes, List.findSome?_map]
  rfl

theorem evaluate_eq_of_outcomes {m m' : RuleSet} {g g' : NodeGraph} {v : Fin g.size}
    {v' : Fin g'.size} (h : m'.outcomes g' v' = m.outcomes g v) :
    m'.evaluate g' v' = m.evaluate g v := by
  rw [evaluate_eq_findSome?, evaluate_eq_findSome?, h]

/-- Rules of the same names with the same outcomes. -/
theorem outcomes_eq_of_forall₂ {m m' : RuleSet} {g g' : NodeGraph} {v : Fin g.size}
    {v' : Fin g'.size} (h : List.Forall₂ (fun r r' => r'.name = r.name ∧
      r'.outcome m'.predicates g' v' = r.outcome m.predicates g v) m.rules m'.rules) :
    m'.outcomes g' v' = m.outcomes g v := by
  have heq : List.Forall₂ (· = ·) (m.outcomes g v) (m'.outcomes g' v') := by
    rw [outcomes, outcomes, List.forall₂_map_left_iff, List.forall₂_map_right_iff]
    refine h.imp fun r r' hr => ?_
    rw [hr.1, hr.2]
  rw [List.forall₂_eq_eq_eq] at heq
  exact heq.symm

theorem EqualUnless.outcomes_eq {m m' : RuleSet} (hn : never.NeverHolds)
    (h : m.EqualUnless never m') (g : NodeGraph) (v : Fin g.size) :
    m'.outcomes g v = m.outcomes g v :=
  outcomes_eq_of_forall₂ (h.rules.imp fun _ _ hr => ⟨hr.name, hr.outcome_eq hn h.predicates g v⟩)

end RuleSet

end FocusRules
