import FocusRules.Proofs.FirstMatch
import FocusRules.Proofs.Rounds

/-! Rule sets of one shape. Where each definition entails the one that has taken its place, a
positive answer stays positive: both evaluations have the same questions open at every stage, so
that a guard refuses a question in both or in neither. -/

namespace FocusRules

/-- The same names are defined, by related conditions. -/
def Predicates.Pointwise (R : Condition → Condition → Prop) (predicates predicates' : Predicates) :
    Prop :=
  ∀ name, Option.Rel R (predicates.find? name) (predicates'.find? name)

structure Rule.Pointwise (R : Condition → Condition → Prop) (rule rule' : Rule) : Prop where
  name : rule'.name = rule.name
  focus : rule'.isFocus = rule.isFocus
  condition : R rule.condition rule'.condition

structure RuleSet.Pointwise (R : Condition → Condition → Prop) (m m' : RuleSet) : Prop where
  types : m'.types = m.types
  predicates : m.predicates.Pointwise R m'.predicates
  rules : List.Forall₂ (Rule.Pointwise R) m.rules m'.rules

structure RuleSet.Positive (m : RuleSet) : Prop where
  rules : ∀ r ∈ m.rules, r.condition.Positive
  predicates : m.predicates.Positive

/-- Where the first condition holds the second does, also when it gets more positive answers. -/
def Condition.Entails (g : NodeGraph) (c c' : Condition) : Prop :=
  ∀ (ask ask' : String → Fin g.size → Option Bool) (v : Fin g.size),
    (∀ name t, ask name t = some true → ask' name t = some true) →
    c.holdsBy (Item.holdsWith g ask v) = true → c'.holdsBy (Item.holdsWith g ask' v) = true

/-- For a positive condition the further answers do no harm. -/
theorem Condition.Positive.entails {g : NodeGraph} {c c' : Condition} (hc : c.Positive)
    (h : ∀ ask v, c.holdsBy (Item.holdsWith g ask v) = true →
      c'.holdsBy (Item.holdsWith g ask v) = true) : c.Entails g c' := by
  intro ask ask' v hask hholds
  refine h ask' v (holdsBy_mono (fun item hi => ?_) hholds)
  exact (hc item hi).holdsWith_mono hask

namespace Predicates

variable {R S : Condition → Condition → Prop} {predicates predicates' : Predicates}

theorem Pointwise.empty : Pointwise R ∅ ∅ := fun _ => .none

theorem Pointwise.insert (h : predicates.Pointwise R predicates') {c c' : Condition} (hc : R c c')
    (name : String) :
    Pointwise R (Dictionary.insert predicates name c) (Dictionary.insert predicates' name c') := by
  intro k
  rw [Dictionary.find?_insert, Dictionary.find?_insert]
  split
  · exact .some hc
  · exact h k

theorem Pointwise.exists_of_some (h : predicates.Pointwise R predicates') {name : String}
    {c : Condition} (hc : predicates.find? name = some c) :
    ∃ c', predicates'.find? name = some c' ∧ R c c' := by
  have hname := h name
  rw [hc] at hname
  generalize predicates'.find? name = d at hname
  cases hname with
  | some hr => exact ⟨_, rfl, hr⟩

theorem Pointwise.imp (h : predicates.Pointwise R predicates')
    (hstep : ∀ name c, predicates.find? name = some c → ∀ c', R c c' → S c c') :
    predicates.Pointwise S predicates' := by
  intro name
  have hname := h name
  have hdefined := hstep name
  generalize predicates.find? name = c at hname hdefined
  generalize predicates'.find? name = c' at hname
  cases hname with
  | none => exact .none
  | some hr => exact .some (hdefined _ rfl _ hr)

end Predicates

section

variable {predicates predicates' : Predicates} {g : NodeGraph} {v : Fin g.size}
  (h : predicates.Pointwise (Condition.Entails g) predicates')

include h

/-- What is affirmed stays affirmed, whichever questions are open. -/
theorem answer_of_entails {left : ℕ} {opened : List Question} {name : String}
    (ha : answer predicates g left opened name v = some true) :
    answer predicates' g left opened name v = some true := by
  induction left generalizing opened name v with
  | zero => cases ha
  | succ left ih =>
    obtain ⟨hopen, c, hc, hholds⟩ := (answer_succ ..).1 ha
    obtain ⟨c', hc', hentails⟩ := h.exists_of_some hc
    refine (answer_succ ..).2 ⟨hopen, c', hc', ?_⟩
    exact hentails _ _ v (fun _ _ => ih) hholds

theorem Condition.Entails.holds {c c' : Condition} (hc : c.Entails g c')
    (hholds : c.holds predicates g v = true) : c'.holds predicates' g v = true :=
  hc _ _ v (fun _ _ => answer_of_entails h) hholds

end

/-- Rules go on handling the nodes that they handle. -/
theorem RuleSet.Pointwise.handles {m m' : RuleSet} {R : Condition → Condition → Prop}
    (h : m.Pointwise R m') {g : NodeGraph}
    (hrules : ∀ r ∈ m.rules, ∀ c', R r.condition c' → r.condition.Entails g c')
    (hpredicates : ∀ name c, m.predicates.find? name = some c → ∀ c', R c c' → c.Entails g c')
    {k : ℕ} {r : Rule} (hr : m.rules[k]? = some r) {v : Fin g.size}
    (hhandles : m.handles g v r = true) :
    ∃ r', m'.rules[k]? = some r' ∧ Rule.Pointwise R r r' ∧ m'.handles g v r' = true := by
  obtain ⟨hk, rfl⟩ := List.getElem?_eq_some_iff.1 hr
  have hk' : k < m'.rules.length := h.rules.length_eq ▸ hk
  have hpair : Rule.Pointwise R m.rules[k] m'.rules[k] := h.rules.get hk hk'
  refine ⟨m'.rules[k], List.getElem?_eq_getElem hk', hpair, ?_⟩
  have hentails := hrules _ (List.getElem_mem hk) _ hpair.condition
  rw [RuleSet.handles_eq] at hhandles ⊢
  exact hentails.holds (h.predicates.imp hpredicates) hhandles

end FocusRules
