import FocusRules.Proofs.Entailment
import FocusRules.Proofs.Shape

/-! Two evaluations that go the same way, by rule sets and in graphs that may differ. What the one
asks for and where it looks corresponds to what the other asks for and where it looks. The questions
of the one are those of the other under other names, one to one, so the guards refuse a question in
both or in neither, and all outcomes are the same. -/

namespace FocusRules

inductive Subject.Counterpart (names : String → String → Prop) : Subject → Subject → Prop
  | property (name : String) : Counterpart names (property name) (property name)
  | predicate {name name' : String} : names name name' →
      Counterpart names (predicate name) (predicate name')

/-- The items agree but for the names of predicates, and look for their nodes in a way that is
allowed. -/
structure Item.Counterpart (names : String → String → Prop) (looks : Target → Prop)
    (item item' : Item) : Prop where
  looks : looks item.target
  subject : item.subject.Counterpart names item'.subject
  operator : item'.operator = item.operator
  value : item'.value = item.value
  target : item'.target = item.target
  cascade : item'.cascade = item.cascade

theorem Node.readNamed_congr {n n' : Node} (h : ∀ p, n'.read p = n.read p) (name : String) :
    n'.readNamed name = n.readNamed name := by
  rw [readNamed, readNamed, funext h]

namespace Item.Counterpart

variable {names : String → String → Prop} {looks : Target → Prop} {item item' : Item}

theorem refl (hlooks : looks item.target)
    (hname : ∀ name, item.subject = .predicate name → names name name) :
    item.Counterpart names looks item := by
  refine ⟨hlooks, ?_, rfl, rfl, rfl, rfl⟩
  cases hs : item.subject with
  | property name => exact .property name
  | predicate name => exact .predicate (hname name hs)

theorem targets_eq (h : item.Counterpart names looks item') (g : NodeGraph) (v : Fin g.size) :
    item'.targets g v = item.targets g v := by
  rw [targets, targets, h.target, h.cascade]

theorem expected?_eq (h : item.Counterpart names looks item') :
    item'.expected? = item.expected? := by
  rw [expected?, expected?, h.operator, h.value]

/-- The items want the same of nodes that carry the same, if they get the same answers. -/
theorem holdsAt_eq (h : item.Counterpart names looks item') {g g' : NodeGraph} {t : Fin g.size}
    {t' : Fin g'.size} {ask : String → Fin g.size → Option Bool}
    {ask' : String → Fin g'.size → Option Bool}
    (hread : ∀ p, (g'.node t').read p = (g.node t).read p)
    (hask : ∀ name name', names name name' → ask' name' t' = ask name t) :
    item'.holdsAt g' ask' t' = item.holdsAt g ask t := by
  have hsubject := h.subject
  generalize hs : item.subject = s at hsubject
  generalize hs' : item'.subject = s' at hsubject
  cases hsubject with
  | property name =>
    rw [holdsAt_property hs, holdsAt_property hs', Node.readNamed_congr hread, h.operator, h.value]
  | predicate hname =>
    rw [holdsAt_predicate hs, holdsAt_predicate hs', h.expected?_eq, hask _ _ hname]

end Item.Counterpart

theorem any_eq_of_forall₂ {α β : Type} {R : α → β → Prop} {p : α → Bool} {q : β → Bool}
    {l : List α} {m : List β} (h : List.Forall₂ R l m) (hpq : ∀ a b, R a b → q b = p a) :
    m.any q = l.any p := by
  induction h with
  | nil => rfl
  | cons hr _ ih => rw [List.any_cons, List.any_cons, hpq _ _ hr, ih]

/-- A definition corresponds to itself, if its items do. -/
theorem Predicates.rel_self {predicates : Predicates} {R : Item → Item → Prop} {name : String}
    (h : ∀ c, predicates.find? name = some c → ∀ item ∈ c.atoms, R item item) :
    Option.Rel (Condition.Pointwise R) (predicates.find? name) (predicates.find? name) := by
  generalize predicates.find? name = d at h
  cases d with
  | none => exact .none
  | some c => exact .some (.refl (h c rfl))

/-- So does a list of rules. -/
theorem Rule.forall₂_self {rules : List Rule} {R : Item → Item → Prop}
    (h : ∀ r ∈ rules, ∀ item ∈ r.condition.atoms, R item item) :
    List.Forall₂ (Rule.Pointwise (Condition.Pointwise R)) rules rules :=
  List.forall₂_same.2 fun r hr => ⟨rfl, rfl, .refl (h r hr)⟩

/-- How evaluations with the one set of predicates in the one graph go like those with the other in
the other: which names and which places correspond, where items may look, and what a question of
the one is called in the other. -/
structure Simulation (predicates predicates' : Predicates) (g g' : NodeGraph) where
  names : String → String → Prop
  looks : Target → Prop
  places : Fin g.size → Fin g'.size → Prop
  rename : Question → Question
  injective : Function.Injective rename
  question {name name' : String} {v : Fin g.size} {v' : Fin g'.size} :
    names name name' → places v v' → rename ⟨name, g.id v⟩ = ⟨name', g'.id v'⟩
  read {v : Fin g.size} {v' : Fin g'.size} :
    places v v' → ∀ p, (g'.node v').read p = (g.node v).read p
  targets {v : Fin g.size} {v' : Fin g'.size} : places v v' → ∀ item : Item, looks item.target →
    List.Forall₂ places (item.targets g v) (item.targets g' v')
  definition {name name' : String} : names name name' →
    Option.Rel (Condition.Pointwise (Item.Counterpart names looks))
      (predicates.find? name) (predicates'.find? name')

namespace Simulation

variable {predicates predicates' : Predicates} {g g' : NodeGraph}
  (s : Simulation predicates predicates' g g')

def items : Item → Item → Prop := Item.Counterpart s.names s.looks

variable {s} {v : Fin g.size} {v' : Fin g'.size} {c c' : Condition}

theorem holdsBy_eq (hc : c.Pointwise s.items c') (hv : s.places v v')
    {ask : String → Fin g.size → Option Bool} {ask' : String → Fin g'.size → Option Bool}
    (hask : ∀ name name' t t', s.names name name' → s.places t t' → ask' name' t' = ask name t) :
    c'.holdsBy (Item.holdsWith g' ask' v') = c.holdsBy (Item.holdsWith g ask v) := by
  refine hc.holdsBy_eq fun item item' hitem => ?_
  rw [Item.holdsWith, Item.holdsWith, hitem.targets_eq]
  refine any_eq_of_forall₂ (s.targets hv item hitem.looks) fun t t' ht => ?_
  exact hitem.holdsAt_eq (s.read ht) fun name name' hname => hask name name' t t' hname ht

/-- Whichever questions are open and however many are allowed, the answers are the same. -/
theorem answer_eq (left : ℕ) (opened : List Question) {name name' : String}
    (hname : s.names name name') (hv : s.places v v') :
    answer predicates' g' left (opened.map s.rename) name' v' =
      answer predicates g left opened name v := by
  induction left generalizing opened name name' v v' with
  | zero => rfl
  | succ left ih =>
    have hquestion := s.question hname hv
    -- the names are one to one, so the question is open in both or in neither
    have hopen : ⟨name', g'.id v'⟩ ∈ opened.map s.rename ↔ ⟨name, g.id v⟩ ∈ opened := by
      rw [← hquestion, List.mem_map_of_injective s.injective]
    have hcons : ⟨name', g'.id v'⟩ :: opened.map s.rename =
        (⟨name, g.id v⟩ :: opened).map s.rename := by
      rw [List.map_cons, hquestion]
    rw [answer, answer, if_congr hopen rfl rfl, hcons]
    split
    · rfl
    · have hdefined := s.definition hname
      generalize predicates.find? name = d at hdefined
      generalize predicates'.find? name' = d' at hdefined
      cases hdefined with
      | none => rfl
      | some hd =>
        rw [Option.map_some, Option.map_some]
        exact congrArg some (holdsBy_eq hd hv fun _ _ _ _ hn ht => ih _ hn ht)

/-- Corresponding conditions hold at corresponding nodes. -/
theorem holds_eq (hc : c.Pointwise s.items c') (hv : s.places v v') :
    c'.holds predicates' g' v' = c.holds predicates g v :=
  holdsBy_eq hc hv fun _ _ _ _ hname ht => answer_eq questionLimit [] hname ht

theorem outcome_eq {r r' : Rule} (hr : r.Pointwise (Condition.Pointwise s.items) r')
    (hv : s.places v v') : r'.outcome predicates' g' v' = r.outcome predicates g v := by
  rw [Rule.outcome, Rule.outcome, holds_eq hr.condition hv, hr.focus]

end Simulation

/-- Corresponding rules give the same verdict. -/
theorem RuleSet.evaluate_eq_of_simulation {m m' : RuleSet} {g g' : NodeGraph} {v : Fin g.size}
    {v' : Fin g'.size} (s : Simulation m.predicates m'.predicates g g')
    (h : List.Forall₂ (Rule.Pointwise (Condition.Pointwise s.items)) m.rules m'.rules)
    (hv : s.places v v') : m'.evaluate g' v' = m.evaluate g v := by
  apply evaluate_eq_of_outcomes
  exact outcomes_eq_of_forall₂ (h.imp fun _ _ hr => ⟨hr.name, s.outcome_eq hr hv⟩)

end FocusRules
