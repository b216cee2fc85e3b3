import FocusRules.Proofs.Simulation
import FocusRules.Proofs.Walks
import Mathlib.Logic.Equiv.Basic

/-! Names of predicates and ids of nodes are compared and nothing else. Under other names and other
ids, one to one, the same predicates are found and the same questions refused. A predicate may have
the name of a property, for an item asks for the one or for the other. -/

namespace FocusRules

def Subject.rename (σ : String → String) : Subject → Subject
  | property name => property name
  | predicate name => predicate (σ name)

def Item.rename (σ : String → String) (item : Item) : Item :=
  { item with subject := item.subject.rename σ }

def Condition.rename (σ : String → String) : Condition → Condition := mapItems (Item.rename σ)

def Predicates.rename (σ : String → String) (predicates : Predicates) : Predicates :=
  .ofList (predicates.entries.map fun e => (σ e.1, e.2.rename σ))

def Rule.rename (σ : String → String) (rule : Rule) : Rule :=
  { rule with condition := rule.condition.rename σ }

def RuleSet.rename (σ : String → String) (m : RuleSet) : RuleSet :=
  { m with predicates := m.predicates.rename σ, rules := m.rules.map (Rule.rename σ) }

def NodeGraph.renumber (τ : NodeId → NodeId) (g : NodeGraph) : NodeGraph :=
  { g with node := fun v => { g.node v with id := τ (g.node v).id } }

def Question.rename (σ : String → String) (τ : NodeId → NodeId) (q : Question) : Question :=
  ⟨σ q.name, τ q.id⟩

variable {σ : String → String} {τ : NodeId → NodeId}

theorem Question.rename_injective (hσ : Function.Injective σ) (hτ : Function.Injective τ) :
    Function.Injective (rename σ τ) := by
  rintro ⟨name, id⟩ ⟨name', id'⟩ h
  obtain ⟨hname, hid⟩ := mk.inj h
  exact congrArg₂ mk (hσ hname) (hτ hid)

theorem Predicates.find?_rename (hσ : Function.Injective σ) (predicates : Predicates)
    (name : String) : (predicates.rename σ).find? (σ name) =
      (predicates.find? name).map (Condition.rename σ) := by
  have hfind := Dictionary.find?_ofList_map hσ (Condition.rename σ) predicates.entries name
  rw [Dictionary.ofList_entries] at hfind
  exact hfind

theorem NodeGraph.read_renumber (g : NodeGraph) (v : Fin g.size) (p : Property) :
    ((g.renumber τ).node v).read p = (g.node v).read p := by
  cases p <;> rfl

theorem Item.targets_renumber (item : Item) (g : NodeGraph) (v : Fin g.size) :
    item.targets (g.renumber τ) v = item.targets g v := by
  cases htarget : item.target with
  | self => exact (targets_self htarget).trans (targets_self htarget).symm
  | parent => exact (targets_parent htarget).trans (@targets_parent g v item htarget).symm
  | children => exact (targets_children htarget).trans (@targets_children g v item htarget).symm

/-- The second item is the first, but that it asks for a predicate by the new name. -/
def Item.RenamedTo (σ : String → String) : Item → Item → Prop :=
  Item.Counterpart (fun name name' => σ name = name') fun _ => True

theorem Item.renamedTo_rename (item : Item) : item.RenamedTo σ (item.rename σ) := by
  refine ⟨trivial, ?_, rfl, rfl, rfl, rfl⟩
  rw [rename]
  cases item.subject with
  | property name => exact .property name
  | predicate name => exact .predicate rfl

theorem Condition.renamedTo_rename (c : Condition) :
    c.Pointwise (Item.RenamedTo σ) (c.rename σ) :=
  .mapItems fun item _ => item.renamedTo_rename

theorem Rule.renamedTo_rename (r : Rule) :
    r.Pointwise (Condition.Pointwise (Item.RenamedTo σ)) (r.rename σ) :=
  ⟨rfl, rfl, r.condition.renamedTo_rename⟩

def Simulation.renaming (hσ : Function.Injective σ) (hτ : Function.Injective τ)
    (predicates : Predicates) (g : NodeGraph) :
    Simulation predicates (predicates.rename σ) g (g.renumber τ) where
  names name name' := σ name = name'
  looks _ := True
  places := fun v v' => v = v'
  rename := Question.rename σ τ
  injective := Question.rename_injective hσ hτ
  question := by
    rintro name _ v _ rfl rfl
    rfl
  read := by
    rintro v _ rfl p
    exact g.read_renumber v p
  targets := by
    rintro v _ rfl item -
    exact List.forall₂_eq_eq_eq ▸ (item.targets_renumber g v).symm
  definition := by
    rintro name _ rfl
    rw [predicates.find?_rename hσ]
    cases predicates.find? name with
    | none => exact .none
    | some c => exact .some c.renamedTo_rename

namespace RuleSet

/-- Names of predicates and ids of nodes matter up to equality only. When they are replaced by
others, one to one, the verdicts stay the same, with the names of the rules in them, and so does
what each single rule and each condition says, and which questions are refused. -/
theorem renaming_changes_nothing (hσ : Function.Injective σ) (hτ : Function.Injective τ)
    (m : RuleSet) (g : NodeGraph) (v : Fin g.size) :
    (m.rename σ).evaluate (g.renumber τ) v = m.evaluate g v ∧
    (∀ r : Rule, (r.rename σ).outcome (m.rename σ).predicates (g.renumber τ) v =
      r.outcome m.predicates g v) ∧
    (∀ c : Condition, (c.rename σ).holds (m.rename σ).predicates (g.renumber τ) v =
      c.holds m.predicates g v) ∧
    ∀ left opened name, answer (m.rename σ).predicates (g.renumber τ) left
      (opened.map (Question.rename σ τ)) (σ name) v = answer m.predicates g left opened name v := by
  let s := Simulation.renaming hσ hτ m.predicates g
  have hv : s.places v v := rfl
  have hrules : List.Forall₂ (Rule.Pointwise (Condition.Pointwise s.items)) m.rules
      (m.rules.map (Rule.rename σ)) :=
    List.forall₂_map_right_iff.2 (List.forall₂_same.2 fun r _ => r.renamedTo_rename)
  refine ⟨evaluate_eq_of_simulation s hrules hv, ?_, ?_, ?_⟩
  · exact fun r => s.outcome_eq r.renamedTo_rename hv
  · exact fun c => s.holds_eq c.renamedTo_rename hv
  · exact fun left opened name => s.answer_eq left opened rfl hv

/-- What is below a dialog and not in a circle of its own. -/
def belowAndStill : RuleSet where
  predicates := .ofList [
    ("odd", .single ⟨.predicate "odd", .ne, .bool true, .self, false⟩),
    ("below", .flat .or [⟨.property "type", .eq, .string "Dialog", .parent, false⟩,
      ⟨.predicate "below", .eq, .bool true, .parent, false⟩])]
  rules := [⟨"odd", .single ⟨.predicate "odd", .eq, .bool true, .self, false⟩, false⟩,
    ⟨"below", .combined .and [.single ⟨.predicate "below", .eq, .bool true, .self, false⟩,
      .single ⟨.predicate "odd", .eq, .bool false, .children, true⟩], true⟩]

def labelledRow : NodeGraph := .ofRows #[
  { node := { id := 7, attributes := { type := some "Dialog" } }, children := [1] },
  { node := { id := 1, attributes := { type := some "Row" } }, parent := some 0, children := [2] },
  { node := { id := 7, attributes := { type := some "Label" } }, parent := some 1 }]

/-- A predicate gets the name of the property that it asks for. -/
theorem renaming_changes_nothing_type :
    let σ : String → String := Equiv.swap "below" "type"
    let τ : NodeId → NodeId := Equiv.swap 7 (-1)
    let v : Fin labelledRow.size := ⟨1, by decide⟩
    Function.Injective σ ∧ Function.Injective τ ∧ σ "below" = "type" ∧
      belowAndStill.evaluate labelledRow v = some ⟨"below", true⟩ ∧
      (belowAndStill.rename σ).evaluate (labelledRow.renumber τ) v = some ⟨"below", true⟩ := by
  intro σ τ v
  have hσ : Function.Injective σ := Equiv.injective _
  have hτ : Function.Injective τ := Equiv.injective _
  have hbelow : belowAndStill.evaluate labelledRow v = some ⟨"below", true⟩ := by decide
  obtain ⟨hsame, -, -, -⟩ := renaming_changes_nothing hσ hτ belowAndStill labelledRow v
  exact ⟨hσ, hτ, Equiv.swap_apply_left _ _, hbelow, hsame.trans hbelow⟩

end RuleSet

end FocusRules
