import FocusRules.Proofs.Simulation

/-! The definitions that count. A condition mentions predicates, their definitions mention further
ones, and these are all that an evaluation asks for. Whatever else is defined, and in which order,
makes no difference. -/

namespace FocusRules

namespace Condition

def mentioned (c : Condition) : List String :=
  (c.atoms.filter (·.subject.isPredicate)).map (·.subject.name)

theorem mem_mentioned {c : Condition} {item : Item} {name : String} (hi : item ∈ c.atoms)
    (hs : item.subject = .predicate name) : name ∈ c.mentioned := by
  have hpredicate : item.subject.isPredicate = true := by rw [hs]; rfl
  have hname : item.subject.name = name := by rw [hs]; rfl
  exact List.mem_map.2 ⟨item, List.mem_filter.2 ⟨hi, hpredicate⟩, hname⟩

/-- The condition mentions the predicate, or mentions one whose definition refers to it. -/
inductive Refers (predicates : Predicates) : Condition → String → Prop
  | mention {c : Condition} {name : String} : name ∈ c.mentioned → Refers predicates c name
  | through {c d : Condition} {name name' : String} : name ∈ c.mentioned →
      predicates.find? name = some d → Refers predicates d name' → Refers predicates c name'

variable {predicates : Predicates} {c d : Condition} {name name' : String}

/-- What is referred to is referred to with all that its definition mentions. -/
theorem Refers.of_mentioned (h : c.Refers predicates name) (hd : predicates.find? name = some d)
    (hname : name' ∈ d.mentioned) : c.Refers predicates name' := by
  induction h with
  | mention hmem => exact .through hmem hd (.mention hname)
  | through hmem hfind _ ih => exact .through hmem hfind (ih hd)

/-- Names that mention no others are all that is referred to. -/
theorem Refers.mem_of_closed {names : List String} (hc : ∀ n ∈ c.mentioned, n ∈ names)
    (hclosed : ∀ e ∈ predicates.entries, e.1 ∈ names → ∀ n ∈ e.2.mentioned, n ∈ names)
    (h : c.Refers predicates name) : name ∈ names := by
  induction h with
  | mention hmem => exact hc _ hmem
  | @through c d n _ hmem hfind _ ih =>
    exact ih (hclosed (n, d) (Dictionary.find?_eq_some_iff.1 hfind) (hc n hmem))

end Condition

def RuleSet.Refers (m : RuleSet) (name : String) : Prop :=
  ∃ r ∈ m.rules, r.condition.Refers m.predicates name

/-- Evaluations with predicates that agree on the names that the condition refers to. -/
def Simulation.referred {predicates predicates' : Predicates} {c : Condition}
    (h : ∀ name, c.Refers predicates name → predicates'.find? name = predicates.find? name)
    (g : NodeGraph) : Simulation predicates predicates' g g where
  names name name' := name = name' ∧ c.Refers predicates name
  looks _ := True
  places := fun v v' => v = v'
  rename := id
  injective := Function.injective_id
  question := by
    rintro name _ v _ ⟨rfl, -⟩ rfl
    rfl
  read := by
    rintro v _ rfl p
    rfl
  targets := by
    rintro v _ rfl item -
    exact List.forall₂_same.2 fun _ _ => rfl
  definition := by
    rintro name _ ⟨rfl, hname⟩
    rw [h name hname]
    refine Predicates.rel_self fun d hd item hi => .refl trivial fun name' hs => ?_
    exact ⟨rfl, hname.of_mentioned hd (Condition.mem_mentioned hi hs)⟩

theorem Condition.holds_eq_of_refers {predicates predicates' : Predicates} {c : Condition}
    (h : ∀ name, c.Refers predicates name → predicates'.find? name = predicates.find? name)
    (g : NodeGraph) (v : Fin g.size) : c.holds predicates' g v = c.holds predicates g v := by
  let s := Simulation.referred h g
  have hself : c.Pointwise s.items c := by
    refine .refl fun item hi => .refl trivial fun name hs => ?_
    exact ⟨rfl, .mention (mem_mentioned hi hs)⟩
  exact s.holds_eq hself rfl

theorem RuleSet.evaluate_eq_of_refers {m m' : RuleSet} (hrules : m'.rules = m.rules)
    (h : ∀ name, m.Refers name → m'.predicates.find? name = m.predicates.find? name)
    (g : NodeGraph) (v : Fin g.size) : m'.evaluate g v = m.evaluate g v := by
  have hsame : ∀ r ∈ m.rules,
      r.condition.holds m'.predicates g v = r.condition.holds m.predicates g v :=
    fun r hr => Condition.holds_eq_of_refers (fun name hname => h name ⟨r, hr, hname⟩) g v
  apply evaluate_eq_of_outcomes
  apply outcomes_eq_of_forall₂
  rw [hrules]
  refine List.forall₂_same.2 fun r hr => ⟨rfl, ?_⟩
  rw [Rule.outcome, Rule.outcome, hsame r hr]

namespace Predicates

/-- Only definitions that are referred to count. Whatever else is defined, a condition holds at the
same nodes and a rule set gives the same verdicts, and of the definitions that were entered under a
name only the last one counts. -/
theorem only_referenced_count (g : NodeGraph) (v : Fin g.size) :
    (∀ (predicates predicates' : Predicates) (c : Condition),
      (∀ name, c.Refers predicates name → predicates'.find? name = predicates.find? name) →
      c.holds predicates' g v = c.holds predicates g v) ∧
    (∀ m m' : RuleSet, m'.rules = m.rules →
      (∀ name, m.Refers name → m'.predicates.find? name = m.predicates.find? name) →
      m'.evaluate g v = m.evaluate g v) ∧
    ∀ (entries entries' : List (String × Condition)) (c : Condition),
      (∀ name, c.Refers (.ofList entries) name →
        Dictionary.valueAt name entries'.reverse = Dictionary.valueAt name entries.reverse) →
      c.holds (.ofList entries') g v = c.holds (.ofList entries) g v := by
  refine ⟨fun predicates predicates' c h => c.holds_eq_of_refers h g v, ?_, ?_⟩
  · exact fun m m' hrules h => RuleSet.evaluate_eq_of_refers hrules h g v
  · intro entries entries' c h
    refine c.holds_eq_of_refers (fun name hname => ?_) g v
    rw [Dictionary.find?_ofList_eq_valueAt, Dictionary.find?_ofList_eq_valueAt, h name hname]

def inAndUnder : List (String × Condition) := [
  ("in", .placeholder),
  ("under", .single ⟨.predicate "in", .eq, .bool true, .parent, false⟩),
  ("in", .flat .or [⟨.property "type", .eq, .string "Dialog", .self, false⟩,
    ⟨.predicate "under", .ne, .bool false, .self, false⟩])]

/-- The same two in another order, next to one that is broken and one that asks for its negation. -/
def amongOthers : List (String × Condition) := [
  ("odd", .single ⟨.predicate "odd", .ne, .bool true, .self, false⟩),
  ("in", .flat .or [⟨.property "type", .eq, .string "Dialog", .self, false⟩,
    ⟨.predicate "under", .ne, .bool false, .self, false⟩]),
  ("broken", .placeholder),
  ("under", .single ⟨.predicate "in", .eq, .bool true, .parent, false⟩)]

def dialogAndButton : NodeGraph := .ofRows #[
  { node := { id := 1, attributes := { type := some "Dialog" } }, children := [1] },
  { node := { id := 2, attributes := { type := some "Button" } }, parent := some 0 }]

theorem only_referenced_count_amongOthers :
    let v : Fin dialogAndButton.size := ⟨1, by decide⟩
    let c : Condition := .single ⟨.predicate "under", .eq, .bool true, .self, false⟩
    let m : RuleSet := { predicates := .ofList inAndUnder, rules := [⟨"under", c, true⟩] }
    let m' : RuleSet := { predicates := .ofList amongOthers, rules := [⟨"under", c, true⟩] }
    (∀ name, c.Refers m.predicates name → Dictionary.valueAt name amongOthers.reverse =
      Dictionary.valueAt name inAndUnder.reverse) ∧
    (∀ name, m.Refers name → m'.predicates.find? name = m.predicates.find? name) ∧
    c.holds m.predicates dialogAndButton v = true ∧
    c.holds m'.predicates dialogAndButton v = true ∧
    m.evaluate dialogAndButton v = some ⟨"under", true⟩ ∧
    m'.evaluate dialogAndButton v = some ⟨"under", true⟩ := by
  intro v c m m'
  obtain ⟨-, hverdict, hlast⟩ := only_referenced_count dialogAndButton v
  have hlisted : ∀ name ∈ ["in", "under"], Dictionary.valueAt name amongOthers.reverse =
      Dictionary.valueAt name inAndUnder.reverse :=
    List.forall_mem_cons.2 ⟨rfl, List.forall_mem_singleton.2 rfl⟩
  have hentered : ∀ name, c.Refers m.predicates name → Dictionary.valueAt name amongOthers.reverse =
      Dictionary.valueAt name inAndUnder.reverse :=
    fun name h => hlisted name (h.mem_of_closed (by decide) (by decide))
  have hfound : ∀ name, c.Refers m.predicates name →
      m'.predicates.find? name = m.predicates.find? name := by
    intro name h
    rw [Dictionary.find?_ofList_eq_valueAt, Dictionary.find?_ofList_eq_valueAt, hentered name h]
  have hrules : ∀ name, m.Refers name → m'.predicates.find? name = m.predicates.find? name := by
    rintro name ⟨r, hr, h⟩
    obtain rfl := List.mem_singleton.1 hr
    exact hfound name h
  have hunder : c.holds m.predicates dialogAndButton v = true := by decide
  have hreadable : m.evaluate dialogAndButton v = some ⟨"under", true⟩ := by decide
  have hunder' := (hlast inAndUnder amongOthers c hentered).trans hunder
  have hreadable' := (hverdict m m' rfl hrules).trans hreadable
  exact ⟨hentered, hrules, hunder, hunder', hreadable, hreadable'⟩

end Predicates

end FocusRules
