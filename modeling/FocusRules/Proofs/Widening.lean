import FocusRules.Proofs.Entailment
import FocusRules.Proofs.Shape
import FocusRules.Proofs.Walks

/-! Cascade only widens. With cascade an item looks at all nodes that it looks at without, so it is
true wherever it was. In a positive rule set the same goes for the rules, through all predicates
that they ask for, which may cascade more as well. -/

namespace FocusRules

namespace Item

variable {g : NodeGraph} {v : Fin g.size} {item item' : Item}

def cascading (item : Item) : Item := { item with cascade := true }

theorem targets_subset_cascading (item : Item) (g : NodeGraph) (v : Fin g.size) :
    item.targets g v ⊆ item.cascading.targets g v := by
  cases htarget : item.target with
  | self =>
    have hwide : item.cascading.target = .self := htarget
    rw [targets_self htarget, targets_self hwide]
    exact List.Subset.refl _
  | parent =>
    have hwide : item.cascading.target = .parent := htarget
    rw [targets_parent htarget, targets_parent hwide]
    exact NodeGraph.subset_walk item.cascade
  | children =>
    have hwide : item.cascading.target = .children := htarget
    rw [targets_children htarget, targets_children hwide]
    exact NodeGraph.subset_walk item.cascade

/-- Whatever answers for the predicates. -/
theorem holdsWith_cascading {ask : String → Fin g.size → Option Bool}
    (h : item.holdsWith g ask v = true) : item.cascading.holdsWith g ask v = true := by
  obtain ⟨t, ht, hat⟩ := List.any_eq_true.1 h
  exact List.any_eq_true.2 ⟨t, item.targets_subset_cascading g v ht, hat⟩

inductive WidenedTo : Item → Item → Prop
  | same (item : Item) : WidenedTo item item
  | cascading (item : Item) : WidenedTo item item.cascading

theorem WidenedTo.holdsWith {ask : String → Fin g.size → Option Bool} (hi : item.WidenedTo item')
    (h : item.holdsWith g ask v = true) : item'.holdsWith g ask v = true := by
  cases hi with
  | same => exact h
  | cascading => exact holdsWith_cascading h

end Item

theorem Condition.entails_of_widened {g : NodeGraph} {c c' : Condition}
    (h : c.Pointwise Item.WidenedTo c') (hc : c.Positive) : c.Entails g c' := by
  refine hc.entails fun ask v hholds => ?_
  rw [holdsBy_iff] at hholds ⊢
  exact h.meets (fun _ _ _ hitem hholds => hitem.holdsWith hholds) hholds

namespace RuleSet

/-- An item that is true stays true when it is made to cascade. In a positive rule set any items of
the rules and of the predicates may be made to cascade, and the rule at each place of the list
handles all nodes that it did before. -/
theorem cascade_only_widens (g : NodeGraph) (v : Fin g.size) :
    (∀ (item : Item) (predicates : Predicates), item.holds predicates g v = true →
      item.cascading.holds predicates g v = true) ∧
    ∀ m m' : RuleSet, m.Positive → m.Pointwise (Condition.Pointwise Item.WidenedTo) m' →
      ∀ (k : ℕ) (r : Rule), m.rules[k]? = some r → m.handles g v r = true →
        ∃ r', m'.rules[k]? = some r' ∧ r'.name = r.name ∧ r'.isFocus = r.isFocus ∧
          m'.handles g v r' = true := by
  refine ⟨fun item predicates => Item.holdsWith_cascading, fun m m' hm h k r hr hhandles => ?_⟩
  have hrules : ∀ r ∈ m.rules, ∀ c', r.condition.Pointwise Item.WidenedTo c' →
      r.condition.Entails g c' := fun r hr _ hc => Condition.entails_of_widened hc (hm.rules r hr)
  have hpredicates : ∀ name c, m.predicates.find? name = some c →
      ∀ c', c.Pointwise Item.WidenedTo c' → c.Entails g c' :=
    fun name c hc _ hwiden => Condition.entails_of_widened hwiden (hm.predicates name c hc)
  obtain ⟨r', hr', hpair, hmatch⟩ := h.handles hrules hpredicates hr hhandles
  exact ⟨r', hr', hpair.name, hpair.focus, hmatch⟩

/-- What is in a row and below a dialog, asked from parent to parent. -/
def belowNarrow : RuleSet where
  predicates := .insert ∅ "below" (.flat .or [
    ⟨.property "type", .eq, .string "Dialog", .parent, false⟩,
    ⟨.predicate "below", .eq, .bool true, .parent, false⟩])
  rules := [⟨"below", .combined .and [
    .single ⟨.predicate "below", .ne, .bool false, .self, false⟩,
    .flat .or [⟨.property "type", .eq, .string "Row", .parent, false⟩]], true⟩]

/-- The same with some of the items made to cascade. -/
def belowWide : RuleSet where
  predicates := .insert ∅ "below" (.flat .or [
    ⟨.property "type", .eq, .string "Dialog", .parent, false⟩,
    ⟨.predicate "below", .eq, .bool true, .parent, true⟩])
  rules := [⟨"below", .combined .and [
    .single ⟨.predicate "below", .ne, .bool false, .self, false⟩,
    .flat .or [⟨.property "type", .eq, .string "Row", .parent, true⟩]], true⟩]

def cellInDialog : NodeGraph := .ofRows #[
  { node := { id := 7, attributes := { type := some "Dialog" } }, children := [1] },
  { node := { id := 7, attributes := { type := some "Cell" } }, parent := some 0, children := [2] },
  { node := { id := 1, attributes := { type := some "Row" } }, parent := some 1, children := [3] },
  { node := { id := 2, attributes := { type := some "Button" } }, parent := some 2 }]

theorem cascade_only_widens_cellInDialog :
    let v : Fin cellInDialog.size := ⟨3, by decide⟩
    let odd : Predicates :=
      .insert ∅ "odd" (.single ⟨.predicate "odd", .ne, .bool true, .self, false⟩)
    let item : Item := ⟨.predicate "odd", .ne, .bool true, .parent, false⟩
    (item.holds odd cellInDialog v = true ∧ item.cascading.holds odd cellInDialog v = true) ∧
    ∃ r r', belowNarrow.Positive ∧
      belowNarrow.Pointwise (Condition.Pointwise Item.WidenedTo) belowWide ∧
      belowNarrow.rules[0]? = some r ∧ belowNarrow.handles cellInDialog v r = true ∧
      belowWide.rules[0]? = some r' ∧ belowWide.handles cellInDialog v r' = true := by
  intro v odd item
  obtain ⟨hitem, hrules⟩ := cascade_only_widens cellInDialog v
  have hodd : item.holds odd cellInDialog v = true := by decide
  refine ⟨⟨hodd, hitem item odd hodd⟩, ?_⟩
  have hpos : belowNarrow.Positive := ⟨by decide, by decide⟩
  have hwiden : belowNarrow.Pointwise (Condition.Pointwise Item.WidenedTo) belowWide := by
    refine ⟨rfl, Predicates.Pointwise.empty.insert ?_ "below", .cons ⟨rfl, rfl, ?_⟩ .nil⟩
    · exact .flat (.cons (.same _) (.cons (.cascading _) .nil))
    · refine .of_forall₂ (.cons (.refl fun _ _ => .same _) (.cons ?_ .nil))
      exact .flat (.cons (.cascading _) .nil)
  obtain ⟨r, hr, hhandles⟩ : ∃ r, belowNarrow.rules[0]? = some r ∧
      belowNarrow.handles cellInDialog v r = true := ⟨_, rfl, by decide⟩
  obtain ⟨r', hr', -, -, hhandles'⟩ := hrules belowNarrow belowWide hpos hwiden 0 r hr hhandles
  exact ⟨r, r', hpos, hwiden, hr, hhandles, hr', hhandles'⟩

end RuleSet

end FocusRules
