import FocusRules.Proofs.Entailment

/-! Placeholders fail closed. A placeholder stands for a condition that could not be read and is
never true, so a rule set with placeholders handles less than it would with conditions in their
place, whatever these are, as long as its own items want no predicate to be false. -/

namespace FocusRules

namespace Condition

/-- The second condition is the first with any conditions in the place of some placeholders. -/
inductive FilledBy : Condition → Condition → Prop
  | placeholder (c : Condition) : FilledBy placeholder c
  | flat (mode : Mode) (items : List Item) : FilledBy (flat mode items) (flat mode items)
  | combined {mode : Mode} {parts : List (Condition × Condition)} :
      (∀ p ∈ parts, FilledBy p.1 p.2) →
      FilledBy (combined mode (parts.map Prod.fst)) (combined mode (parts.map Prod.snd))

theorem FilledBy.of_forall₂ {mode : Mode} {parts parts' : List Condition}
    (h : List.Forall₂ FilledBy parts parts') :
    FilledBy (.combined mode parts) (.combined mode parts') := by
  obtain ⟨pairs, rfl, rfl, hpairs⟩ := exists_pairs_of_forall₂ h
  exact .combined hpairs

/-- No placeholder has to be filled. -/
theorem FilledBy.refl (c : Condition) : c.FilledBy c := by
  induction c with
  | flat mode items => exact .flat mode items
  | combined mode parts ih => exact .of_forall₂ (List.forall₂_same.2 ih)

theorem not_meets_placeholder {truth : Item → Prop} : ¬placeholder.Meets truth := by
  intro h
  unfold placeholder at h
  cases h

/-- What holds with placeholders holds with conditions in their place. -/
theorem FilledBy.meets {truth : Item → Prop} {c c' : Condition} (h : c.FilledBy c')
    (hc : c.Meets truth) : c'.Meets truth := by
  induction h with
  | placeholder => exact absurd hc not_meets_placeholder
  | flat => exact hc
  | @combined mode parts _ ih =>
    cases hc with
    | allParts hall =>
      refine .allParts fun d hd => ?_
      obtain ⟨p, hp, rfl⟩ := List.mem_map.1 hd
      exact ih p hp (hall p.1 (List.mem_map_of_mem hp))
    | somePart hd hholds =>
      obtain ⟨p, hp, rfl⟩ := List.mem_map.1 hd
      exact .somePart (List.mem_map_of_mem hp) (ih p hp hholds)

theorem FilledBy.entails {g : NodeGraph} {c c' : Condition} (h : c.FilledBy c')
    (hc : c.Positive) : c.Entails g c' := by
  refine hc.entails fun ask v hholds => ?_
  rw [holdsBy_iff] at hholds ⊢
  exact h.meets hholds

end Condition

namespace RuleSet

/-- In a positive rule set placeholders only keep rules from handling a node: whatever conditions
take their place, the rule at each place of the list handles all nodes that it did before. -/
theorem handles_of_filledBy {m m' : RuleSet} (hm : m.Positive)
    (h : m.Pointwise Condition.FilledBy m') {k : ℕ} {r : Rule} (hr : m.rules[k]? = some r)
    (g : NodeGraph) (v : Fin g.size) (hhandles : m.handles g v r = true) :
    ∃ r', m'.rules[k]? = some r' ∧ r'.name = r.name ∧ r'.isFocus = r.isFocus ∧
      m'.handles g v r' = true := by
  have hrules : ∀ r ∈ m.rules, ∀ c', r.condition.FilledBy c' → r.condition.Entails g c' :=
    fun r hr _ hc => hc.entails (hm.rules r hr)
  have hpredicates : ∀ name c, m.predicates.find? name = some c →
      ∀ c', c.FilledBy c' → c.Entails g c' :=
    fun name c hc _ hfill => hfill.entails (hm.predicates name c hc)
  obtain ⟨r', hr', hpair, hmatch⟩ := h.handles hrules hpredicates hr hhandles
  exact ⟨r', hr', hpair.name, hpair.focus, hmatch⟩

/-- Whether a node is below a dialog, asked upwards, with a part missing in the definition. -/
def belowWithGap : RuleSet where
  predicates := .insert ∅ "below" (.combined .or [.placeholder,
    .flat .or [⟨.property "type", .eq, .string "Dialog", .parent, false⟩,
      ⟨.predicate "below", .eq, .bool true, .parent, false⟩]])
  rules := [⟨"lost", .placeholder, false⟩,
    ⟨"below", .combined .or [.placeholder,
      .single ⟨.predicate "below", .ne, .bool false, .self, false⟩], true⟩]

/-- The gaps filled, with questions that want a predicate to be false and that lead in a circle. -/
def belowWithoutGap : RuleSet where
  predicates := .insert ∅ "below" (.combined .or [
    .single ⟨.predicate "below", .ne, .bool true, .self, false⟩,
    .flat .or [⟨.property "type", .eq, .string "Dialog", .parent, false⟩,
      ⟨.predicate "below", .eq, .bool true, .parent, false⟩]])
  rules := [⟨"lost", .combined .and [], false⟩,
    ⟨"below", .combined .or [.single ⟨.predicate "below", .eq, .bool false, .children, true⟩,
      .single ⟨.predicate "below", .ne, .bool false, .self, false⟩], true⟩]

def sharedId : NodeGraph := .ofRows #[
  { node := { id := 7, attributes := { type := some "Dialog" } }, children := [1] },
  { node := { id := 1, attributes := { type := some "Row" } }, parent := some 0, children := [2] },
  { node := { id := 7, attributes := { type := some "Button" } }, parent := some 1 }]

theorem handles_of_filledBy_belowDialog :
    let v : Fin sharedId.size := ⟨2, by decide⟩
    ∃ r r', belowWithGap.Positive ∧ belowWithGap.Pointwise Condition.FilledBy belowWithoutGap ∧
      belowWithGap.rules[1]? = some r ∧ belowWithGap.handles sharedId v r = true ∧
      belowWithoutGap.rules[1]? = some r' ∧ belowWithoutGap.handles sharedId v r' = true := by
  intro v
  have hpos : belowWithGap.Positive := ⟨by decide, by decide⟩
  have hfill : belowWithGap.Pointwise Condition.FilledBy belowWithoutGap := by
    refine ⟨rfl, Predicates.Pointwise.empty.insert ?_ "below", ?_⟩
    · exact .of_forall₂ (.cons (.placeholder _) (.cons (.refl _) .nil))
    · have hlost : Rule.Pointwise Condition.FilledBy ⟨"lost", .placeholder, false⟩
          ⟨"lost", .combined .and [], false⟩ := ⟨rfl, rfl, .placeholder _⟩
      refine .cons hlost (.cons ⟨rfl, rfl, ?_⟩ .nil)
      exact .of_forall₂ (.cons (.placeholder _) (.cons (.refl _) .nil))
  obtain ⟨r, hr, hhandles⟩ : ∃ r, belowWithGap.rules[1]? = some r ∧
      belowWithGap.handles sharedId v r = true := ⟨_, rfl, by decide⟩
  obtain ⟨r', hr', -, -, hhandles'⟩ := handles_of_filledBy hpos hfill hr sharedId v hhandles
  exact ⟨r, r', hpos, hfill, hr, hhandles, hr', hhandles'⟩

end RuleSet

end FocusRules
