import FocusRules.Proofs.Evidence
import FocusRules.Proofs.Simulation
import FocusRules.Proofs.Walks

/-! What an evaluation can see. Where all items look at the node itself or upwards, nothing counts
but the node and its ancestors, and where all look at the node itself or downwards, nothing but the
node and its descendants: a predicate is asked about nodes in sight only, and what is in sight from
there was in sight before. -/

namespace FocusRules

structure Node.Agrees (n n' : Node) : Prop where
  id : n'.id = n.id
  read : ∀ p, n'.read p = n.read p

theorem Property.mem_all (p : Property) : p ∈ Property.all := by cases p <;> decide

theorem Node.agrees_iff {n n' : Node} :
    n.Agrees n' ↔ n'.id = n.id ∧ ∀ p ∈ Property.all, n'.read p = n.read p :=
  ⟨fun h => ⟨h.id, fun p _ => h.read p⟩, fun h => ⟨h.1, fun p => h.2 p p.mem_all⟩⟩

instance (n n' : Node) : Decidable (n.Agrees n') := decidable_of_iff' _ Node.agrees_iff

namespace NodeGraph

/-- The nodes agree, and so do, one by one, those that the links lead to, up to where the links
end. -/
inductive SameAlong (g g' : NodeGraph) (next : Fin g.size → List (Fin g.size))
    (next' : Fin g'.size → List (Fin g'.size)) : Fin g.size → Fin g'.size → Prop
  | intro {v : Fin g.size} {v' : Fin g'.size} {pairs : List (Fin g.size × Fin g'.size)} :
      (g.node v).Agrees (g'.node v') → next v = pairs.map Prod.fst →
      next' v' = pairs.map Prod.snd → (∀ p ∈ pairs, SameAlong g g' next next' p.1 p.2) →
      SameAlong g g' next next' v v'

/-- The ways from the nodes up to a root agree. -/
def SameAbove (g g' : NodeGraph) : Fin g.size → Fin g'.size → Prop :=
  SameAlong g g' g.parents g'.parents

/-- The subtrees of the nodes agree. -/
def SameBelow (g g' : NodeGraph) : Fin g.size → Fin g'.size → Prop :=
  SameAlong g g' g.children g'.children

variable {g g' : NodeGraph} {v : Fin g.size} {v' : Fin g'.size}

namespace SameAlong

variable {next : Fin g.size → List (Fin g.size)} {next' : Fin g'.size → List (Fin g'.size)}

theorem of_forall₂ (h : (g.node v).Agrees (g'.node v'))
    (hnext : List.Forall₂ (SameAlong g g' next next') (next v) (next' v')) :
    SameAlong g g' next next' v v' := by
  obtain ⟨pairs, heq, heq', hpairs⟩ := exists_pairs_of_forall₂ hnext
  exact .intro h heq heq' hpairs

theorem agrees (h : SameAlong g g' next next' v v') : (g.node v).Agrees (g'.node v') := by
  obtain ⟨hagrees, -, -, -⟩ := h
  exact hagrees

theorem forall₂_next (h : SameAlong g g' next next' v v') :
    List.Forall₂ (SameAlong g g' next next') (next v) (next' v') := by
  obtain ⟨-, hnext, hnext', hpairs⟩ := h
  rw [hnext, hnext']
  exact forall₂_of_pairs hpairs

theorem ends (h : SameAlong g g' next next' v v') : Ends next v ∧ Ends next' v' := by
  induction h with
  | @intro v v' pairs _ hnext hnext' _ ih =>
    constructor
    · refine .intro v fun c hc => ?_
      rw [hnext] at hc
      obtain ⟨p, hp, rfl⟩ := List.mem_map.1 hc
      exact (ih p hp).1
    · refine .intro v' fun c hc => ?_
      rw [hnext'] at hc
      obtain ⟨p, hp, rfl⟩ := List.mem_map.1 hc
      exact (ih p hp).2

/-- All that lies on the way agrees. -/
theorem forall₂_walk (h : SameAlong g g' next next' v v') :
    List.Forall₂ (SameAlong g g' next next') (walk next g.size v) (walk next' g'.size v') := by
  induction h with
  | @intro v v' pairs hagrees hnext hnext' hpairs ih =>
    have hsame : SameAlong g g' next next' v v' := .intro hagrees hnext hnext' hpairs
    obtain ⟨hends, hends'⟩ := hsame.ends
    have hbeyond : List.Forall₂ (fun c c' => List.Forall₂ (SameAlong g g' next next')
        (walk next g.size c) (walk next' g'.size c')) (next v) (next' v') := by
      rw [hnext, hnext']
      exact forall₂_of_pairs ih
    -- both ways end, so neither walk is cut short before it has gone beyond each next node
    rw [walk_all fun c hc => hends.inv hc, walk_all fun c hc => hends'.inv hc]
    exact List.rel_append hsame.forall₂_next (List.rel_flatMap hbeyond fun _ _ hc => hc)

theorem forall₂_targets (h : SameAlong g g' next next' v v') (cascade : Bool) :
    List.Forall₂ (SameAlong g g' next next')
      (if cascade then walk next g.size v else next v)
      (if cascade then walk next' g'.size v' else next' v') := by
  cases cascade with
  | true => exact h.forall₂_walk
  | false => exact h.forall₂_next

end SameAlong

/-- Chains up to a root agree if they do so position by position. -/
theorem SameAbove.of_chain (h : Ends g.parents v) (h' : Ends g'.parents v')
    (hchain : List.Forall₂ (fun u u' => (g.node u).Agrees (g'.node u')) (g.chain v) (g'.chain v')) :
    g.SameAbove g' v v' := by
  -- up along the first chain, to its root
  induction h generalizing v' with
  | intro v hv ih =>
    rw [chain_eq (.intro v hv), chain_eq h'] at hchain
    obtain _ | ⟨hagrees, hrest⟩ := hchain
    refine SameAlong.of_forall₂ hagrees ?_
    cases hp : g.parent v with
    | none =>
      cases hp' : g'.parent v' with
      | none =>
        rw [parents_of_none hp, parents_of_none hp']
        exact .nil
      | some p' =>
        rw [parents_of_none hp, parents_of_some hp', List.flatMap_singleton] at hrest
        cases hrest
    | some p =>
      cases hp' : g'.parent v' with
      | none =>
        rw [parents_of_some hp, parents_of_none hp', List.flatMap_singleton] at hrest
        cases hrest
      | some p' =>
        rw [parents_of_some hp, parents_of_some hp'] at hrest ⊢
        rw [List.flatMap_singleton, List.flatMap_singleton] at hrest
        exact .cons (ih p (mem_parents.2 hp) (h'.inv (mem_parents.2 hp')) hrest) .nil

end NodeGraph

/-- Nodes of two graphs that agree, and where items may look from there: at nodes that agree
again. -/
structure Sight (g g' : NodeGraph) where
  looks : Target → Prop
  same : Fin g.size → Fin g'.size → Prop
  agrees {v : Fin g.size} {v' : Fin g'.size} : same v v' → (g.node v).Agrees (g'.node v')
  targets {v : Fin g.size} {v' : Fin g'.size} : same v v' → ∀ item : Item, looks item.target →
    List.Forall₂ same (item.targets g v) (item.targets g' v')

namespace Sight

open NodeGraph

variable {g g' : NodeGraph}

def up (g g' : NodeGraph) : Sight g g' where
  looks t := t = .self ∨ t = .parent
  same := g.SameAbove g'
  agrees := SameAlong.agrees
  targets := by
    intro v v' h item hi
    rcases hi with hi | hi
    · rw [Item.targets_self hi, Item.targets_self hi]
      exact .cons h .nil
    · rw [Item.targets_parent hi, Item.targets_parent hi]
      exact h.forall₂_targets item.cascade

def down (g g' : NodeGraph) : Sight g g' where
  looks t := t = .self ∨ t = .children
  same := g.SameBelow g'
  agrees := SameAlong.agrees
  targets := by
    intro v v' h item hi
    rcases hi with hi | hi
    · rw [Item.targets_self hi, Item.targets_self hi]
      exact .cons h .nil
    · rw [Item.targets_children hi, Item.targets_children hi]
      exact h.forall₂_targets item.cascade

def simulation (s : Sight g g') {predicates : Predicates}
    (h : ∀ name c, predicates.find? name = some c → ∀ item ∈ c.atoms, s.looks item.target) :
    Simulation predicates predicates g g' where
  names := (· = ·)
  looks := s.looks
  places := s.same
  rename := id
  injective := Function.injective_id
  question := by
    rintro name _ v v' rfl hv
    exact congrArg (Question.mk name) (s.agrees hv).id.symm
  read hv := (s.agrees hv).read
  targets := s.targets
  definition := by
    rintro name _ rfl
    exact Predicates.rel_self fun c hc item hi => .refl (h name c hc item hi) fun _ _ => rfl

theorem evaluate_eq (s : Sight g g') {m : RuleSet}
    (hm : ∀ item, m.HasItem item → s.looks item.target) {v : Fin g.size} {v' : Fin g'.size}
    (hv : s.same v v') : m.evaluate g v = m.evaluate g' v' := by
  have hpredicates : ∀ name c, m.predicates.find? name = some c →
      ∀ item ∈ c.atoms, s.looks item.target :=
    fun name c hc item hi => hm item (.inr ⟨name, c, hc, hi⟩)
  have hrules : ∀ r ∈ m.rules, ∀ item ∈ r.condition.atoms, s.looks item.target :=
    fun r hr item hi => hm item (.inl ⟨r, hr, hi⟩)
  have hself : List.Forall₂ (Rule.Pointwise (Condition.Pointwise (s.simulation hpredicates).items))
      m.rules m.rules :=
    Rule.forall₂_self fun r hr item hi => .refl (hrules r hr item hi) fun _ _ => rfl
  exact (RuleSet.evaluate_eq_of_simulation _ hself hv).symm

end Sight

namespace RuleSet

open NodeGraph

/-- If no item looks at children, the verdict depends on the chain from the node up to its root
only, and if no item looks at the parent, on the subtree of the node only. All else may differ. -/
theorem evaluate_sees_targets (m : RuleSet) (g g' : NodeGraph) (v : Fin g.size)
    (v' : Fin g'.size) :
    ((∀ item, m.HasItem item → item.target = .self ∨ item.target = .parent) →
      Ends g.parents v → Ends g'.parents v' →
      List.Forall₂ (fun u u' => (g.node u).Agrees (g'.node u')) (g.chain v) (g'.chain v') →
      m.evaluate g v = m.evaluate g' v') ∧
    ((∀ item, m.HasItem item → item.target = .self ∨ item.target = .children) →
      g.SameBelow g' v v' → m.evaluate g v = m.evaluate g' v') := by
  constructor
  · intro hm hends hends' hchain
    have hsame : g.SameAbove g' v v' := .of_chain hends hends' hchain
    exact (Sight.up g g').evaluate_eq hm hsame
  · intro hm hsame
    exact (Sight.down g g').evaluate_eq hm hsame

def rowInDialog : NodeGraph := .ofRows #[
  { node := { id := 1, attributes := { type := some "Dialog" } }, children := [1] },
  { node := { id := 2, attributes := { type := some "Row" } }, parent := some 0, children := [2] },
  { node := { id := 3, attributes := { type := some "Button" } }, parent := some 1 }]

def crowded : NodeGraph := .ofRows #[
  { node := { id := 9, attributes := { type := some "Window" } }, children := [1] },
  { node := { id := 2, attributes := { type := some "Row" } }, parent := some 0, children := [2] },
  { node := { id := 3, attributes := { type := some "Button" } }, parent := some 1 },
  { node := { id := 1, attributes := { type := some "Dialog" }, modal := false },
    children := [4] },
  { node := { id := 2, attributes := { type := some "Row" } }, parent := some 3,
    children := [6, 5] },
  { node := { id := 3, attributes := { type := some "Button" } }, parent := some 4,
    children := [6] },
  { node := { id := 8, attributes := { type := some "Label" } }, parent := some 5 }]

/-- A predicate that asks for its own negation, and one that asks itself about the parent. -/
def lookingUp : RuleSet where
  predicates := .ofList [
    ("odd", .single ⟨.predicate "odd", .ne, .bool true, .self, false⟩),
    ("below", .flat .or [⟨.property "type", .eq, .string "Dialog", .parent, false⟩,
      ⟨.predicate "below", .eq, .bool true, .parent, false⟩])]
  rules := [⟨"odd", .single ⟨.predicate "odd", .eq, .bool true, .parent, true⟩, false⟩,
    ⟨"below", .flat .and [⟨.predicate "below", .eq, .bool true, .self, false⟩,
      ⟨.predicate "odd", .eq, .bool false, .parent, true⟩], true⟩]

def lookingDown : RuleSet where
  predicates := .ofList [
    ("odd", .single ⟨.predicate "odd", .ne, .bool true, .self, false⟩),
    ("above", .flat .or [⟨.property "type", .eq, .string "Button", .children, false⟩,
      ⟨.predicate "above", .eq, .bool true, .children, false⟩])]
  rules := [⟨"odd", .single ⟨.predicate "odd", .eq, .bool true, .children, true⟩, false⟩,
    ⟨"above", .flat .and [⟨.predicate "above", .eq, .bool true, .self, false⟩,
      ⟨.predicate "odd", .eq, .bool false, .children, true⟩], true⟩]

theorem evaluate_sees_targets_crowded :
    let row : Fin rowInDialog.size := ⟨1, by decide⟩
    let button : Fin rowInDialog.size := ⟨2, by decide⟩
    let rowInWindow : Fin crowded.size := ⟨1, by decide⟩
    let buttonInDialog : Fin crowded.size := ⟨5, by decide⟩
    (∀ item, lookingUp.HasItem item → item.target = .self ∨ item.target = .parent) ∧
    Ends rowInDialog.parents button ∧ Ends crowded.parents buttonInDialog ∧
    List.Forall₂ (fun u u' => (rowInDialog.node u).Agrees (crowded.node u'))
      (rowInDialog.chain button) (crowded.chain buttonInDialog) ∧
    lookingUp.evaluate rowInDialog button = some ⟨"below", true⟩ ∧
    lookingUp.evaluate crowded buttonInDialog = some ⟨"below", true⟩ ∧
    (∀ item, lookingDown.HasItem item → item.target = .self ∨ item.target = .children) ∧
    rowInDialog.SameBelow crowded row rowInWindow ∧
    lookingDown.evaluate rowInDialog row = some ⟨"above", true⟩ ∧
    lookingDown.evaluate crowded rowInWindow = some ⟨"above", true⟩ := by
  intro row button rowInWindow buttonInDialog
  have hup : ∀ item, lookingUp.HasItem item → item.target = .self ∨ item.target = .parent :=
    forall_hasItem.2 (by decide)
  have hends : Ends rowInDialog.parents button := ends_of_lt (by decide) button
  have hends' : Ends crowded.parents buttonInDialog := ends_of_lt (by decide) buttonInDialog
  have hchain : List.Forall₂ (fun u u' => (rowInDialog.node u).Agrees (crowded.node u'))
      (rowInDialog.chain button) (crowded.chain buttonInDialog) := by decide
  have hbelow : lookingUp.evaluate rowInDialog button = some ⟨"below", true⟩ := by decide
  have hdown : ∀ item, lookingDown.HasItem item → item.target = .self ∨ item.target = .children :=
    forall_hasItem.2 (by decide)
  have hbuttons : rowInDialog.SameBelow crowded button ⟨2, by decide⟩ :=
    .of_forall₂ (by decide) .nil
  have hrows : rowInDialog.SameBelow crowded row rowInWindow :=
    .of_forall₂ (by decide) (.cons hbuttons .nil)
  have habove : lookingDown.evaluate rowInDialog row = some ⟨"above", true⟩ := by decide
  obtain ⟨hsees, -⟩ := evaluate_sees_targets lookingUp rowInDialog crowded button buttonInDialog
  obtain ⟨-, hsees'⟩ := evaluate_sees_targets lookingDown rowInDialog crowded row rowInWindow
  have hbelow' := (hsees hup hends hends' hchain).symm.trans hbelow
  have habove' := (hsees' hdown hrows).symm.trans habove
  exact ⟨hup, hends, hends', hchain, hbelow, hbelow', hdown, hrows, habove, habove'⟩

end RuleSet

end FocusRules
