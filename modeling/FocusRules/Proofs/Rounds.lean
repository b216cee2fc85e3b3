import FocusRules.Proofs.Truth
import Mathlib.Data.Fintype.EquivFin
import Mathlib.Order.Bounds.Defs
import Mathlib.Order.Iterate

/-! Predicates that may ask for each other define facts, round by round: a round adds the facts that
definitions give when they are read through the facts so far. For positive conditions an evaluation
answers what follows in 32 rounds. The limit on open questions is the number of rounds. The refusal
to ask a question again costs nothing where ids tell nodes apart, for a fact that is new in some
round follows from earlier facts only, and so not from itself. -/

namespace FocusRules

abbrev Fact (g : NodeGraph) := String × Fin g.size

/-- Whether an item is true, where a predicate holds at the nodes that the facts say. -/
def Item.MeetsBy (g : NodeGraph) (facts : Set (Fact g)) (v : Fin g.size) (item : Item) : Prop :=
  ∃ t ∈ item.targets g v,
    match item.subject with
    | .property name =>
      ∃ value, (g.node t).readNamed name = some value ∧
        value.compare item.operator item.value = true
    | .predicate name => item.Affirms ∧ (name, t) ∈ facts

namespace Predicates

/-- The facts that the definitions give, read through the facts so far. -/
def round (predicates : Predicates) (g : NodeGraph) (facts : Set (Fact g)) : Set (Fact g) :=
  {f | ∃ c, predicates.find? f.1 = some c ∧ c.Meets (Item.MeetsBy g facts f.2)}

end Predicates

/-- The answer to a question where only the number of open questions is limited. -/
def limitedAnswer (predicates : Predicates) (g : NodeGraph) :
    Nat → String → Fin g.size → Option Bool
  | 0, _, _ => none
  | left + 1, name, v =>
    (predicates.find? name).map
      (Condition.holdsBy (Item.holdsWith g (limitedAnswer predicates g left) v))

variable {predicates : Predicates} {g : NodeGraph}

/-- An item is true by a property that a node carries, or by a fact. -/
theorem Item.meetsBy_iff {facts : Set (Fact g)} {v : Fin g.size} {item : Item} :
    item.MeetsBy g facts v ↔ ∃ t ∈ item.targets g v,
      (∃ name value, item.subject = .property name ∧ (g.node t).readNamed name = some value ∧
        value.compare item.operator item.value = true) ∨
      ∃ name, item.subject = .predicate name ∧ item.Affirms ∧ (name, t) ∈ facts := by
  unfold MeetsBy
  refine exists_congr fun t => and_congr_right fun _ => ?_
  cases item.subject with
  | property name => simp
  | predicate name => simp

theorem Item.MeetsBy.mono {facts facts' : Set (Fact g)} (h : facts ⊆ facts') {v : Fin g.size}
    {item : Item} (hi : item.MeetsBy g facts v) : item.MeetsBy g facts' v := by
  rw [meetsBy_iff] at hi ⊢
  obtain ⟨t, ht, hproperty | ⟨name, hs, ha, hf⟩⟩ := hi
  · exact ⟨t, ht, .inl hproperty⟩
  · exact ⟨t, ht, .inr ⟨name, hs, ha, h hf⟩⟩

/-- Facts that are answered make an item true. -/
theorem Item.holdsWith_of_meetsBy {facts : Set (Fact g)} {ask : String → Fin g.size → Option Bool}
    (h : ∀ f ∈ facts, ask f.1 f.2 = some true) {v : Fin g.size} {item : Item}
    (hi : item.MeetsBy g facts v) : item.holdsWith g ask v = true := by
  rw [holdsWith, List.any_eq_true]
  obtain ⟨t, ht, ⟨name, value, hs, hread, hcompare⟩ | ⟨name, hs, ha, hf⟩⟩ := meetsBy_iff.1 hi
  · refine ⟨t, ht, ?_⟩
    rw [holdsAt_property hs, Option.any_eq_true]
    exact ⟨value, hread, hcompare⟩
  · refine ⟨t, ht, ?_⟩
    rw [holdsAt_predicate hs]
    simp [affirms_iff.1 ha, h _ hf]

/-- A positive item is true only by facts, if the positive answers are facts. -/
theorem Item.Positive.meetsBy {facts : Set (Fact g)} {ask : String → Fin g.size → Option Bool}
    {item : Item} (hp : item.Positive) (h : ∀ name t, ask name t = some true → (name, t) ∈ facts)
    {v : Fin g.size} (hi : item.holdsWith g ask v = true) : item.MeetsBy g facts v := by
  rw [Item.holdsWith, List.any_eq_true] at hi
  obtain ⟨t, ht, hm⟩ := hi
  refine Item.meetsBy_iff.2 ⟨t, ht, ?_⟩
  cases hs : item.subject with
  | property name =>
    rw [Item.holdsAt_property hs, Option.any_eq_true] at hm
    obtain ⟨value, hread, hcompare⟩ := hm
    exact .inl ⟨name, value, rfl, hread, hcompare⟩
  | predicate name =>
    obtain ⟨b, hb, hask⟩ : ∃ b, item.expected? = some b ∧ ask name t = some b := by
      simpa [Item.holdsAt_predicate hs, Option.any_eq_true] using hm
    have ha := hp.affirms hs (Item.admissible_iff.2 ⟨b, hb⟩)
    obtain rfl : b = true := by simpa [Item.affirms_iff.1 ha] using hb.symm
    exact .inr ⟨name, rfl, ha, h name t hask⟩

/-- A positive item stays true when there are more positive answers. -/
theorem Item.Positive.holdsWith_mono {ask ask' : String → Fin g.size → Option Bool} {item : Item}
    (hp : item.Positive) (h : ∀ name t, ask name t = some true → ask' name t = some true)
    {v : Fin g.size} (hi : item.holdsWith g ask v = true) : item.holdsWith g ask' v = true := by
  let facts : Set (Fact g) := {f | ask f.1 f.2 = some true}
  have hm : item.MeetsBy g facts v := hp.meetsBy (fun _ _ hf => hf) hi
  exact Item.holdsWith_of_meetsBy (fun f hf => h f.1 f.2 hf) hm

namespace Predicates

theorem round_subset {facts facts' : Set (Fact g)} (h : facts ⊆ facts') :
    predicates.round g facts ⊆ predicates.round g facts' := by
  intro f hf
  obtain ⟨c, hc, hm⟩ := hf
  exact ⟨c, hc, hm.mono fun _ _ hi => hi.mono h⟩

theorem mem_iterate_succ {k : ℕ} {f : Fact g} :
    f ∈ (predicates.round g)^[k + 1] ∅ ↔ ∃ c, predicates.find? f.1 = some c ∧
      c.Meets (Item.MeetsBy g ((predicates.round g)^[k] ∅) f.2) := by
  rw [Function.iterate_succ_apply']; rfl

theorem iterate_subset_succ (k : ℕ) :
    (predicates.round g)^[k] ∅ ⊆ (predicates.round g)^[k + 1] ∅ := by
  have hmono : Monotone (predicates.round g) := fun _ _ => round_subset
  exact hmono.monotone_iterate_of_le_map (Set.empty_subset _) k.le_succ

/-- Once a round adds nothing, the facts are the least that a round keeps. -/
theorem isLeast_iterate {k : ℕ}
    (h : (predicates.round g)^[k + 1] ∅ = (predicates.round g)^[k] ∅) :
    IsLeast {facts | predicates.round g facts = facts} ((predicates.round g)^[k] ∅) := by
  have hmono : Monotone (predicates.round g) := fun _ _ => round_subset
  refine ⟨by rwa [Function.iterate_succ_apply'] at h, fun facts hf => ?_⟩
  calc (predicates.round g)^[k] ∅
    _ ⊆ (predicates.round g)^[k] facts := hmono.iterate k (Set.empty_subset facts)
    _ = facts := Function.iterate_fixed hf k

end Predicates

/-- A positive answer is a fact of as many rounds as there were questions left. -/
theorem fact_of_answer (hP : predicates.Positive) {left : ℕ} {opened : List Question}
    {name : String} {v : Fin g.size} (h : answer predicates g left opened name v = some true) :
    (name, v) ∈ (predicates.round g)^[left] ∅ := by
  induction left generalizing opened name v with
  | zero => cases h
  | succ left ih =>
    obtain ⟨-, c, hc, hm⟩ := (answer_succ ..).1 h
    refine Predicates.mem_iterate_succ.2 ⟨c, hc, ((Condition.holdsBy_iff _ _).1 hm).mono ?_⟩
    exact fun item hi => (hP name c hc item hi).meetsBy fun _ _ => ih

/-- A fact of some round is answered if no open question was a fact by then. -/
theorem answer_of_fact (hid : Function.Injective g.id) {k left : ℕ} (hk : k ≤ left)
    {opened : List Question} {name : String} {v : Fin g.size}
    (hopen : ∀ f ∈ (predicates.round g)^[k] ∅, (⟨f.1, g.id f.2⟩ : Question) ∉ opened)
    (h : (name, v) ∈ (predicates.round g)^[k] ∅) :
    answer predicates g left opened name v = some true := by
  induction k generalizing left opened name v with
  | zero => cases h
  | succ k ih =>
    by_cases hold : (name, v) ∈ (predicates.round g)^[k] ∅
    · exact ih (by omega) (fun f hf => hopen f (Predicates.iterate_subset_succ k hf)) hold
    -- the fact is new in this round, so what it follows from are other facts
    obtain ⟨left, rfl⟩ : ∃ n, left = n + 1 := ⟨left - 1, by omega⟩
    obtain ⟨c, hc, hm⟩ := Predicates.mem_iterate_succ.1 h
    refine (answer_succ ..).2 ⟨hopen _ h, c, hc, (Condition.holdsBy_iff _ _).2 (hm.mono ?_)⟩
    refine fun item _ => Item.holdsWith_of_meetsBy fun f hf => ih (by omega) ?_ hf
    intro f' hf' hmem
    rcases List.mem_cons.1 hmem with heq | hmem
    · obtain ⟨hn, hv⟩ := Question.mk.inj heq
      exact hold (hn ▸ hid hv ▸ hf')
    · exact hopen f' (Predicates.iterate_subset_succ k hf') hmem

/-- Without the refusal to ask again the answers are the facts, whatever the ids. -/
theorem limitedAnswer_iff (hP : predicates.Positive) {left : ℕ} {name : String} {v : Fin g.size} :
    limitedAnswer predicates g left name v = some true ↔
      (name, v) ∈ (predicates.round g)^[left] ∅ := by
  induction left generalizing name v with
  | zero => simp [limitedAnswer]
  | succ left ih =>
    rw [Predicates.mem_iterate_succ, limitedAnswer, Option.map_eq_some_iff]
    refine exists_congr fun c => and_congr_right fun hc => ?_
    rw [Condition.holdsBy_iff]
    constructor
    · exact Condition.Meets.mono fun item hi => (hP name c hc item hi).meetsBy fun _ _ => ih.1
    · exact Condition.Meets.mono fun item _ => Item.holdsWith_of_meetsBy fun _ => ih.2

namespace Condition

variable {c : Condition} {v : Fin g.size}

theorem meets_rounds_of_holds (hP : predicates.Positive) (hc : c.Positive)
    (h : c.holds predicates g v = true) :
    c.Meets (Item.MeetsBy g ((predicates.round g)^[32] ∅) v) := by
  refine ((holdsBy_iff _ _).1 h).mono fun item hi => (hc item hi).meetsBy ?_
  exact fun name t => fact_of_answer hP

theorem holds_of_meets_rounds (hid : Function.Injective g.id)
    (h : c.Meets (Item.MeetsBy g ((predicates.round g)^[32] ∅) v)) :
    c.holds predicates g v = true := by
  refine (holdsBy_iff _ _).2 (h.mono fun item _ => Item.holdsWith_of_meetsBy fun f hf => ?_)
  exact answer_of_fact hid le_rfl (fun _ _ => List.not_mem_nil) hf

theorem meets_rounds_iff_limited (hP : predicates.Positive) (hc : c.Positive) :
    c.Meets (Item.MeetsBy g ((predicates.round g)^[32] ∅) v) ↔
      c.holdsBy (Item.holdsWith g (limitedAnswer predicates g 32) v) = true := by
  rw [holdsBy_iff]
  constructor
  · exact Meets.mono fun item _ => Item.holdsWith_of_meetsBy fun _ => (limitedAnswer_iff hP).2
  · exact Meets.mono fun item hi => (hc item hi).meetsBy fun _ _ => (limitedAnswer_iff hP).1

/-- A positive condition holds only if it follows from the facts of 32 rounds. Where ids tell nodes
apart it holds if it does, and the refusal to ask a question again changes no answer. -/
theorem holds_iff_meets_rounds (hP : predicates.Positive) (hc : c.Positive) (v : Fin g.size) :
    (c.holds predicates g v = true →
      c.Meets (Item.MeetsBy g ((predicates.round g)^[32] ∅) v)) ∧
    (Function.Injective g.id →
      (c.holds predicates g v = true ↔
        c.Meets (Item.MeetsBy g ((predicates.round g)^[32] ∅) v)) ∧
      c.holds predicates g v =
        c.holdsBy (Item.holdsWith g (limitedAnswer predicates g 32) v)) := by
  refine ⟨meets_rounds_of_holds hP hc, fun hid => ?_⟩
  have hiff : c.holds predicates g v = true ↔
      c.Meets (Item.MeetsBy g ((predicates.round g)^[32] ∅) v) :=
    ⟨meets_rounds_of_holds hP hc, holds_of_meets_rounds hid⟩
  exact ⟨hiff, Bool.eq_iff_iff.2 (hiff.trans (meets_rounds_iff_limited hP hc))⟩

/-- Two predicates that ask for each other, one of them true of images on its own account. -/
def pingPong : Predicates := .ofList [
  ("ping", .flat .or [⟨.predicate "pong", .eq, .bool true, .self, false⟩,
    ⟨.predicate "pong", .ne, .bool false, .parent, true⟩]),
  ("pong", .flat .or [⟨.predicate "ping", .eq, .bool true, .self, false⟩,
    ⟨.property "type", .eq, .string "Image", .self, false⟩])]

def imageAndButton : NodeGraph := .ofRows #[
  { node := { id := 1, attributes := { type := some "Image" } }, children := [1] },
  { node := { id := 2, attributes := { type := some "Button" } }, parent := some 0 }]

theorem holds_iff_meets_rounds_pingPong :
    let c : Condition := .single ⟨.predicate "ping", .eq, .bool true, .self, false⟩
    let v : Fin imageAndButton.size := ⟨1, by decide⟩
    pingPong.Positive ∧ c.Positive ∧ Function.Injective imageAndButton.id ∧
      c.holds pingPong imageAndButton v = true ∧
      c.Meets (Item.MeetsBy imageAndButton ((pingPong.round imageAndButton)^[32] ∅) v) := by
  intro c v
  have hP : pingPong.Positive := by decide
  have hc : c.Positive := by decide
  have hid : Function.Injective imageAndButton.id := by decide
  have h : c.holds pingPong imageAndButton v = true := by decide
  exact ⟨hP, hc, hid, h, ((holds_iff_meets_rounds hP hc v).2 hid).1.1 h⟩

end Condition

end FocusRules
