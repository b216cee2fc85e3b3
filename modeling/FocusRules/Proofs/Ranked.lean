import FocusRules.Proofs.Unguarded
import Mathlib.Logic.Relation

/-! Evaluation where asking comes to an end within the limit. The questions that an evaluation may
come to ask form a graph, with an edge from a question to those that its definition puts. If the
questions can be ranked from 1 to 32 so that the rank falls along every edge, then neither guard
ever refuses one, and the evaluation gives the answer that there is without guards. -/

namespace FocusRules

/-- The questions about defined predicates that an item puts at a node. -/
def Item.questions (predicates : Predicates) (g : NodeGraph) (v : Fin g.size) (item : Item) :
    List Question :=
  match item.subject with
  | .property _ => []
  | .predicate name =>
    if item.Admissible ∧ (predicates.find? name).isSome then
      (item.targets g v).map fun t => ⟨name, g.id t⟩
    else []

def Condition.questions (predicates : Predicates) (g : NodeGraph) (v : Fin g.size)
    (c : Condition) : List Question :=
  c.atoms.flatMap (Item.questions predicates g v)

/-- Whether the definition that a question is about puts the other one, at a node with the id. -/
def Question.LeadsTo (predicates : Predicates) (g : NodeGraph) (q q' : Question) : Prop :=
  ∃ c u, predicates.find? q.name = some c ∧ g.id u = q.id ∧ q' ∈ c.questions predicates g u

/-- The questions that an evaluation of the condition at the node may come to. -/
def Condition.Reaches (predicates : Predicates) (g : NodeGraph) (v : Fin g.size) (c : Condition)
    (q : Question) : Prop :=
  ∃ q₀ ∈ c.questions predicates g v, Relation.ReflTransGen (Question.LeadsTo predicates g) q₀ q

/-- The questions within reach have ranks from 1 to 32 that fall along every edge. -/
structure Condition.Ranked (predicates : Predicates) (g : NodeGraph) (v : Fin g.size)
    (c : Condition) (rank : Question → ℕ) : Prop where
  pos : ∀ q, c.Reaches predicates g v q → 1 ≤ rank q
  le : ∀ q, c.Reaches predicates g v q → rank q ≤ 32
  falls : ∀ q q', c.Reaches predicates g v q → q.LeadsTo predicates g q' → rank q' < rank q

variable {predicates : Predicates} {g : NodeGraph}

theorem Item.mem_questions {v : Fin g.size} {item : Item} {name : String} {c : Condition}
    {t : Fin g.size} (hs : item.subject = .predicate name) (ha : item.Admissible)
    (hc : predicates.find? name = some c) (ht : t ∈ item.targets g v) :
    ⟨name, g.id t⟩ ∈ item.questions predicates g v := by
  rw [Item.questions, hs]
  simpa [ha, hc] using ⟨t, ht, rfl⟩

namespace Unguarded

variable {ask : String → Fin g.size → Option Bool}

theorem target_predicate {item : Item} {name : String} {t : Fin g.size}
    (hs : item.subject = .predicate name)
    (hnone : predicates.find? name = none → ask name t = none)
    (hask : ∀ c, predicates.find? name = some c → item.Admissible →
      ∃ b, ask name t = some b ∧ Unguarded predicates g (.condition c t) b) :
    Unguarded predicates g (.target item t) (item.holdsAt g ask t) := by
  rw [Item.holdsAt_predicate hs]
  by_cases ha : item.Admissible
  · cases hc : predicates.find? name with
    | none =>
      have hfalse : (item.expected?.any fun b => ask name t = some b) = false := by
        simp [hnone hc]
      exact hfalse ▸ .undefined hs hc
    | some c =>
      obtain ⟨b, hb, hu⟩ := hask c hc ha
      obtain ⟨ho | ho, e, hv⟩ := ha
      · have heq : (item.expected?.any fun b => ask name t = some b) = (b == e) := by
          have he : item.expected? = some e := Item.expected?_eq_some_iff.2 (.inl ⟨ho, hv⟩)
          cases b <;> cases e <;> simp [he, hb]
        exact heq ▸ .equal hs ho hv hc hu
      · have hne : (item.expected?.any fun b => ask name t = some b) = (b != e) := by
          have he : item.expected? = some !e :=
            Item.expected?_eq_some_iff.2 (.inr ⟨ho, by simpa using hv⟩)
          cases b <;> cases e <;> simp [he, hb]
        exact hne ▸ .unequal hs ho hv hc hu
  · have hfalse : (item.expected?.any fun b => ask name t = some b) = false := by
      rw [Item.expected?_eq_none_iff.2 ha]; rfl
    exact hfalse ▸ .inadmissible hs ha

/-- An item comes out as `ask` says, if `ask` is right about the questions that the item puts. -/
theorem item_holdsWith {v : Fin g.size} {item : Item}
    (hnone : ∀ name t, predicates.find? name = none → ask name t = none)
    (hask : ∀ name c t, predicates.find? name = some c → t ∈ item.targets g v →
      ⟨name, g.id t⟩ ∈ item.questions predicates g v →
      ∃ b, ask name t = some b ∧ Unguarded predicates g (.condition c t) b) :
    Unguarded predicates g (.item item v) (item.holdsWith g ask v) := by
  have htarget : ∀ t ∈ item.targets g v,
      Unguarded predicates g (.target item t) (item.holdsAt g ask t) := by
    intro t ht
    cases hs : item.subject with
    | property name =>
      rw [Item.holdsAt_property hs]
      cases hr : (g.node t).readNamed name with
      | none => exact .lacking hs hr
      | some value => exact .carried hs hr
    | predicate name =>
      exact target_predicate hs (hnone name t) fun c hc ha =>
        hask name c t hc ht (Item.mem_questions hs ha hc ht)
  rw [Item.holdsWith]
  rcases any_cases (item.targets g v) (item.holdsAt g ask) with ⟨heq, t, ht, hm⟩ | ⟨heq, hnone⟩
  · exact heq ▸ .someTarget ht (hm ▸ htarget t ht)
  · exact heq ▸ .targetsFail fun t ht => hnone t ht ▸ htarget t ht

end Unguarded

namespace Condition

variable {v : Fin g.size} {c : Condition}

theorem Reaches.lead {q q' : Question} (h : c.Reaches predicates g v q)
    (hl : q.LeadsTo predicates g q') : c.Reaches predicates g v q' := by
  obtain ⟨q₀, h₀, hr⟩ := h
  exact ⟨q₀, h₀, hr.tail hl⟩

/-- With a rank at most the number of questions left and below the rank of every open question, each
question is asked, and those that its definition puts have the same room. -/
theorem Ranked.unguarded {rank : Question → ℕ} (hr : c.Ranked predicates g v rank) (left : ℕ)
    (opened : List Question) (d : Condition) (u : Fin g.size)
    (h : ∀ q ∈ d.questions predicates g u, c.Reaches predicates g v q ∧ rank q ≤ left ∧
      ∀ o ∈ opened, rank q < rank o) :
    Unguarded predicates g (.condition d u)
      (d.holdsBy (Item.holdsWith g (answer predicates g left opened) u)) := by
  induction left using Nat.strong_induction_on generalizing opened d u with
  | _ left ih =>
    refine Unguarded.condition_holdsBy fun item hi => Unguarded.item_holdsWith ?_ ?_
    · exact fun name t hn => answer_of_undefined hn _ _ _
    intro name e t he _ hq
    obtain ⟨hreach, hle, hopen⟩ := h _ (List.mem_flatMap.2 ⟨item, hi, hq⟩)
    have hpos := hr.pos _ hreach
    obtain ⟨left, rfl⟩ : ∃ n, left = n + 1 := ⟨left - 1, by omega⟩
    have hfresh : (⟨name, g.id t⟩ : Question) ∉ opened := fun hm => (hopen _ hm).false
    refine ⟨_, (answer_succ ..).2 ⟨hfresh, e, he, rfl⟩, ?_⟩
    apply ih left (by omega)
    intro q' hq'
    have hlead : (⟨name, g.id t⟩ : Question).LeadsTo predicates g q' := ⟨e, t, he, rfl, hq'⟩
    have hfall := hr.falls _ _ hreach hlead
    refine ⟨hreach.lead hlead, by omega, fun o ho => ?_⟩
    rcases List.mem_cons.1 ho with rfl | ho
    · exact hfall
    · exact hfall.trans (hopen o ho)

/-- Where the questions within reach can be ranked, the guards go unnoticed: there is an answer
without guards, and it is the one that an evaluation gives. -/
theorem unguarded_iff_holds (h : ∃ rank, c.Ranked predicates g v rank) (b : Bool) :
    Unguarded predicates g (.condition c v) b ↔ c.holds predicates g v = b := by
  obtain ⟨rank, hr⟩ := h
  have hu : Unguarded predicates g (.condition c v) (c.holds predicates g v) := by
    refine hr.unguarded questionLimit [] c v fun q hq => ?_
    have hreach : c.Reaches predicates g v q := ⟨q, hq, .refl⟩
    exact ⟨hreach, hr.le q hreach, fun o ho => absurd ho List.not_mem_nil⟩
  constructor
  · exact fun hb => hu.unique hb
  · rintro rfl; exact hu

/-- It is enough to look at a list of questions that holds the first ones and the next ones of its
own. -/
theorem Ranked.of_closed {rank : Question → ℕ} (qs : List Question)
    (hfirst : ∀ q ∈ c.questions predicates g v, q ∈ qs)
    (hnext : ∀ q ∈ qs, ∀ u, g.id u = q.id →
      ∀ q' ∈ (predicates.find? q.name).elim [] (Condition.questions predicates g u),
        q' ∈ qs ∧ rank q' < rank q)
    (hrank : ∀ q ∈ qs, 1 ≤ rank q ∧ rank q ≤ 32) : c.Ranked predicates g v rank := by
  have hstep : ∀ q q', q ∈ qs → q.LeadsTo predicates g q' → q' ∈ qs ∧ rank q' < rank q := by
    rintro q q' hq ⟨d, u, hd, hu, hq'⟩
    exact hnext q hq u hu q' (by rwa [hd])
  have hmem : ∀ q, c.Reaches predicates g v q → q ∈ qs := by
    rintro q ⟨q₀, h₀, hr⟩
    induction hr with
    | refl => exact hfirst q₀ h₀
    | tail _ hl ih => exact (hstep _ _ ih hl).1
  exact ⟨fun q hq => (hrank q (hmem q hq)).1, fun q hq => (hrank q (hmem q hq)).2,
    fun q q' hq hl => (hstep q q' (hmem q hq) hl).2⟩

def belowDialog : Predicates := .ofList [
  ("below", .flat .or [⟨.property "type", .eq, .string "Dialog", .parent, false⟩,
    ⟨.predicate "below", .eq, .bool true, .parent, false⟩]),
  ("free", .single ⟨.predicate "below", .ne, .bool true, .self, false⟩)]

def dialogRowButton : NodeGraph := .ofRows #[
  { node := { id := 1, attributes := { type := some "Dialog" } }, children := [1] },
  { node := { id := 2, attributes := { type := some "Row" } }, parent := some 0, children := [2] },
  { node := { id := 3, attributes := { type := some "Button" } }, parent := some 1 }]

theorem unguarded_iff_holds_belowDialog :
    let c : Condition := .single ⟨.predicate "free", .eq, .bool false, .self, false⟩
    let v : Fin dialogRowButton.size := ⟨2, by decide⟩
    (∃ rank, c.Ranked belowDialog dialogRowButton v rank) ∧
      c.holds belowDialog dialogRowButton v = true ∧
      Unguarded belowDialog dialogRowButton (.condition c v) true := by
  intro c v
  have hr : ∃ rank, c.Ranked belowDialog dialogRowButton v rank :=
    ⟨fun q => if q.name = "free" then 4 else q.id.toNatClampNeg,
      .of_closed [⟨"free", 3⟩, ⟨"below", 3⟩, ⟨"below", 2⟩, ⟨"below", 1⟩]
        (by decide) (by decide) (by decide)⟩
  have h : c.holds belowDialog dialogRowButton v = true := by decide
  exact ⟨hr, h, (unguarded_iff_holds hr true).2 h⟩

end Condition

end FocusRules
