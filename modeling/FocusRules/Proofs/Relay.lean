import FocusRules.Proofs.Indirection
import Mathlib.Algebra.Ring.Parity
import Mathlib.Logic.Function.Iterate

/-! Chains of predicates, each defined by one item on the next. An item that wants a predicate to be
false turns the answer around, so the chain's outcome is that of its end, turned around once by each
such link. Beyond 32 links the last question is not asked. The item that would ask it is false
whatever it wants, and the links before it turn that around in the same way. -/

namespace FocusRules

namespace Item

def Denies (item : Item) : Prop :=
  (item.operator = .eq ∧ item.value = .bool false) ∨ (item.operator = .ne ∧ item.value = .bool true)

instance (item : Item) : Decidable item.Denies := inferInstanceAs (Decidable (_ ∨ _))

theorem denies_iff {item : Item} : item.Denies ↔ item.expected? = some false := by
  rw [expected?_eq_some_iff]; rfl

structure IsLink (item : Item) : Prop where
  subject : item.subject = .predicate item.subject.name
  target : item.target = .self
  polarity : item.Affirms ∨ item.Denies

namespace IsLink

variable {g : NodeGraph} {v : Fin g.size} {item : Item} {ask : String → Fin g.size → Option Bool}

theorem holdsWith_eq (h : item.IsLink) : item.holdsWith g ask v =
    item.expected?.any fun b => ask item.subject.name v = some b := by
  rw [Item.holdsWith, targets, h.target, List.any_cons, List.any_nil, Bool.or_false,
    holdsAt_predicate h.subject]

theorem holdsWith_of_none (h : item.IsLink) (ha : ask item.subject.name v = none) :
    item.holdsWith g ask v = false := by
  rw [h.holdsWith_eq, ha]
  cases item.expected? <;> rfl

/-- A link hands an answer on or turns it around. -/
theorem holdsWith_of_some (h : item.IsLink) {b : Bool} (ha : ask item.subject.name v = some b) :
    item.holdsWith g ask v = if item.Denies then !b else b := by
  rw [h.holdsWith_eq, ha]
  rcases h.polarity with haffirms | hdenies
  · have hexpected := affirms_iff.1 haffirms
    have hnot : ¬item.Denies := by simp [denies_iff, hexpected]
    rw [if_neg hnot, hexpected]
    cases b <;> rfl
  · rw [if_pos hdenies, denies_iff.1 hdenies]
    cases b <;> rfl

end IsLink

end Item

/-- Without predicates to ask for, guards make no difference. -/
theorem Condition.holdsBy_eq_holds {predicates : Predicates} {c : Condition} (h : c.mentioned = [])
    {g : NodeGraph} {v : Fin g.size} (left : ℕ) (opened : List Question) :
    c.holdsBy (Item.holdsWith g (answer predicates g left opened) v) = c.holds predicates g v := by
  refine c.holdsBy_answer_congr fun name t hq => ?_
  obtain ⟨_, _, _, hname, -⟩ := exists_of_mem_questions hq
  rw [h] at hname
  cases hname

/-- The item and those after it are links, each on a predicate that the next one defines, and the
last one on a predicate that the condition defines. -/
inductive Relay (predicates : Predicates) (last : Condition) : Item → List Item → Prop
  | last {item : Item} : item.IsLink → predicates.find? item.subject.name = some last →
      Relay predicates last item []
  | link {item next : Item} {rest : List Item} : item.IsLink →
      predicates.find? item.subject.name = some (.single next) → Relay predicates last next rest →
      Relay predicates last item (next :: rest)

namespace Relay

variable {predicates : Predicates} {last : Condition} {item : Item} {rest : List Item}

theorem iterate_not_false_iff (n : ℕ) : not^[n] false = true ↔ Odd n := by
  rcases Nat.even_or_odd n with heven | hodd
  · simp [Bool.involutive_not.iterate_even heven, heven]
  · simp [Bool.involutive_not.iterate_odd hodd, hodd]

/-- One more link turns around what the rest of them give. -/
theorem iterate_not_countP_cons (item : Item) (links : List Item) (b : Bool) :
    not^[(item :: links).countP (·.Denies)] b =
      if item.Denies then !not^[links.countP (·.Denies)] b
      else not^[links.countP (·.Denies)] b := by
  by_cases h : item.Denies
  · rw [List.countP_cons_of_pos (by simpa using h), Function.iterate_succ_apply', if_pos h]
  · rw [List.countP_cons_of_neg (by simpa using h), if_neg h]

/-- With so many more questions allowed, only so many links count, and the end of the chain counts
only if the links are no more than that. -/
theorem holdsWith_eq (h : Relay predicates last item rest)
    (hdistinct : ((item :: rest).map (·.subject.name)).Nodup) (hlast : last.mentioned = [])
    {g : NodeGraph} {v : Fin g.size} (left : ℕ) (opened : List Question)
    (hfresh : ∀ l ∈ item :: rest, ⟨l.subject.name, g.id v⟩ ∉ opened) :
    item.holdsWith g (answer predicates g left opened) v =
      not^[((item :: rest).take left).countP (·.Denies)]
        (if (item :: rest).length ≤ left then last.holds predicates g v else false) := by
  -- the next link has one question less and finds one more of them open
  induction h generalizing left opened with
  | @last item hlink hdefined =>
    cases left with
    | zero => exact hlink.holdsWith_of_none rfl
    | succ left =>
      have hanswer : answer predicates g (left + 1) opened item.subject.name v =
          some (last.holds predicates g v) := by
        refine (answer_succ ..).2 ⟨hfresh item List.mem_cons_self, last, hdefined, ?_⟩
        exact Condition.holdsBy_eq_holds hlast left _
      rw [hlink.holdsWith_of_some hanswer, List.take_succ_cons, iterate_not_countP_cons,
        List.take_nil]
      simp
  | @link item next rest hlink hdefined _ ih =>
    cases left with
    | zero => exact hlink.holdsWith_of_none rfl
    | succ left =>
      rw [List.map_cons, List.nodup_cons] at hdistinct
      obtain ⟨hnew, hdistinct⟩ := hdistinct
      obtain ⟨hclosed, hfresh⟩ := List.forall_mem_cons.1 hfresh
      have hfresh' : ∀ l ∈ next :: rest,
          ⟨l.subject.name, g.id v⟩ ∉ (⟨item.subject.name, g.id v⟩ :: opened : List Question) := by
        intro l hl hmem
        rcases List.mem_cons.1 hmem with heq | hmem
        · exact hnew ((Question.mk.inj heq).1 ▸ List.mem_map_of_mem hl)
        · exact hfresh l hl hmem
      have hanswer : answer predicates g (left + 1) opened item.subject.name v =
          some (next.holdsWith g
            (answer predicates g left (⟨item.subject.name, g.id v⟩ :: opened)) v) :=
        (answer_succ ..).2 ⟨hclosed, _, hdefined, rfl⟩
      rw [hlink.holdsWith_of_some hanswer, ih hdistinct left _ hfresh', List.take_succ_cons,
        iterate_not_countP_cons]
      simp only [List.length_cons, Nat.add_le_add_iff_right]

/-- A chain of at most 32 links gives the truth of its end, negated once for each link that denies.
Of a longer one only the first 32 links count, and it is true if an odd number of them deny. -/
theorem holds_iff_negations (h : Relay predicates last item rest)
    (hdistinct : ((item :: rest).map (·.subject.name)).Nodup) (hlast : last.mentioned = [])
    (g : NodeGraph) (v : Fin g.size) :
    ((item :: rest).length ≤ 32 → item.holds predicates g v =
      not^[(item :: rest).countP (·.Denies)] (last.holds predicates g v)) ∧
    (32 < (item :: rest).length → (item.holds predicates g v = true ↔
      Odd (((item :: rest).take 32).countP (·.Denies)))) := by
  have hholds : item.holds predicates g v = not^[((item :: rest).take 32).countP (·.Denies)]
      (if (item :: rest).length ≤ 32 then last.holds predicates g v else false) :=
    h.holdsWith_eq hdistinct hlast questionLimit [] fun _ _ => List.not_mem_nil
  constructor
  · intro hshort
    rw [hholds, if_pos hshort, List.take_of_length_le hshort]
  · intro hlong
    rw [hholds, if_neg (Nat.not_le.2 hlong), iterate_not_false_iff]

/-- A further definition does not disturb a chain that has no link on its name. -/
theorem insert (h : Relay predicates last item rest) {name : String}
    (hname : name ∉ (item :: rest).map (·.subject.name)) (c : Condition) :
    Relay (predicates.insert name c) last item rest := by
  induction h with
  | last hlink hdefined =>
    refine .last hlink ?_
    rw [Dictionary.find?_insert, if_neg fun heq => hname (by simp [heq]), hdefined]
  | link hlink hdefined _ ih =>
    rw [List.map_cons, List.mem_cons, not_or] at hname
    refine .link hlink ?_ (ih hname.2)
    rw [Dictionary.find?_insert, if_neg (Ne.symm hname.1), hdefined]

/-- The definitions that make a chain of the links. -/
def definitions (last : Condition) : Item → List Item → Predicates
  | item, [] => .insert ∅ item.subject.name last
  | item, next :: rest => (definitions last next rest).insert item.subject.name (.single next)

/-- Any links on distinct names can be made a chain. -/
theorem of_links {item : Item} {rest : List Item} (hlinks : ∀ l ∈ item :: rest, l.IsLink)
    (hdistinct : ((item :: rest).map (·.subject.name)).Nodup) (last : Condition) :
    Relay (definitions last item rest) last item rest := by
  induction rest generalizing item with
  | nil =>
    refine .last (hlinks item List.mem_cons_self) ?_
    rw [definitions, Dictionary.find?_insert, if_pos rfl]
  | cons next rest ih =>
    obtain ⟨hlink, hlinks⟩ := List.forall_mem_cons.1 hlinks
    rw [List.map_cons, List.nodup_cons] at hdistinct
    refine .link hlink ?_ ((ih hlinks hdistinct.2).insert hdistinct.1 _)
    rw [definitions, Dictionary.find?_insert, if_pos rfl]

/-- A link on a name of its own, which denies for every third number. -/
def numbered (i : ℕ) : Item := ⟨.predicate (toString i), .eq, .bool (i % 3 != 0), .self, false⟩

theorem isLink_numbered (i : ℕ) : (numbered i).IsLink := by
  refine ⟨rfl, rfl, ?_⟩
  by_cases h : i % 3 = 0
  · exact .inr (.inl ⟨rfl, by simp [numbered, h]⟩)
  · exact .inl (.inl ⟨rfl, by simp [numbered, h]⟩)

theorem holds_iff_negations_numbered :
    let isDialog : Condition := .single ⟨.property "type", .eq, .string "Dialog", .self, false⟩
    let g := Predicates.dialogAndButton
    let v : Fin g.size := ⟨0, by decide⟩
    let rest (n : ℕ) := (List.range' 1 n).map numbered
    let predicates (n : ℕ) := definitions isDialog (numbered 0) (rest n)
    isDialog.mentioned = [] ∧
      (Relay (predicates 31) isDialog (numbered 0) (rest 31) ∧
        ((numbered 0 :: rest 31).map (·.subject.name)).Nodup ∧
        (numbered 0).holds (predicates 31) g v = false) ∧
      Relay (predicates 32) isDialog (numbered 0) (rest 32) ∧
        ((numbered 0 :: rest 32).map (·.subject.name)).Nodup ∧
        (numbered 0).holds (predicates 32) g v = true := by
  intro isDialog g v rest predicates
  have hlinks : ∀ n, ∀ l ∈ numbered 0 :: rest n, l.IsLink := by
    intro n l hl
    rcases List.mem_cons.1 hl with rfl | hl
    · exact isLink_numbered 0
    · obtain ⟨i, -, rfl⟩ := List.mem_map.1 hl
      exact isLink_numbered i
  have hlast : isDialog.mentioned = [] := rfl
  have hshort : ((numbered 0 :: rest 31).map (·.subject.name)).Nodup := by decide +kernel
  have hlong : ((numbered 0 :: rest 32).map (·.subject.name)).Nodup := by decide +kernel
  have hrelay := of_links (hlinks 31) hshort isDialog
  have hrelay' := of_links (hlinks 32) hlong isDialog
  obtain ⟨hall, -⟩ := hrelay.holds_iff_negations hshort hlast g v
  obtain ⟨-, hcut⟩ := hrelay'.holds_iff_negations hlong hlast g v
  exact ⟨hlast, ⟨hrelay, hshort, (hall (by decide)).trans (by decide)⟩, hrelay', hlong,
    (hcut (by decide)).2 (by decide)⟩

end Relay

end FocusRules
