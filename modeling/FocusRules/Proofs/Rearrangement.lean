import FocusRules.Proofs.Entailment

/-! Order, repetition and nesting of an `and` or an `or` mean nothing. Conditions that differ in
them alone are true alike whatever makes items true, so a question has the same answer in both, also
where it leads back to itself or is asked in order to be denied: which questions are open depends on
the way to a question only, and not on what was asked before on other ways. -/

namespace FocusRules

def Mode.Joins (mode : Mode) : Prop := mode = .and ∨ mode = .or

namespace Condition

/-- The least congruence that disregards the order, the repetition and the nesting of what an `and`
or an `or` joins. -/
inductive Alike : Condition → Condition → Prop
  | refl (c : Condition) : Alike c c
  | symm {c d : Condition} : Alike c d → Alike d c
  | trans {c d e : Condition} : Alike c d → Alike d e → Alike c e
  | part {mode : Mode} {before after : List Condition} {c d : Condition} : Alike c d →
      Alike (combined mode (before ++ c :: after)) (combined mode (before ++ d :: after))
  | orderItems {mode : Mode} {items items' : List Item} : mode.Joins → items.Perm items' →
      Alike (flat mode items) (flat mode items')
  | repeatItem {mode : Mode} {item : Item} {items : List Item} : mode.Joins → item ∈ items →
      Alike (flat mode items) (flat mode (item :: items))
  | orderParts {mode : Mode} {parts parts' : List Condition} : mode.Joins → parts.Perm parts' →
      Alike (combined mode parts) (combined mode parts')
  | repeatPart {mode : Mode} {c : Condition} {parts : List Condition} : mode.Joins → c ∈ parts →
      Alike (combined mode parts) (combined mode (c :: parts))
  | splice {mode : Mode} {before inner after : List Condition} : mode.Joins →
      Alike (combined mode (before ++ combined mode inner :: after))
        (combined mode (before ++ inner ++ after))
  | nest {mode : Mode} {items : List Item} : mode.Joins →
      Alike (flat mode items) (combined mode (items.map single))

instance : Trans Alike Alike Alike := ⟨.trans⟩

end Condition

namespace Mode

/-- A `single` and an unknown mode join nothing. -/
def join : Mode → List Bool → Bool
  | .and, outcomes => outcomes.all id
  | .or, outcomes => outcomes.any id
  | .single, _ => false
  | .unknown, _ => false

/-- Only which outcomes there are counts. -/
theorem join_congr {mode : Mode} {l l' : List Bool} (h : ∀ b, b ∈ l ↔ b ∈ l') :
    mode.join l = mode.join l' := by
  cases mode with
  | and =>
    rw [join, join, Bool.eq_iff_iff, List.all_eq_true, List.all_eq_true]
    simp only [h]
  | or =>
    rw [join, join, Bool.eq_iff_iff, List.any_eq_true, List.any_eq_true]
    simp only [h]
  | single => rfl
  | unknown => rfl

theorem join_perm {mode : Mode} {l l' : List Bool} (h : l.Perm l') :
    mode.join l = mode.join l' :=
  join_congr fun _ => h.mem_iff

theorem join_cons_of_mem {mode : Mode} {b : Bool} {l : List Bool} (h : b ∈ l) :
    mode.join (b :: l) = mode.join l := by
  apply join_congr
  intro a
  rw [List.mem_cons, or_iff_right_of_imp]
  rintro rfl
  exact h

theorem join_splice {mode : Mode} (hmode : mode.Joins) (l inner l' : List Bool) :
    mode.join (l ++ mode.join inner :: l') = mode.join (l ++ inner ++ l') := by
  rcases hmode with rfl | rfl
  · simp [join]
  · simp [join]

end Mode

namespace Condition

variable {truth : Item → Bool} {mode : Mode}

theorem holdsBy_combined (parts : List Condition) :
    (combined mode parts).holdsBy truth = mode.join (parts.map (holdsBy truth)) := by
  cases mode with
  | and => rw [holdsBy, allHoldBy_eq, Mode.join, List.all_map]; rfl
  | or => rw [holdsBy, someHoldsBy_eq, Mode.join, List.any_map]; rfl
  | single => rfl
  | unknown => rfl

theorem holdsBy_flat (hmode : mode.Joins) (items : List Item) :
    (flat mode items).holdsBy truth = mode.join (items.map truth) := by
  rcases hmode with rfl | rfl
  · rw [holdsBy, Mode.join, List.all_map]; rfl
  · rw [holdsBy, Mode.join, List.any_map]; rfl

/-- Whatever makes items true, conditions that are alike are true alike. -/
theorem Alike.holdsBy_eq {c d : Condition} (h : c.Alike d) :
    d.holdsBy truth = c.holdsBy truth := by
  induction h with
  | refl => rfl
  | symm _ ih => exact ih.symm
  | trans _ _ ih ih' => exact ih'.trans ih
  | part _ ih => simp only [holdsBy_combined, List.map_append, List.map_cons, ih]
  | orderItems hmode hperm =>
    rw [holdsBy_flat hmode, holdsBy_flat hmode]
    exact Mode.join_perm (hperm.map truth).symm
  | repeatItem hmode hi =>
    rw [holdsBy_flat hmode, holdsBy_flat hmode, List.map_cons]
    exact Mode.join_cons_of_mem (List.mem_map_of_mem hi)
  | orderParts _ hperm =>
    rw [holdsBy_combined, holdsBy_combined]
    exact Mode.join_perm (hperm.map (holdsBy truth)).symm
  | repeatPart _ hc =>
    rw [holdsBy_combined, holdsBy_combined, List.map_cons]
    exact Mode.join_cons_of_mem (List.mem_map_of_mem hc)
  | splice hmode =>
    simp only [holdsBy_combined, List.map_append, List.map_cons, Mode.join_splice hmode]
  | nest hmode =>
    rw [holdsBy_flat hmode, holdsBy_combined, List.map_map]
    rfl

/-- Conditions that are alike, read with definitions that are alike, hold at the same nodes. -/
theorem holds_eq_of_alike {c c' : Condition} (hc : c.Alike c') {predicates predicates' : Predicates}
    (h : predicates.Pointwise Alike predicates') (g : NodeGraph) (v : Fin g.size) :
    c.holds predicates g v = c'.holds predicates' g v := by
  -- nothing is left out here, so the condition that may be false is one that always is
  have hnever : placeholder.NeverHolds := fun _ _ _ _ _ => holdsBy_placeholder _
  have hequal : predicates.EqualUnless placeholder predicates' :=
    h.imp fun _ _ _ _ hd _ _ => hd.holdsBy_eq
  have hcond : EqualUnless placeholder c c' := fun _ _ => hc.holdsBy_eq
  exact (hcond.holds_eq hnever hequal g v).symm

def isButton : Item := ⟨.property "type", .eq, .string "Button", .self, false⟩

def notLeaf : Item := ⟨.predicate "leaf", .eq, .bool false, .self, false⟩

def belowNoLeaf : Item := ⟨.predicate "leaf", .ne, .bool true, .parent, false⟩

def noLeaves : Condition := .flat .and [notLeaf, belowNoLeaf]

/-- A predicate that asks for itself in order to be denied, with needless nesting and repetition. -/
def nestedLeaf : Predicates := .insert ∅ "leaf"
  (.combined .or ([] ++ .combined .or [single isButton, noLeaves] :: [single isButton]))

def plainLeaf : Predicates := .insert ∅ "leaf"
  (.combined .or ([] ++ .flat .and [belowNoLeaf, notLeaf] :: [single isButton]))

theorem nestedLeaf_alike_plainLeaf : nestedLeaf.Pointwise Alike plainLeaf := by
  have hor : Mode.Joins .or := .inr rfl
  refine Predicates.Pointwise.empty.insert ?_ "leaf"
  calc Alike (.combined .or ([] ++ .combined .or [single isButton, noLeaves] :: [single isButton]))
        (.combined .or [single isButton, noLeaves, single isButton]) := .splice hor
    Alike _ (.combined .or [single isButton, single isButton, noLeaves]) :=
      .orderParts hor (.cons _ (.swap _ _ _))
    Alike _ (.combined .or [single isButton, noLeaves]) :=
      .symm (.repeatPart hor List.mem_cons_self)
    Alike _ (.combined .or ([] ++ noLeaves :: [single isButton])) :=
      .orderParts hor (.swap _ _ _)
    Alike _ (.combined .or ([] ++ .flat .and [belowNoLeaf, notLeaf] :: [single isButton])) :=
      .part (.orderItems (.inl rfl) (.swap _ _ _))

def rowAndButton : NodeGraph := .ofRows #[
  { node := { id := 1, attributes := { type := some "Row" } }, children := [1] },
  { node := { id := 2, attributes := { type := some "Button" } }, parent := some 0 }]

theorem holds_eq_of_alike_leaf :
    let c : Condition := .flat .or [belowNoLeaf, notLeaf]
    let c' : Condition := .combined .or [single notLeaf, single belowNoLeaf]
    let v : Fin rowAndButton.size := ⟨0, by decide⟩
    c.Alike c' ∧ nestedLeaf.Pointwise Alike plainLeaf ∧ c.holds nestedLeaf rowAndButton v = true ∧
      c'.holds plainLeaf rowAndButton v = true := by
  intro c c' v
  have hor : Mode.Joins .or := .inr rfl
  have hc : c.Alike c' := .trans (.orderItems hor (.swap _ _ _)) (.nest hor)
  have h : c.holds nestedLeaf rowAndButton v = true := by decide
  exact ⟨hc, nestedLeaf_alike_plainLeaf, h,
    (holds_eq_of_alike hc nestedLeaf_alike_plainLeaf rowAndButton v).symm.trans h⟩

end Condition

end FocusRules
