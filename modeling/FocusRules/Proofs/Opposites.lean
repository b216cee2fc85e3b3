import FocusRules.Proofs.Truth

/-! Opposite operators. An item that compares a property and the same item with the opposite
operator divide among them the nodes that carry the property with values of the right kind. A node
that lacks the property, or carries it with values of another kind, is met by neither. -/

namespace FocusRules

namespace Property

def kind : Property → Value.Kind
  | text | hintText | description | accessibilityText | type | accessibilityLevel => .string
  | accessibilityGroup | isEnable => .bool
  | childrenCount => .number
  | actionNames => .strings

end Property

namespace Node

variable {n : Node} {name : String} {k : Value.Kind}

theorem kind_of_read {p : Property} {value : Value} (h : n.read p = some value) :
    value.kind = p.kind := by
  cases p <;> obtain ⟨_, _, rfl⟩ := Option.map_eq_some_iff.1 h <;> rfl

/-- The name is that of a property whose values have this kind, and the node has the property. -/
def Carries (n : Node) (name : String) (k : Value.Kind) : Prop :=
  ∃ p, Property.ofName? name = some p ∧ p.kind = k ∧ (n.read p).isSome

theorem carries_iff :
    n.Carries name k ↔ ∃ value, n.readNamed name = some value ∧ value.kind = k := by
  constructor
  · rintro ⟨p, hp, rfl, hread⟩
    obtain ⟨value, hvalue⟩ := Option.isSome_iff_exists.1 hread
    exact ⟨value, by rw [readNamed, hp, Option.bind_some, hvalue], kind_of_read hvalue⟩
  · rintro ⟨value, hvalue, rfl⟩
    obtain ⟨p, hp, hread⟩ := Option.bind_eq_some_iff.1 hvalue
    exact ⟨p, hp, (kind_of_read hread).symm, Option.isSome_iff_exists.2 ⟨value, hread⟩⟩

instance (n : Node) (name : String) (k : Value.Kind) : Decidable (n.Carries name k) :=
  decidable_of_iff ((n.readNamed name).any (·.kind = k) = true) <| by
    rw [Option.any_eq_true, carries_iff]
    simp only [decide_eq_true_iff]

end Node

namespace Value

/-- The two operators say the opposite of values of this kind, held against the value. -/
inductive Opposed : Operator → Operator → Value → Kind → Prop
  | string (s : String) : Opposed .eq .ne (.string s) .string
  | number (n : Int32) : Opposed .eq .ne (.number n) .number
  | bool (b : Bool) : Opposed .eq .ne (.bool b) .bool
  | member (set : StringSet) : Opposed .isOneOf .notOneOf (.strings set) .string

variable {o o' : Operator} {value subject : Value} {k : Kind}

theorem Opposed.compare_eq_not (h : Opposed o o' value k) (hk : subject.kind = k) :
    subject.compare o value = !subject.compare o' value := by
  cases h <;> cases subject <;> simp [kind] at hk <;> simp [compare]

theorem Opposed.compare_eq_false (h : Opposed o o' value k) (hk : subject.kind ≠ k) :
    subject.compare o value = false ∧ subject.compare o' value = false := by
  cases h <;> cases subject <;> simp [kind] at hk <;> simp [compare]

/-- Overlap is asked of two sets. -/
theorem compare_hasAny_iff {set : StringSet} : subject.compare .hasAny (.strings set) = true ↔
    ∃ own, subject = .strings own ∧ ∃ x, x ∈ own ∧ x ∈ set := by
  cases subject with
  | strings own => simp [compare, StringSet.meets_iff]
  | _ => simp [compare]

end Value

namespace Item

variable {g : NodeGraph} {ask : String → Fin g.size → Option Bool} {v t : Fin g.size}
  {name : String} {o o' : Operator} {value : Value} {k : Value.Kind} {target : Target}
  {cascade : Bool}

def comparing (name : String) (target : Target) (cascade : Bool) (o : Operator) (value : Value) :
    Item :=
  ⟨.property name, o, value, target, cascade⟩

theorem holdsAt_comparing : (comparing name target cascade o value).holdsAt g ask t =
    ((g.node t).readNamed name).any (·.compare o value) := rfl

/-- Asked of the node itself, it is asked of that node only. -/
theorem holdsWith_comparing_self : (comparing name .self cascade o value).holdsWith g ask t =
    (comparing name .self cascade o value).holdsAt g ask t := by
  have htargets : (comparing name .self cascade o value).targets g t = [t] := rfl
  rw [holdsWith, htargets, List.any_cons, List.any_nil, Bool.or_false]

theorem holdsAt_of_carries (h : Value.Opposed o o' value k) (hc : (g.node t).Carries name k) :
    (comparing name target cascade o value).holdsAt g ask t =
      !(comparing name target cascade o' value).holdsAt g ask t := by
  obtain ⟨subject, hread, hk⟩ := Node.carries_iff.1 hc
  rw [holdsAt_comparing, holdsAt_comparing, hread, Option.any_some, Option.any_some,
    h.compare_eq_not hk]

theorem holdsAt_of_not_carries (h : Value.Opposed o o' value k)
    (hc : ¬(g.node t).Carries name k) :
    (comparing name target cascade o value).holdsAt g ask t = false ∧
      (comparing name target cascade o' value).holdsAt g ask t = false := by
  rw [holdsAt_comparing, holdsAt_comparing]
  cases hread : (g.node t).readNamed name with
  | none => exact ⟨rfl, rfl⟩
  | some subject =>
    have hk : subject.kind ≠ k := fun hk => hc (Node.carries_iff.2 ⟨subject, hread, hk⟩)
    exact h.compare_eq_false hk

/-- One of the two holds just where some target carries the property with values of the kind. -/
theorem holdsWith_or_iff (h : Value.Opposed o o' value k) :
    ((comparing name target cascade o value).holdsWith g ask v = true ∨
      (comparing name target cascade o' value).holdsWith g ask v = true) ↔
      ∃ t ∈ (comparing name target cascade o value).targets g v, (g.node t).Carries name k := by
  rw [holdsWith, holdsWith, List.any_eq_true, List.any_eq_true]
  constructor
  · rintro (⟨t, ht, hm⟩ | ⟨t, ht, hm⟩)
    · refine ⟨t, ht, by_contra fun hc => ?_⟩
      rw [(holdsAt_of_not_carries h hc).1] at hm
      cases hm
    · refine ⟨t, ht, by_contra fun hc => ?_⟩
      rw [(holdsAt_of_not_carries h hc).2] at hm
      cases hm
  · rintro ⟨t, ht, hc⟩
    cases hm : (comparing name target cascade o' value).holdsAt g ask t with
    | true => exact .inr ⟨t, ht, hm⟩
    | false => exact .inl ⟨t, ht, by rw [holdsAt_of_carries h hc, hm]; rfl⟩

/-- Where one target alone is met or not, it decides. -/
theorem holdsWith_eq_holdsAt {item : Item} (ht : t ∈ item.targets g v)
    (hrest : ∀ u ∈ item.targets g v, u ≠ t → item.holdsAt g ask u = false) :
    item.holdsWith g ask v = item.holdsAt g ask t := by
  rw [holdsWith, Bool.eq_iff_iff, List.any_eq_true]
  constructor
  · rintro ⟨u, hu, hm⟩
    by_cases hut : u = t
    · exact hut ▸ hm
    · rw [hrest u hu hut] at hm
      cases hm
  · exact fun hm => ⟨t, ht, hm⟩

/-- The one node that carries the property meets just one of the two. -/
theorem holdsWith_iff_not (h : Value.Opposed o o' value k)
    (hc : ∃! t, t ∈ (comparing name target cascade o value).targets g v ∧
      (g.node t).Carries name k) :
    (comparing name target cascade o value).holdsWith g ask v = true ↔
      ¬(comparing name target cascade o' value).holdsWith g ask v = true := by
  obtain ⟨t, ⟨ht, hct⟩, hunique⟩ := hc
  have hrest : ∀ u ∈ (comparing name target cascade o value).targets g v, u ≠ t →
      ¬(g.node u).Carries name k := fun u hu hne hcu => hne (hunique u ⟨hu, hcu⟩)
  have ho : (comparing name target cascade o value).holdsWith g ask v =
      (comparing name target cascade o value).holdsAt g ask t :=
    holdsWith_eq_holdsAt ht fun u hu hne => (holdsAt_of_not_carries h (hrest u hu hne)).1
  have ho' : (comparing name target cascade o' value).holdsWith g ask v =
      (comparing name target cascade o' value).holdsAt g ask t :=
    holdsWith_eq_holdsAt ht fun u hu hne => (holdsAt_of_not_carries h (hrest u hu hne)).2
  rw [ho, ho', holdsAt_of_carries h hct, Bool.not_eq_true', Bool.not_eq_true]

theorem holdsWith_hasAny_iff {set : StringSet} :
    (comparing name target cascade .hasAny (.strings set)).holdsWith g ask v = true ↔
      ∃ t ∈ (comparing name target cascade .hasAny (.strings set)).targets g v,
        ∃ own, (g.node t).readNamed name = some (.strings own) ∧ ∃ x, x ∈ own ∧ x ∈ set := by
  rw [holdsWith, List.any_eq_true]
  refine exists_congr fun t => and_congr_right fun _ => ?_
  rw [holdsAt_comparing, Option.any_eq_true]
  simp only [Value.compare_hasAny_iff]
  constructor
  · rintro ⟨_, hread, own, rfl, hshared⟩
    exact ⟨own, hread, hshared⟩
  · rintro ⟨own, hread, hshared⟩
    exact ⟨_, hread, own, rfl, hshared⟩

/-- Two items that look at the same nodes and compare the same property with a value by opposite
operators. One of them holds just where some node looked at carries the property with values of the
right kind. Each such node meets one of the two and not the other, so where there is one such node,
one item holds and the other does not, and where there is none, neither does. An item that asks for
overlap holds just where some node carries a set that shares a string with its own. -/
theorem opposites_split_comparable (g : NodeGraph) (ask : String → Fin g.size → Option Bool)
    (v : Fin g.size) (name : String) (target : Target) (cascade : Bool) :
    (∀ o o' value k, Value.Opposed o o' value k →
      let targets := (comparing name target cascade o value).targets g v
      let holds := fun o => (comparing name target cascade o value).holdsWith g ask v
      let holdsOn := fun o t => (comparing name .self cascade o value).holdsWith g ask t
      let comparable := fun t => (g.node t).Carries name k
      (holds o = true ∨ holds o' = true ↔ ∃ t ∈ targets, comparable t) ∧
      (∀ t ∈ targets, comparable t → (holdsOn o t = true ↔ ¬holdsOn o' t = true)) ∧
      ((∃! t, t ∈ targets ∧ comparable t) → (holds o = true ↔ ¬holds o' = true)) ∧
      ((∀ t ∈ targets, ¬comparable t) → holds o = false ∧ holds o' = false)) ∧
    ∀ set, (comparing name target cascade .hasAny (.strings set)).holdsWith g ask v = true ↔
      ∃ t ∈ (comparing name target cascade .hasAny (.strings set)).targets g v,
        ∃ own, (g.node t).readNamed name = some (.strings own) ∧ ∃ x, x ∈ own ∧ x ∈ set := by
  refine ⟨fun o o' value k h => ?_, fun set => holdsWith_hasAny_iff⟩
  intro targets holds holdsOn comparable
  have hor : holds o = true ∨ holds o' = true ↔ ∃ t ∈ targets, comparable t := holdsWith_or_iff h
  refine ⟨hor, fun t _ hc => ?_, holdsWith_iff_not h, fun hnone => ?_⟩
  · simp only [holdsOn, holdsWith_comparing_self]
    rw [holdsAt_of_carries h hc, Bool.not_eq_true', Bool.not_eq_true]
  · have hneither : ¬(holds o = true ∨ holds o' = true) := by
      rw [hor]
      rintro ⟨t, ht, hc⟩
      exact hnone t ht hc
    rwa [not_or, Bool.not_eq_true, Bool.not_eq_true] at hneither

def rowOfThree : NodeGraph := .ofRows #[
  { node := { id := 1, attributes := { type := some "Row" } }, children := [1, 2] },
  { node := { id := 2, attributes := { text := some "Image" } }, parent := some 0 },
  { node := { id := 3, attributes := { type := some "Image" } }, parent := some 0 }]

theorem opposites_split_comparable_row :
    let v : Fin rowOfThree.size := ⟨0, by decide⟩
    let image : Fin rowOfThree.size := ⟨2, by decide⟩
    let images : Value := .strings (.ofList ["Image", "ImageView"])
    let targets := (comparing "type" .children false .isOneOf images).targets rowOfThree v
    let holds := fun target o value u =>
      (comparing "type" target false o value).holdsWith rowOfThree (fun _ _ => none) u
    (Value.Opposed .isOneOf .notOneOf images .string ∧
      (∃! t, t ∈ targets ∧ (rowOfThree.node t).Carries "type" .string) ∧
      (holds .children .isOneOf images v = true ↔ ¬holds .children .notOneOf images v = true)) ∧
    (image ∈ targets ∧ (rowOfThree.node image).Carries "type" .string ∧
      (holds .self .isOneOf images image = true ↔ ¬holds .self .notOneOf images image = true)) ∧
    Value.Opposed .eq .ne (.number 3) .number ∧
      (∀ t ∈ targets, ¬(rowOfThree.node t).Carries "type" .number) ∧
      holds .children .eq (.number 3) v = false ∧ holds .children .ne (.number 3) v = false := by
  intro v image images targets holds
  obtain ⟨hsplit, -⟩ :=
    opposites_split_comparable rowOfThree (fun _ _ => none) v "type" .children false
  have hmember : Value.Opposed .isOneOf .notOneOf images .string := .member _
  have hnumber : Value.Opposed .eq .ne (.number 3) .number := .number 3
  have himage : image ∈ targets ∧ (rowOfThree.node image).Carries "type" .string := by decide
  have hunique : ∃! t, t ∈ targets ∧ (rowOfThree.node t).Carries "type" .string :=
    ⟨image, himage, by decide⟩
  have hother : ∀ t ∈ targets, ¬(rowOfThree.node t).Carries "type" .number := by decide
  obtain ⟨-, heach, hone, -⟩ := hsplit _ _ _ _ hmember
  obtain ⟨-, -, -, hnone⟩ := hsplit _ _ _ _ hnumber
  exact ⟨⟨hmember, hunique, hone hunique⟩, ⟨himage.1, himage.2, heach image himage.1 himage.2⟩,
    hnumber, hother, hnone hother⟩

end Item

end FocusRules
