import FocusRules.Proofs.Truth

/-! Evaluation without guards, as a relation. A question is answered by its definition, however
often it has been asked and however many questions are open, so there is an answer only where asking
comes to an end. What decides an `and` or an `or` may be found in any order. -/

namespace FocusRules

/-- What can be true or false: a condition at a node, an item at a node, and what an item wants of
one node that it looks at. -/
inductive Judgement (g : NodeGraph) where
  | condition (c : Condition) (v : Fin g.size)
  | item (item : Item) (v : Fin g.size)
  | target (item : Item) (t : Fin g.size)

inductive Unguarded (predicates : Predicates) (g : NodeGraph) : Judgement g → Bool → Prop
  | unknownItems {items : List Item} {v : Fin g.size} :
      Unguarded predicates g (.condition (.flat .unknown items) v) false
  | unknownParts {parts : List Condition} {v : Fin g.size} :
      Unguarded predicates g (.condition (.combined .unknown parts) v) false
  | single {item : Item} {v : Fin g.size} {b : Bool} :
      Unguarded predicates g (.item item v) b →
      Unguarded predicates g (.condition (.flat .single [item]) v) b
  | singleItems {items : List Item} {v : Fin g.size} :
      items.length ≠ 1 → Unguarded predicates g (.condition (.flat .single items) v) false
  | singleParts {parts : List Condition} {v : Fin g.size} :
      Unguarded predicates g (.condition (.combined .single parts) v) false
  | allItems {items : List Item} {v : Fin g.size} :
      (∀ item ∈ items, Unguarded predicates g (.item item v) true) →
      Unguarded predicates g (.condition (.flat .and items) v) true
  | itemFails {items : List Item} {item : Item} {v : Fin g.size} :
      item ∈ items → Unguarded predicates g (.item item v) false →
      Unguarded predicates g (.condition (.flat .and items) v) false
  | someItem {items : List Item} {item : Item} {v : Fin g.size} :
      item ∈ items → Unguarded predicates g (.item item v) true →
      Unguarded predicates g (.condition (.flat .or items) v) true
  | itemsFail {items : List Item} {v : Fin g.size} :
      (∀ item ∈ items, Unguarded predicates g (.item item v) false) →
      Unguarded predicates g (.condition (.flat .or items) v) false
  | allParts {parts : List Condition} {v : Fin g.size} :
      (∀ c ∈ parts, Unguarded predicates g (.condition c v) true) →
      Unguarded predicates g (.condition (.combined .and parts) v) true
  | partFails {parts : List Condition} {c : Condition} {v : Fin g.size} :
      c ∈ parts → Unguarded predicates g (.condition c v) false →
      Unguarded predicates g (.condition (.combined .and parts) v) false
  | somePart {parts : List Condition} {c : Condition} {v : Fin g.size} :
      c ∈ parts → Unguarded predicates g (.condition c v) true →
      Unguarded predicates g (.condition (.combined .or parts) v) true
  | partsFail {parts : List Condition} {v : Fin g.size} :
      (∀ c ∈ parts, Unguarded predicates g (.condition c v) false) →
      Unguarded predicates g (.condition (.combined .or parts) v) false
  | someTarget {item : Item} {v t : Fin g.size} :
      t ∈ item.targets g v → Unguarded predicates g (.target item t) true →
      Unguarded predicates g (.item item v) true
  | targetsFail {item : Item} {v : Fin g.size} :
      (∀ t ∈ item.targets g v, Unguarded predicates g (.target item t) false) →
      Unguarded predicates g (.item item v) false
  | carried {item : Item} {t : Fin g.size} {name : String} {value : Value} :
      item.subject = .property name → (g.node t).readNamed name = some value →
      Unguarded predicates g (.target item t) (value.compare item.operator item.value)
  | lacking {item : Item} {t : Fin g.size} {name : String} :
      item.subject = .property name → (g.node t).readNamed name = none →
      Unguarded predicates g (.target item t) false
  | inadmissible {item : Item} {t : Fin g.size} {name : String} :
      item.subject = .predicate name → ¬item.Admissible →
      Unguarded predicates g (.target item t) false
  | undefined {item : Item} {t : Fin g.size} {name : String} :
      item.subject = .predicate name → predicates.find? name = none →
      Unguarded predicates g (.target item t) false
  | equal {item : Item} {t : Fin g.size} {name : String} {c : Condition} {b expected : Bool} :
      item.subject = .predicate name → item.operator = .eq → item.value = .bool expected →
      predicates.find? name = some c → Unguarded predicates g (.condition c t) b →
      Unguarded predicates g (.target item t) (b == expected)
  | unequal {item : Item} {t : Fin g.size} {name : String} {c : Condition} {b expected : Bool} :
      item.subject = .predicate name → item.operator = .ne → item.value = .bool expected →
      predicates.find? name = some c → Unguarded predicates g (.condition c t) b →
      Unguarded predicates g (.target item t) (b != expected)

namespace Unguarded

variable {predicates : Predicates} {g : NodeGraph}

/-- There is at most one answer. -/
theorem unique {j : Judgement g} {b b' : Bool} (h : Unguarded predicates g j b)
    (h' : Unguarded predicates g j b') : b = b' := by
  induction h generalizing b' with
  | unknownItems => cases h'; rfl
  | unknownParts => cases h'; rfl
  | single _ ih =>
    cases h' with
    | single h' => exact ih h'
    | singleItems hne => exact absurd rfl hne
  | singleItems hne =>
    cases h' with
    | single h' => exact absurd rfl hne
    | singleItems => rfl
  | singleParts => cases h'; rfl
  | allItems _ ih =>
    cases h' with
    | allItems => rfl
    | itemFails hi h' => exact ih _ hi h'
  | itemFails hi _ ih =>
    cases h' with
    | allItems h' => exact ih (h' _ hi)
    | itemFails => rfl
  | someItem hi _ ih =>
    cases h' with
    | someItem => rfl
    | itemsFail h' => exact ih (h' _ hi)
  | itemsFail _ ih =>
    cases h' with
    | someItem hi h' => exact ih _ hi h'
    | itemsFail => rfl
  | allParts _ ih =>
    cases h' with
    | allParts => rfl
    | partFails hc h' => exact ih _ hc h'
  | partFails hc _ ih =>
    cases h' with
    | allParts h' => exact ih (h' _ hc)
    | partFails => rfl
  | somePart hc _ ih =>
    cases h' with
    | somePart => rfl
    | partsFail h' => exact ih (h' _ hc)
  | partsFail _ ih =>
    cases h' with
    | somePart hc h' => exact ih _ hc h'
    | partsFail => rfl
  | someTarget ht _ ih =>
    cases h' with
    | someTarget => rfl
    | targetsFail h' => exact ih (h' _ ht)
  | targetsFail _ ih =>
    cases h' with
    | someTarget ht h' => exact ih _ ht h'
    | targetsFail => rfl
  | carried hs hr => cases h' <;> simp_all
  | lacking hs hr => cases h' <;> simp_all
  | inadmissible hs ha =>
    cases h' with
    | carried hs' => simp [hs] at hs'
    | lacking | inadmissible | undefined => rfl
    | equal _ ho hv => exact absurd ⟨.inl ho, _, hv⟩ ha
    | unequal _ ho hv => exact absurd ⟨.inr ho, _, hv⟩ ha
  | undefined hs hn => cases h' <;> simp_all
  | equal hs ho hv hc _ ih =>
    cases h' with
    | carried hs' => simp [hs] at hs'
    | lacking hs' => simp [hs] at hs'
    | inadmissible _ ha => exact absurd ⟨.inl ho, _, hv⟩ ha
    | undefined hs' hn => simp_all
    | equal hs' ho' hv' hc' h' =>
      obtain rfl := Subject.predicate.inj (hs.symm.trans hs')
      obtain rfl := Option.some.inj (hc.symm.trans hc')
      obtain rfl := Value.bool.inj (hv.symm.trans hv')
      rw [ih h']
    | unequal _ ho' => simp [ho] at ho'
  | unequal hs ho hv hc _ ih =>
    cases h' with
    | carried hs' => simp [hs] at hs'
    | lacking hs' => simp [hs] at hs'
    | inadmissible _ ha => exact absurd ⟨.inr ho, _, hv⟩ ha
    | undefined hs' hn => simp_all
    | equal _ ho' => simp [ho] at ho'
    | unequal hs' ho' hv' hc' h' =>
      obtain rfl := Subject.predicate.inj (hs.symm.trans hs')
      obtain rfl := Option.some.inj (hc.symm.trans hc')
      obtain rfl := Value.bool.inj (hv.symm.trans hv')
      rw [ih h']

/-- A condition comes out as its items do. -/
theorem condition_holdsBy {truth : Item → Bool} {v : Fin g.size} {c : Condition}
    (h : ∀ item ∈ c.atoms, Unguarded predicates g (.item item v) (truth item)) :
    Unguarded predicates g (.condition c v) (c.holdsBy truth) := by
  induction c with
  | flat mode items =>
    rw [Condition.atoms_flat] at h
    cases mode with
    | unknown => exact .unknownItems
    | single =>
      match items with
      | [] => exact .singleItems (by simp)
      | [item] => exact .single (h item List.mem_cons_self)
      | _ :: _ :: _ => exact .singleItems (by simp)
    | and =>
      rw [Condition.holdsBy]
      rcases all_cases items truth with ⟨heq, hall⟩ | ⟨heq, item, hi, hf⟩
      · exact heq ▸ .allItems fun item hi => hall item hi ▸ h item hi
      · exact heq ▸ .itemFails hi (hf ▸ h item hi)
    | or =>
      rw [Condition.holdsBy]
      rcases any_cases items truth with ⟨heq, item, hi, ht⟩ | ⟨heq, hnone⟩
      · exact heq ▸ .someItem hi (ht ▸ h item hi)
      · exact heq ▸ .itemsFail fun item hi => hnone item hi ▸ h item hi
  | combined mode parts ih =>
    have hpart : ∀ c ∈ parts, Unguarded predicates g (.condition c v) (c.holdsBy truth) :=
      fun c hc => ih c hc fun item hi => h item (Condition.mem_atoms_combined.2 ⟨c, hc, hi⟩)
    cases mode with
    | unknown => exact .unknownParts
    | single => exact .singleParts
    | and =>
      rw [Condition.holdsBy, Condition.allHoldBy_eq]
      rcases all_cases parts (Condition.holdsBy truth) with ⟨heq, hall⟩ | ⟨heq, c, hc, hf⟩
      · exact heq ▸ .allParts fun c hc => hall c hc ▸ hpart c hc
      · exact heq ▸ .partFails hc (hf ▸ hpart c hc)
    | or =>
      rw [Condition.holdsBy, Condition.someHoldsBy_eq]
      rcases any_cases parts (Condition.holdsBy truth) with ⟨heq, c, hc, ht⟩ | ⟨heq, hnone⟩
      · exact heq ▸ .somePart hc (ht ▸ hpart c hc)
      · exact heq ▸ .partsFail fun c hc => hnone c hc ▸ hpart c hc

end Unguarded

end FocusRules
