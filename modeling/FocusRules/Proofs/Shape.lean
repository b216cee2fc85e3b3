import FocusRules.Proofs.Load
import FocusRules.Proofs.Truth

/-! Conditions of one shape. Their items stand at the same places, and what holds of each item
carries over to the item in its place holds of the conditions too. -/

namespace FocusRules

namespace Condition

mutual

def mapItems (f : Item → Item) : Condition → Condition
  | flat mode items => flat mode (items.map f)
  | combined mode parts => combined mode (mapItemsOf f parts)

def mapItemsOf (f : Item → Item) : List Condition → List Condition
  | [] => []
  | c :: rest => mapItems f c :: mapItemsOf f rest

end

theorem mapItemsOf_eq (f : Item → Item) (parts : List Condition) :
    mapItemsOf f parts = parts.map (mapItems f) := by
  induction parts with
  | nil => rfl
  | cons c rest ih => rw [mapItemsOf, ih, List.map_cons]

inductive Pointwise (R : Item → Item → Prop) : Condition → Condition → Prop
  | flat {mode : Mode} {items items' : List Item} : List.Forall₂ R items items' →
      Pointwise R (flat mode items) (flat mode items')
  | combined {mode : Mode} {parts : List (Condition × Condition)} :
      (∀ p ∈ parts, Pointwise R p.1 p.2) →
      Pointwise R (combined mode (parts.map Prod.fst)) (combined mode (parts.map Prod.snd))

variable {R : Item → Item → Prop} {c c' : Condition}

theorem Pointwise.of_forall₂ {mode : Mode} {parts parts' : List Condition}
    (h : List.Forall₂ (Pointwise R) parts parts') :
    Pointwise R (.combined mode parts) (.combined mode parts') := by
  obtain ⟨pairs, rfl, rfl, hpairs⟩ := exists_pairs_of_forall₂ h
  exact .combined hpairs

theorem Pointwise.refl (h : ∀ item ∈ c.atoms, R item item) : c.Pointwise R c := by
  induction c with
  | flat mode items =>
    rw [atoms_flat] at h
    exact .flat (List.forall₂_same.2 h)
  | combined mode parts ih =>
    refine .of_forall₂ (List.forall₂_same.2 fun d hd => ih d hd fun item hi => ?_)
    exact h item (mem_atoms_combined.2 ⟨d, hd, hi⟩)

theorem Pointwise.mapItems {f : Item → Item} (h : ∀ item ∈ c.atoms, R item (f item)) :
    c.Pointwise R (c.mapItems f) := by
  induction c with
  | flat mode items =>
    rw [atoms_flat] at h
    rw [Condition.mapItems]
    exact .flat (List.forall₂_map_right_iff.2 (List.forall₂_same.2 h))
  | combined mode parts ih =>
    rw [Condition.mapItems, mapItemsOf_eq]
    refine .of_forall₂ (List.forall₂_map_right_iff.2 (List.forall₂_same.2 fun d hd => ?_))
    exact ih d hd fun item hi => h item (mem_atoms_combined.2 ⟨d, hd, hi⟩)

theorem Pointwise.symm (h : c.Pointwise R c') : c'.Pointwise (flip R) c := by
  induction h with
  | flat hitems => exact .flat hitems.flip
  | @combined mode parts _ ih =>
    have hparts := forall₂_of_pairs (R := flip (Pointwise (flip R))) ih
    exact .of_forall₂ hparts.flip

/-- If each item carries over, the condition does. -/
theorem Pointwise.meets {p q : Item → Prop} (h : c.Pointwise R c')
    (hitem : ∀ item ∈ c.atoms, ∀ item', R item item' → p item → q item') (hc : c.Meets p) :
    c'.Meets q := by
  induction h with
  | @flat mode items items' hitems =>
    rw [atoms_flat] at hitem
    cases hc with
    | @single item hp =>
      obtain _ | ⟨hr, hnil⟩ := hitems
      cases hnil
      exact .single (hitem item List.mem_cons_self _ hr hp)
    | allItems hall =>
      refine .allItems fun item' hi' => ?_
      obtain ⟨item, hi, hr⟩ := exists_of_forall₂ hitems.flip hi'
      exact hitem item hi item' hr (hall item hi)
    | @someItem _ item hi hp =>
      obtain ⟨item', hi', hr⟩ := exists_of_forall₂ hitems hi
      exact .someItem hi' (hitem item hi item' hr hp)
  | @combined mode parts _ ih =>
    have hpart : ∀ pair ∈ parts, pair.1.Meets p → pair.2.Meets q := by
      intro pair hpair
      refine ih pair hpair fun item hi => hitem item ?_
      exact mem_atoms_combined.2 ⟨pair.1, List.mem_map_of_mem hpair, hi⟩
    cases hc with
    | allParts hall =>
      refine .allParts fun d' hd' => ?_
      obtain ⟨pair, hpair, rfl⟩ := List.mem_map.1 hd'
      exact hpart pair hpair (hall pair.1 (List.mem_map_of_mem hpair))
    | somePart hd hholds =>
      obtain ⟨pair, hpair, rfl⟩ := List.mem_map.1 hd
      exact .somePart (List.mem_map_of_mem hpair) (hpart pair hpair hholds)

/-- If related items are true alike, the conditions are. -/
theorem Pointwise.holdsBy_eq {truth truth' : Item → Bool} (h : c.Pointwise R c')
    (htruth : ∀ item item', R item item' → truth' item' = truth item) :
    c'.holdsBy truth' = c.holdsBy truth := by
  rw [Bool.eq_iff_iff, holdsBy_iff, holdsBy_iff]
  constructor
  · exact h.symm.meets fun item' _ item hr hp => htruth item item' hr ▸ hp
  · exact h.meets fun item _ item' hr hp => (htruth item item' hr).trans hp

end Condition

end FocusRules
