import FocusRules.Item
import Mathlib.Data.Fintype.EquivFin
import Mathlib.Logic.Relation

/-! Walks that come to an end. A walk is cut short after as many steps as there are nodes. Where the
links from a node on do not run in a circle, a walk has ever fewer nodes before it and ends by then,
so the ancestors and the descendants are all that the links lead to. -/

namespace FocusRules

theorem not_rel_of_acc {α : Type} {r : α → α → Prop} {a : α} (h : Acc r a) : ¬r a a := by
  induction h with
  | intro a _ ih => exact fun ha => ih a ha ha

namespace NodeGraph

section

variable {n : ℕ} (next : Fin n → List (Fin n))

/-- The next places, and then what lies beyond each of them, in at most so many steps. -/
def walk : ℕ → Fin n → List (Fin n)
  | 0, _ => []
  | k + 1, v => next v ++ (next v).flatMap (walk k)

/-- No walk from the place goes on for ever. -/
def Ends (v : Fin n) : Prop := Acc (fun c u => c ∈ next u) v

/-- Links that lead to smaller places only. -/
theorem ends_of_lt {next : Fin n → List (Fin n)} (h : ∀ u, ∀ c ∈ next u, c < u) (v : Fin n) :
    Ends next v :=
  Subrelation.accessible (fun {c u} hc => h u c hc) (wellFounded_lt.apply v)

/-- Links that lead to greater places only. -/
theorem ends_of_gt {next : Fin n → List (Fin n)} (h : ∀ u, ∀ c ∈ next u, u < c) (v : Fin n) :
    Ends next v :=
  Subrelation.accessible (fun {c u} hc => h u c hc) (wellFounded_gt.apply v)

open Classical in
/-- Where walks from the place lead, the place included. -/
noncomputable def reach (v : Fin n) : Finset (Fin n) :=
  {u | Relation.ReflTransGen (fun c u => c ∈ next u) u v}

variable {next} {v c : Fin n}

theorem walk_succ (k : ℕ) (v : Fin n) :
    walk next (k + 1) v = next v ++ (next v).flatMap (walk next k) := rfl

theorem mem_reach {u : Fin n} :
    u ∈ reach next v ↔ Relation.ReflTransGen (fun c u => c ∈ next u) u v := by
  simp [reach]

theorem card_reach_pos (v : Fin n) : 0 < (reach next v).card :=
  Finset.card_pos.2 ⟨v, mem_reach.2 .refl⟩

theorem card_reach_lt (hv : Ends next v) (hc : c ∈ next v) :
    (reach next c).card < (reach next v).card := by
  have hsub : reach next c ⊆ reach next v := fun u hu => mem_reach.2 ((mem_reach.1 hu).tail hc)
  apply Finset.card_lt_card
  apply (Finset.ssubset_iff_of_subset hsub).2
  refine ⟨v, mem_reach.2 .refl, fun hmem => ?_⟩
  -- a way from `c` back to `v` would close a circle
  exact not_rel_of_acc hv.transGen (.tail' (mem_reach.1 hmem) hc)

/-- A walk that may take a step for each place it can come to has no use for another one. -/
theorem walk_succ_eq {k : ℕ} (h : Ends next v) (hk : (reach next v).card ≤ k + 1) :
    walk next (k + 1) v = walk next k v := by
  induction k generalizing v with
  | zero =>
    cases hnext : next v with
    | nil => rw [walk_succ, hnext]; rfl
    | cons c rest =>
      have hc : c ∈ next v := hnext ▸ List.mem_cons_self
      have hlt := card_reach_lt h hc
      have hpos : 0 < (reach next c).card := card_reach_pos c
      omega
  | succ k ih =>
    rw [walk_succ (k + 1), walk_succ k v]
    congr 1
    apply List.flatMap_congr
    intro c hc
    have hlt := card_reach_lt h hc
    exact ih (h.inv hc) (by omega)

/-- A walk begins with the next places. -/
theorem prefix_walk (v : Fin n) : next v <+: walk next n v := by
  obtain ⟨m, rfl⟩ : ∃ m, n = m + 1 := ⟨n - 1, by have := v.isLt; omega⟩
  rw [walk_succ]
  exact List.prefix_append _ _

theorem subset_walk (cascade : Bool) :
    (if cascade then walk next n v else next v) ⊆ walk next n v := by
  cases cascade with
  | true => exact List.Subset.refl _
  | false => exact (prefix_walk v).subset

/-- As many steps as there are places are enough. -/
theorem walk_all (h : ∀ c ∈ next v, Ends next c) :
    walk next n v = next v ++ (next v).flatMap (walk next n) := by
  obtain ⟨m, rfl⟩ : ∃ m, n = m + 1 := ⟨n - 1, by have := v.isLt; omega⟩
  rw [walk_succ]
  congr 1
  apply List.flatMap_congr
  intro c hc
  exact (walk_succ_eq (h c hc) (card_finset_fin_le _)).symm

/-- A walk that ends comes to all places that the links lead to. -/
theorem mem_walk_iff {u : Fin n} (h : Ends next v) :
    u ∈ walk next n v ↔ Relation.TransGen (fun a b => b ∈ next a) v u := by
  induction h with
  | intro v hv ih =>
    rw [walk_all hv, List.mem_append, List.mem_flatMap]
    constructor
    · rintro (hu | ⟨c, hc, hu⟩)
      · exact .single hu
      · exact .head hc ((ih c hc).1 hu)
    · intro hu
      obtain ⟨c, hc, hrest⟩ := Relation.TransGen.head'_iff.1 hu
      obtain rfl | hrest := Relation.reflTransGen_iff_eq_or_transGen.1 hrest
      · exact .inl hc
      · exact .inr ⟨c, hc, (ih c hc).2 hrest⟩

end

variable (g : NodeGraph)

def parents (v : Fin g.size) : List (Fin g.size) := (g.parent v).toList

variable {g}

theorem descendantsWithin_eq_walk (k : ℕ) (v : Fin g.size) :
    g.descendantsWithin k v = walk g.children k v := by
  induction k generalizing v with
  | zero => rfl
  | succ k ih =>
    rw [descendantsWithin, walk_succ, funext ih]

theorem ancestorsWithin_eq_walk (k : ℕ) (v : Fin g.size) :
    g.ancestorsWithin k v = walk g.parents k v := by
  induction k generalizing v with
  | zero => rfl
  | succ k ih =>
    rw [ancestorsWithin, walk_succ, parents]
    cases g.parent v with
    | none => rfl
    | some p => simp [ih p]

theorem ancestors_eq_walk : g.ancestors = walk g.parents g.size :=
  funext (ancestorsWithin_eq_walk g.size)

theorem descendants_eq_walk : g.descendants = walk g.children g.size :=
  funext (descendantsWithin_eq_walk g.size)

variable {v : Fin g.size}

theorem mem_parents {u : Fin g.size} : u ∈ g.parents v ↔ g.parent v = some u := Option.mem_toList

theorem parents_of_none (h : g.parent v = none) : g.parents v = [] := by
  rw [parents, h, Option.toList_none]

theorem parents_of_some {p : Fin g.size} (h : g.parent v = some p) : g.parents v = [p] := by
  rw [parents, h, Option.toList_some]

/-- Where the way up ends, it goes on from the parent as it does from the node. -/
theorem chain_eq (h : Ends g.parents v) : g.chain v = v :: (g.parents v).flatMap g.chain := by
  rw [chain, ancestors_eq_walk, walk_all fun c hc => h.inv hc]
  cases hp : g.parent v with
  | none => rw [parents_of_none hp]; rfl
  | some p => rw [parents_of_some hp, List.flatMap_singleton, List.flatMap_singleton, chain,
      ancestors_eq_walk, List.singleton_append]

end NodeGraph

namespace Item

open NodeGraph

variable {g : NodeGraph} {v : Fin g.size} {item : Item}

theorem targets_self (h : item.target = .self) : item.targets g v = [v] := by
  rw [targets, h]

theorem targets_parent (h : item.target = .parent) :
    item.targets g v = if item.cascade then walk g.parents g.size v else g.parents v := by
  rw [targets, h, ← ancestors_eq_walk]
  cases item.cascade <;> rfl

theorem targets_children (h : item.target = .children) :
    item.targets g v = if item.cascade then walk g.children g.size v else g.children v := by
  rw [targets, h, ← descendants_eq_walk]
  cases item.cascade <;> rfl

end Item

end FocusRules
