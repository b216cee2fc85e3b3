import FocusRules.Proofs.Paths
import FocusRules.Proofs.Walks
import Mathlib.Data.List.Infix

/-! Cascade in a tree. Children with cascade are all elements below, the children first and then
what is below each of them, and parents with cascade are all elements above, up to the root. No
element is listed twice, and an element is below another where the other is above it. -/

namespace FocusRules

namespace Element

open NodeGraph

variable {e s : Element} {v u w : Fin e.graph.size} {k : ℕ}

/-- The one element is a strict ancestor of the other: its path is a part of the other's. -/
def Above (e : Element) (v u : Fin e.graph.size) : Prop := e.path v <+: e.path u ∧ v ≠ u

instance (v u : Fin e.graph.size) : Decidable (e.Above v u) := inferInstanceAs (Decidable (_ ∧ _))

theorem above_iff : e.Above v u ↔ ∃ k p, e.path u = e.path v ++ k :: p := by
  constructor
  · rintro ⟨⟨p, hp⟩, hne⟩
    cases p with
    | nil => exact absurd (e.path_injective (by rw [← hp, List.append_nil])) hne
    | cons k p => exact ⟨k, p, hp.symm⟩
  · rintro ⟨k, p, hp⟩
    refine ⟨⟨k :: p, hp.symm⟩, ?_⟩
    rintro rfl
    simp at hp

theorem above_of_step (h : e.path u = e.path v ++ [k]) : e.Above v u := above_iff.2 ⟨k, [], h⟩

theorem Above.trans (h : e.Above v u) (h' : e.Above u w) : e.Above v w := by
  obtain ⟨k, p, hp⟩ := above_iff.1 h
  refine above_iff.2 ⟨k, p ++ (e.path w).drop (e.path u).length, ?_⟩
  obtain ⟨q, hq⟩ := h'.1
  rw [← hq, List.drop_left, hp, List.append_assoc, List.cons_append]

theorem mem_parents_graph_iff : u ∈ e.graph.parents v ↔ v ∈ e.graph.children u := by
  rw [mem_parents, parent_graph_eq_some_iff, mem_children_graph_iff]

/-- Steps down lead to the elements below. -/
theorem transGen_children_iff :
    Relation.TransGen (fun a b => b ∈ e.graph.children a) v u ↔ e.Above v u := by
  constructor
  · intro h
    induction h with
    | single hc =>
      obtain ⟨k, hk⟩ := mem_children_graph_iff.1 hc
      exact above_of_step hk
    | tail _ hc ih =>
      obtain ⟨k, hk⟩ := mem_children_graph_iff.1 hc
      exact ih.trans (above_of_step hk)
  · rintro ⟨⟨p, hp⟩, hne⟩
    -- from the last step of the way up to the first
    induction p using List.reverseRecOn generalizing u with
    | nil => exact absurd (e.path_injective (by rw [← hp, List.append_nil])) hne
    | append_singleton p k ih =>
      rw [← List.append_assoc] at hp
      obtain ⟨w, hw⟩ := exists_path_of_prefix ⟨[k], hp⟩
      have hc : u ∈ e.graph.children w := mem_children_graph_iff.2 ⟨k, by rw [hw, hp]⟩
      by_cases hvw : v = w
      · exact .single (hvw ▸ hc)
      · exact .tail (ih hvw hw.symm) hc

/-- Steps up lead to the elements above. -/
theorem transGen_parents_iff :
    Relation.TransGen (fun a b => b ∈ e.graph.parents a) u v ↔ e.Above v u := by
  rw [← transGen_children_iff, ← Relation.transGen_swap]
  simp only [mem_parents_graph_iff]

theorem lt_of_mem_children (h : u ∈ e.graph.children v) : v < u := by
  obtain ⟨k, hk⟩ := mem_children_graph_iff.1 h
  obtain ⟨s, hs, -⟩ := exists_at_path v
  have hplace := placeOf_append_singleton hs k
  rw [← hk, placeOf_path, placeOf_path] at hplace
  apply Fin.lt_def.2
  omega

theorem ends_children (v : Fin e.graph.size) : Ends e.graph.children v :=
  ends_of_gt (fun _ _ => lt_of_mem_children) v

theorem ends_parents (v : Fin e.graph.size) : Ends e.graph.parents v :=
  ends_of_lt (fun _ _ hc => lt_of_mem_children (mem_parents_graph_iff.1 hc)) v

theorem mem_walk_children_iff : u ∈ walk e.graph.children e.graph.size v ↔ e.Above v u :=
  (mem_walk_iff (ends_children v)).trans transGen_children_iff

theorem mem_walk_parents_iff : u ∈ walk e.graph.parents e.graph.size v ↔ e.Above u v :=
  (mem_walk_iff (ends_parents v)).trans transGen_parents_iff

theorem nodup_children (v : Fin e.graph.size) : (e.graph.children v).Nodup := by
  obtain ⟨s, hs, -⟩ := exists_at_path v
  apply List.Nodup.of_map e.path
  rw [map_path_children hs]
  refine List.Nodup.map (fun i j hij => ?_) List.nodup_range
  simpa using hij

/-- What is below one child is not below another. -/
theorem disjoint_walk_children {c c' : Fin e.graph.size} (hc : c ∈ e.graph.children v)
    (hc' : c' ∈ e.graph.children v) (hne : c ≠ c') :
    (walk e.graph.children e.graph.size c).Disjoint (walk e.graph.children e.graph.size c') := by
  intro u hu hu'
  obtain ⟨k, hk⟩ := mem_children_graph_iff.1 hc
  obtain ⟨k', hk'⟩ := mem_children_graph_iff.1 hc'
  have hpre := (mem_walk_children_iff.1 hu).1
  have hpre' := (mem_walk_children_iff.1 hu').1
  have hlen : (e.path c).length = (e.path c').length := by simp [hk, hk']
  apply hne
  apply e.path_injective
  exact (List.prefix_of_prefix_length_le hpre hpre' hlen.le).eq_of_length hlen

theorem nodup_walk_children (v : Fin e.graph.size) :
    (walk e.graph.children e.graph.size v).Nodup := by
  induction ends_children v with
  | intro v hv ih =>
    rw [walk_all hv]
    refine (nodup_children v).append ?_ ?_
    · refine List.nodup_flatMap.2 ⟨ih, ?_⟩
      exact (nodup_children v).pairwise_of_forall_ne fun _ hc _ hc' => disjoint_walk_children hc hc'
    · intro u hu hbelow
      obtain ⟨c, hc, hcu⟩ := List.mem_flatMap.1 hbelow
      -- a child is one step below and cannot be below another child
      obtain ⟨k, hk⟩ := mem_children_graph_iff.1 hu
      obtain ⟨k', hk'⟩ := mem_children_graph_iff.1 hc
      obtain ⟨j, p, hp⟩ := above_iff.1 (mem_walk_children_iff.1 hcu)
      have hlen := congrArg List.length (hk.symm.trans hp)
      simp [hk'] at hlen

/-- The way up shortens the path step by step, to that of the root. -/
theorem map_path_chain (v : Fin e.graph.size) :
    (e.graph.chain v).map e.path = (e.path v).inits.reverse := by
  induction ends_parents v with
  | intro v hv ih =>
    rw [chain_eq (.intro v hv)]
    rcases List.eq_nil_or_concat' (e.path v) with hnil | ⟨p, k, hp⟩
    · have hroot : e.graph.parent v = none := by
        apply Option.eq_none_iff_forall_ne_some.2
        intro u hu
        obtain ⟨k, hk⟩ := parent_graph_eq_some_iff.1 hu
        simp [hnil] at hk
      rw [parents_of_none hroot, hnil, List.flatMap_nil, List.map_singleton, hnil]
      rfl
    · obtain ⟨u, hu⟩ := exists_path_of_prefix ⟨[k], hp.symm⟩
      have hparent : e.graph.parent v = some u := parent_graph_eq_some_iff.2 ⟨k, hu ▸ hp⟩
      rw [parents_of_some hparent, List.flatMap_singleton, List.map_cons,
        ih u (mem_parents.2 hparent), hu, hp, List.inits_append, List.reverse_append]
      rfl

theorem map_path_walk_parents (v : Fin e.graph.size) :
    (walk e.graph.parents e.graph.size v).map e.path = (e.path v).inits.reverse.tail := by
  rw [← map_path_chain, chain, List.map_cons, List.tail_cons, ancestors_eq_walk]

theorem nodup_walk_parents (v : Fin e.graph.size) :
    (walk e.graph.parents e.graph.size v).Nodup := by
  induction ends_parents v with
  | intro v hv ih =>
    rw [walk_all hv]
    cases hp : e.graph.parent v with
    | none => rw [parents_of_none hp]; exact List.nodup_nil
    | some p =>
      rw [parents_of_some hp, List.flatMap_singleton, List.singleton_append]
      refine List.nodup_cons.2 ⟨fun hself => ?_, ih p (mem_parents.2 hp)⟩
      exact (mem_walk_parents_iff.1 hself).2 rfl

/-- The places of a tree's graph are the ends of its paths. An item that cascades looks at all
elements below, or at all above, each of them once: at the children in order and then at what each
of them looks at, or at the ancestors from the nearest to the root. Without cascade it looks at the
first of these. What is below an element has the element above it. -/
theorem cascade_lists_relatives (e : Element) (item : Item) (v : Fin e.graph.size) :
    let look := fun target cascade (u : Fin e.graph.size) =>
      ({ item with target := target, cascade := cascade } : Item).targets e.graph u
    (Function.Injective e.path ∧ ∀ p, (∃ s, e.at? p = some s) ↔ ∃ u, e.path u = p) ∧
    ((∃ s, e.at? (e.path v) = some s ∧ (look .children false v).map e.path =
        (List.range s.children.length).map fun k => e.path v ++ [k]) ∧
      look .children true v =
        look .children false v ++ (look .children false v).flatMap (look .children true) ∧
      (look .children true v).Nodup ∧ ∀ u, u ∈ look .children true v ↔ e.Above v u) ∧
    ((look .parent true v).map e.path = (e.path v).inits.reverse.tail ∧
      (look .parent true v).Nodup ∧ ∀ u, u ∈ look .parent true v ↔ e.Above u v) ∧
    look .children false v <+: look .children true v ∧
    look .parent false v <+: look .parent true v ∧
    ∀ u, u ∈ look .children true v ↔ v ∈ look .parent true u := by
  intro look
  have hchildren : look .children true = walk e.graph.children e.graph.size :=
    funext fun _ => Item.targets_children rfl
  have hparents : look .parent true = walk e.graph.parents e.graph.size :=
    funext fun _ => Item.targets_parent rfl
  have hbelow : ∀ u, u ∈ look .children true v ↔ e.Above v u := by
    rw [hchildren]
    exact fun u => mem_walk_children_iff
  have habove : ∀ u w, w ∈ look .parent true u ↔ e.Above w u := by
    rw [hparents]
    exact fun u w => mem_walk_parents_iff
  refine ⟨⟨e.path_injective, fun _ => exists_at_iff⟩, ⟨?_, ?_, ?_, hbelow⟩,
    ⟨?_, ?_, habove v⟩, ?_, ?_, fun u => ?_⟩
  · obtain ⟨s, hs, -⟩ := exists_at_path v
    exact ⟨s, hs, map_path_children hs⟩
  · rw [hchildren]
    exact walk_all fun c _ => ends_children c
  · rw [hchildren]
    exact nodup_walk_children v
  · rw [hparents]
    exact map_path_walk_parents v
  · rw [hparents]
    exact nodup_walk_parents v
  · rw [hchildren]
    exact prefix_walk v
  · rw [hparents]
    exact prefix_walk v
  · rw [hbelow, habove]

def columnOfRows : Element :=
  .mk 1 {} true [
    .mk 2 {} true [.mk 4 {} true [.mk 7 {} true []], .mk 5 {} true []],
    .mk 3 {} true [.mk 6 {} true []]]

example : (columnOfRows.graph.descendants ⟨0, by decide⟩).map columnOfRows.graph.id =
    [2, 3, 4, 5, 7, 6] := by decide

end Element

end FocusRules
