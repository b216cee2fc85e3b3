import FocusRules.RuleSet
import FocusRules.Proofs.Relatives

/-! Which nodes are available. On the way up from a node the first one that says something decides,
so a node is hidden by a root node that comes last among the children of some node on the way,
unless a root node was met by then. Putting such a tree behind the children of an element hides what
is in its subtree, as far as nothing was decided below it, and nothing else. -/

namespace FocusRules

namespace NodeGraph

variable {g : NodeGraph} {v : Fin g.size} {ns : List (Fin g.size)}

/-- The nodes from one up to a root, each of them followed by its parent. -/
inductive WayUp (g : NodeGraph) : Fin g.size → List (Fin g.size) → Prop
  | root {v : Fin g.size} : g.parent v = none → WayUp g v [v]
  | step {v p : Fin g.size} {ns : List (Fin g.size)} :
      g.parent v = some p → WayUp g p ns → WayUp g v (v :: ns)

theorem WayUp.ends (h : g.WayUp v ns) : Ends g.parents v := by
  induction h with
  | root h =>
    refine .intro _ fun c hc => ?_
    rw [mem_parents, h] at hc
    cases hc
  | step h _ ih =>
    refine .intro _ fun c hc => ?_
    rw [mem_parents, h] at hc
    exact Option.some.inj hc ▸ ih

theorem WayUp.chain_eq (h : g.WayUp v ns) : g.chain v = ns := by
  induction h with
  | root h => rw [NodeGraph.chain_eq (WayUp.root h).ends, parents_of_none h]; rfl
  | step h hrest ih =>
    rw [NodeGraph.chain_eq (WayUp.step h hrest).ends, parents_of_some h, List.flatMap_singleton, ih]

end NodeGraph

namespace TypeClasses

open NodeGraph

variable {types : TypeClasses}

section

variable {g : NodeGraph} {v : Fin g.size}

/-- A root node comes last among the children. -/
def Covers (types : TypeClasses) (g : NodeGraph) (v : Fin g.size) : Prop :=
  ∃ c, (g.children v).getLast? = some c ∧ types.isRoot (g.node c) = true

theorem availableBy_of_root (h : types.isRoot (g.node v) = true) :
    types.availableBy g v = some true := by
  rw [availableBy, if_pos h]

theorem availableBy_of_covers (h : types.isRoot (g.node v) = false) (hc : types.Covers g v) :
    types.availableBy g v = some false := by
  rw [availableBy, if_neg (by simp [h]), if_pos ((Option.any_eq_true _ _).2 hc)]

theorem availableBy_of_neither (h : types.isRoot (g.node v) = false) (hc : ¬types.Covers g v) :
    types.availableBy g v = none := by
  rw [availableBy, if_neg (by simp [h]),
    if_neg fun hany => hc ((Option.any_eq_true _ _).1 hany)]

/-- The first node that says something hides, if a root node covers the children of some node and
none of the nodes up to that one is a root node. -/
theorem findSome?_availableBy_iff (types : TypeClasses) (g : NodeGraph) (ns : List (Fin g.size)) :
    (ns.findSome? (types.availableBy g)).getD true = false ↔
      ∃ i n, ns[i]? = some n ∧ types.Covers g n ∧
        ∀ u ∈ ns.take (i + 1), types.isRoot (g.node u) = false := by
  induction ns with
  | nil => simp
  | cons n ns ih =>
    rw [List.findSome?_cons]
    cases hroot : types.isRoot (g.node n) with
    | true =>
      rw [availableBy_of_root hroot]
      refine ⟨nofun, ?_⟩
      rintro ⟨i, -, -, -, hnone⟩
      have hn := hnone n List.mem_cons_self
      simp [hroot] at hn
    | false =>
      by_cases hcovers : types.Covers g n
      · rw [availableBy_of_covers hroot hcovers]
        refine iff_of_true rfl ⟨0, n, rfl, hcovers, fun u hu => ?_⟩
        exact List.mem_singleton.1 hu ▸ hroot
      · rw [availableBy_of_neither hroot hcovers]
        refine ih.trans ⟨?_, ?_⟩
        · rintro ⟨i, u, hu, hc, hnone⟩
          exact ⟨i + 1, u, hu, hc, List.forall_mem_cons.2 ⟨hroot, hnone⟩⟩
        · rintro ⟨i, u, hu, hc, hnone⟩
          cases i with
          | zero => exact absurd (Option.some.inj hu ▸ hc) hcovers
          | succ i => exact ⟨i, u, hu, hc, (List.forall_mem_cons.1 hnone).2⟩

theorem isAvailable_eq_false_iff {ns : List (Fin g.size)} (h : g.WayUp v ns) :
    types.isAvailable g v = false ↔ ∃ i n, ns[i]? = some n ∧ types.Covers g n ∧
      ∀ u ∈ ns.take (i + 1), types.isRoot (g.node u) = false := by
  rw [isAvailable, h.chain_eq, findSome?_availableBy_iff]

end

open Element

variable {e d s t : Element} {p q : List ℕ} {k : ℕ}

/-- What one element on the way up says about availability. -/
def decision (types : TypeClasses) (e : Element) : Option Bool :=
  if types.isRoot e.node then some true
  else if e.children.getLast?.any (fun c => types.isRoot c.node) then some false
  else none

def decisionAt (types : TypeClasses) (e : Element) (p : List ℕ) : Option Bool :=
  (e.at? p).bind types.decision

/-- The availability of the element at the end of a path. -/
def availableAlong (types : TypeClasses) (e : Element) (p : List ℕ) : Bool :=
  (p.inits.reverse.findSome? (types.decisionAt e)).getD true

theorem availableBy_graph (v : Fin e.graph.size) :
    types.availableBy e.graph v = types.decisionAt e (e.path v) := by
  obtain ⟨s, hs, -⟩ := exists_at_path v
  have hlast : ((e.graph.children v).getLast?.any fun c => types.isRoot (e.graph.node c)) =
      s.children.getLast?.any fun c => types.isRoot c.node := by
    rw [← Option.any_map (p := types.isRoot), ← List.getLast?_map, map_node_children hs,
      List.getLast?_map, Option.any_map]
  rw [decisionAt, hs, Option.bind_some, availableBy, node_graph hs, hlast, decision]

theorem isAvailable_graph (v : Fin e.graph.size) :
    types.isAvailable e.graph v = types.availableAlong e (e.path v) := by
  rw [isAvailable, availableAlong, ← map_path_chain, List.findSome?_map,
    funext availableBy_graph]
  rfl

theorem availableAlong_nil : types.availableAlong e [] = (types.decisionAt e []).getD true := by
  have hinits : ([] : List ℕ).inits.reverse = [[]] := rfl
  rw [availableAlong, hinits, List.findSome?_cons]
  cases types.decisionAt e [] <;> rfl

theorem availableAlong_concat (p : List ℕ) (k : ℕ) :
    types.availableAlong e (p ++ [k]) =
      (types.decisionAt e (p ++ [k])).getD (types.availableAlong e p) := by
  have hinits : (p ++ [k]).inits.reverse = (p ++ [k]) :: p.inits.reverse := by
    rw [List.inits_append, List.reverse_append]
    rfl
  rw [availableAlong, availableAlong, hinits, List.findSome?_cons]
  cases types.decisionAt e (p ++ [k]) <;> rfl

end TypeClasses

namespace Element

/-- The tree with another one as the last child of the element at the end of a path. -/
def graft : Element → List ℕ → Element → Element
  | e, [], d => e.add [d]
  | e, k :: p, d => mk e.id e.attributes e.modal (e.children.modify k fun c => c.graft p d)

variable {e d s t : Element} {p q : List ℕ} {j k : ℕ}

theorem children_add (e d : Element) : (e.add [d]).children = e.children ++ [d] := rfl

theorem at?_graft_cons_self :
    (e.graft (k :: p) d).at? (k :: q) = e.children[k]?.bind fun c => (c.graft p d).at? q := by
  have hchild : (e.graft (k :: p) d).children[k]? = e.children[k]?.map fun c => c.graft p d := by
    rw [graft, children, List.getElem?_modify]
    simp
  rw [at?, hchild, Option.bind_map]
  rfl

theorem at?_graft_cons_of_ne (h : j ≠ k) : (e.graft (k :: p) d).at? (j :: q) = e.at? (j :: q) := by
  have hchild : (e.graft (k :: p) d).children[j]? = e.children[j]? := by
    rw [graft, children, List.getElem?_modify]
    simp [h.symm]
  rw [at?, hchild, at?]

/-- The tree hangs where it was put. -/
theorem at?_graft_self (h : e.at? p = some s) : (e.graft p d).at? p = some (s.add [d]) := by
  induction p generalizing e with
  | nil =>
    obtain rfl : e = s := Option.some.inj h
    rfl
  | cons k p ih =>
    obtain ⟨c, hc, hs⟩ := at?_cons_eq_some_iff.1 h
    rw [at?_graft_cons_self, hc, Option.bind_some, ih hs]

/-- What was below stays. -/
theorem at?_graft_below (hq : q ≠ []) (h : e.at? (p ++ q) = some s) :
    (e.graft p d).at? (p ++ q) = some s := by
  induction p generalizing e with
  | nil =>
    obtain ⟨k, q, rfl⟩ := List.exists_cons_of_ne_nil hq
    obtain ⟨c, hc, hs⟩ := at?_cons_eq_some_iff.1 h
    obtain ⟨hlt, -⟩ := List.getElem?_eq_some_iff.1 hc
    refine at?_cons_eq_some_iff.2 ⟨c, ?_, hs⟩
    rw [graft, children_add, List.getElem?_append_left hlt, hc]
  | cons j p ih =>
    obtain ⟨c, hc, hs⟩ := at?_cons_eq_some_iff.1 h
    rw [List.cons_append, at?_graft_cons_self, hc, Option.bind_some, ih hs]

/-- Each path that led to an element still does. -/
theorem exists_at_graft (h : e.at? q = some s) (p : List ℕ) (d : Element) :
    ∃ t, (e.graft p d).at? q = some t := by
  induction p generalizing e q with
  | nil =>
    cases q with
    | nil => exact ⟨_, rfl⟩
    | cons k q => exact ⟨s, at?_graft_below (p := []) (List.cons_ne_nil k q) h⟩
  | cons k p ih =>
    cases q with
    | nil => exact ⟨_, rfl⟩
    | cons j q =>
      by_cases hjk : j = k
      · obtain ⟨c, hc, hs⟩ := at?_cons_eq_some_iff.1 h
        subst hjk
        rw [at?_graft_cons_self, hc, Option.bind_some]
        exact ih hs
      · exact ⟨s, (at?_graft_cons_of_ne hjk).trans h⟩

end Element

namespace TypeClasses

open NodeGraph Element

variable {types : TypeClasses} {e d s t : Element} {p q : List ℕ} {k : ℕ}

theorem isRoot_graft (types : TypeClasses) (e : Element) (p : List ℕ) (d : Element) :
    types.isRoot (e.graft p d).node = types.isRoot e.node := by
  cases p <;> rfl

/-- A change further down is no change of the last child's type. -/
theorem decision_graft_cons : types.decision (e.graft (k :: p) d) = types.decision e := by
  have hlast : ((e.graft (k :: p) d).children.getLast?.any fun c => types.isRoot c.node) =
      e.children.getLast?.any fun c => types.isRoot c.node := by
    rw [graft, Element.children, List.getLast?_eq_getElem?, List.length_modify,
      List.getElem?_modify, ← List.getLast?_eq_getElem?]
    cases e.children.getLast? with
    | none => rfl
    | some c =>
      change types.isRoot (if _ then _ else _ : Element).node = types.isRoot c.node
      split
      · exact isRoot_graft types c p d
      · rfl
  rw [decision, decision, isRoot_graft, hlast]

theorem decisionAt_graft_beside (h : ¬p <+: q) :
    types.decisionAt (e.graft p d) q = types.decisionAt e q := by
  induction p generalizing e q with
  | nil => exact absurd List.nil_prefix h
  | cons k p ih =>
    cases q with
    | nil => exact decision_graft_cons
    | cons j q =>
      rw [decisionAt, decisionAt]
      by_cases hjk : j = k
      · subst hjk
        have hrest : ¬p <+: q := fun hpq => h (List.cons_prefix_cons.2 ⟨rfl, hpq⟩)
        rw [at?_graft_cons_self, at?, Option.bind_assoc, Option.bind_assoc]
        exact Option.bind_congr fun c _ => ih hrest
      · rw [at?_graft_cons_of_ne hjk]

/-- A root tree behind the children hides, unless their parent is itself a root. -/
theorem decisionAt_graft_self (hd : types.isRoot d.node = true) (h : e.at? p = some s) :
    types.decisionAt (e.graft p d) p = some (types.isRoot s.node) := by
  have hlast : ((s.add [d]).children.getLast?.any fun c => types.isRoot c.node) = true := by
    rw [children_add, List.getLast?_concat, Option.any_some, hd]
  have hroot : types.isRoot (s.add [d]).node = types.isRoot s.node := rfl
  rw [decisionAt, at?_graft_self h, Option.bind_some, decision, hroot, hlast]
  cases types.isRoot s.node <;> rfl

theorem decisionAt_graft_below (hq : q ≠ []) (h : e.at? (p ++ q) = some s) :
    types.decisionAt (e.graft p d) (p ++ q) = types.decisionAt e (p ++ q) := by
  rw [decisionAt, decisionAt, at?_graft_below hq h, h]

theorem availableAlong_of_decisionAt {b : Bool} (h : types.decisionAt e p = some b) :
    types.availableAlong e p = b := by
  rcases List.eq_nil_or_concat' p with rfl | ⟨p, k, rfl⟩
  · rw [availableAlong_nil, h, Option.getD_some]
  · rw [availableAlong_concat, h, Option.getD_some]

/-- Where nothing is decided below an element, the answer is that of the element. -/
theorem availableAlong_of_undecided
    (h : ∀ r, r ≠ [] → r <+: q → types.decisionAt e (p ++ r) = none) :
    types.availableAlong e (p ++ q) = types.availableAlong e p := by
  induction q using List.reverseRecOn with
  | nil => rw [List.append_nil]
  | append_singleton q k ih =>
    rw [← List.append_assoc, availableAlong_concat, List.append_assoc,
      h (q ++ [k]) (by simp) List.prefix_rfl, Option.getD_none]
    exact ih fun r hr hrq => h r hr (hrq.trans (List.prefix_append q [k]))

theorem availableAlong_graft_beside (h : ¬p <+: q) :
    types.availableAlong (e.graft p d) q = types.availableAlong e q := by
  induction q using List.reverseRecOn with
  | nil => rw [availableAlong_nil, availableAlong_nil, decisionAt_graft_beside h]
  | append_singleton q k ih =>
    have hq : ¬p <+: q := fun hpq => h (hpq.trans (List.prefix_append q [k]))
    rw [availableAlong_concat, availableAlong_concat, decisionAt_graft_beside h, ih hq]

theorem availableAlong_graft_of_decided (hat : e.at? (p ++ q) = some s)
    (h : ∃ r, r ≠ [] ∧ r <+: q ∧ types.decisionAt e (p ++ r) ≠ none) :
    types.availableAlong (e.graft p d) (p ++ q) = types.availableAlong e (p ++ q) := by
  induction q using List.reverseRecOn generalizing s with
  | nil =>
    obtain ⟨r, hr, hrq, -⟩ := h
    exact absurd (List.prefix_nil.1 hrq) hr
  | append_singleton q k ih =>
    have hsame : types.decisionAt (e.graft p d) (p ++ (q ++ [k])) =
        types.decisionAt e (p ++ (q ++ [k])) := decisionAt_graft_below (by simp) hat
    rw [← List.append_assoc] at hat hsame ⊢
    rw [availableAlong_concat, availableAlong_concat, hsame]
    cases hk : types.decisionAt e (p ++ q ++ [k]) with
    | some b => rfl
    | none =>
      -- so it is decided nearer to the top
      obtain ⟨t, ht⟩ := exists_at_of_prefix hat (List.prefix_append (p ++ q) [k])
      obtain ⟨r, hr, hrq, hdecided⟩ := h
      rcases List.prefix_concat_iff.1 hrq with rfl | hrq
      · exact absurd (List.append_assoc p q [k] ▸ hk) hdecided
      · rw [Option.getD_none, Option.getD_none]
        exact ih ht ⟨r, hr, hrq, hdecided⟩

/-- Where nothing is decided below, only a root element keeps its subtree available. -/
theorem availableAlong_graft_of_undecided (hd : types.isRoot d.node = true)
    (hp : e.at? p = some s) (hat : e.at? (p ++ q) = some t)
    (h : ∀ r, r ≠ [] → r <+: q → types.decisionAt e (p ++ r) = none) :
    types.availableAlong (e.graft p d) (p ++ q) = types.isRoot s.node := by
  have hgraft : ∀ r, r ≠ [] → r <+: q → types.decisionAt (e.graft p d) (p ++ r) = none := by
    intro r hr hrq
    obtain ⟨u, hu⟩ := exists_at_of_prefix hat ((List.prefix_append_right_inj p).2 hrq)
    rw [decisionAt_graft_below hr hu, h r hr hrq]
  rw [availableAlong_of_undecided hgraft]
  exact availableAlong_of_decisionAt (decisionAt_graft_self hd hp)

/-- A root element decides for its subtree, with and without another root tree in it. -/
theorem availableAlong_graft_of_root (hd : types.isRoot d.node = true) (hp : e.at? p = some s)
    (hs : types.isRoot s.node = true) (hat : e.at? (p ++ q) = some t) :
    types.availableAlong (e.graft p d) (p ++ q) = types.availableAlong e (p ++ q) := by
  by_cases h : ∃ r, r ≠ [] ∧ r <+: q ∧ types.decisionAt e (p ++ r) ≠ none
  · exact availableAlong_graft_of_decided hat h
  · have hnone : ∀ r, r ≠ [] → r <+: q → types.decisionAt e (p ++ r) = none :=
      fun r hr hrq => not_not.1 fun hne => h ⟨r, hr, hrq, hne⟩
    have hroot : types.decisionAt e p = some true := by
      rw [decisionAt, hp, Option.bind_some, decision, if_pos hs]
    rw [availableAlong_graft_of_undecided hd hp hat hnone, availableAlong_of_undecided hnone,
      availableAlong_of_decisionAt hroot, hs]

/-- On the way up from the second element something is decided strictly below the first. -/
def DecidedBelow (types : TypeClasses) (e : Element) (w v : Fin e.graph.size) : Prop :=
  ∃ u, e.Above w u ∧ e.path u <+: e.path v ∧ types.availableBy e.graph u ≠ none

instance (w v : Fin e.graph.size) : Decidable (types.DecidedBelow e w v) :=
  inferInstanceAs (Decidable (∃ _, _))

theorem decidedBelow_iff {w v : Fin e.graph.size} (h : e.path v = e.path w ++ q) :
    types.DecidedBelow e w v ↔
      ∃ r, r ≠ [] ∧ r <+: q ∧ types.decisionAt e (e.path w ++ r) ≠ none := by
  constructor
  · rintro ⟨u, hwu, huv, hu⟩
    obtain ⟨k, r, hr⟩ := above_iff.1 hwu
    rw [hr, h, List.prefix_append_right_inj] at huv
    rw [availableBy_graph, hr] at hu
    exact ⟨k :: r, List.cons_ne_nil k r, huv, hu⟩
  · rintro ⟨r, hr, hrq, hdecided⟩
    have hprefix : e.path w ++ r <+: e.path v := h ▸ (List.prefix_append_right_inj _).2 hrq
    obtain ⟨u, hu⟩ := exists_path_of_prefix hprefix
    obtain ⟨k, r, rfl⟩ := List.exists_cons_of_ne_nil hr
    refine ⟨u, above_iff.2 ⟨k, r, hu⟩, hu ▸ hprefix, ?_⟩
    rwa [availableBy_graph, hu]

end TypeClasses

namespace RuleSet

open NodeGraph Element TypeClasses

/-- A node is hidden where a root node comes last among the children of some node on its way up and
none of the nodes up to that one is a root node. So a root tree that is put behind the children of
an element leaves all elements outside as they are. In the subtree an element stays as it is if its
way up is decided below or the element at the top is a root, and is hidden if not. -/
theorem hidden_by_last_root (m : RuleSet) :
    (∀ (g : NodeGraph) (v : Fin g.size) (ns : List (Fin g.size)), g.WayUp v ns →
      (m.types.isAvailable g v = false ↔ ∃ i n, ns[i]? = some n ∧
        (∃ c, (g.children n).getLast? = some c ∧ m.types.isRoot (g.node c) = true) ∧
        ∀ u ∈ ns.take (i + 1), m.types.isRoot (g.node u) = false)) ∧
    ∀ (e d : Element) (w : Fin e.graph.size), m.types.isRoot d.node = true →
      ∀ v : Fin e.graph.size, ∃ v' : Fin (e.graft (e.path w) d).graph.size,
        (e.graft (e.path w) d).path v' = e.path v ∧
        (¬e.path w <+: e.path v → m.types.isAvailable (e.graft (e.path w) d).graph v' =
          m.types.isAvailable e.graph v) ∧
        (e.path w <+: e.path v →
          m.types.DecidedBelow e w v ∨ m.types.isRoot (e.graph.node w) = true →
          m.types.isAvailable (e.graft (e.path w) d).graph v' = m.types.isAvailable e.graph v) ∧
        (e.path w <+: e.path v →
          ¬(m.types.DecidedBelow e w v ∨ m.types.isRoot (e.graph.node w) = true) →
          m.types.isAvailable (e.graft (e.path w) d).graph v' = false) := by
  constructor
  · intro g v ns hway
    exact isAvailable_eq_false_iff hway
  · intro e d w hd v
    obtain ⟨s, hs, -⟩ := exists_at_path v
    obtain ⟨t, ht, -⟩ := exists_at_path w
    obtain ⟨s', hs'⟩ := exists_at_graft hs (e.path w) d
    obtain ⟨v', hv'⟩ := exists_path_eq hs'
    refine ⟨v', hv', ?_⟩
    rw [isAvailable_graph, isAvailable_graph, hv', node_graph ht]
    refine ⟨availableAlong_graft_beside, ?_, ?_⟩
    · rintro ⟨q, hq⟩ hkept
      rw [decidedBelow_iff hq.symm] at hkept
      rw [← hq] at hs ⊢
      rcases hkept with hdecided | hroot
      · exact availableAlong_graft_of_decided hs hdecided
      · exact availableAlong_graft_of_root hd ht hroot hs
    · rintro ⟨q, hq⟩ hlost
      rw [decidedBelow_iff hq.symm, not_or] at hlost
      rw [← hq] at hs ⊢
      obtain ⟨hundecided, hroot⟩ := hlost
      rw [availableAlong_graft_of_undecided hd ht hs fun r hr hrq =>
        not_not.1 fun hne => hundecided ⟨r, hr, hrq, hne⟩]
      exact Bool.eq_false_iff.2 hroot

def dialogsAreRoots : RuleSet where
  types := { root := .ofList ["dialog"] }

def dialog : Element := .mk 9 { type := some "Dialog" } true [.mk 10 {} true []]

def rowAndImage : Element :=
  .mk 1 {} true [
    .mk 2 {} true [.mk 3 {} true [], .mk 4 { type := some "DIALOG" } true [.mk 5 {} true []]],
    .mk 6 {} true []]

theorem hidden_by_last_root_dialog :
    let column : Fin rowAndImage.graph.size := ⟨0, by decide⟩
    let row : Fin rowAndImage.graph.size := ⟨1, by decide⟩
    let button : Fin rowAndImage.graph.size := ⟨2, by decide⟩
    let inDialog : Fin rowAndImage.graph.size := ⟨4, by decide⟩
    let image : Fin rowAndImage.graph.size := ⟨5, by decide⟩
    let types := dialogsAreRoots.types
    (rowAndImage.graph.WayUp button [button, row, column] ∧
      types.isAvailable rowAndImage.graph button = false) ∧
    types.isRoot dialog.node = true ∧
    (¬rowAndImage.path row <+: rowAndImage.path image ∧
      ∃ v', (rowAndImage.graft (rowAndImage.path row) dialog).path v' = rowAndImage.path image ∧
        types.isAvailable (rowAndImage.graft (rowAndImage.path row) dialog).graph v' = true) ∧
    (types.DecidedBelow rowAndImage column inDialog ∧
      ∃ v', (rowAndImage.graft (rowAndImage.path column) dialog).path v' =
          rowAndImage.path inDialog ∧
        types.isAvailable (rowAndImage.graft (rowAndImage.path column) dialog).graph v' = true) ∧
    ¬types.DecidedBelow rowAndImage column image ∧
      ∃ v', (rowAndImage.graft (rowAndImage.path column) dialog).path v' =
          rowAndImage.path image ∧
        types.isAvailable (rowAndImage.graft (rowAndImage.path column) dialog).graph v' =
          false := by
  intro column row button inDialog image types
  obtain ⟨hhidden, hgraft⟩ := hidden_by_last_root dialogsAreRoots
  have hway : rowAndImage.graph.WayUp button [button, row, column] :=
    .step (by decide) (.step (by decide) (.root (by decide)))
  have hblocked : types.isAvailable rowAndImage.graph button = false := by
    refine (hhidden _ _ _ hway).2 ⟨1, row, rfl, ⟨⟨3, by decide⟩, by decide, by decide +kernel⟩, ?_⟩
    decide +kernel
  have hdialog : types.isRoot dialog.node = true := by decide +kernel
  have houtside : ¬rowAndImage.path row <+: rowAndImage.path image := by decide
  have hdecided : types.DecidedBelow rowAndImage column inDialog := by decide +kernel
  have hundecided : ¬types.DecidedBelow rowAndImage column image := by decide +kernel
  have hcolumn : ¬types.isRoot (rowAndImage.graph.node column) = true := by decide +kernel
  have himage : types.isAvailable rowAndImage.graph image = true := by decide +kernel
  have htext : types.isAvailable rowAndImage.graph inDialog = true := by decide +kernel
  obtain ⟨v, hv, hsame, -, -⟩ := hgraft rowAndImage dialog row hdialog image
  obtain ⟨u, hu, -, hkept, -⟩ := hgraft rowAndImage dialog column hdialog inDialog
  obtain ⟨w, hw, -, -, hlost⟩ := hgraft rowAndImage dialog column hdialog image
  refine ⟨⟨hway, hblocked⟩, hdialog, ⟨houtside, v, hv, (hsame houtside).trans himage⟩,
    ⟨hdecided, u, hu, (hkept (by decide) (.inl hdecided)).trans htext⟩, hundecided, w, hw, ?_⟩
  exact hlost (by decide) (not_or.2 ⟨hundecided, hcolumn⟩)

end RuleSet

end FocusRules
