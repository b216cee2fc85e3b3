import FocusRules.Proofs.Relatives

/-! Trees as they are built. The graph of a tree mirrors what was put together: the same elements in
the same order, each of them below the one that it was added to. Listing an element before what is
below its children gives the places in ascending order, and the search for an id finds the first
place in such a list whose element has it. -/

namespace FocusRules

namespace NodeGraph

variable (g : NodeGraph)

def preorderWithin : ℕ → Fin g.size → List (Fin g.size)
  | 0, _ => []
  | k + 1, v => v :: (g.children v).flatMap (preorderWithin k)

def preorder (v : Fin g.size) : List (Fin g.size) := g.preorderWithin g.size v

/-- The node carries what the element does, and so do the children of both, in order. -/
inductive Mirrors (g : NodeGraph) : Fin g.size → Element → Prop
  | mk {v : Fin g.size} {s : Element} : g.id v = s.id → (g.node v).attributes = s.attributes →
      (g.node v).modal = s.modal → List.Forall₂ (Mirrors g) (g.children v) s.children →
      Mirrors g v s

variable {g} {v : Fin g.size}

/-- Steps for all places that can be reached are enough. -/
theorem preorderWithin_eq {k m : ℕ} (h : Ends g.children v) (hk : (reach g.children v).card ≤ k)
    (hm : (reach g.children v).card ≤ m) : g.preorderWithin k v = g.preorderWithin m v := by
  have hpos : 0 < (reach g.children v).card := card_reach_pos v
  induction k generalizing v m with
  | zero => omega
  | succ k ih =>
    obtain ⟨m, rfl⟩ : ∃ n, m = n + 1 := ⟨m - 1, by omega⟩
    rw [preorderWithin, preorderWithin]
    congr 1
    apply List.flatMap_congr
    intro c hc
    have hlt := card_reach_lt h hc
    exact ih (h.inv hc) (by omega) (by omega) (card_reach_pos c)

theorem preorder_eq (h : Ends g.children v) :
    g.preorder v = v :: (g.children v).flatMap g.preorder := by
  have hle : ∀ u : Fin g.size, (reach g.children u).card ≤ g.size :=
    fun u => card_finset_fin_le _
  have hmore : g.preorder v = g.preorderWithin (g.size + 1) v :=
    preorderWithin_eq h (hle v) ((hle v).trans g.size.le_succ)
  exact hmore

end NodeGraph

namespace Element

open NodeGraph

variable {e s c : Element} {l : List Element} {p : List ℕ} {i k : ℕ} {x : NodeId}

/-- Calls that add children one after the other, each of them one child or several. -/
def addAll (e : Element) (calls : List (List Element)) : Element := calls.foldl add e

theorem addAll_eq (e : Element) (calls : List (List Element)) :
    e.addAll calls = mk e.id e.attributes e.modal (e.children ++ calls.flatten) := by
  induction calls generalizing e with
  | nil => rw [List.flatten_nil, List.append_nil]; cases e; rfl
  | cons more calls ih =>
    have hstep : e.addAll (more :: calls) = (e.add more).addAll calls := rfl
    rw [hstep, ih, List.flatten_cons, ← List.append_assoc]
    rfl

theorem childrenCount_eq_some_iff {n : Int32} :
    e.childrenCount = some n ↔ n.toInt = e.children.length := by
  have hmax : Int32.maxValue.toInt = 2147483647 := rfl
  rw [childrenCount]
  split
  next h =>
    have hlt : e.children.length < 2 ^ 31 := by omega
    rw [Option.some.injEq, ← Int32.toInt_inj, Int32.toInt_ofNat_of_lt hlt]
    exact eq_comm
  next h =>
    have hle : n.toInt ≤ 2147483647 := Int32.toInt_le n
    exact iff_of_false nofun (by omega)

theorem childrenCount_eq_none_iff : e.childrenCount = none ↔ 2147483647 < e.children.length := by
  have hmax : Int32.maxValue.toInt = 2147483647 := rfl
  rw [childrenCount]
  split
  next h => exact iff_of_false nofun (by omega)
  next h => exact iff_of_true rfl (by omega)

mutual

/-- The search goes through the elements in the order in which they are listed. -/
theorem find?_eq_findIdx? (x : NodeId) : ∀ e : Element,
    e.find? x = e.preorder.findIdx? (·.id = x)
  | mk id attributes modal children => by
    rw [find?, preorder, List.findIdx?_cons, findIn?_eq_findIdx? x children, Element.id]
    by_cases h : id = x
    · rw [if_pos h, if_pos (decide_eq_true h)]
    · rw [if_neg h, if_neg (by simpa using h)]

theorem findIn?_eq_findIdx? (x : NodeId) : ∀ l : List Element,
    findIn? x l = (preorders l).findIdx? (·.id = x)
  | [] => rfl
  | e :: rest => by
    rw [findIn?, preorders, List.findIdx?_append, find?_eq_findIdx? x e,
      findIn?_eq_findIdx? x rest, length_preorder]
    cases e.preorder.findIdx? (·.id = x) <;> rfl

end

theorem getElem?_preorders (h : l[k]? = some c) (hi : i < c.size) :
    (preorders l)[sizes (l.take k) + i]? = c.preorder[i]? :=
  getElem?_blocks (fun _ _ => preorder) (fun _ _ => preorders)
    (fun _ _ _ _ => by rw [preorders]) (fun _ _ => length_preorder) h hi 0 0

theorem preorder_eq (e : Element) : e.preorder = e :: preorders e.children := by
  cases e; rw [preorder]; rfl

/-- An element is listed at its place. -/
theorem getElem?_preorder (h : e.at? p = some s) : e.preorder[e.placeOf p]? = some s := by
  induction p generalizing e with
  | nil =>
    obtain rfl : e = s := Option.some.inj h
    rw [preorder_eq, placeOf, List.getElem?_cons_zero]
  | cons k p ih =>
    obtain ⟨c, hc, hs⟩ := at?_cons_eq_some_iff.1 h
    rw [placeOf_cons hc, preorder_eq, Nat.add_right_comm, List.getElem?_cons_succ,
      getElem?_preorders hc (placeOf_lt hs), ih hs]

theorem preorders_eq (l : List Element) : preorders l = l.flatMap preorder := by
  induction l with
  | nil => rfl
  | cons a l ih => rw [preorders, ih, List.flatMap_cons]

variable {v u : Fin e.graph.size}

/-- The children in the graph lead to those of the element, one to one. -/
theorem forall₂_children (h : e.at? (e.path v) = some s) :
    List.Forall₂ (fun u t => u ∈ e.graph.children v ∧ e.at? (e.path u) = some t)
      (e.graph.children v) s.children := by
  refine List.forall₂_iff_get.2 ⟨length_children_graph h, fun k hk hk' => ?_⟩
  rw [List.get_eq_getElem, List.get_eq_getElem]
  have hpath := getElem?_children_graph.1 (List.getElem?_eq_getElem hk)
  refine ⟨List.getElem_mem hk, ?_⟩
  rw [hpath, at?_append_singleton h, List.getElem?_eq_getElem hk']

theorem map_val_children (h : e.at? (e.path v) = some s) :
    (e.graph.children v).map Fin.val = starts (v + 1) s.children := by
  have hplace : (e.graph.children v).map Fin.val =
      ((e.graph.children v).map e.path).map e.placeOf := by
    rw [List.map_map]
    exact List.map_congr_left fun u _ => (placeOf_path u).symm
  have hstarts := starts_placeOf h
  rw [placeOf_path] at hstarts
  rw [hplace, map_path_children h, List.map_map, hstarts]
  rfl

/-- Blocks of places that begin where trees do fill the places of the trees. -/
theorem flatMap_starts {n start : ℕ} {cs : List (Fin n)} {block : Fin n → List ℕ}
    (h : List.Forall₂ (fun c t => block c = List.range' c t.size) cs l)
    (hstarts : cs.map Fin.val = starts start l) :
    cs.flatMap block = List.range' start (sizes l) := by
  induction h generalizing start with
  | nil => rfl
  | @cons c t cs l hc _ ih =>
    rw [List.map_cons, starts, List.cons.injEq] at hstarts
    obtain ⟨hstart, hrest⟩ := hstarts
    rw [List.flatMap_cons, hc, ih hrest, hstart, sizes]
    simp

/-- What is listed from an element on are the places of its subtree, in ascending order. -/
theorem map_val_preorder (h : e.at? (e.path v) = some s) :
    (e.graph.preorder v).map Fin.val = List.range' v s.size := by
  induction ends_children v generalizing s with
  | intro v hv ih =>
    have hblocks : List.Forall₂ (fun c t =>
        (e.graph.preorder c).map Fin.val = List.range' c t.size) (e.graph.children v) s.children :=
      (forall₂_children h).imp fun c t hc => ih c hc.1 hc.2
    rw [NodeGraph.preorder_eq (ends_children v), List.map_cons, List.map_flatMap,
      flatMap_starts hblocks (map_val_children h), size_eq, List.range'_succ]

/-- The places are listed as the elements are. -/
theorem forall₂_preorder (h : e.at? (e.path v) = some s) :
    List.Forall₂ (fun u t => e.at? (e.path u) = some t) (e.graph.preorder v) s.preorder := by
  induction ends_children v generalizing s with
  | intro v hv ih =>
    have hblocks : List.Forall₂ (fun c t =>
        List.Forall₂ (fun u t => e.at? (e.path u) = some t) (e.graph.preorder c) t.preorder)
        (e.graph.children v) s.children :=
      (forall₂_children h).imp fun c t hc => ih c hc.1 hc.2
    rw [NodeGraph.preorder_eq (ends_children v), preorder_eq, preorders_eq]
    exact .cons h (List.rel_flatMap hblocks fun _ _ hc => hc)

theorem mirrors_of_at (h : e.at? (e.path v) = some s) : e.graph.Mirrors v s := by
  induction ends_children v generalizing s with
  | intro v hv ih =>
    have hnode := node_graph h
    refine .mk (congrArg Node.id hnode) ?_ ?_ ?_
    · rw [hnode]; rfl
    · rw [hnode]; rfl
    · exact (forall₂_children h).imp fun c t hc => ih c hc.1 hc.2

/-- A search among places goes as the search among the elements there does. -/
theorem map_val_find? {n start : ℕ} {p : Fin n → Bool} {q : Element → Bool} {us : List (Fin n)}
    (h : List.Forall₂ (fun u t => p u = q t) us l)
    (hplaces : us.map Fin.val = List.range' start l.length) :
    (us.find? p).map Fin.val = (l.findIdx? q).map (start + ·) := by
  induction h generalizing start with
  | nil => rfl
  | @cons u t us l hu _ ih =>
    rw [List.map_cons, List.length_cons, List.range'_succ, List.cons.injEq] at hplaces
    obtain ⟨hstart, hrest⟩ := hplaces
    rw [List.find?_cons, List.findIdx?_cons, hu]
    cases q t with
    | true => simp [hstart]
    | false =>
      rw [ih hrest]
      simp [Function.comp_def, Nat.add_assoc, Nat.add_comm 1]

theorem findFrom?_eq (v : Fin e.graph.size) (x : NodeId) :
    e.findFrom? v x = ((e.graph.preorder v).find? fun u => e.graph.id u = x).map Fin.val := by
  obtain ⟨s, hs, hv⟩ := exists_at_path v
  have hsub : e.preorder[v.val]? = some s := hv ▸ getElem?_preorder hs
  have hids : List.Forall₂ (fun u t => decide (e.graph.id u = x) = decide (t.id = x))
      (e.graph.preorder v) s.preorder := by
    refine (forall₂_preorder hs).imp fun u t hu => ?_
    have hid : e.graph.id u = t.id := congrArg Node.id (node_graph hu)
    rw [hid]
  rw [findFrom?, hsub, Option.bind_some, find?_eq_findIdx?,
    map_val_find? hids (by rw [map_val_preorder hs, length_preorder])]

theorem findFrom?_eq_some_iff : e.findFrom? v x = some u.val ↔ ∃ before after,
    e.graph.preorder v = before ++ u :: after ∧ e.graph.id u = x ∧
      ∀ w ∈ before, e.graph.id w ≠ x := by
  rw [findFrom?_eq, Option.map_eq_some_iff]
  simp only [Fin.val_inj, exists_eq_right, List.find?_eq_some_iff_append]
  constructor
  · rintro ⟨hu, before, after, hlist, hbefore⟩
    exact ⟨before, after, hlist, by simpa using hu, by simpa using hbefore⟩
  · rintro ⟨before, after, hlist, hu, hbefore⟩
    exact ⟨by simpa using hu, before, after, hlist, by simpa using hbefore⟩

theorem findFrom?_eq_none_iff :
    e.findFrom? v x = none ↔ ∀ u ∈ e.graph.preorder v, e.graph.id u ≠ x := by
  rw [findFrom?_eq, Option.map_eq_none_iff, List.find?_eq_none]
  simp

def root (e : Element) : Fin e.graph.size := ⟨0, by rw [graph_size, size_eq]; exact Nat.succ_pos _⟩

theorem path_root (e : Element) : e.path e.root = [] := path_eq_of_placeOf (s := e) rfl rfl

theorem eq_root_iff : v = e.root ↔ e.path v = [] := by
  rw [← path_root, e.path_injective.eq_iff]

theorem parent_root (e : Element) : e.graph.parent e.root = none := by
  apply Option.eq_none_iff_forall_ne_some.2
  intro u hu
  obtain ⟨k, hk⟩ := parent_graph_eq_some_iff.1 hu
  simp [path_root] at hk

theorem preorder_root (e : Element) : e.graph.preorder e.root = e.graph.places := by
  have hroot : e.at? (e.path e.root) = some e := by rw [path_root]; rfl
  apply List.map_injective_iff.2 Fin.val_injective
  rw [map_val_preorder hroot, places, List.map_coe_finRange_eq_range, List.range_eq_range',
    ← graph_size]
  rfl

/-- An element below the root stands at one place among the children of its parent and nowhere
else. -/
theorem exists_unique_link (h : v ≠ e.root) :
    ∃ (u : Fin e.graph.size) (k : ℕ), e.graph.parent v = some u ∧
      ∀ (w : Fin e.graph.size) (j : ℕ), (e.graph.children w)[j]? = some v ↔ w = u ∧ j = k := by
  rcases List.eq_nil_or_concat' (e.path v) with hnil | ⟨p, k, hp⟩
  · exact absurd (eq_root_iff.2 hnil) h
  obtain ⟨u, hu⟩ := exists_path_of_prefix ⟨[k], hp.symm⟩
  refine ⟨u, k, parent_graph_eq_some_iff.2 ⟨k, hu ▸ hp⟩, fun w j => ?_⟩
  rw [getElem?_children_graph, hp, ← hu]
  constructor
  · intro hw
    obtain ⟨hpath, hk⟩ := List.append_inj' hw rfl
    exact ⟨e.path_injective hpath.symm, (List.singleton_inj.1 hk).symm⟩
  · rintro ⟨rfl, rfl⟩
    rfl

/-- A tree that is put together by calls, its graph and the search in it. The calls append children
and keep all else, and the graph mirrors the whole: it has the elements, and no others, with what
they carry and with their children in order. The root is no child and has no parent, each other
element is once a child, of its parent, and children are counted as far as the count has 32 bits.
From each element the search finds the first with an id where an element is listed before what is
below its children in turn, or none if there is none. -/
theorem mirrors_what_is_built (start : Element) (calls : List (List Element)) :
    let e := start.addAll calls
    e = mk start.id start.attributes start.modal (start.children ++ calls.flatten) ∧
    (e.graph.Mirrors e.root e ∧ e.graph.preorder e.root = e.graph.places) ∧
    (e.graph.parent e.root = none ∧ (∀ w, e.root ∉ e.graph.children w) ∧
      ∀ v, v ≠ e.root → ∃ (u : Fin e.graph.size) (k : ℕ), e.graph.parent v = some u ∧
        ∀ (w : Fin e.graph.size) (j : ℕ), (e.graph.children w)[j]? = some v ↔ w = u ∧ j = k) ∧
    (∀ v, (∀ n : Int32, (e.graph.node v).childrenCount = some n ↔
        n.toInt = (e.graph.children v).length) ∧
      ((e.graph.node v).childrenCount = none ↔ 2147483647 < (e.graph.children v).length)) ∧
    ∀ v, e.graph.preorder v = v :: (e.graph.children v).flatMap e.graph.preorder ∧
      ∀ x, (∀ u : Fin e.graph.size, e.findFrom? v x = some u.val ↔ ∃ before after,
          e.graph.preorder v = before ++ u :: after ∧ e.graph.id u = x ∧
            ∀ w ∈ before, e.graph.id w ≠ x) ∧
        (e.findFrom? v x = none ↔ ∀ u ∈ e.graph.preorder v, e.graph.id u ≠ x) := by
  intro e
  have hroot : e.at? (e.path e.root) = some e := by rw [path_root]; rfl
  refine ⟨addAll_eq start calls, ⟨mirrors_of_at hroot, preorder_root e⟩,
    ⟨parent_root e, fun w hw => ?_, fun v hv => exists_unique_link hv⟩, fun v => ?_, fun v => ?_⟩
  · obtain ⟨k, hk⟩ := mem_children_graph_iff.1 hw
    simp [path_root] at hk
  · obtain ⟨s, hs, -⟩ := exists_at_path v
    rw [node_graph hs, length_children_graph hs]
    exact ⟨fun n => childrenCount_eq_some_iff, childrenCount_eq_none_iff⟩
  · exact ⟨NodeGraph.preorder_eq (ends_children v),
      fun x => ⟨fun u => findFrom?_eq_some_iff, findFrom?_eq_none_iff⟩⟩

def twinCalls : List (List Element) :=
  [[.mk 2 { type := some "Row" } true [.mk 5 { text := some "deep" } true []]],
    [.mk 5 { text := some "flat" } false [], .mk 3 {} true []]]

theorem mirrors_what_is_built_twins :
    let e := (mk 1 {} true []).addAll twinCalls
    let v : Fin e.graph.size := ⟨3, by decide⟩
    let deep : Fin e.graph.size := ⟨2, by decide⟩
    (e.children.map id = [2, 5, 3] ∧ e.graph.Mirrors e.root e) ∧
      (v ≠ e.root ∧ (e.graph.node v).attributes.text = some "flat" ∧
        ∃ (u : Fin e.graph.size) (k : ℕ), e.graph.parent v = some u ∧
          ∀ (w : Fin e.graph.size) (j : ℕ), (e.graph.children w)[j]? = some v ↔ w = u ∧ j = k) ∧
      e.findFrom? e.root 5 = some deep.val ∧ e.findFrom? v 3 = none := by
  intro e v deep
  have hv : v ≠ e.root := by decide
  obtain ⟨-, ⟨hmirrors, -⟩, ⟨-, -, hlink⟩, -, hfind⟩ :=
    mirrors_what_is_built (mk 1 {} true []) twinCalls
  have hlisted : e.graph.preorder e.root =
      [e.root, ⟨1, by decide⟩] ++ deep :: [v, ⟨4, by decide⟩] := by decide
  refine ⟨⟨by decide, hmirrors⟩, ⟨hv, by decide, hlink v hv⟩, ?_, ?_⟩
  · exact (((hfind e.root).2 5).1 deep).2 ⟨_, _, hlisted, by decide, by decide⟩
  · exact ((hfind v).2 3).2.2 (by decide)

end Element

end FocusRules
