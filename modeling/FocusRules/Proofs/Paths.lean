import FocusRules.Element
import Mathlib.Data.List.Basic
import Mathlib.Data.List.Infix

/-! Paths into a tree. An element is known by the way down to it, the index of a child for each
step, also where ids repeat. The places of the graph are the elements in pre-order, so a path has a
place, and each place has one path. Parent and children in the graph are a step up and a step down.
-/

namespace FocusRules

namespace Element

/-- The element at the end of a path. -/
def at? : Element → List ℕ → Option Element
  | e, [] => some e
  | e, k :: p => e.children[k]?.bind fun c => c.at? p

/-- The place of the element at the end of a path, which comes after all elements before it. -/
def placeOf : Element → List ℕ → ℕ
  | _, [] => 0
  | e, k :: p => sizes (e.children.take k) + 1 + e.children[k]?.elim 0 fun c => c.placeOf p

mutual

/-- The paths to all elements, in pre-order. -/
def paths : Element → List (List ℕ)
  | mk _ _ _ children => [] :: pathsFrom 0 children

def pathsFrom (k : ℕ) : List Element → List (List ℕ)
  | [] => []
  | e :: rest => (paths e).map (k :: ·) ++ pathsFrom (k + 1) rest

end

mutual

theorem length_paths : ∀ e : Element, e.paths.length = e.size
  | mk _ _ _ children => by rw [paths, size, List.length_cons, length_pathsFrom 0 children]

theorem length_pathsFrom (k : ℕ) : ∀ l : List Element, (pathsFrom k l).length = sizes l
  | [] => rfl
  | e :: rest => by
    rw [pathsFrom, sizes, List.length_append, List.length_map, length_paths e,
      length_pathsFrom (k + 1) rest]

end

def path (e : Element) (v : Fin e.graph.size) : List ℕ :=
  e.paths.get (v.cast (e.graph_size.trans e.length_paths.symm))

variable {e s c : Element} {l : List Element} {p q : List ℕ} {i j k : ℕ}

theorem at?_cons_eq_some_iff :
    e.at? (k :: p) = some s ↔ ∃ c, e.children[k]? = some c ∧ c.at? p = some s := by
  rw [at?, Option.bind_eq_some_iff]

theorem at?_append (e : Element) (p q : List ℕ) :
    e.at? (p ++ q) = (e.at? p).bind fun s => s.at? q := by
  induction p generalizing e with
  | nil => rfl
  | cons k p ih =>
    rw [List.cons_append, at?, at?, Option.bind_assoc]
    exact Option.bind_congr fun c _ => ih c

theorem at?_append_singleton (h : e.at? p = some s) (k : ℕ) :
    e.at? (p ++ [k]) = s.children[k]? := by
  rw [at?_append, h, Option.bind_some, at?]
  exact Option.bind_fun_some _

/-- What leads to an element leads to all elements on the way. -/
theorem exists_at_of_prefix (h : e.at? q = some s) (hp : p <+: q) : ∃ t, e.at? p = some t := by
  obtain ⟨r, rfl⟩ := hp
  rw [at?_append, Option.bind_eq_some_iff] at h
  obtain ⟨t, ht, -⟩ := h
  exact ⟨t, ht⟩

theorem size_eq (e : Element) : e.size = sizes e.children + 1 := by
  cases e; rw [size]; rfl

theorem sizes_take_add_size_le (h : l[k]? = some c) : sizes (l.take k) + c.size ≤ sizes l := by
  induction l generalizing k with
  | nil => simp at h
  | cons a l ih =>
    cases k with
    | zero =>
      obtain rfl : a = c := by simpa using h
      rw [List.take_zero, sizes, sizes]
      omega
    | succ k =>
      rw [List.take_succ_cons, sizes, sizes]
      have := ih (by simpa using h)
      omega

theorem placeOf_cons (h : e.children[k]? = some c) (p : List ℕ) :
    e.placeOf (k :: p) = sizes (e.children.take k) + 1 + c.placeOf p := by
  rw [placeOf, h, Option.elim_some]

/-- A subtree occupies the places from its own on. -/
theorem placeOf_add_size_le (h : e.at? p = some s) : e.placeOf p + s.size ≤ e.size := by
  induction p generalizing e with
  | nil =>
    obtain rfl : e = s := Option.some.inj h
    rw [placeOf, Nat.zero_add]
  | cons k p ih =>
    obtain ⟨c, hc, hs⟩ := at?_cons_eq_some_iff.1 h
    have hle := ih hs
    have hchild := sizes_take_add_size_le hc
    rw [placeOf_cons hc, size_eq e]
    omega

theorem placeOf_lt (h : e.at? p = some s) : e.placeOf p < e.size := by
  have hle := placeOf_add_size_le h
  rw [size_eq s] at hle
  omega

theorem placeOf_append_singleton (h : e.at? p = some s) (k : ℕ) :
    e.placeOf (p ++ [k]) = e.placeOf p + 1 + sizes (s.children.take k) := by
  induction p generalizing e with
  | nil =>
    obtain rfl : e = s := Option.some.inj h
    have hzero : (e.children[k]?.elim 0 fun c => c.placeOf []) = 0 := by
      cases e.children[k]? <;> rfl
    rw [List.nil_append, placeOf, placeOf, hzero]
    omega
  | cons j p ih =>
    obtain ⟨c, hc, hs⟩ := at?_cons_eq_some_iff.1 h
    rw [List.cons_append, placeOf_cons hc, placeOf_cons hc, ih hs]
    omega

/-- The children stand where their paths say. -/
theorem starts_eq (start : ℕ) (l : List Element) :
    starts start l = (List.range l.length).map fun k => start + sizes (l.take k) := by
  induction l generalizing start with
  | nil => rfl
  | cons a l ih =>
    rw [starts, ih, List.length_cons, List.range_succ_eq_map, List.map_cons, List.map_map]
    congr 1
    apply List.map_congr_left
    intro k _
    rw [Function.comp_apply, List.take_succ_cons, sizes]
    omega

theorem starts_placeOf (h : e.at? p = some s) :
    starts (e.placeOf p + 1) s.children =
      (List.range s.children.length).map fun k => e.placeOf (p ++ [k]) := by
  rw [starts_eq]
  exact List.map_congr_left fun k _ => (placeOf_append_singleton h k).symm

theorem paths_eq (e : Element) : e.paths = [] :: pathsFrom 0 e.children := by
  cases e; rw [paths]; rfl

theorem rows_eq (parent : Option ℕ) (start : ℕ) (e : Element) :
    e.rows parent start =
      ⟨e.node, parent, starts (start + 1) e.children⟩ :: rowsOf start (start + 1) e.children := by
  cases e; rw [rows]; rfl

/-- In a list of blocks, one for each tree and as long as the tree has elements, what stands in a
block is found behind all blocks before it. A block may depend on the index of its tree and on the
place where it begins. -/
theorem getElem?_blocks {α : Type} (block : ℕ → ℕ → Element → List α)
    (blocks : ℕ → ℕ → List Element → List α)
    (hblocks : ∀ j start a l,
      blocks j start (a :: l) = block j start a ++ blocks (j + 1) (start + a.size) l)
    (hlength : ∀ j start a, (block j start a).length = a.size)
    (h : l[k]? = some c) (hi : i < c.size) (j start : ℕ) :
    (blocks j start l)[sizes (l.take k) + i]? =
      (block (j + k) (start + sizes (l.take k)) c)[i]? := by
  induction l generalizing k j start with
  | nil => simp at h
  | cons a l ih =>
    cases k with
    | zero =>
      obtain rfl : a = c := by simpa using h
      rw [hblocks, List.take_zero, sizes, Nat.zero_add, List.getElem?_append_left]
      · rfl
      · rwa [hlength]
    | succ k =>
      rw [hblocks, List.take_succ_cons, sizes, List.getElem?_append_right]
      · rw [hlength, Nat.add_assoc, Nat.add_sub_cancel_left, ih (by simpa using h),
          Nat.add_right_comm, Nat.add_assoc j, Nat.add_assoc start]
      · rw [hlength]
        omega

theorem getElem?_pathsFrom (h : l[k]? = some c) (hi : i < c.size) :
    (pathsFrom j l)[sizes (l.take k) + i]? = c.paths[i]?.map ((j + k) :: ·) := by
  have hblocks := getElem?_blocks (fun j _ a => a.paths.map (j :: ·)) (fun j _ => pathsFrom j)
    (fun _ _ _ _ => by rw [pathsFrom])
    (fun _ _ a => by rw [List.length_map, length_paths]) h hi j 0
  rw [hblocks, List.getElem?_map]

theorem getElem?_paths (h : e.at? p = some s) : e.paths[e.placeOf p]? = some p := by
  induction p generalizing e with
  | nil => rw [paths_eq, placeOf, List.getElem?_cons_zero]
  | cons k p ih =>
    obtain ⟨c, hc, hs⟩ := at?_cons_eq_some_iff.1 h
    rw [placeOf_cons hc, paths_eq, Nat.add_right_comm, List.getElem?_cons_succ,
      getElem?_pathsFrom hc (placeOf_lt hs), ih hs, Option.map_some, Nat.zero_add]

theorem getElem?_rowsOf {parent start : ℕ} (h : l[k]? = some c) (hi : i < c.size) :
    (rowsOf parent start l)[sizes (l.take k) + i]? =
      (c.rows (some parent) (start + sizes (l.take k)))[i]? :=
  getElem?_blocks (fun _ => rows (some parent)) (fun _ => rowsOf parent)
    (fun _ _ _ _ => by rw [rowsOf]) (fun _ => length_rows (some parent)) h hi 0 start

/-- The row of an element links to the place one step up, if there is a step. -/
theorem getElem?_rows (parent : Option ℕ) (start : ℕ) (h : e.at? p = some s) :
    (e.rows parent start)[e.placeOf p]? = some ⟨s.node,
      if p = [] then parent else some (start + e.placeOf p.dropLast),
      starts (start + e.placeOf p + 1) s.children⟩ := by
  induction p generalizing e parent start with
  | nil =>
    obtain rfl : e = s := Option.some.inj h
    rw [rows_eq, placeOf, List.getElem?_cons_zero, if_pos rfl, Nat.add_zero]
  | cons k p ih =>
    obtain ⟨c, hc, hs⟩ := at?_cons_eq_some_iff.1 h
    have hrow : (e.rows parent start)[e.placeOf (k :: p)]? =
        (c.rows (some start) (start + 1 + sizes (e.children.take k)))[c.placeOf p]? := by
      rw [placeOf_cons hc, rows_eq, Nat.add_right_comm, List.getElem?_cons_succ,
        getElem?_rowsOf hc (placeOf_lt hs)]
    have hparent : (if p = [] then some start
        else some (start + 1 + sizes (e.children.take k) + c.placeOf p.dropLast)) =
          some (start + e.placeOf (k :: p).dropLast) := by
      cases p with
      | nil => rfl
      | cons j p =>
        rw [if_neg (List.cons_ne_nil j p), List.dropLast_cons_of_ne_nil (List.cons_ne_nil j p),
          placeOf_cons hc]
        congr 1
        omega
    rw [hrow, ih _ _ hs, hparent, if_neg (List.cons_ne_nil k p), placeOf_cons hc]
    congr 3
    omega

theorem exists_tree_at (h : i < sizes l) :
    ∃ k c j, l[k]? = some c ∧ j < c.size ∧ i = sizes (l.take k) + j := by
  induction l generalizing i with
  | nil => simp [sizes] at h
  | cons a l ih =>
    rw [sizes] at h
    by_cases hi : i < a.size
    · exact ⟨0, a, i, rfl, hi, (Nat.zero_add i).symm⟩
    · obtain ⟨k, c, j, hc, hj, hk⟩ := ih (i := i - a.size) (by omega)
      refine ⟨k + 1, c, j, hc, hj, ?_⟩
      rw [List.take_succ_cons, sizes]
      omega

theorem exists_placeOf_eq (h : i < e.size) : ∃ p s, e.at? p = some s ∧ e.placeOf p = i := by
  induction i using Nat.strong_induction_on generalizing e with
  | _ i ih =>
    cases i with
    | zero => exact ⟨[], e, rfl, rfl⟩
    | succ i =>
      rw [size_eq] at h
      obtain ⟨k, c, j, hc, hj, hi⟩ := exists_tree_at (Nat.lt_of_succ_lt_succ h)
      obtain ⟨p, s, hs, hp⟩ := ih j (by omega) hj
      refine ⟨k :: p, s, at?_cons_eq_some_iff.2 ⟨c, hc, hs⟩, ?_⟩
      rw [placeOf_cons hc, hp]
      omega

variable {v u : Fin e.graph.size}

theorem path_eq_of_placeOf (h : e.at? p = some s) (hv : e.placeOf p = v) : e.path v = p := by
  have hpath := getElem?_paths h
  rw [hv] at hpath
  obtain ⟨_, hget⟩ := List.getElem?_eq_some_iff.1 hpath
  exact hget

/-- The path of a place leads to an element, which stands at that place. -/
theorem exists_at_path (v : Fin e.graph.size) :
    ∃ s, e.at? (e.path v) = some s ∧ e.placeOf (e.path v) = v := by
  have hv : v < e.size := v.isLt.trans_eq e.graph_size
  obtain ⟨p, s, hs, hp⟩ := exists_placeOf_eq hv
  rw [path_eq_of_placeOf hs hp]
  exact ⟨s, hs, hp⟩

theorem placeOf_path (v : Fin e.graph.size) : e.placeOf (e.path v) = v := by
  obtain ⟨s, -, hv⟩ := exists_at_path v
  exact hv

theorem path_injective (e : Element) : Function.Injective e.path := by
  intro v u h
  apply Fin.ext
  rw [← placeOf_path v, ← placeOf_path u, h]

theorem exists_path_eq (h : e.at? p = some s) : ∃ v, e.path v = p := by
  have hlt : e.placeOf p < e.graph.size := (placeOf_lt h).trans_eq e.graph_size.symm
  exact ⟨⟨e.placeOf p, hlt⟩, path_eq_of_placeOf h rfl⟩

theorem exists_at_iff : (∃ s, e.at? p = some s) ↔ ∃ v, e.path v = p := by
  constructor
  · rintro ⟨s, hs⟩
    exact exists_path_eq hs
  · rintro ⟨v, rfl⟩
    obtain ⟨s, hs, -⟩ := exists_at_path v
    exact ⟨s, hs⟩

theorem exists_path_of_prefix (h : p <+: e.path v) : ∃ u, e.path u = p := by
  obtain ⟨s, hs, -⟩ := exists_at_path v
  obtain ⟨t, ht⟩ := exists_at_of_prefix hs h
  exact exists_path_eq ht

theorem row_graph (h : e.at? (e.path v) = some s) :
    (e.rows none 0).toArray[v] = ⟨s.node,
      if e.path v = [] then none else some (e.placeOf (e.path v).dropLast),
      starts (v + 1) s.children⟩ := by
  have hrow := getElem?_rows none 0 h
  rw [placeOf_path, Nat.zero_add, Nat.zero_add] at hrow
  obtain ⟨_, hget⟩ := List.getElem?_eq_some_iff.1 hrow
  exact hget

theorem node_graph (h : e.at? (e.path v) = some s) : e.graph.node v = s.node :=
  congrArg NodeGraph.Row.node (row_graph h)

/-- The parent is one step up. -/
theorem parent_graph_eq_some_iff : e.graph.parent v = some u ↔ ∃ k, e.path v = e.path u ++ [k] := by
  obtain ⟨s, hs, hv⟩ := exists_at_path v
  have hparent : e.graph.parent v = (if e.path v = [] then none
      else some (e.placeOf (e.path v).dropLast)).bind (NodeGraph.place? e.graph.size) :=
    congrArg (fun row => row.parent.bind (NodeGraph.place? e.graph.size)) (row_graph hs)
  rw [hparent]
  rcases List.eq_nil_or_concat' (e.path v) with hnil | ⟨p, k, hp⟩
  · simp [hnil]
  · rw [hp, if_neg (by simp), Option.bind_some, NodeGraph.place?_eq_some_iff,
      List.dropLast_concat]
    obtain ⟨t, ht⟩ := exists_at_of_prefix hs (hp ▸ List.prefix_append p [k])
    constructor
    · intro hu
      exact ⟨k, by rw [path_eq_of_placeOf ht hu]⟩
    · rintro ⟨j, hj⟩
      rw [(List.append_inj' hj rfl).1, placeOf_path]

/-- The children are one step down, in order. -/
theorem map_path_children (h : e.at? (e.path v) = some s) :
    (e.graph.children v).map e.path =
      (List.range s.children.length).map fun k => e.path v ++ [k] := by
  have hchildren : e.graph.children v =
      (starts (v + 1) s.children).filterMap (NodeGraph.place? e.graph.size) :=
    congrArg (fun row => row.children.filterMap (NodeGraph.place? e.graph.size)) (row_graph h)
  have hstarts := starts_placeOf h
  rw [placeOf_path] at hstarts
  rw [hchildren, hstarts, List.filterMap_map, List.map_filterMap, ← List.filterMap_eq_map]
  apply List.filterMap_congr
  intro k hk
  obtain ⟨c, hc⟩ : ∃ c, s.children[k]? = some c :=
    ⟨_, List.getElem?_eq_getElem (List.mem_range.1 hk)⟩
  have hat : e.at? (e.path v ++ [k]) = some c := (at?_append_singleton h k).trans hc
  obtain ⟨u, hu⟩ := exists_path_eq hat
  have hplace : e.placeOf (e.path v ++ [k]) = u := by rw [← hu, placeOf_path]
  rw [Function.comp_apply, Function.comp_apply, NodeGraph.place?_eq_some_iff.2 hplace,
    Option.map_some, hu]

theorem length_children_graph (h : e.at? (e.path v) = some s) :
    (e.graph.children v).length = s.children.length := by
  simpa using congrArg List.length (map_path_children h)

theorem getElem?_children_graph :
    (e.graph.children v)[k]? = some u ↔ e.path u = e.path v ++ [k] := by
  obtain ⟨s, hs, -⟩ := exists_at_path v
  have hmap : k < s.children.length →
      (e.graph.children v)[k]?.map e.path = some (e.path v ++ [k]) := by
    intro hk
    rw [← List.getElem?_map, map_path_children hs, List.getElem?_map, List.getElem?_range hk,
      Option.map_some]
  constructor
  · intro hu
    obtain ⟨hlt, -⟩ := List.getElem?_eq_some_iff.1 hu
    have hpath := hmap (hlt.trans_eq (length_children_graph hs))
    rw [hu, Option.map_some] at hpath
    exact Option.some.inj hpath
  · intro hu
    obtain ⟨t, ht, -⟩ := exists_at_path u
    rw [hu, at?_append_singleton hs] at ht
    obtain ⟨hlt, -⟩ := List.getElem?_eq_some_iff.1 ht
    obtain ⟨w, hw, hpath⟩ := Option.map_eq_some_iff.1 (hmap hlt)
    rw [hw, e.path_injective (hpath.trans hu.symm)]

theorem mem_children_graph_iff : u ∈ e.graph.children v ↔ ∃ k, e.path u = e.path v ++ [k] :=
  List.mem_iff_getElem?.trans (exists_congr fun _ => getElem?_children_graph)

/-- The children in the graph are those of the tree. -/
theorem map_node_children (h : e.at? (e.path v) = some s) :
    (e.graph.children v).map e.graph.node = s.children.map node := by
  apply List.ext_getElem?
  intro k
  rw [List.getElem?_map, List.getElem?_map]
  cases hk : (e.graph.children v)[k]? with
  | none =>
    rw [List.getElem?_eq_none_iff, length_children_graph h] at hk
    rw [List.getElem?_eq_none hk, Option.map_none, Option.map_none]
  | some u =>
    obtain ⟨t, ht, -⟩ := exists_at_path u
    rw [Option.map_some, node_graph ht, ← at?_append_singleton h, ← getElem?_children_graph.1 hk,
      ht, Option.map_some]

end Element

end FocusRules
