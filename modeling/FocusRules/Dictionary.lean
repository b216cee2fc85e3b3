/-! Dictionaries from strings, kept as a list of entries with strictly ascending keys. There is one
entry list for each finite map, so two dictionaries that answer every look-up alike are equal. Keys
ascend by code points, which is also the order of their UTF-8 bytes. -/

namespace FocusRules

structure Dictionary (α : Type) where
  entries : List (String × α)
  ascending : entries.Pairwise (·.1 < ·.1)
deriving DecidableEq

namespace Dictionary

variable {α : Type}

/-- Puts an entry at its place in an ascending list, over an entry with the same key. -/
def place (key : String) (value : α) : List (String × α) → List (String × α)
  | [] => [(key, value)]
  | e :: rest =>
    if key < e.1 then (key, value) :: e :: rest
    else if key = e.1 then (key, value) :: rest
    else e :: place key value rest

theorem fst_mem_place {key : String} {value : α} {l : List (String × α)} {e : String × α}
    (h : e ∈ place key value l) : e = (key, value) ∨ e ∈ l := by
  induction l with
  | nil => simpa [place] using h
  | cons a l ih =>
    simp only [place] at h
    split at h
    · simpa using h
    · split at h
      · rcases List.mem_cons.1 h with h | h
        · exact .inl h
        · exact .inr (List.mem_cons_of_mem _ h)
      · rcases List.mem_cons.1 h with h | h
        · exact .inr (h ▸ List.mem_cons_self)
        · exact (ih h).imp_right (List.mem_cons_of_mem _)

theorem lt_of_not_lt_of_ne {a b : String} (h : ¬a < b) (hne : a ≠ b) : b < a := by
  rcases Decidable.em (b < a) with hlt | hge
  · exact hlt
  · exact absurd (String.le_antisymm (String.not_lt.1 hge) (String.not_lt.1 h)) hne

theorem place_ascending (key : String) (value : α) {l : List (String × α)}
    (h : l.Pairwise (·.1 < ·.1)) : (place key value l).Pairwise (·.1 < ·.1) := by
  induction l with
  | nil => simp [place]
  | cons a l ih =>
    obtain ⟨ha, hl⟩ := List.pairwise_cons.1 h
    simp only [place]
    split
    next hlt =>
      refine List.pairwise_cons.2 ⟨fun e he => ?_, h⟩
      rcases List.mem_cons.1 he with rfl | he
      · exact hlt
      · exact String.lt_trans hlt (ha e he)
    next hge =>
      split
      next heq => exact List.pairwise_cons.2 ⟨fun e he => heq ▸ ha e he, hl⟩
      next hne =>
        refine List.pairwise_cons.2 ⟨fun e he => ?_, ih hl⟩
        rcases fst_mem_place he with rfl | he
        · exact lt_of_not_lt_of_ne hge hne
        · exact ha e he

def empty : Dictionary α := ⟨[], .nil⟩

instance : EmptyCollection (Dictionary α) := ⟨empty⟩
instance : Inhabited (Dictionary α) := ⟨empty⟩

/-- A later entry for a key replaces the earlier one. -/
def insert (d : Dictionary α) (key : String) (value : α) : Dictionary α :=
  ⟨place key value d.entries, place_ascending key value d.ascending⟩

/-- The value of the first entry with this key. -/
def valueAt (key : String) : List (String × α) → Option α
  | [] => none
  | e :: rest => if key = e.1 then some e.2 else valueAt key rest

def find? (d : Dictionary α) (key : String) : Option α := valueAt key d.entries

def keys (d : Dictionary α) : List String := d.entries.map (·.1)

def size (d : Dictionary α) : Nat := d.entries.length

/-- Enters the pairs from left to right, so the last pair for a key counts. -/
def ofList (l : List (String × α)) : Dictionary α := l.foldl (fun d e => d.insert e.1 e.2) ∅

theorem valueAt_place (key k : String) (value : α) (l : List (String × α)) :
    valueAt k (place key value l) = if k = key then some value else valueAt k l := by
  induction l with
  | nil => rfl
  | cons a l ih => grind [place, valueAt]

@[simp] theorem find?_empty (k : String) : (∅ : Dictionary α).find? k = none := rfl

theorem find?_insert (d : Dictionary α) (key k : String) (value : α) :
    (d.insert key value).find? k = if k = key then some value else d.find? k :=
  valueAt_place key k value d.entries

theorem valueAt_eq_some_iff {l : List (String × α)} (h : l.Pairwise (·.1 < ·.1)) {k : String}
    {v : α} : valueAt k l = some v ↔ (k, v) ∈ l := by
  induction l with
  | nil => simp [valueAt]
  | cons a l ih =>
    obtain ⟨ha, hl⟩ := List.pairwise_cons.1 h
    by_cases hk : k = a.1
    · subst hk
      have hnot : (a.1, v) ∉ l := fun hm => String.lt_irrefl a.1 (ha (a.1, v) hm)
      simp [valueAt, hnot, Prod.ext_iff, eq_comm]
    · simp [valueAt, hk, ih hl, Prod.ext_iff]

theorem find?_eq_some_iff {d : Dictionary α} {k : String} {v : α} :
    d.find? k = some v ↔ (k, v) ∈ d.entries :=
  valueAt_eq_some_iff d.ascending

theorem mem_keys_iff {d : Dictionary α} {k : String} : k ∈ d.keys ↔ (d.find? k).isSome := by
  rw [keys, List.mem_map, Option.isSome_iff_exists]
  constructor
  · rintro ⟨e, he, rfl⟩
    exact ⟨e.2, find?_eq_some_iff.2 he⟩
  · rintro ⟨v, hv⟩
    exact ⟨(k, v), find?_eq_some_iff.1 hv, rfl⟩

theorem entries_eq_of_mem_iff {l m : List (String × α)} (hl : l.Pairwise (·.1 < ·.1))
    (hm : m.Pairwise (·.1 < ·.1)) (h : ∀ e, e ∈ l ↔ e ∈ m) : l = m := by
  induction l generalizing m with
  | nil => exact (List.eq_nil_iff_forall_not_mem.2 fun e he => by simpa using (h e).2 he).symm
  | cons a l ih =>
    obtain ⟨ha, hl⟩ := List.pairwise_cons.1 hl
    cases m with
    | nil => simpa using (h a).1 List.mem_cons_self
    | cons b m =>
      obtain ⟨hb, hm'⟩ := List.pairwise_cons.1 hm
      have hab : a = b := by
        rcases List.mem_cons.1 ((h a).1 List.mem_cons_self) with hab | hab
        · exact hab
        rcases List.mem_cons.1 ((h b).2 List.mem_cons_self) with hba | hba
        · exact hba.symm
        exact absurd (ha _ hba) (String.lt_asymm (hb _ hab))
      subst hab
      congr 1
      refine ih hl hm' fun e => ⟨fun he => ?_, fun he => ?_⟩
      · rcases List.mem_cons.1 ((h e).1 (List.mem_cons_of_mem _ he)) with rfl | he'
        · exact absurd (ha _ he) (String.lt_irrefl _)
        · exact he'
      · rcases List.mem_cons.1 ((h e).2 (List.mem_cons_of_mem _ he)) with rfl | he'
        · exact absurd (hb _ he) (String.lt_irrefl _)
        · exact he'

/-- A dictionary is what it answers. -/
@[ext] theorem ext {d d' : Dictionary α} (h : ∀ k, d.find? k = d'.find? k) : d = d' := by
  have he : d.entries = d'.entries :=
    entries_eq_of_mem_iff d.ascending d'.ascending fun e => by
      rw [← find?_eq_some_iff (k := e.1) (v := e.2), h, find?_eq_some_iff]
  cases d; cases d'; cases he; rfl

/-- An entry behind all others comes at the end. -/
theorem place_eq_append {key : String} {value : α} {l : List (String × α)}
    (h : ∀ e ∈ l, e.1 < key) : place key value l = l ++ [(key, value)] := by
  induction l with
  | nil => rfl
  | cons a l ih =>
    obtain ⟨ha, hl⟩ := List.forall_mem_cons.1 h
    have hne : key ≠ a.1 := fun heq => String.lt_irrefl _ (heq ▸ ha)
    rw [place, if_neg (String.lt_asymm ha), if_neg hne, ih hl, List.cons_append]

theorem entries_foldl_insert {rest : List (String × α)} {d : Dictionary α}
    (h : (d.entries ++ rest).Pairwise (·.1 < ·.1)) :
    (rest.foldl (fun d e => d.insert e.1 e.2) d).entries = d.entries ++ rest := by
  induction rest generalizing d with
  | nil => rw [List.foldl_nil, List.append_nil]
  | cons e rest ih =>
    have hlast : ∀ a ∈ d.entries, a.1 < e.1 :=
      fun a ha => (List.pairwise_append.1 h).2.2 a ha e List.mem_cons_self
    have hinsert : (d.insert e.1 e.2).entries = d.entries ++ [e] := place_eq_append hlast
    rw [List.append_cons, ← hinsert] at h
    rw [List.foldl_cons, ih h, hinsert, ← List.append_cons]

/-- A dictionary and the list of its entries say the same. -/
theorem ofList_entries (d : Dictionary α) : ofList d.entries = d := by
  have hentries : (ofList d.entries).entries = d.entries := entries_foldl_insert d.ascending
  exact ext fun k => congrArg (valueAt k) hentries

theorem find?_foldr_insert (l : List (String × α)) (k : String) :
    (l.foldr (fun e (d : Dictionary α) => d.insert e.1 e.2) ∅).find? k = valueAt k l := by
  induction l with
  | nil => rfl
  | cons e rest ih => rw [List.foldr_cons, find?_insert, ih, valueAt]

/-- The last pair for a key counts. -/
theorem find?_ofList_eq_valueAt (l : List (String × α)) (k : String) :
    (ofList l).find? k = valueAt k l.reverse := by
  rw [ofList, List.foldl_eq_foldr_reverse, find?_foldr_insert]

/-- Entries under other keys, one to one, are found under those. -/
theorem valueAt_map {β : Type} {key : String → String} (hkey : ∀ ⦃a b⦄, key a = key b → a = b)
    (f : α → β) (l : List (String × α)) (k : String) :
    valueAt (key k) (l.map fun e => (key e.1, f e.2)) = (valueAt k l).map f := by
  induction l with
  | nil => rfl
  | cons e rest ih =>
    rw [List.map_cons, valueAt, valueAt, ih]
    by_cases h : k = e.1
    · rw [if_pos h, if_pos (congrArg key h), Option.map_some]
    · rw [if_neg h, if_neg (mt (@hkey k e.1) h)]

theorem find?_ofList_map {β : Type} {key : String → String}
    (hkey : ∀ ⦃a b⦄, key a = key b → a = b) (f : α → β) (l : List (String × α)) (k : String) :
    (ofList (l.map fun e => (key e.1, f e.2))).find? (key k) = ((ofList l).find? k).map f := by
  rw [find?_ofList_eq_valueAt, find?_ofList_eq_valueAt, ← List.map_reverse, valueAt_map hkey]

end Dictionary

end FocusRules
