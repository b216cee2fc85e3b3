import FocusRules.Proofs.LoadCondition

/-! How rules, type classes, predicates and whole rule sets are read. -/

namespace FocusRules

open Load

namespace Dictionary

variable {α : Type}

theorem find?_ofList (members : List (String × Json)) (name : String) :
    (ofList members).find? name = Json.member? name members := by
  have hfold : ∀ d : Dictionary Json,
      (members.foldl (fun d e => d.insert e.1 e.2) d).find? name =
        (Json.member? name members).or (d.find? name) := by
    induction members with
    | nil => intro d; rfl
    | cons m rest ih =>
      intro d
      rw [List.foldl_cons, ih, find?_insert, Json.member?]
      cases Json.member? name rest with
      | some v => rfl
      | none => by_cases h : name = m.1 <;> simp [h, eq_comm]
  rw [ofList, hfold]
  simp

/-- Reading the values of ascending entries puts each value under its key. -/
theorem find?_of_foldlM {read : Json → Load α} {entries : List (String × Json)}
    (hasc : entries.Pairwise (·.1 < ·.1)) {d d' : Dictionary α}
    (h : entries.foldlM (fun d e => do
      let a ← within (.key e.1) (read e.2)
      return d.insert e.1 a) d = .ok d') (name : String) :
    (d'.find? name).map .ok = ((valueAt name entries).map read).or ((d.find? name).map .ok) := by
  induction entries generalizing d with
  | nil => cases h; rfl
  | cons e rest ih =>
    obtain ⟨he, hrest⟩ := List.pairwise_cons.1 hasc
    rw [List.foldlM_cons, bind_eq_ok] at h
    obtain ⟨_, hins, h⟩ := h
    simp only [bind_eq_ok, within_eq_ok, pure_eq_ok] at hins
    obtain ⟨a, ha, rfl⟩ := hins
    rw [ih hrest h, find?_insert, valueAt]
    by_cases hk : name = e.1
    · -- no later entry has this key
      have hlast : valueAt name rest = none := by
        refine Option.eq_none_iff_forall_ne_some.2 fun v hv => ?_
        have hlt := he _ ((valueAt_eq_some_iff hrest).1 hv)
        exact String.lt_irrefl _ (hk ▸ hlt)
      simp [hk ▸ hlast, hk, ha]
    · simp [hk]

theorem exists_foldlM {read : Json → Load α} {entries : List (String × Json)}
    (h : ∀ e ∈ entries, ∃ a, read e.2 = .ok a) (d : Dictionary α) :
    ∃ d', entries.foldlM (fun d e => do
      let a ← within (.key e.1) (read e.2)
      return d.insert e.1 a) d = .ok d' := by
  induction entries generalizing d with
  | nil => exact ⟨d, rfl⟩
  | cons e rest ih =>
    obtain ⟨a, ha⟩ := h e List.mem_cons_self
    obtain ⟨d', hd'⟩ := ih (fun e he => h e (List.mem_cons_of_mem _ he)) (d.insert e.1 a)
    refine ⟨d', ?_⟩
    rw [List.foldlM_cons, bind_eq_ok]
    refine ⟨d.insert e.1 a, ?_, hd'⟩
    simp only [bind_eq_ok, within_eq_ok, pure_eq_ok]
    exact ⟨a, ha, rfl⟩

end Dictionary

namespace Predicates

theorem map_find?_of_ofJson {s : Strictness} {members : List (String × Json)}
    {predicates : Predicates} (h : ofJson s (.object members) = .ok predicates) (name : String) :
    (predicates.find? name).map .ok = (Json.member? name members).map (Condition.ofJson s) := by
  rw [ofJson, bind_eq_ok] at h
  obtain ⟨_, hobj, h⟩ := h
  obtain rfl := Json.object.inj (object_eq_ok.1 hobj)
  rw [Dictionary.find?_of_foldlM (Dictionary.ofList members).ascending h name,
    ← Dictionary.find?_ofList, Dictionary.find?_empty]
  exact Option.or_none

theorem exists_ofJson {s : Strictness} {members : List (String × Json)}
    (h : ∀ name v, Json.member? name members = some v → ∃ c, Condition.ofJson s v = .ok c) :
    ∃ predicates, ofJson s (.object members) = .ok predicates := by
  have hread : ∀ e ∈ (Dictionary.ofList members).entries,
      ∃ c, Condition.ofJson s e.2 = .ok c := by
    intro e he
    apply h e.1
    rw [← Dictionary.find?_ofList, Dictionary.find?_eq_some_iff.2 he]
  obtain ⟨predicates, hp⟩ := Dictionary.exists_foldlM hread ∅
  exact ⟨predicates, bind_eq_ok.2 ⟨members, rfl, hp⟩⟩

theorem ofJson_eq_ok {s : Strictness} {j : Json} {predicates : Predicates} :
    ofJson s j = .ok predicates ↔ (∃ members, j = .object members) ∧
      ∀ name, (predicates.find? name).map .ok = (j.get? name).map (Condition.ofJson s) := by
  refine ⟨fun h => ?_, fun h => ?_⟩
  · obtain ⟨members, hobj, -⟩ := bind_eq_ok.1 h
    obtain rfl := object_eq_ok.1 hobj
    exact ⟨⟨members, rfl⟩, map_find?_of_ofJson h⟩
  · obtain ⟨⟨members, rfl⟩, hfind⟩ := h
    obtain ⟨predicates', h'⟩ := @exists_ofJson s members fun name v hv => by
      have hmap := hfind name
      rw [Json.get?_object, hv, Option.map_some, Option.map_eq_some_iff] at hmap
      obtain ⟨c, -, hc⟩ := hmap
      exact ⟨c, hc.symm⟩
    obtain rfl : predicates' = predicates := Dictionary.ext fun name =>
      Option.map_injective (fun _ _ => Except.ok.inj)
        ((map_find?_of_ofJson h' name).trans (hfind name).symm)
    exact h'

end Predicates

namespace TypeClasses

theorem mem_names_add (types : TypeClasses) (name : String) (k k' : TypeClass) (x : String) :
    x ∈ (types.add name k).names k' ↔ (k = k' ∧ foldCase name = x) ∨ x ∈ types.names k' := by
  cases k <;> cases k' <;> simp [add, names, eq_comm]

theorem mem_names_foldl_add {l : List String} {types : TypeClasses} {k k' : TypeClass}
    {x : String} : x ∈ (l.foldl (fun types name => types.add name k) types).names k' ↔
      (k = k' ∧ ∃ name ∈ l, foldCase name = x) ∨ x ∈ types.names k' := by
  induction l generalizing types with
  | nil => simp
  | cons name rest ih => rw [List.foldl_cons, ih, mem_names_add]; grind

theorem names_ext {types types' : TypeClasses}
    (h : ∀ k x, x ∈ types.names k ↔ x ∈ types'.names k) : types = types' := by
  obtain ⟨root, ignored, scrollable⟩ := types
  obtain ⟨root', ignored', scrollable'⟩ := types'
  obtain rfl : root = root' := StringSet.ext (h .root)
  obtain rfl : ignored = ignored' := StringSet.ext (h .scrollIgnore)
  obtain rfl : scrollable = scrollable' := StringSet.ext (h .scrollable)
  rfl

/-- The strings of an optional list, whether or not it holds anything else. -/
theorem exists_listed_iff {o : Option Json} {items : List Json} {p : String → Prop}
    (h : o = some (.array items) ∨ (o = none ∧ items = [])) :
    (∃ js name, o = some (.array js) ∧ .string name ∈ js ∧ p name) ↔
      ∃ name ∈ items.filterMap Json.asString?, p name := by
  have hmem : ∀ name, name ∈ items.filterMap Json.asString? ↔ .string name ∈ items := by
    intro name
    rw [List.mem_filterMap]
    constructor
    · rintro ⟨j, hj, hs⟩
      cases j with
      | string s => obtain rfl := Option.some.inj hs; exact hj
      | _ => cases hs
    · exact fun hs => ⟨_, hs, rfl⟩
  simp only [hmem]
  rcases h with rfl | ⟨rfl, rfl⟩ <;> simp

theorem filterMap_asString?_map (names : List String) :
    (names.map Json.string).filterMap Json.asString? = names := by
  rw [List.filterMap_map]
  exact List.filterMap_some

theorem readFrom_of_ofJson {j : Json} {types : TypeClasses} (h : ofJson j = .ok types) :
    IsDefines j ∧ ReadFrom j types := by
  simp only [ofJson, bind_eq_ok, object_eq_ok, fieldOr_eq_ok, arrayOf_string_eq_ok, array_eq_ok,
    pure_eq_ok, exists_eq_right] at h
  obtain ⟨members, rfl, roots, hroots, ignored, hignored, scrollable, hscrollable, rfl⟩ := h
  have hstrings : ∀ {key : String} {names : List String},
      (Json.member? key members = some (.array (names.map .string)) ∨
        (Json.member? key members = none ∧ names = [])) → ∀ {p : String → Prop},
      (∃ js name, Json.member? key members = some (.array js) ∧ .string name ∈ js ∧ p name) ↔
        ∃ name ∈ names, p name := by
    intro key names hnames p
    rw [exists_listed_iff (hnames.imp_right fun ⟨h, hn⟩ => ⟨h, by rw [hn]; rfl⟩),
      filterMap_asString?_map]
  refine ⟨⟨⟨members, rfl⟩, ?_, ?_, ?_⟩, fun k x => ?_⟩
  · exact (optional_iff (fun names => .array (names.map .string)) []).2 ⟨roots, hroots⟩
  · exact (optional_iff (fun names => .array (names.map .string)) []).2 ⟨ignored, hignored⟩
  · exact (optional_iff .array []).2 ⟨scrollable, hscrollable⟩
  · simp only [mem_names_foldl_add, Json.get?_object]
    cases k with
    | root =>
      refine Iff.trans ?_ (hstrings hroots).symm
      simp [names]
    | scrollIgnore =>
      refine Iff.trans ?_ (hstrings hignored).symm
      simp [names]
    | scrollable =>
      refine Iff.trans ?_ (exists_listed_iff hscrollable).symm
      simp [names]

theorem exists_ofJson_of_isDefines {j : Json} (h : IsDefines j) :
    ∃ types, ofJson j = .ok types := by
  obtain ⟨⟨members, rfl⟩, hroot, hignored, hscrollable⟩ := h
  obtain ⟨roots, hroots⟩ :=
    (optional_iff (fun names : List String => .array (names.map .string)) []).1 hroot
  obtain ⟨ignored, hignored⟩ :=
    (optional_iff (fun names : List String => .array (names.map .string)) []).1 hignored
  obtain ⟨scrollable, hscrollable⟩ := (optional_iff .array []).1 hscrollable
  simp only [ofJson, bind_eq_ok, object_eq_ok, fieldOr_eq_ok, arrayOf_string_eq_ok, array_eq_ok,
    pure_eq_ok, exists_eq_right]
  exact ⟨_, members, rfl, roots, hroots, ignored, hignored, scrollable, hscrollable, rfl⟩

theorem ofJson_eq_ok {j : Json} {types : TypeClasses} :
    ofJson j = .ok types ↔ IsDefines j ∧ ReadFrom j types := by
  refine ⟨readFrom_of_ofJson, fun ⟨hj, hread⟩ => ?_⟩
  obtain ⟨types', h'⟩ := exists_ofJson_of_isDefines hj
  obtain rfl : types' = types := names_ext fun k x =>
    ((readFrom_of_ofJson h').2 k x).trans (hread k x).symm
  exact h'

end TypeClasses

theorem Rule.ofJson_eq_ok {s : Strictness} {j : Json} {rule : Rule} :
    Rule.ofJson s j = .ok rule ↔ j.get? "name" = some (.string rule.name) ∧
      j.get? "isfocus" = some (.bool rule.isFocus) ∧
      ∃ c, j.get? "check" = some c ∧ Condition.ofJson s c = .ok rule.condition := by
  simp only [Rule.ofJson, bind_eq_ok, object_eq_ok, field_eq_ok, string_eq_ok, bool_eq_ok,
    pure_eq_ok, exists_eq_right]
  refine ⟨fun h => ?_, fun h => ?_⟩
  · obtain ⟨members, rfl, name, hname, focus, hfocus, c, hc, rfl⟩ := h
    exact ⟨hname, hfocus, hc⟩
  · obtain ⟨hname, hfocus, hc⟩ := h
    obtain ⟨members, rfl⟩ := Json.exists_object_of_get? hname
    exact ⟨members, rfl, _, hname, _, hfocus, _, hc, rfl⟩

namespace RuleSet

theorem rulesOfJson_eq_ok {s : Strictness} {j : Json} {rules : List Rule} :
    rulesOfJson s j = .ok rules ↔ ∃ js, j = .array js ∧ js ≠ [] ∧
      List.Forall₂ (fun j r => Rule.ofJson s j = .ok r) js rules := by
  rw [rulesOfJson, bind_eq_ok]
  refine exists_congr fun js => and_congr array_eq_ok ?_
  cases js with
  | nil => simp [bind_eq_ok, fail]
  | cons j rest => simp [each_eq_ok]

theorem ofJson_eq_ok {s : Strictness} {j : Json} {m : RuleSet} :
    ofJson s j = .ok m ↔
      (∃ v, j.get? "defines" = some v ∧ TypeClasses.ofJson v = .ok m.types) ∧
      ((∃ v, j.get? "custom_props" = some v ∧ Predicates.ofJson s v = .ok m.predicates) ∨
        (j.get? "custom_props" = none ∧ m.predicates = ∅)) ∧
      ∃ v, j.get? "rules" = some v ∧ rulesOfJson s v = .ok m.rules := by
  simp only [ofJson, bind_eq_ok, object_eq_ok, field_eq_ok, fieldOr_eq_ok, pure_eq_ok]
  refine ⟨fun h => ?_, fun h => ?_⟩
  · obtain ⟨members, rfl, types, htypes, predicates, hpredicates, rules, hrules, rfl⟩ := h
    exact ⟨htypes, hpredicates, hrules⟩
  · obtain ⟨⟨v, hv, htypes⟩, hpredicates, hrules⟩ := h
    obtain ⟨members, rfl⟩ := Json.exists_object_of_get? hv
    exact ⟨members, rfl, _, ⟨v, hv, htypes⟩, _, hpredicates, _, hrules, rfl⟩

end RuleSet

end FocusRules
