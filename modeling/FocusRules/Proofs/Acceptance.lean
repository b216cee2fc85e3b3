import FocusRules.Proofs.LoadRuleSet

/-! Reading accepts exactly the documents of the grammar and gives the rule set that a document
stands for. -/

namespace FocusRules

open Load

theorem isComparand_iff {j : Json} : IsComparand j ↔ ∃ value, Value.ReadFrom j value := by
  refine ⟨fun h => ?_, fun h => ?_⟩
  · cases h with
    | bool b => exact ⟨_, .bool b⟩
    | string s => exact ⟨_, .string s⟩
    | strings names => exact ⟨_, .strings fun x => StringSet.mem_ofList⟩
    | number hlo hhi => exact ⟨_, .number (Int32.toInt_ofInt_of_le hlo (by omega))⟩
  · obtain ⟨value, h⟩ := h
    cases h with
    | bool b => exact .bool b
    | string s => exact .string s
    | strings => exact .strings _
    | @number n k hk =>
      have hlo := k.le_toInt
      have hhi := k.toInt_lt
      exact .number (by omega) (by omega)

theorem isItem_iff {j : Json} : IsItem j ↔ ∃ item, Item.ReadFrom j item := by
  refine ⟨fun h => ?_, fun h => ?_⟩
  · obtain ⟨⟨name, hprop⟩, ⟨o, hop⟩, ⟨v, hv, hvalue⟩, htarget, hcustom, hcascade⟩ := h
    obtain ⟨value, hvalue⟩ := isComparand_iff.1 hvalue
    obtain ⟨t, ht⟩ := (optional_iff (fun t : Target => .string t.name) .self).1 htarget
    obtain ⟨b, hb⟩ := (optional_iff .bool false).1 hcustom
    obtain ⟨c, hc⟩ := (optional_iff .bool false).1 hcascade
    cases b with
    | false => exact ⟨⟨.property name, o, value, t, c⟩, hprop, hop, ⟨v, hv, hvalue⟩, ht, hb, hc⟩
    | true => exact ⟨⟨.predicate name, o, value, t, c⟩, hprop, hop, ⟨v, hv, hvalue⟩, ht, hb, hc⟩
  · obtain ⟨item, h⟩ := h
    obtain ⟨v, hv, hr⟩ := h.value
    exact ⟨⟨_, h.prop⟩, ⟨_, h.operator⟩, ⟨v, hv, isComparand_iff.2 ⟨_, hr⟩⟩,
      (optional_iff (fun t : Target => .string t.name) .self).2 ⟨_, h.target⟩,
      (optional_iff .bool false).2 ⟨_, h.custom⟩, (optional_iff .bool false).2 ⟨_, h.cascade⟩⟩

theorem Mode.mem_names_iff {name : String} :
    name ∈ ["single", "and", "or"] ↔ ∃ mode : Mode, mode.name = name ∧ mode ≠ .unknown := by
  refine ⟨fun h => ?_, fun h => ?_⟩
  · simp only [List.mem_cons, List.not_mem_nil, or_false] at h
    rcases h with rfl | rfl | rfl
    · exact ⟨.single, rfl, by decide⟩
    · exact ⟨.and, rfl, by decide⟩
    · exact ⟨.or, rfl, by decide⟩
  · obtain ⟨mode, rfl, hm⟩ := h
    cases mode with
    | unknown => exact absurd rfl hm
    | _ => decide

theorem Mode.mem_list_names_iff {name : String} :
    name ∈ ["and", "or"] ↔ ∃ mode : Mode, mode.name = name ∧ (mode = .and ∨ mode = .or) := by
  constructor
  · intro h
    simp only [List.mem_cons, List.not_mem_nil, or_false] at h
    rcases h with rfl | rfl
    · exact ⟨.and, rfl, .inl rfl⟩
    · exact ⟨.or, rfl, .inr rfl⟩
  · rintro ⟨mode, rfl, rfl | rfl⟩ <;> decide

namespace Condition

/-- A condition of the grammar is read. -/
theorem exists_ofJson_of_isCondition {s : Strictness} {j : Json} (h : IsCondition s j) :
    ∃ c, ofJson s j = .ok c := by
  induction h with
  | @combined j name parts ht hname hparts hne _ ih =>
    obtain ⟨mode, rfl, hm⟩ := Mode.mem_names_iff.1 hname
    have hread : ∀ p ∈ parts, ∃ c, partOfJson s p = .ok c := by
      intro p hp
      by_cases hok : ∃ c, ofJson s p = .ok c
      · obtain ⟨c, hc⟩ := hok
        exact ⟨c, partOfJson_eq_ok.2 (.inl hc)⟩
      · cases s with
        | strict => exact absurd (ih rfl p hp) hok
        | lenient => exact ⟨_, partOfJson_eq_ok.2 (.inr ⟨rfl, not_exists.1 hok, rfl⟩)⟩
    obtain ⟨cs, hcs⟩ := exists_forall₂ hread
    exact ⟨_, ofJson_eq_ok.2 ⟨mode, ht, hm, .inl ⟨parts, cs, hparts, hne, hcs, rfl⟩⟩⟩
  | @single j v ht hnone hv hitem =>
    obtain ⟨item, hitem⟩ := isItem_iff.1 hitem
    have hi := itemsOfJson_single.2 ⟨item, hitem, rfl⟩
    exact ⟨_, ofJson_eq_ok.2 ⟨.single, ht, by decide, .inr ⟨hnone, v, _, hv, hi, rfl⟩⟩⟩
  | @list j name js ht hname hnone hv hlen hitems =>
    obtain ⟨mode, rfl, hm⟩ := Mode.mem_list_names_iff.1 hname
    obtain ⟨items, hitems⟩ := exists_forall₂ fun p hp => isItem_iff.1 (hitems p hp)
    have hsingle : mode ≠ .single ∧ mode ≠ .unknown := by rcases hm with rfl | rfl <;> decide
    have hi := (itemsOfJson_list hsingle.1).2 ⟨js, rfl, hlen, hitems⟩
    exact ⟨_, ofJson_eq_ok.2 ⟨mode, ht, hsingle.2, .inr ⟨hnone, _, _, hv, hi, rfl⟩⟩⟩

/-- What is read is a condition of the grammar. -/
theorem isCondition_of_ofJson {s : Strictness} {j : Json} {c : Condition}
    (h : ofJson s j = .ok c) : IsCondition s j := by
  induction c generalizing j with
  | flat mode items =>
    obtain ⟨m, ht, hm, ⟨_, _, _, _, _, hc⟩ | ⟨hnone, v, items, hv, hi, hc⟩⟩ := ofJson_eq_ok.1 h
    · cases hc
    obtain ⟨rfl, rfl⟩ := Condition.flat.inj hc
    by_cases hsingle : mode = .single
    · subst hsingle
      obtain ⟨item, hitem, -⟩ := itemsOfJson_single.1 hi
      exact .single ht hnone hv (isItem_iff.2 ⟨item, hitem⟩)
    · obtain ⟨js, rfl, hlen, hitems⟩ := (itemsOfJson_list hsingle).1 hi
      refine .list ht (Mode.mem_list_names_iff.2 ⟨mode, rfl, ?_⟩) hnone hv hlen fun p hp => ?_
      · cases mode <;> simp_all
      · obtain ⟨item, -, hitem⟩ := exists_of_forall₂ hitems hp
        exact isItem_iff.2 ⟨item, hitem⟩
  | combined mode parts ih =>
    obtain ⟨m, ht, hm, ⟨js, cs, hv, hne, hp, hc⟩ | ⟨_, _, _, _, _, hc⟩⟩ := ofJson_eq_ok.1 h
    · obtain ⟨rfl, rfl⟩ := Condition.combined.inj hc
      refine .combined ht (Mode.mem_names_iff.2 ⟨mode, rfl, hm⟩) hv hne fun hs p hmem => ?_
      obtain ⟨c, hc, hread⟩ := exists_of_forall₂ hp hmem
      rcases partOfJson_eq_ok.1 hread with hread | ⟨hl, -⟩
      · exact ih c hc hread
      · cases hs.symm.trans hl
    · cases hc

theorem isCondition_iff {s : Strictness} {j : Json} :
    IsCondition s j ↔ ∃ c, ofJson s j = .ok c :=
  ⟨exists_ofJson_of_isCondition, fun ⟨_, h⟩ => isCondition_of_ofJson h⟩

theorem readFrom_of_ofJson {s : Strictness} {j : Json} {c : Condition}
    (h : ofJson s j = .ok c) : ReadFrom s j c := by
  induction c generalizing j with
  | flat mode items =>
    obtain ⟨m, ht, hm, ⟨_, _, _, _, _, hc⟩ | ⟨hnone, v, items, hv, hi, hc⟩⟩ := ofJson_eq_ok.1 h
    · cases hc
    obtain ⟨rfl, rfl⟩ := Condition.flat.inj hc
    by_cases hsingle : mode = .single
    · subst hsingle
      obtain ⟨item, hitem, rfl⟩ := itemsOfJson_single.1 hi
      exact .single ht hnone hv hitem
    · obtain ⟨js, rfl, hlen, hitems⟩ := (itemsOfJson_list hsingle).1 hi
      exact .list ht (by cases mode <;> simp_all) hnone hv hlen hitems
  | combined mode parts ih =>
    obtain ⟨m, ht, hm, ⟨js, cs, hv, hne, hp, hc⟩ | ⟨_, _, _, _, _, hc⟩⟩ := ofJson_eq_ok.1 h
    · obtain ⟨rfl, rfl⟩ := Condition.combined.inj hc
      obtain ⟨pairs, rfl, rfl, hpairs⟩ := exists_pairs_of_forall₂ hp
      refine .combined ht hm hv (by simpa using hne) (fun p hmem hcond => ?_) fun p hmem hcond => ?_
      · obtain ⟨d, hd⟩ := isCondition_iff.1 hcond
        rcases partOfJson_eq_ok.1 (hpairs p hmem) with hread | ⟨-, hnot, -⟩
        · exact ih p.2 (List.mem_map_of_mem hmem) hread
        · exact absurd hd (hnot d)
      · rcases partOfJson_eq_ok.1 (hpairs p hmem) with hread | ⟨hs, -, hph⟩
        · exact absurd (isCondition_of_ofJson hread) hcond
        · exact ⟨hs, hph⟩
    · cases hc

theorem ofJson_of_readFrom {s : Strictness} {j : Json} {c : Condition} (h : ReadFrom s j c) :
    ofJson s j = .ok c := by
  induction h with
  | @combined j mode parts ht hm hv hne _ hbroken ih =>
    refine ofJson_eq_ok.2 ⟨mode, ht, hm, .inl ⟨_, _, hv, by simpa using hne, ?_, rfl⟩⟩
    rw [List.forall₂_map_left_iff, List.forall₂_map_right_iff, List.forall₂_same]
    intro p hp
    by_cases hcond : IsCondition s p.1
    · exact partOfJson_eq_ok.2 (.inl (ih p hp hcond))
    · obtain ⟨hs, hph⟩ := hbroken p hp hcond
      exact partOfJson_eq_ok.2
        (.inr ⟨hs, fun d hd => hcond (isCondition_of_ofJson hd), hph⟩)
  | single ht hnone hv hitem =>
    have hi := itemsOfJson_single.2 ⟨_, hitem, rfl⟩
    exact ofJson_eq_ok.2 ⟨.single, ht, by decide, .inr ⟨hnone, _, _, hv, hi, rfl⟩⟩
  | @list j mode js items ht hm hnone hv hlen hitems =>
    have hmode : mode ≠ .single ∧ mode ≠ .unknown := by rcases hm with rfl | rfl <;> decide
    have hi := (itemsOfJson_list hmode.1).2 ⟨js, rfl, hlen, hitems⟩
    exact ofJson_eq_ok.2 ⟨mode, ht, hmode.2, .inr ⟨hnone, _, _, hv, hi, rfl⟩⟩

theorem ofJson_iff_readFrom {s : Strictness} {j : Json} {c : Condition} :
    ofJson s j = .ok c ↔ ReadFrom s j c :=
  ⟨readFrom_of_ofJson, ofJson_of_readFrom⟩

end Condition

theorem Rule.isRule_iff {s : Strictness} {j : Json} :
    IsRule s j ↔ ∃ rule, Rule.ofJson s j = .ok rule := by
  refine ⟨fun h => ?_, fun h => ?_⟩
  · obtain ⟨⟨name, hname⟩, ⟨focus, hfocus⟩, c, hc, hcond⟩ := h
    obtain ⟨condition, hread⟩ := Condition.isCondition_iff.1 hcond
    exact ⟨⟨name, condition, focus⟩, Rule.ofJson_eq_ok.2 ⟨hname, hfocus, c, hc, hread⟩⟩
  · obtain ⟨rule, h⟩ := h
    obtain ⟨hname, hfocus, c, hc, hread⟩ := Rule.ofJson_eq_ok.1 h
    exact ⟨⟨_, hname⟩, ⟨_, hfocus⟩, c, hc, Condition.isCondition_of_ofJson hread⟩

theorem Rule.ofJson_iff_readFrom {s : Strictness} {j : Json} {rule : Rule} :
    Rule.ofJson s j = .ok rule ↔ Rule.ReadFrom s j rule := by
  rw [Rule.ofJson_eq_ok]
  simp only [Condition.ofJson_iff_readFrom]
  exact ⟨fun ⟨hname, hfocus, hc⟩ => ⟨hname, hfocus, hc⟩,
    fun ⟨hname, hfocus, hc⟩ => ⟨hname, hfocus, hc⟩⟩

theorem Predicates.isPredicates_iff {s : Strictness} {j : Json} :
    IsPredicates s j ↔ ∃ predicates, Predicates.ofJson s j = .ok predicates := by
  refine ⟨fun h => ?_, fun h => ?_⟩
  · obtain ⟨⟨members, rfl⟩, hcond⟩ := h
    exact Predicates.exists_ofJson fun name v hv => Condition.isCondition_iff.1 (hcond name v hv)
  · obtain ⟨predicates, h⟩ := h
    obtain ⟨hobj, hfind⟩ := Predicates.ofJson_eq_ok.1 h
    refine ⟨hobj, fun name v hv => ?_⟩
    have hmap := hfind name
    rw [hv, Option.map_some, Option.map_eq_some_iff] at hmap
    obtain ⟨c, -, hc⟩ := hmap
    exact Condition.isCondition_of_ofJson hc.symm

theorem Predicates.ofJson_iff_readFrom {s : Strictness} {j : Json} {predicates : Predicates} :
    Predicates.ofJson s j = .ok predicates ↔ Predicates.ReadFrom s j predicates := by
  rw [Predicates.ofJson_eq_ok]
  have hrel : ∀ (v : Option Json) (c : Option Condition),
      c.map .ok = v.map (Condition.ofJson s) ↔ Option.Rel (Condition.ReadFrom s) v c := by
    intro v c
    cases v with
    | none => cases c <;> simp
    | some v => cases c <;> simp [← Condition.ofJson_iff_readFrom, eq_comm]
  simp only [hrel]
  exact ⟨fun ⟨hobj, hcond⟩ => ⟨hobj, hcond⟩, fun ⟨hobj, hcond⟩ => ⟨hobj, hcond⟩⟩

namespace RuleSet

theorem rulesOfJson_iff_isRule {s : Strictness} {js : List Json} :
    (js ≠ [] ∧ ∀ j ∈ js, IsRule s j) ↔ ∃ rules, rulesOfJson s (.array js) = .ok rules := by
  simp only [rulesOfJson_eq_ok, Rule.isRule_iff]
  refine ⟨fun h => ?_, fun h => ?_⟩
  · obtain ⟨hne, hrules⟩ := h
    obtain ⟨rules, hread⟩ := exists_forall₂ hrules
    exact ⟨rules, js, rfl, hne, hread⟩
  · obtain ⟨rules, js', hjs, hne, hread⟩ := h
    obtain rfl := Json.array.inj hjs
    refine ⟨hne, fun j hj => ?_⟩
    obtain ⟨rule, -, hrule⟩ := exists_of_forall₂ hread hj
    exact ⟨rule, hrule⟩

theorem isDocument_iff {s : Strictness} {j : Json} :
    IsDocument s j ↔ ∃ rules, ofJson s j = .ok rules := by
  refine ⟨fun h => ?_, fun h => ?_⟩
  · obtain ⟨⟨v, hv, hdefines⟩, hpredicates, js, hjs, hrules⟩ := h
    obtain ⟨types, htypes⟩ := TypeClasses.exists_ofJson_of_isDefines hdefines
    obtain ⟨rules, hread⟩ := rulesOfJson_iff_isRule.1 hrules
    obtain ⟨predicates, hp⟩ : ∃ predicates,
        (∃ v, j.get? "custom_props" = some v ∧ Predicates.ofJson s v = .ok predicates) ∨
          (j.get? "custom_props" = none ∧ predicates = ∅) := by
      cases hc : j.get? "custom_props" with
      | none => exact ⟨∅, .inr ⟨rfl, rfl⟩⟩
      | some w =>
        obtain ⟨predicates, hp⟩ := Predicates.isPredicates_iff.1 (hpredicates w hc)
        exact ⟨predicates, .inl ⟨w, rfl, hp⟩⟩
    exact ⟨⟨types, predicates, rules⟩, ofJson_eq_ok.2 ⟨⟨v, hv, htypes⟩, hp, _, hjs, hread⟩⟩
  · obtain ⟨m, h⟩ := h
    obtain ⟨⟨v, hv, htypes⟩, hpredicates, w, hw, hrules⟩ := ofJson_eq_ok.1 h
    obtain ⟨js, rfl, -⟩ := rulesOfJson_eq_ok.1 hrules
    refine ⟨⟨v, hv, (TypeClasses.ofJson_eq_ok.1 htypes).1⟩, fun u hu => ?_, js, hw,
      rulesOfJson_iff_isRule.2 ⟨_, hrules⟩⟩
    rcases hpredicates with ⟨u', hu', hp⟩ | ⟨hnone, -⟩
    · obtain rfl := Option.some.inj (hu.symm.trans hu')
      exact Predicates.isPredicates_iff.2 ⟨_, hp⟩
    · cases hu.symm.trans hnone

theorem ofJson_iff_readFrom {s : Strictness} {j : Json} {rules : RuleSet} :
    ofJson s j = .ok rules ↔ ReadFrom s j rules := by
  rw [ofJson_eq_ok]
  simp only [TypeClasses.ofJson_eq_ok, Predicates.ofJson_iff_readFrom, rulesOfJson_eq_ok,
    Rule.ofJson_iff_readFrom]
  refine ⟨fun h => ?_, fun h => ?_⟩
  · obtain ⟨hdefines, hpredicates, _, hv, js, rfl, hrules⟩ := h
    exact ⟨hdefines, hpredicates, js, hv, hrules⟩
  · obtain ⟨hdefines, hpredicates, js, hv, hrules⟩ := h
    exact ⟨hdefines, hpredicates, _, hv, js, rfl, hrules⟩

/-- A value is accepted just if it is a document, and what is read is what the document stands
for. -/
theorem accepts_iff_isDocument (s : Strictness) (j : Json) :
    ((∃ rules, ofJson s j = .ok rules) ↔ IsDocument s j) ∧
      ∀ rules, ofJson s j = .ok rules ↔ ReadFrom s j rules := by
  refine ⟨?_, fun rules => ?_⟩
  · exact isDocument_iff.symm
  · exact ofJson_iff_readFrom

end RuleSet

end FocusRules
