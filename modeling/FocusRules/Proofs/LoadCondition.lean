import FocusRules.Proofs.Grammar
import FocusRules.Proofs.Load
import FocusRules.Proofs.Rounding

/-! How items and conditions are read: one equation for each reader, saying when it succeeds and
with what. -/

namespace FocusRules

open Load

theorem Json.exists_object_of_get? {j v : Json} {name : String} (h : j.get? name = some v) :
    ∃ members, j = .object members := by
  cases j with
  | object members => exact ⟨members, rfl⟩
  | _ => simp [Json.get?, Json.asObject?] at h

theorem Operator.named_eq_ok {unknown : String → Cause} {j : Json} {o : Operator} :
    Load.named Operator.ofName? unknown j = .ok o ↔ j = .string o.name := by
  rw [Load.named_eq_ok]
  refine ⟨fun h => ?_, fun h => ?_⟩
  · obtain ⟨name, rfl, h⟩ := h
    rw [Operator.name_of_ofName? h]
  · obtain rfl := h
    exact ⟨_, rfl, Operator.ofName?_name o⟩

theorem Target.named_eq_ok {unknown : String → Cause} {j : Json} {t : Target} :
    Load.named Target.ofName? unknown j = .ok t ↔ j = .string t.name := by
  rw [Load.named_eq_ok]
  refine ⟨fun h => ?_, fun h => ?_⟩
  · obtain ⟨name, rfl, h⟩ := h
    rw [Target.name_of_ofName? h]
  · obtain rfl := h
    exact ⟨_, rfl, Target.ofName?_name t⟩

theorem Mode.named_eq_ok {unknown : String → Cause} {j : Json} {mode : Mode} :
    Load.named Mode.ofName? unknown j = .ok mode ↔ j = .string mode.name ∧ mode ≠ .unknown := by
  rw [Load.named_eq_ok]
  refine ⟨fun h => ?_, fun h => ?_⟩
  · obtain ⟨name, rfl, h⟩ := h
    rw [Mode.name_of_ofName? h]
    exact ⟨rfl, fun hm => Mode.ofName?_ne_unknown name (hm ▸ h)⟩
  · obtain ⟨rfl, hm⟩ := h
    refine ⟨_, rfl, ?_⟩
    cases mode with
    | unknown => exact absurd rfl hm
    | _ => decide

theorem strings_eq_ok {items : List Json} {names : List String} :
    List.Forall₂ (fun j s => Load.string j = .ok s) items names ↔ items = names.map .string := by
  simp only [string_eq_ok]
  rw [← List.forall₂_map_right_iff (R := fun j j' => j = j'), List.forall₂_eq_eq_eq]

theorem arrayOf_string_eq_ok {j : Json} {names : List String} :
    arrayOf Load.string j = .ok names ↔ j = .array (names.map .string) := by
  rw [arrayOf_eq_ok]
  simp only [strings_eq_ok, exists_eq_right]

theorem Value.numberOfJson_eq_ok {n : Json.Number} {value : Value} :
    Value.numberOfJson n = .ok value ↔ ∃ k : Int32, value = .number k ∧ k.toInt = n.truncate := by
  rw [Value.numberOfJson_eq]
  split
  next h =>
    have hk : (Int32.ofInt n.truncate).toInt = n.truncate :=
      Int32.toInt_ofInt_of_le h.1 (Int.lt_of_le_of_lt h.2 (by decide))
    refine ⟨fun hv => ?_, fun h => ?_⟩
    · exact ⟨_, (Except.ok.inj hv).symm, hk⟩
    · obtain ⟨k, rfl, he⟩ := h
      rw [← he, Int32.ofInt_toInt]
  next h =>
    refine ⟨fun hv => absurd hv fail_ne_ok, ?_⟩
    rintro ⟨k, -, he⟩
    exact absurd ⟨he ▸ k.minValue_le_toInt, he ▸ k.toInt_le⟩ h

theorem Value.ofJson_eq_ok {j : Json} {value : Value} :
    Value.ofJson j = .ok value ↔ Value.ReadFrom j value := by
  cases j with
  | null => exact ⟨fun h => absurd h fail_ne_ok, nofun⟩
  | object members => exact ⟨fun h => absurd h fail_ne_ok, nofun⟩
  | bool b =>
    refine ⟨fun h => ?_, fun h => ?_⟩
    · cases h; exact .bool b
    · obtain ⟨⟩ := h
      rfl
  | string s =>
    refine ⟨fun h => ?_, fun h => ?_⟩
    · cases h; exact .string s
    · obtain ⟨⟩ := h
      rfl
  | number n =>
    rw [Value.ofJson, Value.numberOfJson_eq_ok]
    refine ⟨fun h => ?_, fun h => ?_⟩
    · obtain ⟨k, rfl, hk⟩ := h
      exact .number hk
    · obtain _ | _ | _ | hk := h
      exact ⟨_, rfl, hk⟩
  | array items =>
    rw [Value.ofJson, bind_eq_ok]
    simp only [each_eq_ok, strings_eq_ok, pure_eq_ok]
    refine ⟨fun h => ?_, fun h => ?_⟩
    · obtain ⟨names, rfl, rfl⟩ := h
      exact .strings fun x => StringSet.mem_ofList
    · obtain _ | _ | @⟨names, set, hset⟩ := h
      exact ⟨names, rfl, congrArg _ (StringSet.ext fun x => by rw [StringSet.mem_ofList, hset])⟩

theorem Item.ofJson_eq_ok {j : Json} {item : Item} :
    Item.ofJson j = .ok item ↔ Item.ReadFrom j item := by
  simp only [Item.ofJson, bind_eq_ok, object_eq_ok, field_eq_ok, fieldOr_eq_ok,
    Operator.named_eq_ok, Target.named_eq_ok, string_eq_ok, bool_eq_ok, Value.ofJson_eq_ok,
    pure_eq_ok, exists_eq_right]
  refine ⟨fun h => ?_, fun h => ?_⟩
  · obtain ⟨members, rfl, name, hprop, o, hop, value, hv, t, ht, b, hb, c, hc, rfl⟩ := h
    cases b with
    | false => exact ⟨hprop, hop, hv, ht, hb, hc⟩
    | true => exact ⟨hprop, hop, hv, ht, hb, hc⟩
  · obtain ⟨members, rfl⟩ := Json.exists_object_of_get? h.prop
    refine ⟨members, rfl, _, h.prop, _, h.operator, _, h.value, _, h.target, _, h.custom, _,
      h.cascade, ?_⟩
    obtain ⟨subject, _⟩ := item
    cases subject with
    | property name => rfl
    | predicate name => rfl

namespace Condition

theorem itemsOfJson_single {j : Json} {items : List Item} :
    itemsOfJson .single j = .ok items ↔ ∃ item, Item.ReadFrom j item ∧ items = [item] := by
  rw [itemsOfJson, if_pos rfl, bind_eq_ok]
  refine exists_congr fun item => and_congr Item.ofJson_eq_ok ?_
  rw [pure_eq_ok]
  exact eq_comm

theorem itemsOfJson_list {mode : Mode} (hm : mode ≠ .single) {j : Json} {items : List Item} :
    itemsOfJson mode j = .ok items ↔
      ∃ js, j = .array js ∧ 2 ≤ js.length ∧ List.Forall₂ Item.ReadFrom js items := by
  rw [itemsOfJson, if_neg hm, bind_eq_ok]
  refine exists_congr fun js => and_congr array_eq_ok ?_
  by_cases hlen : js.length < 2
  · rw [if_pos hlen, bind_eq_ok]
    refine ⟨fun h => ?_, fun h => ?_⟩
    · obtain ⟨_, h, _⟩ := h
      exact absurd h fail_ne_ok
    · obtain ⟨h, _⟩ := h
      omega
  · rw [if_neg hlen, each_eq_ok]
    simp only [Item.ofJson_eq_ok]
    exact ⟨fun h => ⟨by omega, h⟩, fun h => h.2⟩

theorem partsOfItems_eq (s : Strictness) (i : ℕ) (items : List Json) :
    partsOfItems s i items = each (partOfJson s) i items := by
  induction items generalizing i with
  | nil => rfl
  | cons j rest ih =>
    rw [partsOfItems, each, ih, partOfJson]

theorem partsOfMembers_eq (s : Strictness) (members : List (String × Json)) :
    partsOfMembers s members =
      (Json.member? "combined_condition" members).map (partsOfJson s) := by
  induction members with
  | nil => rfl
  | cons m rest ih =>
    obtain ⟨name, j⟩ := m
    rw [partsOfMembers, ih, Json.member?]
    cases Json.member? "combined_condition" rest with
    | some v => rfl
    | none => by_cases h : name = "combined_condition" <;> simp [h]

theorem partsOfJson_eq_ok {s : Strictness} {j : Json} {parts : List Condition} :
    partsOfJson s j = .ok parts ↔ ∃ items, j = .array items ∧ items ≠ [] ∧
      List.Forall₂ (fun p c => partOfJson s p = .ok c) items parts := by
  cases j with
  | array items =>
    rw [partsOfJson]
    cases items with
    | nil => simp [fail]
    | cons p rest => simp [partsOfItems_eq, each_eq_ok]
  | _ => simp [partsOfJson, fail]

theorem ofJson_eq_ok {s : Strictness} {j : Json} {c : Condition} :
    ofJson s j = .ok c ↔ ∃ mode : Mode,
      j.get? "condition_type" = some (.string mode.name) ∧ mode ≠ .unknown ∧
      ((∃ items parts, j.get? "combined_condition" = some (.array items) ∧ items ≠ [] ∧
          List.Forall₂ (fun p c => partOfJson s p = .ok c) items parts ∧ c = .combined mode parts) ∨
        (j.get? "combined_condition" = none ∧ ∃ v items, j.get? "condition" = some v ∧
          itemsOfJson mode v = .ok items ∧ c = .flat mode items)) := by
  cases j with
  | object members =>
    rw [ofJson, partsOfMembers_eq, bind_eq_ok]
    refine exists_congr fun mode => ?_
    simp only [field_eq_ok, Mode.named_eq_ok, Json.get?_object]
    cases Json.member? "combined_condition" members with
    | none =>
      simp only [Option.map_none, bind_eq_ok, field_eq_ok, pure_eq_ok]
      refine ⟨fun h => ?_, fun h => ?_⟩
      · obtain ⟨⟨_, ht, rfl, hm⟩, items, ⟨v, hv, hi⟩, rfl⟩ := h
        exact ⟨ht, hm, .inr ⟨trivial, v, items, hv, hi, rfl⟩⟩
      · obtain ⟨ht, hm, ⟨_, _, h, _⟩ | ⟨-, v, items, hv, hi, rfl⟩⟩ := h
        · cases h
        · exact ⟨⟨_, ht, rfl, hm⟩, items, ⟨v, hv, hi⟩, rfl⟩
    | some v =>
      simp only [Option.map_some, bind_eq_ok, within_eq_ok, partsOfJson_eq_ok, pure_eq_ok]
      refine ⟨fun h => ?_, fun h => ?_⟩
      · obtain ⟨⟨_, ht, rfl, hm⟩, parts, ⟨items, rfl, hne, hp⟩, rfl⟩ := h
        exact ⟨ht, hm, .inl ⟨items, parts, rfl, hne, hp, rfl⟩⟩
      · obtain ⟨ht, hm, ⟨items, parts, h, hne, hp, rfl⟩ | ⟨h, _⟩⟩ := h
        · exact ⟨⟨_, ht, rfl, hm⟩, parts, ⟨items, Option.some.inj h, hne, hp⟩, rfl⟩
        · cases h
  | _ => simp [ofJson, fail, Json.get?, Json.asObject?]

theorem partOfJson_eq_ok {s : Strictness} {j : Json} {c : Condition} :
    partOfJson s j = .ok c ↔ ofJson s j = .ok c ∨
      (s = .lenient ∧ (∀ d, ofJson s j ≠ .ok d) ∧ c = placeholder) := by
  unfold partOfJson tolerate
  cases hj : ofJson s j with
  | error f => cases s <;> simp [eq_comm]
  | ok d => cases s <;> simp

end Condition

end FocusRules
