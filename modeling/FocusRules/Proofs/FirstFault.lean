import FocusRules.Proofs.Acceptance
import FocusRules.Proofs.Schema

/-! What a refusal says. Every reader reports the first fault of the value that it reads, so a
document that is refused has a fault of the reported kind at the end of the reported path, and all
that is read before it is well formed. -/

namespace FocusRules

open Load

namespace Load

variable {α : Type}

theorem object_cases (j : Json) : (∃ members, j = .object members ∧ object j = .ok members) ∨
    (¬Shape.object.Fits j ∧ object j = fail (.expected .object)) := by
  cases j <;> simp [object, Shape.Fits]

theorem array_cases (j : Json) : (∃ items, j = .array items ∧ array j = .ok items) ∨
    (¬Shape.array.Fits j ∧ array j = fail (.expected .array)) := by
  cases j <;> simp [array, Shape.Fits]

theorem string_cases (j : Json) : (∃ t, j = .string t ∧ string j = .ok t) ∨
    (¬Shape.string.Fits j ∧ string j = fail (.expected .string)) := by
  cases j <;> simp [string, Shape.Fits]

theorem bool_cases (j : Json) : (∃ b, j = .bool b ∧ bool j = .ok b) ∨
    (¬Shape.bool.Fits j ∧ bool j = fail (.expected .bool)) := by
  cases j <;> simp [bool, Shape.Fits]

theorem named_of_none {ofName? : String → Option α} {unknown : String → Cause} {name : String}
    (h : ofName? name = none) : named ofName? unknown (.string name) = fail (unknown name) := by
  simp [named, string, h, bind, Except.bind]

end Load

/-- What comes of reading a value for a role: success only if the value is well formed, and
otherwise the first fault. -/
structure Reports {α : Type} (s : Strictness) (role : Role) (j : Json) (x : Load α) : Prop where
  valid : ∀ a, x = .ok a → role.Valid s j
  first : ∀ f, x = .error f → FirstFault s role j f.path f.cause

/-- A fault of a member, seen from the object. -/
def Slot.HasFault (s : Strictness) (members : List (String × Json)) (slot : Slot) (f : Fault) :
    Prop :=
  (slot.required = true ∧ Json.member? slot.name members = none ∧
    f = ⟨[.key slot.name], .missing⟩) ∨
  ∃ (v : Json) (g : Fault), Json.member? slot.name members = some v ∧
    FirstFault s slot.role v g.path g.cause ∧ f = g.within (.key slot.name)

structure Slot.Reports {α : Type} (s : Strictness) (members : List (String × Json)) (slot : Slot)
    (x : Load α) : Prop where
  valid : ∀ a, x = .ok a → slot.Valid s members
  first : ∀ f, x = .error f → slot.HasFault s members f

/-- What comes of reading several members in order. -/
def SlotsReport {α : Type} (s : Strictness) (members : List (String × Json)) (slots : List Slot)
    (x : Load α) : Prop :=
  ∀ f, x = .error f → ∃ before slot after, slots = before ++ slot :: after ∧
    (∀ e ∈ before, e.Valid s members) ∧ slot.HasFault s members f

section

variable {α β : Type} {s : Strictness} {role : Role} {j : Json} {members : List (String × Json)}
  {f : Fault}

theorem slotsReport_pure {slots : List Slot} {a : α} :
    SlotsReport s members slots (pure a : Load α) :=
  fun _ h => absurd h pure_ne_error

theorem Slot.Reports.bind {slot : Slot} {slots : List Slot} {x : Load α} {k : α → Load β}
    (hx : slot.Reports s members x)
    (hk : ∀ a, x = .ok a → SlotsReport s members slots (k a)) :
    SlotsReport s members (slot :: slots) (x >>= k) := by
  intro f hf
  rcases bind_eq_error.1 hf with hf | ⟨a, ha, hf⟩
  · exact ⟨[], slot, slots, rfl, nofun, hx.first f hf⟩
  · obtain ⟨before, e, after, rfl, hbefore, he⟩ := hk a ha f hf
    exact ⟨slot :: before, e, after, rfl, List.forall_mem_cons.2 ⟨hx.valid a ha, hbefore⟩, he⟩

theorem field_reports {name : String} {read : Json → Load α}
    (h : ∀ v, Json.member? name members = some v → Reports s role v (read v)) :
    (⟨name, true, role⟩ : Slot).Reports s members (field name read members) := by
  unfold field
  cases hv : Json.member? name members with
  | none =>
    refine ⟨fun a ha => absurd (within_eq_ok.1 ha) fail_ne_ok, fun f hf => .inl ⟨rfl, hv, ?_⟩⟩
    exact (Except.error.inj hf).symm
  | some v =>
    refine ⟨fun a ha => ?_, fun f hf => ?_⟩
    · simpa [Slot.Valid, hv] using (h v hv).valid a (within_eq_ok.1 ha)
    · obtain ⟨g, hg, rfl⟩ := within_eq_error.1 hf
      exact .inr ⟨v, g, hv, (h v hv).first g hg, rfl⟩

theorem fieldOr_reports {default : α} {name : String} {read : Json → Load α}
    (h : ∀ v, Json.member? name members = some v → Reports s role v (read v)) :
    (⟨name, false, role⟩ : Slot).Reports s members (fieldOr default name read members) := by
  unfold fieldOr
  cases hv : Json.member? name members with
  | none => exact ⟨fun _ _ => by simp [Slot.Valid, hv], nofun⟩
  | some v =>
    refine ⟨fun a ha => ?_, fun f hf => ?_⟩
    · simpa [Slot.Valid, hv] using (h v hv).valid a (within_eq_ok.1 ha)
    · obtain ⟨g, hg, rfl⟩ := within_eq_error.1 hf
      exact .inr ⟨v, g, hv, (h v hv).first g hg, rfl⟩

theorem SlotsReport.firstFault {x : Load α} (h : SlotsReport s members (role.slots members) x)
    (hf : x = .error f) : FirstFault s role (.object members) f.path f.cause := by
  obtain ⟨before, slot, after, hslots, hbefore, hfault⟩ := h f hf
  obtain ⟨hrequired, hnone, rfl⟩ | ⟨v, g, hv, hg, rfl⟩ := hfault
  · exact .missing hslots hbefore hrequired hnone
  · exact .member hslots hbefore hv hg

theorem firstFault_of_object {k : List (String × Json) → Load α} (hs : role.shape = .object)
    (h : ∀ members, SlotsReport s members (role.slots members) (k members))
    (hf : object j >>= k = .error f) : FirstFault s role j f.path f.cause := by
  obtain ⟨members, rfl, hj⟩ | ⟨hfits, hj⟩ := object_cases j
  · exact (h members).firstFault hf
  · rw [hj] at hf
    obtain rfl := Except.error.inj hf
    exact hs ▸ .here (.shape (hs ▸ hfits))

theorem fail_reports {cause : Cause} (h : role.Breaks j cause) :
    Reports s role j (fail cause : Load α) where
  valid _ ha := absurd ha fail_ne_ok
  first _ hf := Except.error.inj hf ▸ .here h

theorem string_reports : Reports s .text j (Load.string j) := by
  obtain ⟨t, rfl, hj⟩ | ⟨hfits, hj⟩ := string_cases j
  · exact ⟨fun _ _ => ⟨t, rfl⟩, nofun⟩
  · exact hj ▸ fail_reports (.shape hfits)

theorem bool_reports : Reports s .flag j (Load.bool j) := by
  obtain ⟨b, rfl, hj⟩ | ⟨hfits, hj⟩ := bool_cases j
  · exact ⟨fun _ _ => ⟨b, rfl⟩, nofun⟩
  · exact hj ▸ fail_reports (.shape hfits)

theorem named_reports {ofName? : String → Option α} {unknown : String → Cause}
    (hs : role.shape = .string)
    (hvalid : ∀ name a, ofName? name = some a → role.Valid s (.string name))
    (hunknown : ∀ name, ofName? name = none → role.Breaks (.string name) (unknown name)) :
    Reports s role j (named ofName? unknown j) := by
  obtain ⟨name, rfl, -⟩ | ⟨hfits, hj⟩ := string_cases j
  · cases hname : ofName? name with
    | none => exact named_of_none hname ▸ fail_reports (hunknown name hname)
    | some a => exact named_eq_ok.2 ⟨name, rfl, hname⟩ ▸ ⟨fun _ _ => hvalid name a hname, nofun⟩
  · have hbreaks : role.Breaks j (.expected .string) := hs ▸ .shape (hs ▸ hfits)
    rw [named, hj]
    exact fail_reports hbreaks

theorem operator_reports :
    Reports s .operator j (named Operator.ofName? .unknownOperator j) := by
  refine named_reports rfl (fun name o ho => ⟨o, ?_⟩) fun name hnone => ?_
  · rw [Operator.name_of_ofName? ho]
  · refine .unknownOperator fun o ho => ?_
    rw [← ho, Operator.ofName?_name] at hnone
    cases hnone

theorem target_reports : Reports s .target j (named Target.ofName? .unknownTarget j) := by
  refine named_reports rfl (fun name t ht => ⟨t, ?_⟩) fun name hnone => ?_
  · rw [Target.name_of_ofName? ht]
  · refine .unknownTarget fun t ht => ?_
    rw [← ht, Target.ofName?_name] at hnone
    cases hnone

theorem mode_reports : Reports s .mode j (named Mode.ofName? .unknownMode j) := by
  refine named_reports rfl (fun name m hm => ⟨name, ?_, rfl⟩) fun name hnone => ?_
  · have hne : m ≠ .unknown := fun h => Mode.ofName?_ne_unknown name (h ▸ hm)
    exact Mode.mem_names_iff.2 ⟨m, Mode.name_of_ofName? hm, hne⟩
  · refine .unknownMode fun h => ?_
    have hsome : (Mode.ofName? name).isSome = true := by
      simp only [List.mem_cons, List.not_mem_nil, or_false] at h
      rcases h with rfl | rfl | rfl <;> decide
    rw [hnone] at hsome
    cases hsome

/-- The first element that is refused is reported, and the elements before it were accepted. -/
theorem each_eq_error {read : Json → Load α} {i : ℕ} {items : List Json}
    (h : each read i items = .error f) :
    ∃ k v g, items[k]? = some v ∧ read v = .error g ∧ f = g.within (.index (i + k)) ∧
      ∀ l < k, ∀ u, items[l]? = some u → ∃ a, read u = .ok a := by
  induction items generalizing i with
  | nil => cases h
  | cons v rest ih =>
    rw [each] at h
    rcases bind_eq_error.1 h with h | ⟨a, ha, h⟩
    · obtain ⟨g, hg, rfl⟩ := within_eq_error.1 h
      exact ⟨0, v, g, rfl, hg, rfl, fun l hl => absurd hl (Nat.not_lt_zero l)⟩
    · rcases bind_eq_error.1 h with h | ⟨_, _, h⟩
      · obtain ⟨k, u, g, hu, hg, rfl, hbefore⟩ := ih h
        refine ⟨k + 1, u, g, hu, hg, by rw [Nat.add_right_comm, Nat.add_assoc], fun l hl w hw => ?_⟩
        cases l with
        | zero =>
          obtain rfl := Option.some.inj hw
          exact ⟨a, within_eq_ok.1 ha⟩
        | succ l => exact hbefore l (Nat.lt_of_succ_lt_succ hl) w hw
      · exact absurd h pure_ne_error

theorem firstFault_of_each {r : Role} {read : Json → Load α} {items : List Json}
    (hr : role.element? s = some r) (hlist : ∀ cause, ¬role.Breaks (.array items) cause)
    (h : ∀ v ∈ items, Reports s r v (read v)) (hf : each read 0 items = .error f) :
    FirstFault s role (.array items) f.path f.cause := by
  obtain ⟨k, v, g, hv, hg, rfl, hbefore⟩ := each_eq_error hf
  rw [Nat.zero_add]
  refine .element hr hlist (fun l hl u hu => ?_) hv ((h v (List.mem_of_getElem? hv)).first g hg)
  obtain ⟨a, ha⟩ := hbefore l hl u hu
  exact (h u (List.mem_of_getElem? hu)).valid a ha

theorem array_fits (items : List Json) : Shape.array.Fits (.array items) := ⟨items, rfl⟩

theorem firstFault_of_array {k : List Json → Load α} (hs : role.shape = .array)
    (h : ∀ items, j = .array items → k items = .error f →
      FirstFault s role j f.path f.cause)
    (hf : Load.array j >>= k = .error f) : FirstFault s role j f.path f.cause := by
  obtain ⟨items, rfl, hj⟩ | ⟨hfits, hj⟩ := array_cases j
  · exact h items rfl hf
  · rw [hj] at hf
    obtain rfl := Except.error.inj hf
    exact hs ▸ .here (.shape (hs ▸ hfits))

theorem typeNames_reports : Reports s .typeNames j (arrayOf Load.string j) := by
  refine ⟨fun names h => ⟨names, arrayOf_string_eq_ok.1 h⟩, fun f hf => ?_⟩
  refine firstFault_of_array rfl (fun items hj hf => ?_) hf
  subst hj
  refine firstFault_of_each rfl (fun cause hbreaks => ?_) (fun v _ => string_reports) hf
  cases hbreaks with
  | shape h => exact h (array_fits items)

theorem anyNames_reports : Reports s .anyNames j (Load.array j) := by
  obtain ⟨items, rfl, hj⟩ | ⟨hfits, hj⟩ := array_cases j
  · exact ⟨fun _ _ => ⟨items, rfl⟩, nofun⟩
  · exact hj ▸ fail_reports (.shape hfits)

theorem defines_reports : Reports s .defines j (TypeClasses.ofJson j) := by
  refine ⟨fun types h => (TypeClasses.ofJson_eq_ok.1 h).1, fun f hf => ?_⟩
  refine firstFault_of_object rfl (fun members => ?_) hf
  refine (fieldOr_reports fun _ _ => typeNames_reports).bind fun _ _ => ?_
  refine (fieldOr_reports fun _ _ => typeNames_reports).bind fun _ _ => ?_
  refine (fieldOr_reports fun _ _ => anyNames_reports).bind fun _ _ => ?_
  exact slotsReport_pure

theorem comparand_reports : Reports s .comparand j (Value.ofJson j) := by
  refine ⟨fun v h => isComparand_iff.2 ⟨v, Value.ofJson_eq_ok.1 h⟩, fun f hf => ?_⟩
  cases j with
  | null => exact (fail_reports (.shape (by simp [Role.shape, Shape.Fits]))).first f hf
  | object members => exact (fail_reports (.shape (by simp [Role.shape, Shape.Fits]))).first f hf
  | bool b => cases hf
  | string t => cases hf
  | number n =>
    rw [Value.ofJson, Value.numberOfJson_eq] at hf
    split at hf
    · cases hf
    next h => exact (fail_reports (.outOfRange h)).first f hf
  | array items =>
    rw [Value.ofJson] at hf
    rcases bind_eq_error.1 hf with hf | ⟨_, _, hf⟩
    · refine firstFault_of_each rfl (fun cause hbreaks => ?_) (fun v _ => string_reports) hf
      cases hbreaks with
      | shape h => exact h (.inr (.inr (.inl ⟨items, rfl⟩)))
    · exact absurd hf pure_ne_error

theorem item_reports : Reports s .item j (Item.ofJson j) := by
  refine ⟨fun item h => isItem_iff.2 ⟨item, Item.ofJson_eq_ok.1 h⟩, fun f hf => ?_⟩
  refine firstFault_of_object rfl (fun members => ?_) hf
  refine (field_reports fun _ _ => string_reports).bind fun _ _ => ?_
  refine (field_reports fun _ _ => operator_reports).bind fun _ _ => ?_
  refine (field_reports fun _ _ => comparand_reports).bind fun _ _ => ?_
  refine (fieldOr_reports fun _ _ => target_reports).bind fun _ _ => ?_
  refine (fieldOr_reports fun _ _ => bool_reports).bind fun _ _ => ?_
  refine (fieldOr_reports fun _ _ => bool_reports).bind fun _ _ => ?_
  exact slotsReport_pure

theorem lone_item_reports : Reports s .item j (Condition.itemsOfJson .single j) := by
  refine ⟨fun items h => ?_, fun f hf => ?_⟩
  · obtain ⟨item, hitem, -⟩ := Condition.itemsOfJson_single.1 h
    exact isItem_iff.2 ⟨item, hitem⟩
  · rw [Condition.itemsOfJson, if_pos rfl] at hf
    rcases bind_eq_error.1 hf with hf | ⟨_, _, hf⟩
    · exact item_reports.first f hf
    · exact absurd hf pure_ne_error

theorem listed_items_report {m : Mode} (hm : m = .and ∨ m = .or) :
    Reports s (.items m.name) j (Condition.itemsOfJson m j) := by
  have hsingle : m ≠ .single := by rcases hm with rfl | rfl <;> decide
  refine ⟨fun items h => ?_, fun f hf => ?_⟩
  · obtain ⟨js, rfl, hlen, hitems⟩ := (Condition.itemsOfJson_list hsingle).1 h
    refine ⟨js, rfl, hlen, fun i hi => ?_⟩
    obtain ⟨item, -, hitem⟩ := exists_of_forall₂ hitems hi
    exact isItem_iff.2 ⟨item, hitem⟩
  · rw [Condition.itemsOfJson, if_neg hsingle] at hf
    refine firstFault_of_array rfl (fun js hj hread => ?_) hf
    subst hj
    by_cases hlen : js.length < 2
    · rw [if_pos hlen] at hread
      exact (fail_reports (.tooFewItems hm hlen)).first f hread
    · rw [if_neg hlen] at hread
      refine firstFault_of_each rfl (fun cause hbreaks => ?_) (fun _ _ => item_reports) hread
      generalize hrole : Role.items m.name = role at hbreaks
      generalize hlist : Json.array js = v at hbreaks
      cases hbreaks with
      | shape h => exact h (hrole ▸ hlist ▸ array_fits js)
      | tooFewItems _ h => cases hlist; exact hlen h
      | _ => cases hrole

theorem partOfJson_lenient_ne_error {p : Json} :
    Condition.partOfJson .lenient p ≠ .error f := by
  unfold Condition.partOfJson Condition.tolerate
  cases Condition.ofJson .lenient p <;> exact nofun

theorem parts_report {items : List Json}
    (h : ∀ p ∈ items, Reports s .condition p (Condition.ofJson s p)) :
    Reports s .parts (.array items) (Condition.partsOfJson s (.array items)) := by
  refine ⟨fun parts hparts => ?_, fun f hf => ?_⟩
  · obtain ⟨js, hjs, hne, hread⟩ := Condition.partsOfJson_eq_ok.1 hparts
    obtain rfl := Json.array.inj hjs
    refine ⟨items, rfl, hne, ?_⟩
    rintro rfl p hp
    obtain ⟨c, -, hc⟩ := exists_of_forall₂ hread hp
    exact (h p hp).valid c hc
  · rw [Condition.partsOfJson] at hf
    cases items with
    | nil => exact (fail_reports .noParts).first f hf
    | cons p rest =>
      rw [Condition.partsOfItems_eq] at hf
      cases s with
      | lenient =>
        obtain ⟨_, v, g, _, hg, _, _⟩ := each_eq_error hf
        exact absurd hg partOfJson_lenient_ne_error
      | strict =>
        refine firstFault_of_each rfl (fun cause hbreaks => ?_) h hf
        cases hbreaks with
        | shape hfits => exact hfits (array_fits _)

/-- What a condition is made of, once its mode is known. -/
theorem body_reports {m : Mode} (hm : m ≠ .unknown)
    (hparts : ∀ v, Json.member? "combined_condition" members = some v →
      Reports s .parts v (Condition.partsOfJson s v)) :
    SlotsReport s members [Role.body members m.name]
      (match Condition.partsOfMembers s members with
      | some parts => do return Condition.combined m (← within (.key "combined_condition") parts)
      | none => do
        return Condition.flat m (← field "condition" (Condition.itemsOfJson m) members)) := by
  rw [Condition.partsOfMembers_eq, Role.body]
  cases hv : Json.member? "combined_condition" members with
  | some v =>
    have hfield : within (.key "combined_condition") (Condition.partsOfJson s v) =
        field "combined_condition" (Condition.partsOfJson s) members := by rw [field, hv]
    simp only [Option.map_some, Option.isSome_some, if_true]
    rw [hfield]
    exact (field_reports hparts).bind fun _ _ => slotsReport_pure
  | none =>
    refine Slot.Reports.bind (field_reports fun v _ => ?_) fun _ _ => slotsReport_pure
    cases m with
    | unknown => exact absurd rfl hm
    | single => exact lone_item_reports
    | and => exact listed_items_report (.inl rfl)
    | or => exact listed_items_report (.inr rfl)

theorem members_report (hparts : ∀ v, Json.member? "combined_condition" members = some v →
      Reports s .parts v (Condition.partsOfJson s v)) :
    Reports s .condition (.object members) (Condition.ofJson s (.object members)) := by
  refine ⟨fun c h => Condition.isCondition_of_ofJson h, fun f hf => ?_⟩
  rw [Condition.ofJson] at hf
  refine SlotsReport.firstFault ?_ hf
  refine (field_reports fun _ _ => mode_reports).bind fun m hm => ?_
  obtain ⟨v, hv, hread⟩ := field_eq_ok.1 hm
  obtain ⟨rfl, hne⟩ := Mode.named_eq_ok.1 hread
  rw [hv]
  exact body_reports hne hparts

/-- A condition and the list of its parts hold each other, so both are treated at once. -/
theorem condition_and_parts_report (j : Json) :
    Reports s .condition j (Condition.ofJson s j) ∧
      Reports s .parts j (Condition.partsOfJson s j) := by
  induction j using Json.inductionOn with
  | array items ih =>
    refine ⟨?_, parts_report fun p hp => (ih p hp).1⟩
    exact fail_reports (.shape (by rintro ⟨_, ⟨⟩⟩))
  | object members ih =>
    refine ⟨members_report fun v hv => (ih _ (Json.mem_of_member? hv)).2, ?_⟩
    exact fail_reports (.shape (by rintro ⟨_, ⟨⟩⟩))
  | _ =>
    constructor
    · exact fail_reports (.shape (by rintro ⟨_, ⟨⟩⟩))
    · exact fail_reports (.shape (by rintro ⟨_, ⟨⟩⟩))

theorem condition_reports : Reports s .condition j (Condition.ofJson s j) :=
  (condition_and_parts_report j).1

theorem rule_reports : Reports s .rule j (Rule.ofJson s j) := by
  refine ⟨fun rule h => Rule.isRule_iff.2 ⟨rule, h⟩, fun f hf => ?_⟩
  refine firstFault_of_object rfl (fun members => ?_) hf
  refine (field_reports fun _ _ => string_reports).bind fun _ _ => ?_
  refine (field_reports fun _ _ => bool_reports).bind fun _ _ => ?_
  refine (field_reports fun _ _ => condition_reports).bind fun _ _ => ?_
  exact slotsReport_pure

theorem rules_report : Reports s .rules j (RuleSet.rulesOfJson s j) := by
  refine ⟨fun rules h => ?_, fun f hf => ?_⟩
  · obtain ⟨js, rfl, -⟩ := RuleSet.rulesOfJson_eq_ok.1 h
    exact ⟨js, rfl, RuleSet.rulesOfJson_iff_isRule.2 ⟨rules, h⟩⟩
  · refine firstFault_of_array rfl (fun js hj hread => ?_) hf
    subst hj
    cases js with
    | nil => exact (fail_reports .noRules).first f hread
    | cons r rest =>
      refine firstFault_of_each rfl (fun cause hbreaks => ?_) (fun _ _ => rule_reports) hread
      cases hbreaks with
      | shape hfits => exact hfits (array_fits _)

/-- The first definition that is refused is reported, and those before it were accepted. -/
theorem Dictionary.exists_of_foldlM_eq_error {read : Json → Load α} {entries : List (String × Json)}
    {d : Dictionary α} (h : entries.foldlM (fun d e => do
      let a ← within (.key e.1) (read e.2)
      return d.insert e.1 a) d = .error f) :
    ∃ before e after g, entries = before ++ e :: after ∧ read e.2 = .error g ∧
      f = g.within (.key e.1) ∧ ∀ b ∈ before, ∃ a, read b.2 = .ok a := by
  induction entries generalizing d with
  | nil => cases h
  | cons e rest ih =>
    rw [List.foldlM_cons] at h
    rcases bind_eq_error.1 h with h | ⟨_, hins, h⟩
    · rcases bind_eq_error.1 h with h | ⟨_, _, h⟩
      · obtain ⟨g, hg, rfl⟩ := within_eq_error.1 h
        exact ⟨[], e, rest, g, rfl, hg, rfl, nofun⟩
      · exact absurd h pure_ne_error
    · obtain ⟨before, b, after, g, rfl, hg, rfl, hbefore⟩ := ih h
      obtain ⟨a, ha, -⟩ := bind_eq_ok.1 hins
      exact ⟨e :: before, b, after, g, rfl, hg, rfl,
        List.forall_mem_cons.2 ⟨⟨a, within_eq_ok.1 ha⟩, hbefore⟩⟩

theorem predicates_report : Reports s .predicates j (Predicates.ofJson s j) := by
  refine ⟨fun predicates h => Predicates.isPredicates_iff.2 ⟨predicates, h⟩, fun f hf => ?_⟩
  obtain ⟨members, rfl, hj⟩ | ⟨hfits, hj⟩ := object_cases j
  · have hentry : ∀ {e : String × Json}, e ∈ (Dictionary.ofList members).entries ↔
        Json.member? e.1 members = some e.2 := by
      intro e
      rw [← Dictionary.find?_ofList, Dictionary.find?_eq_some_iff]
    obtain ⟨before, e, after, g, hentries, hg, rfl, hbefore⟩ :=
      Dictionary.exists_of_foldlM_eq_error hf
    have hasc := (Dictionary.ofList members).ascending
    rw [hentries] at hasc
    have hname : Json.member? e.1 members = some e.2 := hentry.1 (by simp [hentries])
    refine .definition (fun k u hk hu => ?_) hname (condition_reports.first g hg)
    -- a name before this one has its entry before this one
    have hmem : (k, u) ∈ before ++ e :: after := hentries ▸ hentry.2 hu
    rcases List.mem_append.1 hmem with hmem | hmem
    · obtain ⟨c, hc⟩ := hbefore _ hmem
      exact Condition.isCondition_of_ofJson hc
    · obtain ⟨-, hafter, -⟩ := List.pairwise_append.1 hasc
      rcases List.mem_cons.1 hmem with rfl | hmem
      · exact absurd hk (String.lt_irrefl _)
      · exact absurd hk (String.lt_asymm ((List.pairwise_cons.1 hafter).1 _ hmem))
  · have hbreaks : Role.predicates.Breaks j (.expected .object) := .shape hfits
    rw [Predicates.ofJson, hj] at hf
    exact (fail_reports hbreaks).first f hf

theorem document_reports : Reports s .document j (RuleSet.ofJson s j) := by
  refine ⟨fun m h => RuleSet.isDocument_iff.2 ⟨m, h⟩, fun f hf => ?_⟩
  refine firstFault_of_object rfl (fun members => ?_) hf
  refine (field_reports fun _ _ => defines_reports).bind fun _ _ => ?_
  refine (fieldOr_reports fun _ _ => predicates_report).bind fun _ _ => ?_
  refine (field_reports fun _ _ => rules_report).bind fun _ _ => ?_
  exact slotsReport_pure

end

namespace RuleSet

/-- A refusal names the first fault of a value that is no document, by the text of a path. If a
required member is missing, the path leads to it from an object without it, and otherwise to a value
that is not what the cause says it has to be. All that is read before is well formed, and in lenient
reading the path steps into no part of a combined condition. -/
theorem refusal_is_first_fault {s : Strictness} {j : Json} {f : Fault} (h : ofJson s j = .error f) :
    ∃ path : List Segment, Fault.Renders path f.renderPath ∧
      ¬IsDocument s j ∧ FirstFault s .document j path f.cause ∧
      (f.cause.message = "required field is missing" →
        ∃ before name members, path = before ++ [.key name] ∧
          j.at? before = some (.object members) ∧ Json.member? name members = none) ∧
      (f.cause.message ≠ "required field is missing" →
        ∃ v role, j.at? path = some v ∧ Role.Breaks role v f.cause) ∧
      (s = .lenient → ∀ i, ¬[.key "combined_condition", .index i] <:+: path) := by
  have hfirst : FirstFault s .document j f.path f.cause := document_reports.first f h
  refine ⟨f.path, Fault.renders_iff.2 rfl, fun hdoc => ?_, hfirst, fun hmissing => ?_,
    fun hother => ?_, ?_⟩
  · obtain ⟨m, hm⟩ := isDocument_iff.1 hdoc
    cases h.symm.trans hm
  · rw [Cause.message_eq_missing_iff.1 hmissing] at hfirst
    exact hfirst.exists_object_of_missing
  · exact hfirst.exists_breaks fun hc => hother (Cause.message_eq_missing_iff.2 hc)
  · rintro rfl
    exact hfirst.not_into_part

def greaterThan : Json := .object [
  ("rules", .array [.object [
    ("name", .string "tall"), ("isfocus", .bool true),
    ("check", .object [
      ("condition_type", .string "or"),
      ("combined_condition", .array [
        .object [
          ("condition_type", .string "single"),
          ("condition", .object [("prop", .string "type"), ("operator", .string "eq"),
            ("value", .string "Button")])],
        .object [
          ("condition_type", .string "single"),
          ("condition", .object [("prop", .string "children_count"), ("operator", .string "gt"),
            ("value", .number (.integer 3))])]])])]]),
  ("defines", .object [])]

theorem refusal_is_first_fault_greaterThan :
    ∃ f, ofJson .strict greaterThan = .error f ∧
      f.renderPath = "rules[0].check.combined_condition[1].condition.operator" ∧
      f.cause.message = "unknown operator 'gt'" ∧
      ∃ path v role, Fault.Renders path f.renderPath ∧
        FirstFault .strict .document greaterThan path f.cause ∧
        greaterThan.at? path = some v ∧ Role.Breaks role v f.cause := by
  obtain ⟨f, h, hpath, hmessage⟩ : ∃ f, ofJson .strict greaterThan = .error f ∧
      f.renderPath = "rules[0].check.combined_condition[1].condition.operator" ∧
      f.cause.message = "unknown operator 'gt'" := ⟨_, rfl, by decide +kernel, by decide +kernel⟩
  obtain ⟨path, hrender, -, hfirst, -, hother, -⟩ := refusal_is_first_fault h
  have hne : f.cause.message ≠ "required field is missing" := by rw [hmessage]; decide
  obtain ⟨v, role, hat, hbreaks⟩ := hother hne
  exact ⟨f, h, hpath, hmessage, path, v, role, hrender, hfirst, hat, hbreaks⟩

end RuleSet

end FocusRules
