import FocusRules.Document.Loader
import Mathlib.Data.List.Forall2

/-! When a reader succeeds, and what it gives, and which fault it hands on. A field is read from the
last member of its name, and the elements of a list one by one. -/

namespace FocusRules

theorem exists_forall₂ {α β : Type} {R : α → β → Prop} {l : List α} (h : ∀ a ∈ l, ∃ b, R a b) :
    ∃ m, List.Forall₂ R l m := by
  induction l with
  | nil => exact ⟨[], .nil⟩
  | cons a l ih =>
    obtain ⟨b, hb⟩ := h a List.mem_cons_self
    obtain ⟨m, hm⟩ := ih fun a ha => h a (List.mem_cons_of_mem _ ha)
    exact ⟨b :: m, .cons hb hm⟩

theorem exists_of_forall₂ {α β : Type} {R : α → β → Prop} {l : List α} {m : List β}
    (h : List.Forall₂ R l m) {a : α} (ha : a ∈ l) : ∃ b ∈ m, R a b := by
  induction h with
  | nil => cases ha
  | cons hab _ ih =>
    rcases List.mem_cons.1 ha with rfl | ha
    · exact ⟨_, List.mem_cons_self, hab⟩
    · obtain ⟨b, hb, hr⟩ := ih ha
      exact ⟨b, List.mem_cons_of_mem _ hb, hr⟩

theorem exists_forall₂_of_forall₂ {α β γ : Type} {R : α → β → Prop} {S : α → γ → Prop}
    {T : β → γ → Prop} {l : List α} {m : List β} (h : List.Forall₂ R l m)
    (hstep : ∀ a, ∀ b ∈ m, R a b → ∃ c, S a c ∧ T b c) :
    ∃ n, List.Forall₂ S l n ∧ List.Forall₂ T m n := by
  induction h with
  | nil => exact ⟨[], .nil, .nil⟩
  | cons hab _ ih =>
    obtain ⟨c, hs, ht⟩ := hstep _ _ List.mem_cons_self hab
    obtain ⟨n, hsn, htn⟩ := ih fun a b hb => hstep a b (List.mem_cons_of_mem _ hb)
    exact ⟨c :: n, .cons hs hsn, .cons ht htn⟩

/-- Related lists are the two sides of a list of pairs. -/
theorem exists_pairs_of_forall₂ {α β : Type} {R : α → β → Prop} {l : List α} {m : List β}
    (h : List.Forall₂ R l m) : ∃ pairs : List (α × β),
      l = pairs.map Prod.fst ∧ m = pairs.map Prod.snd ∧ ∀ p ∈ pairs, R p.1 p.2 := by
  obtain ⟨hlen, hzip⟩ := List.forall₂_iff_zip.1 h
  refine ⟨l.zip m, ?_, ?_, fun p hp => hzip hp⟩
  · exact (List.map_fst_zip (Nat.le_of_eq hlen)).symm
  · exact (List.map_snd_zip (Nat.le_of_eq hlen.symm)).symm

theorem forall₂_of_pairs {α β : Type} {R : α → β → Prop} {pairs : List (α × β)}
    (h : ∀ p ∈ pairs, R p.1 p.2) : List.Forall₂ R (pairs.map Prod.fst) (pairs.map Prod.snd) := by
  rw [List.forall₂_map_left_iff, List.forall₂_map_right_iff, List.forall₂_same]
  exact h

/-- An optional value that has a form if it is there. -/
theorem optional_iff {α : Type} {o : Option Json} (encode : α → Json) (default : α) :
    (∀ v, o = some v → ∃ a, v = encode a) ↔
      ∃ a, o = some (encode a) ∨ (o = none ∧ a = default) := by
  cases o with
  | none => simp
  | some v => simp

namespace Load

variable {α β : Type}

theorem bind_eq_ok {x : Load α} {f : α → Load β} {b : β} :
    x >>= f = .ok b ↔ ∃ a, x = .ok a ∧ f a = .ok b := by
  cases x with
  | error e => simp [bind, Except.bind]
  | ok a => simp [bind, Except.bind]

theorem pure_eq_ok {a b : α} : (pure a : Load α) = .ok b ↔ a = b := by
  simp [pure, Except.pure]

theorem fail_ne_ok {cause : Cause} {a : α} : (fail cause : Load α) ≠ .ok a := nofun

theorem within_eq_ok {s : Segment} {x : Load α} {a : α} : within s x = .ok a ↔ x = .ok a := by
  cases x with
  | error f => simp [within, Except.mapError]
  | ok b => rfl

theorem bind_eq_error {x : Load α} {k : α → Load β} {f : Fault} :
    x >>= k = .error f ↔ x = .error f ∨ ∃ a, x = .ok a ∧ k a = .error f := by
  cases x with
  | error e => simp [bind, Except.bind]
  | ok a => simp [bind, Except.bind]

theorem pure_ne_error {a : α} {f : Fault} : (pure a : Load α) ≠ .error f := nofun

theorem within_eq_error {s : Segment} {x : Load α} {f : Fault} :
    within s x = .error f ↔ ∃ g, x = .error g ∧ f = g.within s := by
  cases x with
  | error g => simp [within, Except.mapError, eq_comm]
  | ok a => simp [within, Except.mapError]

theorem foldr_within_eq_ok {path : List Segment} {x : Load α} {a : α} :
    path.foldr within x = .ok a ↔ x = .ok a := by
  induction path with
  | nil => rfl
  | cons s path ih => rw [List.foldr_cons, within_eq_ok, ih]

/-- Each step on the way out is put in front. -/
theorem foldr_within_eq_error {path : List Segment} {x : Load α} {f : Fault} :
    path.foldr within x = .error f ↔
      ∃ g, x = .error g ∧ f = { g with path := path ++ g.path } := by
  induction path generalizing f with
  | nil => simp
  | cons s path ih =>
    rw [List.foldr_cons, within_eq_error]
    simp only [ih]
    constructor
    · rintro ⟨-, ⟨g, hg, rfl⟩, rfl⟩
      exact ⟨g, hg, rfl⟩
    · rintro ⟨g, hg, rfl⟩
      exact ⟨_, ⟨g, hg, rfl⟩, rfl⟩

theorem object_eq_ok {j : Json} {members : List (String × Json)} :
    object j = .ok members ↔ j = .object members := by
  cases j <;> simp [object, fail]

theorem array_eq_ok {j : Json} {items : List Json} : array j = .ok items ↔ j = .array items := by
  cases j <;> simp [array, fail]

theorem string_eq_ok {j : Json} {s : String} : string j = .ok s ↔ j = .string s := by
  cases j <;> simp [string, fail]

theorem bool_eq_ok {j : Json} {b : Bool} : bool j = .ok b ↔ j = .bool b := by
  cases j <;> simp [bool, fail]

theorem named_eq_ok {ofName? : String → Option α} {unknown : String → Cause} {j : Json} {a : α} :
    named ofName? unknown j = .ok a ↔ ∃ name, j = .string name ∧ ofName? name = some a := by
  rw [named, bind_eq_ok]
  refine exists_congr fun name => and_congr string_eq_ok ?_
  cases ofName? name with
  | none => simp [fail]
  | some b => simp [pure_eq_ok]

theorem each_eq_ok {read : Json → Load α} {i : Nat} {items : List Json} {as : List α} :
    each read i items = .ok as ↔ List.Forall₂ (fun j a => read j = .ok a) items as := by
  induction items generalizing i as with
  | nil =>
    rw [each, List.forall₂_nil_left_iff, Except.ok.injEq]
    exact eq_comm
  | cons j rest ih =>
    simp only [each, bind_eq_ok, within_eq_ok, pure_eq_ok, ih, List.forall₂_cons_left_iff]
    refine ⟨fun h => ?_, fun h => ?_⟩
    · obtain ⟨a, ha, as', has, rfl⟩ := h
      exact ⟨a, as', ha, has, rfl⟩
    · obtain ⟨a, as', ha, has, rfl⟩ := h
      exact ⟨a, ha, as', has, rfl⟩

theorem arrayOf_eq_ok {read : Json → Load α} {j : Json} {as : List α} :
    arrayOf read j = .ok as ↔
      ∃ items, j = .array items ∧ List.Forall₂ (fun j a => read j = .ok a) items as := by
  simp only [arrayOf, bind_eq_ok, array_eq_ok, each_eq_ok]

theorem field_eq_ok {name : String} {read : Json → Load α} {members : List (String × Json)}
    {a : α} : field name read members = .ok a ↔
      ∃ j, Json.member? name members = some j ∧ read j = .ok a := by
  rw [field, within_eq_ok]
  cases Json.member? name members with
  | none => simp [fail]
  | some j => simp

theorem fieldOr_eq_ok {default : α} {name : String} {read : Json → Load α}
    {members : List (String × Json)} {a : α} : fieldOr default name read members = .ok a ↔
      (∃ j, Json.member? name members = some j ∧ read j = .ok a) ∨
        (Json.member? name members = none ∧ a = default) := by
  rw [fieldOr]
  cases Json.member? name members with
  | none => simp [eq_comm]
  | some j => simp [within_eq_ok]

end Load

end FocusRules
