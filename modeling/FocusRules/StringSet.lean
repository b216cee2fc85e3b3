import FocusRules.Dictionary

/-! Finite sets of strings: dictionaries without values. Two sets with the same members are equal,
and the members are listed in ascending order. -/

namespace FocusRules

structure StringSet where
  entries : Dictionary Unit
deriving DecidableEq

namespace StringSet

def empty : StringSet := ⟨∅⟩

instance : EmptyCollection StringSet := ⟨empty⟩
instance : Inhabited StringSet := ⟨empty⟩

def insert (s : StringSet) (x : String) : StringSet := ⟨s.entries.insert x ()⟩

def contains (s : StringSet) (x : String) : Bool := (s.entries.find? x).isSome

def toList (s : StringSet) : List String := s.entries.keys

def ofList (l : List String) : StringSet := l.foldl insert ∅

instance : Membership String StringSet := ⟨fun s x => s.contains x = true⟩

instance (x : String) (s : StringSet) : Decidable (x ∈ s) :=
  inferInstanceAs (Decidable (s.contains x = true))

theorem contains_iff {s : StringSet} {x : String} : s.contains x = true ↔ x ∈ s := Iff.rfl

@[simp] theorem not_mem_empty (x : String) : ¬x ∈ (∅ : StringSet) := Bool.false_ne_true

@[simp] theorem mem_insert {s : StringSet} {x y : String} : y ∈ s.insert x ↔ y = x ∨ y ∈ s := by
  simp only [← contains_iff, contains, insert, Dictionary.find?_insert]
  by_cases h : y = x <;> simp [h]

theorem mem_foldl_insert {l : List String} {s : StringSet} {x : String} :
    x ∈ l.foldl insert s ↔ x ∈ l ∨ x ∈ s := by
  induction l generalizing s with
  | nil => simp
  | cons a l ih => rw [List.foldl_cons, ih, mem_insert, List.mem_cons]; grind

@[simp] theorem mem_ofList {l : List String} {x : String} : x ∈ ofList l ↔ x ∈ l := by
  simp [ofList, mem_foldl_insert]

theorem mem_toList {s : StringSet} {x : String} : x ∈ s.toList ↔ x ∈ s := by
  rw [toList, Dictionary.mem_keys_iff, ← contains_iff, contains]

@[ext] theorem ext {s t : StringSet} (h : ∀ x, x ∈ s ↔ x ∈ t) : s = t := by
  have he : s.entries = t.entries := Dictionary.ext fun k => by
    have := h k
    simp only [← contains_iff, contains] at this
    cases hs : s.entries.find? k <;> cases ht : t.entries.find? k <;> simp_all
  cases s; cases t; cases he; rfl

def meets (s t : StringSet) : Bool := t.toList.any s.contains

theorem meets_iff {s t : StringSet} : s.meets t = true ↔ ∃ x, x ∈ s ∧ x ∈ t := by
  simp only [meets, List.any_eq_true, mem_toList, contains_iff]
  exact ⟨fun ⟨x, ht, hs⟩ => ⟨x, hs, ht⟩, fun ⟨x, hs, ht⟩ => ⟨x, ht, hs⟩⟩

end StringSet

end FocusRules
