import FocusRules.Proofs.Acceptance
import FocusRules.Proofs.RoundTrip

/-! Which nodes a loaded rule set counts to a class of types. A node belongs to a class where its
type is one of the names that the document lists for the class, but for the case of ASCII letters,
and a root node has to be modal too. Adding names to type classes, in any order and as often as one
likes, comes to adding the set of their folded forms. -/

namespace FocusRules

def IsCapitalOf (a b : Char) : Prop := 'A' ≤ a ∧ a ≤ 'Z' ∧ b.toNat = a.toNat + 32

def SameLetter (a b : Char) : Prop := a = b ∨ IsCapitalOf a b ∨ IsCapitalOf b a

/-- The strings agree character by character, but for the case of ASCII letters. -/
def SameFolded (s t : String) : Prop := List.Forall₂ SameLetter s.toList t.toList

instance (a b : Char) : Decidable (IsCapitalOf a b) := inferInstanceAs (Decidable (_ ∧ _))

instance : DecidableRel SameLetter := fun _ _ => inferInstanceAs (Decidable (_ ∨ _))

instance (s t : String) : Decidable (SameFolded s t) :=
  inferInstanceAs (Decidable (List.Forall₂ _ _ _))

theorem isCapitalOf_iff {a b : Char} :
    IsCapitalOf a b ↔ 65 ≤ a.toNat ∧ a.toNat ≤ 90 ∧ b.toNat = a.toNat + 32 := by
  simp [IsCapitalOf, Char.le_def, UInt32.le_iff_toNat_le]

theorem toNat_toLower (c : Char) :
    c.toLower.toNat = if 65 ≤ c.toNat ∧ c.toNat ≤ 90 then c.toNat + 32 else c.toNat := by
  have hcapital : c.val ≥ 'A'.val ∧ c.val ≤ 'Z'.val ↔ 65 ≤ c.toNat ∧ c.toNat ≤ 90 := by
    simp [UInt32.le_iff_toNat_le]
  by_cases h : c.val ≥ 'A'.val ∧ c.val ≤ 'Z'.val
  · have hcode := hcapital.1 h
    have hadd : (c.val + ('a'.val - 'A'.val)).toNat = c.toNat + 32 := by
      rw [UInt32.toNat_add, Char.toNat_val]
      have hshift : ('a'.val - 'A'.val).toNat = 32 := rfl
      omega
    have hlower : c.toLower = ⟨c.val + ('a'.val - 'A'.val), _⟩ := dif_pos h
    rw [hlower, if_pos hcode]
    exact hadd
  · have hlower : c.toLower = c := dif_neg h
    rw [hlower, if_neg (mt hcapital.2 h)]

theorem toLower_eq_iff {a b : Char} : a.toLower = b.toLower ↔ SameLetter a b := by
  rw [SameLetter, isCapitalOf_iff, isCapitalOf_iff, ← Char.toNat_inj, ← Char.toNat_inj,
    toNat_toLower, toNat_toLower]
  split <;> split <;> omega

theorem foldCase_eq_iff {s t : String} :
    TypeClasses.foldCase s = TypeClasses.foldCase t ↔ SameFolded s t := by
  rw [TypeClasses.foldCase, TypeClasses.foldCase, ← String.toList_inj, String.toList_map,
    String.toList_map, ← List.forall₂_eq_eq_eq, List.forall₂_map_left_iff,
    List.forall₂_map_right_iff, SameFolded]
  simp only [toLower_eq_iff]

example : SameFolded "ListΣ" "LISTΣ" ∧ ¬SameFolded "ListΣ" "Listσ" := by decide

namespace TypeClasses

def addEach (types : TypeClasses) (calls : List (TypeClass × String)) : TypeClasses :=
  calls.foldl (fun types call => types.add call.2 call.1) types

/-- The folded forms of the names that were added to a class. -/
def folded (k : TypeClass) (calls : List (TypeClass × String)) : Set String :=
  {x | ∃ name, (k, name) ∈ calls ∧ foldCase name = x}

theorem has_addEach_iff {types : TypeClasses} {calls : List (TypeClass × String)} {k : TypeClass}
    {type : String} : (types.addEach calls).has k type = true ↔
      foldCase type ∈ folded k calls ∨ types.has k type = true := mem_names_foldl

theorem foldCase_mem_folded_iff {calls : List (TypeClass × String)} {k : TypeClass}
    {type : String} : foldCase type ∈ folded k calls ↔
      ∃ name, (k, name) ∈ calls ∧ SameFolded name type := by
  refine exists_congr fun name => and_congr_right fun _ => ?_
  exact foldCase_eq_iff

end TypeClasses

namespace RuleSet

open TypeClasses

/-- A document gives the rule set, as a value or as a text that holds the value. -/
def LoadedFrom (s : Strictness) (j : Json) (rules : RuleSet) : Prop :=
  ofJson s j = .ok rules ∨ ∃ text, Json.read? text = some j ∧ ofText s text = .ok rules

/-- Some string that the document lists under this key is the type, but for the case of ASCII
letters. -/
def Lists (j : Json) (key type : String) : Prop :=
  ∃ defines items name, j.get? "defines" = some defines ∧ defines.get? key = some (.array items) ∧
    .string name ∈ items ∧ SameFolded name type

variable {s : Strictness} {j : Json} {rules : RuleSet} {n : Node}

theorem LoadedFrom.ofJson_eq_ok (h : LoadedFrom s j rules) : ofJson s j = .ok rules := by
  obtain h | ⟨text, hread, htext⟩ := h
  · exact h
  · have hmap : (ofJson s j).mapError Refusal.fault = .ok rules := by
      rwa [ofText, hread] at htext
    cases hj : ofJson s j with
    | ok rules' => rw [hj] at hmap; exact congrArg _ (Except.ok.inj hmap)
    | error f => rw [hj] at hmap; cases hmap

theorem LoadedFrom.has_iff (h : LoadedFrom s j rules) (k : TypeClass) (type : String) :
    rules.types.has k type = true ↔ Lists j k.key type := by
  obtain ⟨⟨defines, hdefines, -, hread⟩, -, -⟩ := ofJson_iff_readFrom.1 h.ofJson_eq_ok
  have hnames : rules.types.has k type = true ↔ ∃ items name,
      defines.get? k.key = some (.array items) ∧ .string name ∈ items ∧
        foldCase name = foldCase type := hread k (foldCase type)
  rw [hnames, Lists]
  simp only [hdefines, Option.some.injEq, exists_and_left, exists_eq_left', foldCase_eq_iff]

/-- A loaded rule set counts a node to a class where the document lists the node's type for the
class, and to the roots where the node is modal besides; what the list of scrollable types holds
besides strings counts for nothing. And names added to type classes come to the set of their folded
forms: a class has a type that it had before or whose folded form was added to it, so calls that add
the same set to a class have the same effect on it. -/
theorem types_decide_classes :
    (∀ s j rules, LoadedFrom s j rules → ∀ n : Node,
      (rules.types.isScrollIgnored n = true ↔
        ∃ type, n.attributes.type = some type ∧ Lists j "disabled_scroll_types" type) ∧
      (rules.types.isScrollable n = true ↔
        ∃ type, n.attributes.type = some type ∧ Lists j "scrollable_types" type) ∧
      (rules.types.isRoot n = true ↔
        (∃ type, n.attributes.type = some type ∧ Lists j "root_types" type) ∧ n.modal = true)) ∧
    ∀ (types : TypeClasses) (calls : List (TypeClass × String)) (k : TypeClass),
      (∀ type, (types.addEach calls).has k type = true ↔
        (∃ name, (k, name) ∈ calls ∧ SameFolded name type) ∨ types.has k type = true) ∧
      ∀ calls', folded k calls = folded k calls' → ∀ type,
        (types.addEach calls).has k type = (types.addEach calls').has k type := by
  refine ⟨fun s j rules h n => ?_, fun types calls k => ⟨fun type => ?_, ?_⟩⟩
  · have hany : ∀ k, n.attributes.type.any (rules.types.has k) = true ↔
        ∃ type, n.attributes.type = some type ∧ Lists j k.key type := by
      intro k
      rw [Option.any_eq_true]
      exact exists_congr fun type => and_congr_right fun _ => h.has_iff k type
    refine ⟨hany .scrollIgnore, hany .scrollable, ?_⟩
    rw [isRoot, Bool.and_eq_true, hany]
    rfl
  · rw [has_addEach_iff, foldCase_mem_folded_iff]
  · intro calls' hsame type
    rw [Bool.eq_iff_iff, has_addEach_iff, has_addEach_iff, hsame]

def onePerClass : Json := .object [
  ("defines", .object [
    ("root_types", .array [.string "Dialog"]),
    ("disabled_scroll_types", .array [.string "Swiper"]),
    ("scrollable_types", .array [.number (.integer 7), .string "ListΣ"])]),
  ("rules", .array [.object [
    ("name", .string "buttons"), ("isfocus", .bool true),
    ("check", .object [
      ("condition_type", .string "single"),
      ("condition", .object [("prop", .string "type"), ("operator", .string "eq"),
        ("value", .string "Button")])])]])]

theorem types_decide_classes_onePerClass :
    let list : Node := { id := 1, attributes := { type := some "LISTΣ" } }
    let dialog : Node := { id := 2, attributes := { type := some "dialog" }, modal := false }
    let calls : List (TypeClass × String) := [(.root, "Dialog"), (.scrollable, "List")]
    let calls' : List (TypeClass × String) := [(.root, "DIALOG"), (.root, "dialog")]
    (∃ rules, LoadedFrom .strict onePerClass rules ∧ rules.types.isScrollable list = true ∧
      ¬rules.types.isRoot dialog = true) ∧
    folded .root calls = folded .root calls' ∧
      ∀ type, (addEach {} calls).has .root type = (addEach {} calls').has .root type := by
  intro list dialog calls calls'
  have hlists : Lists onePerClass "scrollable_types" "LISTΣ" :=
    ⟨_, _, "ListΣ", rfl, rfl, .tail _ (.head _), by decide⟩
  have hcapitals : foldCase "DIALOG" = foldCase "Dialog" := foldCase_eq_iff.2 (by decide)
  have hsmall : foldCase "dialog" = foldCase "Dialog" := foldCase_eq_iff.2 (by decide)
  have hsame : folded .root calls = folded .root calls' := by
    ext x
    simp [folded, calls, calls', hcapitals, hsmall]
  obtain ⟨rules, h⟩ : ∃ rules, ofJson .strict onePerClass = .ok rules := ⟨_, rfl⟩
  obtain ⟨hloaded, hadded⟩ := types_decide_classes
  obtain ⟨-, hscrollable, -⟩ := hloaded .strict onePerClass rules (.inl h) list
  obtain ⟨-, -, hroot⟩ := hloaded .strict onePerClass rules (.inl h) dialog
  refine ⟨⟨rules, .inl h, hscrollable.2 ⟨_, rfl, hlists⟩, fun hr => ?_⟩, hsame, ?_⟩
  · exact absurd (hroot.1 hr).2 (by decide)
  · exact (hadded {} calls .root).2 calls' hsame

end RuleSet

end FocusRules
