import FocusRules.Item

/-! Conditions: items or further conditions joined by one way of combining them. A condition is read
against a truth of its items; what makes an item true is a matter of evaluation. -/

namespace FocusRules

inductive Mode where
  | unknown
  | single
  | and
  | or
deriving DecidableEq

namespace Mode

def name : Mode → String
  | unknown => "unknown"
  | single => "single"
  | and => "and"
  | or => "or"

/-- The modes that a document may name: all but the one that stands for a broken condition. -/
def named : List Mode := [single, and, or]

def ofName? (s : String) : Option Mode := named.find? (·.name = s)

theorem name_of_ofName? {s : String} {m : Mode} (h : ofName? s = some m) : m.name = s := by
  simpa using List.find?_some h

theorem ofName?_ne_unknown (s : String) : ofName? s ≠ some unknown := fun h => by
  simpa [named] using List.mem_of_find?_eq_some h

end Mode

inductive Condition where
  | flat (mode : Mode) (items : List Item)
  | combined (mode : Mode) (parts : List Condition)

namespace Condition

/-- Stands where a condition could not be read, and never holds. -/
def placeholder : Condition := flat .unknown []

instance : Inhabited Condition := ⟨placeholder⟩

def single (item : Item) : Condition := flat .single [item]

def mode : Condition → Mode
  | flat mode _ => mode
  | combined mode _ => mode

def isCombined : Condition → Bool
  | flat _ _ => false
  | combined _ _ => true

def items : Condition → List Item
  | flat _ items => items
  | combined _ _ => []

def parts : Condition → List Condition
  | flat _ _ => []
  | combined _ parts => parts

/-- Induction over the parts of combined conditions. -/
@[induction_eliminator, elab_as_elim]
theorem inductionOn {motive : Condition → Prop} (flat : ∀ mode items, motive (.flat mode items))
    (combined : ∀ mode parts, (∀ c ∈ parts, motive c) → motive (.combined mode parts))
    (c : Condition) : motive c := by
  refine @Condition.rec motive (fun parts => ∀ c ∈ parts, motive c) flat combined ?_ ?_ c
  · exact fun c hc => absurd hc List.not_mem_nil
  · intro c rest hc hrest d hd
    rcases List.mem_cons.1 hd with rfl | hd
    · exact hc
    · exact hrest d hd

mutual

/-- The items of a condition, at any depth. -/
def atoms : Condition → List Item
  | flat _ items => items
  | combined _ parts => atomsOf parts

def atomsOf : List Condition → List Item
  | [] => []
  | c :: rest => atoms c ++ atomsOf rest

end

@[simp] theorem atoms_flat (mode : Mode) (items : List Item) : (flat mode items).atoms = items := by
  rw [atoms]

@[simp] theorem atoms_combined (mode : Mode) (parts : List Condition) :
    (combined mode parts).atoms = parts.flatMap atoms := by
  rw [atoms]
  induction parts with
  | nil => rfl
  | cons c rest ih => rw [atomsOf, ih, List.flatMap_cons]

theorem mem_atoms_combined {mode : Mode} {parts : List Condition} {item : Item} :
    item ∈ (combined mode parts).atoms ↔ ∃ c ∈ parts, item ∈ c.atoms := by
  rw [atoms_combined, List.mem_flatMap]

mutual

/-- An `and` holds where all parts do and an `or` where some part does. A `single` holds by its one
item, and with any other body never. -/
def holdsBy (truth : Item → Bool) : Condition → Bool
  | flat .single [item] => truth item
  | flat .single _ => false
  | flat .and items => items.all truth
  | flat .or items => items.any truth
  | flat .unknown _ => false
  | combined .and parts => allHoldBy truth parts
  | combined .or parts => someHoldsBy truth parts
  | combined .single _ => false
  | combined .unknown _ => false

def allHoldBy (truth : Item → Bool) : List Condition → Bool
  | [] => true
  | c :: rest => holdsBy truth c && allHoldBy truth rest

def someHoldsBy (truth : Item → Bool) : List Condition → Bool
  | [] => false
  | c :: rest => holdsBy truth c || someHoldsBy truth rest

end

theorem allHoldBy_eq (truth : Item → Bool) (parts : List Condition) :
    allHoldBy truth parts = parts.all (holdsBy truth) := by
  induction parts with
  | nil => rfl
  | cons c rest ih => rw [allHoldBy, ih, List.all_cons]

theorem someHoldsBy_eq (truth : Item → Bool) (parts : List Condition) :
    someHoldsBy truth parts = parts.any (holdsBy truth) := by
  induction parts with
  | nil => rfl
  | cons c rest ih => rw [someHoldsBy, ih, List.any_cons]

theorem holdsBy_placeholder (truth : Item → Bool) : placeholder.holdsBy truth = false := rfl

end Condition

end FocusRules
