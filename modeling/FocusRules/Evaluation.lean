import FocusRules.Condition

/-! When a condition holds at a node. Items may ask for named predicates, which are conditions
themselves and may ask for each other. Asking is guarded twice: a predicate that is already being
asked about the same id is not asked again, and at most 32 questions are open at a time. A question
that is not asked, like one about an undefined name, has no answer, and an item without an answer is
false whatever it expects. -/

namespace FocusRules

abbrev Predicates := Dictionary Condition

structure Question where
  name : String
  id : NodeId
deriving DecidableEq

def questionLimit : Nat := 32

namespace Item

/-- The answer that an item wants of a predicate. Only equality with a truth value is admissible. -/
def expected? (item : Item) : Option Bool :=
  match item.operator, item.value with
  | .eq, .bool b => some b
  | .ne, .bool b => some !b
  | _, _ => none

/-- Whether a node that the item looks at meets it, where `ask` answers for predicates. -/
def holdsAt (g : NodeGraph) (ask : String → Fin g.size → Option Bool) (t : Fin g.size)
    (item : Item) : Bool :=
  match item.subject with
  | .property name => ((g.node t).readNamed name).any (·.compare item.operator item.value)
  | .predicate name => item.expected?.any fun b => ask name t = some b

def holdsWith (g : NodeGraph) (ask : String → Fin g.size → Option Bool) (v : Fin g.size)
    (item : Item) : Bool :=
  (item.targets g v).any fun t => item.holdsAt g ask t

end Item

/-- The answer to a question, with so many more questions allowed and these ones open. -/
def answer (predicates : Predicates) (g : NodeGraph) :
    Nat → List Question → String → Fin g.size → Option Bool
  | 0, _, _, _ => none
  | left + 1, opened, name, v =>
    if ⟨name, g.id v⟩ ∈ opened then none
    else (predicates.find? name).map
      (Condition.holdsBy (Item.holdsWith g (answer predicates g left (⟨name, g.id v⟩ :: opened)) v))

def Item.holds (item : Item) (predicates : Predicates) (g : NodeGraph) (v : Fin g.size) : Bool :=
  item.holdsWith g (answer predicates g questionLimit []) v

def Condition.holds (c : Condition) (predicates : Predicates) (g : NodeGraph) (v : Fin g.size) :
    Bool :=
  c.holdsBy fun item => item.holds predicates g v

end FocusRules
