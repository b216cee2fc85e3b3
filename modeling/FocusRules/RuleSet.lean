import FocusRules.Evaluation
import FocusRules.TypeClasses

/-! Rules and rule sets. The first rule whose condition holds at a node decides whether the node is
readable, and names itself in the verdict. -/

namespace FocusRules

structure Rule where
  name : String
  condition : Condition
  isFocus : Bool

inductive Outcome where
  | handled (readable : Bool)
  | unhandled
deriving DecidableEq

namespace Outcome

def isHandled : Outcome → Bool
  | handled _ => true
  | unhandled => false

def readable : Outcome → Bool
  | handled readable => readable
  | unhandled => false

end Outcome

namespace Rule

def outcome (r : Rule) (predicates : Predicates) (g : NodeGraph) (v : Fin g.size) : Outcome :=
  if r.condition.holds predicates g v then .handled r.isFocus else .unhandled

end Rule

structure Verdict where
  rule : String
  readable : Bool
deriving DecidableEq

def Verdict.render (v : Verdict) : String := v.rule ++ " = " ++ toString v.readable

structure RuleSet where
  types : TypeClasses := {}
  predicates : Predicates := ∅
  rules : List Rule := []

namespace RuleSet

instance : Inhabited RuleSet := ⟨{}⟩

def withTypes (s : RuleSet) (types : TypeClasses) : RuleSet := { s with types }

/-- Later definitions of a name replace earlier ones. -/
def define (s : RuleSet) (name : String) (condition : Condition) : RuleSet :=
  { s with predicates := s.predicates.insert name condition }

/-- Rules are tried in the order in which they were added. -/
def addRule (s : RuleSet) (rule : Rule) : RuleSet := { s with rules := s.rules ++ [rule] }

def ruleNames (s : RuleSet) : List String := s.rules.map (·.name)

def evaluate (s : RuleSet) (g : NodeGraph) (v : Fin g.size) : Option Verdict :=
  s.rules.findSome? fun r =>
    match r.outcome s.predicates g v with
    | .handled readable => some ⟨r.name, readable⟩
    | .unhandled => none

def isReadable (s : RuleSet) (g : NodeGraph) (v : Fin g.size) : Bool :=
  (s.evaluate g v).any (·.readable)

def render (s : RuleSet) : String :=
  "ReadableRules(" ++ toString s.rules.length ++ " rules, " ++ toString s.predicates.size
    ++ " custom props)"

end RuleSet

end FocusRules
