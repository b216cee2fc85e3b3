import FocusRules.Document.Loader

/-! A checker holds the first rule set that is accepted, for good. Until then every document that is
offered is tried, and queries get fixed answers: nothing is readable or of any class, and every node
is available. How far a checker has come is told by four cells that are set one by one. -/

namespace FocusRules

structure Checker where
  strictness : Strictness := .lenient
  /-- Whether any document has been offered. -/
  isChecked : Bool := false
  /-- Whether any document has been refused. -/
  hasFailed : Bool := false
  /-- How many documents are being tried. -/
  pending : Nat := 0
  rules? : Option RuleSet := none

namespace Checker

inductive State where
  | uninitialized
  | initializing
  | failed
  | initialized
deriving DecidableEq

def State.name : State → String
  | uninitialized => "uninitialized"
  | initializing => "initializing"
  | failed => "failed"
  | initialized => "initialized"

/-- Tries a document and puts its rule set in place, unless there is one by now. -/
def install (c : Checker) (text : String) : Bool × Checker :=
  match c.rules? with
  | some _ => (true, c)
  | none =>
    match RuleSet.ofText c.strictness text with
    | .ok rules => (true, { c with rules? := some rules })
    | .error _ => (false, { c with hasFailed := true })

/-- Offers a document, and tells whether a rule set is in place afterwards. -/
def init (c : Checker) (text : String) : Bool × Checker :=
  let c := { c with isChecked := true }
  match c.rules? with
  | some _ => (true, c)
  | none =>
    let (done, c) := { c with pending := c.pending + 1 }.install text
    (done, { c with pending := c.pending - 1 })

def isInitialized (c : Checker) : Bool := c.rules?.isSome

def state (c : Checker) : State :=
  if c.isInitialized then .initialized
  else if 0 < c.pending then .initializing
  else if c.hasFailed then .failed
  else .uninitialized

def isReadable (c : Checker) (g : NodeGraph) (v : Fin g.size) : Bool :=
  c.rules?.any (·.isReadable g v)

def isRoot (c : Checker) (n : Node) : Bool := c.rules?.any (·.types.isRoot n)

def isScrollIgnored (c : Checker) (n : Node) : Bool := c.rules?.any (·.types.isScrollIgnored n)

def isScrollable (c : Checker) (n : Node) : Bool := c.rules?.any (·.types.isScrollable n)

def isAvailable (c : Checker) (g : NodeGraph) (v : Fin g.size) : Bool :=
  c.rules?.all (·.types.isAvailable g v)

inductive Call where
  | init (text : String)
  | status
  | ask (g : NodeGraph) (v : Fin g.size)

structure Status where
  state : State
  isInitialized : Bool
  isChecked : Bool
  rules? : Option RuleSet

structure Answers where
  isReadable : Bool
  isRoot : Bool
  isScrollIgnored : Bool
  isScrollable : Bool
  isAvailable : Bool
deriving DecidableEq

inductive Reply where
  | init (done : Bool)
  | status (status : Status)
  | answers (answers : Answers)

def status (c : Checker) : Status := ⟨c.state, c.isInitialized, c.isChecked, c.rules?⟩

def answers (c : Checker) (g : NodeGraph) (v : Fin g.size) : Answers :=
  ⟨c.isReadable g v, c.isRoot (g.node v), c.isScrollIgnored (g.node v), c.isScrollable (g.node v),
    c.isAvailable g v⟩

def perform (c : Checker) : Call → Reply × Checker
  | .init text => ((.init (c.init text).1), (c.init text).2)
  | .status => (.status c.status, c)
  | .ask g v => (.answers (c.answers g v), c)

def run (c : Checker) : List Call → List Reply × Checker
  | [] => ([], c)
  | call :: rest =>
    let (reply, c) := c.perform call
    let (replies, c) := c.run rest
    (reply :: replies, c)

end Checker

end FocusRules
