import FocusRules.Condition
import FocusRules.Json.Basic

/-! Why a rule document is refused. A fault is a cause and the path from the root of the document to
the value that it is about. Readers report paths from the value that they read, and each enclosing
reader puts its own step in front. -/

namespace FocusRules

inductive Segment where
  | key (name : String)
  | index (i : Nat)
deriving DecidableEq

inductive Shape where
  | object
  | array
  | string
  | bool
  | comparand
deriving DecidableEq

def Shape.describe : Shape → String
  | object => "an object"
  | array => "an array"
  | string => "a string"
  | bool => "a boolean"
  | comparand => "a boolean, string, array of strings or number"

inductive Cause where
  | missing
  | expected (shape : Shape)
  | noRules
  | noParts
  | tooFewItems (mode : Mode)
  | unknownMode (name : String)
  | unknownOperator (name : String)
  | unknownTarget (name : String)
  | outOfRange (n : Json.Number)
deriving DecidableEq

def Cause.message : Cause → String
  | missing => "required field is missing"
  | expected shape => "expected " ++ shape.describe
  | noRules => "at least one rule is required"
  | noParts => "at least one condition is required"
  | tooFewItems mode => "'" ++ mode.name ++ "' needs at least two items"
  | unknownMode name => "unknown condition type '" ++ name ++ "'"
  | unknownOperator name => "unknown operator '" ++ name ++ "'"
  | unknownTarget name => "unknown target '" ++ name ++ "'"
  | outOfRange n => "number " ++ n.render ++ " does not fit in 32 bits"

structure Fault where
  path : List Segment := []
  cause : Cause
deriving DecidableEq

namespace Fault

def within (s : Segment) (f : Fault) : Fault := { f with path := s :: f.path }

/-- A key stands behind a point, except at the beginning, and an index in brackets. -/
def extend (path : String) : Segment → String
  | .key name => if path = "" then name else path ++ "." ++ name
  | .index i => path ++ "[" ++ toString i ++ "]"

def renderPath (f : Fault) : String := f.path.foldl extend ""

def render (f : Fault) : String :=
  if f.renderPath = "" then "parse error: " ++ f.cause.message
  else "parse error at " ++ f.renderPath ++ ": " ++ f.cause.message

end Fault

abbrev Load (α : Type) := Except Fault α

namespace Load

variable {α : Type}

def fail (cause : Cause) : Load α := .error { cause }

def within (s : Segment) (x : Load α) : Load α := x.mapError (·.within s)

def object : Json → Load (List (String × Json))
  | .object members => .ok members
  | _ => fail (.expected .object)

def array : Json → Load (List Json)
  | .array items => .ok items
  | _ => fail (.expected .array)

def string : Json → Load String
  | .string s => .ok s
  | _ => fail (.expected .string)

def bool : Json → Load Bool
  | .bool b => .ok b
  | _ => fail (.expected .bool)

def named (ofName? : String → Option α) (unknown : String → Cause) (j : Json) : Load α := do
  let name ← string j
  match ofName? name with
  | some a => return a
  | none => fail (unknown name)

/-- Reads every value of a list, the first of them at place `i`. -/
def each (read : Json → Load α) (i : Nat) : List Json → Load (List α)
  | [] => .ok []
  | j :: rest => do
    let a ← within (.index i) (read j)
    return a :: (← each read (i + 1) rest)

def arrayOf (read : Json → Load α) (j : Json) : Load (List α) := do each read 0 (← array j)

def field (name : String) (read : Json → Load α) (members : List (String × Json)) : Load α :=
  within (.key name) <|
    match Json.member? name members with
    | some j => read j
    | none => fail .missing

def fieldOr (default : α) (name : String) (read : Json → Load α) (members : List (String × Json)) :
    Load α :=
  match Json.member? name members with
  | some j => within (.key name) (read j)
  | none => .ok default

end Load

end FocusRules
