import FocusRules.Json.Basic
import FocusRules.Json.Token

/-! The value of JSON text. Tokens are taken one after the other; the arrays and objects that are
not closed yet form a stack, whose height is limited. -/

namespace FocusRules.Json

/-- An array or object that is not closed yet, with what it holds so far, last first. -/
inductive Frame where
  | array (items : List Json)
  | object (members : List (String × Json)) (name : String)

inductive Expect where
  /-- A value, or the end of the array that has just begun. -/
  | firstItem
  /-- A name, or the end of the object that has just begun. -/
  | firstName
  | value
  | name
  | nameSeparator
  /-- A separator, or the end of the innermost array or object. -/
  | more
  | nothing

structure Reading where
  stack : List Frame := []
  expect : Expect := .value
  /-- The value read last, which is the whole once nothing more may come. -/
  done : Json := .null

namespace Reading

def put (v : Json) : List Frame → Reading
  | [] => ⟨[], .nothing, v⟩
  | .array items :: stack => ⟨.array (v :: items) :: stack, .more, v⟩
  | .object members name :: stack => ⟨.object ((name, v) :: members) name :: stack, .more, v⟩

/-- Begins an array or object, unless as many as may be are open. -/
def enter (limit : Nat) (r : Reading) (frame : Frame) (expect : Expect) : Option Reading :=
  if r.stack.length < limit then some { r with stack := frame :: r.stack, expect } else none

def value? (limit : Nat) (r : Reading) : Token → Option Reading
  | .null => some (put .null r.stack)
  | .bool b => some (put (.bool b) r.stack)
  | .number n => some (put (.number n) r.stack)
  | .string s => some (put (.string s) r.stack)
  | .beginArray => r.enter limit (.array []) .firstItem
  | .beginObject => r.enter limit (.object [] "") .firstName
  | _ => none

def leave? (r : Reading) : Token → Option Reading
  | .endArray =>
    match r.stack with
    | .array items :: stack => some (put (.array items.reverse) stack)
    | _ => none
  | .endObject =>
    match r.stack with
    | .object members _ :: stack => some (put (.object members.reverse) stack)
    | _ => none
  | _ => none

def name? (r : Reading) : Token → Option Reading
  | .string s =>
    match r.stack with
    | .object members _ :: stack =>
      some { r with stack := .object members s :: stack, expect := .nameSeparator }
    | _ => none
  | _ => none

def step (limit : Nat) (r : Reading) (t : Token) : Option Reading :=
  match r.expect with
  | .firstItem => if t = .endArray then r.leave? t else r.value? limit t
  | .firstName => if t = .endObject then r.leave? t else r.name? t
  | .value => r.value? limit t
  | .name => r.name? t
  | .nameSeparator => if t = .nameSeparator then some { r with expect := .value } else none
  | .more =>
    if t = .valueSeparator then
      match r.stack with
      | .array _ :: _ => some { r with expect := .value }
      | .object _ _ :: _ => some { r with expect := .name }
      | [] => none
    else r.leave? t
  | .nothing => none

def result? (r : Reading) : Option Json :=
  match r.expect with
  | .nothing => some r.done
  | _ => none

end Reading

def depthLimit : Nat := 127

def ofTokens? (limit : Nat) (tokens : List Token) : Option Json := do
  (← tokens.foldlM (Reading.step limit) {}).result?

/-- The one value that a text holds, nested no deeper than `limit`. -/
def read? (text : String) (limit : Nat := depthLimit) : Option Json := do
  ofTokens? limit (← Token.scan? text)

end FocusRules.Json
