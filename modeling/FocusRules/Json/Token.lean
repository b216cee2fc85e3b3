import FocusRules.Json.Number

/-! The tokens of JSON text. The text is read one character at a time: between tokens, inside a
string, inside an escape of a string, or inside a word, which is a number or one of the three names.
A string holds no raw control character, and its escapes stand for whole characters, so a half of a
surrogate pair that stands alone is no JSON. -/

namespace FocusRules.Json

inductive Token where
  | beginArray
  | endArray
  | beginObject
  | endObject
  | nameSeparator
  | valueSeparator
  | null
  | bool (b : Bool)
  | number (n : Number)
  | string (s : String)
deriving DecidableEq

namespace Token

def isBlank (c : Char) : Bool := c = ' ' || c = '\t' || c = '\n' || c = '\r'

def structural? : Char → Option Token
  | '[' => some beginArray
  | ']' => some endArray
  | '{' => some beginObject
  | '}' => some endObject
  | ':' => some nameSeparator
  | ',' => some valueSeparator
  | _ => none

def ofWord? (cs : List Char) : Option Token :=
  if cs = ['n', 'u', 'l', 'l'] then some null
  else if cs = ['t', 'r', 'u', 'e'] then some (bool true)
  else if cs = ['f', 'a', 'l', 's', 'e'] then some (bool false)
  else ((Literal.ofChars? cs).bind Literal.number?).map number

def escaped? : Char → Option Char
  | '"' => some '"'
  | '\\' => some '\\'
  | '/' => some '/'
  | 'b' => some '\x08'
  | 'f' => some '\x0c'
  | 'n' => some '\n'
  | 'r' => some '\r'
  | 't' => some '\t'
  | _ => none

def hexDigit? (c : Char) : Option Nat :=
  if c.isDigit then some (c.toNat - '0'.toNat)
  else if 'a' ≤ c ∧ c ≤ 'f' then some (c.toNat - 'a'.toNat + 10)
  else if 'A' ≤ c ∧ c ≤ 'F' then some (c.toNat - 'A'.toNat + 10)
  else none

/-- Where the reading of a text stands. Characters and hexadecimal digits are held last first. -/
inductive Place where
  | between
  | word (cs : List Char)
  | string (cs : List Char)
  | escape (cs : List Char)
  | hex (cs : List Char) (high : Option Nat) (digits : List Nat)
  | pair (cs : List Char) (high : Nat)
  | pairEscape (cs : List Char) (high : Nat)
deriving Inhabited

/-- Goes on after an escape of four hexadecimal digits, where `high` is the first half of a pair
if the escape is to be the second. -/
def afterHex (cs : List Char) (high : Option Nat) (unit : Nat) : Option Place :=
  match high with
  | none =>
    if 0xD800 ≤ unit ∧ unit < 0xDC00 then some (.pair cs unit)
    else if 0xDC00 ≤ unit ∧ unit < 0xE000 then none
    else some (.string (Char.ofNat unit :: cs))
  | some high =>
    if 0xDC00 ≤ unit ∧ unit < 0xE000 then
      some (.string (Char.ofNat (0x10000 + (high - 0xD800) * 0x400 + (unit - 0xDC00)) :: cs))
    else none

structure Scan where
  tokens : List Token := []
  place : Place := .between
deriving Inhabited

namespace Scan

/-- A word ends where another token or a blank begins. -/
def close (s : Scan) : Option Scan :=
  match s.place with
  | .between => some s
  | .word cs => (ofWord? cs.reverse).map fun t => ⟨t :: s.tokens, .between⟩
  | _ => none

def step (s : Scan) (c : Char) : Option Scan :=
  match s.place with
  | .string cs =>
    if c = '"' then some ⟨.string (String.ofList cs.reverse) :: s.tokens, .between⟩
    else if c = '\\' then some { s with place := .escape cs }
    else if c < ' ' then none
    else some { s with place := .string (c :: cs) }
  | .escape cs =>
    if c = 'u' then some { s with place := .hex cs none [] }
    else (escaped? c).map fun d => { s with place := .string (d :: cs) }
  | .hex cs high digits =>
    (hexDigit? c).bind fun d =>
      match digits with
      | [z, y, x] =>
        (afterHex cs high (((x * 16 + y) * 16 + z) * 16 + d)).map fun p => { s with place := p }
      | _ => some { s with place := .hex cs high (d :: digits) }
  | .pair cs high => if c = '\\' then some { s with place := .pairEscape cs high } else none
  | .pairEscape cs high => if c = 'u' then some { s with place := .hex cs (some high) [] } else none
  | place =>
    if isBlank c then s.close
    else if c = '"' then s.close.map fun s => { s with place := .string [] }
    else
      match structural? c with
      | some t => s.close.map fun s => ⟨t :: s.tokens, .between⟩
      | none =>
        match place with
        | .word cs => some { s with place := .word (c :: cs) }
        | _ => some { s with place := .word [c] }

end Scan

def scan? (text : String) : Option (List Token) := do
  let s ← text.toList.foldlM Scan.step {}
  return (← s.close).tokens.reverse

end Token

end FocusRules.Json
