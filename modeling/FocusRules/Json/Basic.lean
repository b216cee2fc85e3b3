import FocusRules.Json.Number

/-! JSON values. An object is the list of its members as written, in which a name may come more than
once; the last member of a name is the one that counts. -/

namespace FocusRules

inductive Json where
  | null
  | bool (b : Bool)
  | number (n : Json.Number)
  | string (s : String)
  | array (items : List Json)
  | object (members : List (String × Json))
deriving Inhabited

namespace Json

/-- Induction over the items of arrays and the values of objects. -/
@[elab_as_elim]
theorem inductionOn {motive : Json → Prop} (null : motive null) (bool : ∀ b, motive (bool b))
    (number : ∀ n, motive (number n)) (string : ∀ s, motive (string s))
    (array : ∀ items, (∀ j ∈ items, motive j) → motive (array items))
    (object : ∀ members, (∀ m ∈ members, motive m.2) → motive (object members)) (j : Json) :
    motive j := by
  refine @Json.rec motive (fun items => ∀ j ∈ items, motive j)
    (fun members => ∀ m ∈ members, motive m.2) (fun m => motive m.2) null bool number string array
    object ?_ ?_ ?_ ?_ (fun _ _ h => h) j
  · exact fun j hj => absurd hj List.not_mem_nil
  · exact fun j rest hj hrest => List.forall_mem_cons.2 ⟨hj, hrest⟩
  · exact fun m hm => absurd hm List.not_mem_nil
  · exact fun m rest hm hrest => List.forall_mem_cons.2 ⟨hm, hrest⟩

/-- The last member of this name. -/
def member? (name : String) : List (String × Json) → Option Json
  | [] => none
  | m :: rest =>
    match member? name rest with
    | some v => some v
    | none => if m.1 = name then some m.2 else none

theorem mem_of_member? {name : String} {members : List (String × Json)} {v : Json}
    (h : member? name members = some v) : (name, v) ∈ members := by
  induction members with
  | nil => cases h
  | cons m rest ih =>
    rw [member?] at h
    split at h
    next v' hrest => exact List.mem_cons_of_mem _ (ih (hrest.trans h))
    next =>
      split at h
      next hname => cases h; subst hname; exact List.mem_cons_self
      next => cases h

def asString? : Json → Option String
  | string s => some s
  | _ => none

def asBool? : Json → Option Bool
  | bool b => some b
  | _ => none

def asArray? : Json → Option (List Json)
  | array items => some items
  | _ => none

def asObject? : Json → Option (List (String × Json))
  | object members => some members
  | _ => none

end Json

end FocusRules
