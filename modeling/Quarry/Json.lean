import Quarry.Number

/-!
JSON values. The members of an object have an order: names that are array indices come first, in
numeric order, and the others follow in the order in which they were first given. A name given again
keeps its place and takes the new value.
-/

namespace Quarry

/-- A JSON value. `missing` is the value of a member that is named but given no value; it has no
written form. -/
inductive Json where
  | null
  | missing
  | bool (b : Bool)
  | number (n : Number)
  | text (t : Text)
  | array (items : List Json)
  | object (members : List (Text × Json))
deriving Inhabited

namespace Json

/-- The array index that a name spells: a decimal number below `2 ^ 32 - 1` without
leading zeros. -/
def indexOf? (name : Text) : Option Nat :=
  let n := Text.digitsToNat name
  if name.all Text.isDigit && name == Text.ofNat n && n < 0xFFFFFFFF then some n else none

/-- Whether a member called `a` comes before one called `b` that was given earlier. -/
def nameBefore (a b : Text) : Bool :=
  match indexOf? a, indexOf? b with
  | some i, some j => i < j
  | some _, none => true
  | none, _ => false

/-- Sets a member: in its place if the name is there, and otherwise at the place of its name. -/
def setMember (members : List (Text × α)) (name : Text) (value : α) : List (Text × α) :=
  if members.any (·.1 == name) then
    members.map fun m => if m.1 == name then (name, value) else m
  else
    members.takeWhile (fun m => !nameBefore name m.1) ++
      (name, value) :: members.dropWhile fun m => !nameBefore name m.1

/-- Puts members in their order; of members with one name the last counts. -/
def ofMembers (members : List (Text × α)) : List (Text × α) :=
  members.foldl (fun ms m => setMember ms m.1 m.2) []

def member? (members : List (Text × α)) (name : Text) : Option α :=
  (members.find? (·.1 == name)).map (·.2)

/-- The name that objects cannot hold as a plain member when it is assigned to them. -/
def reservedName : Text := Text.ofChars ['_', '_', 'p', 'r', 'o', 't', 'o', '_', '_']

def ofTexts (members : List (Text × Text)) : Json :=
  object (members.map fun (name, value) => (name, text value))

/-- A member that is left out when it has no value. -/
def optionalMember (name : Text) (value : Option Json) : List (Text × Json) :=
  match value with
  | some v => [(name, v)]
  | none => []

end Json
end Quarry
