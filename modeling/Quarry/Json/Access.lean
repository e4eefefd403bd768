import Quarry.Json

/-!
Access to the parts of a value. A part that is not there, or is not of the kind that is asked for,
is missing, empty or zero; the functions with a question mark tell.
-/

namespace Quarry.Json

def get (j : Json) (name : Text) : Json :=
  match j with
  | object ms => (member? ms name).getD missing
  | _ => missing

def items : Json → List Json
  | array items => items
  | _ => []

def members : Json → List (Text × Json)
  | object ms => ms
  | _ => []

def text? : Json → Option Text
  | text t => some t
  | _ => none

def number? : Json → Option Number
  | number n => some n
  | _ => none

def isTrue : Json → Bool
  | bool b => b
  | _ => false

/-- The text that a value is, the empty one if it is none. -/
def txt (j : Json) : Text := j.text?.getD []

def str? (j : Json) (name : Text) : Option Text := (j.get name).text?

/-- A text among the members of an object, the empty one if it is not there. -/
def str (j : Json) (name : Text) : Text := (j.get name).txt

def is (j : Json) (name value : Text) : Bool := j.str name == value

def num? (j : Json) (name : Text) : Option Number := (j.get name).number?

/-- A number among the members of an object, zero if it is not there. -/
def num (j : Json) (name : Text) : Number := (j.num? name).getD 0

def float? (j : Json) (name : Text) : Option Float := (j.num? name).map Number.toFloat

/-- A double among the members of an object, zero if it is not there. -/
def float (j : Json) (name : Text) : Float := (j.num name).toFloat

/-- A natural number among the members of an object, zero if it is not there. -/
def nat (j : Json) (name : Text) : Nat := ((j.num name).toNat?).getD 0

def flag (j : Json) (name : Text) : Bool := (j.get name).isTrue

/-- The items of an array among the members of an object. -/
def list (j : Json) (name : Text) : List Json := (j.get name).items

/-- The texts of an array among the members of an object. -/
def texts (j : Json) (name : Text) : List Text := (j.list name).map txt

/-- The text members of an object among the members of an object. -/
def textMembers (j : Json) (name : Text) : List (Text × Text) :=
  (j.get name).members.filterMap fun (k, v) => v.text?.map (k, ·)

end Quarry.Json
