import Quarry.Json

/-!
Checking JSON values against the shape that is asked for. A check answers the value it stands for or
everything that is wrong with it: an issue names the place, as a path of member names and item
numbers, and what is wrong there. All members of an object and all items of an array are checked,
and the issues come in the order of the shape, those of records and arrays in the order
of the value.
-/

namespace Quarry

inductive Complaint where
  | required
  | expected (wanted found : Text)
  | notInteger
  | notFinite
  | negative
  | notPositive
  | aboveOne
  | emptyText
  | tooFewItems
  | tooManyItems
  | notTheLiteral (wanted : Nat)
  /-- A complaint in words of its own. -/
  | custom (message : Text)
deriving DecidableEq, Repr

def Complaint.message : Complaint → Text
  | required => "Required"
  | expected wanted found => Text.concat ["Expected ", wanted, ", received ", found]
  | notInteger => "Expected integer, received float"
  | notFinite => "Number must be finite"
  | negative => "Number must be greater than or equal to 0"
  | notPositive => "Number must be greater than 0"
  | aboveOne => "Number must be less than or equal to 1"
  | emptyText => "String must contain at least 1 character(s)"
  | tooFewItems => "Array must contain at least 2 element(s)"
  | tooManyItems => "Array must contain at most 2 element(s)"
  | notTheLiteral wanted =>
    Text.concat ["Invalid literal value, expected ", Text.ofNat wanted]
  | custom message => message

structure Issue where
  path : List Text
  complaint : Complaint
deriving DecidableEq, Repr

/-- The place of an issue: names and numbers joined by full stops, and a word for the
whole value. -/
def Issue.place (i : Issue) : Text :=
  if i.path.isEmpty then "(root)" else Text.join [46] i.path

def Issue.text (i : Issue) : Text := Text.concat [i.place, ": ", i.complaint.message]

def Json.kindName : Json → Text
  | null => "null"
  | missing => "undefined"
  | bool _ => "boolean"
  | number n => if n.isNotANumber then "nan" else "number"
  | text _ => "string"
  | array _ => "array"
  | object _ => "object"

/-- A value that passed a check, or all that is wrong with it. -/
abbrev Checked (α : Type) := Except (List Issue) α

namespace Checked

def both (a : Checked α) (b : Checked β) : Checked (α × β) :=
  match a, b with
  | .ok a, .ok b => .ok (a, b)
  | .error xs, .error ys => .error (xs ++ ys)
  | .error xs, .ok _ => .error xs
  | .ok _, .error ys => .error ys

def all : List (Checked α) → Checked (List α)
  | [] => .ok []
  | a :: rest => (both a (all rest)).map fun (x, xs) => x :: xs

/-- A function applied to a value, or the issues of both. -/
def apply (f : Checked (α → β)) (a : Checked α) : Checked β := (both f a).map fun (f, a) => f a

end Checked

namespace Schema

abbrev Check (α : Type) := List Text → Json → Checked α

def fail (path : List Text) (complaint : Complaint) : Checked α := .error [⟨path, complaint⟩]

def wrongKind (path : List Text) (wanted : Text) (found : Json) : Checked α :=
  match found with
  | .missing => fail path .required
  | _ => fail path (.expected wanted found.kindName)

/-- The value if all of its tests pass, and otherwise the complaints of those that fail. -/
def tested (path : List Text) (value : α) (tests : List (Bool × Complaint)) : Checked α :=
  match tests.filter (!·.1) with
  | [] => .ok value
  | failed => .error (failed.map fun (_, complaint) => ⟨path, complaint⟩)

def text : Check Text
  | _, .text t => .ok t
  | path, j => wrongKind path "string" j

def nonemptyText : Check Text := fun path j => do
  let t ← text path j
  tested path t [(!t.isEmpty, .emptyText)]

def bool : Check Bool
  | _, .bool b => .ok b
  | path, j => wrongKind path "boolean" j

def number : Check Number := fun path j =>
  match j with
  | .number n => if n.isNotANumber then wrongKind path "number" j else .ok n
  | _ => wrongKind path "number" j

def isNonnegative : Number → Bool
  | .whole _ => true
  | .real x => 0 ≤ x

def isPositive : Number → Bool
  | .whole n => 0 < n
  | .real x => 0 < x

def amount : Check Number := fun path j => do
  let n ← number path j
  tested path n [(n.isFinite, .notFinite), (isNonnegative n, .negative)]

def share : Check Number := fun path j => do
  let n ← number path j
  tested path n [(isNonnegative n, .negative), (n.toFloat ≤ 1, .aboveOne)]

def count : Check Nat := fun path j => do
  let n ← number path j
  let n ← tested path n [(n.isInteger, .notInteger), (isNonnegative n, .negative)]
  return n.toNat?.getD 0

def positive : Check Nat := fun path j => do
  let n ← number path j
  let n ← tested path n [(n.isInteger, .notInteger), (isPositive n, .notPositive)]
  return n.toNat?.getD 0

def literal (wanted : Nat) : Check Unit := fun path j =>
  match j with
  | .number (.whole n) => if n = wanted then .ok () else fail path (.notTheLiteral wanted)
  | _ => fail path (.notTheLiteral wanted)

def members : Check (List (Text × Json))
  | _, .object ms => .ok ms
  | path, j => wrongKind path "object" j

def member (ms : List (Text × Json)) (name : Text) (check : Check α) (path : List Text) :
    Checked α :=
  check (path ++ [name]) ((Json.member? ms name).getD .missing)

def optional (check : Check α) : Check (Option α) := fun path j =>
  match j with
  | .missing => .ok none
  | _ => (check path j).map some

def nullable (check : Check α) : Check (Option α) := fun path j =>
  match j with
  | .null => .ok none
  | _ => (check path j).map some

def array (check : Check α) : Check (List α) := fun path j =>
  match j with
  | .array items =>
    .all (items.zipIdx.map fun (item, i) => check (path ++ [Text.ofNat i]) item)
  | _ => wrongKind path "array" j

/-- All members of an object, whatever their names. The reserved name is checked and dropped. -/
def record (check : Check α) : Check (List (Text × α)) := fun path j => do
  let ms ← members path j
  let checked ← Checked.all (ms.map fun (name, value) =>
    (check (path ++ [name]) value).map fun x => (name, x))
  return checked.filter (·.1 != Json.reservedName)

/-- An array of two items. Of one that is too short only that is reported. -/
def pair (first : Check α) (second : Check β) : Check (α × β) := fun path j =>
  match j with
  | .array items =>
    match items with
    | a :: b :: rest =>
      let both :=
        Checked.both (first (path ++ [Text.ofNat 0]) a) (second (path ++ [Text.ofNat 1]) b)
      (Checked.both (tested path () [(rest.isEmpty, .tooManyItems)]) both).map (·.2)
    | _ => fail path .tooFewItems
  | _ => wrongKind path "array" j

def report (issues : List Issue) : Text := Text.join [59, 32] (issues.map Issue.text)

end Schema
end Quarry
