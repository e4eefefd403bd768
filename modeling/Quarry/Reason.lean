import Quarry.Json
import Quarry.Text.Blank

/-!
Reasons: what a call is given up for, and what a part from outside fails with. A reason is either an
error with a message or any value at all.
-/

namespace Quarry

namespace Json

/-- The text of a value where a text is asked for: a text is itself, the items of an array are put
next to each other with commas, and an object shows only that it is one. -/
def display : Json → Text
  | null => "null"
  | missing => "undefined"
  | bool true => "true"
  | bool false => "false"
  | number n => n.text
  | text t => t
  | array items => Text.join [44] (displayItems items)
  | object _ => "[object Object]"
where
  /-- The texts of the items of an array; an item without a value has none. -/
  displayItems : List Json → List Text
    | [] => []
    | null :: rest | missing :: rest => [] :: displayItems rest
    | item :: rest => display item :: displayItems rest

/-- The name under which an object looks for what makes its text. -/
def textMember : Text := "toString"

/-- Whether a value has a text at all. An object with a plain member in the place of what makes its
text has none, and neither has an array with an item that has none. -/
def hasText : Json → Bool
  | array items => allHaveText items
  | object members => (member? members textMember).isNone
  | null | missing | bool _ | number _ | text _ => true
where
  allHaveText : List Json → Bool
    | [] => true
    | item :: rest => hasText item && allHaveText rest

end Json

structure Fault where
  name : Text
  message : Text
  code : Option Json
  /-- Where it happened, if that is known. -/
  stack : Option Text

/-- Why a call is given up, or what a part from outside fails with. -/
inductive Reason where
  | value (v : Json)
  | fault (f : Fault)

namespace Reason

/-- The text of a reason, if it has one. -/
def display : Reason → Text
  | value v => v.display
  | fault f => f.message

def hasText : Reason → Bool
  | value v => v.hasText
  | fault _ => true

/-- The reason for which a call is reported to be given up. Without a message or a value there is
only the fact. -/
def report : Reason → Text
  | fault f => if f.message.isEmpty then "Cancelled" else f.message
  | value .null | value .missing => "Cancelled"
  | value v => v.display

/-- The name of errors that say that a call was given up. -/
def cancellationName : Text := "AbortError"

/-- Whether the reason says that a call was given up: by its name or by one of two codes. -/
def isCancellation : Reason → Bool
  | value _ => false
  | fault f =>
    f.name == cancellationName || match f.code with
      | some (.text code) => code == ("ABORT_ERR" : Text) || code == ("ERR_ABORTED" : Text)
      | _ => false

/-- The reason of a call that is given up without one. -/
def unspecified : Reason :=
  fault ⟨cancellationName, "This operation was aborted", some (.number 20), none⟩

end Reason
end Quarry
