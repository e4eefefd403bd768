import Quarry.Failure
import Quarry.Index.Document
import Quarry.Json.Reader
import Quarry.Text.Blank

/-!
Documents from values and from lines of JSON. A document has a name that is not empty, a text, and
fields that are texts; fields may be left out altogether, and other members count for nothing.
-/

namespace Quarry

namespace Fields

def check : Schema.Check Fields := Schema.record Schema.text

def checkOptional : Schema.Check Fields := fun path j =>
  (Schema.optional check path j).map (·.getD [])

end Fields

namespace Document

def check : Schema.Check Document := fun path j => do
  let ms ← Schema.members path j
  let d : Checked _ := .ok Document.mk
  let d : Checked _ := d.apply (Schema.member ms "id" Schema.nonemptyText path)
  let d : Checked _ := d.apply (Schema.member ms "text" Schema.text path)
  d.apply (Schema.member ms "fields" Fields.checkOptional path)

def read (j : Json) : Except Failure Document :=
  match check [] j with
  | .ok d => .ok d
  | .error issues => .error (.malformed issues)

def toJson (d : Document) : Json :=
  .object [("id", .text d.id), ("text", .text d.text), ("fields", .ofTexts d.fields)]

end Document

/-! ### Lines of JSON -/

inductive LineFault where
  | notJson
  | malformed (first : Issue)

structure LineError where
  /-- The number of the line, from one on. -/
  line : Nat
  fault : LineFault

def LineFault.message : LineFault → Text
  | notJson => Json.unreadable
  | malformed issue =>
    if issue.path.isEmpty then issue.complaint.message else issue.text

def LineError.message (e : LineError) : Text :=
  Text.concat ["line ", Text.ofNat e.line, ": ", e.fault.message]

/-- The document of a line, or what is wrong with it. -/
def Document.ofLine (line : Text) : Except LineFault Document :=
  match Json.read? line with
  | none => .error .notJson
  | some j => match Document.check [] j with
    | .ok d => .ok d
    | .error (issue :: _) => .error (.malformed issue)
    | .error [] => .error (.malformed ⟨[], .custom "invalid document"⟩)

structure Lines where
  documents : List Document
  errors : List LineError

namespace Lines

/-- The line ends in a text: a line feed, with or without a carriage return before it. -/
def split : Text → List Text
  | [] => [[]]
  | 13 :: 10 :: rest => [] :: split rest
  | 10 :: rest => [] :: split rest
  | u :: rest => match split rest with
    | line :: lines => (u :: line) :: lines
    | [] => [[u]]

/-- Adds what one line holds. Blank lines hold nothing. -/
def addLine (number : Nat) (line : Text) (lines : Lines) : Lines :=
  if line.trim.isEmpty then lines
  else match Document.ofLine line with
    | .ok d => { lines with documents := d :: lines.documents }
    | .error fault => { lines with errors := ⟨number, fault⟩ :: lines.errors }

/-- What some lines hold, the first of which has a given number. -/
def ofLines (number : Nat) : List Text → Lines
  | [] => ⟨[], []⟩
  | line :: rest => addLine number line (ofLines (number + 1) rest)

def ofText (t : Text) : Lines := ofLines 1 (split t)

end Lines
end Quarry
