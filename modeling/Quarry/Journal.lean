import Quarry.Json.Writer
import Quarry.Note

/-!
Journals: notes as they are written to a file, each with its time. Notes that matter less than a
journal asks for are left out, and a journal without notes has no file.
-/

namespace Quarry

namespace Level

def label : Level → Text
  | debug => "DEBUG"
  | info => "INFO "
  | warn => "WARN "
  | error => "ERROR"

def rank : Level → Nat
  | debug => 0
  | info => 1
  | warn => 2
  | error => 3

end Level

namespace Journal

/-- Whether data is written at all: what stands for nothing is not. -/
def isWritten : Json → Bool
  | .null | .missing => false
  | .bool b => b
  | .number (.whole n) => n != 0
  | .number (.real x) => !(x.isNaN || x == 0)
  | .text t => !t.isEmpty
  | .array _ | .object _ => true

def stackOf : Failure → Text
  | .foreign (.fault f) => f.stack.getD []
  | _ => []

def details : Note.Detail → Text
  | .none => []
  | .data j => if isWritten j then Text.concat ["\n  ", j.write] else []
  | .failure f =>
    let stack := stackOf f
    Text.concat ["\n  Error: ", f.message,
      if stack.isEmpty then [] else Text.concat ["\n  Stack: ", stack]]

def entry (time : Text) (n : Note) : Text :=
  Text.concat ["[", time, "] [", n.level.label, "] ", n.component, ": ", n.message,
    details n.detail]

/-- The text that notes add to a journal, if any of them matters enough for it. -/
def written (minimum : Level) (time : Text) (notes : List Note) : Option Text :=
  let kept := notes.filter fun n => minimum.rank ≤ n.level.rank
  if kept.isEmpty then none
  else some (Text.concat (kept.map fun n => entry time n ++ [10])).replaceLone

end Journal
end Quarry
