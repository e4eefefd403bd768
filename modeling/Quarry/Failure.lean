import Quarry.Index.Snapshot
import Quarry.Query.SyntaxError
import Quarry.Reason
import Quarry.Source

/-!
What can go wrong, by its cause. A malformed query and a call that is given up make a search fail; a
source that fails is reported and left out, and a corrupt document is dropped. What cannot be told
in words is not reported: it fails the call that would report it.
-/

namespace Quarry

def Json.unreadable : Text := "<syntax>"

inductive Failure where
  /-- A query that cannot be read. -/
  | query (e : Query.SyntaxError)
  /-- A source that did not answer in time; the time is missing if none was set. -/
  | timeout (source : Source) (limit : Option Number)
  /-- A source that is not there. -/
  | unavailable (source : Source)
  /-- A document that a snapshot does not hold soundly. -/
  | corrupt (c : Corruption)
  /-- Settings that cannot be taken up. -/
  | settings (summary : Text) (issues : List Text)
  /-- A file of settings that is not JSON. -/
  | settingsFile (path : Text)
  /-- A call that was given up. -/
  | cancelled (message : Text)
  /-- A value that does not have the shape asked for. -/
  | malformed (issues : List Issue)
  | notJson
  | noFile (path : Text)
  | isFolder (action : Text)
  /-- A document store that was not opened or is closed again. -/
  | notConnected
  | unnamed
  /-- The number of readers is not a number. -/
  | noReaders
  | unknownMode (mode : Text) (modes : List Text)
  /-- What a part from outside failed with. -/
  | foreign (r : Reason)
  /-- A reason that no text can be made of, where one is to be told. -/
  | textless
  /-- A source that neither answers nor has a deadline. -/
  | stalled

namespace Failure

def timeText : Option Number → Text
  | some n => n.text
  | none => "undefined"

def withIssues (summary : Text) (issues : List Text) : Text :=
  if issues.isEmpty then summary else Text.concat [summary, ": ", Text.join [59, 32] issues]

def message : Failure → Text
  | query e => e.message
  | timeout source limit =>
    Text.concat ["Source ", source.name, " timed out after ", timeText limit, "ms"]
  | unavailable source => Text.concat ["Source ", source.name, " is not configured"]
  | corrupt c => c.message
  | settings summary issues => withIssues summary issues
  | settingsFile path =>
    Text.concat ["Config file ", path, " is not valid JSON: ", Json.unreadable]
  | cancelled message => message
  | malformed issues => Schema.report issues
  | notJson => Json.unreadable
  | noFile path => Text.concat ["ENOENT: no such file or directory, open '", path, "'"]
  | isFolder action => Text.concat ["EISDIR: illegal operation on a directory, ", action]
  | notConnected => "Document store not connected. Call connect() first."
  | unnamed => "Document id must be non-empty"
  | noReaders => "Expected `concurrency` to be a number from 1 and up"
  | unknownMode mode modes => Text.concat
    ["Unknown mode \"", mode, "\". Expected one of: ", Text.join [44, 32] modes]
  | foreign r => r.display
  | textless => "Cannot convert object to primitive value"
  | stalled => "No answer"

/-- A message with the context that it is told in, if there is one. -/
def inContext (context : Option Text) (message : Text) : Text :=
  match context with
  | some c => if c.isEmpty then message else Text.concat [c, ": ", message]
  | none => message

/-- The failure of a call that is given up for a reason. -/
def ofCancellation (context : Option Text) (r : Reason) : Failure :=
  if r.hasText then cancelled (inContext context r.report) else textless

/-- A failure as an error: a bare value from outside becomes the message of one, if it has
a text. -/
def asError? : Failure → Option Failure
  | foreign (.value v) =>
    if v.hasText then some (foreign (.fault ⟨"Error", v.display, none, none⟩)) else none
  | f => some f

end Failure

/-- When the caller of a function gives it up, and for what reason. -/
inductive Cancellation where
  | never
  | before (r : Reason)
  /-- After the call has begun, and before anything that it waits for is there. -/
  | during (r : Reason)

namespace Cancellation

def check (c : Cancellation) (context : Option Text) : Except Failure Unit :=
  match c with
  | before r => .error (.ofCancellation context r)
  | never | during _ => .ok ()

/-- What becomes of a call that waits for a result: one that is given up fails, whatever the result
is. -/
def race (c : Cancellation) (context : Option Text) (result : Except Failure α) :
    Except Failure α :=
  match c with
  | before r | during r => .error (.ofCancellation context r)
  | never => result

end Cancellation
end Quarry
