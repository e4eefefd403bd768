import Quarry.Note
import Quarry.Wire.Basic

/-!
Failures and notes in the JSON form in which they are handed to other programs. A failure has the
name of its kind and its message, and its details if its kind has any.
-/

namespace Quarry

def errorJson (name message : Text) (details : List (Text × Json)) : Json :=
  .object (("error", .text name) :: ("message", .text message) :: details)

def Query.SyntaxError.toJson (e : SyntaxError) : Json :=
  errorJson "QuerySyntaxError" e.message
    [("code", .text "QUERY_SYNTAX"), ("position", .ofNat e.position), ("query", .text e.query)]

def Corruption.toJson (c : Corruption) : Json :=
  errorJson "IndexCorruptionError" c.message
    [("code", .text "INDEX_CORRUPTION"), ("docId", .text c.docId),
      ("reason", .text c.reason.message)]

def Reason.toJson : Reason → Json
  | value v => errorJson "thrown" v.display []
  | fault f => errorJson f.name f.message []

/-- A failure as a value. Of a file only the code of the failure is given, not its path. -/
def Failure.toJson (f : Failure) : Json :=
  match f with
  | query e => e.toJson
  | timeout source limit => errorJson "SourceTimeoutError" f.message
      (("code", .text "SOURCE_TIMEOUT") :: ("source", source.toJson) ::
        Json.optionalMember "timeoutMs" (limit.map Json.number))
  | unavailable source => errorJson "SourceUnavailableError" f.message
      [("code", .text "SOURCE_UNAVAILABLE"), ("source", source.toJson)]
  | corrupt c => c.toJson
  | settings _ issues => errorJson "ConfigError" f.message
      [("code", .text "CONFIG_INVALID"), ("issues", .ofList .text issues)]
  | settingsFile _ => errorJson "ConfigError" f.message [("code", .text "CONFIG_INVALID")]
  | cancelled message => errorJson "AbortError" message []
  | malformed _ => errorJson "ZodError" f.message []
  | notJson => errorJson "SyntaxError" f.message []
  | noFile _ => errorJson "Error" "ENOENT" []
  | isFolder _ => errorJson "Error" "EISDIR" []
  | notConnected | unnamed | unknownMode _ _ => errorJson "Error" f.message []
  | noReaders | textless => errorJson "TypeError" f.message []
  | foreign r => r.toJson
  | stalled => .null

/-- A result as a value, or the failure that stands in its place. -/
def Json.ofExcept (f : α → Json) : Except Failure α → Json
  | .ok a => f a
  | .error e => e.toJson

def Level.name : Level → Text
  | debug => "debug"
  | info => "info"
  | warn => "warn"
  | error => "error"

def Note.toJson (n : Note) : Json :=
  .object [("level", .text n.level.name), ("component", .text n.component),
    ("message", .text n.message),
    ("data", match n.detail with
      | .none => .null
      | .data j => j
      | .failure f => f.toJson)]

end Quarry
