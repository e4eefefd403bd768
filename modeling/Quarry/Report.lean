import Quarry.Number.Decimal
import Quarry.Source
import Quarry.Workspace

/-!
What commands report in plain text: how many documents were taken up, what a workspace holds, and
how making the catalog anew went.
-/

namespace Quarry

structure Intake where
  /-- How many documents were taken up. -/
  indexed : Number
  /-- The reports of lines that hold no document. -/
  errors : List Text

namespace Report

def lines (ls : List Text) : Text := Text.join [10] ls

def intake (r : Intake) : Text :=
  let indexed := Text.concat ["Indexed ", r.indexed.text, " documents"]
  let skipped := Text.concat ["Skipped ", Text.ofNat r.errors.length, " lines:"]
  if r.errors.isEmpty then indexed
  else lines (indexed :: skipped :: r.errors.map fun e => Text.concat ["  ", e])

structure Holdings where
  documents : Number
  terms : Number
  postings : Number
  averageLength : Float
  symbols : Number
  version : Number
  hitRate : Float
  latencies : List (Text × Text)

/-- How long a source takes, if it was run at all. -/
def latency (milliseconds : Option Float) : Text :=
  match milliseconds with
  | some x => Text.concat [fixedText 1 x, "ms"]
  | none => "-"

def holdings (h : Holdings) : Text :=
  lines
    [Text.concat ["Documents:      ", h.documents.text],
      Text.concat ["Terms:          ", h.terms.text],
      Text.concat ["Postings:       ", h.postings.text],
      Text.concat ["Avg length:     ", fixedText 1 h.averageLength],
      Text.concat ["Symbols:        ", h.symbols.text],
      Text.concat ["Index version:  ", h.version.text],
      Text.concat ["Cache hit rate: ", fixedText 1 (h.hitRate * 100), "%"],
      Text.concat ["Latency:        ", Text.join [32] (h.latencies.map fun (name, value) =>
        Text.concat [name, "=", value])]]

/-- What a workspace holds, as it is reported. `measured` stands for the time of a source that was
run. -/
def Holdings.ofStats (s : Stats) (measured : Text) : Holdings where
  documents := .whole s.documents
  terms := .whole s.terms
  postings := .whole s.postings
  averageLength := s.averageLength
  symbols := .whole s.symbols
  version := .whole s.version
  hitRate := s.hitRate
  latencies := Source.all.map fun source =>
    (source.name, if s.runs.get source = 0 then latency none else measured)

/-- The report of a catalog that was made anew, up to the time that it took. -/
def rebuilt (documents unreadable : Nat) : Text :=
  Text.concat ["Rebuilt index with ", Text.ofNat documents, " documents",
    if unreadable = 0 then [] else Text.concat [", ", Text.ofNat unreadable, " unreadable"], " in "]

end Report
end Quarry
