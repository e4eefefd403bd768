import Quarry.Report
import Quarry.Wire.Failure
import Quarry.Workspace.Search
import Quarry.Workspace.Upkeep

/-!
Answers of searches and of a workspace in the JSON form in which they are handed to other programs.
-/

namespace Quarry

def Degraded.toJson (d : Degraded) : Json :=
  .object [("source", d.source.toJson), ("reason", .text (Hybrid.degradedNote.reasonName d.reason)),
    ("message", .text d.message)]

/-- What a call of a provider comes to, as a value. A call that never ends has none. -/
def Outcome.toJson (source : Source) : Outcome → Json
  | answered results =>
    .object [("status", .text "ok"), ("source", source.toJson),
      ("results", .ofList Ranked.toJson results)]
  | degraded f =>
    .object [("status", .text "degraded"), ("source", source.toJson),
      ("reason", .text (Hybrid.degradedNote.reasonName (Hybrid.reasonOf f))), ("error", f.toJson)]
  | cancelled => .object [("status", .text "aborted"), ("source", source.toJson)]
  | untold => Failure.textless.toJson
  | stalled => .null

def Json.withExcerpt (j : Json) (e : Option Excerpt) : Json :=
  j.withMembers (Json.optionalMember "snippet" (e.map Excerpt.toJson))

def Json.ofResults (f : α → Json) (results : List α) (excerpts : List (Option Excerpt)) : Json :=
  .array (results.zipIdx.map fun (r, i) => (f r).withExcerpt (excerpts[i]?).join)

def Response.toJson (r : Response) (excerpts : List (Option Excerpt)) : Json :=
  .object [("results", .ofResults Fused.toJson r.results excerpts), ("query", .text r.query),
    ("degraded", .ofList Degraded.toJson r.degraded),
    ("narrowed", .ofList Source.toJson r.narrowed),
    ("perSource", .ofList (fun (s, n) => .object [("source", s.toJson), ("count", .ofNat n)])
      r.counts),
    ("cached", .bool r.cached)]

/-- The response of a search of one source as a value. -/
def SourceResponse.toJson (r : SourceResponse) (excerpts : List (Option Excerpt)) : Json :=
  .object [("results", .ofResults Ranked.toJson r.results excerpts), ("query", .text r.query),
    ("source", r.source.toJson), ("degraded", .ofOption Degraded.toJson r.degraded)]

def Found.toJson (f : Found) : Json :=
  match f.answer with
  | .symbols mode query definitions =>
    .object [("handler", .text "symbol_exact"), ("mode", .text mode.name), ("query", .text query),
      ("symbols", .ofList Definition.toJson definitions)]
  | .source mode narrowed r =>
    .object [("handler", .text (if r.source = .bm25 then "fulltext" else "single_source")),
      ("mode", .text mode.name), ("source", r.source.toJson),
      ("narrowed", .ofList Source.toJson narrowed), ("response", r.toJson f.excerpts)]
  | .hybrid mode r =>
    .object [("handler", .text "hybrid"), ("mode", .text mode.name),
      ("response", r.toJson f.excerpts)]

/-- Which sources were run, as a value; the times that they took are not told. -/
def runsJson (runs : PerSource Nat) : Json :=
  .object (Source.all.map fun s => (s.name, if runs.get s = 0 then .null else .text "measured"))

def Cache.statsJson (hits misses entries : Nat) (hitRate : Float) : Json :=
  .object [("hits", .ofNat hits), ("misses", .ofNat misses), ("entries", .ofNat entries),
    ("hitRate", .ofFloat hitRate)]

def Cache.toJson (c : Cache β) : Json := statsJson c.hits c.misses c.size c.hitRate

def Stats.toJson (s : Stats) : Json :=
  .object [("cacheHitRate", .ofFloat s.hitRate), ("avgLatencyPerSource", runsJson s.runs),
    ("indexSize", .object [("documents", .ofNat s.documents), ("terms", .ofNat s.terms),
      ("postings", .ofNat s.postings), ("averageDocumentLength", .ofFloat s.averageLength)]),
    ("indexVersion", .ofNat s.version), ("symbols", .ofNat s.symbols),
    ("cache", Cache.statsJson s.hits s.misses s.entries s.hitRate)]

def Loaded.toJson (l : Loaded) : Json :=
  .object [("source", .text (if l.origin = .snapshot then "snapshot" else "store")),
    ("documents", .ofNat l.documents), ("recovered", .ofList .text l.recovered)]

def Rebuilt.toJson (r : Rebuilt) : Json :=
  .object [("documents", .ofNat r.documents), ("skipped", .ofList .text r.skipped)]

/-- What taking up lines comes to, as a value with its report. -/
def Intake.toJson (r : Intake) : Json :=
  .object [("indexed", .number r.indexed), ("errors", .ofList .text r.errors),
    ("text", .text (Report.intake r))]

def Lines.toJson (l : Lines) : Json :=
  .object [("documents", .ofList Document.toJson l.documents),
    ("errors", .ofList (fun e => .text e.message) l.errors)]

def Snapshot.Restored.toJson (r : Restored) : List (Text × Json) :=
  [("index", r.index.toJson), ("dropped", .ofList Corruption.toJson r.dropped)]

def SettingsHolder.toJson (h : SettingsHolder) : Json :=
  .object [("config", h.current.toJson), ("version", .ofNat h.revision)]

end Quarry
