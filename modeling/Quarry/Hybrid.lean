import Quarry.Cache
import Quarry.Hybrid.Fingerprint
import Quarry.Hybrid.Lifetime
import Quarry.Note
import Quarry.Provider
import Quarry.Query.Parser

/-!
Hybrid search: every enabled source that has a provider ranks documents for the query, the ranked
lists are fused, and the fused list is filtered and cut. A source that fails or takes too long adds
nothing and is reported; one that fails with what cannot be reported fails the search. Responses are
cached by the fingerprint of the search, for the version of the index that they were made from. A
filter whose glob is refused fails the search, unless its response is cached.

A search has two steps. It starts by asking all sources, and it finishes when their outcomes are
there; other searches and changes of the documents may come in between.
-/

namespace Quarry

inductive DegradedReason where
  | timeout
  | error
  | unavailable
deriving DecidableEq

structure Degraded where
  source : Source
  reason : DegradedReason
  message : Text
deriving DecidableEq

structure Response where
  results : List (Fused Float)
  query : Text
  degraded : List Degraded
  narrowed : List Source
  /-- How many results each source has that took part. -/
  counts : List (Source × Nat)
  cached : Bool

structure SourceResponse where
  results : List Ranked
  query : Text
  source : Source
  degraded : Option Degraded

/-- What is searched for, and when the search is given up. -/
structure Call where
  query : Text
  filter : Filter
  limit : Option Number
  cancellation : Cancellation

/-- The number of results of a search that does not name one. -/
def Call.defaultLimit : Nat := 10

def Call.bound (c : Call) : Nat :=
  match c.limit with
  | some n => if n.isFinite then n.floorBound.getD 0 else defaultLimit
  | none => defaultLimit

def Call.context : Option Text := some "Search cancelled"

/-- How many results each source is asked for: a multiple of the results wanted, and never fewer. -/
def Settings.candidates (s : Settings) (limit : Nat) : Number :=
  match s.candidateFactor with
  | some (.whole n) => .whole (limit * max 1 n)
  | some (.real x) =>
    if x.isNaN then .real x
    else if x ≤ 1 then .whole limit
    else .ofFloat (Float.ofNat limit * x)
  | none => .real (0.0 / 0.0)

def Settings.fusionConstant (s : Settings) : Float := ((s.rankConstant.getD 60)).toFloat

/-- The providers of the sources, the cache of responses, and how often each source was run. -/
structure Hybrid where
  providers : PerSource (Option Provider)
  cache : Cache Response
  runs : PerSource Nat
  /-- The digest that fingerprints are made with. -/
  digest : Text → Text
  globs : GlobReader

namespace Hybrid

/-- The state without providers, with a cache of a given bound. -/
def empty (bound : Option Nat) (digest : Text → Text) (globs : GlobReader) : Hybrid :=
  ⟨.all none, .empty bound, .all 0, digest, globs⟩

/-- Gives a source a provider. Cached responses are dropped. -/
def register (h : Hybrid) (s : Source) (p : Provider) : Hybrid :=
  { h with providers := h.providers.set s (some p), cache := h.cache.invalidate }

def isAvailable (h : Hybrid) (s : Source) : Bool := (h.providers.get s).isSome

/-- Takes the provider of a source away. Cached responses are dropped if there was one. -/
def unregister (h : Hybrid) (s : Source) : Hybrid :=
  if h.isAvailable s then
    { h with providers := h.providers.set s none, cache := h.cache.invalidate }
  else h

def active (h : Hybrid) (settings : Settings) : List Source :=
  Source.all.filter fun s => settings.enabled.get s && h.isAvailable s

def narrowed (h : Hybrid) (settings : Settings) : List Source :=
  Source.all.filter fun s => settings.enabled.get s && !h.isAvailable s

def narrowingNote (s : Source) : Note where
  level := .debug
  component := "Search"
  message := "Narrowing source for this call"
  detail := .data (.object
    [("source", .text s.name), ("reason", .text (Failure.unavailable s).message)])

def runSource (h : Hybrid) (catalog : Catalog) (r : Request) (c : Cancellation) (s : Source) :
    Outcome × Hybrid :=
  match h.providers.get s with
  | some p =>
    let (outcome, p) := p.run catalog s r (r.settings.deadlines.get s) c
    (outcome, { h with providers := h.providers.set s (some p) })
  | none => (.degraded (.unavailable s), h)

def runAll (h : Hybrid) (catalog : Catalog) (r : Request) (c : Cancellation) :
    List Source → List (Source × Outcome) × Hybrid
  | [] => ([], h)
  | s :: rest =>
    let (outcome, h) := h.runSource catalog r c s
    let (outcomes, h) := h.runAll catalog r c rest
    ((s, outcome) :: outcomes, h)

def countRuns (h : Hybrid) (sources : List Source) : Hybrid :=
  { h with runs := sources.foldl (fun runs s => runs.set s (runs.get s + 1)) h.runs }

/-! ### What outcomes come to -/

def reasonOf : Failure → DegradedReason
  | .timeout _ _ => .timeout
  | .unavailable _ => .unavailable
  | _ => .error

def degradedOf? (s : Source) : Outcome → Option Degraded
  | .degraded f => some ⟨s, reasonOf f, f.message⟩
  | .answered _ | .cancelled | .untold | .stalled => none

/-- The results of a source; none if it failed. -/
def resultsOf : Outcome → List Ranked
  | .answered results => results
  | .degraded _ | .cancelled | .untold | .stalled => []

def isAnswered : Outcome → Bool
  | .answered _ => true
  | .degraded _ | .cancelled | .untold | .stalled => false

def isUntold : Outcome → Bool
  | .untold => true
  | .answered _ | .degraded _ | .cancelled | .stalled => false

def isStalled : Outcome → Bool
  | .stalled => true
  | .answered _ | .degraded _ | .cancelled | .untold => false

/-- Why outcomes come to no response, if they do not. A failure that cannot be told does not wait
for the other sources. -/
def failureOf? (outcomes : List Outcome) : Option Failure :=
  if outcomes.any isUntold then some .textless
  else if outcomes.any isStalled then some .stalled
  else none

def degradedNote (d : Degraded) : Note where
  level := .warn
  component := "Search"
  message := "Source degraded"
  detail :=
    .data (.object [("source", .text d.source.name), ("reason", .text (reasonName d.reason)),
      ("message", .text d.message)])
where
  reasonName : DegradedReason → Text
    | .timeout => "timeout"
    | .error => "error"
    | .unavailable => "unavailable"

def rankings (outcomes : List (Source × Outcome)) : PerSource (List (DocId × Float)) :=
  outcomes.foldl (fun rankings (s, outcome) =>
    rankings.set s ((resultsOf outcome).map fun r => (r.docId, Float.ofNat r.rank))) (.all [])

/-! ### Hybrid searches -/

structure Pending where
  query : Text
  filter : Filter
  globs : GlobReader
  limit : Nat
  settings : Settings
  cancellation : Cancellation
  key : Text
  /-- The version of the index that the sources were asked on. -/
  version : Nat
  narrowed : List Source
  outcomes : List (Source × Outcome)

/-- The first step of a search: either its answer is known, or its sources were asked. -/
inductive Started (π : Type) (α : Type) where
  | decided (answer : Except Failure α)
  | pending (p : π)

abbrev Noted (α : Type) := α × List Note

/-- Reads the query of a call that is not given up yet. -/
def readCall (c : Call) : Except Failure Query :=
  match Query.parse c.query with
  | .error e => .error (.query e)
  | .ok q => (c.cancellation.check Call.context).map fun _ => q

def start (h : Hybrid) (catalog : Catalog) (settings : Settings) (now : Float) (c : Call) :
    Noted (Started Pending Response) × Hybrid :=
  match readCall c with
  | .error f => ((.decided (.error f), []), h)
  | .ok parsed =>
    let filter := c.filter.normalize
    let active := h.active settings
    let narrowed := h.narrowed settings
    let notes := narrowed.map narrowingNote
    let key := fingerprint h.digest c.query filter (.whole c.bound) active settings
    let version := catalog.index.version
    let (found, cache) := h.cache.get key version now
    let h := { h with cache }
    match found with
    | some response => ((.decided (.ok { response with cached := true }), notes), h)
    | none =>
      let globs := h.globs
      match filter.check globs with
      | .error f => ((.decided (.error f), notes), h)
      | .ok _ =>
        let request : Request :=
          { query := c.query, parsed, candidates := settings.candidates c.bound, settings
            accepts := catalog.index.passes globs filter }
        let (outcomes, h) := h.runAll catalog request c.cancellation active
        ((.pending
          { query := c.query, filter, globs, limit := c.bound, settings
            cancellation := c.cancellation, key, version, narrowed, outcomes }, notes), h)

/-- The response that outcomes come to: their lists fused, filtered by the documents of an
index, and cut. -/
def respond (p : Pending) (ix : Index) : Response where
  results :=
    ((Fusion.fuse p.settings.weights p.settings.fusionConstant (rankings p.outcomes)).filter
      fun e => ix.passes p.globs p.filter e.docId).take p.limit
  query := p.query
  degraded := p.outcomes.filterMap fun (s, outcome) => degradedOf? s outcome
  narrowed := p.narrowed
  counts := p.outcomes.map fun (s, outcome) => (s, (resultsOf outcome).length)
  cached := false

def lifetimeOf (p : Pending) (r : Response) : Float :=
  let ran := p.outcomes.filter fun (_, outcome) => isAnswered outcome
  let productive := ran.filter fun (_, outcome) => !(resultsOf outcome).isEmpty
  Lifetime.ofResponse p.settings (productive.map (·.1)) (ran.map (·.1)) (!r.degraded.isEmpty)

/-- Finishes a hybrid search, on the index as it is then. A search that is given up leaves nothing
behind. -/
def finish (h : Hybrid) (ix : Index) (now : Float) (p : Pending) :
    Noted (Except Failure Response) × Hybrid :=
  match p.cancellation.race Call.context (.ok ()) with
  | .error f => ((.error f, []), h)
  | .ok _ =>
    match failureOf? (p.outcomes.map (·.2)) with
    | some f => ((.error f, []), h)
    | none =>
      let h := h.countRuns (p.outcomes.map (·.1))
      let response := respond p ix
      let cache := h.cache.set p.key response (lifetimeOf p response) p.version now
      ((.ok response, response.degraded.map degradedNote), { h with cache })

def search (h : Hybrid) (catalog : Catalog) (settings : Settings) (now : Float) (c : Call) :
    Noted (Except Failure Response) × Hybrid :=
  let ((started, notes), h) := h.start catalog settings now c
  match started with
  | .decided answer => ((answer, notes), h)
  | .pending p =>
    let ((answer, more), h) := h.finish catalog.index now p
    ((answer, notes ++ more), h)

/-! ### Searches of a single source -/

structure PendingSource where
  source : Source
  query : Text
  filter : Filter
  globs : GlobReader
  limit : Nat
  cancellation : Cancellation
  outcome : Outcome

/-- Starts the search of a single source. With a filter more results are asked for than wanted. -/
def startSource (h : Hybrid) (catalog : Catalog) (settings : Settings) (s : Source) (c : Call) :
    Started PendingSource SourceResponse × Hybrid :=
  match Query.parse c.query with
  | .error e => (.decided (.error (.query e)), h)
  | .ok parsed =>
    if !h.isAvailable s then (.decided (.error (.unavailable s)), h)
    else match c.cancellation.check Call.context with
      | .error f => (.decided (.error f), h)
      | .ok _ =>
        let filter := c.filter.normalize
        let globs := h.globs
        match filter.check globs with
        | .error f => (.decided (.error f), h)
        | .ok _ =>
          let request : Request :=
            { query := c.query, parsed, settings
              candidates := if filter.isActive then settings.candidates c.bound else .whole c.bound
              accepts := catalog.index.passes globs filter }
          let (outcome, h) := h.runSource catalog request c.cancellation s
          (.pending { source := s, query := c.query, filter, globs, limit := c.bound
                      cancellation := c.cancellation, outcome }, h)

/-- The response that the outcome of a source comes to: its list filtered, cut, and ranked anew. -/
def respondSource (p : PendingSource) (ix : Index) : SourceResponse where
  results := Ranked.assign p.source ((((resultsOf p.outcome).filter fun r =>
    ix.passes p.globs p.filter r.docId).take p.limit).map fun r => (r.docId, r.score))
  query := p.query
  source := p.source
  degraded := degradedOf? p.source p.outcome

def finishSource (h : Hybrid) (ix : Index) (p : PendingSource) :
    Noted (Except Failure SourceResponse) × Hybrid :=
  match p.cancellation.race Call.context (.ok ()) with
  | .error f => ((.error f, []), h)
  | .ok _ =>
    match failureOf? [p.outcome] with
    | some f => ((.error f, []), h)
    | none =>
      let response := respondSource p ix
      ((.ok response, (response.degraded.map degradedNote).toList), h.countRuns [p.source])

/-- The search of a single source without anything between its steps. -/
def searchSource (h : Hybrid) (catalog : Catalog) (settings : Settings) (s : Source) (c : Call) :
    Noted (Except Failure SourceResponse) × Hybrid :=
  let (started, h) := h.startSource catalog settings s c
  match started with
  | .decided answer => ((answer, []), h)
  | .pending p => h.finishSource catalog.index p

end Hybrid
end Quarry
