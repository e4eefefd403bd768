import Quarry.Hybrid

/-!
The modes of a search, and which part answers in each. A search for an exact symbol name needs no
ranking; other modes rank by one source or by all. A mode for one source that has no provider falls
back to the ranker over the index.
-/

namespace Quarry

inductive Mode where
  /-- Exact symbol names if there are any, and otherwise all sources. -/
  | auto
  | symbol
  | fulltext
  | hybrid
  | bm25
  | semantic
  | fuzzy
deriving DecidableEq

namespace Mode

def all : List Mode := [auto, symbol, fulltext, hybrid, bm25, semantic, fuzzy]

def name : Mode → Text
  | auto => "auto"
  | symbol => "symbol"
  | fulltext => "fulltext"
  | hybrid => "hybrid"
  | bm25 => "bm25"
  | semantic => "semantic"
  | fuzzy => "fuzzy"

def ofName? (t : Text) : Option Mode := all.find? (·.name == t)

end Mode

inductive Answer where
  | symbols (mode : Mode) (query : Text) (definitions : List Definition)
  /-- The results of one source, and the source that it stands in for. -/
  | source (mode : Mode) (narrowed : List Source) (response : SourceResponse)
  /-- The fused results of all sources. -/
  | hybrid (mode : Mode) (response : Response)

def Answer.rankedIds : Answer → List DocId
  | symbols _ _ _ => []
  | source _ _ r => r.results.map (·.docId)
  | hybrid _ r => r.results.map (·.docId)

namespace Dispatch

open Hybrid

inductive Waiting where
  | source (mode : Mode) (narrowed : List Source) (p : PendingSource)
  | hybrid (mode : Mode) (p : Pending)

/-- The definitions of exactly the symbol that a call names, if its filter can be read. -/
def exactSymbols (globs : GlobReader) (catalog : Catalog) (c : Call) :
    Except Failure (List Definition) :=
  (c.filter.check globs).map fun _ =>
    (catalog.symbols.lookup c.query).filter fun d => catalog.index.passes globs c.filter d.docId

/-- Definitions cut to the number of results of a call; all of them if it names none. -/
def limited (c : Call) (definitions : List Definition) : List Definition :=
  match c.limit with
  | some n => takeBound n.floorBound definitions
  | none => definitions

def fallbackNote (s : Source) : Note where
  level := .debug
  component := "Dispatcher"
  message := "Source not configured, using bm25"
  detail := .data (.object [("source", .text s.name)])

def startHybrid (h : Hybrid) (catalog : Catalog) (settings : Settings) (now : Float) (mode : Mode)
    (c : Call) : Noted (Started Waiting Answer) × Hybrid :=
  let ((started, notes), h) := h.start catalog settings now c
  match started with
  | .decided answer => ((.decided (answer.map (Answer.hybrid mode)), notes), h)
  | .pending p => ((.pending (.hybrid mode p), notes), h)

/-- Starts a search of one source, or of the ranker if that has no provider. -/
def startSource (h : Hybrid) (catalog : Catalog) (settings : Settings) (mode : Mode)
    (wanted : Source) (c : Call) : Noted (Started Waiting Answer) × Hybrid :=
  let target := if h.isAvailable wanted then wanted else .bm25
  let narrowed := if h.isAvailable wanted then [] else [wanted]
  let (started, h) := h.startSource catalog settings target c
  match started with
  | .decided answer =>
    ((.decided (answer.map (Answer.source mode narrowed)), narrowed.map fallbackNote), h)
  | .pending p => ((.pending (.source mode narrowed p), narrowed.map fallbackNote), h)

/-- Starts a search in a mode. Definitions of a symbol are there at once. In automatic mode they
decide before the results are cut. -/
def start (h : Hybrid) (catalog : Catalog) (settings : Settings) (now : Float) (mode : Mode)
    (c : Call) : Noted (Started Waiting Answer) × Hybrid :=
  let symbols := exactSymbols h.globs catalog c
  let definitions :=
    Started.decided (symbols.map fun symbols => .symbols mode c.query (limited c symbols))
  match mode with
  | .auto => match symbols with
    | .ok [] => startHybrid h catalog settings now mode c
    | .ok (_ :: _) | .error _ => ((definitions, []), h)
  | .symbol => ((definitions, []), h)
  | .hybrid => startHybrid h catalog settings now mode c
  | .fulltext | .bm25 => startSource h catalog settings mode .bm25 c
  | .semantic => startSource h catalog settings mode .semantic c
  | .fuzzy => startSource h catalog settings mode .fuzzy c

def finish (h : Hybrid) (ix : Index) (now : Float) (w : Waiting) :
    Noted (Except Failure Answer) × Hybrid :=
  match w with
  | .hybrid mode p =>
    let ((answer, notes), h) := h.finish ix now p
    ((answer.map (Answer.hybrid mode), notes), h)
  | .source mode narrowed p =>
    let ((answer, notes), h) := h.finishSource ix p
    ((answer.map (Answer.source mode narrowed), notes), h)

/-- Whether a search waits for a source whose time runs out. -/
def Waiting.isLate : Waiting → Bool
  | source _ _ p => timedOut p.outcome
  | hybrid _ p => p.outcomes.any fun (_, outcome) => timedOut outcome
where
  /-- Whether an outcome is that of a source whose time ran out. -/
  timedOut : Outcome → Bool
    | .degraded (.timeout _ _) => true
    | _ => false

end Dispatch
end Quarry
