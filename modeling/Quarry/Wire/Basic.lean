import Quarry.Excerpt
import Quarry.Fusion
import Quarry.Query
import Quarry.Ranking.Bm25
import Quarry.Symbol.Table

/-!
Values in the JSON form in which they are handed to other programs: queries, documents of the index,
ranked results, excerpts and definitions. What is not known is null.
-/

namespace Quarry

namespace Json

def ofNat (n : Nat) : Json := number (.whole n)

def ofInt : Int → Json
  | .ofNat n => ofNat n
  | .negSucc n => number (.real (-Float.ofNat (n + 1)))

def ofFloat (x : Float) : Json := number (.ofFloat x)

def ofList (f : α → Json) (items : List α) : Json := array (items.map f)

def ofOption (f : α → Json) : Option α → Json
  | some a => f a
  | none => null

def withMembers (j : Json) (more : List (Text × Json)) : Json :=
  match j with
  | object ms => object (ms ++ more)
  | j => j

end Json

def Query.toJson : Query → Json
  | .term t => .object [("type", .text "term"), ("term", .text t)]
  | .phrase ts => .object [("type", .text "phrase"), ("terms", .ofList .text ts)]
  | .stem t => .object [("type", .text "prefix"), ("stem", .text t)]
  | .near ts d =>
    .object [("type", .text "near"), ("terms", .ofList .text ts), ("distance", .number d)]
  | .not q => .object [("type", .text "not"), ("child", toJson q)]
  | .and qs => .object [("type", .text "and"), ("children", .array (listJson qs))]
  | .or qs => .object [("type", .text "or"), ("children", .array (listJson qs))]
where
  listJson : List Query → List Json
    | [] => []
    | q :: rest => toJson q :: listJson rest

/-- A token as a value: its term, its position, where it is, and whether it is a compound. -/
def Token.toJson (t : Token) : Json :=
  .array [.text t.term, .ofNat t.position, .ofNat t.start, .ofNat t.stop, .bool t.compound]

def IndexedDocument.toJson (d : IndexedDocument) : Json :=
  .object [("id", .text d.id), ("length", .ofNat d.length),
    ("fieldLengths", .object (d.fieldLengths.map fun (name, n) => (name, .ofNat n))),
    ("fields", .ofTexts d.fields)]

def Posting.toJson (p : Posting) : Json :=
  .object [("docId", .text p.docId), ("termFrequency", .ofNat p.frequency),
    ("positions", .ofList .ofNat p.positions)]

def Record.toJson (r : Record) : Json :=
  .object [("document", r.document.toJson),
    ("terms", .ofList (fun (t, ps) => .array [.text t, .ofList .ofNat ps]) r.terms)]

def Scored.toJson (s : Scored Float) : Json :=
  .object [("docId", .text s.docId), ("score", .ofFloat s.score)]

def Source.toJson (s : Source) : Json := .text s.name

def Ranked.toJson (r : Ranked) : Json :=
  .object [("docId", .text r.docId), ("score", .ofFloat r.score), ("source", r.source.toJson),
    ("rank", .ofNat r.rank)]

def Fused.toJson (e : Fused Float) : Json :=
  .object [("docId", .text e.docId), ("fusedScore", .ofFloat e.score),
    ("contributingSources", .ofList Source.toJson e.sources)]

def Span.toJson (s : Span) : Json := .array [.ofInt s.start, .ofInt s.stop]

def Excerpt.toJson (e : Excerpt) : Json :=
  .object [("text", .text e.text), ("highlights", .ofList Span.toJson e.highlights)]

def Definition.toJson (d : Definition) : Json :=
  .object [("docId", .text d.docId), ("name", .text d.name), ("kind", .ofOption .text d.kind),
    ("path", .ofOption .text d.path), ("line", .ofOption .number d.line)]

def TrigramMatch.toJson (m : TrigramMatch) : Json :=
  .object [("key", .text m.key), ("score", .ofFloat m.score)]

/-! ### The contents of an index -/

namespace Index

def sizeJson (ix : Index) : List (Text × Json) :=
  [("documents", .ofNat ix.documentCount), ("terms", .ofNat ix.termCount),
    ("postings", .ofNat ix.postingCount),
      ("averageDocumentLength", .ofFloat (Bm25.averageLength ix))]

def toJson (ix : Index) : Json :=
  .object [("version", .ofNat ix.version), ("ids", .ofList .text ix.documentIds),
    ("size", .object ix.sizeJson),
    ("terms", .ofList (fun (t, ps) => .array [.text t, .ofList (fun (p : Posting) =>
      .array [.text p.docId, .ofNat p.frequency, .ofList .ofNat p.positions]) ps]) ix.entries),
    ("docs", .ofList IndexedDocument.toJson (ix.documentIds.filterMap ix.document?))]

end Index
end Quarry
