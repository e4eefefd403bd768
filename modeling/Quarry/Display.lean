import Quarry.Number.Decimal
import Quarry.Text.Blank
import Quarry.Workspace.Search

/-!
Results as lines of text. A header says how many there are, and a line or more follows for each;
notes on sources that failed or have no provider come last. Pieces that stand next to each other may
have several lines, and no line ends in blanks.
-/

namespace Quarry.Display

/-- Lines of a piece of text; an empty piece has none. -/
def linesOf (t : Text) : List Text := if t.isEmpty then [] else Text.splitAt 10 t

def width (ls : List Text) : Nat := ls.foldl (fun w l => max w l.points.length) 0

def padded (w : Nat) (t : Text) : Text := t ++ List.replicate (w - t.points.length) 32

/-- Two pieces next to each other, the second as far to the right as the first is wide. -/
def beside (left right : List Text) : List Text :=
  (List.range (max left.length right.length)).map fun i =>
    padded (width left) (left.getD i []) ++ right.getD i []

def row (pieces : List Text) : List Text :=
  (pieces.map linesOf).foldr beside []

def indented (n : Nat) (ls : List Text) : List Text := ls.map (List.replicate n 32 ++ ·)

def quoted (t : Text) : Text := Text.concat ["\"", t, "\""]

structure Hit where
  docId : DocId
  score : Float
  /-- The sources that ranked it, if there may be several. -/
  sources : List Source
  excerpt : Option Excerpt

def names (sources : List Source) : Text := Text.join [44, 32] (sources.map Source.name)

def hit (rank : Nat) (h : Hit) : List Text :=
  let sources := if h.sources.isEmpty then [] else Text.concat [" (", names h.sources, ")"]
  row [Text.concat [Text.ofNat rank, ". "], h.docId,
    Text.concat [" ", fixedText 4 h.score], sources] ++ match h.excerpt with
    | some e => indented 3 (linesOf (e.split.map (·.text)).flatten)
    | none => []

def degraded (d : Degraded) : List Text :=
  linesOf (Text.concat ["! ", d.source.name, " ", Hybrid.degradedNote.reasonName d.reason, ": ",
    d.message])

def notConfigured (sources : List Source) : List Text :=
  if sources.isEmpty then [] else [Text.concat ["not configured: ", names sources]]

def ranked (query label : Text) (hits : List Hit) (failed : List Degraded)
    (narrowed : List Source) :
    List Text :=
  let header :=
    if hits.isEmpty then linesOf (Text.concat ["No results found for ", quoted query])
    else row [Text.concat ["Found ", Text.ofNat hits.length, " results for "], quoted query,
      Text.concat [" (", label, ")"]] ++ [[]]
  header ++ (hits.zipIdx 1).flatMap (fun (h, rank) => hit rank h) ++ failed.flatMap degraded ++
    notConfigured narrowed

def definition (d : Definition) : List Text :=
  row [Text.concat ["[", d.kind.getD "symbol", "]"], Text.concat [" ", d.name, " "],
    d.path.getD d.docId,
    match d.line with
    | some n => Text.concat [":", n.text]
    | none => []]

def symbols (query : Text) (definitions : List Definition) : List Text :=
  if definitions.isEmpty then row [Text.concat ["No symbol named ", quoted query]]
  else
    row [Text.concat ["Found ", Text.ofNat definitions.length, " definitions of "], quoted query] ++
      [[]] ++ definitions.flatMap definition

def excerptAt (f : Found) (i : Nat) : Option Excerpt := (f.excerpts[i]?).join

def shown (f : Found) : List Text :=
  match f.answer with
  | .symbols _ query definitions => symbols query definitions
  | .hybrid _ r =>
    ranked r.query (if r.cached then "hybrid, cached" else "hybrid")
      (r.results.zipIdx.map fun (e, i) => ⟨e.docId, e.score, e.sources, excerptAt f i⟩)
      r.degraded r.narrowed
  | .source _ narrowed r =>
    ranked r.query r.source.name
      (r.results.zipIdx.map fun (e, i) => ⟨e.docId, e.score, [], excerptAt f i⟩)
      r.degraded.toList narrowed

def lines (f : Found) : List Text := (shown f).map Text.trimEnd

end Quarry.Display
