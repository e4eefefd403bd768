import Quarry.Excerpt.Span

/-!
Excerpts of a text around the places where a query matches. The spans of the matches are put into
clusters, neighbours at most a window apart and no cluster longer than two windows unless it is a
single span; the densest cluster is shown with a window of text on either side. Highlights are the
spans of that cluster, as offsets into the excerpt.
-/

namespace Quarry

structure Excerpt where
  text : Text
  highlights : List Span
deriving DecidableEq, Repr

namespace Excerpt

structure Cluster where
  spans : List Span
  start : Int
  stop : Int

/-- Puts spans into the cluster before them as long as they are near enough. -/
def clusterFrom (window : Int) (current : Cluster) : List Span → List Cluster
  | [] => [current]
  | s :: rest =>
    if s.start - current.stop ≤ window ∧ s.stop - current.start ≤ 2 * window then
      clusterFrom window
        { current with spans := current.spans ++ [s], stop := max current.stop s.stop } rest
    else current :: clusterFrom window ⟨[s], s.start, s.stop⟩ rest

def clusters (window : Int) : List Span → List Cluster
  | [] => []
  | s :: rest => clusterFrom window ⟨[s], s.start, s.stop⟩ rest

/-- Whether a cluster is preferred to an earlier one: it has more spans, or as many in less room. -/
def Cluster.beats (a b : Cluster) : Bool :=
  b.spans.length < a.spans.length ||
    (a.spans.length == b.spans.length && a.stop - a.start < b.stop - b.start)

def best? : List Cluster → Option Cluster
  | [] => none
  | c :: rest => some (rest.foldl (fun best c => if c.beats best then c else best) c)

def ellipsis : Text := [0x2026]

def defaultWindow : Nat := 80

/-- The excerpt of a text around spans. Spans that are empty or not within the text are left out;
without any span the excerpt is the beginning of the text. The window is at least one. -/
def extract (text : Text) (spans : List Span) (window : Int) : Excerpt :=
  let window := max 1 window
  let within :=
    spans.filter fun s => 0 ≤ s.start && s.stop ≤ (text.length : Int) && s.start < s.stop
  match best? (clusters window (Span.merge within)) with
  | none =>
    let head := text.take (2 * window).toNat
    ⟨if head.length < text.length then head ++ ellipsis else head, []⟩
  | some c =>
    let start := max 0 (c.start - window)
    let stop := min (text.length : Int) (c.stop + window)
    let before := if 0 < start then ellipsis else []
    let after := if stop < text.length then ellipsis else []
    let offset := (before.length : Int) - start
    ⟨before ++ text.slice start.toNat stop.toNat ++ after,
      c.spans.map fun s => ⟨s.start + offset, s.stop + offset⟩⟩

structure Part where
  text : Text
  highlighted : Bool
deriving DecidableEq, Repr

/-- Splits what is left of a text from an offset on into plain and highlighted pieces. A highlight
that begins before the offset is passed over. -/
def splitFrom (text : Text) (offset : Int) : List Span → List Part
  | [] => if offset < text.length then [⟨text.drop (text.offsetAt offset), false⟩] else []
  | s :: rest =>
    if s.start < offset then splitFrom text offset rest
    else
      (if offset < s.start then [⟨text.cut offset s.start, false⟩] else []) ++
        ⟨text.cut s.start s.stop, true⟩ :: splitFrom text s.stop rest

def split (e : Excerpt) : List Part := splitFrom e.text 0 e.highlights

end Excerpt
end Quarry
