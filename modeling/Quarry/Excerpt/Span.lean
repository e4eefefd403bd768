import Quarry.Token

/-!
Spans of a text and their canonical form: in order, overlapping ones merged, touching ones apart.
-/

namespace Quarry

structure Span where
  start : Int
  stop : Int
deriving DecidableEq, Repr

namespace Span

/-- The order of spans: by start, and of one start by end. -/
def le (a b : Span) : Bool := a.start < b.start || (a.start == b.start && a.stop ≤ b.stop)

/-- Merges spans in order into the one before them wherever they overlap it. -/
def mergeFrom (current : Span) : List Span → List Span
  | [] => [current]
  | s :: rest =>
    if s.start < current.stop then mergeFrom { current with stop := max current.stop s.stop } rest
    else current :: mergeFrom s rest

def merge (spans : List Span) : List Span :=
  match spans.mergeSort le with
  | [] => []
  | s :: rest => mergeFrom s rest

def overlaps (a b : Span) : Bool := a.start < b.stop && b.start < a.stop

def ofToken (t : Token) : Span := ⟨t.start, t.stop⟩

/-- The spans of the wanted tokens, in the order of tokens. A compound counts only if it overlaps
none before it. -/
def ofTokens (wanted : Term → Bool) (found : List Span) : List Token → List Span
  | [] => found.reverse
  | t :: rest =>
    if !wanted t.term || t.compound && found.any (overlaps · (ofToken t)) then
      ofTokens wanted found rest
    else ofTokens wanted (ofToken t :: found) rest

end Span

/-- Where the wanted terms occur in a text. A dotted identifier as a whole is taken only if none of
its parts is wanted. -/
def Text.locate (t : Text) (wanted : List Term) : List Span :=
  Span.merge (Span.ofTokens wanted.contains [] t.tokens)

end Quarry
