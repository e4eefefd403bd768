import Quarry.Path

/-!
Patterns of paths and what they match. A match of a pattern takes units off the front of a path, and
`Pattern.ends` gives everything that can be left behind; a path matches as a whole when nothing
needs to be left. A segment is what stands between slashes; the segments `.` and `..` are matched by
no wildcard.
-/

namespace Quarry

namespace Path

/-- Whether a path ends here or goes on with a slash. -/
def atBoundary : Text → Bool
  | [] => true
  | u :: _ => u == slash

/-- Whether a path goes on with a segment `.` or `..`. -/
def atDotSegment : Text → Bool
  | 46 :: 46 :: rest => atBoundary rest
  | 46 :: rest => atBoundary rest
  | _ => false

end Path

namespace Glob

/-- A set of units, by ranges; a negated set holds what is in no range. -/
structure UnitSet where
  negated : Bool
  ranges : List (UInt16 × UInt16)
deriving DecidableEq, Repr

namespace UnitSet

def contains (s : UnitSet) (u : UInt16) : Bool :=
  s.ranges.any (fun (low, high) => low ≤ u && u ≤ high) != s.negated

def only (u : UInt16) : UnitSet := ⟨false, [(u, u)]⟩

def segment : UnitSet := ⟨true, [(47, 47)]⟩

def line : UnitSet := ⟨true, [(10, 10), (13, 13), (0x2028, 0x2029)]⟩

end UnitSet

inductive Guard where
  | first
  | last
  /-- Something follows, and it does not end the line. -/
  | more
  /-- No segment `.` or `..` follows. -/
  | noDots
  /-- No segment `.` or `..` begins here, at the beginning of the path or behind the slash here. -/
  | noDotsNext
  /-- The segment is not over, neither here nor after one full stop. -/
  | segmentGoesOn
deriving DecidableEq, Repr

/-- Whether a guard holds before what is left of a path. -/
def Guard.holds (g : Guard) (whole rest : Text) : Bool :=
  match g with
  | first => rest.length == whole.length
  | last => rest.isEmpty
  | more => match rest with
    | [] => false
    | u :: _ => UnitSet.line.contains u
  | noDots => !Path.atDotSegment rest
  | noDotsNext =>
    !(rest.length == whole.length && Path.atDotSegment rest) &&
      match rest with
      | 47 :: next => !Path.atDotSegment next
      | _ => true
  | segmentGoesOn =>
    !Path.atBoundary rest &&
      match rest with
      | 46 :: next => !Path.atBoundary next
      | _ => true

inductive Pattern where
  | never
  | empty
  /-- Takes one unit of a set. -/
  | one (s : UnitSet)
  /-- Takes any number of units without a slash. -/
  | run
  /-- Takes any number of units, slashes too, but goes into no segment `.` or `..`. -/
  | deep
  | guard (g : Guard)
  | seq (first second : Pattern)
  | either (first second : Pattern)
deriving Repr

namespace Pattern

/-- What can be left of a text after some units of a set. -/
def runEnds (s : UnitSet) : Text → List Text
  | [] => [[]]
  | u :: rest => (u :: rest) :: if s.contains u then runEnds s rest else []

/-- What can be left of a path after some units within proper segments. -/
def deepEnds (whole : Text) : Text → List Text
  | [] => [[]]
  | u :: rest =>
    (u :: rest) ::
      if Guard.noDotsNext.holds whole (u :: rest) && UnitSet.line.contains u then
        deepEnds whole rest
      else []

/-- What a pattern can leave of the rest of a path. -/
def ends (whole : Text) : Pattern → Text → List Text
  | never, _ => []
  | empty, rest => [rest]
  | one s, rest => match rest with
    | [] => []
    | u :: rest => if s.contains u then [rest] else []
  | run, rest => runEnds .segment rest
  | deep, rest => deepEnds whole rest
  | guard g, rest => if g.holds whole rest then [rest] else []
  | seq first second, rest => ((ends whole first rest).flatMap (ends whole second)).eraseDups
  | either first second, rest => (ends whole first rest ++ ends whole second rest).eraseDups

def accepts (p : Pattern) (path : Text) : Bool := (p.ends path path).contains []

def unit (u : UInt16) : Pattern := one (.only u)

def text : Text → Pattern
  | [] => empty
  | u :: rest => seq (unit u) (text rest)

def inOrder : List Pattern → Pattern
  | [] => empty
  | p :: rest => seq p (inOrder rest)

def anyOf : List Pattern → Pattern
  | [] => never
  | [p] => p
  | p :: rest => either p (anyOf rest)

def opt (p : Pattern) : Pattern := either p empty

def slash : Pattern := unit Path.slash

def dot : Pattern := unit Path.dot

end Pattern
end Glob
end Quarry
