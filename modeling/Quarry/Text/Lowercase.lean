import Quarry.Text.CaseTable
import Quarry.Text.Point

/-!
Lower-casing by the full mapping of Unicode, without a locale. Each code point is mapped on its own
with two exceptions: `İ` becomes two code points, and a capital sigma at the end of a word becomes
the final sigma. A sigma is final when, looking through case-ignorable characters, a cased letter
stands before it and none stands after it.
-/

namespace Quarry

def Text.inRanges (ranges : Array (Nat × Nat)) (code : Nat) : Bool :=
  ranges.any fun (first, last) => first ≤ code && code ≤ last

namespace Point

def isCased (p : Point) : Bool := Text.inRanges Text.casedRanges p.code

/-- Whether the rule of the final sigma looks through the point. -/
def isCaseIgnorable (p : Point) : Bool := Text.inRanges Text.caseIgnorableRanges p.code

def lower (p : Point) : List Point :=
  if p.code < 0x80 then
    if 0x41 ≤ p.code && p.code ≤ 0x5A then [ofCode (p.code + 0x20)] else [p]
  else if p.code == 0x130 then [ofCode 0x69, ofCode 0x307]
  else
    match Text.lowercaseRuns.find? fun (first, last, step, _) =>
        first ≤ p.code && p.code ≤ last && (p.code - first) % step == 0 with
    | some (_, _, _, shift) => [ofCode (Int.toNat (p.code + shift))]
    | none => [p]

/-- Whether a cased letter comes first once the case-ignorable points are left out. -/
def meetsCased (ps : List Point) : Bool :=
  match ps.dropWhile isCaseIgnorable with
  | [] => false
  | p :: _ => p.isCased

end Point

namespace Text

/-- Lower-cases the points of a text. The first list holds the points already passed, the last one
first. -/
def lowerPoints (passed : List Point) : List Point → List Point
  | [] => []
  | p :: rest =>
    let image :=
      if p.code == 0x3A3 && Point.meetsCased passed && !Point.meetsCased rest then
        [Point.ofCode 0x3C2]
      else p.lower
    image ++ lowerPoints (p :: passed) rest

def lower (t : Text) : Text := ofPoints (lowerPoints [] t.points)

end Text
end Quarry
