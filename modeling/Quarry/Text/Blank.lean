import Quarry.Text

/-!
Blank characters and the operations that rest on them: trimming, and splitting at blanks. The blank
characters are tab, the line and page ends, the space characters of Unicode (category Zs), the line
and paragraph separators, and the byte order mark. U+0085, U+180E and U+200B are not blank.
-/

namespace Quarry.Text

/-- The blank characters. All of them are single units. -/
def isBlank (u : UInt16) : Bool :=
  u == 0x20 || (0x09 ≤ u && u ≤ 0x0D) || u == 0xA0 || u == 0x1680 || (0x2000 ≤ u && u ≤ 0x200A) ||
    u == 0x2028 || u == 0x2029 || u == 0x202F || u == 0x205F || u == 0x3000 || u == 0xFEFF

def trimStart (t : Text) : Text := t.dropWhile isBlank

def trimEnd (t : Text) : Text := (t.reverse.dropWhile isBlank).reverse

def trim (t : Text) : Text := trimEnd (trimStart t)

/-- The maximal runs of units that do not satisfy `isGap`, in order. -/
def fields (isGap : UInt16 → Bool) (t : Text) : List Text :=
  let rec go (run : Text) : Text → List Text
    | [] => if run.isEmpty then [] else [run.reverse]
    | u :: rest =>
      if isGap u then
        if run.isEmpty then go [] rest else run.reverse :: go [] rest
      else go (u :: run) rest
  go [] t

def collapseBlanks : Text → Text
  | [] => []
  | u :: rest =>
    if isBlank u then
      match rest with
      | [] => [0x20]
      | v :: _ => if isBlank v then collapseBlanks rest else 0x20 :: collapseBlanks rest
    else u :: collapseBlanks rest

end Quarry.Text
