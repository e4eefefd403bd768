import Quarry.Text.Point
import Quarry.Text.WordTable

/-!
Word characters: letters, numbers and the underscore, judged by code point. A surrogate that stands
alone is no word character.
-/

namespace Quarry

/-- Whether a code point is a letter, a number or the underscore. The ASCII ones are told by their
place, all others by the table. -/
def Text.isWordCode (code : Nat) : Bool :=
  if code < 0x80 then
    (0x30 ≤ code && code ≤ 0x39) || (0x41 ≤ code && code ≤ 0x5A) || code == 0x5F ||
      (0x61 ≤ code && code ≤ 0x7A)
  else Text.letterOrNumberRanges.any fun (first, last) => first ≤ code && code ≤ last

def Point.isWord (p : Point) : Bool := Text.isWordCode p.code

end Quarry
