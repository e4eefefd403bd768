/-!
Texts as the search engine measures them: sequences of UTF-16 code units.

Offsets, lengths and slices count units, and identifiers and terms are ordered unit by unit, so a
text is the list of its units. A slice may part the two halves of a pair; such a half is an ordinary
member of a text and keeps its place in the order.
-/

namespace Quarry

abbrev Text := List UInt16

namespace Text

/-- The units that spell a character: one below `0x10000`, a surrogate pair from there on. -/
def ofChar (c : Char) : Text :=
  if c.toNat < 0x10000 then [c.toNat.toUInt16]
  else [(0xD800 + (c.toNat - 0x10000) / 0x400).toUInt16,
    (0xDC00 + (c.toNat - 0x10000) % 0x400).toUInt16]

def ofChars (cs : List Char) : Text := cs.flatMap ofChar

def ofString (s : String) : Text := ofChars s.toList

instance : Coe String Text := ⟨ofString⟩

def isHighSurrogate (u : UInt16) : Bool := 0xD800 ≤ u && u < 0xDC00

def isLowSurrogate (u : UInt16) : Bool := 0xDC00 ≤ u && u < 0xE000

/-- The units from offset `start` up to, and without, offset `stop`. -/
def slice (t : Text) (start stop : Nat) : Text := (t.take stop).drop start

/-- The offset that a number stands for. A negative one counts from the end of the text, and no
further than to its beginning. -/
def offsetAt (t : Text) (i : Int) : Nat := (if i < 0 then t.length + i else i).toNat

/-- The slice between two offsets that may count from the end. -/
def cut (t : Text) (start stop : Int) : Text := t.slice (t.offsetAt start) (t.offsetAt stop)

def startsWith (t stem : Text) : Bool := stem.isPrefixOf t

def endsWith (t tail : Text) : Bool := tail.isSuffixOf t

def offsetOf? (u : UInt16) (t : Text) : Option Nat := t.findIdx? (· == u)

def lastOffsetOf? (u : UInt16) (t : Text) : Option Nat :=
  (offsetOf? u t.reverse).map (t.length - 1 - ·)

/-- The pieces between the units equal to `u`; a text without any is its own single piece. -/
def splitAt (u : UInt16) : Text → List Text
  | [] => [[]]
  | v :: rest =>
    if v = u then [] :: splitAt u rest
    else match splitAt u rest with
      | [] => [[v]]
      | piece :: pieces => (v :: piece) :: pieces

def concat (ts : List Text) : Text := ts.flatten

/-- The texts of a list, one after the other, with `separator` between neighbours. -/
def join (separator : Text) (ts : List Text) : Text := List.intercalate separator ts

def replaceUnit (u : UInt16) (replacement : Text) (t : Text) : Text :=
  t.flatMap fun v => if v = u then replacement else [v]

/-- Puts `replacement` in place of the first occurrence of `wanted`, if there is one. -/
def replaceFirst? (wanted replacement : Text) : Text → Option Text
  | [] => if wanted.isEmpty then some replacement else none
  | u :: rest =>
    if wanted.isPrefixOf (u :: rest) then some (replacement ++ (u :: rest).drop wanted.length)
    else (replaceFirst? wanted replacement rest).map (u :: ·)

def ofNat (n : Nat) : Text := (Nat.toDigits 10 n).map fun c => c.toNat.toUInt16

def isDigit (u : UInt16) : Bool := 48 ≤ u && u ≤ 57

def digitsToNat (t : Text) : Nat := t.foldl (fun n u => 10 * n + (u.toNat - 48)) 0

def before (a b : Text) : Bool := (compare a b).isLT

theorem length_slice (t : Text) (start stop : Nat) :
    (t.slice start stop).length = min stop t.length - start := by
  simp [slice]

theorem offsetAt_of_nonneg (t : Text) {i : Int} (h : 0 ≤ i) : t.offsetAt i = i.toNat := by
  rw [offsetAt, if_neg (Int.not_lt.2 h)]

end Text
end Quarry
