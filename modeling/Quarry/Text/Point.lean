import Quarry.Text

/-!
The code points of a text. A high surrogate followed by a low one is one point of two units; every
other unit, a surrogate without its partner included, is a point of its own. The points of a text
hold all of its units, in order.
-/

namespace Quarry

/-- One code point of a text, with the units that spell it. -/
inductive Point where
  | unit (u : UInt16)
  | pair (high low : UInt16)
deriving DecidableEq, Repr

namespace Point

def code : Point → Nat
  | unit u => u.toNat
  | pair high low => 0x10000 + (high.toNat - 0xD800) * 0x400 + (low.toNat - 0xDC00)

def units : Point → Text
  | unit u => [u]
  | pair high low => [high, low]

def width : Point → Nat
  | unit _ => 1
  | pair _ _ => 2

def ofCode (code : Nat) : Point :=
  if code < 0x10000 then unit code.toUInt16
  else pair (0xD800 + (code - 0x10000) / 0x400).toUInt16
    (0xDC00 + (code - 0x10000) % 0x400).toUInt16

def isLoneSurrogate : Point → Bool
  | unit u => 0xD800 ≤ u && u < 0xE000
  | pair _ _ => false

theorem length_units (p : Point) : p.units.length = p.width := by
  cases p <;> rfl

end Point

namespace Text

def points : Text → List Point
  | [] => []
  | [u] => [.unit u]
  | u :: v :: rest =>
    if isHighSurrogate u && isLowSurrogate v then .pair u v :: points rest
    else .unit u :: points (v :: rest)

def ofPoints (ps : List Point) : Text := ps.flatMap Point.units

/-- No unit is lost in reading the points of a text. -/
theorem ofPoints_points (t : Text) : ofPoints t.points = t := by
  fun_induction points t with
  | case1 => rfl
  | case2 => rfl
  | case3 u v rest _ ih => simpa [ofPoints, Point.units] using ih
  | case4 u v rest _ ih => simpa [ofPoints, Point.units] using ih

/-- The text with U+FFFD in place of every surrogate that stands alone: what is left of it after
it has been written as UTF-8. -/
def replaceLone (t : Text) : Text :=
  t.points.flatMap fun p => if p.isLoneSurrogate then [0xFFFD] else p.units

/-- The characters of a text, U+FFFD for a surrogate that stands alone. -/
def toChars (t : Text) : List Char :=
  t.points.map fun p => if p.isLoneSurrogate then '\uFFFD' else Char.ofNat p.code

/-- The string that a text spells, U+FFFD for a surrogate that stands alone. -/
def toString (t : Text) : String := String.ofList t.toChars

/-- The bytes of a text in UTF-8, U+FFFD for a surrogate that stands alone. -/
def toUtf8 (t : Text) : List UInt8 :=
  t.points.flatMap fun p =>
    let code := if p.isLoneSurrogate then 0xFFFD else p.code
    if code < 0x80 then [code.toUInt8]
    else if code < 0x800 then [(0xC0 + code / 0x40).toUInt8, (0x80 + code % 0x40).toUInt8]
    else if code < 0x10000 then
      [(0xE0 + code / 0x1000).toUInt8, (0x80 + code / 0x40 % 0x40).toUInt8,
        (0x80 + code % 0x40).toUInt8]
    else
      [(0xF0 + code / 0x40000).toUInt8, (0x80 + code / 0x1000 % 0x40).toUInt8,
        (0x80 + code / 0x40 % 0x40).toUInt8, (0x80 + code % 0x40).toUInt8]

end Text
end Quarry
