import Quarry.Number.Binary
import Quarry.Text

/-!
Doubles written in decimal. `Decimal.shortest` finds the fewest digits that read back as the same
double, nearest to its value among those; `shortestText` lays them out, positionally from `1e-6` up
to, and without, `1e21`. `fixedText` writes a given number of places, rounding the exact value, a
half away from zero.
-/

namespace Quarry

structure Decimal where
  digits : Nat
  scale : Int
deriving DecidableEq, Repr

namespace Decimal

/-- The least `j ≥ 1` with `denominator ≤ numerator · 10 ^ j`; the fuel bounds the search. -/
def leadingZeros (numerator denominator : Nat) : Nat → Nat
  | 0 => 1
  | fuel + 1 =>
    if denominator ≤ numerator * 10 then 1
    else leadingZeros (numerator * 10) denominator fuel + 1

/-- The exponent of the leading decimal digit of a positive fraction. -/
def leadingExponent (numerator denominator : Nat) : Int :=
  if denominator ≤ numerator then ((Nat.toDigits 10 (numerator / denominator)).length : Int) - 1
  else -(leadingZeros numerator denominator 400 : Int)

/-- The numbers that read back as one double: those between two fractions of one denominator, the
ends among them or not. -/
structure Interval where
  low : Nat
  high : Nat
  denominator : Nat
  closed : Bool

/-- The interval of the double `mantissa · 2 ^ exponent`, and the double itself as a numerator over
the same denominator. The ends are half way to the neighbours and belong to it when the mantissa is
even. -/
def Interval.ofBinary (mantissa : Nat) (exponent : Int) : Interval × Nat :=
  let unit := Nat.pow 2 (exponent - 2).toNat
  let below := if mantissa = Nat.pow 2 52 ∧ -1074 < exponent then 1 else 2
  ({ low := (4 * mantissa - below) * unit
     high := (4 * mantissa + 2) * unit
     denominator := Nat.pow 2 (2 - exponent).toNat
     closed := mantissa % 2 == 0 }, 4 * mantissa * unit)

def Interval.holds (i : Interval) (d : Decimal) : Bool :=
  let value := d.digits * Nat.pow 10 d.scale.toNat * i.denominator
  let unit := Nat.pow 10 (-d.scale).toNat
  if i.closed then i.low * unit ≤ value && value ≤ i.high * unit
  else i.low * unit < value && value < i.high * unit

/-- On the decimal grid of the given scale, the neighbour of a fraction that lies in the interval;
the nearer one when both do, and the even one of two equally near. -/
def onGrid (i : Interval) (numerator : Nat) (scale : Int) : Option Decimal :=
  let n := numerator * Nat.pow 10 (-scale).toNat
  let d := i.denominator * Nat.pow 10 scale.toNat
  let lower : Decimal := ⟨n / d, scale⟩
  let upper : Decimal := ⟨n / d + 1, scale⟩
  match i.holds lower, i.holds upper with
  | true, true =>
    let twice := 2 * (n % d)
    if twice < d ∨ twice = d ∧ lower.digits % 2 = 0 then some lower else some upper
  | true, false => some lower
  | false, true => some upper
  | false, false => none

/-- The fewest digits that read back as the positive double `mantissa · 2 ^ exponent`. Seventeen
digits always do. -/
def shortest (mantissa : Nat) (exponent : Int) : Decimal :=
  let (i, numerator) := Interval.ofBinary mantissa exponent
  let leading := leadingExponent numerator i.denominator
  ((List.range 17).findSome? fun (more : Nat) => onGrid i numerator (leading - more)).getD
    ⟨numerator / i.denominator, 0⟩

/-- Digits and exponent of a decimal number: its value is `0.digits · 10 ^ exponent`, and the last
digit is not zero. -/
def normalForm (d : Decimal) : Text × Int :=
  let ds := Text.ofNat d.digits
  ((ds.reverse.dropWhile (· == 48)).reverse, d.scale + ds.length)

/-- Lays out a positive decimal number: all digits before the point up to `10 ^ 21`, leading zeros
after the point down to `10 ^ -6`, and one digit before the point with an exponent otherwise. -/
def text (d : Decimal) : Text :=
  let (ds, point) := normalForm d
  let k := ds.length
  if (k : Int) ≤ point ∧ point ≤ 21 then ds ++ List.replicate (point.toNat - k) 48
  else if 0 < point ∧ point ≤ 21 then ds.take point.toNat ++ [46] ++ ds.drop point.toNat
  else if -6 < point ∧ point ≤ 0 then [48, 46] ++ List.replicate (-point).toNat 48 ++ ds
  else
    let e := point - 1
    ds.take 1 ++ (if k = 1 then [] else 46 :: ds.drop 1) ++ [101] ++
      (if e < 0 then [45] else [43]) ++ Text.ofNat e.natAbs

end Decimal

def shortestText (x : Float) : Text :=
  match Binary.ofFloat x with
  | ⟨_, .notANumber⟩ => "NaN"
  | ⟨false, .infinite⟩ => "Infinity"
  | ⟨true, .infinite⟩ => "-Infinity"
  | ⟨negative, .finite mantissa exponent⟩ =>
    if mantissa = 0 then [48]
    else (if negative then [45] else []) ++ (Decimal.shortest mantissa exponent).text

/-- A double with a fixed number of places after the point. From `1e21` on it is written as
`shortestText` does. -/
def fixedText (places : Nat) (x : Float) : Text :=
  match Binary.ofFloat x with
  | ⟨negative, .finite mantissa exponent⟩ =>
    let (n, d) := Binary.fraction mantissa exponent
    if Nat.pow 10 21 * d ≤ n then shortestText x
    else
      let scaled := (2 * n * Nat.pow 10 places + d) / (2 * d)
      let whole := Text.ofNat (scaled / Nat.pow 10 places)
      let rest := Text.ofNat (scaled % Nat.pow 10 places)
      (if negative && mantissa ≠ 0 then [45] else []) ++ whole ++
        (if places = 0 then [] else 46 :: (List.replicate (places - rest.length) 48 ++ rest))
  | _ => shortestText x

end Quarry
