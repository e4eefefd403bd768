import Quarry.Number.Decimal

/-!
Numbers as callers and files give them. Nearly all of them are counts, positions, limits and
versions, which are whole and not negative and have exact arithmetic as natural numbers; the others
are doubles. A number that equals a natural number is always held as one.
-/

namespace Quarry

inductive Number where
  | whole (n : Nat)
  | real (x : Float)
deriving Inhabited

namespace Number

def ofFloat (x : Float) : Number :=
  match wholePart? x with
  | some n => whole n
  | none => real x

def toFloat : Number → Float
  | whole n => Float.ofNat n
  | real x => x

/-- Natural numbers below this bound have a text with all their digits and read back exactly. -/
def exactBound : Nat := Nat.pow 2 53

/-- The text of a number: all digits of a natural number below `exactBound`, and otherwise the
shortest text that reads back as the same double. -/
def text : Number → Text
  | whole n => if n < exactBound then Text.ofNat n else shortestText (Float.ofNat n)
  | real x => shortestText x

/-- The number that a decimal literal stands for: sign, digits, and power of ten. A natural number
below `exactBound` is exact, and any other literal is the nearest double. Exponents far outside the
range of doubles are cut short before the power is formed. -/
def ofDecimal (negative : Bool) (digits : Nat) (scale : Int) : Number :=
  if !negative && scale = 0 && digits < exactBound then whole digits
  else
    let length : Int := (Text.ofNat digits).length
    let magnitude : Float :=
      if digits = 0 ∨ scale + length < -400 then 0
      else if 400 < scale + length then Float.ofScientific 1 false 400
      else Float.ofScientific digits (scale < 0) scale.natAbs
    ofFloat (if negative then -magnitude else magnitude)

/-- The natural number that a number is, if it is one. -/
def toNat? : Number → Option Nat
  | whole n => some n
  | real _ => none

/-- The number of items that are at most this number: no bound at all for infinity. -/
def floorBound : Number → Option Nat
  | whole n => some n
  | real x => floorNat? x

/-- The number of items counted while their count is below this number. -/
def ceilBound : Number → Option Nat
  | whole n => some n
  | real x => ceilNat? x

/-- Whether a natural number is at most this number. The comparison is exact. -/
def admits (bound : Number) (n : Nat) : Bool :=
  match bound with
  | whole m => n ≤ m
  | real x =>
    match Binary.ofFloat x with
    | ⟨false, .infinite⟩ => true
    | ⟨negative, .finite mantissa exponent⟩ =>
      let (numerator, denominator) := Binary.fraction mantissa exponent
      if negative then n = 0 && numerator = 0 else n * denominator ≤ numerator
    | _ => false

def isFinite : Number → Bool
  | whole _ => true
  | real x => match (Binary.ofFloat x).magnitude with
    | .finite _ _ => true
    | _ => false

def isInteger : Number → Bool
  | whole _ => true
  | real x => (wholePart? (-x)).isSome

def isNotANumber : Number → Bool
  | whole _ => false
  | real x => x.isNaN

instance : OfNat Number n := ⟨whole n⟩

end Number

/-- The first items of a list, all of them when there is no bound. -/
def takeBound (bound : Option Nat) (items : List α) : List α :=
  match bound with
  | some n => items.take n
  | none => items

/-- The part of a list that a count selects: its first items for a count from zero on, and all but
its last items for a negative one. Fractions are cut off, and what is not a number counts
as zero. -/
def Number.select (count : Number) (items : List α) : List α :=
  match count with
  | .whole n => items.take n
  | .real x =>
    if x < 0 then
      match floorNat? (-x) with
      | some n => items.take (items.length - n)
      | none => []
    else takeBound (floorNat? x) items

end Quarry
