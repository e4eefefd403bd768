/-!
Double-precision numbers taken apart: what the bits of one say, as a sign and an exact magnitude
`mantissa · 2 ^ exponent`, and the whole numbers next to it. All arithmetic here is exact.
-/

namespace Quarry

/-- The exact magnitude that the bits of a double stand for. -/
inductive Magnitude where
  | notANumber
  | infinite
  | finite (mantissa : Nat) (exponent : Int)
deriving DecidableEq, Repr

structure Binary where
  negative : Bool
  magnitude : Magnitude
deriving DecidableEq, Repr

namespace Binary

/-- Reads the fields of a double: one sign bit, eleven bits of exponent, fifty-two of fraction. -/
def ofFloat (x : Float) : Binary :=
  let bits := x.toBits.toNat
  let exponent : Nat := bits / Nat.pow 2 52 % Nat.pow 2 11
  let fraction : Nat := bits % Nat.pow 2 52
  { negative := Nat.pow 2 63 ≤ bits
    magnitude :=
      if exponent = 2047 then if fraction = 0 then .infinite else .notANumber
      else if exponent = 0 then .finite fraction (-1074)
      else .finite (Nat.pow 2 52 + fraction) ((exponent : Int) - 1075) }

/-- The fraction `numerator / denominator` that `mantissa · 2 ^ exponent` is. -/
def fraction (mantissa : Nat) (exponent : Int) : Nat × Nat :=
  (mantissa * Nat.pow 2 exponent.toNat, Nat.pow 2 (-exponent).toNat)

end Binary

/-- The natural number that a double equals, if it equals one. Negative zero equals zero. -/
def wholePart? (x : Float) : Option Nat :=
  match Binary.ofFloat x with
  | ⟨negative, .finite mantissa exponent⟩ =>
    let (n, d) := Binary.fraction mantissa exponent
    if n % d = 0 ∧ (negative = false ∨ n = 0) then some (n / d) else none
  | _ => none

/-- The largest natural number that is not above a double: zero for a negative one and for what is
not a number, and none for infinity, which has no largest. -/
def floorNat? (x : Float) : Option Nat :=
  match Binary.ofFloat x with
  | ⟨false, .finite mantissa exponent⟩ =>
    let (n, d) := Binary.fraction mantissa exponent
    some (n / d)
  | ⟨false, .infinite⟩ => none
  | _ => some 0

/-- The smallest natural number that is not below a double: zero for a negative one and for what is
not a number, and none for infinity. -/
def ceilNat? (x : Float) : Option Nat :=
  match Binary.ofFloat x with
  | ⟨false, .finite mantissa exponent⟩ =>
    let (n, d) := Binary.fraction mantissa exponent
    some ((n + d - 1) / d)
  | ⟨false, .infinite⟩ => none
  | _ => some 0

/-- The nearest whole number, of two equally near ones the greater. -/
def roundHalfUp (x : Float) : Float :=
  match Binary.ofFloat x with
  | ⟨negative, .finite mantissa exponent⟩ =>
    let (n, d) := Binary.fraction mantissa exponent
    if negative then -Float.ofNat ((2 * n - d + (2 * d - 1)) / (2 * d))
    else Float.ofNat ((2 * n + d) / (2 * d))
  | _ => x

end Quarry
