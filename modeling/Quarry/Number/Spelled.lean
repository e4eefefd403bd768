import Quarry.Number
import Quarry.Text.Blank

/-!
Numbers spelled by users. A number has a sign, digits with a point among them, and a power of ten,
of which only the digits are needed; a whole number may also be given in another base. A blank text
counts as zero, and what spells no number is not a number.
-/

namespace Quarry.Number

def notANumber : Number := .real (0.0 / 0.0)

/-- The power of ten at the end of a number, none if nothing is left. -/
def powerOfTen? : Text → Option Int
  | [] => some 0
  | e :: rest =>
    if e = 101 ∨ e = 69 then
      let (negative, digits) := match rest with
        | 45 :: digits => (true, digits)
        | 43 :: digits => (false, digits)
        | digits => (false, digits)
      if digits.isEmpty || !digits.all Text.isDigit then none
      else
        let n : Int := Text.digitsToNat digits
        some (if negative then -n else n)
    else none

/-- The number that digits with a point and a power of ten spell. -/
def ofDigits? (negative : Bool) (t : Text) : Option Number :=
  let whole := t.takeWhile Text.isDigit
  let rest := t.dropWhile Text.isDigit
  let (fraction, rest) := match rest with
    | 46 :: rest => (rest.takeWhile Text.isDigit, rest.dropWhile Text.isDigit)
    | _ => ([], rest)
  if whole.isEmpty && fraction.isEmpty then none
  else (powerOfTen? rest).map fun power =>
    ofDecimal negative (Text.digitsToNat (whole ++ fraction)) (power - fraction.length)

def digitValue? (u : UInt16) : Option Nat :=
  if Text.isDigit u then some (u.toNat - 48)
  else if 97 ≤ u ∧ u ≤ 102 then some (u.toNat - 87)
  else if 65 ≤ u ∧ u ≤ 70 then some (u.toNat - 55)
  else none

def ofBase? (base : Nat) (digits : Text) : Option Number :=
  if digits.isEmpty then none
  else (digits.foldlM (fun n u => (digitValue? u).bind fun d =>
    if d < base then some (n * base + d) else none) 0).map fun n => ofFloat (Float.ofNat n)

/-- A number with its sign, or a number in another base. -/
def signed? : Text → Option Number
  | 45 :: t => if t = ("Infinity" : Text) then some (.real (-1.0 / 0.0)) else ofDigits? true t
  | 43 :: t => if t = ("Infinity" : Text) then some (.real (1.0 / 0.0)) else ofDigits? false t
  | 48 :: base :: digits =>
    if base = 120 ∨ base = 88 then ofBase? 16 digits
    else if base = 111 ∨ base = 79 then ofBase? 8 digits
    else if base = 98 ∨ base = 66 then ofBase? 2 digits
    else ofDigits? false (48 :: base :: digits)
  | t => if t = ("Infinity" : Text) then some (.real (1.0 / 0.0)) else ofDigits? false t

def spelled (t : Text) : Number :=
  let t := t.trim
  if t.isEmpty then 0 else (signed? t).getD notANumber

end Quarry.Number
