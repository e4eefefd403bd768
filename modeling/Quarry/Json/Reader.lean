import Quarry.Json

/-!
JSON values read from text. The grammar is the strict one: no comments, no trailing commas, no
leading zeros, no control characters inside strings, and only the four blanks of the format between
tokens. A number is the nearest double; a natural number below `2 ^ 53` is read exactly.
-/

namespace Quarry.Json

/-- The blanks between tokens: space, tab, line feed and carriage return. -/
def isGap (u : UInt16) : Bool := u == 32 || u == 9 || u == 10 || u == 13

def skipGap (t : Text) : Text := t.dropWhile isGap

def hexValue? (u : UInt16) : Option Nat :=
  if 48 ≤ u && u ≤ 57 then some (u.toNat - 48)
  else if 97 ≤ u && u ≤ 102 then some (u.toNat - 87)
  else if 65 ≤ u && u ≤ 70 then some (u.toNat - 55)
  else none

def hexUnit? (a b c d : UInt16) : Option UInt16 := do
  let a ← hexValue? a
  let b ← hexValue? b
  let c ← hexValue? c
  let d ← hexValue? d
  return (((a * 16 + b) * 16 + c) * 16 + d).toUInt16

def escaped? (u : UInt16) : Option UInt16 :=
  if u = 34 ∨ u = 92 ∨ u = 47 then some u
  else if u = 98 then some 8
  else if u = 102 then some 12
  else if u = 110 then some 10
  else if u = 114 then some 13
  else if u = 116 then some 9
  else none

/-- Reads the inside of a string up to its closing quote. Answers the text and what follows the
quote. -/
def readString : Text → Option (Text × Text)
  | [] => none
  | 34 :: rest => some ([], rest)
  | 92 :: 117 :: a :: b :: c :: d :: rest => do
    let u ← hexUnit? a b c d
    let (t, rest) ← readString rest
    return (u :: t, rest)
  | 92 :: e :: rest => do
    let u ← escaped? e
    let (t, rest) ← readString rest
    return (u :: t, rest)
  | u :: rest => if u < 32 ∨ u = 92 then none else do
    let (t, rest) ← readString rest
    return (u :: t, rest)

def readExponent (t : Text) : Option (Int × Text) :=
  match t with
  | 101 :: rest | 69 :: rest =>
    let (negative, rest) := match rest with
      | 45 :: rest => (true, rest)
      | 43 :: rest => (false, rest)
      | _ => (false, rest)
    let digits := rest.takeWhile Text.isDigit
    if digits.isEmpty then none
    else
      let n : Int := Text.digitsToNat digits
      some (if negative then -n else n, rest.dropWhile Text.isDigit)
  | _ => some (0, t)

def readNumber (t : Text) : Option (Number × Text) := do
  let (negative, t) := match t with
    | 45 :: rest => (true, rest)
    | _ => (false, t)
  let digits := t.takeWhile Text.isDigit
  let t := t.dropWhile Text.isDigit
  if digits.isEmpty then none
  if digits.head? = some 48 ∧ 1 < digits.length then none
  let (places, t) ← match t with
    | 46 :: rest =>
      let places := rest.takeWhile Text.isDigit
      if places.isEmpty then none else some (places, rest.dropWhile Text.isDigit)
    | _ => some ([], t)
  let (exponent, t) ← readExponent t
  return (.ofDecimal negative (Text.digitsToNat (digits ++ places)) (exponent - places.length), t)

mutual

/-- Reads one value and answers what follows it. Each nested call has a token less to read, so the
length of the text is fuel enough. -/
def readValue : Nat → Text → Option (Json × Text)
  | 0, _ => none
  | fuel + 1, t =>
    match skipGap t with
    | 110 :: 117 :: 108 :: 108 :: rest => some (.null, rest)
    | 116 :: 114 :: 117 :: 101 :: rest => some (.bool true, rest)
    | 102 :: 97 :: 108 :: 115 :: 101 :: rest => some (.bool false, rest)
    | 34 :: rest => do
      let (s, rest) ← readString rest
      return (.text s, rest)
    | 91 :: rest =>
      match skipGap rest with
      | 93 :: rest => some (.array [], rest)
      | rest => do
        let (items, rest) ← readItems fuel rest
        return (.array items, rest)
    | 123 :: rest =>
      match skipGap rest with
      | 125 :: rest => some (.object [], rest)
      | rest => do
        let (members, rest) ← readMembers fuel rest
        return (.object (ofMembers members), rest)
    | rest => do
      let (n, rest) ← readNumber rest
      return (.number n, rest)

/-- Reads the items of an array up to its closing bracket. -/
def readItems : Nat → Text → Option (List Json × Text)
  | 0, _ => none
  | fuel + 1, t => do
    let (item, rest) ← readValue fuel t
    match skipGap rest with
    | 93 :: rest => return ([item], rest)
    | 44 :: rest =>
      let (items, rest) ← readItems fuel rest
      return (item :: items, rest)
    | _ => none

/-- Reads the members of an object up to its closing bracket, in the order of the text. -/
def readMembers : Nat → Text → Option (List (Text × Json) × Text)
  | 0, _ => none
  | fuel + 1, t =>
    match skipGap t with
    | 34 :: rest => do
      let (name, rest) ← readString rest
      match skipGap rest with
      | 58 :: rest =>
        let (value, rest) ← readValue fuel rest
        match skipGap rest with
        | 125 :: rest => return ([(name, value)], rest)
        | 44 :: rest =>
          let (members, rest) ← readMembers fuel rest
          return ((name, value) :: members, rest)
        | _ => none
      | _ => none
    | _ => none

end

def read? (t : Text) : Option Json :=
  match readValue (2 * t.length + 2) t with
  | some (value, rest) => if (skipGap rest).isEmpty then some value else none
  | none => none

end Quarry.Json
