import Quarry.Json
import Quarry.Text.Point

/-!
JSON values written as text. A string is written with its own characters except that quotes,
backslashes, control characters and surrogates that stand alone are escaped, so that every text can
be read back. Numbers that are not finite are written as `null`, and members without a value are
left out.
-/

namespace Quarry.Json

def hexDigit (n : Nat) : UInt16 := if n < 10 then (48 + n).toUInt16 else (87 + n).toUInt16

def unitEscape (u : UInt16) : Text :=
  let n := u.toNat
  [92, 117, hexDigit (n / 4096), hexDigit (n / 256 % 16), hexDigit (n / 16 % 16), hexDigit (n % 16)]

def writePoint : Point → Text
  | .pair high low => [high, low]
  | .unit u =>
    if u = 34 then [92, 34]
    else if u = 92 then [92, 92]
    else if u = 8 then [92, 98]
    else if u = 9 then [92, 116]
    else if u = 10 then [92, 110]
    else if u = 12 then [92, 102]
    else if u = 13 then [92, 114]
    else if u < 32 ∨ 0xD800 ≤ u ∧ u < 0xE000 then unitEscape u
    else [u]

def writeText (t : Text) : Text := 34 :: (t.points.flatMap writePoint ++ [34])

def writeNumber (n : Number) : Text := if n.isFinite then n.text else [110, 117, 108, 108]

def write : Json → Text
  | null | missing => [110, 117, 108, 108]
  | bool true => [116, 114, 117, 101]
  | bool false => [102, 97, 108, 115, 101]
  | number n => writeNumber n
  | text t => writeText t
  | array items => 91 :: (writeItems items ++ [93])
  | object members => 123 :: (writeMembers members ++ [125])
where
  /-- The items of an array, a comma between neighbours. -/
  writeItems : List Json → Text
    | [] => []
    | [item] => write item
    | item :: next :: rest => write item ++ 44 :: writeItems (next :: rest)
  /-- The members of an object, a comma between neighbours. -/
  writeMembers : List (Text × Json) → Text
    | [] => []
    | (_, .missing) :: rest => writeMembers rest
    | (name, value) :: rest =>
      writeText name ++ 58 :: write value ++
        match writeMembers rest with
        | [] => []
        | more => 44 :: more

/-- A value written over several lines: every item and member on its own line, one tab deeper than
what holds it. -/
def writeIndented (depth : Nat) : Json → Text
  | array items => bracketed 91 93 (itemLines (depth + 1) items)
  | object members => bracketed 123 125 (memberLines (depth + 1) members)
  | value => write value
where
  /-- Lines between brackets, the closing one at `depth`. -/
  bracketed (opening closing : UInt16) (lines : List Text) : Text :=
    if lines.isEmpty then [opening, closing]
    else
      let indent := 10 :: List.replicate (depth + 1) 9
      opening :: (indent ++ Text.join (44 :: indent) lines) ++
        10 :: List.replicate depth 9 ++ [closing]
  /-- The items of an array as lines. -/
  itemLines (inner : Nat) : List Json → List Text
    | [] => []
    | item :: rest => writeIndented inner item :: itemLines inner rest
  /-- The members of an object as lines. -/
  memberLines (inner : Nat) : List (Text × Json) → List Text
    | [] => []
    | (_, .missing) :: rest => memberLines inner rest
    | (name, value) :: rest =>
      (writeText name ++ [58, 32] ++ writeIndented inner value) :: memberLines inner rest

end Quarry.Json
