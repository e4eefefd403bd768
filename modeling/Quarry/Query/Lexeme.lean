import Quarry.Query.Printer
import Quarry.Query.SyntaxError
import Quarry.Text.Blank

/-!
The lexemes of a query text: phrases in double quotes, parentheses, proximity groups `NEAR(a b, k)`,
the keywords `AND`, `OR` and `NOT`, and bare words. Parentheses that open inside a bare word belong
to it together with all they enclose, so that `call(a, b)` is one word; an unmatched closing one
ends the word. A lexeme keeps the range of the text that it covers.
-/

namespace Quarry.Query

inductive Lexeme.Kind where
  | word (text : Text)
  | phrase (text : Text)
  | near (words : List Text) (distance : Number)
  | opening
  | closing
  | and
  | or
  | not

/-- A lexeme and the range of the query text that it covers. -/
structure Lexeme where
  kind : Lexeme.Kind
  start : Nat
  stop : Nat

namespace Lexeme

/-- The length of the bare word at the head of a text, inside `depth` open parentheses; `none` if
one of them is never closed. -/
def wordLength? (depth : Nat) : Text → Option Nat
  | [] => if depth = 0 then some 0 else none
  | u :: rest =>
    if depth = 0 && (Text.isBlank u || u == 34 || u == 41) then some 0
    else
      let depth := if u = 40 then depth + 1 else if u = 41 then depth - 1 else depth
      (wordLength? depth rest).map (· + 1)

def ofWord (text : Text) : Kind :=
  if text == andWord then .and
  else if text == orWord then .or
  else if text == notWord then .not
  else .word text

def isNearGap (u : UInt16) : Bool := Text.isBlank u || u == 44

/-- Reads the inside of `NEAR(…)`: words, and after the last comma the distance. -/
def ofNearBody (body : Text) : Except Flaw Kind :=
  if body.contains 40 || body.contains 34 then .error .nearNested
  else match Text.lastOffsetOf? 44 body with
    | none => .error .nearWithoutDistance
    | some comma =>
      let words := Text.fields isNearGap (body.take comma)
      let distance := Text.trim (body.drop (comma + 1))
      if words.length < 2 then .error .nearTooFewTerms
      else if distance.isEmpty || !distance.all Text.isDigit then .error (.nearDistance distance)
      else .ok (.near words (.ofDecimal false (Text.digitsToNat distance) 0))

/-- The lexeme at the head of a text that begins with no blank, and its length. -/
def first (t : Text) : Except Flaw (Kind × Nat) :=
  match t with
  | 34 :: rest =>
    match Text.offsetOf? 34 rest with
    | none => .error .unbalancedQuote
    | some close => .ok (.phrase (rest.take close), close + 2)
  | 40 :: _ => .ok (.opening, 1)
  | 41 :: _ => .ok (.closing, 1)
  | _ =>
    if t.startsWith nearOpening then
      let rest := t.drop nearOpening.length
      match Text.offsetOf? 41 rest with
      | none => .error .nearUnclosed
      | some close => do
        let kind ← ofNearBody (rest.take close)
        return (kind, nearOpening.length + close + 1)
    else match wordLength? 0 t with
      | none => .error .unbalancedParenthesis
      | some n => .ok (ofWord (t.take n), n)

/-- The lexemes of the rest of a query text from an offset on. A flaw is reported at the start of
the lexeme that has it. -/
def scan (offset : Nat) : Text → Except (Flaw × Nat) (List Lexeme)
  | [] => .ok []
  | u :: rest =>
    if Text.isBlank u then scan (offset + 1) rest
    else match first (u :: rest) with
      | .error flaw => .error (flaw, offset)
      | .ok (kind, length) => do
        let more ← scan (offset + length) (rest.drop (length - 1))
        return ⟨kind, offset, offset + length⟩ :: more
termination_by t => t.length
decreasing_by
  all_goals simp only [List.length_drop, List.length_cons]; omega

end Lexeme

def lexemes (query : Text) : Except (Flaw × Nat) (List Lexeme) := Lexeme.scan 0 query

end Quarry.Query
