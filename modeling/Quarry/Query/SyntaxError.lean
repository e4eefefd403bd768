import Quarry.Text

/-!
What can be wrong with a query text, and how it is reported.
-/

namespace Quarry.Query

/-- An operator between or before operands; `implicit` joins operands that stand side by side. -/
inductive Operator where
  | not
  | and
  | or
  | implicit
deriving DecidableEq, Repr

namespace Operator

def precedence : Operator → Nat
  | not => 4
  | and => 3
  | or => 2
  | implicit => 1

def name : Operator → Text
  | not => "NOT"
  | and => "AND"
  | or => "OR"
  | implicit => "IMPLICIT"

end Operator

inductive Flaw where
  | unbalancedQuote
  | unbalancedParenthesis
  | nearUnclosed
  | nearNested
  | nearWithoutDistance
  | nearTooFewTerms
  | nearDistance (found : Text)
  | noLeftOperand (op : Operator)
  | emptyGroup
  | noOperandBeforeClosing
  | emptyPhrase
  | emptyStem
  | emptyQuery
  | endsWithOperator
  /-- An operator that finds no operand when it is applied. -/
  | missingOperand (op : Operator)
  /-- Operands are left over once all operators are applied. -/
  | leftoverOperands
deriving DecidableEq, Repr

def Flaw.message : Flaw → Text
  | unbalancedQuote => "Unbalanced quote"
  | unbalancedParenthesis => "Unbalanced parenthesis"
  | nearUnclosed => "Malformed NEAR: missing )"
  | nearNested => "Malformed NEAR: nested groups are not allowed"
  | nearWithoutDistance => "Malformed NEAR: expected NEAR(a b, distance)"
  | nearTooFewTerms => "NEAR needs at least two terms"
  | nearDistance found => Text.concat
    ["Malformed NEAR: distance must be a non-negative integer, got \"", found, "\""]
  | noLeftOperand op => Text.concat [op.name, " is missing a left operand"]
  | emptyGroup => "Empty group"
  | noOperandBeforeClosing => "Missing operand before )"
  | emptyPhrase => "Empty phrase"
  | emptyStem => "Empty prefix"
  | emptyQuery => "Empty query"
  | endsWithOperator => "Query ends with an operator"
  | missingOperand op => Text.concat [op.name, " is missing an operand"]
  | leftoverOperands => "Malformed query"

/-- A flaw in a query, with the offset where it shows. -/
structure SyntaxError where
  flaw : Flaw
  position : Nat
  query : Text
deriving DecidableEq, Repr

def SyntaxError.message (e : SyntaxError) : Text :=
  Text.concat [e.flaw.message, " (at position ", Text.ofNat e.position, ")"]

end Quarry.Query
