import Quarry.Query.Lexeme

/-!
Query texts read into trees, in one pass over the lexemes with a stack of operands and a stack of
operators. From the tightest on, the precedences are those of `NOT`, `AND`, `OR` and juxtaposition,
which is a conjunction. Binary operators associate to the left. Words without any word character
are passed over.
-/

namespace Quarry.Query

/-- An operator, or an open parenthesis, that waits for its operands. -/
inductive Pending where
  | opening (position : Nat)
  | operator (op : Operator) (position : Nat)
deriving DecidableEq, Repr

/-- Where the pass over the lexemes stands. Both stacks have their top first. -/
structure ParseState where
  output : List Query
  pending : List Pending
  /-- Whether an operand has to come next. -/
  expectOperand : Bool
  /-- The position of the previous lexeme if that was an opening parenthesis. -/
  justOpened : Option Nat

namespace ParseState

def initial : ParseState := ⟨[], [], true, none⟩

end ParseState

/-- The operand that a bare word stands for: a stem if it ends in asterisks, the other terms in
front of it joined to it; otherwise its term or its phrase, and nothing if it has no term. -/
def wordOperand (word : Text) : Except Flaw (Option Query) :=
  if word.endsWith [42] then
    let terms := Text.queryTerms (word.reverse.dropWhile (· == 42)).reverse
    match terms.getLast? with
    | none => .error .emptyStem
    | some last => .ok (some (conj (terms.dropLast.map .term ++ [.stem last])))
  else
    match Text.queryTerms word with
    | [] => .ok none
    | terms => .ok (some (ofTerms terms))

/-- The operand that a lexeme stands for, if it stands for one. -/
def operand : Lexeme.Kind → Except Flaw (Option Query)
  | .word text => wordOperand text
  | .phrase text =>
    match Text.phraseTerms text with
    | [] => .error .emptyPhrase
    | terms => .ok (some (ofTerms terms))
  | .near words distance =>
    match (words.flatMap Text.queryTerms).eraseDups with
    | [] => .error .nearTooFewTerms
    | [t] => .ok (some (.term t))
    | terms => .ok (some (.near terms distance))
  | _ => .ok none

/-- Applies an operator to the operands on top of the stack. -/
def applyPending (p : Pending) (output : List Query) : Except (Flaw × Nat) (List Query) :=
  match p with
  | .opening position => .error (.unbalancedParenthesis, position)
  | .operator .not position =>
    match output with
    | child :: rest => .ok (.not child :: rest)
    | [] => .error (.missingOperand .not, position)
  | .operator op position =>
    match output with
    | right :: left :: rest =>
      .ok ((if op = .or then disj [left, right] else conj [left, right]) :: rest)
    | _ => .error (.missingOperand op, position)

/-- Applies the pending operators that bind at least as tightly as `op`, up to an open
parenthesis. -/
def applyTighter (op : Operator) :
    List Pending → List Query → Except (Flaw × Nat) (List Pending × List Query)
  | .operator top position :: pending, output =>
    if top.precedence < op.precedence then .ok (.operator top position :: pending, output)
    else do
      let output ← applyPending (.operator top position) output
      applyTighter op pending output
  | pending, output => .ok (pending, output)

/-- Applies the pending operators up to an open parenthesis, which is dropped. -/
def applyGroup (position : Nat) :
    List Pending → List Query → Except (Flaw × Nat) (List Pending × List Query)
  | [], _ => .error (.unbalancedParenthesis, position)
  | .opening _ :: pending, output => .ok (pending, output)
  | p :: pending, output => do
    let output ← applyPending p output
    applyGroup position pending output

def applyAll : List Pending → List Query → Except (Flaw × Nat) (List Query)
  | [], output => .ok output
  | p :: pending, output => do
    let output ← applyPending p output
    applyAll pending output

namespace ParseState

/-- Puts a binary operator on the stack, after those that bind at least as tightly. -/
def pushBinary (s : ParseState) (op : Operator) (position : Nat) :
    Except (Flaw × Nat) ParseState := do
  let (pending, output) ← applyTighter op s.pending s.output
  return { s with pending := .operator op position :: pending, output }

/-- Puts an implicit conjunction on the stack if an operand has just ended. -/
def juxtapose (s : ParseState) (position : Nat) : Except (Flaw × Nat) ParseState :=
  if s.expectOperand then .ok s else s.pushBinary .implicit position

def takeOperand (s : ParseState) (x : Lexeme) : Except (Flaw × Nat) ParseState :=
  match operand x.kind with
  | .error flaw => .error (flaw, x.start)
  | .ok none => .ok { s with justOpened := none }
  | .ok (some q) => do
    let s ← s.juxtapose x.start
    return { s with output := q :: s.output, expectOperand := false, justOpened := none }

def takeBinary (s : ParseState) (op : Operator) (x : Lexeme) : Except (Flaw × Nat) ParseState :=
  if s.expectOperand then .error (.noLeftOperand op, x.start)
  else do
    let s ← s.pushBinary op x.start
    return { s with expectOperand := true, justOpened := none }

def step (s : ParseState) (x : Lexeme) : Except (Flaw × Nat) ParseState :=
  match x.kind with
  | .opening => do
    let s ← s.juxtapose x.start
    return { s with
      pending := .opening x.start :: s.pending, expectOperand := true, justOpened := some x.start }
  | .not => do
    let s ← s.juxtapose x.start
    return { s with
      pending := .operator .not x.start :: s.pending, expectOperand := true, justOpened := none }
  | .and => s.takeBinary .and x
  | .or => s.takeBinary .or x
  | .closing =>
    if s.expectOperand then
      .error (if s.justOpened.isSome then .emptyGroup else .noOperandBeforeClosing, x.start)
    else do
      let (pending, output) ← applyGroup x.start s.pending s.output
      return { output, pending, expectOperand := false, justOpened := none }
  | _ => s.takeOperand x

def steps (s : ParseState) : List Lexeme → Except (Flaw × Nat) ParseState
  | [] => .ok s
  | x :: rest => do
    let s ← s.step x
    s.steps rest

/-- The query that is left when a text of the given length is used up. -/
def finish (s : ParseState) (length : Nat) : Except (Flaw × Nat) Query :=
  if s.output.isEmpty && s.pending.isEmpty then .error (.emptyQuery, 0)
  else if s.expectOperand then
    match s.justOpened with
    | some position => .error (.unbalancedParenthesis, position)
    | none => .error (.endsWithOperator, length)
  else do
    match ← applyAll s.pending s.output with
    | [q] => return q
    | _ => .error (.leftoverOperands, 0)

end ParseState

def parse (query : Text) : Except SyntaxError Query :=
  let result := do
    let xs ← lexemes query
    let s ← ParseState.initial.steps xs
    s.finish query.length
  result.mapError fun (flaw, position) => ⟨flaw, position, query⟩

end Quarry.Query
