import Quarry.Number.Spelled

/-!
Arguments of the command line. An argument that begins with two hyphens sets an option, whose value
follows an equals sign or is the next argument; one that begins with a single hyphen sets options of
one letter each, none of which means anything here, but the last of them may take the next argument
as its value. After `--` no argument sets options.
-/

namespace Quarry

inductive OptionValue where
  | text (t : Text)
  /-- The option is named without a value. -/
  | bare
  | off

inductive Argument where
  | word (t : Text)
  | option (name : Text) (value : OptionValue)

structure Arguments where
  words : List Text
  project : Option Text
  mode : Text
  limit : Number
  language : Option Text
  path : Option Text
  excerpts : Bool

namespace Arguments

def hyphen : UInt16 := 45

def equals : UInt16 := 61

/-- Whether an option is a switch, which takes no value but `true` and `false`. -/
def isSwitch (name : Text) : Bool := name == ("snippets" : Text)

/-- Whether a text is one of the two values of a switch. -/
def isTruth (t : Text) : Bool := t == ("true" : Text) || t == ("false" : Text)

/-- Whether a text is a plain negative number, which is no option. -/
def isNegative : Text → Bool
  | 45 :: t =>
    let rest := t.dropWhile Text.isDigit
    match rest with
    | [] => !t.isEmpty
    | 46 :: fraction => !fraction.isEmpty && fraction.all Text.isDigit
    | _ => false
  | _ => false

/-- Whether an option that is spelled out takes an argument as its value. -/
def takes (name next : Text) : Bool :=
  isTruth next || (!isSwitch name && (next.head? != some hyphen || isNegative next))

/-- Whether an option of one letter takes an argument as its value. -/
def letterTakes (next : Text) : Bool :=
  isNegative next || match next with
    | 45 :: 45 :: u :: _ => u == hyphen
    | 45 :: u :: _ => u == hyphen
    | _ => true

/-- Whether a text is a number as letters take it: digits with at most one point, and a power of
ten. -/
def isLetterNumber (t : Text) : Bool :=
  let t := if t.head? == some hyphen then t.drop 1 else t
  let whole := t.takeWhile Text.isDigit
  let rest := t.dropWhile Text.isDigit
  let rest := match rest with
    | 46 :: u :: more => if Text.isDigit u then more.dropWhile Text.isDigit else rest
    | _ => rest
  let rest := match rest with
    | 101 :: 45 :: u :: more => if Text.isDigit u then more.dropWhile Text.isDigit else rest
    | 101 :: u :: more => if Text.isDigit u then more.dropWhile Text.isDigit else rest
    | _ => rest
  !whole.isEmpty && rest.isEmpty

def isLetter (u : UInt16) : Bool := (65 ≤ u && u ≤ 90) || (97 ≤ u && u ≤ 122)

def isNamePart (u : UInt16) : Bool := isLetter u || Text.isDigit u || u == 95

/-- Whether letters end with one that may take the next argument: none before it takes the rest of
the letters as its value. -/
def isOpen : Text → Bool
  | [] => false
  | [last] => last != hyphen
  | letter :: next :: rest =>
    if !rest.isEmpty && next == equals then false
    else if rest.isEmpty && next == hyphen then isOpen (next :: rest)
    else if isLetter letter && isLetterNumber (next :: rest) then false
    else if !rest.isEmpty && !isNamePart next then false
    else isOpen (next :: rest)

def unquoted (t : Text) : Text :=
  match t with
  | q :: rest =>
    if (q = 34 ∨ q = 39) ∧ rest.getLast? = some q then rest.dropLast else t
  | [] => []

inductive Form where
  | word
  | closing
  | assigned (name value : Text)
  | switchedOff (name : Text)
  | named (name : Text)
  /-- Letters, and whether they may take the next argument. -/
  | letters (takesNext : Text → Bool)

/-- An option that is spelled out, with a value behind an equals sign that is not its first unit. -/
def assignment? (t : Text) : Option (Text × Text) :=
  match t with
  | u :: rest =>
    if u = equals then none
    else match Text.offsetOf? equals rest with
      | some i => some (u :: rest.take i, rest.drop (i + 1))
      | none => none
  | [] => none

def longForm (t : Text) : Form :=
  if t.isEmpty then .closing
  else if t.head? = some hyphen ∧ (let rest := t.dropWhile (· == hyphen); rest = [] ∨
      rest.head? = some equals) then .word
  else match assignment? t with
    | some (name, value) => .assigned name value
    | none =>
      if t.startsWith "no-" ∧ 3 < t.length then .switchedOff (t.drop 3) else .named t

def shortForm (t : Text) : Form :=
  match t with
  | [] => .word
  | _ :: 46 :: _ :: rest =>
    if rest.contains equals then .letters fun _ => false
    else .letters fun next => next.head? != some hyphen
  | t => if isOpen t then .letters letterTakes else .letters fun _ => false

def formOf (arg : Text) : Form :=
  match arg with
  | 45 :: 45 :: t => longForm t
  | 45 :: t => if isNegative arg then .word else shortForm t
  | _ => .word

def scan : List Text → List Argument
  | [] => []
  | arg :: rest =>
    match formOf arg with
    | .word => .word arg :: scan rest
    | .closing => rest.map .word
    | .assigned name value => .option name (.text (unquoted value)) :: scan rest
    | .switchedOff name => .option name .off :: scan rest
    | .named name => match rest with
      | next :: others =>
        if takes name next then .option name (.text next) :: scan others
        else .option name .bare :: scan (next :: others)
      | [] => [.option name .bare]
    | .letters takesNext => match rest with
      | next :: others => if takesNext next then scan others else scan (next :: others)
      | [] => []

def valuesOf (name : Text) (args : List Argument) : List OptionValue :=
  args.filterMap fun
    | .option n value => if n == name then some value else none
    | .word _ => none

/-- The value of an option that is set at most once. -/
def single (args : List Argument) (name : Text) : Except Text (Option OptionValue) :=
  match valuesOf name args with
  | [] => .ok none
  | [value] => .ok (some value)
  | _ => .error (Text.concat ["The flag --", name, " can only be set once."])

/-- The text of an option; one that is named without a value has a text of its own. -/
def textOf (bare : Text) : OptionValue → Text
  | .text t => t
  | .bare => bare
  | .off => "false"

def numberOf (bare : Number) : OptionValue → Number
  | .text t => .spelled t
  | .bare => bare
  | .off => 0

def switchOf : OptionValue → Bool
  | .text t => t == ("true" : Text)
  | .bare => true
  | .off => false

def defaultLimit : Number := 10

/-- What arguments say, unless an option is set more than once. -/
def read (args : List Text) : Except Text Arguments := do
  let args := scan args
  let project ← single args "project"
  let mode ← single args "mode"
  let limit ← single args "limit"
  let language ← single args "language"
  let path ← single args "path"
  return {
    words := args.filterMap fun
      | .word t => some t
      | .option _ _ => none
    project := project.map (textOf [])
    mode := (mode.map (textOf "auto")).getD "auto"
    limit := (limit.map (numberOf defaultLimit)).getD defaultLimit
    language := language.map (textOf [])
    path := path.map (textOf [])
    excerpts := (((valuesOf "snippets" args).getLast?).map switchOf).getD false }

end Arguments
end Quarry
