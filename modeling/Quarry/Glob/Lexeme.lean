import Quarry.Glob.Pattern

/-!
The lexemes of a glob. A backslash takes away the special meaning of what follows it. A set in
square brackets is one lexeme, and so is a range between braces. What cannot be closed, or closes
nothing, stands for itself.
-/

namespace Quarry.Glob

inductive Lexeme where
  | unit (u : UInt16)
  | any
  /-- One unit of a set, or else a certain text. -/
  | set (s : UnitSet) (spelling : Option Text)
  | slash
  | dot
  /-- So many stars side by side. -/
  | stars (count : Nat)
  | opening
  | comma
  | closing
deriving DecidableEq, Repr

namespace Lexeme

/-- Units that have a special meaning in the description of a set, or would have one outside. -/
def isSpecial (u : UInt16) : Bool :=
  [45, 42, 43, 63, 46, 94, 36, 123, 125, 40, 124, 41, 91, 93].contains u

/-- The ranges that the description of a set spells, unless one of them runs backwards. -/
def ranges : Text → Option (List (UInt16 × UInt16))
  | [] => some []
  | [u] => some [(u, u)]
  | [u, v] => some [(u, u), (v, v)]
  | u :: v :: w :: rest =>
    if v = 45 then
      if u ≤ w then (ranges rest).map ((u, w) :: ·) else none
    else (ranges (v :: w :: rest)).map ((u, u) :: ·)

/-- The set that a description between square brackets spells. Behind a leading circumflex are the
units that it leaves out, and always the slash. A description that runs backwards spells the set of
no units, and one without special units also stands for itself. -/
def ofDescription (description : Text) : Lexeme :=
  match description with
  | 94 :: rest =>
    match ranges rest with
    | some rs => set ⟨true, if rest.contains Path.slash then rs else rs ++ [(47, 47)]⟩ none
    | none => set ⟨false, []⟩ none
  | _ =>
    match ranges description with
    | some rs =>
      set ⟨false, rs⟩ (if description.any isSpecial then none else some (91 :: description ++ [93]))
    | none => set ⟨false, []⟩ none

def rangeEnds : Text → List Text
  | 46 :: 46 :: rest => [] :: rangeEnds rest
  | u :: rest => match rangeEnds rest with
    | [] => [[u]]
    | piece :: pieces => (u :: piece) :: pieces
  | [] => [[]]

/-- The description of the set that a range between braces spells: its ends in order, a hyphen
between neighbours. -/
def ofRange (content : Text) : Lexeme :=
  let description := Text.join [45] ((rangeEnds content).mergeSort fun a b => !b.before a)
  match ranges description with
  | some rs => set ⟨false, rs⟩ none
  | none => set ⟨false, []⟩ none

def isRange (content : Text) : Bool :=
  1 < (rangeEnds content).length &&
    content.all fun u => !([42, 63, 91, 93, 92, 47, 44, 123].contains u)

inductive Mode where
  | plain
  | escaped
  /-- Within square brackets, with their description so far, last unit first. -/
  | brackets (description : Text)
  /-- Behind a backslash within square brackets. -/
  | escapedInBrackets (description : Text)
  | range

def Mode.atEnd : Mode → List Lexeme
  | plain | range => []
  | escaped => [unit 92]
  | brackets description | escapedInBrackets description =>
    (91 :: description.reverse).map unit

/-- Whether a closing bracket here belongs to the description, as its first unit. -/
def isFirstOfSet (description : Text) : Bool := description == [] || description == [94]

def addStar : List Lexeme → List Lexeme
  | stars n :: rest => stars (n + 1) :: rest
  | rest => stars 1 :: rest

def scan (mode : Mode) (depth : Nat) : Text → List Lexeme
  | [] => mode.atEnd
  | u :: rest =>
    match mode with
    | .escaped =>
      (if u = 47 then slash else if u = 46 then dot else unit u) :: scan .plain depth rest
    | .range => scan (if u = 125 then .plain else .range) depth rest
    | .escapedInBrackets description => scan (.brackets (u :: description)) depth rest
    | .brackets description =>
      if u = 92 then scan (.escapedInBrackets description) depth rest
      else if u = 93 && !isFirstOfSet description then
        ofDescription description.reverse :: scan .plain depth rest
      else scan (.brackets (u :: description)) depth rest
    | .plain =>
      if u = 92 then scan .escaped depth rest
      else if u = 42 then addStar (scan .plain depth rest)
      else if u = 63 then any :: scan .plain depth rest
      else if u = 47 then slash :: scan .plain depth rest
      else if u = 46 then dot :: scan .plain depth rest
      else if u = 91 && rest.contains 93 then scan (.brackets []) depth rest
      else if u = 123 then
        let content := rest.takeWhile (· != 125)
        if rest.contains 125 && isRange content then ofRange content :: scan .range depth rest
        else opening :: scan .plain (depth + 1) rest
      else if u = 125 && depth != 0 then closing :: scan .plain (depth - 1) rest
      else if u = 44 && depth != 0 then comma :: scan .plain depth rest
      else unit u :: scan .plain depth rest

def ofText (t : Text) : List Lexeme := scan .plain 0 t

end Lexeme
end Quarry.Glob
