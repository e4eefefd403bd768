import Quarry.Json
import Quarry.Token

/-!
Documents: as they are handed in and stored, as the index knows them, and as records of the terms
that a document holds with their positions.
-/

namespace Quarry

abbrev DocId := Text

abbrev Fields := List (Text × Text)

/-! ### The names of the fields that carry a meaning -/

def Fields.path : Text := Text.ofChars ['p', 'a', 't', 'h']

def Fields.language : Text := Text.ofChars ['l', 'a', 'n', 'g', 'u', 'a', 'g', 'e']

def Fields.symbol : Text := Text.ofChars ['s', 'y', 'm', 'b', 'o', 'l']

def Fields.kind : Text := Text.ofChars ['k', 'i', 'n', 'd']

def Fields.line : Text := Text.ofChars ['l', 'i', 'n', 'e']

structure Document where
  id : DocId
  text : Text
  fields : Fields
deriving DecidableEq, Repr

structure IndexedDocument where
  id : DocId
  /-- The number of positions of its text. -/
  length : Nat
  /-- The number of positions of each field. -/
  fieldLengths : List (Text × Nat)
  fields : Fields
deriving DecidableEq, Repr

/-- A document with the positions of each of its terms, terms in the order of their first
occurrence. -/
structure Record where
  document : IndexedDocument
  terms : List (Term × List Nat)
deriving DecidableEq, Repr

namespace Record

/-- The terms of a record that have positions, with their positions. -/
def held (r : Record) : List (Term × List Nat) :=
  r.terms.filter fun (_, positions) => !positions.isEmpty

/-- Adds an occurrence of a term at the end of its positions. -/
def addPosition (terms : List (Term × List Nat)) (term : Term) (position : Nat) :
    List (Term × List Nat) :=
  match terms with
  | [] => [(term, [position])]
  | (t, positions) :: rest =>
    if t = term then (t, positions ++ [position]) :: rest
    else (t, positions) :: addPosition rest term position

/-- The positions of each term among the tokens of a text. -/
def ofTokens (tokens : List Token) : List (Term × List Nat) :=
  tokens.foldl (fun terms token => addPosition terms token.term token.position) []

def ofDocument (d : Document) : Record where
  document :=
    { id := d.id
      length := d.text.positionCount
      fieldLengths := (d.fields.filter (·.1 != Json.reservedName)).map fun (name, value) =>
        (name, value.positionCount)
      fields := d.fields }
  terms := ofTokens d.text.tokens

end Record
end Quarry
