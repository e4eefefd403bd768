import Quarry.Index.Document
import Quarry.Text.Blank

/-!
Definitions of symbols, as the fields of documents give them.
-/

namespace Quarry

structure Definition where
  docId : DocId
  name : Text
  kind : Option Text
  path : Option Text
  /-- The line of the definition, from one on. -/
  line : Option Number

namespace Definition

/-- The line number that a field spells: digits alone, blanks around them apart, and above zero. -/
def lineOf? (value : Text) : Option Number :=
  let digits := value.trim
  let n := Text.digitsToNat digits
  if !digits.isEmpty && digits.all Text.isDigit && 0 < n then some (.ofDecimal false n 0) else none

/-- The definition that the fields of a document give, if they name a symbol. -/
def ofFields? (id : DocId) (fields : Fields) : Option Definition := do
  let name := ((Json.member? fields Fields.symbol).getD []).trim
  if name.isEmpty then none
  return { docId := id, name
           kind := Json.member? fields Fields.kind
           path := Json.member? fields Fields.path
           line := (Json.member? fields Fields.line).bind lineOf? }

end Definition
end Quarry
