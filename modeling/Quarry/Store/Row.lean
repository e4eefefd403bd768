import Quarry.Document.Reader
import Quarry.Json.Writer

/-!
Rows of a table of documents. A row holds the fields of a document as a JSON text.
-/

namespace Quarry

structure Row where
  id : DocId
  text : Text
  fieldsJson : Text
deriving DecidableEq, Repr

namespace Row

def ofDocument (d : Document) : Row := ⟨d.id, d.text, (Json.ofTexts d.fields).write⟩

def toJson (r : Row) : Json :=
  .object [("id", .text r.id), ("text", .text r.text), ("fields_json", .text r.fieldsJson)]

def check : Schema.Check Row := fun path j => do
  let ms ← Schema.members path j
  let r : Checked _ := .ok Row.mk
  let r : Checked _ := r.apply (Schema.member ms "id" Schema.nonemptyText path)
  let r : Checked _ := r.apply (Schema.member ms "text" Schema.text path)
  r.apply (Schema.member ms "fields_json" Schema.text path)

/-- The document of a row. Its name is not empty, and its fields are a JSON object of texts. -/
def document (r : Row) : Except Failure Document :=
  match Json.read? r.fieldsJson with
  | none => .error .notJson
  | some j => match Fields.check [] j with
    | .ok fields => .ok ⟨r.id, r.text, fields⟩
    | .error issues => .error (.malformed issues)

/-- The document of a row that is given as a value of any shape. -/
def read (j : Json) : Except Failure Document :=
  match check [] j with
  | .ok r => r.document
  | .error issues => .error (.malformed issues)

end Row
end Quarry
