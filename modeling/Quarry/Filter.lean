import Quarry.Failure
import Quarry.Path
import Quarry.Text.Lowercase

/-!
Filters of results by the language and the path of documents. A document without a path goes by its
name, and one without a language by the extension of its path. A path is asked for by a glob; how
globs are read is left to whoever searches.
-/

namespace Quarry

def languages : List (Text × Text) :=
  [(".py", "python"), (".js", "javascript"), (".jsx", "javascript"), (".mjs", "javascript"),
    (".cjs", "javascript"), (".ts", "typescript"), (".tsx", "typescript"), (".mts", "typescript"),
    (".cts", "typescript"), (".go", "go"), (".rs", "rust"), (".java", "java"), (".kt", "kotlin"),
    (".scala", "scala"), (".rb", "ruby"), (".php", "php"), (".c", "c"), (".h", "c"), (".cc", "cpp"),
    (".cpp", "cpp"), (".hpp", "cpp"), (".cs", "csharp"), (".swift", "swift"), (".dart", "dart"),
    (".lua", "lua"), (".sh", "bash"), (".md", "markdown")]

namespace Document

/-- The path of a document: its field, or else its name, with slashes for backslashes. -/
def pathOf (id : DocId) (fields : Fields) : Text :=
  Text.replaceUnit 92 [Path.slash] ((Json.member? fields Fields.path).getD id)

/-- The language of a document in lower case: its field unless that is blank, or else the language
of the extension of its path, where that is known. -/
def languageOf (id : DocId) (fields : Fields) : Option Text :=
  match ((Json.member? fields Fields.language).getD []).trim with
  | [] => Json.member? languages (Path.extension (pathOf id fields)).lower
  | language => some language.lower

end Document

/-- How globs are read: each is refused for a reason, or tells which paths it accepts. -/
abbrev GlobReader := Text → Except Reason (Text → Bool)

/-- Whether a glob accepts a path. One that is refused accepts none. -/
def GlobReader.accepts (globs : GlobReader) (glob path : Text) : Bool :=
  match globs glob with
  | .ok accepts => accepts path
  | .error _ => false

/-- What results are filtered by. Blank texts ask for nothing. -/
structure Filter where
  language : Option Text
  glob : Option Text
deriving DecidableEq, Repr

namespace Filter

def none : Filter := ⟨.none, .none⟩

def trimmed? (t : Option Text) : Option Text :=
  match (t.getD []).trim with
  | [] => .none
  | t => some t

/-- The filter with all that it asks for in its plain form. -/
def normalize (f : Filter) : Filter where
  language := (trimmed? f.language).map Text.lower
  glob := trimmed? f.glob

def isActive (f : Filter) : Bool := f.normalize.language.isSome || f.normalize.glob.isSome

/-- Fails if the glob of the filter is refused. -/
def check (globs : GlobReader) (f : Filter) : Except Failure Unit :=
  match f.normalize.glob with
  | .none => .ok ()
  | some glob =>
    match globs glob with
    | .ok _ => .ok ()
    | .error reason => .error (.foreign reason)

/-- Whether a document has what the filter asks for. A document that is not known, and so has no
fields, has it only if nothing is asked for. -/
def accepts (globs : GlobReader) (f : Filter) (id : DocId) (fields : Option Fields) : Bool :=
  !f.isActive || match fields with
    | .none => false
    | some fields =>
      (f.normalize.language.all fun language => Document.languageOf id fields == some language) &&
        f.normalize.glob.all fun glob => globs.accepts glob (Document.pathOf id fields)

end Filter
end Quarry
