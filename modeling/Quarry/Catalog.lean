import Quarry.Filter
import Quarry.Index
import Quarry.Symbol.Table

/-!
What is derived from documents in order to search them: the index of their words and the table of
the symbols that they define. Both are kept for the same documents.
-/

namespace Quarry

structure Catalog where
  index : Index
  symbols : SymbolTable

namespace Catalog

def empty (version : Nat) : Catalog := ⟨.empty version, .empty⟩

/-- Adds a document in place of one with the same name. -/
def add (c : Catalog) (d : Document) : Catalog :=
  ⟨c.index.add d, c.symbols.set d.id d.fields⟩

def add? (c : Catalog) (d : Document) : Option Catalog :=
  (c.index.add? d).map fun index => ⟨index, c.symbols.set d.id d.fields⟩

def remove (c : Catalog) (id : DocId) : Catalog := ⟨c.index.remove id, c.symbols.delete id⟩

end Catalog

/-- Whether a document of an index has what a filter asks for. -/
def Index.passes (ix : Index) (globs : GlobReader) (f : Filter) (id : DocId) : Bool :=
  f.accepts globs id (ix.fields? id)

end Quarry
