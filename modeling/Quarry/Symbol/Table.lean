import Quarry.Symbol.Definition
import Quarry.Symbol.Trigram

/-!
The table of symbols: definitions by name and by document, and the names by their trigrams. Names
are told apart by case.
-/

namespace Quarry

structure SymbolTable where
  byName : Std.TreeMap Text (Std.TreeMap DocId Definition)
  byDocument : Std.TreeMap DocId Definition
  trigrams : TrigramIndex

namespace SymbolTable

def empty : SymbolTable := ⟨∅, ∅, .empty⟩

def size (t : SymbolTable) : Nat := t.byDocument.size

def definition? (t : SymbolTable) (id : DocId) : Option Definition := t.byDocument[id]?

/-- Takes the definition of a document out; a name without definitions goes too. -/
def delete (t : SymbolTable) (id : DocId) : SymbolTable :=
  match t.byDocument[id]? with
  | none => t
  | some definition =>
    { byName :=
        match t.byName[definition.name]? with
        | none => t.byName
        | some definitions =>
          let definitions := definitions.erase id
          if definitions.isEmpty then t.byName.erase definition.name
          else t.byName.insert definition.name definitions
      byDocument := t.byDocument.erase id
      trigrams := t.trigrams.delete id }

/-- Records the symbol that the fields of a document give, in place of any earlier one. -/
def set (t : SymbolTable) (id : DocId) (fields : Fields) : SymbolTable :=
  let t := t.delete id
  match Definition.ofFields? id fields with
  | none => t
  | some definition =>
    { byName := t.byName.insert definition.name
        ((t.byName.getD definition.name ∅).insert id definition)
      byDocument := t.byDocument.insert id definition
      trigrams := t.trigrams.set id definition.name }

def has (t : SymbolTable) (name : Text) : Bool := t.byName.contains name.trim

def lookup (t : SymbolTable) (name : Text) : List Definition :=
  (t.byName.getD name.trim ∅).values

end SymbolTable
end Quarry
