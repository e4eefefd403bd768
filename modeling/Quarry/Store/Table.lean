import Quarry.RankOrder
import Quarry.Store
import Quarry.Store.Row

/-!
A store that keeps its documents as the rows of a table. The table has no keys: putting documents in
changes every row that has the name of one of them, and adds a row for each document whose name no
row had before. A row is asked for by a filter in which its name is a quoted literal. A table is
connected to before it is used and closed after that; its rows outlast both.
-/

namespace Quarry

structure TableStore where
  rows : List Row
  connected : Bool
  /-- What takes the place of a row that several rows of one batch match. Nothing is promised
  of it. -/
  settle : Row → List Row → List Row

namespace TableStore

def empty (settle : Row → List Row → List Row) : TableStore := ⟨[], false, settle⟩

def connect (s : TableStore) : TableStore := { s with connected := true }

/-- The row of a document as a table keeps it: its texts in UTF-8. -/
def keptRow (d : Document) : Row :=
  let r := Row.ofDocument d
  ⟨r.id.replaceLone, r.text.replaceLone, r.fieldsJson.replaceLone⟩

/-! ### Filters -/

def quote : UInt16 := 39

/-- The text of a quoted literal: each quote in it is doubled. -/
def escape (t : Text) : Text := Text.replaceUnit quote [quote, quote] t

def asksId : Text := "id = '"

/-- The filter that asks for a name. -/
def filterOf (id : DocId) : Text := Text.concat [asksId, escape id, [quote]]

/-- Reads a literal from behind its first quote up to its last one. -/
def readLiteral? : Text → Option Text
  | [] => none
  | [u] => if u = quote then some [] else none
  | u :: v :: rest =>
    if u = quote then
      if v = quote then (readLiteral? rest).map (quote :: ·) else none
    else (readLiteral? (v :: rest)).map (u :: ·)

/-- The name that a filter asks for, if that is what it does. -/
def asked? (filter : Text) : Option DocId :=
  if filter.startsWith asksId then readLiteral? (filter.drop asksId.length) else none

/-- Whether a row has the name that a filter, which reaches the table in UTF-8, asks for. -/
def selects (filter : Text) (r : Row) : Bool := asked? filter.replaceLone == some r.id

/-! ### Accesses -/

/-- The rule by which the last of several rows takes the place of a row. -/
def takeLast (_ : Row) (several : List Row) : List Row := several.getLast?.toList

/-- What takes the place of a row when others are merged in: the one that matches it, if there is
just one, and the row itself if there is none. -/
def updated (settle : Row → List Row → List Row) (source : List Row) (r : Row) : List Row :=
  match source.filter (·.id == r.id) with
  | [] => [r]
  | [s] => [s]
  | several => settle r several

/-- Merges rows into others: rows of the same name are changed, and the others added. -/
def merge (settle : Row → List Row → List Row) (rows source : List Row) : List Row :=
  rows.flatMap (updated settle source) ++ source.filter fun r => !rows.any (·.id == r.id)

def guarded (s : TableStore) (result : Except Failure α) : Except Failure α :=
  if s.connected then result else .error .notConnected

/-- A table that is connected gives the results of what is done with it. -/
theorem guarded_eq {s : TableStore} (h : s.connected = true) (result : Except Failure α) :
    s.guarded result = result := by
  rw [guarded, h, if_pos rfl]

def find (s : TableStore) (id : DocId) : Except Failure (Option Document) :=
  match s.rows.find? (selects (filterOf id)) with
  | some r => (Row.read r.toJson).map some
  | none => .ok none

/-! ### The file of a table -/

/-- The text of the file of a table: a line of JSON for each row. -/
def fileText (s : TableStore) : Text :=
  (s.rows.map fun r => r.toJson.write ++ [10]).flatten

def rowOfLine? (line : Text) : Option Row := do
  match Row.check [] (← Json.read? line) with
  | .ok r => some r
  | .error _ => none

def ofFileText (settle : Row → List Row → List Row) (t : Text) : TableStore :=
  { empty settle with rows := (Text.splitAt 10 t).filterMap rowOfLine? }

instance : DocumentStore TableStore where
  put s docs := s.guarded (.ok { s with rows := merge s.settle s.rows (docs.map keptRow) })
  delete s id := s.guarded
    (.ok (s.rows.any (selects (filterOf id)),
      { s with rows := s.rows.filter fun r => !selects (filterOf id) r }))
  get s id := s.guarded (s.find id)
  ids s := s.guarded (.ok (rankSort Text.before (s.rows.map (·.id))))
  count s := s.guarded (.ok s.rows.length)
  clear s := s.guarded (.ok { s with rows := [] })
  close s := .ok { s with connected := false }

end TableStore
end Quarry
