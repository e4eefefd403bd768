import Mathlib.Algebra.GroupWithZero.Nat
import Mathlib.Data.List.Dedup
import Quarry.Proofs.Index.Record
import Quarry.Proofs.Text.Order
import Quarry.Ranking.Bm25

/-! What an index stands for: a finite map from documents to the records that they were last
inserted with. `Index.Call` is what can be done to an index, reads that keep what they read
included, and `Records.run` what the same calls do to the map. `Index.Answers` collects everything
that can be read from an index; `Records.answers` computes it from the map alone. -/

namespace Quarry

/-- The records of documents, each under the name of its document. -/
abbrev Records := Std.TreeMap DocId Record

/-- Everything that can be read from an index. Averages are taken in any scalars. -/
structure Index.Answers (α : Type) where
  postingsOf : Term → List Posting
  posting? : Term → DocId → Option Posting
  documentFrequency : Term → Nat
  hasTerm : Term → Bool
  expand : Text → Option Nat → List Term
  entries : List (Term × List Posting)
  documentIds : List DocId
  hasDocument : DocId → Bool
  document? : DocId → Option IndexedDocument
  documentLength : DocId → Nat
  documentCount : Nat
  averageLength : α
  termCount : Nat
  postingCount : Nat

/-- What an index answers. -/
def Index.answers (ix : Index) (α : Type) [Scalar α] : Index.Answers α where
  postingsOf := ix.postingsOf
  posting? := ix.posting?
  documentFrequency := ix.documentFrequency
  hasTerm := ix.hasTerm
  expand := ix.expand
  entries := ix.entries
  documentIds := ix.documentIds
  hasDocument := ix.hasDocument
  document? := ix.document?
  documentLength := ix.documentLength
  documentCount := ix.documentCount
  averageLength := Bm25.averageLength ix
  termCount := ix.termCount
  postingCount := ix.postingCount

namespace Records

/-- The positions of a term in the record of a document. -/
def positions? (rs : Records) (term : Term) (id : DocId) : Option (List Nat) :=
  rs[id]?.bind fun r => r.positions? term

/-- The documents that hold a term, in ascending order. -/
def postingsOf (rs : Records) (term : Term) : List Posting :=
  rs.toList.filterMap fun (id, r) => (r.positions? term).map fun positions => ⟨id, positions⟩

/-- All terms that some record holds, in ascending order. -/
def vocabulary (rs : Records) : List Term :=
  (rs.toList.flatMap fun (_, r) => r.held.map (·.1)).dedup.mergeSort fun a b => (compare a b).isLE

/-- The sum of a quantity over all records. -/
def total (f : Record → Nat) (rs : Records) : Nat := (rs.toList.map fun (_, r) => f r).sum

/-- The average length of the documents, zero without documents. -/
def averageLength {α : Type} [Scalar α] (rs : Records) : α :=
  if rs.size = 0 then Scalar.zero
  else Scalar.ofNat (rs.total (·.document.length)) / Scalar.ofNat rs.size

/-- What an index of these records has to answer, computed from the records. -/
def answers (rs : Records) (α : Type) [Scalar α] : Index.Answers α where
  postingsOf := rs.postingsOf
  posting? term id := (rs.positions? term id).map fun positions => ⟨id, positions⟩
  documentFrequency term := (rs.postingsOf term).length
  hasTerm term := rs.vocabulary.contains term
  expand stem bound := takeBound bound (rs.vocabulary.filter (·.startsWith stem))
  entries := rs.vocabulary.map fun term => (term, rs.postingsOf term)
  documentIds := rs.keys
  hasDocument := rs.contains
  document? id := rs[id]?.map (·.document)
  documentLength id := (rs[id]?.map (·.document.length)).getD 0
  documentCount := rs.size
  averageLength := rs.averageLength
  termCount := rs.vocabulary.length
  postingCount := rs.total (·.held.length)

end Records

/-! ### Calls -/

/-- What can be done to an index. The last two are reads, which keep what they read. -/
inductive Index.Call where
  | add (d : Document)
  | insert (r : Record) (distinct : r.Distinct)
  | remove (id : DocId)
  | readPostings (term : Term)
  | readVocabulary

namespace Index

/-- The index after a call. A document without a name is refused. -/
def call (ix : Index) : Call → Index
  | .add d => (ix.add? d).getD ix
  | .insert r _ => ix.insert r
  | .remove id => ix.remove id
  | .readPostings term => (ix.readPostings term).2
  | .readVocabulary => ix.readVocabulary.2

/-- The index after several calls. -/
def run (ix : Index) (calls : List Call) : Index := calls.foldl call ix

end Index

namespace Records

/-- The records after a call. -/
def call (rs : Records) : Index.Call → Records
  | .add d => if d.id.isEmpty then rs else rs.insert d.id (.ofDocument d)
  | .insert r _ => rs.insert r.document.id r
  | .remove id => rs.erase id
  | .readPostings _ | .readVocabulary => rs

/-- The records after several calls. -/
def run (rs : Records) (calls : List Index.Call) : Records := calls.foldl call rs

/-- Whether a call changes the records: an insertion does, and a removal that finds its document. -/
def changes (rs : Records) : Index.Call → Bool
  | .add d => !d.id.isEmpty
  | .insert _ _ => true
  | .remove id => rs.contains id
  | .readPostings _ | .readVocabulary => false

/-- How many of the calls change the records. -/
def changeCount (rs : Records) : List Index.Call → Nat
  | [] => 0
  | c :: rest => (if rs.changes c then 1 else 0) + changeCount (rs.call c) rest

/-! ### Laws of the map -/

theorem toList_congr {rs rs' : Records} (h : ∀ id : DocId, rs[id]? = rs'[id]?) :
    rs.toList = rs'.toList :=
  (Std.TreeMap.Equiv.of_forall_constGet?_eq h).toList_eq

/-- A record and those of the other documents are all there is. -/
theorem toList_perm {rs : Records} {id : DocId} {r : Record} (h : rs[id]? = some r) :
    rs.toList.Perm ((id, r) :: (rs.erase id).toList) := by
  have hlookup : ∀ id' : DocId, ((rs.erase id).insert id r)[id']? = rs[id']? := by
    intro id'
    rw [Text.getElem?_insert, Text.getElem?_erase]
    split
    · rename_i heq
      rw [← heq, h]
    · rfl
  rw [← toList_congr hlookup]
  refine Std.TreeMap.toList_insert_perm.trans ((List.filter_eq_self.2 ?_).symm ▸ .refl _)
  rintro ⟨id', r'⟩ hmem
  rw [Std.TreeMap.mem_toList_iff_getElem?_eq_some, Text.getElem?_erase] at hmem
  split at hmem
  · cases hmem
  · simpa using ‹id ≠ id'›

theorem total_congr {f : Record → Nat} {rs rs' : Records} (h : ∀ id : DocId, rs[id]? = rs'[id]?) :
    total f rs = total f rs' := by
  rw [total, toList_congr h, total]

theorem total_of_getElem? {f : Record → Nat} {rs : Records} {id : DocId} {r : Record}
    (h : rs[id]? = some r) : total f rs = f r + total f (rs.erase id) := by
  rw [total, ((toList_perm h).map _).sum_nat, List.map_cons, List.sum_cons, total]

theorem total_insert (f : Record → Nat) (rs : Records) (id : DocId) (r : Record) :
    total f (rs.insert id r) = f r + total f (rs.erase id) := by
  rw [total_of_getElem? ((Text.getElem?_insert rs id r id).trans (if_pos rfl))]
  congr 1
  refine total_congr fun id' => ?_
  rw [Text.getElem?_erase, Text.getElem?_insert, Text.getElem?_erase]
  split <;> rfl

theorem positions?_congr {rs rs' : Records} {id : DocId} (h : rs[id]? = rs'[id]?) (term : Term) :
    positions? rs term id = positions? rs' term id := by
  rw [positions?, h, positions?]

theorem positions?_insert (rs : Records) (id : DocId) (r : Record) (term : Term) (id' : DocId) :
    positions? (rs.insert id r) term id' =
      if id = id' then r.positions? term else positions? rs term id' := by
  rw [positions?, Text.getElem?_insert]
  split <;> rfl

theorem positions?_erase (rs : Records) (id : DocId) (term : Term) (id' : DocId) :
    positions? (rs.erase id) term id' = if id = id' then none else positions? rs term id' := by
  rw [positions?, Text.getElem?_erase]
  split <;> rfl

theorem mem_toList {rs : Records} {id : DocId} {r : Record} :
    (id, r) ∈ rs.toList ↔ rs[id]? = some r :=
  Std.TreeMap.mem_toList_iff_getElem?_eq_some

end Records
end Quarry
