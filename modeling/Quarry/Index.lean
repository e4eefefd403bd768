import Std.Data.TreeMap
import Quarry.Bisect
import Quarry.Index.Document

/-!
The inverted index. For every term it holds the documents with that term and the positions there,
and for every document what it was inserted with, so that a document can be taken out again without
its text. Counts are kept up to date by every change, and the version grows with each of them. Lists
that are read in order, the postings of a term and the vocabulary, are kept until a change makes
them stale.
-/

namespace Quarry

structure Posting where
  docId : DocId
  positions : List Nat
deriving DecidableEq, Repr

def Posting.frequency (p : Posting) : Nat := p.positions.length

/-- A document in the index, and the terms that it brought in. -/
structure Index.Entry where
  document : IndexedDocument
  terms : List Term

structure Index where
  /-- The positions of each term in each document that holds it. -/
  postings : Std.TreeMap Term (Std.TreeMap DocId (List Nat))
  documents : Std.TreeMap DocId Index.Entry
  /-- The lists of postings that were read since their terms last changed. -/
  keptPostings : Std.TreeMap Term (List Posting)
  /-- The terms in ascending order, if they were read since one last came or went. -/
  keptTerms : Option (List Term)
  /-- The sum of all document lengths. -/
  totalLength : Nat
  /-- The number of pairs of a term and a document that holds it. -/
  postingCount : Nat
  version : Nat

namespace Index

def empty (version : Nat := 0) : Index := ⟨∅, ∅, ∅, none, 0, 0, version⟩

/-- Takes a document out of the postings of one term; a term without documents goes too. -/
def dropPosting (ix : Index) (id : DocId) (term : Term) : Index :=
  match ix.postings[term]? with
  | none => ix
  | some holders =>
    if holders.contains id then
      let holders := holders.erase id
      { ix with
        postings :=
          if holders.isEmpty then ix.postings.erase term else ix.postings.insert term holders
        keptPostings := ix.keptPostings.erase term
        keptTerms := if holders.isEmpty then none else ix.keptTerms
        postingCount := ix.postingCount - 1 }
    else ix

def addPosting (ix : Index) (id : DocId) (term : Term) (positions : List Nat) : Index :=
  { ix with
    postings := ix.postings.insert term ((ix.postings.getD term ∅).insert id positions)
    keptPostings := ix.keptPostings.erase term
    keptTerms := if ix.postings.contains term then ix.keptTerms else none
    postingCount := ix.postingCount + 1 }

/-- Takes a document and its postings out, leaving the version as it is. -/
def detach (ix : Index) (id : DocId) : Index :=
  match ix.documents[id]? with
  | none => ix
  | some entry =>
    let ix := entry.terms.foldl (fun ix term => ix.dropPosting id term) ix
    { ix with
      documents := ix.documents.erase id
      totalLength := ix.totalLength - entry.document.length }

/-- Inserts a record in place of any earlier one of the same document. Terms without positions are
left out. -/
def insert (ix : Index) (r : Record) : Index :=
  let ix := ix.detach r.document.id
  let ix := r.held.foldl (fun ix (term, positions) => ix.addPosting r.document.id term positions) ix
  { ix with
    documents := ix.documents.insert r.document.id ⟨r.document, r.held.map (·.1)⟩
    totalLength := ix.totalLength + r.document.length
    version := ix.version + 1 }

/-- Inserts a document in place of any earlier one of the same name. -/
def add (ix : Index) (d : Document) : Index := ix.insert (.ofDocument d)

/-- Adds a document that has a name; one without a name is refused. -/
def add? (ix : Index) (d : Document) : Option Index :=
  if d.id.isEmpty then none else some (ix.add d)

/-- Removes a document. The version grows only if it was there. -/
def remove (ix : Index) (id : DocId) : Index :=
  if ix.documents.contains id then { ix.detach id with version := ix.version + 1 } else ix

/-! ### Reading -/

def hasDocument (ix : Index) (id : DocId) : Bool := ix.documents.contains id

def document? (ix : Index) (id : DocId) : Option IndexedDocument :=
  ix.documents[id]?.map (·.document)

def fields? (ix : Index) (id : DocId) : Option Fields := (ix.document? id).map (·.fields)

/-- The length of a document, zero if it is not there. -/
def documentLength (ix : Index) (id : DocId) : Nat := ((ix.document? id).map (·.length)).getD 0

def documentIds (ix : Index) : List DocId := ix.documents.keys

def documentCount (ix : Index) : Nat := ix.documents.size

/-- Reads the postings of a term, documents in ascending order, and keeps them. -/
def readPostings (ix : Index) (term : Term) : List Posting × Index :=
  match ix.keptPostings[term]? with
  | some list => (list, ix)
  | none =>
    match ix.postings[term]? with
    | none => ([], ix)
    | some holders =>
      let list := holders.toList.map fun (id, positions) => ⟨id, positions⟩
      (list, { ix with keptPostings := ix.keptPostings.insert term list })

def postingsOf (ix : Index) (term : Term) : List Posting := (ix.readPostings term).1

def posting? (ix : Index) (term : Term) (id : DocId) : Option Posting := do
  let holders ← ix.postings[term]?
  let positions ← holders[id]?
  return ⟨id, positions⟩

def documentFrequency (ix : Index) (term : Term) : Nat :=
  match ix.postings[term]? with
  | none => 0
  | some holders => holders.size

def hasTerm (ix : Index) (term : Term) : Bool := ix.postings.contains term

def readVocabulary (ix : Index) : List Term × Index :=
  match ix.keptTerms with
  | some terms => (terms, ix)
  | none => (ix.postings.keys, { ix with keptTerms := some ix.postings.keys })

def vocabulary (ix : Index) : List Term := ix.readVocabulary.1

def termCount (ix : Index) : Nat := ix.postings.size

def entries (ix : Index) : List (Term × List Posting) :=
  ix.vocabulary.map fun term => (term, ix.postingsOf term)

/-- The first terms that begin with a stem, in ascending order and at most as many as the bound
says. Where they begin is found by halving. -/
def expand (ix : Index) (stem : Text) (bound : Option Nat) : List Term :=
  let terms := ix.vocabulary.toArray
  let start := bisect (fun i => (terms.getD i []).before stem) 0 terms.size
  takeBound bound ((terms.toList.drop start).takeWhile (·.startsWith stem))

end Index
end Quarry
