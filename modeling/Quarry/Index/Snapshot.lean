import Quarry.Index
import Quarry.Json.Reader
import Quarry.Json.Writer
import Quarry.Schema

/-!
Snapshots of an index. Writing one keeps documents and postings so that a restart need not read
every text again. Restoring checks each document for itself: its length, the lengths of its fields
and all of its postings. A document that fails is left out, with the first reason found, and takes
nothing of the others with it.
-/

namespace Quarry

/-- A document as a snapshot holds it, with lengths that may be any numbers. -/
structure Snapshot.Entry where
  id : DocId
  length : Number
  fieldLengths : List (Text × Number)
  fields : Fields

structure Snapshot where
  indexVersion : Nat
  documents : List Snapshot.Entry
  postings : List (Term × List (DocId × List Number))

inductive Corruption.Reason where
  | duplicateDocument
  | documentLength (length : Number)
  | fieldLength (length : Number) (field : Text)
  | unknownDocument (term : Term)
  | noPositions (term : Term)
  | invalidPosition (position : Number) (term : Term)
  | positionBeyond (position length : Number) (term : Term)
  | notAscending (term : Term)
  | duplicatePosting (term : Term)

structure Corruption where
  docId : DocId
  reason : Corruption.Reason

namespace Corruption

def Reason.message : Reason → Text
  | duplicateDocument => "duplicate document entry"
  | documentLength length => Text.concat ["invalid document length ", length.text]
  | fieldLength length field =>
    Text.concat ["invalid length ", length.text, " for field ", field]
  | unknownDocument term => under "posting for unknown document" term
  | noPositions term => under "posting without positions" term
  | invalidPosition position term => under (Text.concat ["invalid position ", position.text]) term
  | positionBeyond position length term =>
    under (Text.concat ["position ", position.text, " beyond document length ", length.text]) term
  | notAscending term => under "positions not strictly ascending" term
  | duplicatePosting term => under "duplicate posting" term
where
  /-- A problem and the term that it shows under. -/
  under (problem : Text) (term : Term) : Text :=
    Text.concat [problem, " under term \"", term, "\""]

def message (c : Corruption) : Text :=
  Text.concat ["Document ", c.docId, " is corrupted: ", c.reason.message]

end Corruption

namespace Snapshot

def formatVersion : Nat := 1

def check : Schema.Check Snapshot := fun path j => do
  let ms ← Schema.members path j
  let entry : Schema.Check Entry := fun path j => do
    let ms ← Schema.members path j
    let ((id, length), fieldLengths, fields) ← Checked.both
      (.both (Schema.member ms "id" Schema.nonemptyText path)
        (Schema.member ms "length" Schema.number path))
      (.both (Schema.member ms "fieldLengths" (Schema.record Schema.number) path)
        (Schema.member ms "fields" (Schema.record Schema.text) path))
    return { id, length, fieldLengths, fields }
  let ((_, indexVersion), documents, postings) ← Checked.both
    (.both (Schema.member ms "version" (Schema.literal formatVersion) path)
      (Schema.member ms "indexVersion" Schema.count path))
    (.both (Schema.member ms "documents" (Schema.array entry) path)
      (Schema.member ms "postings"
        (Schema.record (Schema.array (Schema.pair Schema.text (Schema.array Schema.number)))) path))
  return { indexVersion, documents, postings }

/-- The snapshot of an index. Postings are members named by their terms, and a term with the
reserved name is lost. -/
def ofIndex (ix : Index) : Json :=
  let number (n : Nat) : Json := .number (.whole n)
  let documents := ix.documentIds.filterMap fun id => (ix.document? id).map fun d =>
    Json.object [("id", .text d.id), ("length", number d.length),
      ("fieldLengths", .object (d.fieldLengths.map fun (name, n) => (name, number n))),
      ("fields", .ofTexts d.fields)]
  let postings := (ix.entries.filter (·.1 != Json.reservedName)).map fun (term, list) =>
    (term, Json.array (list.map fun p =>
      .array [.text p.docId, .array (p.positions.map number)]))
  .object [("version", number formatVersion), ("indexVersion", number ix.version),
    ("documents", .array documents), ("postings", .object (Json.ofMembers postings))]

def mark (corrupt : List Corruption) (id : DocId) (reason : Corruption.Reason) : List Corruption :=
  if corrupt.any (·.docId == id) then corrupt else corrupt ++ [⟨id, reason⟩]

/-- The corruptions that the document entries show by themselves, and the length that each document
was first given. -/
def checkDocuments (documents : List Entry) : List Corruption × List (DocId × Number) :=
  documents.foldl (fun (corrupt, lengths) d =>
    if lengths.any (·.1 == d.id) then (mark corrupt d.id .duplicateDocument, lengths)
    else
      let corrupt := if d.length.toNat?.isSome then corrupt
        else mark corrupt d.id (.documentLength d.length)
      let corrupt := d.fieldLengths.foldl (fun corrupt (field, n) =>
        if n.toNat?.isSome then corrupt else mark corrupt d.id (.fieldLength n field)) corrupt
      (corrupt, lengths ++ [(d.id, d.length)])) ([], [])

def isBeyond (position : Nat) (length : Number) : Bool :=
  match length with
  | .whole n => n ≤ position
  | .real x => x ≤ Float.ofNat position

/-- The positions of a posting as natural numbers, or the first thing wrong with them: each has to
be whole, below the length, and above the one before it. -/
def checkPositions (term : Term) (length : Number) (previous : Option Nat) :
    List Number → Except Corruption.Reason (List Nat)
  | [] => .ok []
  | p :: rest =>
    match p.toNat? with
    | none => .error (.invalidPosition p term)
    | some n =>
      if isBeyond n length then .error (.positionBeyond p length term)
      else if previous.any (n ≤ ·) then .error (.notAscending term)
      else (checkPositions term length (some n) rest).map (n :: ·)

/-- What the postings of a snapshot come to: the corruptions so far, and the postings that passed,
in the order of the snapshot. -/
structure Sifted where
  corrupt : List Corruption
  postings : List (DocId × Term × List Nat)

def sift (lengths : List (DocId × Number)) (term : Term) (s : Sifted)
    (posting : DocId × List Number) : Sifted :=
  let (id, positions) := posting
  match Json.member? lengths id with
  | none => { s with corrupt := mark s.corrupt id (.unknownDocument term) }
  | some length =>
    if positions.isEmpty then { s with corrupt := mark s.corrupt id (.noPositions term) }
    else match checkPositions term length none positions with
      | .error reason => { s with corrupt := mark s.corrupt id reason }
      | .ok positions =>
        if s.postings.any fun (other, t, _) => other == id && t == term then
          { s with corrupt := mark s.corrupt id (.duplicatePosting term) }
        else { s with postings := s.postings ++ [(id, term, positions)] }

/-- The record that a document entry and the postings that passed make. -/
def record (postings : List (DocId × Term × List Nat)) (d : Entry) : Record where
  document :=
    { id := d.id
      length := d.length.toNat?.getD 0
      fieldLengths := d.fieldLengths.map fun (name, n) => (name, n.toNat?.getD 0)
      fields := d.fields }
  terms := postings.filterMap fun (id, term, positions) =>
    if id = d.id then some (term, positions) else none

/-- What restoring a snapshot gives: an index, and the documents that were left out, in the order in
which they were found out. -/
structure Restored where
  index : Index
  dropped : List Corruption

/-- Restores an index, counting its version on from that of the snapshot. -/
def restore (s : Snapshot) : Restored :=
  let (corrupt, lengths) := checkDocuments s.documents
  let sifted := s.postings.foldl (fun sifted (term, list) => list.foldl (sift lengths term) sifted)
    ⟨corrupt, []⟩
  let kept := s.documents.filter fun d => !sifted.corrupt.any (·.docId == d.id)
  { index := kept.foldl (fun ix d => ix.insert (record sifted.postings d)) (.empty s.indexVersion)
    dropped := sifted.corrupt }

/-- Restores an index from a value that may have any shape. -/
def restore? (j : Json) : Checked Restored := (check [] j).map restore

end Snapshot
end Quarry
