import Quarry.Proofs.Index.Reachable
import Quarry.Proofs.Json.RoundTrip
import Quarry.Proofs.Json.Schema
import Quarry.Proofs.Snapshot.Restoration

/-! What a snapshot holds of an index. `image` is the snapshot that the check reads: it holds every
document and every posting, but for the reserved name. -/

namespace Quarry

/-- What a snapshot can hold of an index: its version and the lengths of its texts below the exact
bound, as all counts are, and fields that are the members of an object. -/
structure Index.Writable (ix : Index) : Prop where
  version : ix.version < Number.exactBound
  length : ∀ id d, ix.document? id = some d → d.length < Number.exactBound
  fieldLengths : ∀ id d, ix.document? id = some d →
    ∀ field ∈ d.fieldLengths, field.2 < Number.exactBound
  fields : ∀ id d, ix.document? id = some d → Json.Ordered d.fields

namespace Snapshot

/-- The entry that a snapshot holds of a document. -/
def Entry.ofDocument (d : IndexedDocument) : Entry where
  id := d.id
  length := .whole d.length
  fieldLengths := (d.fieldLengths.filter (·.1 != Json.reservedName)).map fun m => (m.1, .whole m.2)
  fields := d.fields.filter (·.1 != Json.reservedName)

/-- The documents of an index, in its order. -/
def documentsOf (ix : Index) : List IndexedDocument := ix.documentIds.filterMap ix.document?

/-- The terms of an index with their postings, in the order of a snapshot. -/
def postingsOf (ix : Index) : List (Term × List Posting) :=
  Json.ofMembers (ix.entries.filter (·.1 != Json.reservedName))

/-- The snapshot of an index, as it is checked. -/
def image (ix : Index) : Snapshot where
  indexVersion := ix.version
  documents := (documentsOf ix).map Entry.ofDocument
  postings := (postingsOf ix).map fun m =>
    (m.1, m.2.map fun p => (p.docId, p.positions.map .whole))

/-! ### Writing and checking -/

def wholeNumber (n : Nat) : Json := .number (.whole n)

def documentMembers (d : IndexedDocument) : List (Text × Json) :=
  [("id", .text d.id), ("length", wholeNumber d.length),
    ("fieldLengths", .object (d.fieldLengths.map fun m => (m.1, wholeNumber m.2))),
    ("fields", .ofTexts d.fields)]

def documentJson (d : IndexedDocument) : Json := .object (documentMembers d)

def postingJson (p : Posting) : Json :=
  .array [.text p.docId, .array (p.positions.map wholeNumber)]

def indexMembers (ix : Index) : List (Text × Json) :=
  [("version", wholeNumber formatVersion), ("indexVersion", wholeNumber ix.version),
    ("documents", .array ((documentsOf ix).map documentJson)),
    ("postings", .object ((postingsOf ix).map fun m => (m.1, .array (m.2.map postingJson))))]

theorem ofIndex_eq (ix : Index) : ofIndex ix = .object (indexMembers ix) := by
  have hdocuments : (documentsOf ix).map documentJson =
      ix.documentIds.filterMap fun id => (ix.document? id).map documentJson := by
    rw [documentsOf, List.map_filterMap]
  rw [indexMembers, hdocuments, postingsOf, ← Json.ofMembers_map fun list :
    List Posting => Json.array (list.map postingJson)]
  rfl

theorem ordered_postingsOf (ix : Index) : Json.Ordered (postingsOf ix) := Json.ordered_ofMembers _

theorem mem_documentsOf {ix : Index} {d : IndexedDocument} (h : d ∈ documentsOf ix) :
    ∃ id, ix.document? id = some d := by
  obtain ⟨id, -, hd⟩ := List.mem_filterMap.1 h
  exact ⟨id, hd⟩

theorem plain_documentJson {d : IndexedDocument} (hlength : d.length < Number.exactBound)
    (hfields : ∀ field ∈ d.fieldLengths, field.2 < Number.exactBound)
    (ordered : Json.Ordered d.fieldLengths) (ordered' : Json.Ordered d.fields) :
    (documentJson d).Plain := by
  have hnames : Json.Ordered (α := Unit)
    [("id", ()), ("length", ()), ("fieldLengths", ()), ("fields", ())] := by
    decide
  refine .object (hnames.of_names rfl) ?_
  simp only [documentMembers, List.forall_mem_cons, List.not_mem_nil, false_implies, implies_true,
    and_true]
  refine ⟨.text _, .number hlength, .object (ordered.of_names (by simp)) ?_,
    Json.plain_ofTexts ordered'⟩
  rintro _ hm
  obtain ⟨field, hfield, rfl⟩ := List.mem_map.1 hm
  exact .number (hfields field hfield)

theorem plain_postingJson {p : Posting} (h : ∀ n ∈ p.positions, n < Number.exactBound) :
    (postingJson p).Plain := by
  refine .array ?_
  simp only [List.forall_mem_cons, List.not_mem_nil, false_implies, implies_true, and_true]
  refine ⟨.text _, .array fun j hj => ?_⟩
  obtain ⟨n, hn, rfl⟩ := List.mem_map.1 hj
  exact .number (h n hn)

/-- The check of one document entry. -/
def entryCheck : Schema.Check Entry := fun path j => do
  let ms ← Schema.members path j
  let ((id, length), fieldLengths, fields) ← Checked.both
    (.both (Schema.member ms "id" Schema.nonemptyText path)
      (Schema.member ms "length" Schema.number path))
    (.both (Schema.member ms "fieldLengths" (Schema.record Schema.number) path)
      (Schema.member ms "fields" (Schema.record Schema.text) path))
  return { id, length, fieldLengths, fields }

def postingsCheck : Schema.Check (List (Term × List (DocId × List Number))) :=
  Schema.record (Schema.array (Schema.pair Schema.text (Schema.array Schema.number)))

theorem check_eq (path : List Text) (j : Json) : check path j = (do
    let ms ← Schema.members path j
    let ((_, indexVersion), documents, postings) ← Checked.both
      (.both (Schema.member ms "version" (Schema.literal formatVersion) path)
        (Schema.member ms "indexVersion" Schema.count path))
      (.both (Schema.member ms "documents" (Schema.array entryCheck) path)
        (Schema.member ms "postings" postingsCheck path))
    return { indexVersion, documents, postings }) := rfl

theorem reads_documentJson {d : IndexedDocument} (h : d.id ≠ []) :
    Schema.Reads entryCheck (documentJson d) (Entry.ofDocument d) := by
  intro path
  have hid : Schema.member (documentMembers d) "id" Schema.nonemptyText path = .ok d.id :=
    Schema.member_eq_ok rfl (Schema.reads_nonemptyText h) path
  have hlength : Schema.member (documentMembers d) "length" Schema.number path =
      .ok (.whole d.length) :=
    Schema.member_eq_ok rfl (Schema.reads_number d.length) path
  have hfieldLengths : Schema.member (documentMembers d) "fieldLengths"
      (Schema.record Schema.number) path = .ok (Entry.ofDocument d).fieldLengths :=
    Schema.member_eq_ok rfl (Schema.reads_record wholeNumber Number.whole fun m _ =>
      Schema.reads_number m.2) path
  have hfields : Schema.member (documentMembers d) "fields" (Schema.record Schema.text) path =
      .ok (Entry.ofDocument d).fields :=
        Schema.member_eq_ok rfl (Schema.reads_ofTexts d.fields) path
  simp only [entryCheck, documentJson, Schema.members, bind, Except.bind, hid, hlength,
    hfieldLengths, hfields]
  rfl

theorem reads_postings (postings : List (Term × List Posting)) :
    Schema.Reads postingsCheck (.object (postings.map fun m => (m.1, .array (m.2.map postingJson))))
      ((postings.filter (·.1 != Json.reservedName)).map fun m =>
        (m.1, m.2.map fun p => (p.docId, p.positions.map .whole))) := by
  have hlist : ∀ list : List Posting,
      Schema.Reads (Schema.array (Schema.pair Schema.text (Schema.array Schema.number)))
        (.array (list.map postingJson)) (list.map fun p => (p.docId, p.positions.map .whole)) :=
    fun list => Schema.reads_array fun p _ => Schema.reads_pair (Schema.reads_text p.docId)
      (Schema.reads_array fun n _ => Schema.reads_number n)
  exact Schema.reads_record (fun list : List Posting => .array (list.map postingJson))
    (fun list => list.map fun p => (p.docId, p.positions.map Number.whole)) fun m _ => hlist m.2

section

variable {ix : Index} {rs : Records} (h : ix.Represents rs)
  (hrecords : ∀ (id : DocId) (r : Record), rs[id]? = some r → ∃ d, d.id ≠ [] ∧ r = .ofDocument d)
include h hrecords

theorem exists_document {id : DocId} {d : IndexedDocument} (hd : ix.document? id = some d) :
    ∃ doc, doc.id ≠ [] ∧ rs[id]? = some (.ofDocument doc) ∧
      d = (Record.ofDocument doc).document := by
  rw [h.document?_eq, Option.map_eq_some_iff] at hd
  obtain ⟨r, hr, rfl⟩ := hd
  obtain ⟨doc, hname, rfl⟩ := hrecords id r hr
  exact ⟨doc, hname, hr, rfl⟩

omit hrecords in
theorem mem_postingsOf {m : Term × List Posting} : m ∈ postingsOf ix ↔
    m.1 ≠ Json.reservedName ∧ m.1 ∈ Records.vocabulary rs ∧ m.2 = Records.postingsOf rs m.1 := by
  have hnodup : ((ix.entries.filter (·.1 != Json.reservedName)).map (·.1)).Nodup := by
    have hterms : ix.entries.map (·.1) = Records.vocabulary rs := by
      rw [h.entries_eq, List.map_map]
      exact List.map_id _
    refine List.Nodup.sublist (List.filter_sublist.map _) ?_
    rw [hterms]
    refine (Records.pairwise_vocabulary rs).imp fun {a b} hlt heq => ?_
    rw [heq, Std.ReflOrd.compare_self] at hlt
    cases hlt
  obtain ⟨term, list⟩ := m
  rw [postingsOf, (Json.ofMembers_perm hnodup).mem_iff, List.mem_filter, h.entries_eq, List.mem_map]
  simp only [Prod.mk.injEq, bne_iff_ne]
  constructor
  · rintro ⟨⟨_, hterm, rfl, rfl⟩, hname⟩
    exact ⟨hname, hterm, rfl⟩
  · rintro ⟨hname, hterm, rfl⟩
    exact ⟨⟨term, hterm, rfl, rfl⟩, hname⟩

/-- A snapshot is written with nothing lost. -/
theorem plain_ofIndex (hwritable : ix.Writable) : (ofIndex ix).Plain := by
  have hnames : Json.Ordered (α := Unit) [("version", ()), ("indexVersion", ()), ("documents", ()),
    ("postings", ())] := by decide
  rw [ofIndex_eq]
  refine .object (hnames.of_names rfl) ?_
  simp only [indexMembers, List.forall_mem_cons, List.not_mem_nil, false_implies,
    implies_true, and_true]
  refine ⟨.number (by decide), .number hwritable.version, .array fun j hj => ?_,
    .object ?_ fun m hm => ?_⟩
  · obtain ⟨d, hd, rfl⟩ := List.mem_map.1 hj
    obtain ⟨id, hd⟩ := mem_documentsOf hd
    obtain ⟨doc, -, -, rfl⟩ := exists_document h hrecords hd
    have ordered := hwritable.fields id _ hd
    refine plain_documentJson (hwritable.length id _ hd) (hwritable.fieldLengths id _ hd) ?_ ordered
    exact (ordered.filter fun m => m.1 != Json.reservedName).of_names (by simp [Record.ofDocument])
  · exact (ordered_postingsOf ix).of_names (by simp)
  · obtain ⟨m, hentry, rfl⟩ := List.mem_map.1 hm
    refine .array fun j hj => ?_
    obtain ⟨p, hp, rfl⟩ := List.mem_map.1 hj
    refine plain_postingJson fun n hn => ?_
    rw [((mem_postingsOf h).1 hentry).2.2, Records.mem_postingsOf, Records.positions?,
      Option.bind_eq_some_iff] at hp
    obtain ⟨r, hr, hp⟩ := hp
    obtain ⟨doc, -, rfl⟩ := hrecords _ _ hr
    have hdocument : ix.document? p.docId = some (Record.ofDocument doc).document := by
      rw [h.document?_eq, hr]
      rfl
    exact (Record.lt_length_of_mem_positions? hp hn).trans (hwritable.length _ _ hdocument)

/-- The check of a snapshot reads its image. -/
theorem check_ofIndex : check [] (ofIndex ix) = .ok (image ix) := by
  have hversion : Schema.member (indexMembers ix) "version" (Schema.literal formatVersion)
      [] = .ok () :=
    Schema.member_eq_ok rfl (Schema.reads_literal formatVersion) []
  have hcount : Schema.member (indexMembers ix) "indexVersion" Schema.count [] = .ok ix.version :=
    Schema.member_eq_ok rfl (Schema.reads_count ix.version) []
  have hdocuments : Schema.member (indexMembers ix) "documents" (Schema.array entryCheck) [] =
      .ok (image ix).documents := by
    refine Schema.member_eq_ok rfl (Schema.reads_array fun d hd => reads_documentJson ?_) []
    obtain ⟨id, hd⟩ := mem_documentsOf hd
    obtain ⟨doc, hname, -, rfl⟩ := exists_document h hrecords hd
    exact hname
  have hpostings : Schema.member (indexMembers ix) "postings" postingsCheck [] =
      .ok (image ix).postings := by
    have hnames : (postingsOf ix).filter (·.1 != Json.reservedName) = postingsOf ix := by
      refine List.filter_eq_self.2 fun m hm => ?_
      simpa using ((mem_postingsOf h).1 hm).1
    refine (Schema.member_eq_ok rfl (reads_postings (postingsOf ix)) []).trans ?_
    rw [hnames]
    rfl
  simp only [check_eq, ofIndex_eq, Schema.members, bind, Except.bind, hversion, hcount, hdocuments,
    hpostings]
  rfl

end

end Snapshot
end Quarry
