import Mathlib.Data.List.Basic
import Quarry.Index.Snapshot
import Quarry.Proofs.Json.Members

/-! What restoring finds out about a document. It is found out from the entries and the postings of
that document alone, in their order: `verdict` computes it from them, and `restore_verdict` says
that a pass over the whole snapshot comes to the same for each document. -/

namespace Quarry.Snapshot

/-- If a step changes what is seen of a state only for some items, a run of steps is seen as the run
over those items. -/
theorem view_foldl {σ ν α β : Type} (view : σ → ν) (step : σ → α → σ) (own : α → Bool)
    (part : α → β) (step' : ν → β → ν)
    (h : ∀ s x, view (step s x) = if own x then step' (view s) (part x) else view s)
    (items : List α) (s : σ) :
    view (items.foldl step s) = ((items.filter own).map part).foldl step' (view s) := by
  induction items generalizing s with
  | nil => rfl
  | cons x rest ih =>
    rw [List.foldl_cons, ih, h]
    cases hx : own x <;> simp [hx]

/-! ### The parts of a snapshot that belong to one document -/

/-- The entries of a document. -/
def entriesOf (s : Snapshot) (id : DocId) : List Entry := s.documents.filter (·.id == id)

/-- All postings, each with its document and its term. -/
def tuples (s : Snapshot) : List (DocId × Term × List Number) :=
  s.postings.flatMap fun (term, list) => list.map fun (id, positions) => (id, term, positions)

/-- The postings of a document, each with its term. -/
def tuplesOf (s : Snapshot) (id : DocId) : List (Term × List Number) :=
  (s.tuples.filter (·.1 == id)).map (·.2)

/-! ### First reasons -/

/-- The reason for which a document is among some corruptions. -/
def reasonOf? (corrupt : List Corruption) (id : DocId) : Option Corruption.Reason :=
  (corrupt.find? (·.docId == id)).map (·.reason)

theorem isSome_reasonOf?_iff (corrupt : List Corruption) (id : DocId) :
    (reasonOf? corrupt id).isSome = true ↔ id ∈ corrupt.map (·.docId) := by
  rw [reasonOf?, Option.isSome_map, List.find?_isSome, List.mem_map]
  simp only [beq_iff_eq]

theorem any_eq_isSome_reasonOf? (corrupt : List Corruption) (id : DocId) :
    corrupt.any (·.docId == id) = (reasonOf? corrupt id).isSome := by
  rw [Bool.eq_iff_iff, isSome_reasonOf?_iff, List.any_eq_true, List.mem_map]
  simp only [beq_iff_eq]

/-- Only the first reason of a document counts. -/
theorem reasonOf?_mark (corrupt : List Corruption) (id : DocId) (reason : Corruption.Reason)
    (id' : DocId) : reasonOf? (mark corrupt id reason) id' =
      if id = id' then (reasonOf? corrupt id').or (some reason) else reasonOf? corrupt id' := by
  rw [mark, any_eq_isSome_reasonOf?]
  by_cases hid : id = id'
  · subst hid
    cases hfound : reasonOf? corrupt id with
    | some first => simp [hfound]
    | none =>
      have hnone : corrupt.find? (·.docId == id) = none := by simpa [reasonOf?] using hfound
      simp [reasonOf?, hnone]
  · split <;> simp [reasonOf?, List.find?_append, hid]

theorem nodup_mark {corrupt : List Corruption} (h : (corrupt.map (·.docId)).Nodup) (id : DocId)
    (reason : Corruption.Reason) : ((mark corrupt id reason).map (·.docId)).Nodup := by
  rw [mark]
  split
  · exact h
  · rename_i habsent
    rw [any_eq_isSome_reasonOf?, isSome_reasonOf?_iff] at habsent
    rw [List.map_append, List.nodup_append]
    refine ⟨h, by simp, ?_⟩
    rintro a ha b hb rfl
    obtain rfl : a = id := List.mem_singleton.1 hb
    exact habsent ha

/-! ### Entries -/

/-- The first thing wrong with a document entry by itself. -/
def Entry.problem? (d : Entry) : Option Corruption.Reason :=
  if d.length.toNat?.isSome then
    (d.fieldLengths.find? fun field => !field.2.toNat?.isSome).map fun (field, n) =>
      .fieldLength n field
  else some (.documentLength d.length)

/-- What one entry adds to the corruptions and to the lengths of the documents so far. -/
def checkEntry (found : List Corruption × List (DocId × Number)) (d : Entry) :
    List Corruption × List (DocId × Number) :=
  if found.2.any (·.1 == d.id) then (mark found.1 d.id .duplicateDocument, found.2)
  else
    let corrupt := if d.length.toNat?.isSome then found.1
      else mark found.1 d.id (.documentLength d.length)
    let corrupt := d.fieldLengths.foldl (fun corrupt (field, n) =>
      if n.toNat?.isSome then corrupt else mark corrupt d.id (.fieldLength n field)) corrupt
    (corrupt, found.2 ++ [(d.id, d.length)])

theorem checkDocuments_eq (documents : List Entry) :
    checkDocuments documents = documents.foldl checkEntry ([], []) := rfl

/-- What is found out about a document from its entries: the first thing wrong, and its length. -/
def entryVerdict : List Entry → Option Corruption.Reason × Option Number
  | [] => (none, none)
  | d :: others => (d.problem?.or (others.head?.map fun _ => .duplicateDocument), some d.length)

/-- What one more entry of a document adds to what is known of it. -/
def Entry.addTo (known : Option Corruption.Reason × Option Number) (d : Entry) :
    Option Corruption.Reason × Option Number :=
  match known.2 with
  | some length => (known.1.or (some .duplicateDocument), some length)
  | none => (known.1.or d.problem?, some d.length)

theorem reasonOf?_fieldLengths (id : DocId) (fields : List (Text × Number))
    (corrupt : List Corruption) (id' : DocId) :
    reasonOf? (fields.foldl (fun corrupt (field, n) =>
        if n.toNat?.isSome then corrupt else mark corrupt id (.fieldLength n field)) corrupt) id' =
      if id = id' then (reasonOf? corrupt id').or
        ((fields.find? fun field => !field.2.toNat?.isSome).map fun (field, n) =>
          .fieldLength n field)
      else reasonOf? corrupt id' := by
  induction fields generalizing corrupt with
  | nil => simp
  | cons field fields ih =>
    obtain ⟨name, n⟩ := field
    rw [List.foldl_cons, ih]
    cases hn : n.toNat? with
    | some k => simp [hn]
    | none =>
      by_cases hid : id = id' <;> simp [hn, hid, reasonOf?_mark]

/-- One more entry is seen at its own document only. -/
theorem view_checkEntry (id : DocId) (found : List Corruption × List (DocId × Number)) (d : Entry) :
    (reasonOf? (checkEntry found d).1 id, Json.member? (checkEntry found d).2 id) =
      if d.id == id then d.addTo (reasonOf? found.1 id, Json.member? found.2 id)
      else (reasonOf? found.1 id, Json.member? found.2 id) := by
  rw [checkEntry, Json.any_eq_isSome_member?]
  by_cases hid : d.id = id
  · subst hid
    cases hlength : Json.member? found.2 d.id with
    | some length => simp [Entry.addTo, reasonOf?_mark, hlength]
    | none =>
      cases hn : d.length.toNat? <;>
        simp [Entry.addTo, Entry.problem?, reasonOf?_fieldLengths, reasonOf?_mark,
          Json.member?_append, hlength, hn]
  · cases hlength : Json.member? found.2 d.id with
    | some length => simp [hid, reasonOf?_mark]
    | none =>
      cases hn : d.length.toNat? <;>
        simp [hid, reasonOf?_fieldLengths, reasonOf?_mark, Json.member?_append]

/-- A pass over all entries finds out about each document what its own entries tell. -/
theorem view_checkDocuments (documents : List Entry) (id : DocId) :
    (reasonOf? (checkDocuments documents).1 id, Json.member? (checkDocuments documents).2 id) =
      entryVerdict (documents.filter (·.id == id)) := by
  have known : ∀ (es : List Entry) reason length, es.foldl Entry.addTo (reason, some length) =
      (reason.or (es.head?.map fun _ => .duplicateDocument), some length) := by
    intro es
    induction es with
    | nil => simp
    | cons d es ih =>
      intro reason length
      rw [List.foldl_cons, Entry.addTo, ih]
      simp
  rw [checkDocuments_eq, view_foldl
    (fun found : _ × _ => (reasonOf? found.1 id, Json.member? found.2 id))
    checkEntry (·.id == id) (fun d => d) Entry.addTo (view_checkEntry id), List.map_id']
  cases documents.filter (·.id == id) with
  | nil => rfl
  | cons d es => simp [Entry.addTo, entryVerdict, known, reasonOf?]

/-! ### Postings -/

/-- What is found out about a document from its postings: the first thing wrong, and the postings
that pass. -/
structure Verdict where
  reason : Option Corruption.Reason
  passed : List (Term × List Nat)

/-- The positions of a posting of a document whose length is known, if it passes, or the first thing
wrong with it. -/
def checkPosting (length : Option Number) (passed : List (Term × List Nat)) (term : Term)
    (positions : List Number) : Except Corruption.Reason (List Nat) :=
  match length with
  | none => .error (.unknownDocument term)
  | some length =>
    if positions.isEmpty then .error (.noPositions term)
    else match checkPositions term length none positions with
      | .error reason => .error reason
      | .ok positions =>
        if passed.any (·.1 == term) then .error (.duplicatePosting term) else .ok positions

/-- What one more posting of a document adds to what is known of it. -/
def Verdict.add (length : Option Number) (v : Verdict) (posting : Term × List Number) : Verdict :=
  match checkPosting length v.passed posting.1 posting.2 with
  | .error reason => { v with reason := v.reason.or (some reason) }
  | .ok positions => { v with passed := v.passed ++ [(posting.1, positions)] }

/-- What is known of a document in the course of a pass over the postings. -/
def Sifted.verdict (s : Sifted) (id : DocId) : Verdict :=
  ⟨reasonOf? s.corrupt id, (s.postings.filter (·.1 == id)).map (·.2)⟩

theorem any_postings (postings : List (DocId × Term × List Nat)) (id : DocId) (term : Term) :
    (postings.any fun (other, t, _) => other == id && t == term) =
      ((postings.filter (·.1 == id)).map (·.2)).any (·.1 == term) := by
  induction postings with
  | nil => rfl
  | cons posting postings ih =>
    rw [List.any_cons, ih, List.filter_cons]
    cases hid : posting.1 == id <;> simp [hid]

/-- Sifting marks the document of a posting that does not pass, and keeps one that does. -/
theorem sift_eq (lengths : List (DocId × Number)) (s : Sifted) (id : DocId) (term : Term)
    (positions : List Number) : sift lengths term s (id, positions) =
      match checkPosting (Json.member? lengths id) (s.verdict id).passed term positions with
      | .error reason => { s with corrupt := mark s.corrupt id reason }
      | .ok ns => { s with postings := s.postings ++ [(id, term, ns)] } := by
  simp only [sift, any_postings, checkPosting, Sifted.verdict]
  cases Json.member? lengths id with
  | none => rfl
  | some length =>
    cases positions.isEmpty with
    | true => rfl
    | false =>
      simp only [Bool.false_eq_true, if_false]
      cases checkPositions term length none positions with
      | error reason => rfl
      | ok ns =>
        simp only
        split
        · rename_i hany
          simp [hany]
        · rename_i hany
          simp [hany]

/-- One more posting is seen at its own document only. -/
theorem verdict_sift (lengths : List (DocId × Number)) (id : DocId) (s : Sifted)
    (tuple : DocId × Term × List Number) :
    (sift lengths tuple.2.1 s (tuple.1, tuple.2.2)).verdict id =
      if tuple.1 == id then (s.verdict id).add (Json.member? lengths id) tuple.2
      else s.verdict id := by
  obtain ⟨id', term, positions⟩ := tuple
  simp only [sift_eq]
  by_cases hid : id' = id
  · subst hid
    simp only [beq_self_eq_true, if_true, Verdict.add]
    split <;> simp [Sifted.verdict, reasonOf?_mark]
  · simp only [beq_eq_false_iff_ne.2 hid, Bool.false_eq_true, if_false]
    split <;> simp [Sifted.verdict, reasonOf?_mark, hid]

/-! ### The verdict on a document -/

/-- What is found out about a document from its entries and its postings. -/
def verdict (entries : List Entry) (postings : List (Term × List Number)) : Verdict :=
  postings.foldl (Verdict.add (entryVerdict entries).2) ⟨(entryVerdict entries).1, []⟩

/-- The corruptions and the postings that a pass over a whole snapshot comes to. -/
def sifted (s : Snapshot) : Sifted :=
  s.postings.foldl (fun sifted (term, list) =>
    list.foldl (sift (checkDocuments s.documents).2 term) sifted)
      ⟨(checkDocuments s.documents).1, []⟩

theorem sifted_eq (s : Snapshot) : s.sifted =
    s.tuples.foldl (fun sifted tuple => sift (checkDocuments s.documents).2 tuple.2.1 sifted
      (tuple.1, tuple.2.2)) ⟨(checkDocuments s.documents).1, []⟩ := by
  simp only [sifted, tuples, List.foldl_flatMap, List.foldl_map]

/-- A pass over the whole snapshot finds out about each document what its own entries and postings
tell. -/
theorem verdict_sifted (s : Snapshot) (id : DocId) :
    s.sifted.verdict id = verdict (s.entriesOf id) (s.tuplesOf id) := by
  have hentries := view_checkDocuments s.documents id
  rw [Prod.mk.injEq] at hentries
  rw [sifted_eq, view_foldl (Sifted.verdict · id) _ (·.1 == id) (·.2) _
    (verdict_sift (checkDocuments s.documents).2 id), hentries.2, Sifted.verdict, hentries.1]
  rfl

end Quarry.Snapshot
