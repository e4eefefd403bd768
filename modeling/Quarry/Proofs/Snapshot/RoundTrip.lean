import Quarry.Proofs.Snapshot.Carried
import Quarry.Proofs.Snapshot.Image

/-! An index that is written as a snapshot and restored is the same index, but for what the reserved
name holds. Every document of the index is sound in its image, since the tokens of one term stand at
strictly ascending positions inside the text, so that restoring drops none. -/

namespace Quarry

/-- Indexes that know the same documents list the same names. -/
theorem Index.documentIds_congr {ix ix' : Index}
    (h : ∀ id, (ix.document? id).isSome = (ix'.document? id).isSome) :
    ix.documentIds = ix'.documentIds := by
  refine Text.eq_of_ascending (fun id => id) (Std.TreeMap.ordered_keys (t := ix.documents))
    (Std.TreeMap.ordered_keys (t := ix'.documents)) fun id => ?_
  have hsome := h id
  rw [document?, document?, Option.isSome_map, Option.isSome_map] at hsome
  rw [documentIds, documentIds, Std.TreeMap.mem_keys, Std.TreeMap.mem_keys,
    Std.TreeMap.mem_iff_isSome_getElem?, Std.TreeMap.mem_iff_isSome_getElem?, hsome]

namespace Records

theorem filter_toList (rs : Records) (id : DocId) :
    rs.toList.filter (·.1 == id) = (rs[id]?.map (id, ·)).toList := by
  refine Text.eq_of_ascending Prod.fst
    ((Std.TreeMap.ordered_keys_toList (t := rs)).sublist List.filter_sublist) ?_ fun p => ?_
  · cases rs[id]? <;> simp
  · obtain ⟨id', r⟩ := p
    rw [List.mem_filter, mem_toList]
    cases hr : rs[id]? <;> grind

end Records

namespace Snapshot

section

variable {ix : Index} {rs : Records} (h : ix.Represents rs)
  (hrecords : ∀ (id : DocId) (r : Record), rs[id]? = some r → ∃ d, d.id ≠ [] ∧ r = .ofDocument d)
include h

theorem documentsOf_eq : documentsOf ix = rs.toList.map fun entry => entry.2.document := by
  have hids : ix.documentIds = rs.toList.map (·.1) := by
    rw [Index.documentIds, h.keys_documents, Std.TreeMap.map_fst_toList_eq_keys]
  rw [documentsOf, hids, List.filterMap_map, ← List.filterMap_eq_map]
  refine List.filterMap_congr fun entry hentry => ?_
  rw [Function.comp_apply, h.document?_eq, Records.mem_toList.1 hentry]
  rfl

theorem entriesOf_image (id : DocId) :
    (image ix).entriesOf id = (rs[id]?.map fun r => Entry.ofDocument r.document).toList := by
  rw [entriesOf, image, documentsOf_eq h, List.map_map, List.filter_map]
  have hfilter : rs.toList.filter
      ((fun d : Entry => d.id == id) ∘ (Entry.ofDocument ∘ fun entry => entry.2.document)) =
      rs.toList.filter (·.1 == id) := by
    refine List.filter_congr fun entry hentry => ?_
    have hname := (h.named _ _ (Records.mem_toList.1 hentry)).1
    simp [Entry.ofDocument, hname]
  rw [hfilter, Records.filter_toList]
  cases rs[id]? <;> rfl

omit h in
theorem tuplesOf_image (ix : Index) (id : DocId) : (image ix).tuplesOf id =
    (postingsOf ix).flatMap fun m =>
      (m.2.filter (·.docId == id)).map fun p => (m.1, p.positions.map .whole) := by
  simp only [tuplesOf, tuples, image, List.flatMap_map, List.filter_flatMap, List.map_flatMap,
    List.filter_map, List.map_map]
  rfl

theorem mem_tuplesOf_image {id : DocId} {posting : Term × List Number} :
    posting ∈ (image ix).tuplesOf id ↔ posting.1 ≠ Json.reservedName ∧
      ∃ ns, Records.positions? rs posting.1 id = some ns ∧ posting.2 = ns.map .whole := by
  obtain ⟨term, positions⟩ := posting
  simp only [tuplesOf_image, List.mem_flatMap, List.mem_map, List.mem_filter, beq_iff_eq,
    Prod.mk.injEq, mem_postingsOf h]
  constructor
  · rintro ⟨m, ⟨hname, -, hlist⟩, p, ⟨hp, rfl⟩, rfl, rfl⟩
    rw [hlist, Records.mem_postingsOf] at hp
    exact ⟨hname, p.positions, hp, rfl⟩
  · rintro ⟨hname, ns, hns, rfl⟩
    exact ⟨(term, Records.postingsOf rs term), ⟨hname, Records.mem_vocabulary.2 ⟨id, ns, hns⟩, rfl⟩,
      ⟨id, ns⟩, ⟨Records.mem_postingsOf.2 hns, rfl⟩, rfl, rfl⟩

/-- A snapshot holds one posting of a document for each of its terms. -/
theorem nodup_tuplesOf_image (id : DocId) : (((image ix).tuplesOf id).map (·.1)).Nodup := by
  have hone : ∀ m ∈ postingsOf ix, (m.2.filter (·.docId == id)).length ≤ 1 := by
    intro m hm
    have hnodup : (m.2.map (·.docId)).Nodup := by
      rw [((mem_postingsOf h).1 hm).2.2, List.nodup_iff_pairwise_ne, List.pairwise_map]
      refine (Records.pairwise_postingsOf rs m.1).imp fun {a b} hlt heq => ?_
      rw [heq, Std.ReflOrd.compare_self] at hlt
      cases hlt
    have hcount := List.nodup_iff_count_le_one.1 hnodup id
    rwa [List.count, List.countP_map, List.countP_eq_length_filter] at hcount
  rw [tuplesOf_image, List.map_flatMap, List.nodup_flatMap]
  refine ⟨fun m hm => ?_, ?_⟩
  · rw [List.map_map]
    change ((m.2.filter (·.docId == id)).map fun _ => m.1).Nodup
    rw [List.map_const', List.nodup_replicate]
    exact hone m hm
  · refine (List.pairwise_map.1 (ordered_postingsOf ix)).imp fun {m m'} hne => ?_
    refine List.disjoint_left.2 fun term hterm hterm' => ?_
    simp only [List.map_map, List.mem_map, Function.comp_apply] at hterm hterm'
    obtain ⟨_, -, rfl⟩ := hterm
    obtain ⟨_, -, heq⟩ := hterm'
    exact hne.1 heq.symm

/-- The image of an index carries its records, as they are written. -/
theorem carries_image {r : Record} (hr : rs[r.document.id]? = some r)
    (hwell : r.WellFormed) : (image ix).Carries (written r) where
  entries :=
    ⟨Entry.ofDocument r.document, by rw [written, entriesOf_image h, hr]; rfl, rfl, rfl, rfl⟩
  postings := by
    have hterms := (wellFormed_written hwell).distinct
    rw [Record.Distinct] at hterms
    refine (List.perm_ext_iff_of_nodup (nodup_tuplesOf_image h _).of_map ?_).2 fun posting => ?_
    · refine List.Nodup.of_map Prod.fst ?_
      rwa [List.map_map]
    · obtain ⟨term, positions⟩ := posting
      rw [written, mem_tuplesOf_image h, List.mem_map]
      simp only [Records.positions?, hr, Option.bind_some, hwell.positions?_iff, List.mem_filter,
        bne_iff_ne, Prod.mk.injEq]
      constructor
      · rintro ⟨hname, ns, hns, rfl⟩
        exact ⟨(term, ns), ⟨hns, hname⟩, rfl, rfl⟩
      · rintro ⟨m, ⟨hm, hname⟩, rfl, rfl⟩
        exact ⟨hname, m.2, hm, rfl⟩

end

section

variable {ix : Index} {rs : Records} (h : ix.Represents rs)
  (hrecords : ∀ (id : DocId) (r : Record), rs[id]? = some r → ∃ d, d.id ≠ [] ∧ r = .ofDocument d)
include h hrecords

/-- Every document of an index is sound in its image. -/
theorem sound_image {id : DocId} {r : Record} (hr : rs[id]? = some r) : (image ix).Sound id := by
  obtain ⟨d, -, rfl⟩ := hrecords id r hr
  obtain rfl : d.id = id := (h.named _ _ hr).1
  have hwell := Record.wellFormed_ofDocument d
  exact (carries_image h hr hwell).sound (wellFormed_written hwell)

omit hrecords in
/-- An image mentions the documents of the index only. -/
theorem exists_of_mentions {id : DocId} (hmentions : (image ix).Mentions id) :
    ∃ r, rs[id]? = some r := by
  rw [← Option.ne_none_iff_exists']
  intro hnone
  rcases hmentions with hentries | htuples
  · exact hentries (by rw [entriesOf_image h, hnone]; rfl)
  · obtain ⟨posting, hposting⟩ := List.exists_mem_of_ne_nil _ htuples
    obtain ⟨-, ns, hns, -⟩ := (mem_tuplesOf_image h).1 hposting
    rw [Records.positions?, hnone] at hns
    cases hns

theorem dropped_restore_image : (restore (image ix)).dropped = [] := by
  rw [← List.map_eq_nil_iff (f := Corruption.docId), List.eq_nil_iff_forall_not_mem]
  intro id hid
  obtain ⟨hmentions, hsound⟩ := (mem_dropped_iff _ id).1 hid
  obtain ⟨r, hr⟩ := exists_of_mentions h hmentions
  exact hsound (sound_image h hrecords hr)

theorem sound_image_iff (id : DocId) : (image ix).Sound id ↔ ∃ r, rs[id]? = some r := by
  refine ⟨fun hsound => exists_of_mentions h (.inl ?_), fun ⟨r, hr⟩ => sound_image h hrecords hr⟩
  obtain ⟨d, length, hentries, -⟩ := hsound
  exact hentries ▸ List.cons_ne_nil d []

theorem document?_restore_image (id : DocId) : (restore (image ix)).index.document? id =
    (ix.document? id).map fun d =>
      { d with fields := d.fields.filter (·.1 != Json.reservedName) } := by
  rw [(represents_restore (image ix)).1.document?_eq, h.document?_eq]
  cases hr : rs[id]? with
  | none =>
    have hsound : ¬ (image ix).Sound id := by
      rw [sound_image_iff h hrecords, hr]
      simp
    rw [getElem?_records_of_not_sound hsound]
    rfl
  | some r =>
    obtain ⟨d, -, rfl⟩ := hrecords id r hr
    obtain rfl : d.id = id := (h.named _ _ hr).1
    have hwell := Record.wellFormed_ofDocument d
    have haccepts := (carries_image h hr hwell).accepts (wellFormed_written hwell)
    rw [← (represents_restore (image ix)).1.document?_eq]
    refine haccepts.document.trans ?_
    simp [written, Record.ofDocument, List.filter_map, Function.comp_def]

theorem postingsOf_restore_image (term : Term) : (restore (image ix)).index.postingsOf term =
    if term = Json.reservedName then [] else ix.postingsOf term := by
  have hrestored := (represents_restore (image ix)).1
  have hascending : (if term = Json.reservedName then [] else Records.postingsOf rs term).Pairwise
      fun a b => compare a.docId b.docId = .lt := by
    split
    · exact .nil
    · exact Records.pairwise_postingsOf rs term
  rw [hrestored.postingsOf_eq, h.postingsOf_eq]
  refine Text.eq_of_ascending Posting.docId (Records.pairwise_postingsOf _ _) hascending fun p => ?_
  obtain ⟨id, positions⟩ := p
  have hposting := posting?_restore_iff (image ix) id term ⟨id, positions⟩
  rw [hrestored.posting?_eq] at hposting
  simp only [Option.map_eq_some_iff, Posting.mk.injEq, true_and, exists_eq_right,
    mem_tuplesOf_image h] at hposting
  rw [Records.mem_postingsOf, hposting, sound_image_iff h hrecords]
  by_cases hname : term = Json.reservedName
  · simp [hname]
  · rw [if_neg hname, Records.mem_postingsOf]
    constructor
    · rintro ⟨-, -, ns, hns, heq⟩
      rwa [List.map_injective_iff.2 (fun _ _ => Number.whole.inj) heq]
    · intro hpositions
      obtain ⟨r, hr, -⟩ := Option.bind_eq_some_iff.1 hpositions
      exact ⟨⟨r, hr⟩, hname, positions, hpositions, rfl⟩

theorem version_restore_image :
    (restore (image ix)).index.version = ix.version + ix.documentCount := by
  have hdropped : (image ix).sifted.corrupt = [] := dropped_restore_image h hrecords
  have hkept : (image ix).kept = (image ix).documents := by
    rw [kept, hdropped]
    exact List.filter_eq_self.2 fun _ _ => rfl
  rw [(represents_restore _).2, hkept, h.documentCount_eq]
  simp [image, documentsOf_eq h]

end

/-- An index that is written as a snapshot, read back and restored has lost no document, and of the
documents and the postings no more than what the reserved name holds. Its version has grown by one
for each document. -/
theorem restores_ofIndex {ix : Index} (h : ix.Reachable) (hwritable : ix.Writable) :
    ∃ restored, (Json.read? (ofIndex ix).write).map restore? = some (.ok restored) ∧
      restored.dropped = [] ∧
      restored.index.documentIds = ix.documentIds ∧
      (∀ id, restored.index.document? id = (ix.document? id).map fun d =>
        { d with fields := d.fields.filter (·.1 != Json.reservedName) }) ∧
      (∀ term, restored.index.postingsOf term =
        if term = Json.reservedName then [] else ix.postingsOf term) ∧
      restored.index.version = ix.version + ix.documentCount := by
  obtain ⟨rs, hrs, hrecords⟩ := Index.exists_records_of_reachable h
  have hdocument := document?_restore_image hrs hrecords
  refine ⟨restore (image ix), ?_, dropped_restore_image hrs hrecords, ?_, hdocument,
    postingsOf_restore_image hrs hrecords, version_restore_image hrs hrecords⟩
  · rw [Json.read?_write (plain_ofIndex hrs hrecords hwritable), Option.map_some, restore?,
      check_ofIndex hrs hrecords]
    rfl
  · exact Index.documentIds_congr fun id => by rw [hdocument, Option.isSome_map]

/-- The text `__proto__ x` with a field of the reserved name: its document survives the round trip
with its posting of `x`, and the reserved name is gone. -/
theorem restores_reserved :
    let d : Document := ⟨Text.ofChars ['a'], Json.reservedName ++ Text.ofChars [' ', 'x'],
      [(Json.reservedName, []), (Fields.path, [])]⟩
    let ix := Index.empty.add d
    ∃ restored, (Json.read? (ofIndex ix).write).map restore? = some (.ok restored) ∧
      restored.dropped = [] ∧
      restored.index.document? d.id =
        some ⟨d.id, 2, [(Fields.path, 0)], [(Fields.path, [])]⟩ ∧
      restored.index.postingsOf Json.reservedName = [] ∧
      restored.index.postingsOf (Text.ofChars ['x']) = [⟨d.id, [1]⟩] := by
  intro d ix
  have hreachable : ix.Reachable := .add (d := d) (.empty 0) rfl
  have hrepresents := ((Index.represents_empty 0).insert (Record.distinct_ofDocument d)).1
  have hrecord : (Record.ofDocument d).document = ⟨d.id, 2, [(Fields.path, 0)], d.fields⟩ := by
    decide +kernel
  have hdocument : ∀ id, ix.document? id =
      if d.id = id then some ⟨d.id, 2, [(Fields.path, 0)], d.fields⟩ else none := by
    intro id
    rw [← hrecord, show ix.document? id = _ from hrepresents.document?_eq id, Text.getElem?_insert]
    change Option.map _ (if d.id = id then _ else _) = _
    split <;> simp
  have hwritable : ix.Writable := by
    have hfound : ∀ id found, ix.document? id = some found →
        found = ⟨d.id, 2, [(Fields.path, 0)], d.fields⟩ := by
      intro id found hfound
      rw [hdocument] at hfound
      split at hfound
      · exact (Option.some.inj hfound).symm
      · cases hfound
    refine ⟨by decide +kernel, fun id found h => ?_, fun id found h => ?_, fun id found h => ?_⟩
    all_goals
      rw [hfound id found h]
      decide +kernel
  obtain ⟨restored, hrestored, hdropped, -, hdocuments, hpostings, -⟩ :=
    restores_ofIndex hreachable hwritable
  refine ⟨restored, hrestored, hdropped, ?_, hpostings _, ?_⟩
  · rw [hdocuments, hdocument]
    decide +kernel
  · rw [hpostings]
    decide +kernel

end Snapshot
end Quarry
