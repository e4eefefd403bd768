import Quarry.Proofs.Index.Expansion
import Quarry.Proofs.Index.Representation

/-! What an index answers is what the records that it represents give from scratch, so that only the
records that are left count and not the history of calls that left them. -/

namespace Quarry

namespace Records

theorem mem_postingsOf {rs : Records} {term : Term} {p : Posting} :
    p ∈ postingsOf rs term ↔ positions? rs term p.docId = some p.positions := by
  rw [postingsOf, List.mem_filterMap, positions?, Option.bind_eq_some_iff]
  constructor
  · rintro ⟨⟨id, r⟩, hmem, hp⟩
    obtain ⟨positions, hpositions, rfl⟩ := Option.map_eq_some_iff.1 hp
    exact ⟨r, mem_toList.1 hmem, hpositions⟩
  · rintro ⟨r, hr, hpositions⟩
    exact ⟨(p.docId, r), mem_toList.2 hr, by simp [hpositions]⟩

theorem pairwise_postingsOf (rs : Records) (term : Term) :
    (postingsOf rs term).Pairwise fun a b => compare a.docId b.docId = .lt := by
  refine List.Pairwise.filterMap _ ?_ Std.TreeMap.ordered_keys_toList
  rintro ⟨id, r⟩ ⟨id', r'⟩ hlt p hp p' hp'
  obtain ⟨_, -, rfl⟩ := Option.map_eq_some_iff.1 hp
  obtain ⟨_, -, rfl⟩ := Option.map_eq_some_iff.1 hp'
  exact hlt

theorem mem_vocabulary {rs : Records} {term : Term} :
    term ∈ vocabulary rs ↔ ∃ id positions, positions? rs term id = some positions := by
  simp only [vocabulary, List.mem_mergeSort, List.mem_dedup, List.mem_flatMap, positions?,
    Option.bind_eq_some_iff]
  constructor
  · rintro ⟨⟨id, r⟩, hmem, hterm⟩
    obtain ⟨positions, hpositions⟩ := Record.exists_positions?_of_mem hterm
    exact ⟨id, positions, r, mem_toList.1 hmem, hpositions⟩
  · rintro ⟨id, positions, r, hr, hpositions⟩
    exact ⟨(id, r), mem_toList.2 hr, List.mem_map.2 ⟨_, Record.mem_of_lookup hpositions, rfl⟩⟩

theorem pairwise_vocabulary (rs : Records) :
    (vocabulary rs).Pairwise fun a b => compare a b = .lt := by
  have hle : (vocabulary rs).Pairwise fun a b => (compare a b).isLE = true :=
    List.pairwise_mergeSort (fun _ _ _ => Std.TransCmp.isLE_trans) (fun a b => by
      rw [(Std.OrientedOrd.eq_swap : compare b a = (compare a b).swap)]
      cases compare a b <;> rfl) _
  have hnodup : (vocabulary rs).Nodup := (List.mergeSort_perm ..).nodup_iff.2 (List.nodup_dedup _)
  exact (hle.and hnodup).imp fun h => Text.compare_eq_lt h.1 h.2

end Records

namespace Index.Represents

variable {ix : Index} {rs : Records} (h : ix.Represents rs)
include h

theorem postingsOf_eq (term : Term) : ix.postingsOf term = Records.postingsOf rs term := by
  rw [h.toSound.postingsOf_eq]
  refine Text.eq_of_ascending Posting.docId ?_ (Records.pairwise_postingsOf rs term) fun p => ?_
  · rw [freshPostings]
    split
    · exact List.Pairwise.nil
    · exact List.pairwise_map.2 Std.TreeMap.ordered_keys_toList
  · rw [Records.mem_postingsOf, ← h.positions, positions?, freshPostings]
    cases ix.postings[term]? with
    | none => simp
    | some holders =>
      simp only [List.mem_map, Option.bind_some]
      constructor
      · rintro ⟨⟨id, positions⟩, hmem, rfl⟩
        exact Std.TreeMap.mem_toList_iff_getElem?_eq_some.1 hmem
      · exact fun hp => ⟨(p.docId, p.positions),
          Std.TreeMap.mem_toList_iff_getElem?_eq_some.2 hp, rfl⟩

theorem posting?_eq (term : Term) (id : DocId) : ix.posting? term id =
    (Records.positions? rs term id).map fun positions => ⟨id, positions⟩ := by
  rw [← h.positions, positions?, posting?]
  cases ix.postings[term]? with
  | none => rfl
  | some holders => cases hp : holders[id]? <;> simp [hp]

theorem documentFrequency_eq (term : Term) :
    ix.documentFrequency term = (Records.postingsOf rs term).length := by
  rw [← h.postingsOf_eq, h.toSound.postingsOf_eq, documentFrequency, freshPostings]
  cases ix.postings[term]? with
  | none => rfl
  | some holders => simp

theorem vocabulary_eq : ix.vocabulary = Records.vocabulary rs := by
  rw [h.toSound.vocabulary_eq]
  refine Text.eq_of_ascending (fun term => term) Std.TreeMap.ordered_keys
    (Records.pairwise_vocabulary rs) fun term => ?_
  rw [Std.TreeMap.mem_keys, Records.mem_vocabulary, Std.TreeMap.mem_iff_isSome_getElem?,
    Option.isSome_iff_exists]
  simp only [← h.positions, positions?, Option.bind_eq_some_iff]
  constructor
  · rintro ⟨holders, hholders⟩
    obtain ⟨id, hid⟩ := Std.TreeMap.isEmpty_eq_false_iff_exists_mem.1 (h.held term holders hholders)
    exact ⟨id, holders[id], holders, hholders, Std.TreeMap.getElem?_eq_some_getElem hid⟩
  · rintro ⟨_, _, holders, hholders, -⟩
    exact ⟨holders, hholders⟩

theorem entries_eq : ix.entries =
    (Records.vocabulary rs).map fun term => (term, Records.postingsOf rs term) := by
  rw [entries, h.vocabulary_eq, funext h.postingsOf_eq]

theorem keys_documents : ix.documents.keys = rs.keys := by
  refine Text.eq_of_ascending (fun id => id) Std.TreeMap.ordered_keys Std.TreeMap.ordered_keys
    fun id => ?_
  rw [Std.TreeMap.mem_keys, Std.TreeMap.mem_keys, ← Std.TreeMap.contains_iff_mem, h.contains,
    Std.TreeMap.contains_iff_mem]

theorem documentCount_eq : ix.documentCount = rs.size := by
  rw [documentCount, ← Std.TreeMap.length_keys, h.keys_documents, Std.TreeMap.length_keys]

theorem document?_eq (id : DocId) : ix.document? id = rs[id]?.map (·.document) := by
  rw [document?, h.documents]
  cases rs[id]? <;> rfl

theorem averageLength_eq {α : Type} [Scalar α] :
    (Bm25.averageLength ix : α) = Records.averageLength rs := by
  rw [Bm25.averageLength, h.documentCount_eq, h.totalLength, Records.averageLength]

/-- Every answer of the index is what the records give from scratch. -/
theorem answers_eq (α : Type) [Scalar α] : ix.answers α = Records.answers rs α := by
  have hpostings : ix.postingsOf = Records.postingsOf rs := funext h.postingsOf_eq
  have hexpand : ∀ stem bound, ix.expand stem bound =
      takeBound bound ((Records.vocabulary rs).filter (·.startsWith stem)) := by
    intro stem bound
    rw [← h.vocabulary_eq]
    exact expand_eq (h.vocabulary_eq ▸ Records.pairwise_vocabulary rs) stem bound
  have hterm : ∀ term, ix.hasTerm term = (Records.vocabulary rs).contains term := by
    intro term
    rw [← h.vocabulary_eq, h.toSound.vocabulary_eq, Std.TreeMap.contains_keys, hasTerm]
  have hlength : ∀ id : DocId, ix.documentLength id = (rs[id]?.map (·.document.length)).getD 0 := by
    intro id
    rw [documentLength, h.document?_eq, Option.map_map]
    rfl
  have hcount : ix.termCount = (Records.vocabulary rs).length := by
    rw [← h.vocabulary_eq, h.toSound.vocabulary_eq, Std.TreeMap.length_keys, termCount]
  simp only [answers, Records.answers, hpostings, h.entries_eq, hcount, h.averageLength_eq,
    Index.Answers.mk.injEq, true_and]
  exact ⟨funext fun term => funext (h.posting?_eq term),
    funext fun term => (h.documentFrequency_eq term), funext hterm,
    funext fun stem => funext (hexpand stem), h.keys_documents, funext h.contains,
    funext h.document?_eq, funext hlength, h.documentCount_eq, h.postingCount⟩

end Index.Represents
end Quarry
