import Quarry.Proofs.Index.Answers

/-! Indexes that adding and removing documents leads to, with reads in between. What a search relies
on holds of every one of them. -/

namespace Quarry.Index

/-- An index that documents were added to and removed from, and that was read, in any order. -/
inductive Reachable : Index → Prop where
  | empty (version : Nat) : Reachable (.empty version)
  | add {ix ix' : Index} {d : Document} (h : Reachable ix) (hadd : ix.add? d = some ix') :
    Reachable ix'
  | remove {ix : Index} (h : Reachable ix) (id : DocId) : Reachable (ix.remove id)
  | readPostings {ix : Index} (h : Reachable ix) (term : Term) : Reachable (ix.readPostings term).2
  | readVocabulary {ix : Index} (h : Reachable ix) : Reachable ix.readVocabulary.2

/-- The postings of a term are those of the documents that hold it, each once. -/
structure Listed (ix : Index) : Prop where
  postings : ∀ term p, p ∈ ix.postingsOf term ↔ ix.positions? term p.docId = some p.positions
  nodup : ∀ term, ((ix.postingsOf term).map (·.docId)).Nodup

/-- The positions of every term in the document ascend. -/
def Ascending (ix : Index) (id : DocId) : Prop :=
  ∀ term positions, ix.positions? term id = some positions →
    positions ≠ [] ∧ positions.Pairwise (· ≤ ·)

/-- What a search relies on. Besides that postings are listed, positions ascend. -/
structure Searchable (ix : Index) : Prop extends ix.Listed where
  ascending : ∀ term id positions, ix.positions? term id = some positions →
    positions ≠ [] ∧ positions.Pairwise (· ≤ ·)
  vocabulary : ix.vocabulary.Pairwise fun a b => compare a b = .lt
  absent : ix.documentCount = 0 → ∀ term id, ix.positions? term id = none

theorem exists_records_of_reachable {ix : Index} (h : ix.Reachable) : ∃ rs, ix.Represents rs ∧
    ∀ (id : DocId) (r : Record), rs[id]? = some r → ∃ d, d.id ≠ [] ∧ r = .ofDocument d := by
  induction h with
  | empty version => exact ⟨∅, represents_empty version, by simp⟩
  | @add ix ix' d h hadd ih =>
    obtain ⟨rs, hrs, hdocuments⟩ := ih
    rw [add?] at hadd
    split at hadd
    · cases hadd
    · rename_i hname
      cases hadd
      exact ⟨rs.insert d.id (.ofDocument d), (hrs.insert (Record.distinct_ofDocument d)).1,
        Text.forall_insert hdocuments ⟨d, by simpa using hname, rfl⟩⟩
  | @remove ix h id ih =>
    obtain ⟨rs, hrs, hdocuments⟩ := ih
    exact ⟨rs.erase id, (hrs.remove id).1, Text.forall_erase hdocuments id⟩
  | readPostings h term ih =>
    obtain ⟨rs, hrs, hdocuments⟩ := ih
    exact ⟨rs, (hrs.readPostings term).1, hdocuments⟩
  | readVocabulary h ih =>
    obtain ⟨rs, hrs, hdocuments⟩ := ih
    exact ⟨rs, hrs.readVocabulary.1, hdocuments⟩

theorem Represents.listed {ix : Index} {rs : Records} (h : ix.Represents rs) : ix.Listed where
  postings term p := by rw [h.postingsOf_eq, Records.mem_postingsOf, h.positions]
  nodup term := by
    rw [h.postingsOf_eq, List.nodup_iff_pairwise_ne, List.pairwise_map]
    refine (Records.pairwise_postingsOf rs term).imp fun {a b} hlt heq => ?_
    rw [heq] at hlt
    exact absurd hlt (by simp)

/-- An index that holds the records of documents is searchable. -/
theorem Represents.searchable {ix : Index} {rs : Records} (h : ix.Represents rs)
    (documents : ∀ (id : DocId) (r : Record), rs[id]? = some r →
      ∃ d, d.id ≠ [] ∧ r = .ofDocument d) :
    ix.Searchable := by
  refine ⟨h.listed, fun term id positions hpositions => ?_, ?_, fun hcount => ?_⟩
  · rw [h.positions, Records.positions?, Option.bind_eq_some_iff] at hpositions
    obtain ⟨r, hr, hpositions⟩ := hpositions
    obtain ⟨d, -, rfl⟩ := documents id r hr
    exact ⟨Record.positions?_ne_nil hpositions, Record.pairwise_positions? hpositions⟩
  · rw [h.vocabulary_eq]
    exact Records.pairwise_vocabulary rs
  · intro term id
    rw [h.documentCount_eq] at hcount
    have hempty : rs.isEmpty = true := by simp [Std.TreeMap.isEmpty_eq_size_eq_zero, hcount]
    have hnone : rs[id]? = none := Std.TreeMap.getElem?_of_isEmpty hempty
    rw [h.positions, Records.positions?, hnone, Option.bind_none]

theorem Reachable.searchable {ix : Index} (h : ix.Reachable) : ix.Searchable := by
  obtain ⟨rs, hrs, hdocuments⟩ := exists_records_of_reachable h
  exact hrs.searchable hdocuments

end Quarry.Index
