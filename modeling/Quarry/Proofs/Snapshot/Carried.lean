import Quarry.Proofs.Index.WellFormed
import Quarry.Proofs.Snapshot.Restoration

/-! Records that a snapshot carries. What restoring checks of a document is what makes its record
well formed, so that a well-formed record passes whatever else the snapshot holds, and comes back
as it was. -/

namespace Quarry.Snapshot

/-- A snapshot holds a record: one entry of its document, and one posting for each of its terms. -/
structure Carries (s : Snapshot) (r : Record) : Prop where
  entries : ∃ d, s.entriesOf r.document.id = [d] ∧ d.length = .whole r.document.length ∧
    d.fieldLengths = r.document.fieldLengths.map (fun m => (m.1, .whole m.2)) ∧
      d.fields = r.document.fields
  postings : (s.tuplesOf r.document.id).Perm (r.terms.map fun m => (m.1, m.2.map .whole))

/-- Restoring a snapshot does not drop the document of a record, and gives it back with its
postings. -/
structure Accepts (s : Snapshot) (r : Record) : Prop where
  kept : r.document.id ∉ (restore s).dropped.map (·.docId)
  document : (restore s).index.document? r.document.id = some r.document
  postings : ∀ term, (restore s).index.posting? term r.document.id =
    (r.positions? term).map fun positions => ⟨r.document.id, positions⟩

variable {s : Snapshot} {r : Record}

theorem Carries.mem_tuplesOf_iff (h : s.Carries r) {term : Term} {positions : List Nat} :
    (term, positions.map .whole) ∈ s.tuplesOf r.document.id ↔ (term, positions) ∈ r.terms := by
  rw [h.postings.mem_iff, List.mem_map]
  constructor
  · rintro ⟨m, hm, heq⟩
    obtain ⟨rfl, hpositions⟩ := Prod.mk.inj heq
    rwa [← List.map_injective_iff.2 (fun _ _ => Number.whole.inj) hpositions]
  · exact fun hm => ⟨_, hm, rfl⟩

/-- The document of a well-formed record passes all checks. -/
theorem Carries.sound (h : s.Carries r) (hr : r.WellFormed) : s.Sound r.document.id := by
  obtain ⟨d, hentries, hlength, hfields, -⟩ := h.entries
  refine ⟨d, _, hentries, hlength, fun field hfield => ?_, fun posting hposting => ?_, ?_⟩
  · rw [hfields] at hfield
    obtain ⟨m, -, rfl⟩ := List.mem_map.1 hfield
    exact ⟨m.2, rfl⟩
  · obtain ⟨m, hm, rfl⟩ := List.mem_map.1 (h.postings.mem_iff.1 hposting)
    exact ⟨m.2, rfl, hr.nonempty m hm, hr.ascending m hm, hr.inside m hm⟩
  · rw [(h.postings.map _).nodup_iff, List.map_map]
    exact hr.distinct

theorem Carries.accepts (h : s.Carries r) (hr : r.WellFormed) : s.Accepts r := by
  have hsound := h.sound hr
  refine ⟨fun hdropped => ((mem_dropped_iff _ _).1 hdropped).2 hsound, ?_,
    fun term => Option.ext fun p => ?_⟩
  · obtain ⟨d, hentries, hlength, hfieldLengths, hfields⟩ := h.entries
    obtain ⟨d', length, hentries', hlength', hrecord⟩ := getElem?_records_of_sound hsound
    obtain rfl : d = d' := List.singleton_inj.1 (hentries.symm.trans hentries')
    obtain rfl : r.document.length = length := Number.whole.inj (hlength.symm.trans hlength')
    rw [(represents_restore s).1.document?_eq, hrecord]
    simp [hfieldLengths, hfields, Number.toNat?, Function.comp_def]
  · rw [posting?_restore_iff, Option.map_eq_some_iff]
    simp only [hr.positions?_iff]
    constructor
    · rintro ⟨-, hid, hmem⟩
      exact ⟨p.positions, h.mem_tuplesOf_iff.1 hmem, by rw [← hid]⟩
    · rintro ⟨positions, hmem, rfl⟩
      exact ⟨hsound, rfl, h.mem_tuplesOf_iff.2 hmem⟩

/-! ### Records that are written -/

/-- What is written of a record: all but what the reserved name holds. -/
def written (r : Record) : Record where
  document :=
    { r.document with
      fieldLengths := r.document.fieldLengths.filter (·.1 != Json.reservedName)
      fields := r.document.fields.filter (·.1 != Json.reservedName) }
  terms := r.terms.filter (·.1 != Json.reservedName)

theorem wellFormed_written (hr : r.WellFormed) : (written r).WellFormed where
  distinct := hr.distinct.sublist (List.filter_sublist.map _)
  nonempty m hm := hr.nonempty m (List.mem_filter.1 hm).1
  ascending m hm := hr.ascending m (List.mem_filter.1 hm).1
  inside m hm := hr.inside m (List.mem_filter.1 hm).1

end Quarry.Snapshot
