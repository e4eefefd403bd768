import Quarry.Proofs.Index.WellFormed
import Quarry.Proofs.Snapshot.Restoration

/-! Where indexes come from. An index is made empty, or restored from a snapshot of whatever
content, and called from then on. It stands for the records that it began with as the calls have
changed them, and these are well formed if what is inserted is. -/

namespace Quarry

namespace Snapshot

/-- The records that restoring leaves are well formed, whatever the snapshot was. -/
theorem wellFormed_records (s : Snapshot) : s.records.WellFormed := by
  intro id r hr
  have hsound : s.Sound id := by
    by_contra hsound
    rw [getElem?_records_of_not_sound hsound] at hr
    cases hr
  have hdistinct := ((represents_restore s).1.named id r hr).2
  obtain ⟨d, length, hentries, hlength, hrecord⟩ := getElem?_records_of_sound hsound
  obtain ⟨d', length', hentries', hlength', -, hpositions, -⟩ := hsound
  obtain rfl : d = d' := List.singleton_inj.1 (hentries.symm.trans hentries')
  obtain rfl : length = length' := Number.whole.inj (hlength.symm.trans hlength')
  obtain rfl := Option.some.inj (hr.symm.trans hrecord)
  have hterms : ∀ m ∈ (s.tuplesOf id).map (fun posting => (posting.1, wholes posting.2)),
      m.2 ≠ [] ∧ m.2.Pairwise (· < ·) ∧ ∀ position ∈ m.2, position < length := by
    intro m hm
    obtain ⟨posting, hposting, rfl⟩ := List.mem_map.1 hm
    obtain ⟨ns, hns, hpositions⟩ := hpositions posting hposting
    simpa only [hns, wholes_map_whole] using hpositions
  exact ⟨hdistinct, fun m hm => (hterms m hm).1, fun m hm => (hterms m hm).2.1,
    fun m hm => (hterms m hm).2.2⟩

end Snapshot

/-- How an index comes about. -/
inductive Index.Origin where
  | empty (version : Nat)
  | restored (s : Snapshot)

namespace Index.Origin

/-- The index that there is at first. -/
def index : Origin → Index
  | empty version => .empty version
  | restored s => (Snapshot.restore s).index

/-- The records that it holds. -/
def records : Origin → Records
  | empty _ => ∅
  | restored s => s.records

theorem represents (origin : Origin) : origin.index.Represents origin.records := by
  cases origin with
  | empty version => exact represents_empty version
  | restored s => exact (Snapshot.represents_restore s).1

theorem wellFormed_records (origin : Origin) : origin.records.WellFormed := by
  cases origin with
  | empty version =>
    intro id r hr
    rw [records, Std.TreeMap.getElem?_emptyc] at hr
    cases hr
  | restored s => exact s.wellFormed_records

/-- After any calls the index stands for the records that are left. -/
theorem represents_run (origin : Origin) (calls : List Call) :
    (origin.index.run calls).Represents (origin.records.run calls) :=
  (origin.represents.run calls).1

theorem wellFormed_run (origin : Origin) {calls : List Call} (hcalls : ∀ c ∈ calls, c.WellFormed) :
    (origin.records.run calls).WellFormed :=
  origin.wellFormed_records.run hcalls

end Index.Origin
end Quarry
