import Quarry.Proofs.Snapshot.RoundTrip

/-! The record of a document is well formed, however its text and fields are written, so restoring
accepts it wherever it is carried: also in the snapshot of an index that it was added to. -/

namespace Quarry.Snapshot

/-- The snapshot of an index that a document was added to carries the record of the document. -/
theorem exists_restore?_add {ix : Index} (h : ix.Reachable) {d : Document} (named : d.id ≠ []) :
    ∃ s, restore? (ofIndex (ix.add d)) = .ok (restore s) ∧ s.Carries (written (.ofDocument d)) := by
  obtain ⟨rs, hrs, hrecords⟩ := Index.exists_records_of_reachable h
  have hadded : (ix.add d).Represents (rs.insert d.id (.ofDocument d)) :=
    (hrs.insert (Record.distinct_ofDocument d)).1
  have hdocuments : ∀ (id : DocId) (r : Record), (rs.insert d.id (.ofDocument d))[id]? = some r →
      ∃ d, d.id ≠ [] ∧ r = .ofDocument d := Text.forall_insert hrecords ⟨d, named, rfl⟩
  refine ⟨image (ix.add d), ?_, carries_image hadded ?_ (Record.wellFormed_ofDocument d)⟩
  · rw [restore?, check_ofIndex hadded hdocuments]
    rfl
  · exact (Text.getElem?_insert ..).trans (if_pos rfl)

/-- The record of a document with a name is well formed, with one term without a full stop at each
of its positions and the counts of its text and fields, and restoring accepts it: from any snapshot
that carries it, and from that of any index that it was added to. -/
theorem ofDocument_accepted (d : Document) (named : d.id ≠ []) :
    let r := Record.ofDocument d
    (∀ ix : Index, ix.add? d = some (ix.insert r)) ∧
      r.WellFormed ∧
      (∀ position < r.document.length, ∃! term, Word.dot ∉ term ∧ r.Has term position) ∧
      r.document.length = d.text.positionCount ∧
      (∀ m ∈ r.document.fieldLengths, ∃ value, (m.1, value) ∈ d.fields ∧
        m.2 = value.positionCount) ∧
      (∀ m ∈ d.fields, m.1 ≠ Json.reservedName →
        (m.1, m.2.positionCount) ∈ r.document.fieldLengths) ∧
      (∀ s : Snapshot, s.Carries r → s.Accepts r) ∧
      ∀ ix : Index, ix.Reachable → ∃ s, restore? (ofIndex (ix.add d)) = .ok (restore s) ∧
        s.Carries (written r) ∧ s.Accepts (written r) := by
  intro r
  have hwell : r.WellFormed := Record.wellFormed_ofDocument d
  have hadd : ∀ ix : Index, ix.add? d = some (ix.insert r) := by
    intro ix
    rw [Index.add?, if_neg (mt List.isEmpty_iff.1 named)]
    rfl
  refine ⟨hadd, hwell, fun position => Record.existsUnique_term, rfl, fun m hm => ?_,
    fun m hm hname => ?_, fun s hs => hs.accepts hwell, fun ix hix => ?_⟩
  · obtain ⟨f, hf, rfl⟩ := List.mem_map.1 hm
    exact ⟨f.2, (List.mem_filter.1 hf).1, rfl⟩
  · exact List.mem_map.2 ⟨m, List.mem_filter.2 ⟨hm, by simpa using hname⟩, rfl⟩
  · obtain ⟨s, hs, hcarries⟩ := exists_restore?_add hix named
    exact ⟨s, hs, hcarries, hcarries.accepts (wellFormed_written hwell)⟩

/-- Runs that a full stop joins, and a field of the reserved name. -/
theorem ofDocument_accepted_dotted :
    let d : Document := ⟨"d", "a.b a", [(Json.reservedName, "x"), (Fields.path, "x.y")]⟩
    let r := Record.ofDocument d
    d.id ≠ [] ∧ r.terms = ([("a", [0, 2]), ("b", [1]), ("a.b", [0])] : List (Term × List Nat)) ∧
      r.document.fieldLengths = [(Fields.path, 2)] ∧
      (∃! term, Word.dot ∉ term ∧ r.Has term 0) ∧
      ∃ s, restore? (ofIndex (Index.empty.add d)) = .ok (restore s) ∧ s.Accepts (written r) := by
  intro d r
  have named : d.id ≠ [] := by decide
  obtain ⟨-, -, hterm, -, -, -, -, hrestored⟩ := ofDocument_accepted d named
  obtain ⟨s, hs, -, haccepts⟩ := hrestored .empty (.empty 0)
  exact ⟨named, by decide +kernel, by decide +kernel, hterm 0 (by decide +kernel), s, hs, haccepts⟩

end Quarry.Snapshot
