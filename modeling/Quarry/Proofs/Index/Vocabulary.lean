import Quarry.Proofs.Index.Origin

/-! The vocabulary of an index and the terms that a stem stands for. The vocabulary is sorted when
it is asked for and kept until a term comes or goes. After any calls on the index it lists the terms
of the records that are left, and the terms that begin with a stem are one stretch of it, which
begins where the search by halving stops. -/

namespace Quarry

/-- A list of the texts with some property: each of them once, in ascending order of their units. -/
structure Text.Enumerates (list : List Text) (P : Text → Prop) : Prop where
  ascending : list.Pairwise fun a b => compare a b = .lt
  mem_iff : ∀ t, t ∈ list ↔ P t

theorem Text.Enumerates.filter {list : List Text} {P : Text → Prop} (h : Enumerates list P)
    (p : Text → Bool) :
    Enumerates (list.filter p) fun t => P t ∧ p t = true where
  ascending := h.ascending.filter p
  mem_iff t := by rw [List.mem_filter, h.mem_iff]

/-- One of the records has positions for a term. -/
def Records.Holds (rs : Records) (term : Term) : Prop :=
  ∃ (id : DocId) (r : Record) (positions : List Nat),
    rs[id]? = some r ∧ (term, positions) ∈ r.terms ∧ positions ≠ []

namespace Index

variable {ix : Index} {rs : Records}

/-- The vocabulary of an index lists the terms of the records that it stands for. -/
theorem Represents.enumerates_vocabulary (h : ix.Represents rs) :
    Text.Enumerates ix.vocabulary rs.Holds where
  ascending := h.vocabulary_eq ▸ Records.pairwise_vocabulary rs
  mem_iff term := by
    rw [h.vocabulary_eq, Records.mem_vocabulary]
    simp only [Records.positions?, Option.bind_eq_some_iff]
    constructor
    · rintro ⟨id, positions, r, hr, hpositions⟩
      obtain ⟨hmem, hne⟩ := (Record.positions?_eq_some_iff (h.named id r hr).2).1 hpositions
      exact ⟨id, r, positions, hr, hmem, hne⟩
    · rintro ⟨id, r, positions, hr, hmem, hne⟩
      exact ⟨id, positions, r, hr,
        (Record.positions?_eq_some_iff (h.named id r hr).2).2 ⟨hmem, hne⟩⟩

/-- A vocabulary that is kept is the one that reading it anew would give. -/
theorem Represents.enumerates_keptTerms (h : ix.Represents rs) {kept : List Term}
    (hkept : ix.keptTerms = some kept) : Text.Enumerates kept rs.Holds := by
  rw [h.toSound.keptTerms kept hkept, ← h.toSound.vocabulary_eq]
  exact h.enumerates_vocabulary

/-- The terms that begin with a stem part the vocabulary, from the place at which the
search stops. -/
theorem vocabulary_eq_append (ascending : ix.vocabulary.Pairwise fun a b => compare a b = .lt)
    (stem : Text) :
    ix.vocabulary = ix.vocabulary.take (place ix.vocabulary stem) ++
      ix.vocabulary.filter (·.startsWith stem) ++
        (ix.vocabulary.drop (place ix.vocabulary stem)).dropWhile (·.startsWith stem) := by
  rw [← takeWhile_drop_place ascending stem, List.append_assoc, List.takeWhile_append_dropWhile,
    List.take_append_drop]

theorem place_le (terms : List Term) (stem : Text) : place terms stem ≤ terms.length :=
  bisect_le _ (Nat.zero_le _)

/-- After any calls on an index, wherever it came from, its vocabulary lists the terms that are
held, also when it was kept. Those that begin with a stem follow one another in it from the place at
which the search by halving stops, and the stem expands to all of them, or to the first of them up
to a limit. -/
theorem expand_run (origin : Origin) (calls : List Call) (stem : Text) :
    let ix := origin.index.run calls
    let rs := origin.records.run calls
    (∀ kept, ix.keptTerms = some kept → Text.Enumerates kept rs.Holds) ∧
      Text.Enumerates ix.vocabulary rs.Holds ∧
      ∃ before block after, ix.vocabulary = before ++ block ++ after ∧
        before.length = place ix.vocabulary stem ∧
        Text.Enumerates block (fun term => rs.Holds term ∧ term.startsWith stem = true) ∧
        ix.expand stem none = block ∧ ∀ limit, ix.expand stem (some limit) = block.take limit := by
  intro ix rs
  have hrun : ix.Represents rs := origin.represents_run calls
  have hvocabulary : Text.Enumerates ix.vocabulary rs.Holds := hrun.enumerates_vocabulary
  refine ⟨fun kept => hrun.enumerates_keptTerms, hvocabulary, _, _, _,
    vocabulary_eq_append hvocabulary.ascending stem, ?_, hvocabulary.filter _,
    expand_eq hvocabulary.ascending stem none, fun limit =>
      expand_eq hvocabulary.ascending stem (some limit)⟩
  rw [List.length_take, Nat.min_eq_left (place_le _ _)]

/-- A stem that is no term itself. -/
example : (empty.add ⟨"d", "foo Fob bar food", []⟩).expand "fo" (some 2) = ["fob", "foo"] := by
  decide +kernel

end Index
end Quarry
