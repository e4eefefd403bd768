import Quarry.Proofs.Index.Representation
import Quarry.Proofs.Text.Runs

/-! Records that are well formed: each term is named once, and its positions ascend and lie in the
document. The record of a document is. A compound comes behind its parts and takes the position of
the first of them; that the positions of its term ascend all the same is because a full stop tells
its term from those of all runs. At each position of a document stands one run, and so one term
without a full stop. Calls on an index leave its records well formed. -/

namespace Quarry

namespace Text

variable {t : Text}

/-- The tokens that are no compounds are those of the runs, each at the place of its run. -/
theorem mem_parts_iff {token : Token} : token ∈ t.tokens ∧ token.compound = false ↔
    ∃ (i : Nat) (r : Run), t.runs[i]? = some r ∧ r.token i = token := by
  have hparts : token ∈ t.tokens ∧ token.compound = false ↔ token ∈ Run.tokens 0 t.runs := by
    rw [← filter_tokens, List.mem_filter, Bool.not_eq_true']
  rw [hparts, List.mem_iff_getElem?]
  simp only [Run.getElem?_tokens, Option.map_eq_some_iff, Nat.zero_add]

/-- As many positions are counted as there are runs. -/
theorem positionCount_eq (t : Text) : t.positionCount = t.runs.length := by
  rw [positionCount, List.countP_eq_length_filter, filter_tokens, ← List.length_map,
    Run.map_term_tokens, List.length_map]

/-- At each position that is counted stands one token that is no compound. -/
theorem existsUnique_part {position : Nat} (h : position < t.positionCount) :
    ∃! token, (token ∈ t.tokens ∧ token.compound = false) ∧ token.position = position := by
  rw [positionCount_eq] at h
  have hrun : t.runs[position]? = some t.runs[position] := List.getElem?_eq_getElem h
  refine ⟨t.runs[position].token position, ⟨mem_parts_iff.2 ⟨_, _, hrun, rfl⟩, rfl⟩, ?_⟩
  rintro token ⟨hpart, hposition⟩
  obtain ⟨i, r, hr, rfl⟩ := mem_parts_iff.1 hpart
  obtain rfl : i = position := hposition
  rw [Option.some.inj (hr.symm.trans hrun)]

end Text

namespace Record

/-- A record names a position under a term. -/
def Has (r : Record) (term : Term) (position : Nat) : Prop :=
  ∃ positions, (term, positions) ∈ r.terms ∧ position ∈ positions

/-- A record whose terms are named once each, with positions that ascend and lie in the document. -/
structure WellFormed (r : Record) : Prop where
  distinct : r.Distinct
  nonempty : ∀ m ∈ r.terms, m.2 ≠ []
  ascending : ∀ m ∈ r.terms, m.2.Pairwise (· < ·)
  inside : ∀ m ∈ r.terms, ∀ position ∈ m.2, position < r.document.length

theorem WellFormed.positions?_iff {r : Record} (h : r.WellFormed) {term : Term}
    {positions : List Nat} :
    r.positions? term = some positions ↔ (term, positions) ∈ r.terms := by
  rw [positions?_eq_some_iff h.distinct]
  exact and_iff_left_of_imp fun hmem => h.nonempty _ hmem

/-! ### Records of documents -/

/-- Adding an occurrence leaves the terms as they are, but for one that has a position more. -/
theorem mem_addPosition {terms : List (Term × List Nat)} {term : Term} {position : Nat}
    {m : Term × List Nat} (h : m ∈ addPosition terms term position) :
    m ∈ terms ∨ ∃ positions, m = (term, positions ++ [position]) := by
  induction terms with
  | nil => exact .inr ⟨[], List.mem_singleton.1 h⟩
  | cons first terms ih =>
    obtain ⟨t, positions⟩ := first
    rw [addPosition] at h
    split at h
    · rename_i heq
      rcases List.mem_cons.1 h with rfl | h
      · exact .inr ⟨positions, by rw [heq]⟩
      · exact .inl (List.mem_cons_of_mem _ h)
    · rcases List.mem_cons.1 h with rfl | h
      · exact .inl List.mem_cons_self
      · exact (ih h).imp_left (List.mem_cons_of_mem _)

/-- No term is named without a position. -/
theorem ne_nil_of_mem_ofTokens {tokens : List Token} : ∀ m ∈ ofTokens tokens, m.2 ≠ [] := by
  refine List.foldlRecOn
    (motive := fun terms : List (Term × List Nat) => ∀ m ∈ terms, m.2 ≠ []) tokens _
    (by simp) fun terms hterms token _ m hm => ?_
  rcases mem_addPosition hm with hm | ⟨positions, rfl⟩
  · exact hterms m hm
  · simp

variable {d : Document}

theorem positions?_ofDocument_of_mem {term : Term} {positions : List Nat}
    (h : (term, positions) ∈ (ofDocument d).terms) :
    (ofDocument d).positions? term = some positions :=
  (positions?_eq_some_iff (distinct_ofDocument d)).2 ⟨h, ne_nil_of_mem_ofTokens _ h⟩

theorem wellFormed_ofDocument (d : Document) : (ofDocument d).WellFormed where
  distinct := distinct_ofDocument d
  nonempty := ne_nil_of_mem_ofTokens
  ascending _ hm := pairwise_lt_positions? (positions?_ofDocument_of_mem hm)
  inside _ hm _ hposition := lt_length_of_mem_positions? (positions?_ofDocument_of_mem hm) hposition

/-- The record of a document names the positions of its tokens, each under the term of the token. -/
theorem has_ofDocument_iff {term : Term} {position : Nat} : (ofDocument d).Has term position ↔
    ∃ token ∈ d.text.tokens, token.term = term ∧ token.position = position := by
  constructor
  · rintro ⟨positions, hmem, hposition⟩
    rw [positions?_ofDocument (positions?_ofDocument_of_mem hmem)] at hposition
    obtain ⟨token, htoken, rfl⟩ := List.mem_map.1 hposition
    obtain ⟨htoken, hterm⟩ := List.mem_filter.1 htoken
    exact ⟨token, htoken, beq_iff_eq.1 hterm, rfl⟩
  · rintro ⟨token, htoken, rfl, rfl⟩
    obtain ⟨positions, hpositions, hmem⟩ := exists_positions?_of_mem_tokens htoken
    exact ⟨positions, ((wellFormed_ofDocument d).positions?_iff).1 hpositions, hmem⟩

/-- At each position of a document stands one term without a full stop. -/
theorem existsUnique_term {position : Nat} (h : position < d.text.positionCount) :
    ∃! term, Word.dot ∉ term ∧ (ofDocument d).Has term position := by
  have hpart : ∀ token ∈ d.text.tokens,
      (Word.dot ∉ token.term ↔ token.compound = false) := fun token htoken =>
    (not_congr (Text.compound_iff htoken)).symm.trans (Bool.not_eq_true _).to_iff
  obtain ⟨token, ⟨⟨htoken, hcompound⟩, hposition⟩, hunique⟩ := Text.existsUnique_part h
  refine ⟨token.term, ⟨(hpart token htoken).2 hcompound,
    has_ofDocument_iff.2 ⟨token, htoken, rfl, hposition⟩⟩, ?_⟩
  rintro term ⟨hdot, hhas⟩
  obtain ⟨token', htoken', rfl, hposition'⟩ := has_ofDocument_iff.1 hhas
  rw [hunique token' ⟨⟨htoken', (hpart token' htoken').1 hdot⟩, hposition'⟩]

end Record

/-! ### Calls -/

/-- All records are well formed. -/
def Records.WellFormed (rs : Records) : Prop :=
  ∀ (id : DocId) (r : Record), rs[id]? = some r → r.WellFormed

/-- A call that inserts no record, or a well-formed one. -/
def Index.Call.WellFormed : Call → Prop
  | .insert r _ => r.WellFormed
  | .add _ | .remove _ | .readPostings _ | .readVocabulary => True

namespace Records.WellFormed

variable {rs : Records} (h : rs.WellFormed)
include h

/-- Calls leave records well formed. -/
theorem call {c : Index.Call} (hc : c.WellFormed) : WellFormed (Records.call rs c) := by
  cases c with
  | add d =>
    rw [Records.call]
    split
    · exact h
    · exact Text.forall_insert h (Record.wellFormed_ofDocument d)
  | insert r _ => exact Text.forall_insert h hc
  | remove id => exact Text.forall_erase h id
  | readPostings _ => exact h
  | readVocabulary => exact h

theorem run {calls : List Index.Call} (hcalls : ∀ c ∈ calls, c.WellFormed) :
    WellFormed (Records.run rs calls) := by
  induction calls generalizing rs with
  | nil => exact h
  | cons c rest ih =>
    obtain ⟨hc, hrest⟩ := List.forall_mem_cons.1 hcalls
    exact ih (h.call hc) hrest

end Records.WellFormed
end Quarry
