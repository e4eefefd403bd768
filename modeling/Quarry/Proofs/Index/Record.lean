import Mathlib.Data.List.Basic
import Quarry.Index.Document
import Quarry.Proofs.Text.Words

/-! Records as maps from terms to positions. The record of a document names each term once, and
under it the positions of the tokens with that term, in the order of the text. -/

namespace Quarry.Record

/-- The positions of a term in a record. A term without positions counts as absent. -/
def positions? (r : Record) (term : Term) : Option (List Nat) := r.held.lookup term

/-- A record names each term once. -/
def Distinct (r : Record) : Prop := (r.terms.map (·.1)).Nodup

theorem nodup_held {r : Record} (h : r.Distinct) : (r.held.map (·.1)).Nodup :=
  h.sublist (List.filter_sublist.map _)

theorem lookup_eq_none {held : List (Term × List Nat)} {term : Term} (h : term ∉ held.map (·.1)) :
    held.lookup term = none := by
  refine List.lookup_eq_none_iff.2 fun pair hpair => ?_
  have hne : term ≠ pair.1 := fun heq => h (List.mem_map.2 ⟨pair, hpair, heq.symm⟩)
  simpa using hne

theorem exists_positions?_of_mem {r : Record} {term : Term} (h : term ∈ r.held.map (·.1)) :
    ∃ positions, r.positions? term = some positions := by
  refine Option.ne_none_iff_exists'.1 fun hnone => ?_
  rw [Record.positions?, List.lookup_eq_none_iff] at hnone
  obtain ⟨pair, hpair, rfl⟩ := List.mem_map.1 h
  simpa using hnone pair hpair

theorem mem_of_lookup {held : List (Term × List Nat)} {term : Term} {positions : List Nat}
    (h : held.lookup term = some positions) : (term, positions) ∈ held := by
  obtain ⟨before, after, rfl, -⟩ := List.lookup_eq_some_iff.1 h
  simp

theorem positions?_ne_nil {r : Record} {term : Term} {positions : List Nat}
    (h : r.positions? term = some positions) : positions ≠ [] := by
  have := (List.mem_filter.1 (mem_of_lookup h)).2
  simpa using this

/-! ### Records of tokens -/

theorem map_fst_addPosition (terms : List (Term × List Nat)) (term : Term) (position : Nat) :
    (addPosition terms term position).map (·.1) =
      if term ∈ terms.map (·.1) then terms.map (·.1) else terms.map (·.1) ++ [term] := by
  induction terms with
  | nil => rfl
  | cons pair terms ih =>
    obtain ⟨t, positions⟩ := pair
    rw [addPosition]
    split
    · rename_i heq
      simp [heq]
    · rename_i hne
      rw [List.map_cons, ih]
      grind

theorem lookup_addPosition (terms : List (Term × List Nat)) (term : Term) (position : Nat)
    (term' : Term) : (addPosition terms term position).lookup term' =
      if term = term' then some ((terms.lookup term).getD [] ++ [position])
      else terms.lookup term' := by
  induction terms with
  | nil => grind [addPosition]
  | cons pair terms ih =>
    obtain ⟨t, positions⟩ := pair
    rw [addPosition]
    grind

theorem nodup_ofTokens (tokens : List Token) : ((ofTokens tokens).map (·.1)).Nodup := by
  have step : ∀ (tokens : List Token) (terms : List (Term × List Nat)), (terms.map (·.1)).Nodup →
      ((tokens.foldl (fun terms token => addPosition terms token.term token.position) terms).map
        (·.1)).Nodup := by
    intro tokens
    induction tokens with
    | nil => exact fun terms h => h
    | cons token tokens ih =>
      intro terms h
      refine ih _ ?_
      rw [map_fst_addPosition]
      split
      · exact h
      · rename_i hnew
        exact List.nodup_append.2 ⟨h, by simp, by grind⟩
  exact step tokens [] List.nodup_nil

theorem distinct_ofDocument (d : Document) : (Record.ofDocument d).Distinct :=
  nodup_ofTokens _

theorem lookup_of_mem {held : List (Term × List Nat)} (h : (held.map (·.1)).Nodup) {term : Term}
    {positions : List Nat} (hmem : (term, positions) ∈ held) :
    held.lookup term = some positions := by
  obtain ⟨before, after, rfl⟩ := List.append_of_mem hmem
  refine List.lookup_eq_some_iff.2 ⟨before, after, rfl, fun pair hpair => ?_⟩
  rw [List.map_append, List.map_cons, List.nodup_append] at h
  have hne := h.2.2 pair.1 (List.mem_map_of_mem hpair) term (List.mem_cons_self ..)
  simpa using Ne.symm hne

/-- The positions of a term are those that the record names for it, if there are any. -/
theorem positions?_eq_some_iff {r : Record} (h : r.Distinct) {term : Term} {positions : List Nat} :
    r.positions? term = some positions ↔ (term, positions) ∈ r.terms ∧ positions ≠ [] := by
  constructor
  · exact fun hp => ⟨(List.mem_filter.1 (mem_of_lookup hp)).1, positions?_ne_nil hp⟩
  · rintro ⟨hmem, hne⟩
    refine lookup_of_mem (nodup_held h) (List.mem_filter.2 ⟨hmem, ?_⟩)
    simpa using hne

/-- Adding tokens appends the positions of those with the term. -/
theorem lookup_foldl_addPosition (tokens : List Token) (terms : List (Term × List Nat))
    (term : Term) :
    ((tokens.foldl (fun terms token => addPosition terms token.term token.position) terms).lookup
        term).getD [] =
      (terms.lookup term).getD [] ++ (tokens.filter (·.term == term)).map (·.position) := by
  induction tokens generalizing terms with
  | nil => simp
  | cons token tokens ih =>
    rw [List.foldl_cons, ih, lookup_addPosition, List.filter_cons]
    by_cases heq : token.term = term <;> simp [heq]

theorem positions?_ofDocument {d : Document} {term : Term} {positions : List Nat}
    (h : (Record.ofDocument d).positions? term = some positions) :
    positions = (d.text.tokens.filter (·.term == term)).map (·.position) := by
  have hmem : (term, positions) ∈ (Record.ofDocument d).terms :=
    (List.mem_filter.1 (mem_of_lookup h)).1
  have hlookup := lookup_of_mem (distinct_ofDocument d) hmem
  have hpositions := lookup_foldl_addPosition d.text.tokens [] term
  change ((Record.ofDocument d).terms.lookup term).getD [] = _ at hpositions
  rw [hlookup] at hpositions
  simpa using hpositions

/-- The record of a document has the position of each token. -/
theorem exists_positions?_of_mem_tokens {d : Document} {token : Token} (h : token ∈ d.text.tokens) :
    ∃ positions, (Record.ofDocument d).positions? token.term = some positions ∧
      token.position ∈ positions := by
  have hposition : token.position ∈
      (d.text.tokens.filter (·.term == token.term)).map (·.position) :=
    List.mem_map_of_mem (List.mem_filter.2 ⟨h, beq_self_eq_true _⟩)
  have hlookup := lookup_foldl_addPosition d.text.tokens [] token.term
  change ((Record.ofDocument d).terms.lookup token.term).getD [] = _ at hlookup
  cases hfound : (Record.ofDocument d).terms.lookup token.term with
  | none =>
    rw [hfound] at hlookup
    rw [← List.nil_append (List.map _ _), ← show [] = [] ++ _ from hlookup] at hposition
    cases hposition
  | some positions =>
    rw [hfound] at hlookup
    rw [← List.nil_append (List.map _ _), ← show positions = [] ++ _ from hlookup] at hposition
    exact ⟨positions, (positions?_eq_some_iff (distinct_ofDocument d)).2
      ⟨mem_of_lookup hfound, List.ne_nil_of_mem hposition⟩, hposition⟩

/-- A term of the record is that of a token. -/
theorem exists_token_of_positions? {d : Document} {term : Term} {positions : List Nat}
    (h : (Record.ofDocument d).positions? term = some positions) :
    ∃ token ∈ d.text.tokens, token.term = term := by
  obtain ⟨position, rest, hcons⟩ := List.exists_cons_of_ne_nil (positions?_ne_nil h)
  have hmem : position ∈ positions := hcons ▸ List.mem_cons_self
  rw [positions?_ofDocument h] at hmem
  obtain ⟨token, htoken, -⟩ := List.mem_map.1 hmem
  exact ⟨token, (List.mem_filter.1 htoken).1, beq_iff_eq.1 (List.mem_filter.1 htoken).2⟩

/-- In the record of a document the positions of a term ascend strictly. -/
theorem pairwise_lt_positions? {d : Document} {term : Term} {positions : List Nat}
    (h : (Record.ofDocument d).positions? term = some positions) :
    positions.Pairwise (· < ·) := by
  rw [positions?_ofDocument h, List.pairwise_map]
  refine List.Pairwise.imp_of_mem ?_ (d.text.pairwise_tokens.filter _)
  intro a b ha hb hascending
  have hterm : ∀ token ∈ d.text.tokens.filter (·.term == term),
      token.term = term := fun token htoken =>
    beq_iff_eq.1 (List.mem_filter.1 htoken).2
  exact hascending ((hterm a ha).trans (hterm b hb).symm)

theorem pairwise_positions? {d : Document} {term : Term} {positions : List Nat}
    (h : (Record.ofDocument d).positions? term = some positions) :
    positions.Pairwise (· ≤ ·) :=
  (pairwise_lt_positions? h).imp Nat.le_of_lt

/-- The positions of a document's record lie in the document. -/
theorem lt_length_of_mem_positions? {d : Document} {term : Term} {positions : List Nat}
    (h : (Record.ofDocument d).positions? term = some positions) {n : Nat} (hn : n ∈ positions) :
    n < (Record.ofDocument d).document.length := by
  rw [positions?_ofDocument h] at hn
  obtain ⟨token, htoken, rfl⟩ := List.mem_map.1 hn
  exact Text.position_lt_positionCount (List.mem_filter.1 htoken).1

end Quarry.Record
