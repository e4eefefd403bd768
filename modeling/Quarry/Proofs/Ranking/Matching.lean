import Mathlib.Algebra.Order.Group.Nat
import Quarry.Proofs.Index.Reachable
import Quarry.Proofs.Positions.Consecutive
import Quarry.Proofs.Positions.CoverSpan
import Quarry.Proofs.Ranking.Evaluation
import Quarry.Proofs.Ranking.RankOrder
import Quarry.Proofs.Ranking.Scores

/-! Which documents a query matches, said without any of the means by which they are found, and that
a search finds these and names each once. -/

namespace Quarry

namespace Index

/-- The term stands at the position in the document. -/
def Occurs (ix : Index) (id : DocId) (term : Term) (position : Nat) : Prop :=
  ∃ p, ix.posting? term id = some p ∧ position ∈ p.positions

/-- Whether a document matches a query when a stem stands for at most `expansions` terms. A negation
only takes away from the conjunction it is a child of. -/
def Matches (expansions : Option Nat) (ix : Index) (id : DocId) : Query → Prop
  | .term t => (ix.posting? t id).isSome
  | .stem stem => ∃ t ∈ takeBound expansions (ix.vocabulary.filter (·.startsWith stem)),
    (ix.posting? t id).isSome
  | .phrase terms => terms ≠ [] ∧ ∃ p : Nat, ∀ i t, terms[i]? = some t → ix.Occurs id t (p + i)
  | .near terms distance =>
    terms ≠ [] ∧ ∃ chosen : List Nat, List.Forall₂ (ix.Occurs id) terms chosen ∧
      ∃ width, Positions.spread chosen = some width ∧ distance.admits width = true
  | .and children => (∃ q ∈ children, q.isNegation = false) ∧
    (∀ q, (_ : q ∈ children) → q.isNegation = false → Matches expansions ix id q) ∧
      ∀ q, (_ : .not q ∈ children) → ¬Matches expansions ix id q
  | .or children => ∃ q, ∃ _ : q ∈ children, q.isNegation = false ∧ Matches expansions ix id q
  | .not _ => False
termination_by q => sizeOf q
decreasing_by
  · exact Query.sizeOf_lt_of_mem_and ‹_›
  · exact Query.sizeOf_lt_of_not_mem_and ‹_›
  · exact Query.sizeOf_lt_of_mem_or ‹_›

theorem posting?_eq (ix : Index) (term : Term) (id : DocId) :
    ix.posting? term id = (ix.positions? term id).map fun positions => ⟨id, positions⟩ := by
  rw [posting?, positions?]
  cases ix.postings[term]? with
  | none => rfl
  | some holders => cases hp : holders[id]? <;> simp [hp]

theorem isSome_posting?_iff {ix : Index} (h : ix.Listed) (term : Term) (id : DocId) :
    (ix.posting? term id).isSome ↔ ∃ p ∈ ix.postingsOf term, p.docId = id := by
  rw [posting?_eq, Option.isSome_map, Option.isSome_iff_exists]
  constructor
  · rintro ⟨positions, hpositions⟩
    exact ⟨⟨id, positions⟩, (h.postings term _).2 hpositions, rfl⟩
  · rintro ⟨p, hp, rfl⟩
    exact ⟨p.positions, (h.postings term p).1 hp⟩

end Index

theorem mapM_eq_some_iff {β γ : Type} {f : β → Option γ} {items : List β} {images : List γ} :
    items.mapM f = some images ↔ List.Forall₂ (fun x y => f x = some y) items images := by
  induction items generalizing images with
  | nil => simp [eq_comm]
  | cons x items ih =>
    rw [List.mapM_cons]
    cases images with
    | nil => simp [Option.bind_eq_some_iff]
    | cons y images => simp [Option.bind_eq_some_iff, ih]

namespace Bm25

variable {α : Type} [Scalar α] (tuning : Tuning α)

theorem names_termScores {ix : Index} (h : ix.Listed) (term : Term) :
    (names (termScores tuning ix term)).Nodup ∧
      ∀ id, id ∈ names (termScores tuning ix term) ↔ (ix.posting? term id).isSome := by
  have hnames : names (termScores tuning ix term) = (ix.postingsOf term).map (·.docId) := by
    simp [termScores, names, List.map_map, Function.comp_def]
  rw [hnames]
  refine ⟨h.nodup term, fun id => ?_⟩
  rw [Index.isSome_posting?_iff h, List.mem_map]

theorem shortest_mem {β : Type} (first : List β) (others : List (List β)) :
    shortest first others ∈ first :: others := by
  induction others generalizing first with
  | nil => exact List.mem_singleton_self _
  | cons list others ih =>
    rw [shortest, List.foldl_cons]
    have hmem := ih (if list.length < first.length then list else first)
    rw [shortest] at hmem
    split at hmem <;> grind

theorem isSome_candidate_iff {β : Type} {ix : Index} {terms : List Term} {id : DocId}
    {accept : List (List Nat) → Bool} {total : List Posting → β} :
    (do
      let postings ← terms.mapM fun term => ix.posting? term id
      if accept (postings.map Posting.positions) then some (total postings) else none).isSome ↔
      ∃ postings, List.Forall₂ (fun term p => ix.posting? term id = some p) terms postings ∧
        accept (postings.map (·.positions)) = true := by
  simp only [Option.isSome_iff_exists, bind, Option.bind_eq_some_iff, mapM_eq_some_iff]
  constructor
  · rintro ⟨_, postings, hpostings, hsome⟩
    split at hsome
    · exact ⟨postings, hpostings, ‹_›⟩
    · cases hsome
  · rintro ⟨postings, hpostings, haccept⟩
    exact ⟨_, postings, hpostings, if_pos haccept⟩

theorem exists_mem_postingsOf {ix : Index} (h : ix.Listed) {id : DocId} {terms : List Term}
    {postings : List Posting}
    (hpostings : List.Forall₂ (fun term p => ix.posting? term id = some p) terms postings) :
    ∀ term ∈ terms, ∃ p ∈ ix.postingsOf term, p.docId = id := by
  intro term hterm
  obtain ⟨hlength, hget⟩ := List.forall₂_iff_get.1 hpostings
  obtain ⟨i, hi, rfl⟩ := List.getElem_of_mem hterm
  exact (Index.isSome_posting?_iff h _ id).1 (Option.isSome_of_eq_some (hget i hi (hlength ▸ hi)))

theorem names_structural {ix : Index} (h : ix.Listed) (terms : List Term)
    (accept : List (List Nat) → Bool) :
    (names (structural tuning ix terms accept)).Nodup ∧
      ∀ id, id ∈ names (structural tuning ix terms accept) ↔ terms ≠ [] ∧ ∃ postings,
        List.Forall₂ (fun term p => ix.posting? term id = some p) terms postings ∧
          accept (postings.map (·.positions)) = true := by
  rw [structural]
  split
  · rename_i hnil
    simp [names, List.map_eq_nil_iff.1 hnil]
  · rename_i first others hlists
    have hmem : ∀ list, list ∈ first :: others ↔ ∃ term ∈ terms, ix.postingsOf term = list := by
      intro list
      rw [← hlists, List.mem_map]
    have hne : terms ≠ [] := by
      rintro rfl
      cases hlists
    split
    · rename_i hempty
      obtain ⟨list, hlist, hnil⟩ := List.any_eq_true.1 hempty
      obtain ⟨term, hterm, rfl⟩ := (hmem list).1 hlist
      refine ⟨List.nodup_nil, fun id => iff_of_false (by simp [names]) ?_⟩
      rintro ⟨-, postings, hpostings, -⟩
      obtain ⟨p, hp, -⟩ := exists_mem_postingsOf h hpostings term hterm
      rw [List.isEmpty_iff.1 hnil] at hp
      cases hp
    · obtain ⟨driving, hdriving, hdriver⟩ := (hmem _).1 (shortest_mem first others)
      rw [← hdriver, names_filterMap Posting.docId ?_]
      · refine ⟨(h.nodup driving).sublist (List.filter_sublist.map _), fun id => ?_⟩
        rw [List.mem_map, and_iff_right hne]
        simp only [List.mem_filter, isSome_candidate_iff]
        constructor
        · rintro ⟨candidate, ⟨-, hpostings⟩, rfl⟩
          exact hpostings
        · rintro ⟨postings, hpostings, haccept⟩
          obtain ⟨p, hp, rfl⟩ := exists_mem_postingsOf h hpostings driving hdriving
          exact ⟨p, ⟨hp, postings, hpostings, haccept⟩, rfl⟩
      · intro candidate pair hpair
        obtain ⟨postings, -, hpair⟩ := Option.bind_eq_some_iff.1 hpair
        split at hpair
        · cases hpair
          rfl
        · cases hpair

/-! ### Phrases and proximity -/

theorem admits_of_le {bound : Number} {m n : Nat} (hmn : m ≤ n) (h : bound.admits n = true) :
    bound.admits m = true := by
  cases bound with
  | whole k => simpa [Number.admits] using hmn.trans (by simpa [Number.admits] using h)
  | real x =>
    rw [Number.admits] at h ⊢
    split at h
    · rfl
    · rename_i negative mantissa exponent _
      cases negative with
      | true =>
        simp only [if_true, Bool.and_eq_true, decide_eq_true_eq] at h ⊢
        exact ⟨by omega, h.2⟩
      | false =>
        simp only [Bool.false_eq_true, if_false, decide_eq_true_eq] at h ⊢
        exact (Nat.mul_le_mul_right _ hmn).trans h
    · exact h

/-- The least spread of a choice is within a distance exactly if some spread is. -/
theorem withinDistance_iff {lists : List (List Nat)} (hne : lists ≠ [])
    (held : ∀ positions ∈ lists, positions ≠ []) (distance : Number) :
    withinDistance distance (Positions.coverSpan lists) = true ↔
      ∃ width ∈ Positions.spreads lists, distance.admits width = true := by
  obtain ⟨width, hspan⟩ := Option.isSome_iff_exists.1
    (Positions.isSome_coverSpan_iff.2 (Positions.spreads_nonempty hne held))
  obtain ⟨hmem, hleast⟩ := Positions.coverSpan_eq_some_iff.1 hspan
  rw [hspan, withinDistance]
  constructor
  · exact fun hadmits => ⟨width, hmem, hadmits⟩
  · rintro ⟨wider, hwider, hadmits⟩
    exact admits_of_le (hleast hwider) hadmits

/-- Terms occur at chosen positions exactly if the positions are chosen from their postings. -/
theorem forall₂_occurs_iff {ix : Index} {id : DocId} {terms : List Term} {chosen : List Nat} :
    List.Forall₂ (ix.Occurs id) terms chosen ↔ ∃ postings,
      List.Forall₂ (fun term p => ix.posting? term id = some p) terms postings ∧
        Positions.Choice (postings.map (·.positions)) chosen := by
  constructor
  · intro h
    induction h with
    | nil => exact ⟨[], .nil, .nil⟩
    | cons hoccurs _ ih =>
      obtain ⟨p, hp, hposition⟩ := hoccurs
      obtain ⟨postings, hpostings, hchoice⟩ := ih
      exact ⟨p :: postings, .cons hp hpostings, .cons hposition hchoice⟩
  · rintro ⟨postings, hpostings, hchoice⟩
    induction hpostings generalizing chosen with
    | nil =>
      obtain rfl := List.forall₂_nil_right_iff.1 hchoice
      exact .nil
    | cons hp _ ih =>
      obtain ⟨position, rest, hposition, hrest, rfl⟩ := List.forall₂_cons_right_iff.1 hchoice
      exact .cons ⟨_, hp, hposition⟩ (ih hrest)

theorem forall₂_range'_iff {β : Type} {R : β → Nat → Prop} {items : List β} {start : Nat} :
    List.Forall₂ R items (List.range' start items.length) ↔
      ∀ i x, items[i]? = some x → R x (start + i) := by
  rw [List.forall₂_iff_get]
  simp only [List.length_range', List.get_eq_getElem, List.getElem_range', true_and, Nat.one_mul,
    List.getElem?_eq_some_iff]
  constructor
  · rintro h i x ⟨hi, rfl⟩
    exact h i hi hi
  · exact fun h i hi _ => h i _ ⟨hi, rfl⟩

theorem held_of_postings {ix : Index} {id : DocId} (h : ix.Ascending id) {terms : List Term}
    {postings : List Posting}
    (hpostings : List.Forall₂ (fun term p => ix.posting? term id = some p) terms postings) :
    ∀ positions ∈ postings.map (·.positions), positions ≠ [] ∧ positions.Pairwise (· ≤ ·) := by
  induction hpostings with
  | nil => simp
  | @cons term p _ _ hp _ ih =>
    rw [Index.posting?_eq, Option.map_eq_some_iff] at hp
    obtain ⟨positions, hpositions, rfl⟩ := hp
    rw [List.map_cons, List.forall_mem_cons]
    exact ⟨h term positions hpositions, ih⟩

theorem map_positions_ne_nil {ix : Index} {id : DocId} {terms : List Term} (hne : terms ≠ [])
    {postings : List Posting}
    (hpostings : List.Forall₂ (fun term p => ix.posting? term id = some p) terms postings) :
    postings.map (·.positions) ≠ [] := by
  rw [Ne, List.map_eq_nil_iff]
  rintro rfl
  exact hne (List.forall₂_nil_right_iff.1 hpostings)

/-- What is accepted of postings for a choice from them is a choice of occurrences. -/
theorem accepts_iff {ix : Index} {id : DocId} {terms : List Term} (accept : List (List Nat) → Bool)
    {wanted : List Nat → Prop} (haccept : ∀ postings,
      List.Forall₂ (fun term p => ix.posting? term id = some p) terms postings →
        (accept (postings.map (·.positions)) = true ↔
          ∃ chosen, Positions.Choice (postings.map (·.positions)) chosen ∧ wanted chosen)) :
    (∃ postings, List.Forall₂ (fun term p => ix.posting? term id = some p) terms postings ∧
        accept (postings.map (·.positions)) = true) ↔
      ∃ chosen, List.Forall₂ (ix.Occurs id) terms chosen ∧ wanted chosen := by
  simp only [forall₂_occurs_iff]
  constructor
  · rintro ⟨postings, hpostings, haccepted⟩
    obtain ⟨chosen, hchoice, hwanted⟩ := (haccept postings hpostings).1 haccepted
    exact ⟨chosen, ⟨postings, hpostings, hchoice⟩, hwanted⟩
  · rintro ⟨chosen, ⟨postings, hpostings, hchoice⟩, hwanted⟩
    exact ⟨postings, hpostings, (haccept postings hpostings).2 ⟨chosen, hchoice, hwanted⟩⟩

theorem accepts_near_iff {ix : Index} {id : DocId} (h : ix.Ascending id) {terms : List Term}
    (hne : terms ≠ []) {distance : Number} : (∃ postings,
      List.Forall₂ (fun term p => ix.posting? term id = some p) terms postings ∧
        withinDistance distance (Positions.coverSpan (postings.map (·.positions))) = true) ↔
      ∃ chosen, List.Forall₂ (ix.Occurs id) terms chosen ∧
        ∃ width, Positions.spread chosen = some width ∧ distance.admits width = true := by
  refine accepts_iff (fun lists => withinDistance distance (Positions.coverSpan lists))
    fun postings hpostings => ?_
  rw [withinDistance_iff (map_positions_ne_nil hne hpostings)
    (fun ps hps => (held_of_postings h hpostings ps hps).1) distance]
  constructor
  · rintro ⟨width, ⟨chosen, hchoice, hspread⟩, hadmits⟩
    exact ⟨chosen, hchoice, width, hspread, hadmits⟩
  · rintro ⟨chosen, hchoice, width, hspread, hadmits⟩
    exact ⟨width, ⟨chosen, hchoice, hspread⟩, hadmits⟩

theorem accepts_phrase_iff {ix : Index} {id : DocId} (h : ix.Ascending id) {terms : List Term}
    (hne : terms ≠ []) : (∃ postings,
      List.Forall₂ (fun term p => ix.posting? term id = some p) terms postings ∧
        Positions.consecutive (postings.map (·.positions)) = true) ↔
      ∃ start : Nat, ∀ i t, terms[i]? = some t → ix.Occurs id t (start + i) := by
  simp only [← forall₂_range'_iff]
  have hchosen : (∃ start, List.Forall₂ (ix.Occurs id) terms (List.range' start terms.length)) ↔
      ∃ chosen, List.Forall₂ (ix.Occurs id) terms chosen ∧
        ∃ start, chosen = List.range' start terms.length := by
    constructor
    · rintro ⟨start, hoccurs⟩
      exact ⟨_, hoccurs, start, rfl⟩
    · rintro ⟨_, hoccurs, start, rfl⟩
      exact ⟨start, hoccurs⟩
  rw [hchosen]
  refine accepts_iff Positions.consecutive fun postings hpostings => ?_
  rw [Positions.consecutive_iff fun ps hps => (held_of_postings h hpostings ps hps).2,
    and_iff_right (map_positions_ne_nil hne hpostings)]
  simp only [← forall₂_range'_iff, List.length_map, ← hpostings.length_eq]
  constructor
  · rintro ⟨start, hchoice⟩
    exact ⟨_, hchoice.flip, start, rfl⟩
  · rintro ⟨_, hchoice, start, rfl⟩
    exact ⟨start, hchoice.flip⟩

/-- Scores name each document once, in any index that lists its postings. -/
theorem nodup_evaluate {ix : Index} (h : ix.Listed) (q : Query) :
    (names (evaluate tuning ix q)).Nodup := by
  induction q using Query.induction with
  | term t =>
    rw [evaluate]
    exact (names_termScores tuning h t).1
  | phrase ts | near ts _ =>
    rw [evaluate]
    exact (names_structural tuning h ts _).1
  | stem stem =>
    rw [evaluate]
    exact nodup_union _
  | not child _ =>
    rw [evaluate]
    exact List.nodup_nil
  | and children ih _ =>
    rw [evaluate, evaluatePositives_eq]
    refine nodup_conjunction fun part hpart => ?_
    obtain ⟨q, hq, rfl⟩ := List.mem_map.1 hpart
    exact ih q (List.mem_filter.1 hq).1
  | or children _ =>
    rw [evaluate]
    exact nodup_union _

/-- The documents that a query names are those that match it. -/
theorem mem_names_evaluate {ix : Index} (h : ix.Searchable) (q : Query) (id : DocId) :
    id ∈ names (evaluate tuning ix q) ↔ ix.Matches tuning.expansions id q := by
  induction q using Query.induction with
  | term t =>
    rw [evaluate, Index.Matches]
    exact (names_termScores tuning h.toListed t).2 id
  | phrase ts =>
    rw [evaluate, (names_structural tuning h.toListed ts _).2, Index.Matches]
    exact and_congr_right fun hne => accepts_phrase_iff (h.ascending · id) hne
  | stem stem =>
    rw [evaluate, mem_names_union, Index.Matches, Index.expand_eq h.vocabulary]
    simp only [List.mem_map, exists_exists_and_eq_and, (names_termScores tuning h.toListed _).2]
  | near ts distance =>
    rw [evaluate, (names_structural tuning h.toListed ts _).2, Index.Matches]
    exact and_congr_right fun hne => accepts_near_iff (h.ascending · id) hne
  | not child _ =>
    rw [evaluate]
    simp [names, Index.Matches]
  | and children ihc ihn =>
    -- A negation matches nothing by itself: what is taken away are the matches of what it negates.
    rw [mem_names_evaluate_and, Index.Matches]
    refine and_congr_right fun _ => and_congr ?_ ?_
    · exact forall₃_congr fun q hq _ => ihc q hq
    · exact forall₂_congr fun q hq => not_congr (ihn q hq)
  | or children ih =>
    rw [mem_names_evaluate_or, Index.Matches]
    constructor
    · rintro ⟨q, hq, hpositive, hid⟩
      exact ⟨q, hq, hpositive, (ih q hq).1 hid⟩
    · rintro ⟨q, hq, hpositive, hmatches⟩
      exact ⟨q, hq, hpositive, (ih q hq).2 hmatches⟩

/-- A document that matches a query holds a term that the query names outside negations. -/
theorem exists_named_of_matches {expansions : Option Nat} {ix : Index}
    (hvocabulary : ix.vocabulary.Pairwise fun a b => compare a b = .lt) {id : DocId} {q : Query}
    (h : ix.Matches expansions id q) :
    ∃ t ∈ namedTerms expansions ix q, (ix.posting? t id).isSome := by
  have hoccurs : ∀ {t : Term} {position : Nat}, ix.Occurs id t position →
      (ix.posting? t id).isSome := by
    rintro t position ⟨p, hp, -⟩
    exact Option.isSome_of_eq_some hp
  induction q using Query.induction with
  | term t =>
    rw [Index.Matches] at h
    exact ⟨t, List.mem_singleton_self t, h⟩
  | phrase ts =>
    rw [Index.Matches] at h
    obtain ⟨hne, start, hstart⟩ := h
    obtain ⟨t, rest, rfl⟩ := List.exists_cons_of_ne_nil hne
    exact ⟨t, List.mem_cons_self, hoccurs (hstart 0 t rfl)⟩
  | stem stem =>
    rw [Index.Matches] at h
    rw [namedTerms, Index.expand_eq hvocabulary]
    exact h
  | near ts distance =>
    rw [Index.Matches] at h
    obtain ⟨hne, chosen, hchosen, -⟩ := h
    cases hchosen with
    | nil => exact absurd rfl hne
    | cons ht _ => exact ⟨_, List.mem_cons_self, hoccurs ht⟩
  | not child _ => simp [Index.Matches] at h
  | and children ih _ =>
    rw [Index.Matches] at h
    obtain ⟨⟨q, hq, hpositive⟩, hall, -⟩ := h
    obtain ⟨t, ht, hposting⟩ := ih q hq (hall q hq hpositive)
    rw [namedTerms, namedTermsOfAll_eq]
    exact ⟨t, List.mem_flatten_of_mem (List.mem_map_of_mem hq) ht, hposting⟩
  | or children ih =>
    rw [Index.Matches] at h
    obtain ⟨q, hq, -, hmatches⟩ := h
    obtain ⟨t, ht, hposting⟩ := ih q hq hmatches
    rw [namedTerms, namedTermsOfAll_eq]
    exact ⟨t, List.mem_flatten_of_mem (List.mem_map_of_mem hq) ht, hposting⟩

/-- A document that matches a query holds one of the terms that are matched. -/
theorem exists_matched_of_matches {expansions : Option Nat} {ix : Index}
    (hvocabulary : ix.vocabulary.Pairwise fun a b => compare a b = .lt) {id : DocId} {q : Query}
    (h : ix.Matches expansions id q) :
    ∃ t ∈ matchedTerms expansions ix q, (ix.posting? t id).isSome := by
  obtain ⟨t, hnamed, hposting⟩ := exists_named_of_matches hvocabulary h
  refine ⟨t, List.mem_filter.2 ⟨List.mem_eraseDups.2 hnamed, ?_⟩, hposting⟩
  rw [Index.hasTerm, ← Std.TreeMap.isSome_getElem?_eq_contains]
  rw [Index.posting?] at hposting
  cases hholders : ix.postings[t]? with
  | none =>
    rw [hholders] at hposting
    cases hposting
  | some holders => rfl

theorem perm_ranked (scores : Scores α) :
    ((rankSort (Scalar.ranksBefore Scored.score Scored.docId)
      (scores.map fun (id, score) => ⟨id, score⟩)).map Scored.docId).Perm (names scores) := by
  have hnames : (scores.map fun entry => (⟨entry.1, entry.2⟩ : Scored α)).map Scored.docId =
      names scores := by
    rw [List.map_map, names]
    rfl
  rw [← hnames]
  exact (rankSort_perm _ _).map Scored.docId

theorem nodup_score {ix : Index} (h : ix.Listed) (q : Query) :
    ((score tuning ix q).map (·.docId)).Nodup := by
  rw [score]
  split
  · exact List.nodup_nil
  · exact (perm_ranked _).nodup_iff.2 (nodup_evaluate tuning h q)

theorem names_score {ix : Index} (h : ix.Searchable) (q : Query) :
    ((score tuning ix q).map (·.docId)).Nodup ∧
      ∀ id, id ∈ (score tuning ix q).map (·.docId) ↔ ix.Matches tuning.expansions id q := by
  rw [score]
  split
  · rename_i hcount
    refine ⟨List.nodup_nil, fun id => iff_of_false (by simp) fun hmatches => ?_⟩
    obtain ⟨t, -, hposting⟩ := exists_named_of_matches h.vocabulary hmatches
    rw [Index.posting?_eq, h.absent hcount] at hposting
    cases hposting
  · have hperm := perm_ranked (evaluate tuning ix q)
    exact ⟨hperm.nodup_iff.2 (nodup_evaluate tuning h.toListed q),
      fun id => hperm.mem_iff.trans (mem_names_evaluate tuning h q id)⟩

/-- A search ranks the documents that match the query, each once. -/
theorem score_matches {ix : Index} (h : ix.Reachable) (q : Query) :
    ((score tuning ix q).map (·.docId)).Nodup ∧
      ∀ id, id ∈ (score tuning ix q).map (·.docId) ↔ ix.Matches tuning.expansions id q :=
  names_score tuning h.searchable q

/-- A document `d` with the text `a b` is found by the phrase `a b`. -/
theorem score_matches_phrase : [100] ∈ (score (⟨1.2, 0.75, some 50⟩ : Tuning Float)
    (Index.empty.add ⟨[100], [97, 32, 98], []⟩) (.phrase [[97], [98]])).map (·.docId) := by
  have hreachable : (Index.empty.add ⟨[100], [97, 32, 98], []⟩).Reachable :=
    .add (d := ⟨[100], [97, 32, 98], []⟩) (.empty 0) rfl
  refine ((score_matches _ hreachable _).2 [100]).2 ?_
  rw [Index.Matches]
  refine ⟨List.cons_ne_nil _ _, 0, fun i t ht => ?_⟩
  match i, ht with
  | 0, rfl => exact ⟨⟨[100], [0]⟩, by decide +kernel, by decide⟩
  | 1, rfl => exact ⟨⟨[100], [1]⟩, by decide +kernel, by decide⟩

end Bm25
end Quarry
