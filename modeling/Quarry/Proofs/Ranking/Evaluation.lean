import Quarry.Proofs.Index.Records
import Quarry.Proofs.Query.Induction
import Quarry.Proofs.Ranking.Scores

/-! How a query is evaluated, child by child, and that its scores depend on nothing but what the
index answers. -/

namespace Quarry.Bm25

section

variable {α : Type} [Scalar α] (tuning : Tuning α) (ix : Index)

theorem evaluatePositives_eq (children : List Query) :
    evaluate.evaluatePositives tuning ix children =
      (children.filter (!·.isNegation)).map (evaluate tuning ix) := by
  induction children with
  | nil => rfl
  | cons q rest ih => cases q <;> simp [evaluate.evaluatePositives, Query.isNegation, ih]

theorem evaluateNegatives_eq (children : List Query) :
    evaluate.evaluateNegatives tuning ix children =
      (children.filterMap Query.negated?).map (evaluate tuning ix) := by
  induction children with
  | nil => rfl
  | cons q rest ih =>
    cases q <;> simp [evaluate.evaluateNegatives, Query.negated?, List.filterMap_cons, ih]

variable {tuning ix} {children : List Query} {id : DocId}

/-- What a conjunction names is in all of its children that are no negations, of which there is one,
and in nothing that they negate. -/
theorem mem_names_evaluate_and : id ∈ names (evaluate tuning ix (.and children)) ↔
    (∃ q ∈ children, q.isNegation = false) ∧
      (∀ q ∈ children, q.isNegation = false → id ∈ names (evaluate tuning ix q)) ∧
        ∀ q, .not q ∈ children → id ∉ names (evaluate tuning ix q) := by
  rw [evaluate, evaluatePositives_eq, evaluateNegatives_eq, mem_names_conjunction]
  refine and_congr ?_ (and_congr ?_ ?_)
  · rw [Ne, List.map_eq_nil_iff, List.filter_eq_nil_iff]
    simp
  · simp only [List.forall_mem_map, List.mem_filter, Bool.not_eq_eq_eq_not, Bool.not_true, and_imp]
  · simp only [List.forall_mem_map, Query.mem_filterMap_negated?]

/-- What a disjunction names is in one of its children that are no negations. -/
theorem mem_names_evaluate_or : id ∈ names (evaluate tuning ix (.or children)) ↔
    ∃ q ∈ children, q.isNegation = false ∧ id ∈ names (evaluate tuning ix q) := by
  rw [evaluate, evaluatePositives_eq, mem_names_union]
  simp only [List.mem_map, exists_exists_and_eq_and]
  simp only [List.mem_filter, Bool.not_eq_eq_eq_not, Bool.not_true, and_assoc]

end

section

variable {α : Type} [Scalar α] (tuning : Tuning α) {ix ix' : Index}
    (h : ix.answers α = ix'.answers α)
include h

theorem weight_congr (count : Nat) : (weight ix count : α) = weight ix' count := by
  have hcount : ix.documentCount = ix'.documentCount := congrArg (·.documentCount) h
  rw [weight, hcount, weight]

theorem postingScore_congr (idf : α) (p : Posting) :
    postingScore tuning ix idf p = postingScore tuning ix' idf p := by
  have hlength : ix.documentLength = ix'.documentLength := congrArg (·.documentLength) h
  have haverage : (averageLength ix : α) = averageLength ix' := congrArg (·.averageLength) h
  rw [postingScore, hlength, haverage, postingScore]

theorem termScores_congr (term : Term) :
    termScores tuning ix term = termScores tuning ix' term := by
  have hpostings : ix.postingsOf = ix'.postingsOf := congrArg (·.postingsOf) h
  simp only [termScores, hpostings, weight_congr h, postingScore_congr tuning h]

theorem structural_congr (terms : List Term) (accept : List (List Nat) → Bool) :
    structural tuning ix terms accept = structural tuning ix' terms accept := by
  have hpostings : ix.postingsOf = ix'.postingsOf := congrArg (·.postingsOf) h
  have hposting : ix.posting? = ix'.posting? := congrArg (·.posting?) h
  simp only [structural, hpostings, hposting, weight_congr h, postingScore_congr tuning h]

theorem evaluate_congr (q : Query) : evaluate tuning ix q = evaluate tuning ix' q := by
  induction q using Query.induction with
  | term t => exact termScores_congr tuning h t
  | phrase ts => exact structural_congr tuning h ts _
  | stem t =>
    have hexpand : ix.expand = ix'.expand := congrArg (·.expand) h
    rw [evaluate, evaluate, hexpand, funext (termScores_congr tuning h)]
  | near ts distance =>
    rw [evaluate, evaluate]
    exact structural_congr tuning h ts _
  | not child _ => rfl
  | and children ihc ihn =>
    have hpositives : evaluate.evaluatePositives tuning ix children =
        evaluate.evaluatePositives tuning ix' children := by
      rw [evaluatePositives_eq, evaluatePositives_eq]
      exact List.map_congr_left fun q hq => ihc q (List.mem_filter.1 hq).1
    have hnegatives : evaluate.evaluateNegatives tuning ix children =
        evaluate.evaluateNegatives tuning ix' children := by
      rw [evaluateNegatives_eq, evaluateNegatives_eq]
      exact List.map_congr_left fun child hchild =>
        ihn child (Query.mem_filterMap_negated?.1 hchild)
    rw [evaluate, evaluate, hpositives, hnegatives]
  | or children ih =>
    rw [evaluate, evaluate, evaluatePositives_eq, evaluatePositives_eq]
    exact congrArg union (List.map_congr_left fun q hq => ih q (List.mem_filter.1 hq).1)

/-- Indexes that give the same answers give the same ranked lists. -/
theorem score_congr (q : Query) : score tuning ix q = score tuning ix' q := by
  have hcount : ix.documentCount = ix'.documentCount := congrArg (·.documentCount) h
  rw [score, hcount, evaluate_congr tuning h, score]

end

section

variable {α : Type} [Scalar α] (expansions : Option Nat)

theorem namedTermsOfAll_eq (ix : Index) (children : List Query) :
    namedTerms.namedTermsOfAll expansions ix children =
      (children.map (namedTerms expansions ix)).flatten := by
  induction children with
  | nil => rfl
  | cons q rest ih => rw [namedTerms.namedTermsOfAll, ih, List.map_cons, List.flatten_cons]

variable {ix ix' : Index} (h : ix.answers α = ix'.answers α)
include h

theorem namedTerms_congr (q : Query) :
    namedTerms expansions ix q = namedTerms expansions ix' q := by
  induction q using Query.induction with
  | term t => rfl
  | phrase ts => rfl
  | stem t =>
    have hexpand : ix.expand = ix'.expand := congrArg (·.expand) h
    rw [namedTerms, hexpand, namedTerms]
  | near ts distance => rfl
  | not child _ => rfl
  | and children ih _ =>
    rw [namedTerms, namedTerms, namedTermsOfAll_eq, namedTermsOfAll_eq, List.map_congr_left ih]
  | or children ih =>
    rw [namedTerms, namedTerms, namedTermsOfAll_eq, namedTermsOfAll_eq, List.map_congr_left ih]

theorem matchedTerms_congr (q : Query) :
    matchedTerms expansions ix q = matchedTerms expansions ix' q := by
  have hterm : ix.hasTerm = ix'.hasTerm := congrArg (·.hasTerm) h
  rw [matchedTerms, namedTerms_congr expansions h, hterm, matchedTerms]

end

end Quarry.Bm25
