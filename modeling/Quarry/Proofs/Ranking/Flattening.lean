import Quarry.Proofs.Ranking.Matching

/-! Conjunctions and disjunctions that are built flat find the documents of those whose children are
left nested. What moves up a level is judged by its new parent: a negation that stood in a nested
conjunction takes the same documents away from the outer one, and one that stood in a nested
disjunction counts for nothing in either. The one thing that is lost is that a conjunction of
negations alone finds nothing. -/

namespace Quarry.Bm25

variable {α : Type} [Scalar α] (tuning : Tuning α) (ix : Index) (id : DocId)

theorem evaluate_not (child : Query) : evaluate tuning ix (.not child) = [] := by rw [evaluate]

/-! ### Conjunctions -/

/-- Some children of a conjunction let a document through: it is in all that are no negations, and
in nothing that they negate. -/
def Admits (children : List Query) : Prop :=
  (∀ q ∈ children, q.isNegation = false → id ∈ names (evaluate tuning ix q)) ∧
    ∀ q, .not q ∈ children → id ∉ names (evaluate tuning ix q)

variable {tuning ix id} {children : List Query}

theorem mem_names_and_iff : id ∈ names (evaluate tuning ix (.and children)) ↔
    (∃ q ∈ children, q.isNegation = false) ∧ Admits tuning ix id children := mem_names_evaluate_and

theorem admits_flatMap_iff {f : Query → List Query} :
    Admits tuning ix id (children.flatMap f) ↔ ∀ q ∈ children, Admits tuning ix id (f q) := by
  simp only [Admits, List.mem_flatMap]
  grind

theorem admits_iff : Admits tuning ix id children ↔ ∀ q ∈ children, Admits tuning ix id [q] := by
  rw [← admits_flatMap_iff, List.flatMap_singleton']

/-- One child alone stands for itself, a negation as well: neither finds anything. -/
theorem mem_names_and_singleton (q : Query) :
    id ∈ names (evaluate tuning ix (.and [q])) ↔ id ∈ names (evaluate tuning ix q) := by
  rw [mem_names_evaluate_and]
  cases q <;> simp [Query.isNegation, evaluate_not, names]

/-- A nested conjunction that does not consist of negations lets through what its children do. -/
theorem admits_conjuncts_iff (q : Query)
    (h : ∀ nested, q = .and nested → ∃ child ∈ nested, child.isNegation = false) :
    Admits tuning ix id q.conjuncts ↔ Admits tuning ix id [q] := by
  cases q with
  | and nested =>
    have hpositive : (Query.and nested).isNegation = false := rfl
    have hself : Admits tuning ix id [.and nested] ↔
        id ∈ names (evaluate tuning ix (.and nested)) := by
      simp [Admits, hpositive]
    rw [hself, mem_names_and_iff, and_iff_right (h nested rfl), Query.conjuncts]
  | _ => rfl

theorem exists_conjuncts_iff (q : Query)
    (h : ∀ nested, q = .and nested → ∃ child ∈ nested, child.isNegation = false) :
    (∃ child ∈ q.conjuncts, child.isNegation = false) ↔ q.isNegation = false := by
  cases q with
  | and nested => exact iff_of_true (h nested rfl) rfl
  | _ => simp [Query.conjuncts]

theorem mem_names_conj_iff
    (h : ∀ nested, .and nested ∈ children → ∃ q ∈ nested, q.isNegation = false) :
    id ∈ names (evaluate tuning ix (.conj children)) ↔
      id ∈ names (evaluate tuning ix (.and children)) := by
  have hflat : id ∈ names (evaluate tuning ix (.conj children)) ↔
      id ∈ names (evaluate tuning ix (.and (children.flatMap Query.conjuncts))) := by
    rw [Query.conj]
    split
    · rename_i q hq
      rw [hq, mem_names_and_singleton]
    · rfl
  have hchild : ∀ q ∈ children, ∀ nested, q = .and nested →
      ∃ child ∈ nested, child.isNegation = false :=
    fun q hq nested heq => h nested (heq ▸ hq)
  have hpositive : (∃ q ∈ children.flatMap Query.conjuncts, q.isNegation = false) ↔
      ∃ q ∈ children, ∃ child ∈ q.conjuncts, child.isNegation = false := by
    simp only [List.mem_flatMap]
    grind
  have hnested : Admits tuning ix id children ↔ ∀ q ∈ children, Admits tuning ix id [q] :=
    admits_iff
  rw [hflat, mem_names_and_iff, mem_names_and_iff, admits_flatMap_iff, hnested, hpositive]
  refine and_congr (exists_congr fun q => and_congr_right fun hq => ?_)
    (forall₂_congr fun q hq => ?_)
  · exact exists_conjuncts_iff q (hchild q hq)
  · exact admits_conjuncts_iff q (hchild q hq)

/-! ### Disjunctions -/

theorem mem_names_or_singleton (q : Query) :
    id ∈ names (evaluate tuning ix (.or [q])) ↔ id ∈ names (evaluate tuning ix q) := by
  rw [mem_names_evaluate_or]
  cases q <;> simp [Query.isNegation, evaluate_not, names]

theorem mem_names_or_flatMap_iff {f : Query → List Query} :
    id ∈ names (evaluate tuning ix (.or (children.flatMap f))) ↔
      ∃ q ∈ children, id ∈ names (evaluate tuning ix (.or (f q))) := by
  simp only [mem_names_evaluate_or, List.mem_flatMap]
  grind

theorem mem_names_or_iff : id ∈ names (evaluate tuning ix (.or children)) ↔
    ∃ q ∈ children, id ∈ names (evaluate tuning ix (.or [q])) := by
  rw [← mem_names_or_flatMap_iff, List.flatMap_singleton']

/-- A nested disjunction finds what its children do, a negation among them nothing. -/
theorem mem_names_or_disjuncts_iff (q : Query) : id ∈ names (evaluate tuning ix (.or q.disjuncts)) ↔
    id ∈ names (evaluate tuning ix (.or [q])) := by
  cases q with
  | or nested => rw [mem_names_or_singleton, Query.disjuncts]
  | _ => rfl

theorem mem_names_disj_iff :
    id ∈ names (evaluate tuning ix (.disj children)) ↔
      id ∈ names (evaluate tuning ix (.or children)) := by
  have hflat : id ∈ names (evaluate tuning ix (.disj children)) ↔
      id ∈ names (evaluate tuning ix (.or (children.flatMap Query.disjuncts))) := by
    rw [Query.disj]
    split
    · rename_i q hq
      rw [hq, mem_names_or_singleton]
    · rfl
  rw [hflat, mem_names_or_flatMap_iff, mem_names_or_iff]
  simp only [mem_names_or_disjuncts_iff]

/-! ### Ranked lists -/

theorem mem_score_iff {q : Query} : id ∈ (score tuning ix q).map (·.docId) ↔
    ix.documentCount ≠ 0 ∧ id ∈ names (evaluate tuning ix q) := by
  rw [score]
  split
  · simp_all
  · rename_i hcount
    rw [and_iff_right hcount]
    exact (perm_ranked _).mem_iff

/-- In any index, a disjunction that is built flat finds the documents of the nested one, and so
does a conjunction unless a conjunction among its children consists of negations alone. -/
theorem mem_score_flat (tuning : Tuning α) (ix : Index) (children : List Query) (id : DocId) :
    ((∀ nested, .and nested ∈ children → ∃ q ∈ nested, q.isNegation = false) →
      (id ∈ (score tuning ix (.conj children)).map (·.docId) ↔
        id ∈ (score tuning ix (.and children)).map (·.docId))) ∧
    (id ∈ (score tuning ix (.disj children)).map (·.docId) ↔
      id ∈ (score tuning ix (.or children)).map (·.docId)) := by
  simp only [mem_score_iff]
  exact ⟨fun h => and_congr_right fun _ => mem_names_conj_iff h,
    and_congr_right fun _ => mem_names_disj_iff⟩

/-- Of the documents `d` with the text `a c` and `e` with the text `a b`, flattened or not, `(a NOT
b) AND c` finds the first. -/
theorem mem_score_flat_nested :
    let ix := (Index.empty.add ⟨"d", "a c", []⟩).add ⟨"e", "a b", []⟩
    let tuning : Tuning Float := ⟨1.2, 0.75, none⟩
    let children : List Query := [.and [.term "a", .not (.term "b")], .term "c"]
    (∀ nested, .and nested ∈ children → ∃ q ∈ nested, q.isNegation = false) ∧
      ("d" : DocId) ∈ (score tuning ix (.conj children)).map (·.docId) ∧
      ("d" : DocId) ∈ (score tuning ix (.and children)).map (·.docId) := by
  intro ix tuning children
  have hpositive : ∀ nested, .and nested ∈ children → ∃ q ∈ nested, q.isNegation = false := by
    simp [children, Query.isNegation]
  have hnested : ("d" : DocId) ∈ (score tuning ix (.and children)).map (·.docId) := by
    refine mem_score_iff.2 ⟨by decide +kernel,
      mem_names_and_iff.2 ⟨by decide, by decide +kernel, ?_⟩⟩
    intro q hq
    simp [children] at hq
  exact ⟨hpositive, ((mem_score_flat tuning ix children "d").1 hpositive).2 hnested, hnested⟩

/-- Left nested, a conjunction of negations alone finds nothing, and so nothing is found with it. -/
theorem not_mem_score_and {nested : List Query} (hmem : .and nested ∈ children)
    (hnegations : ∀ q ∈ nested, q.isNegation = true) :
    id ∉ (score tuning ix (.and children)).map (·.docId) := by
  rw [mem_score_iff, mem_names_and_iff]
  rintro ⟨-, -, hall, -⟩
  obtain ⟨⟨q, hq, hpositive⟩, -⟩ := mem_names_and_iff.1 (hall (.and nested) hmem rfl)
  exact absurd (hpositive.symm.trans (hnegations q hq)) Bool.false_ne_true

end Quarry.Bm25
