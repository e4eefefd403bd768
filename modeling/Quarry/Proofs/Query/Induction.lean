import Mathlib.Data.List.Basic
import Quarry.Query

/-! Induction over query trees. A conjunction looks through the negations among its children, so
that its case also speaks of what they negate. -/

namespace Quarry.Query

theorem sizeOf_lt_of_mem_and {q : Query} {children : List Query} (h : q ∈ children) :
    sizeOf q < sizeOf (Query.and children) := by
  have := List.sizeOf_lt_of_mem h
  simp only [Query.and.sizeOf_spec]
  omega

theorem sizeOf_lt_of_mem_or {q : Query} {children : List Query} (h : q ∈ children) :
    sizeOf q < sizeOf (Query.or children) := by
  have := List.sizeOf_lt_of_mem h
  simp only [Query.or.sizeOf_spec]
  omega

theorem sizeOf_lt_of_not_mem_and {q : Query} {children : List Query} (h : Query.not q ∈ children) :
    sizeOf q < sizeOf (Query.and children) := by
  have := sizeOf_lt_of_mem_and h
  simp only [Query.not.sizeOf_spec] at this
  omega

/-- Induction with a hypothesis for every child, and in a conjunction for what its
children negate. -/
@[elab_as_elim]
theorem induction {motive : Query → Prop} (term : ∀ t, motive (.term t))
    (phrase : ∀ ts, motive (.phrase ts)) (stem : ∀ t, motive (.stem t))
    (near : ∀ ts distance, motive (.near ts distance))
    (not : ∀ child, motive child → motive (.not child))
    (and : ∀ children, (∀ q ∈ children, motive q) → (∀ q, .not q ∈ children → motive q) →
      motive (.and children))
    (or : ∀ children, (∀ q ∈ children, motive q) → motive (.or children)) (q : Query) :
    motive q := by
  induction hsize : sizeOf q using Nat.strongRecOn generalizing q with
  | _ size ih =>
    subst hsize
    cases q with
    | term t => exact term t
    | phrase ts => exact phrase ts
    | stem t => exact stem t
    | near ts distance => exact near ts distance
    | not child => exact not child (ih _ (by simp) child rfl)
    | and children =>
      exact and children (fun q hq => ih _ (sizeOf_lt_of_mem_and hq) q rfl)
        fun q hq => ih _ (sizeOf_lt_of_not_mem_and hq) q rfl
    | or children => exact or children fun q hq => ih _ (sizeOf_lt_of_mem_or hq) q rfl

/-- What a negation negates. -/
def negated? : Query → Option Query
  | .not q => some q
  | _ => none

theorem mem_filterMap_negated? {child : Query} {children : List Query} :
    child ∈ children.filterMap negated? ↔ .not child ∈ children := by
  rw [List.mem_filterMap]
  constructor
  · rintro ⟨q, hq, hnegated⟩
    cases q <;> cases hnegated
    exact hq
  · exact fun h => ⟨_, h, rfl⟩

end Quarry.Query
