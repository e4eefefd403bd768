import Mathlib.Data.List.Nodup
import Quarry.Ranking.Bm25

/-! Which documents the operations on scores name. Each is a set operation on the documents of its
parts: a union, an intersection, a difference. -/

namespace Quarry.Bm25

variable {α : Type} [Scalar α]

/-- The documents that scores name. -/
def names (scores : Scores α) : List DocId := scores.map (·.1)

omit [Scalar α] in
@[simp] theorem names_cons (pair : DocId × α) (rest : Scores α) :
    names (pair :: rest) = pair.1 :: names rest := rfl

omit [Scalar α] in
theorem isSome_scoreOf?_iff (scores : Scores α) (id : DocId) :
    (scoreOf? scores id).isSome ↔ id ∈ names scores := by
  rw [scoreOf?, Option.isSome_map, List.find?_isSome, names, List.mem_map]
  simp only [beq_iff_eq]

/-! ### Unions -/

theorem names_addScore (scores : Scores α) (id : DocId) (score : α) :
    names (addScore scores id score) =
      if id ∈ names scores then names scores else names scores ++ [id] := by
  induction scores with
  | nil => rfl
  | cons pair rest ih =>
    obtain ⟨other, total⟩ := pair
    rw [addScore]
    by_cases heq : other = id
    · simp [heq]
    · rw [if_neg heq, names_cons, ih, names_cons]
      simp only [List.mem_cons, Ne.symm heq, false_or]
      split <;> rfl

theorem nodup_addScore {scores : Scores α} (h : (names scores).Nodup) (id : DocId) (score : α) :
    (names (addScore scores id score)).Nodup := by
  rw [names_addScore]
  split
  · exact h
  · rename_i hnew
    exact List.nodup_append.2 ⟨h, List.nodup_singleton id, by grind⟩

theorem names_foldl_addScore (pairs : List (DocId × α)) (scores : Scores α)
    (h : (names scores).Nodup) :
    let all := pairs.foldl (fun scores (id, score) => addScore scores id score) scores
    (names all).Nodup ∧ ∀ id, id ∈ names all ↔ id ∈ names scores ∨ id ∈ names pairs := by
  induction pairs generalizing scores with
  | nil => exact ⟨h, fun id => by simp [names]⟩
  | cons pair pairs ih =>
    obtain ⟨other, score⟩ := pair
    obtain ⟨hnodup, hmem⟩ := ih (addScore scores other score) (nodup_addScore h other score)
    refine ⟨hnodup, fun id => (hmem id).trans ?_⟩
    rw [names_addScore, names_cons]
    grind

theorem nodup_union (parts : List (Scores α)) : (names (union parts)).Nodup :=
  (names_foldl_addScore parts.flatten [] List.nodup_nil).1

theorem mem_names_union (parts : List (Scores α)) (id : DocId) :
    id ∈ names (union parts) ↔ ∃ part ∈ parts, id ∈ names part := by
  refine ((names_foldl_addScore parts.flatten [] List.nodup_nil).2 id).trans ?_
  simp only [names, List.map_flatten, List.mem_flatten, List.mem_map, List.map_nil,
    List.not_mem_nil, false_or]
  grind

/-! ### Intersections and differences -/

theorem isSome_addAll_iff (total : α) (id : DocId) (parts : List (Scores α)) :
    (addAll total id parts).isSome ↔ ∀ part ∈ parts, id ∈ names part := by
  induction parts generalizing total with
  | nil => simp [addAll]
  | cons part rest ih =>
    rw [addAll, List.forall_mem_cons, ← isSome_scoreOf?_iff]
    cases scoreOf? part id with
    | none => simp
    | some score => simpa using ih (total + score)

omit [Scalar α] in
theorem names_subtract (kept : Scores α) (parts : List (Scores α)) :
    names (subtract kept parts) =
      (names kept).filter fun id => parts.all fun part => (scoreOf? part id).isNone := by
  induction parts generalizing kept with
  | nil => simp [subtract]
  | cons part rest ih =>
    rw [subtract]
    split
    · rename_i hempty
      rw [List.isEmpty_iff.1 hempty]
      rfl
    · rw [ih, names, List.filter_map]
      simp [names, List.filter_map, List.filter_filter, Function.comp_def, Bool.and_comm]

omit [Scalar α] in
theorem mem_names_subtract (kept : Scores α) (parts : List (Scores α)) (id : DocId) :
    id ∈ names (subtract kept parts) ↔ id ∈ names kept ∧ ∀ part ∈ parts, id ∉ names part := by
  rw [names_subtract, List.mem_filter, List.all_eq_true]
  simp only [← isSome_scoreOf?_iff, Option.isNone_iff_eq_none, Option.not_isSome_iff_eq_none]

omit [Scalar α] in
/-- Candidates that are left out or become scores under their own names. -/
theorem names_filterMap {β : Type} {f : β → Option (DocId × α)} (name : β → DocId)
    (h : ∀ x pair, f x = some pair → pair.1 = name x) (candidates : List β) :
    names (candidates.filterMap f) = (candidates.filter fun x => (f x).isSome).map name := by
  induction candidates with
  | nil => rfl
  | cons x rest ih =>
    cases hx : f x with
    | none => simp [hx, ih]
    | some pair => simp [hx, ih, h x pair hx]

/-- The names of the candidates that all other parts have too. -/
theorem names_matching (smallest : Scores α) (others : List (Scores α)) :
    names (smallest.filterMap fun (id, score) => (addAll score id others).map fun total =>
      (id, total)) =
      (smallest.filter fun x =>
        ((addAll x.2 x.1 others).map fun total => (x.1, total)).isSome).map (·.1) := by
  refine names_filterMap Prod.fst ?_ smallest
  rintro ⟨id, score⟩ pair hpair
  obtain ⟨total, -, rfl⟩ := Option.map_eq_some_iff.1 hpair
  rfl

theorem mem_names_conjunction (positives negatives : List (Scores α)) (id : DocId) :
    id ∈ names (conjunction positives negatives) ↔
      positives ≠ [] ∧ (∀ part ∈ positives, id ∈ names part) ∧
        ∀ part ∈ negatives, id ∉ names part := by
  have hperm := positives.mergeSort_perm fun a b => decide (a.length ≤ b.length)
  rw [conjunction]
  split
  · rename_i hnil
    rw [hnil] at hperm
    simp [hperm.symm.eq_nil, names]
  · rename_i smallest others hsorted
    rw [hsorted] at hperm
    have hsmallest : smallest ∈ positives := hperm.subset (List.mem_cons_self ..)
    rw [mem_names_subtract, names_matching, ← and_assoc]
    refine and_congr_left fun _ => ?_
    have hall : (∀ part ∈ positives, id ∈ names part) ↔
        ∀ part ∈ smallest :: others, id ∈ names part := by simp only [hperm.mem_iff]
    rw [hall, List.forall_mem_cons, and_iff_right (List.ne_nil_of_mem hsmallest)]
    simp only [List.mem_map, List.mem_filter, Option.isSome_map, isSome_addAll_iff, names]
    grind

theorem nodup_conjunction {positives negatives : List (Scores α)}
    (h : ∀ part ∈ positives, (names part).Nodup) :
    (names (conjunction positives negatives)).Nodup := by
  have hperm := positives.mergeSort_perm fun a b => decide (a.length ≤ b.length)
  rw [conjunction]
  split
  · exact List.nodup_nil
  · rename_i smallest others hsorted
    rw [hsorted] at hperm
    have hsmallest : smallest ∈ positives := hperm.subset (List.mem_cons_self ..)
    rw [names_subtract, names_matching]
    exact ((h smallest hsmallest).sublist (List.filter_sublist.map _)).filter _

end Quarry.Bm25
