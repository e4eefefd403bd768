import Quarry.Index
import Quarry.Proofs.Text.Order

/-! Terms that begin with a stem. In an ascending vocabulary they follow one another from the place
that search by halving finds. -/

namespace Quarry.Index

theorem before_of_le {terms : List Term} (h : terms.Pairwise fun a b => compare a b = .lt)
    {stem : Text} {i j : Nat} (hij : i ≤ j) (hj : j < terms.length)
    (hbefore : (terms[j]).before stem = true) : (terms[i]).before stem = true := by
  rcases Nat.lt_or_eq_of_le hij with hlt | rfl
  · rw [Text.before_iff] at *
    exact Std.TransCmp.lt_trans (List.pairwise_iff_getElem.1 h i j (by omega) hj hlt) hbefore
  · exact hbefore

/-- The place in a vocabulary at which the search by halving for a stem stops. -/
def place (terms : List Term) (stem : Text) : Nat :=
  bisect (fun i => (terms.toArray.getD i []).before stem) 0 terms.toArray.size

/-- Search by halving parts an ascending vocabulary at a stem. -/
theorem place_parts {terms : List Term} (h : terms.Pairwise fun a b => compare a b = .lt)
    (stem : Text) : (∀ term ∈ terms.take (place terms stem), term.before stem = true) ∧
      ∀ term ∈ terms.drop (place terms stem), term.before stem = false := by
  have hget : ∀ i (hi : i < terms.length), terms.toArray.getD i [] = terms[i] := by
    intro i hi
    simp [Array.getD, hi]
  obtain ⟨below_start, above_start⟩ := bisect_spec
    (fun i => (terms.toArray.getD i []).before stem) 0 terms.toArray.size (by
    intro i j _ hij hj
    rw [List.size_toArray] at hj
    rw [hget i (by omega), hget j hj]
    exact before_of_le h hij hj)
  rw [place]
  rw [List.size_toArray] at *
  refine ⟨fun term hterm => ?_, fun term hterm => ?_⟩
  · obtain ⟨i, hi, rfl⟩ := List.getElem_of_mem hterm
    rw [List.length_take] at hi
    rw [List.getElem_take, ← hget i (by omega)]
    exact below_start i (Nat.zero_le i) (by omega)
  · obtain ⟨i, hi, rfl⟩ := List.getElem_of_mem hterm
    rw [List.length_drop] at hi
    rw [List.getElem_drop, ← hget _ (by omega)]
    exact above_start _ (Nat.le_add_right _ i) (by omega)

/-- The terms that begin with a stem follow one another from the place on. -/
theorem takeWhile_drop_place {terms : List Term} (h : terms.Pairwise fun a b => compare a b = .lt)
    (stem : Text) : (terms.drop (place terms stem)).takeWhile (·.startsWith stem) =
      terms.filter (·.startsWith stem) := by
  obtain ⟨hfront, hback⟩ := place_parts h stem
  generalize place terms stem = start at *
  have hnone : (terms.take start).filter (·.startsWith stem) = [] := by
    refine List.filter_eq_nil_iff.2 fun term hterm hstarts => ?_
    simpa [Text.not_before_of_startsWith hstarts] using hfront term hterm
  calc (terms.drop start).takeWhile (·.startsWith stem)
      = (terms.drop start).filter (·.startsWith stem) := by
        refine takeWhile_eq_filter ((h.sublist (List.drop_sublist _ _)).imp_of_mem ?_)
        exact fun ha _ hab hb => Text.startsWith_of_between (hback _ ha) hab hb
    _ = (terms.take start ++ terms.drop start).filter (·.startsWith stem) := by
        rw [List.filter_append, hnone, List.nil_append]
    _ = terms.filter (·.startsWith stem) := by
        rw [List.take_append_drop]

/-- The expansion of a stem is the first terms of the vocabulary that begin with it. -/
theorem expand_eq {ix : Index} (h : ix.vocabulary.Pairwise fun a b => compare a b = .lt)
    (stem : Text) (bound : Option Nat) :
    ix.expand stem bound = takeBound bound (ix.vocabulary.filter (·.startsWith stem)) :=
  congrArg (takeBound bound) (takeWhile_drop_place h stem)

end Quarry.Index
