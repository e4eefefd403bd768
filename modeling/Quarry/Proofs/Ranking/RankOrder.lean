import Mathlib.Data.List.Basic
import Quarry.RankOrder

/-! Sorting by a relation keeps every item, whatever the relation is. Scores that are not numbers
make it no order at all, so nothing is asked of it. Items that are in order stay where they are. -/

namespace Quarry

variable {α : Type u} (before : α → α → Bool)

/-- The place of an item is searched by halving, for the items that it does not come before. -/
theorem exists_insertByHalving_eq (sorted : List α) (x : α) : ∃ below : Nat → Bool,
    insertByHalving before sorted x = sorted.take (bisect below 0 sorted.length) ++
        x :: sorted.drop (bisect below 0 sorted.length) ∧
      ∀ {i y}, sorted[i]? = some y → below i = !before x y :=
  ⟨_, rfl, fun h => by simp only [List.getElem?_toArray, h]⟩

theorem insertByHalving_perm (sorted : List α) (x : α) :
    (insertByHalving before sorted x).Perm (x :: sorted) := by
  rw [insertByHalving]
  refine List.perm_middle.trans (.cons x ?_)
  rw [List.take_append_drop]

theorem foldl_insertByHalving_perm (items sorted : List α) :
    (items.foldl (insertByHalving before) sorted).Perm (sorted ++ items) := by
  induction items generalizing sorted with
  | nil => rw [List.append_nil, List.foldl_nil]
  | cons x items ih =>
    rw [List.foldl_cons]
    refine (ih _).trans (((insertByHalving_perm before sorted x).append_right items).trans ?_)
    exact List.perm_middle.symm

theorem ascendingRun_append (last : α) (items : List α) :
    (ascendingRun before last items).1 ++ (ascendingRun before last items).2 = items := by
  fun_induction ascendingRun before last items with
  | case1 => rfl
  | case2 => rfl
  | case3 last x items h run rest heq ih => simpa [heq] using ih

theorem descendingRun_append (last : α) (items : List α) :
    (descendingRun before last items).1 ++ (descendingRun before last items).2 = items := by
  fun_induction descendingRun before last items with
  | case1 => rfl
  | case2 last x items h run rest heq ih => simpa [heq] using ih
  | case3 => rfl

theorem rankSort_perm (items : List α) : (rankSort before items).Perm items := by
  fun_cases rankSort before items with
  | case1 => exact .refl _
  | case2 x => exact .refl _
  | case3 x y items run rest heq =>
    refine (foldl_insertByHalving_perm before rest run).trans ?_
    split at heq
    · have happend := descendingRun_append before x (y :: items)
      cases hrun : descendingRun before x (y :: items) with
      | mk down tail =>
        rw [hrun] at heq happend
        cases heq
        rw [List.append_assoc, ← happend]
        exact ((List.reverse_perm down).append_right _).trans List.perm_middle
    · have happend := ascendingRun_append before x (y :: items)
      cases hrun : ascendingRun before x (y :: items) with
      | mk up tail =>
        rw [hrun] at heq happend
        cases heq
        rw [List.cons_append, happend]

/-! ### Items in order -/

theorem ascendingRun_eq {last : α} {items : List α}
    (h : (last :: items).IsChain fun x y => before y x = false) :
    ascendingRun before last items = (items, []) := by
  induction items generalizing last with
  | nil => rfl
  | cons x rest ih =>
    obtain ⟨hx, hrest⟩ := List.isChain_cons_cons.1 h
    rw [ascendingRun, hx, ih hrest]
    rfl

/-- Items of which none comes before its neighbour are kept in their order. -/
theorem rankSort_eq_self {items : List α} (h : items.IsChain fun x y => before y x = false) :
    rankSort before items = items := by
  match items, h with
  | [], _ => rfl
  | [x], _ => rfl
  | x :: y :: rest, h =>
    have hy : before y x = false := (List.isChain_cons_cons.1 h).1
    rw [rankSort, hy, ascendingRun_eq before h]
    rfl

/-! ### Orders -/

/-- Among the items with a property, `before` is a strict order up to items of the same rank. -/
structure RanksOn (P : α → Prop) : Prop where
  asymm : ∀ {x y}, P x → P y → before x y = true → before y x = false
  trans : ∀ {x y z}, P x → P y → P z → before y x = false → before z y = false → before z x = false

/-- Items none of which comes before one that is in front of it. -/
def SortedBy (items : List α) : Prop := items.Pairwise fun x y => before y x = false

namespace RanksOn

variable {before} {P : α → Prop} (ranks : RanksOn before P)
include ranks

theorem sortedBy_ascendingRun {last : α} {items : List α} (h : ∀ x ∈ last :: items, P x) :
    SortedBy before (last :: (ascendingRun before last items).1) := by
  induction items generalizing last with
  | nil => exact List.pairwise_singleton _ _
  | cons x rest ih =>
    rw [ascendingRun]
    split
    · exact List.pairwise_singleton _ _
    · rename_i hbefore
      obtain ⟨hlast, hrest⟩ := List.forall_mem_cons.1 h
      have hrun := ih hrest
      refine List.pairwise_cons.2
        ⟨List.forall_mem_cons.2 ⟨Bool.eq_false_iff.2 hbefore, fun y hy => ?_⟩, hrun⟩
      have hitem : y ∈ rest := by
        rw [← ascendingRun_append before x rest]
        exact List.mem_append_left _ hy
      exact ranks.trans hlast (hrest x List.mem_cons_self) (hrest y (List.mem_cons_of_mem x hitem))
        (Bool.eq_false_iff.2 hbefore) ((List.pairwise_cons.1 hrun).1 y hy)

theorem sortedBy_descendingRun {last : α} {items : List α} (h : ∀ x ∈ last :: items, P x) :
    SortedBy before ((descendingRun before last items).1.reverse ++ [last]) := by
  rw [← List.reverse_cons, SortedBy, List.pairwise_reverse]
  induction items generalizing last with
  | nil => exact List.pairwise_singleton _ _
  | cons x rest ih =>
    rw [descendingRun]
    split
    · rename_i hbefore
      obtain ⟨hlast, hrest⟩ := List.forall_mem_cons.1 h
      have hrun := ih hrest
      have hx := ranks.asymm (hrest x List.mem_cons_self) hlast hbefore
      refine List.pairwise_cons.2 ⟨List.forall_mem_cons.2 ⟨hx, fun y hy => ?_⟩, hrun⟩
      have hitem : y ∈ rest := by
        rw [← descendingRun_append before x rest]
        exact List.mem_append_left _ hy
      exact ranks.trans (hrest y (List.mem_cons_of_mem x hitem)) (hrest x List.mem_cons_self) hlast
        ((List.pairwise_cons.1 hrun).1 y hy) hx
    · exact List.pairwise_singleton _ _

/-- An item that is put in comes behind those that it does not come before, and in front of
the others. -/
theorem sortedBy_insertByHalving {sorted : List α} {x : α} (h : ∀ y ∈ x :: sorted, P y)
    (hby : SortedBy before sorted) : SortedBy before (insertByHalving before sorted x) := by
  obtain ⟨hx, hsorted⟩ := List.forall_mem_cons.1 h
  obtain ⟨below, heq, hbelow⟩ := exists_insertByHalving_eq before sorted x
  obtain ⟨hlow, hhigh⟩ := bisect_spec below 0 sorted.length fun i j _ hij hj hbefore => by
    have hi : i < sorted.length := Nat.lt_of_le_of_lt hij hj
    rw [hbelow (List.getElem?_eq_getElem hj), Bool.not_eq_true'] at hbefore
    rw [hbelow (List.getElem?_eq_getElem hi), Bool.not_eq_true']
    rcases Nat.lt_or_eq_of_le hij with hlt | rfl
    · exact ranks.trans (hsorted _ (List.getElem_mem hi)) (hsorted _ (List.getElem_mem hj)) hx
        (List.pairwise_iff_getElem.1 hby i j hi hj hlt) hbefore
    · exact hbefore
  have htaken : ∀ y ∈ sorted.take (bisect below 0 sorted.length), before x y = false := by
    intro y hy
    obtain ⟨i, hi, hget⟩ := List.mem_take_iff_getElem.1 hy
    have hnot := hlow i (Nat.zero_le i) (by omega)
    rwa [hbelow (List.getElem?_eq_some_iff.2 ⟨_, hget⟩), Bool.not_eq_true'] at hnot
  have hdropped : ∀ y ∈ sorted.drop (bisect below 0 sorted.length), before y x = false := by
    intro y hy
    obtain ⟨i, hi, hget⟩ := List.mem_drop_iff_getElem.1 hy
    have hbefore := hhigh (bisect below 0 sorted.length + i) (by omega) (by omega)
    rw [hbelow (List.getElem?_eq_some_iff.2 ⟨_, hget⟩), Bool.not_eq_false'] at hbefore
    exact ranks.asymm hx (hsorted y (List.mem_of_mem_drop hy)) hbefore
  have hparts : SortedBy before (sorted.take (bisect below 0 sorted.length) ++
      sorted.drop (bisect below 0 sorted.length)) := by
    rwa [List.take_append_drop]
  obtain ⟨htake, hdrop, hcross⟩ := List.pairwise_append.1 hparts
  rw [heq]
  exact List.pairwise_append.2 ⟨htake, List.pairwise_cons.2 ⟨hdropped, hdrop⟩,
    fun y hy => List.forall_mem_cons.2 ⟨htaken y hy, hcross y hy⟩⟩

theorem sortedBy_foldl_insertByHalving {items sorted : List α} (h : ∀ y ∈ sorted ++ items, P y)
    (hby : SortedBy before sorted) :
    SortedBy before (items.foldl (insertByHalving before) sorted) := by
  induction items generalizing sorted with
  | nil => exact hby
  | cons x rest ih =>
    have hfront : ∀ y ∈ x :: sorted, P y := fun y hy => h y (by grind)
    refine ih (fun y hy => ?_) (ranks.sortedBy_insertByHalving hfront hby)
    rcases List.mem_append.1 hy with hy | hy
    · exact hfront y ((insertByHalving_perm before sorted x).mem_iff.1 hy)
    · exact h y (by grind)

/-- Sorting by an order of ranks puts the items in that order. -/
theorem sortedBy_rankSort {items : List α} (h : ∀ x ∈ items, P x) :
    SortedBy before (rankSort before items) := by
  match items, h with
  | [], _ => exact List.Pairwise.nil
  | [x], _ => exact List.pairwise_singleton _ _
  | x :: y :: rest, h =>
    rw [rankSort]
    by_cases hbefore : before y x = true
    · have hitems : ∀ z ∈ ((descendingRun before x (y :: rest)).1.reverse ++ [x]) ++
          (descendingRun before x (y :: rest)).2, P z := by
        have happend := descendingRun_append before x (y :: rest)
        grind
      rw [if_pos hbefore]
      exact ranks.sortedBy_foldl_insertByHalving hitems (ranks.sortedBy_descendingRun h)
    · have hitems : ∀ z ∈ (x :: (ascendingRun before x (y :: rest)).1) ++
          (ascendingRun before x (y :: rest)).2, P z := by
        rwa [List.cons_append, ascendingRun_append]
      rw [if_neg hbefore]
      exact ranks.sortedBy_foldl_insertByHalving hitems (ranks.sortedBy_ascendingRun h)

end RanksOn
end Quarry
