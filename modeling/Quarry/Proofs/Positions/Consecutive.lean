import Mathlib.Order.Basic
import Mathlib.Order.Lattice
import Quarry.Ranking.Positions

/-! What the search by halving over positions finds: on ascending lists, `holds` is membership, so
that `consecutive` holds exactly if some position starts a run through all of the lists. -/

namespace Quarry.Positions

section Holds

variable {α : Type} [LinearOrder α]

/-- The condition that `holds` searches with. -/
def below (positions : List α) (target : α) (i : Nat) : Bool :=
  match positions[i]? with
  | some value => decide (value < target)
  | none => false

theorem below_of_getElem? {positions : List α} {target value : α} {i : Nat}
    (h : positions[i]? = some value) : below positions target i = decide (value < target) := by
  rw [below, h]

theorem holds_eq [BEq α] (positions : List α) (target : α) : holds positions target =
    (positions[bisect (below positions target) 0 positions.length]? == some target) := by
  simp only [holds, List.getElem?_toArray, List.size_toArray]
  rfl

/-- The condition is inherited downwards in an ascending list. -/
theorem lt_of_lt_of_ascending {positions : List α} (sorted : positions.Pairwise (· ≤ ·))
    {target value : α} {i j : Nat} (hij : i ≤ j) (hj : positions[j]? = some value)
    (hlt : value < target) : ∃ earlier, positions[i]? = some earlier ∧ earlier < target := by
  obtain ⟨hjl, rfl⟩ := List.getElem?_eq_some_iff.1 hj
  refine ⟨positions[i], List.getElem?_eq_getElem (by omega), ?_⟩
  rcases Nat.lt_or_eq_of_le hij with h | rfl
  · exact lt_of_le_of_lt (List.pairwise_iff_getElem.1 sorted i j (by omega) hjl h) hlt
  · exact hlt

/-- Search by halving decides membership in an ascending list. -/
theorem holds_iff [BEq α] [LawfulBEq α] {positions : List α} (sorted : positions.Pairwise (· ≤ ·))
    (target : α) : holds positions target = true ↔ target ∈ positions := by
  have down : ∀ i j, 0 ≤ i → i ≤ j → j < positions.length → below positions target j = true →
      below positions target i = true := by
    intro i j _ hij hj hlt
    rw [below_of_getElem? (List.getElem?_eq_getElem hj), decide_eq_true_eq] at hlt
    obtain ⟨earlier, he, hlt'⟩ :=
      lt_of_lt_of_ascending sorted hij (List.getElem?_eq_getElem hj) hlt
    rw [below_of_getElem? he, decide_eq_true_eq]
    exact hlt'
  obtain ⟨below_place, above_place⟩ := bisect_spec _ 0 positions.length down
  rw [holds_eq, beq_iff_eq]
  generalize bisect _ 0 positions.length = place at *
  constructor
  · exact fun h => List.mem_of_getElem? h
  · intro hmem
    obtain ⟨k, hk, rfl⟩ := List.getElem_of_mem hmem
    -- The target is not below the place, and what stands at the place is no less than the target.
    have hplace : place ≤ k := by
      refine Nat.le_of_not_lt fun hlt => ?_
      have hbelow := below_place k (Nat.zero_le k) hlt
      rw [below_of_getElem? (List.getElem?_eq_getElem hk), decide_eq_true_eq] at hbelow
      exact lt_irrefl _ hbelow
    have hlt : place < positions.length := by omega
    have hge := above_place place (Nat.le_refl _) hlt
    rw [below_of_getElem? (List.getElem?_eq_getElem hlt), decide_eq_false_iff_not, not_lt] at hge
    rw [List.getElem?_eq_getElem hlt]
    rcases Nat.lt_or_eq_of_le hplace with h | rfl
    · exact congrArg some
        (le_antisymm (List.pairwise_iff_getElem.1 sorted place k hlt hk h) hge)
    · rfl

end Holds

/-- Each of the lists holds the position after the one before it. -/
theorem followFrom_iff {lists : List (List Nat)}
    (sorted : ∀ positions ∈ lists, positions.Pairwise (· ≤ ·)) (start : Nat) :
    followFrom start lists = true ↔
      ∀ i positions, lists[i]? = some positions → start + 1 + i ∈ positions := by
  induction lists generalizing start with
  | nil => simp [followFrom]
  | cons first rest ih =>
    have hrest := ih (fun ps h => sorted ps (List.mem_cons_of_mem _ h)) (start + 1)
    rw [followFrom, Bool.and_eq_true, holds_iff (sorted first List.mem_cons_self), hrest]
    constructor
    · rintro ⟨hfirst, hfollow⟩ i positions hi
      cases i with
      | zero =>
        obtain rfl : first = positions := by simpa using hi
        exact hfirst
      | succ i =>
        have := hfollow i positions (by simpa using hi)
        rwa [show start + 1 + (i + 1) = start + 1 + 1 + i by omega]
    · intro h
      refine ⟨h 0 first rfl, fun i positions hi => ?_⟩
      have := h (i + 1) positions (by simpa using hi)
      rwa [show start + 1 + 1 + i = start + 1 + (i + 1) by omega]

/-- Ascending lists are found consecutive exactly if position `p + i` is in list `i` for some `p`
and every `i`. -/
theorem consecutive_iff {lists : List (List Nat)}
    (sorted : ∀ positions ∈ lists, positions.Pairwise (· ≤ ·)) :
    consecutive lists = true ↔
      lists ≠ [] ∧ ∃ p : Nat, ∀ i positions, lists[i]? = some positions → p + i ∈ positions := by
  cases lists with
  | nil => simp [consecutive]
  | cons first rest =>
    have hrest : ∀ positions ∈ rest, positions.Pairwise (· ≤ ·) :=
      fun ps h => sorted ps (List.mem_cons_of_mem _ h)
    simp only [consecutive, List.any_eq_true, followFrom_iff hrest, ne_eq, reduceCtorEq,
      not_false_eq_true, true_and]
    constructor
    · rintro ⟨p, hp, hfollow⟩
      refine ⟨p, fun i positions hi => ?_⟩
      cases i with
      | zero =>
        obtain rfl : first = positions := by simpa using hi
        exact hp
      | succ i =>
        have := hfollow i positions (by simpa using hi)
        rwa [show p + (i + 1) = p + 1 + i by omega]
    · rintro ⟨p, h⟩
      refine ⟨p, h 0 first rfl, fun i positions hi => ?_⟩
      have := h (i + 1) positions (by simpa using hi)
      rwa [show p + 1 + i = p + (i + 1) by omega]

end Quarry.Positions
