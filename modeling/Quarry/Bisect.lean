/-!
Search by halving. `bisect` finds where a condition stops to hold, provided that it holds up to some
place and nowhere from there on.
-/

namespace Quarry

/-- Between `low` and `high`, the least index at which `below` does not hold, found by halving. -/
def bisect (below : Nat → Bool) (low high : Nat) : Nat :=
  if low < high then
    if below ((low + high) / 2) then bisect below ((low + high) / 2 + 1) high
    else bisect below low ((low + high) / 2)
  else low
termination_by high - low

theorem bisect_le (below : Nat → Bool) {low high : Nat} (h : low ≤ high) :
    bisect below low high ≤ high := by
  fun_induction bisect below low high <;> omega

/-- Where the condition is inherited downwards, the answer parts the places at which it holds from
those at which it does not. -/
theorem bisect_spec (below : Nat → Bool) (low high : Nat)
    (down : ∀ i j, low ≤ i → i ≤ j → j < high → below j = true → below i = true) :
    (∀ i, low ≤ i → i < bisect below low high → below i = true) ∧
      ∀ i, bisect below low high ≤ i → i < high → below i = false := by
  fun_induction bisect below low high with
  | case1 low high hlt hmid ih =>
    obtain ⟨below_answer, above_answer⟩ := ih fun i j hi hij hj => down i j (by omega) hij hj
    refine ⟨fun i hi hlt' => ?_, above_answer⟩
    by_cases him : i ≤ (low + high) / 2
    · exact down i _ hi him (by omega) hmid
    · exact below_answer i (by omega) hlt'
  | case2 low high hlt hmid ih =>
    obtain ⟨below_answer, above_answer⟩ := ih fun i j hi hij hj => down i j hi hij (by omega)
    refine ⟨below_answer, fun i hi hlt' => ?_⟩
    by_cases him : i < (low + high) / 2
    · exact above_answer i hi him
    · refine Bool.eq_false_iff.2 fun hbelow => hmid ?_
      exact down _ i (by omega) (by omega) hlt' hbelow
  | case3 low high hge => exact ⟨fun i hi hlt' => by omega, fun i hi hlt' => by omega⟩

end Quarry
