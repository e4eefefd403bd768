import Quarry.Proofs.Number.Order
import Quarry.Proofs.Search.Told

/-! How many results a source is asked for. It is a multiple of the results wanted and never fewer,
although the product is one of doubles, as long as the factor is a number at all. -/

namespace Quarry

/-! ### Selections -/

namespace Number

variable {α : Type} (items : List α)

theorem take_take_of_le {n k : ℕ} (h : n ≤ k) : (items.take k).take n = items.take n := by
  rw [List.take_take, min_eq_left h]

/-- A count that is not below a natural number selects that many items. -/
theorem take_select_ofFloat {x : Float} {m n : ℕ} {e : ℤ} {hm : 0 < m}
    (hx : x.toModel.unpack = .finite .positive m e hm) (hle : (n : ℚ) ≤ m * 2 ^ e) :
    ((ofFloat x).select items).take n = items.take n := by
  have hparts := Binary.ofFloat_eq x
  rw [hx, Binary.ofUnpacked] at hparts
  have hquotient : n ≤ m * 2 ^ e.toNat / 2 ^ (-e).toNat := by
    rw [Nat.le_div_iff_mul_le (Nat.two_pow_pos _)]
    have hscaled := mul_le_mul_of_nonneg_right hle (show (0 : ℚ) ≤ 2 ^ (-e).toNat by positivity)
    rw [mul_assoc, zpow_mul_pow_toNat two_ne_zero] at hscaled
    exact_mod_cast hscaled
  rw [ofFloat]
  cases hwhole : wholePart? x with
  | some k =>
    rw [wholePart?, hparts] at hwhole
    obtain ⟨-, hk⟩ := Option.ite_none_right_eq_some.1 hwhole
    exact take_take_of_le items (hquotient.trans (Option.some.inj hk).le)
  | none =>
    have hpositive : ¬x < 0 := by
      rw [Binary.lt_iff, hx]
      intro hlt
      cases hlt
    have hfloor : floorNat? x = some (m * 2 ^ e.toNat / 2 ^ (-e).toNat) := by
      rw [floorNat?, hparts]
      rfl
    simp only [select, if_neg hpositive, hfloor, takeBound]
    exact take_take_of_le items hquotient

theorem select_ofFloat_infinite {x : Float} (hx : x.toModel.unpack = .infinity .positive) :
    (ofFloat x).select items = items := by
  have hparts := Binary.ofFloat_eq x
  rw [hx, Binary.ofUnpacked] at hparts
  have hpositive : ¬x < 0 := by
    rw [Binary.lt_iff, hx]
    intro hlt
    cases hlt
  have hwhole : wholePart? x = none := by rw [wholePart?, hparts]
  have hfloor : floorNat? x = none := by
    rw [floorNat?, hparts]
    rfl
  simp only [ofFloat, hwhole, select, if_neg hpositive, hfloor, takeBound]

end Number

/-- A source is asked for no fewer results than are wanted. -/
theorem Settings.take_candidates {s : Settings} {factor : Number}
    (hfactor : s.candidateFactor = some factor) (number : factor.isNotANumber = false) {bound : ℕ}
    (told : Told bound) {α : Type} (items : List α) :
    ((s.candidates bound).select items).take bound = items.take bound := by
  rw [candidates, hfactor]
  cases factor with
  | whole n => exact Number.take_take_of_le items (Nat.le_mul_of_pos_right _ (by omega))
  | real x =>
    change x.isNaN = false at number
    simp only [number, Bool.false_eq_true, if_false]
    split
    · exact Number.take_take_of_le items le_rfl
    · rename_i above
      rcases Nat.eq_zero_or_pos bound with rfl | hpos
      · rw [List.take_zero, List.take_zero]
      obtain ⟨m, e, hm, hbound, hvalue⟩ := told.unpack_ofNat hpos
      have one : (1 : ℚ) ≤ m * 2 ^ e := hvalue ▸ Nat.one_le_cast.2 hpos
      rcases Binary.le_mul hbound one number above with hproduct | ⟨n, f, hn, hproduct, hle⟩
      · rw [Number.select_ofFloat_infinite items hproduct]
      · exact Number.take_select_ofFloat items hproduct (hvalue ▸ hle)

end Quarry
