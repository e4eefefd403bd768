import Quarry.Proofs.Number.Value
import Quarry.Proofs.Number.Whole

/-! Quotients of natural numbers as doubles. A share of a number that is not too large is rounded by
so little that different shares stay different, and in their order. -/

namespace Quarry.Binary

open Float.Model (Format)
open Float.Model.UnpackedFloat

/-- Rounding a number that is not among the least changes it by little of what it is. -/
theorem exists_near_roundWithAccuracy (s : Sign) {m : ℕ} (hm : 0 < m) {e : ℤ} (accuracy : Accuracy)
    (fine : e ≤ place m e) (long : surplus m e ≤ m.log2) (normal : place m e ≠ -1074) {r : ℚ}
    (low : (m : ℚ) * 2 ^ e ≤ r) (high : r < (m + 1) * 2 ^ e) :
    ∃ m' e', ∃ h : IsMagnitude m' e',
      roundWithAccuracy Format.binary64 s m e accuracy = .finite s m' e' h.pos ∧
        |(m' : ℚ) * 2 ^ e' - r| ≤ r / 2 ^ 51 := by
  obtain ⟨m', e', h, heq, hvalue, -⟩ := exists_roundWithAccuracy_eq s hm accuracy fine long
  refine ⟨m', e', h, heq, ?_⟩
  obtain ⟨-, -, hdigits, -⟩ := rounded_bounds hm accuracy fine long
  have hplace : (2 : ℚ) ^ place m e = 2 ^ surplus m e * 2 ^ e := by
    have hfirst : place m e = surplus m e + e := by
      rw [surplus]
      omega
    rw [hfirst, zpow_add₀ two_ne_zero, zpow_natCast]
  have hdivide := Nat.div_add_mod m (2 ^ surplus m e)
  have hmod := Nat.mod_lt m (Nat.two_pow_pos (surplus m e))
  have hrounded := rounded_eq m e accuracy
  replace hdigits := hdigits.resolve_left normal
  generalize rounded m e accuracy = n at *
  generalize m / 2 ^ surplus m e = q at *
  have hunit : (0 : ℚ) < 2 ^ place m e := by positivity
  have hbelow : (q : ℚ) * 2 ^ place m e ≤ r := by
    refine le_trans ?_ low
    have hcut : q * 2 ^ surplus m e ≤ m := by rw [mul_comm]; omega
    rw [hplace, ← mul_assoc]
    exact mul_le_mul_of_nonneg_right (by exact_mod_cast hcut) (by positivity)
  have habove : r ≤ (q + 1) * 2 ^ place m e := by
    refine high.le.trans ?_
    have hcut : m + 1 ≤ (q + 1) * 2 ^ surplus m e := by rw [add_mul, mul_comm q]; omega
    rw [hplace, ← mul_assoc]
    exact mul_le_mul_of_nonneg_right (by exact_mod_cast hcut) (by positivity)
  have hsmall : (2 : ℚ) ^ 51 * 2 ^ place m e ≤ q * 2 ^ place m e :=
    mul_le_mul_of_nonneg_right (by exact_mod_cast (show 2 ^ 51 ≤ q by omega)) hunit.le
  have herror : |(m' : ℚ) * 2 ^ e' - r| ≤ 2 ^ place m e := by
    rw [hvalue, abs_le]
    rcases hrounded with rfl | rfl
    · constructor <;> linarith
    · push_cast
      constructor <;> linarith
  rw [le_div_iff₀ (by positivity), mul_comm]
  calc (2 : ℚ) ^ 51 * |(m' : ℚ) * 2 ^ e' - r| ≤ 2 ^ 51 * 2 ^ place m e :=
        mul_le_mul_of_nonneg_left herror (by positivity)
    _ ≤ r := hsmall.trans hbelow

/-! ### Shares -/

theorem exists_unpack_ofNat {n : ℕ} (hn : 0 < n) (small : n < Number.exactBound) :
    ∃ m e, ∃ h : IsMagnitude m e, (Float.ofNat n).toModel.unpack = .finite .positive m e h.pos ∧
      (m : ℚ) * 2 ^ e = n ∧ m.log2 + e = n.log2 := by
  have hlog : n.log2 ≤ 52 := Nat.lt_succ_iff.1 ((Nat.log2_lt hn.ne').2 small)
  obtain ⟨h, hvalue⟩ := isMagnitude_scaled hn small
  refine ⟨_, _, h, unpack_ofNat hn small h (by omega) (round_small hn small), hvalue, ?_⟩
  rw [log2_mul_two_pow hn]
  omega

theorem exists_unpack_share {c n : ℕ} (hc : 0 < c) (hle : c ≤ n) (small : n < Number.exactBound) :
    ∃ m e, ∃ h : IsMagnitude m e,
      (Float.ofNat c / Float.ofNat n).toModel.unpack = .finite .positive m e h.pos ∧
        |(m : ℚ) * 2 ^ e - c / n| ≤ 1 / 2 ^ 51 := by
  have hn := hc.trans_le hle
  have hlog : n.log2 ≤ 52 := Nat.lt_succ_iff.1 ((Nat.log2_lt hn.ne').2 small)
  obtain ⟨m, e, h, hx, hvalue, hreach⟩ := exists_unpack_ofNat hc (hle.trans_lt small)
  obtain ⟨m', e', h', hy, hvalue', hreach'⟩ := exists_unpack_ofNat hn small
  obtain ⟨q, t, accuracy, heq, hfine, -, hlow, hhigh, hnear⟩ := exists_div_finite_eq h h'
  obtain ⟨hpos, hlong, hfar⟩ := hnear (by omega)
  rw [hvalue, hvalue'] at hlow hhigh
  have hnormal : place q t ≠ -1074 := by
    rw [place]
    omega
  obtain ⟨m'', e'', h'', hround, hclose⟩ :=
    exists_near_roundWithAccuracy .positive hpos accuracy hfine hlong hnormal hlow hhigh
  have hone : (c : ℚ) / n ≤ 1 := (div_le_one (by exact_mod_cast hn)).2 (by exact_mod_cast hle)
  have hclose : |(m'' : ℚ) * 2 ^ e'' - c / n| ≤ 1 / 2 ^ 51 :=
    hclose.trans (div_le_div_of_nonneg_right hone (by positivity))
  have htop : ¬971 < e'' := by
    intro hgt
    have hlarge : (2 : ℚ) ^ (1 : ℤ) ≤ m'' * 2 ^ e'' :=
      calc (2 : ℚ) ^ (1 : ℤ) ≤ 2 ^ e'' := zpow_le_zpow_right₀ one_le_two (by omega)
        _ ≤ m'' * 2 ^ e'' := le_mul_of_one_le_left (by positivity) (by exact_mod_cast h''.pos)
    have := (abs_le.1 hclose).2
    norm_num at this hlarge
    linarith
  exact ⟨m'', e'', h'',
    by rw [unpack_div, hx, hy, heq, hround, unpack_pack .positive h'', if_neg htop], hclose⟩

/-- A share is a number next to the fraction that it is. -/
theorem exists_value_share {c n : ℕ} (hn : 0 < n) (hle : c ≤ n) (small : n < Number.exactBound) :
    (Float.ofNat c / Float.ofNat n).isNaN = false ∧
      ∃ v : ℚ, value (Float.ofNat c / Float.ofNat n) = (v : WithTop ℚ) ∧
        |v - c / n| ≤ 1 / 2 ^ 51 := by
  rcases Nat.eq_zero_or_pos c with rfl | hc
  · obtain ⟨m, e, h, hy, -, -⟩ := exists_unpack_ofNat hn small
    have hzero : (Float.ofNat 0).toModel.unpack = .zero .positive := rfl
    have hshare : (Float.ofNat 0 / Float.ofNat n).toModel.unpack = .zero .positive := by
      rw [unpack_div, hzero, hy]
      exact unpack_pack_zero _
    refine ⟨?_, 0, by rw [value, hshare]; rfl, by simp⟩
    change (Float.ofNat 0 / Float.ofNat n).toModel.unpack.isNaN = false
    rw [hshare]
    rfl
  · obtain ⟨m, e, h, hshare, hnear⟩ := exists_unpack_share hc hle small
    refine ⟨?_, m * 2 ^ e, by rw [value, hshare]; rfl, hnear⟩
    change (Float.ofNat c / Float.ofNat n).toModel.unpack.isNaN = false
    rw [hshare]
    rfl

/-- Shares of one number are in the order of what they are shares for. -/
theorem value_share_lt_iff {c c' n : ℕ} (hn : 0 < n) (hle : c ≤ n) (hle' : c' ≤ n)
    (small : n ≤ 2 ^ 48) :
    value (Float.ofNat c / Float.ofNat n) < value (Float.ofNat c' / Float.ofNat n) ↔ c < c' := by
  have hbound : n < Number.exactBound := small.trans_lt (by decide)
  obtain ⟨v, hv, hnear⟩ := (exists_value_share hn hle hbound).2
  obtain ⟨v', hv', hnear'⟩ := (exists_value_share hn hle' hbound).2
  rw [hv, hv', WithBot.coe_lt_coe, WithTop.coe_lt_coe]
  have hgap : ∀ {a b : ℕ} {x y : ℚ}, a < b → |x - a / n| ≤ 1 / 2 ^ 51 →
      |y - b / n| ≤ 1 / 2 ^ 51 → x < y := by
    intro a b x y hlt hx hy
    have hstep : (a : ℚ) / n + 1 / 2 ^ 48 ≤ b / n := by
      have hn' : (0 : ℚ) < n := by exact_mod_cast hn
      have hunit : (1 : ℚ) / 2 ^ 48 ≤ 1 / n :=
        one_div_le_one_div_of_le hn' (by exact_mod_cast small)
      have hnext : ((a : ℚ) + 1) / n ≤ b / n :=
        div_le_div_of_nonneg_right (by exact_mod_cast hlt) hn'.le
      rw [add_div] at hnext
      linarith
    have := (abs_le.1 hx).2
    have := (abs_le.1 hy).1
    norm_num at *
    linarith
  constructor
  · intro hlt
    by_contra hnot
    rcases Nat.lt_or_eq_of_le (not_lt.1 hnot) with hgt | rfl
    · exact absurd hlt (hgap hgt hnear' hnear).not_gt
    · rw [hv, WithBot.coe_inj, WithTop.coe_inj] at hv'
      exact absurd hlt (hv' ▸ lt_irrefl v)
  · exact fun hlt => hgap hlt hnear hnear'

end Quarry.Binary
