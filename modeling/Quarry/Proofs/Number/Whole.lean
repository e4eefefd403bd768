import Quarry.Proofs.Number.Amounts
import Quarry.Proofs.Number.Told

/-! Natural numbers as doubles. A natural number that a double is becomes that double, so that a
double which is held as a natural number is not changed, but for the sign of zero. -/

namespace Quarry

/-- A number that a double is. -/
def Number.IsDouble (n : Number) : Prop := ofFloat n.toFloat = n

/-- A natural number that has all its digits in a text, or is a double. -/
def Told (n : ℕ) : Prop := n < Number.exactBound ∨ wholePart? (Float.ofNat n) = some n

theorem wholePart?_of_isDouble {n : ℕ} (h : (Number.whole n).IsDouble) :
    wholePart? (Float.ofNat n) = some n := by
  change Number.ofFloat (Float.ofNat n) = .whole n at h
  rw [Number.ofFloat] at h
  cases hwhole : wholePart? (Float.ofNat n) with
  | none =>
    rw [hwhole] at h
    cases h
  | some n' =>
    rw [hwhole] at h
    rw [Number.whole.inj h]

/-- The whole part of a double that is not whole has all its digits in a text. -/
theorem floorNat?_lt {x : Float} (fraction : wholePart? x = none) :
    (floorNat? x).getD 0 < Number.exactBound := by
  have hbound : 0 < Number.exactBound := Nat.two_pow_pos 53
  rw [wholePart?] at fraction
  rw [floorNat?]
  rcases hx : Binary.ofFloat x with ⟨negative, magnitude⟩
  rw [hx] at fraction
  cases magnitude with
  | notANumber => cases negative <;> exact hbound
  | infinite => cases negative <;> exact hbound
  | finite m e =>
    cases negative with
    | true => exact hbound
    | false =>
      have hnot : ¬m * 2 ^ e.toNat % 2 ^ (-e).toNat = 0 := fun hzero =>
        absurd (fraction.symm.trans (if_pos ⟨hzero, .inl rfl⟩)) (by simp)
      have he : e.toNat = 0 := by
        by_contra hpositive
        rw [show (-e).toNat = 0 by omega, pow_zero, Nat.mod_one] at hnot
        exact hnot rfl
      have hm : m < 2 ^ 53 := by
        rcases Nat.eq_zero_or_pos m with rfl | hm
        · positivity
        · exact (Binary.isMagnitude_of_ofFloat (congrArg Binary.magnitude hx) hm).1.below
      change m * 2 ^ e.toNat / 2 ^ (-e).toNat < 2 ^ 53
      rw [he, pow_zero, mul_one]
      exact (Nat.div_le_self m _).trans_lt hm

/-- A natural number of at most fifty-three digits is a magnitude when it is given all of them. -/
theorem isMagnitude_scaled {n : ℕ} (hn : 0 < n) (small : n < Number.exactBound) :
    Binary.IsMagnitude (n * 2 ^ (52 - n.log2)) (-(52 - n.log2 : ℕ)) ∧
      ((n * 2 ^ (52 - n.log2) : ℕ) : ℚ) * 2 ^ (-(52 - n.log2 : ℕ) : ℤ) = n := by
  have hlog : n.log2 ≤ 52 := Nat.lt_succ_iff.1 ((Nat.log2_lt hn.ne').2 small)
  have hpower : n * 2 ^ (52 - n.log2) < 2 ^ 53 := by
    calc n * 2 ^ (52 - n.log2) < 2 ^ (n.log2 + 1) * 2 ^ (52 - n.log2) :=
          Nat.mul_lt_mul_of_pos_right Nat.lt_log2_self (Nat.two_pow_pos _)
      _ = 2 ^ 53 := by rw [← pow_add]; congr 1; omega
  have hlow : 2 ^ 52 ≤ n * 2 ^ (52 - n.log2) := by
    calc 2 ^ 52 = 2 ^ n.log2 * 2 ^ (52 - n.log2) := by rw [← pow_add]; congr 1; omega
      _ ≤ n * 2 ^ (52 - n.log2) := Nat.mul_le_mul_right _ (Nat.log2_self_le hn.ne')
  refine ⟨⟨by positivity, hpower, by omega, .inr hlow⟩, ?_⟩
  push_cast
  rw [zpow_neg, zpow_natCast, mul_inv_cancel_right₀ (by positivity)]

namespace Binary

open Float.Model (Format)
open Float.Model.UnpackedFloat

/-- A natural number of at most fifty-three digits is rounded to itself. -/
theorem round_small {n : ℕ} (hn : 0 < n) (small : n < Number.exactBound) :
    Float.Model.UnpackedFloat.round Format.binary64 .positive n 0 =
      .finite .positive (n * 2 ^ (52 - n.log2)) (-(52 - n.log2 : ℕ))
        (isMagnitude_scaled hn small).1.pos := by
  have hlog : n.log2 ≤ 52 := Nat.lt_succ_iff.1 ((Nat.log2_lt hn.ne').2 small)
  have hshift : (0 - place n 0).toNat = 52 - n.log2 := by
    rw [place]
    omega
  have hsame := roundWithAccuracy_magnitude .positive (isMagnitude_scaled hn small).1 0
  rw [pow_zero, mul_one, Nat.cast_zero, sub_zero] at hsame
  rw [Float.Model.UnpackedFloat.round, ← hsame]
  simp only [targetExponent_eq, decreaseExponent, Nat.shiftLeft_eq]
  rw [hshift, zero_sub]

/-- A natural number that is below a word's bound is rounded. -/
theorem unpack_ofNat {n m : ℕ} {e : ℤ} (hn : 0 < n) (small : n < Number.exactBound)
    (h : IsMagnitude m e) (top : e ≤ 971)
    (hround : Float.Model.UnpackedFloat.round Format.binary64 .positive n 0 =
      .finite .positive m e h.pos) :
    (Float.ofNat n).toModel.unpack = .finite .positive m e h.pos := by
  change n < 2 ^ 53 at small
  have hword : n.toUInt64.toFloat.toModel.unpack = .finite .positive m e h.pos := by
    have hnat : n.toUInt64.toNat = n := Nat.mod_eq_of_lt (by omega)
    change (Float.Model.pack (normalize Format.binary64 (n.toUInt64.toNat : ℤ) 0
      .positive)).unpack = _
    rw [hnat, Float.Model.UnpackedFloat.normalize, compare_gt_iff_gt.2 (show (n : ℤ) > 0 by omega)]
    simp only [Int.toNat_natCast]
    rw [hround, unpack_pack .positive h, if_neg (by omega)]
  -- The word is multiplied by one, a power of ten.
  have hfloat : Float.ofNat n = n.toUInt64.toFloat * Float.ofBits 4607182418800017408 := by
    change Float.ofScientific n false 0 = _
    rw [Float.ofScientific, dif_pos (by omega)]
    rfl
  have hone : (Float.ofBits 4607182418800017408).toModel.unpack =
      .finite .positive (2 ^ 52) (-52) (by decide) := by rfl
  rw [hfloat, unpack_mul, hword, hone]
  change (Float.Model.pack (roundWithAccuracy Format.binary64 .positive (m * 2 ^ 52) (e - (52 : ℕ))
    .exact)).unpack = _
  rw [roundWithAccuracy_magnitude .positive h, unpack_pack .positive h, if_neg (by omega)]

end Binary

/-- A natural number that a text tells is a double. -/
theorem Told.unpack_ofNat {n : ℕ} (h : Told n) (hn : 0 < n) :
    ∃ m e, ∃ hm : 0 < m, (Float.ofNat n).toModel.unpack = .finite .positive m e hm ∧
      (m : ℚ) * 2 ^ e = n := by
  by_cases small : n < Number.exactBound
  · obtain ⟨hmagnitude, hvalue⟩ := isMagnitude_scaled hn small
    exact ⟨_, _, hmagnitude.pos, Binary.unpack_ofNat hn small hmagnitude (by omega)
      (Binary.round_small hn small), hvalue⟩
  · have hwhole := h.resolve_left small
    have hparts := Binary.ofFloat_eq (Float.ofNat n)
    have hamount := Binary.isAmount_ofNat n
    cases hx : (Float.ofNat n).toModel.unpack with
    | finite s m e hm =>
      rw [hx] at hparts hamount
      obtain rfl : s = .positive := hamount
      exact ⟨m, e, hm, rfl, value_of_wholePart? hwhole hparts⟩
    | zero s =>
      rw [hx, Binary.ofUnpacked] at hparts
      rw [wholePart?, hparts] at hwhole
      obtain ⟨-, hzero⟩ := Option.ite_none_right_eq_some.1 hwhole
      rw [Nat.zero_mul, Nat.zero_div] at hzero
      exact absurd (Option.some.inj hzero) hn.ne
    | infinity s | notANumber =>
      rw [hx, Binary.ofUnpacked] at hparts
      rw [wholePart?, hparts] at hwhole
      cases hwhole

/-- A double above zero is no whole number with its sign changed. -/
theorem wholePart?_neg {x : Float} (h : 0 < x) : wholePart? (-x) = none := by
  have hzero : (0 : Float).toModel.unpack = .zero .positive := rfl
  have hneg : (-x).toModel.unpack = (Float.Model.pack x.toModel.unpack.neg).unpack := rfl
  have hparts := Binary.ofFloat_eq (-x)
  rw [Binary.lt_iff, hzero] at h
  rw [hneg] at hparts
  cases hx : x.toModel.unpack with
  | notANumber | zero s =>
    rw [hx] at h
    cases h
  | infinity s =>
    rw [hx, Float.Model.UnpackedFloat.neg, Binary.unpack_pack_infinity] at hparts
    rw [wholePart?, hparts]
    rfl
  | finite s m e hm =>
    rw [hx] at h hparts
    obtain rfl : s = .positive := by cases s <;> first | rfl | cases h
    obtain ⟨hmagnitude, htop⟩ := Binary.isMagnitude_of_unpack hx
    have hsigned := Binary.unpack_pack .negative hmagnitude
    rw [if_neg (by omega)] at hsigned
    replace hparts : Binary.ofFloat (-x) = ⟨true, .finite m e⟩ :=
      hparts.trans (congrArg Binary.ofUnpacked hsigned)
    refine Option.eq_none_iff_forall_ne_some.2 fun n hn => ?_
    exact absurd (negative_of_wholePart? hn hparts hm) (by decide)

/-! ### Doubles that are held as natural numbers -/

/-- Magnitudes of one value are the same. -/
theorem Binary.IsMagnitude.eq_of_value {m m' : ℕ} {e e' : ℤ} (h : IsMagnitude m e)
    (h' : IsMagnitude m' e') (hvalue : (m : ℚ) * 2 ^ e = m' * 2 ^ e') : m = m' ∧ e = e' := by
  have hnot : ∀ {m m' : ℕ} {e e' : ℤ}, IsMagnitude m e → IsMagnitude m' e' →
      (m : ℚ) * 2 ^ e = m' * 2 ^ e' → ¬e < e' := by
    intro m m' e e' h h' hvalue hlt
    obtain ⟨j, hj⟩ := Int.eq_ofNat_of_zero_le (sub_nonneg.2 hlt.le)
    obtain rfl : e' = e + j := by omega
    rw [zpow_add₀ two_ne_zero, zpow_natCast, mul_comm ((2 : ℚ) ^ e), ← mul_assoc] at hvalue
    have hm : m = m' * 2 ^ j := by exact_mod_cast mul_right_cancel₀ (by positivity) hvalue
    have hleast := h.least
    have hdigits := h'.normal.resolve_left (by omega)
    have htwo : 2 ^ 1 ≤ 2 ^ j := Nat.pow_le_pow_right two_pos (by omega)
    have hbelow := h.below
    have hlarge : 2 ^ 52 * 2 ^ 1 ≤ m' * 2 ^ j := Nat.mul_le_mul hdigits htwo
    omega
  obtain rfl : e = e' :=
    le_antisymm (not_lt.1 (hnot h' h hvalue.symm)) (not_lt.1 (hnot h h' hvalue))
  exact ⟨by exact_mod_cast mul_right_cancel₀ (by positivity) hvalue, rfl⟩

/-- A double that is held as a natural number stays the same, but for the sign of zero. -/
theorem toFloat_ofFloat (x : Float) : (Number.ofFloat x).toFloat = x ∨
    Binary.IsZero (Number.ofFloat x).toFloat ∧ Binary.IsZero x := by
  have hparts := Binary.ofFloat_eq x
  rw [Number.ofFloat]
  cases hwhole : wholePart? x with
  | none => exact .inl rfl
  | some n =>
    change Float.ofNat n = x ∨ Binary.IsZero (Float.ofNat n) ∧ Binary.IsZero x
    cases hx : x.toModel.unpack with
    | notANumber | infinity s =>
      rw [hx, Binary.ofUnpacked] at hparts
      rw [wholePart?, hparts] at hwhole
      cases hwhole
    | zero s =>
      rw [hx, Binary.ofUnpacked] at hparts
      have hvalue := value_of_wholePart? hwhole hparts
      obtain rfl : n = 0 := by simpa using hvalue.symm
      exact .inr ⟨⟨.positive, rfl⟩, s, hx⟩
    | finite s m e hm =>
      rw [hx, Binary.ofUnpacked] at hparts
      obtain ⟨hmagnitude, -⟩ := Binary.isMagnitude_of_unpack hx
      have hvalue := value_of_wholePart? hwhole hparts
      have hnegative := negative_of_wholePart? hwhole hparts hm
      obtain rfl : s = .positive := by cases s <;> first | rfl | cases hnegative
      have hn : 0 < n := by
        have hpositive : (0 : ℚ) < m * 2 ^ e := mul_pos (by exact_mod_cast hm) (by positivity)
        rw [hvalue] at hpositive
        exact_mod_cast hpositive
      by_cases small : n < Number.exactBound
      · obtain ⟨hscaled, hsame⟩ := isMagnitude_scaled hn small
        have hunpack :=
          Binary.unpack_ofNat hn small hscaled (by omega) (Binary.round_small hn small)
        obtain ⟨hm', he'⟩ := hscaled.eq_of_value hmagnitude (hsame.trans hvalue.symm)
        refine .inl (Binary.eq_of_unpack ?_)
        rw [hunpack, hx]
        simp only [hm', he']
      · exact .inl (Binary.ofNat_eq hparts hm hvalue (not_lt.1 small))

theorem isZero_toFloat_ofFloat_iff {x : Float} :
    Binary.IsZero (Number.ofFloat x).toFloat ↔ Binary.IsZero x := by
  rcases toFloat_ofFloat x with hsame | ⟨hzero, hzero'⟩
  · rw [hsame]
  · exact iff_of_true hzero hzero'

theorem Number.ofFloat_of_isZero {x : Float} (h : Binary.IsZero x) : ofFloat x = .whole 0 := by
  obtain ⟨s, hs⟩ := h
  have hparts := Binary.ofFloat_eq x
  rw [hs, Binary.ofUnpacked] at hparts
  have hnumerator : 0 * Nat.pow 2 (-1074 : ℤ).toNat = 0 := Nat.zero_mul _
  have hpart : wholePart? x = some 0 := by
    rw [wholePart?, hparts]
    simp only [Binary.fraction, hnumerator, Nat.zero_mod, Nat.zero_div, or_true, and_self, if_true]
  rw [ofFloat, hpart]

theorem Number.isDouble_ofFloat (x : Float) : (ofFloat x).IsDouble := by
  rw [IsDouble]
  rcases toFloat_ofFloat x with hsame | ⟨hzero, hzero'⟩
  · rw [hsame]
  · rw [ofFloat_of_isZero hzero, ofFloat_of_isZero hzero']

/-- A finite number that a double is becomes a finite double. -/
theorem Number.IsDouble.isFinite_toFloat {n : Number} (h : n.IsDouble)
    (finite : n.isFinite = true) :
    Binary.IsFinite n.toFloat.toModel.unpack := by
  cases n with
  | real x => exact Binary.isFinite_real_iff.1 finite
  | whole n =>
    have hwhole := wholePart?_of_isDouble h
    have hparts := Binary.ofFloat_eq (Float.ofNat n)
    change Binary.IsFinite (Float.ofNat n).toModel.unpack
    cases hx : (Float.ofNat n).toModel.unpack with
    | zero s | finite s m e hm => exact trivial
    | infinity s | notANumber =>
      rw [hx, Binary.ofUnpacked] at hparts
      rw [wholePart?, hparts] at hwhole
      cases hwhole

end Quarry
