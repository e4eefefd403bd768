import Quarry.Number.Decimal
import Quarry.Proofs.Number.Double

namespace Quarry

theorem zpow_mul_pow_toNat {a : ℚ} (ha : a ≠ 0) (e : ℤ) : a ^ e * a ^ (-e).toNat = a ^ e.toNat := by
  rcases le_total 0 e with he | he
  · obtain ⟨n, rfl⟩ := Int.eq_ofNat_of_zero_le he
    have hneg : (-(n : ℤ)).toNat = 0 := by omega
    simp [hneg]
  · obtain ⟨n, hn⟩ := Int.eq_ofNat_of_zero_le (Int.neg_nonneg_of_nonpos he)
    obtain rfl : e = -(n : ℤ) := by omega
    have htoNat : (-(n : ℤ)).toNat = 0 := by omega
    rw [htoNat, neg_neg, Int.toNat_natCast, zpow_neg, zpow_natCast, pow_zero]
    exact inv_mul_cancel₀ (pow_ne_zero n ha)

namespace Decimal

open Binary (IsMagnitude)

/-- The number that digits and a scale stand for. -/
def value (d : Decimal) : ℚ := d.digits * 10 ^ d.scale

namespace Interval

/-- The ends of an interval. -/
def lower (i : Interval) : ℚ := i.low / i.denominator

def upper (i : Interval) : ℚ := i.high / i.denominator

theorem holds_iff {i : Interval} (hden : 0 < i.denominator) (d : Decimal) : i.holds d = true ↔
    if i.closed then i.lower ≤ d.value ∧ d.value ≤ i.upper
      else i.lower < d.value ∧ d.value < i.upper := by
  have hden' : (0 : ℚ) < i.denominator := by exact_mod_cast hden
  have hunit : (0 : ℚ) < 10 ^ (-d.scale).toNat := by positivity
  have hscale := zpow_mul_pow_toNat (a := 10) (by norm_num) d.scale
  have hvalue : d.value * i.denominator * 10 ^ (-d.scale).toNat =
      ((d.digits * Nat.pow 10 d.scale.toNat * i.denominator : ℕ) : ℚ) := by
    push_cast [Nat.pow_eq]
    rw [value, ← hscale]
    ring
  have hlow : i.lower * i.denominator * 10 ^ (-d.scale).toNat =
      ((i.low * Nat.pow 10 (-d.scale).toNat : ℕ) : ℚ) := by
    push_cast [Nat.pow_eq]
    rw [lower, div_mul_cancel₀ _ hden'.ne']
  have hhigh : i.upper * i.denominator * 10 ^ (-d.scale).toNat =
      ((i.high * Nat.pow 10 (-d.scale).toNat : ℕ) : ℚ) := by
    push_cast [Nat.pow_eq]
    rw [upper, div_mul_cancel₀ _ hden'.ne']
  have hscaled : ∀ x y : ℚ, (x ≤ y ↔ x * i.denominator * 10 ^ (-d.scale).toNat ≤
      y * i.denominator * 10 ^ (-d.scale).toNat) ∧
        (x < y ↔ x * i.denominator * 10 ^ (-d.scale).toNat <
          y * i.denominator * 10 ^ (-d.scale).toNat) := fun x y =>
    ⟨by rw [mul_le_mul_iff_left₀ hunit, mul_le_mul_iff_left₀ hden'],
      by rw [mul_lt_mul_iff_left₀ hunit, mul_lt_mul_iff_left₀ hden']⟩
  rw [(hscaled i.lower d.value).1, (hscaled d.value i.upper).1, (hscaled i.lower d.value).2,
    (hscaled d.value i.upper).2, hvalue, hlow, hhigh]
  rw [holds]
  split <;> simp only [Bool.and_eq_true, decide_eq_true_eq, Nat.cast_le, Nat.cast_lt]

/-- How far the interval of a double reaches below it, in units of its last place: half a unit, and
a quarter above a power of two, where the doubles below are closer. -/
def reach (m : ℕ) (e : ℤ) : ℚ := if m = 2 ^ 52 ∧ -1074 < e then 1 / 4 else 1 / 2

theorem reach_pos (m : ℕ) (e : ℤ) : 0 < reach m e := by
  rw [reach]
  split <;> norm_num

theorem reach_le (m : ℕ) (e : ℤ) : reach m e ≤ 1 / 2 := by
  rw [reach]
  split <;> norm_num

theorem denominator_pos (m : ℕ) (e : ℤ) : 0 < (ofBinary m e).1.denominator :=
  Nat.pow_pos (by norm_num)

theorem unit_div_denominator (m : ℕ) (e : ℤ) :
    ((Nat.pow 2 (e - 2).toNat : ℕ) : ℚ) / (ofBinary m e).1.denominator = 2 ^ e / 4 := by
  have hden : (ofBinary m e).1.denominator = 2 ^ (-(e - 2)).toNat := by
    rw [show -(e - 2) = 2 - e by ring]
    rfl
  have hshift : (2 : ℚ) ^ (e - 2) = 2 ^ e / 4 := by
    rw [zpow_sub₀ (by norm_num)]
    norm_num
  rw [hden, Nat.pow_eq, div_eq_iff (by positivity), ← hshift]
  push_cast
  exact (zpow_mul_pow_toNat (by norm_num) (e - 2)).symm

theorem numerator_div_denominator (m : ℕ) (e : ℤ) :
    ((ofBinary m e).2 : ℚ) / (ofBinary m e).1.denominator = m * 2 ^ e := by
  have hunit := unit_div_denominator m e
  rw [show (ofBinary m e).2 = 4 * m * Nat.pow 2 (e - 2).toNat from rfl, Nat.cast_mul,
    mul_div_assoc, hunit]
  push_cast
  ring

theorem upper_ofBinary (m : ℕ) (e : ℤ) : (ofBinary m e).1.upper = (m + 1 / 2) * 2 ^ e := by
  have hunit := unit_div_denominator m e
  rw [upper, show (ofBinary m e).1.high = (4 * m + 2) * Nat.pow 2 (e - 2).toNat from rfl,
    Nat.cast_mul, mul_div_assoc, hunit]
  push_cast
  ring

theorem lower_ofBinary {m : ℕ} (hm : 0 < m) (e : ℤ) :
    (ofBinary m e).1.lower = (m - reach m e) * 2 ^ e := by
  have hunit := unit_div_denominator m e
  have hlow : (ofBinary m e).1.low =
      (4 * m - if m = Nat.pow 2 52 ∧ -1074 < e then 1 else 2) * Nat.pow 2 (e - 2).toNat := rfl
  rw [lower, hlow, Nat.cast_mul, mul_div_assoc, hunit, reach]
  split
  · rw [if_pos ‹_›, Nat.cast_sub (by omega)]
    push_cast
    ring
  · rw [if_neg ‹_›, Nat.cast_sub (by omega)]
    push_cast
    ring

end Interval

/-- What reads back as a double: what its interval holds. -/
def ReadsAs (v : ℚ) (m : ℕ) (e : ℤ) : Prop :=
  if m % 2 = 0 then (m - Interval.reach m e) * 2 ^ e ≤ v ∧ v ≤ (m + 1 / 2) * 2 ^ e
  else (m - Interval.reach m e) * 2 ^ e < v ∧ v < (m + 1 / 2) * 2 ^ e

theorem holds_ofBinary_iff {m : ℕ} (hm : 0 < m) (e : ℤ) (d : Decimal) :
    (Interval.ofBinary m e).1.holds d = true ↔ ReadsAs d.value m e := by
  rw [Interval.holds_iff (Interval.denominator_pos m e), Interval.lower_ofBinary hm,
    Interval.upper_ofBinary, show (Interval.ofBinary m e).1.closed = (m % 2 == 0) from rfl, ReadsAs]
  simp only [beq_iff_eq]

/-- A double reads back as itself. -/
theorem readsAs_self (m : ℕ) (e : ℤ) : ReadsAs (m * 2 ^ e) m e := by
  have hunit : (0 : ℚ) < 2 ^ e := by positivity
  have hreach := Interval.reach_pos m e
  rw [ReadsAs]
  split <;> constructor <;> nlinarith

theorem ReadsAs.le_upper {v : ℚ} {m : ℕ} {e : ℤ} (h : ReadsAs v m e) : v ≤ (m + 1 / 2) * 2 ^ e := by
  rw [ReadsAs] at h
  split at h
  · exact h.2
  · exact h.2.le

theorem ReadsAs.lower_le {v : ℚ} {m : ℕ} {e : ℤ} (h : ReadsAs v m e) :
    (m - Interval.reach m e) * 2 ^ e ≤ v := by
  rw [ReadsAs] at h
  split at h
  · exact h.1
  · exact h.1.le

/-- The ends belong to the interval only if the mantissa is even. -/
theorem ReadsAs.of_odd {v : ℚ} {m : ℕ} {e : ℤ} (h : ReadsAs v m e) (hodd : m % 2 ≠ 0) :
    (m - Interval.reach m e) * 2 ^ e < v ∧ v < (m + 1 / 2) * 2 ^ e := by
  rwa [ReadsAs, if_neg hodd] at h

/-- Nothing reads back as two doubles, the first of which is the lesser. -/
theorem ReadsAs.not_of_lt {v : ℚ} {m m' : ℕ} {e e' : ℤ} (h : ReadsAs v m e) (h' : ReadsAs v m' e')
    (hm : IsMagnitude m e) (hm' : IsMagnitude m' e') (hlt : e < e' ∨ e = e' ∧ m < m') : False := by
  have hunit : (0 : ℚ) < 2 ^ e := by positivity
  have hhigh := h.le_upper
  have hlow := h'.lower_le
  rcases hlt with hlt | ⟨rfl, hlt⟩
  · -- The doubles with a greater exponent begin where those with a lesser one end.
    have hnormal : 2 ^ 52 ≤ m' := hm'.normal.resolve_left (by have := hm.least; omega)
    have hstep : (2 : ℚ) * 2 ^ e ≤ 2 ^ e' := by
      rw [← zpow_one_add₀ (by norm_num)]
      exact zpow_le_zpow_right₀ (by norm_num) (by omega)
    have hbegin : (2 ^ 52 - 1 / 4 : ℚ) ≤ m' - Interval.reach m' e' := by
      rcases hnormal.eq_or_lt with heq | hgt
      · have hreach : Interval.reach m' e' = 1 / 4 :=
          if_pos ⟨heq.symm, by have := hm.least; omega⟩
        rw [hreach, ← heq]
        norm_num
      · have hgt' : (2 ^ 52 + 1 : ℚ) ≤ m' := by exact_mod_cast hgt
        have hreach := Interval.reach_le m' e'
        linarith
    have hfrom : (2 ^ 53 - 1 / 2 : ℚ) * 2 ^ e ≤ v := by
      calc (2 ^ 53 - 1 / 2 : ℚ) * 2 ^ e = (2 ^ 52 - 1 / 4) * (2 * 2 ^ e) := by ring
        _ ≤ (2 ^ 52 - 1 / 4) * 2 ^ e' := by gcongr
        _ ≤ (m' - Interval.reach m' e') * 2 ^ e' := by gcongr
        _ ≤ v := hlow
    have hmax : (2 ^ 53 - 1 : ℚ) ≤ m := by
      have := le_of_mul_le_mul_right (hfrom.trans hhigh) hunit
      linarith
    have hlast : m = 2 ^ 53 - 1 := by
      have hmax' : 2 ^ 53 ≤ m + 1 := by
        have : ((2 ^ 53 : ℕ) : ℚ) ≤ ((m + 1 : ℕ) : ℚ) := by push_cast; linarith
        exact_mod_cast this
      have := hm.below
      omega
    have hopen := (h.of_odd (by rw [hlast]; norm_num)).2
    have hcast : (m : ℚ) = 2 ^ 53 - 1 := by
      rw [hlast]
      norm_num
    rw [hcast] at hopen
    linarith
  · have hreach : Interval.reach m' e = 1 / 2 := by
      refine if_neg fun hpower => ?_
      rcases hm.normal with hleast | hnormal
      · omega
      · omega
    have hnext : (m + 1 : ℚ) ≤ m' := by exact_mod_cast hlt
    rw [hreach] at hlow
    have hequal : (m' : ℚ) = m + 1 := by
      have := le_of_mul_le_mul_right (hlow.trans hhigh) hunit
      linarith
    rcases Nat.even_or_odd m with heven | hodd
    · have hodd' : m' % 2 ≠ 0 := by
        have : m' = m + 1 := by exact_mod_cast hequal
        obtain ⟨k, hk⟩ := heven
        omega
      have hopen := (h'.of_odd hodd').1
      rw [hreach, hequal] at hopen
      linarith
    · have hopen := (h.of_odd (by obtain ⟨k, hk⟩ := hodd; omega)).2
      rw [hequal] at hlow
      linarith

/-- What reads back as two doubles tells them equal. -/
theorem ReadsAs.unique {v : ℚ} {m m' : ℕ} {e e' : ℤ} (h : ReadsAs v m e) (h' : ReadsAs v m' e')
    (hm : IsMagnitude m e) (hm' : IsMagnitude m' e') : m = m' ∧ e = e' := by
  by_contra hne
  rcases lt_trichotomy e e' with hlt | heq | hgt
  · exact h.not_of_lt h' hm hm' (.inl hlt)
  · rcases Nat.lt_or_gt_of_ne fun hmm => hne ⟨hmm, heq⟩ with hlt | hgt
    · exact h.not_of_lt h' hm hm' (.inr ⟨heq, hlt⟩)
    · exact h'.not_of_lt h hm' hm (.inr ⟨heq.symm, hgt⟩)
  · exact h'.not_of_lt h hm' hm (.inl hgt)

/-! ### The leading digit -/

/-- Enough fuel finds the leading digit. -/
theorem le_mul_pow_leadingZeros {numerator denominator fuel : ℕ}
    (h : denominator ≤ numerator * 10 ^ (fuel + 1)) :
    denominator ≤ numerator * 10 ^ leadingZeros numerator denominator fuel := by
  induction fuel generalizing numerator with
  | zero => exact h
  | succ fuel ih =>
    rw [leadingZeros]
    split
    · rwa [pow_one]
    · rw [pow_succ', ← mul_assoc]
      exact ih (by rwa [pow_succ', ← mul_assoc] at h)

/-- A power of ten with the leading exponent is not above the fraction. -/
theorem pow_leadingExponent_le {numerator denominator : ℕ} (hden : 0 < denominator)
    (h : denominator ≤ numerator * 10 ^ (400 + 1)) :
    (10 : ℚ) ^ leadingExponent numerator denominator ≤ numerator / denominator := by
  have hden' : (0 : ℚ) < denominator := by exact_mod_cast hden
  rw [le_div_iff₀ hden', leadingExponent]
  split
  · rename_i hle
    have hwhole : 0 < numerator / denominator := Nat.div_pos hle hden
    have hlength : 10 ^ ((Nat.toDigits 10 (numerator / denominator)).length - 1) ≤
        numerator / denominator := by
      rcases Nat.eq_zero_or_pos ((Nat.toDigits 10 (numerator / denominator)).length - 1) with
        hone | hmore
      · rw [hone]
        exact hwhole
      · by_contra hlt
        have hshort := (Nat.length_toDigits_le_iff (by norm_num) hmore).2 (not_le.1 hlt)
        omega
    have hpos : 0 < (Nat.toDigits 10 (numerator / denominator)).length :=
      List.length_pos_of_ne_nil Nat.toDigits_ne_nil
    rw [show ((Nat.toDigits 10 (numerator / denominator)).length : ℤ) - 1 =
      (((Nat.toDigits 10 (numerator / denominator)).length - 1 : ℕ) : ℤ) by omega, zpow_natCast]
    exact_mod_cast (Nat.mul_le_mul_right denominator hlength).trans (Nat.div_mul_le_self ..)
  · have hzeros := le_mul_pow_leadingZeros h
    rw [zpow_neg, zpow_natCast, inv_mul_le_iff₀ (by positivity), mul_comm]
    exact_mod_cast hzeros

/-! ### The grid -/

theorem onGrid_holds {i : Interval} {numerator : ℕ} {scale : ℤ} {d : Decimal}
    (h : onGrid i numerator scale = some d) : i.holds d = true := by
  rw [onGrid] at h
  simp only at h
  split at h
  · split at h <;> cases h <;> assumption
  · cases h
    assumption
  · cases h
    assumption
  · cases h

/-- Two numbers around a double less far apart than its interval is wide are not both outside. -/
theorem readsAs_or {m : ℕ} {e : ℤ} {x step : ℚ} (below : x ≤ m * 2 ^ e)
    (above : m * 2 ^ e ≤ x + step) (hstep : step < (Interval.reach m e + 1 / 2) * 2 ^ e) :
    ReadsAs x m e ∨ ReadsAs (x + step) m e := by
  have hunit : (0 : ℚ) < 2 ^ e := by positivity
  have hreach := Interval.reach_pos m e
  by_contra hneither
  rw [not_or] at hneither
  obtain ⟨hx, hs⟩ := hneither
  have hlow : x ≤ (m - Interval.reach m e) * 2 ^ e := by
    by_contra hlt
    refine hx ?_
    rw [ReadsAs]
    split <;> constructor <;> nlinarith
  have hhigh : (m + 1 / 2) * 2 ^ e ≤ x + step := by
    by_contra hlt
    refine hs ?_
    rw [ReadsAs]
    split <;> constructor <;> nlinarith
  nlinarith

/-- A grid that is finer than the interval of a double holds a number that reads back as it. -/
theorem onGrid_ne_none {m : ℕ} (hm : 0 < m) {e scale : ℤ}
    (hstep : (10 : ℚ) ^ scale < (Interval.reach m e + 1 / 2) * 2 ^ e) :
    onGrid (Interval.ofBinary m e).1 (Interval.ofBinary m e).2 scale ≠ none := by
  have hden : (0 : ℚ) < (Interval.ofBinary m e).1.denominator := by
    exact_mod_cast Interval.denominator_pos m e
  have hfraction := Interval.numerator_div_denominator m e
  have hscale := zpow_mul_pow_toNat (a := 10) (by norm_num) scale
  have hunit : (0 : ℚ) < 10 ^ scale := by positivity
  rw [onGrid]
  simp only
  generalize hn : (Interval.ofBinary m e).2 * Nat.pow 10 (-scale).toNat = n
  generalize hd : (Interval.ofBinary m e).1.denominator * Nat.pow 10 scale.toNat = d
  have hdpos : 0 < d := by
    rw [← hd]
    exact Nat.mul_pos (Interval.denominator_pos m e) (Nat.pow_pos (by norm_num))
  -- Both sides of the grid number below are scaled by the denominator and the power of ten.
  have hvalue : (m : ℚ) * 2 ^ e * d = n * 10 ^ scale := by
    rw [← hfraction, ← hn, ← hd]
    push_cast [Nat.pow_eq]
    rw [← hscale]
    field_simp
  have hdrat : (0 : ℚ) < d := by exact_mod_cast hdpos
  have hbelow : (n / d : ℕ) * (10 : ℚ) ^ scale ≤ m * 2 ^ e := by
    have hfloor : ((n / d : ℕ) : ℚ) * d ≤ n := by exact_mod_cast Nat.div_mul_le_self n d
    rw [← mul_le_mul_iff_left₀ hdrat, hvalue]
    nlinarith
  have habove : (m : ℚ) * 2 ^ e ≤ (n / d : ℕ) * 10 ^ scale + 10 ^ scale := by
    have hceil : (n : ℚ) ≤ ((n / d : ℕ) + 1) * d := by
      exact_mod_cast (Nat.lt_div_mul_add hdpos).le.trans (by rw [Nat.add_mul, Nat.one_mul])
    rw [← mul_le_mul_iff_left₀ hdrat, hvalue]
    nlinarith
  have hnext : (n / d : ℕ) * (10 : ℚ) ^ scale + 10 ^ scale = Decimal.value ⟨n / d + 1, scale⟩ := by
    rw [value]
    push_cast
    ring
  have hholds : (Interval.ofBinary m e).1.holds ⟨n / d, scale⟩ = true ∨
      (Interval.ofBinary m e).1.holds ⟨n / d + 1, scale⟩ = true := by
    rw [holds_ofBinary_iff hm, holds_ofBinary_iff hm, ← hnext]
    exact readsAs_or hbelow habove hstep
  split
  · split <;> exact Option.some_ne_none _
  · exact Option.some_ne_none _
  · exact Option.some_ne_none _
  · rename_i hlow hhigh
    rw [hlow, hhigh] at hholds
    simp at hholds

theorem two_pow_le_ten_pow {n k : ℕ} (h : n ≤ 3 * k) : 2 ^ n ≤ 10 ^ k :=
  calc 2 ^ n ≤ 2 ^ (3 * k) := Nat.pow_le_pow_right (by norm_num) h
    _ = (2 ^ 3) ^ k := pow_mul 2 3 k
    _ ≤ 10 ^ k := Nat.pow_le_pow_left (by norm_num) k

/-- Seventeen digits are fine enough for every double. -/
theorem pow_leadingExponent_lt {m : ℕ} {e : ℤ} (h : IsMagnitude m e) :
    (10 : ℚ) ^ (leadingExponent (Interval.ofBinary m e).2
      (Interval.ofBinary m e).1.denominator - 16) < (Interval.reach m e + 1 / 2) * 2 ^ e := by
  have hunit : (0 : ℚ) < 2 ^ e := by positivity
  have hfuel : (Interval.ofBinary m e).1.denominator ≤
      (Interval.ofBinary m e).2 * 10 ^ (400 + 1) := by
    have hden : (Interval.ofBinary m e).1.denominator ≤ 10 ^ (400 + 1) :=
      two_pow_le_ten_pow (by have := h.least; omega)
    have hnum : 0 < (Interval.ofBinary m e).2 :=
      Nat.mul_pos (Nat.mul_pos (by norm_num) h.pos) (Nat.pow_pos (by norm_num))
    exact hden.trans (Nat.le_mul_of_pos_left _ hnum)
  have hleading := pow_leadingExponent_le (Interval.denominator_pos m e) hfuel
  rw [Interval.numerator_div_denominator] at hleading
  rw [zpow_sub₀ (by norm_num), div_lt_iff₀ (by positivity), Interval.reach]
  split
  · rename_i hpower
    have hvalue : (m : ℚ) * 2 ^ e = 2 ^ 52 * 2 ^ e := by
      rw [hpower.1]
      norm_num
    rw [hvalue] at hleading
    norm_num at hleading ⊢
    linarith
  · have hm : (m : ℚ) < 2 ^ 53 := by exact_mod_cast h.below
    have hvalue := mul_lt_mul_of_pos_right hm hunit
    norm_num at hvalue ⊢
    linarith

/-- The shortest digits of a double read back as it. -/
theorem readsAs_shortest {m : ℕ} {e : ℤ} (h : IsMagnitude m e) :
    ReadsAs (shortest m e).value m e := by
  have hfine := onGrid_ne_none h.pos (pow_leadingExponent_lt h)
  rw [shortest]
  simp only
  rcases hfind : List.findSome? _ _ with _ | d
  · exact absurd (List.findSome?_eq_none_iff.1 hfind 16 (by decide)) hfine
  · obtain ⟨more, -, hgrid⟩ := List.exists_of_findSome?_eq_some hfind
    exact (holds_ofBinary_iff h.pos e d).1 (onGrid_holds hgrid)

end Decimal
end Quarry
