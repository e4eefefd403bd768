import Quarry.Proofs.Number.Double

namespace Quarry.Binary

open Float.Model (Format totalExponent)
open Float.Model.UnpackedFloat

/-- The exponent of the last place of a number with fifty-three digits, or of the least double. -/
def place (m : ℕ) (e : ℤ) : ℤ := max (m.log2 + 1 + e - 53) (-1074)

theorem targetExponent_eq (m : ℕ) (e : ℤ) :
    Format.binary64.targetExponent (totalExponent m e) = place m e := rfl

theorem mantissa_shiftRight (em : ExtendedMantissa) (n : ℕ) :
    (em >>> n).mantissa = em.mantissa / 2 ^ n := by
  change (n.repeat ExtendedMantissa.shiftRightOne em).mantissa = _
  induction n with
  | zero => simp [Nat.repeat]
  | succ n ih =>
    rw [Nat.repeat, ExtendedMantissa.shiftRightOne, ih, Nat.div_div_eq_div_mul, pow_succ]

theorem exact_shiftRight (m n : ℕ) :
    (⟨m * 2 ^ n, false, false⟩ : ExtendedMantissa) >>> n = ⟨m, false, false⟩ := by
  change n.repeat ExtendedMantissa.shiftRightOne _ = _
  induction n generalizing m with
  | zero => simp [Nat.repeat]
  | succ n ih =>
    rw [Nat.repeat, pow_succ', ← mul_assoc, ih, ExtendedMantissa.shiftRightOne]
    simp

theorem roundedMantissa_eq (em : ExtendedMantissa) :
    em.roundedMantissa = em.mantissa ∨ em.roundedMantissa = em.mantissa + 1 := by
  obtain ⟨m, round, sticky⟩ := em
  cases round <;> cases sticky
  · exact .inl rfl
  · exact .inl rfl
  · change m + m % 2 = m ∨ m + m % 2 = m + 1
    omega
  · exact .inr rfl

/-- How many digits a number has beyond the last place. -/
def surplus (m : ℕ) (e : ℤ) : ℕ := (place m e - e).toNat

/-- A number without its surplus digits, rounded to the nearest. -/
def rounded (m : ℕ) (e : ℤ) (accuracy : Accuracy) : ℕ :=
  (shiftToTargetExponent Format.binary64 m e accuracy).1.roundedMantissa

theorem rounded_eq (m : ℕ) (e : ℤ) (accuracy : Accuracy) :
    rounded m e accuracy = m / 2 ^ surplus m e ∨
      rounded m e accuracy = m / 2 ^ surplus m e + 1 := by
  have hmantissa : (ExtendedMantissa.ofMantissaAndAccuracy m accuracy).mantissa = m := by
    cases accuracy with
    | exact => rfl
    | inexact order => cases order <;> rfl
  have heither :=
    roundedMantissa_eq (ExtendedMantissa.ofMantissaAndAccuracy m accuracy >>> surplus m e)
  rwa [mantissa_shiftRight, hmantissa] at heither

/-- Surplus digits that are all zero are cut off. -/
theorem rounded_exact (m : ℕ) (e : ℤ) (h : 2 ^ surplus m e ∣ m) :
    rounded m e .exact = m / 2 ^ surplus m e := by
  obtain ⟨q, hq⟩ := h
  have hshift : ExtendedMantissa.ofMantissaAndAccuracy m .exact >>> surplus m e =
      ⟨q, false, false⟩ := by
    rw [ExtendedMantissa.ofMantissaAndAccuracy, ← exact_shiftRight q (surplus m e),
      mul_comm q, ← hq]
  have hrounded : rounded m e .exact =
      (ExtendedMantissa.ofMantissaAndAccuracy m .exact >>> surplus m e).roundedMantissa := rfl
  have hquotient : m / 2 ^ surplus m e = q := Nat.div_eq_of_eq_mul_right (Nat.two_pow_pos _) hq
  rw [hrounded, hshift, hquotient]
  rfl

/-- Rounding once may leave a number with a surplus digit, which is then cut off. -/
theorem roundWithAccuracy_eq (s : Sign) (m : ℕ) (e : ℤ) (accuracy : Accuracy) :
    roundWithAccuracy Format.binary64 s m e accuracy =
      let r := rounded m e accuracy
      let first := e + surplus m e
      if h : r / 2 ^ surplus r first = 0 then .zero s
      else .finite s (r / 2 ^ surplus r first) (first + surplus r first)
        (Nat.pos_of_ne_zero h) := by
  simp only [roundWithAccuracy, shiftToTargetExponent, shiftToExponent, targetExponent_eq,
    mantissa_shiftRight]
  rfl

/-! ### The exponents of results -/

theorem log2_mul_two_pow {m : ℕ} (hm : 0 < m) (k : ℕ) : (m * 2 ^ k).log2 = m.log2 + k := by
  have hpos : m * 2 ^ k ≠ 0 := (Nat.mul_pos hm (Nat.two_pow_pos k)).ne'
  refine (Nat.log2_eq_iff hpos).2 ⟨?_, ?_⟩
  · rw [pow_add]
    exact Nat.mul_le_mul_right _ (Nat.log2_self_le hm.ne')
  · rw [add_right_comm, pow_add]
    exact Nat.mul_lt_mul_of_pos_right Nat.lt_log2_self (Nat.two_pow_pos k)

theorem log2_div_two_pow_le (m k : ℕ) : m / 2 ^ k = 0 ∨ (m / 2 ^ k).log2 + k ≤ m.log2 := by
  rcases Nat.eq_zero_or_pos (m / 2 ^ k) with hzero | hpos
  · exact .inl hzero
  · have hle := Nat.div_mul_le_self m (2 ^ k)
    have hm : m ≠ 0 := by
      rintro rfl
      simp at hpos
    refine .inr ?_
    rw [← log2_mul_two_pow hpos]
    exact (Nat.le_log2 hm).2 ((Nat.log2_self_le (Nat.mul_pos hpos (Nat.two_pow_pos k)).ne').trans
      hle)

theorem log2_succ_le (n : ℕ) : (n + 1).log2 ≤ n.log2 + 1 := by
  have hlt : n < 2 ^ (n.log2 + 1) := Nat.lt_log2_self
  have hbound : n + 1 < 2 ^ (n.log2 + 2) := by
    rw [pow_succ]
    omega
  exact Nat.lt_succ_iff.1 ((Nat.log2_lt n.succ_ne_zero).2 hbound)

theorem IsMagnitude.log2_le {m : ℕ} {e : ℤ} (h : IsMagnitude m e) : m.log2 ≤ 52 := by
  have := (Nat.log2_lt h.pos.ne').2 h.below
  omega

/-- The digits of a magnitude are not too many for its exponent. -/
theorem IsMagnitude.place_eq {m : ℕ} {e : ℤ} (h : IsMagnitude m e) : place m e = e := by
  have hlog := h.log2_le
  have hleast := h.least
  rw [place]
  rcases h.normal with he | hm
  · omega
  · have := (Nat.le_log2 h.pos.ne').2 hm
    omega

/-- A magnitude, however it is written, is not changed by rounding. -/
theorem roundWithAccuracy_magnitude (s : Sign) {m : ℕ} {e : ℤ} (h : IsMagnitude m e) (k : ℕ) :
    roundWithAccuracy Format.binary64 s (m * 2 ^ k) (e - k) .exact = .finite s m e h.pos := by
  have hplace : place (m * 2 ^ k) (e - k) = e := by
    have hsame := h.place_eq
    rw [place] at hsame
    rw [place, log2_mul_two_pow h.pos]
    push_cast
    omega
  have hsurplus : surplus (m * 2 ^ k) (e - k) = k := by
    rw [surplus, hplace]
    omega
  have hrounded : rounded (m * 2 ^ k) (e - k) .exact = m := by
    rw [rounded_exact _ _ (by rw [hsurplus]; exact Nat.dvd_mul_left ..), hsurplus,
      Nat.mul_div_cancel _ (Nat.two_pow_pos k)]
  have hfirst : e - k + ((surplus (m * 2 ^ k) (e - k) : ℕ) : ℤ) = e := by
    rw [hsurplus]
    ring
  have hnone : surplus m e = 0 := by
    rw [surplus, h.place_eq, sub_self]
    rfl
  rw [roundWithAccuracy_eq]
  simp only [hrounded, hfirst, hnone, pow_zero, Nat.div_one, Nat.cast_zero, add_zero]
  exact dif_neg h.pos.ne'

/-- What is rounded has no surplus digits, but one if rounding up has brought it. -/
theorem surplus_cases {r : ℕ} {e : ℤ} (hr : 0 < r) (below : r ≤ 2 ^ 53) (least : -1074 ≤ e)
    (normal : e = -1074 ∨ 2 ^ 52 ≤ r) :
    IsMagnitude r e ∧ surplus r e = 0 ∨ r = 2 ^ 53 ∧ surplus r e = 1 := by
  rcases below.lt_or_eq with hlt | rfl
  · have h : IsMagnitude r e := ⟨hr, hlt, least, normal⟩
    refine .inl ⟨h, ?_⟩
    rw [surplus, h.place_eq, sub_self]
    rfl
  · have hlog : (2 ^ 53 : ℕ).log2 = 53 := Nat.log2_two_pow
    refine .inr ⟨rfl, ?_⟩
    rw [surplus, place, hlog]
    push_cast
    omega

/-- What is left of a rounded number is a magnitude of the same value, and reaches as far. -/
theorem isMagnitude_surplus {r : ℕ} {e : ℤ} (hr : 0 < r) (below : r ≤ 2 ^ 53) (least : -1074 ≤ e)
    (normal : e = -1074 ∨ 2 ^ 52 ≤ r) : IsMagnitude (r / 2 ^ surplus r e) (e + surplus r e) ∧
      ((r / 2 ^ surplus r e : ℕ) : ℚ) * 2 ^ (e + surplus r e) = r * 2 ^ e ∧
      (r / 2 ^ surplus r e : ℕ).log2 + (e + surplus r e) = r.log2 + e := by
  rcases surplus_cases hr below least normal with ⟨h, hnone⟩ | ⟨rfl, hone⟩
  · rw [hnone]
    simpa using h
  · have hlog : (2 ^ 53 : ℕ).log2 = 53 := Nat.log2_two_pow
    have hhalf : 2 ^ 53 / 2 ^ 1 = 2 ^ 52 := by norm_num
    have hloghalf : (2 ^ 52 : ℕ).log2 = 52 := Nat.log2_two_pow
    rw [hone, hhalf, hlog, hloghalf]
    refine ⟨⟨by norm_num, by norm_num, by push_cast; omega, .inr le_rfl⟩, ?_, ?_⟩
    · push_cast
      rw [zpow_add₀ two_ne_zero]
      ring
    · push_cast
      omega

/-- A number with no fewer digits than it has surplus is rounded to one that has no more than the
digits of a double and all of them, as far as its exponent goes, and reaches as far, or
one farther. -/
theorem rounded_bounds {m : ℕ} (hm : 0 < m) {e : ℤ} (accuracy : Accuracy) (fine : e ≤ place m e)
    (long : surplus m e ≤ m.log2) : 0 < rounded m e accuracy ∧ rounded m e accuracy ≤ 2 ^ 53 ∧
      (place m e = -1074 ∨ 2 ^ 52 ≤ rounded m e accuracy) ∧
      m.log2 ≤ (rounded m e accuracy).log2 + surplus m e ∧
      (rounded m e accuracy).log2 + surplus m e ≤ m.log2 + 1 := by
  have hfirst : e + surplus m e = place m e := by
    rw [surplus]
    omega
  have hdigits : 2 ^ (m.log2 - surplus m e) ≤ m / 2 ^ surplus m e := by
    rw [Nat.le_div_iff_mul_le (Nat.two_pow_pos _), ← pow_add, Nat.sub_add_cancel long]
    exact Nat.log2_self_le hm.ne'
  have hbelow : m / 2 ^ surplus m e < 2 ^ 53 := by
    rw [Nat.div_lt_iff_lt_mul (Nat.two_pow_pos _), ← pow_add]
    refine Nat.lt_log2_self.trans_le (Nat.pow_le_pow_right (by norm_num) ?_)
    rw [place] at hfirst
    omega
  have hr := rounded_eq m e accuracy
  have hquotient : 2 ^ (m.log2 - surplus m e) ≤ rounded m e accuracy := by omega
  have hpos : 0 < rounded m e accuracy := (Nat.two_pow_pos _).trans_le hquotient
  have hlog := (Nat.le_log2 hpos.ne').2 hquotient
  have hgrown : (rounded m e accuracy).log2 ≤ (m / 2 ^ surplus m e).log2 + 1 := by
    rcases hr with hr | hr
    · rw [hr]
      exact Nat.le_succ _
    · rw [hr]
      exact log2_succ_le _
  have hcut :=
    (log2_div_two_pow_le m (surplus m e)).resolve_left ((Nat.two_pow_pos _).trans_le hdigits).ne'
  refine ⟨hpos, by omega, ?_, by omega, by omega⟩
  rw [place] at hfirst
  by_cases hleast : place m e = -1074
  · exact .inl hleast
  · refine .inr ((Nat.pow_le_pow_right (by norm_num) ?_).trans hquotient)
    rw [place] at hleast
    omega

/-- A number with no fewer digits than it has surplus is rounded to a magnitude, which has the value
of the rounded digits and reaches as far, or one farther. -/
theorem exists_roundWithAccuracy_eq (s : Sign) {m : ℕ} (hm : 0 < m) {e : ℤ} (accuracy : Accuracy)
    (fine : e ≤ place m e) (long : surplus m e ≤ m.log2) :
    ∃ m' e', ∃ h : IsMagnitude m' e',
      roundWithAccuracy Format.binary64 s m e accuracy = .finite s m' e' h.pos ∧
        (m' : ℚ) * 2 ^ e' = rounded m e accuracy * 2 ^ place m e ∧
        m.log2 + e ≤ m'.log2 + e' ∧ m'.log2 + e' ≤ m.log2 + e + 1 := by
  have hfirst : e + surplus m e = place m e := by
    rw [surplus]
    omega
  obtain ⟨hpos, hbelow, hnormal, hlow, hhigh⟩ := rounded_bounds hm accuracy fine long
  obtain ⟨h, hvalue, hreach⟩ := isMagnitude_surplus hpos hbelow
    (by rw [place]; exact le_max_right _ _) hnormal
  rw [← hfirst] at h hvalue hreach ⊢
  refine ⟨_, _, h, ?_, hvalue, by omega, by omega⟩
  rw [roundWithAccuracy_eq]
  exact dif_neg h.pos.ne'

/-- A number that goes no less far below than its last place is rounded to zero or to a magnitude,
which reaches at most one farther or is the least. -/
theorem roundWithAccuracy_cases (s : Sign) {m : ℕ} {e : ℤ} (accuracy : Accuracy)
    (fine : e ≤ place m e) :
    roundWithAccuracy Format.binary64 s m e accuracy = .zero s ∨
      ∃ m' e', ∃ h : IsMagnitude m' e',
        roundWithAccuracy Format.binary64 s m e accuracy = .finite s m' e' h.pos ∧
          m'.log2 + e' ≤ max (m.log2 + e + 1) (-1074) := by
  rcases Nat.eq_zero_or_pos (m / 2 ^ surplus m e) with hnone | hsome
  · -- All digits are surplus, so that the last place is the least, and what is left is at most one.
    have hlast : e + surplus m e = -1074 := by
      have hbelow : m < 2 ^ surplus m e := (Nat.div_eq_zero_iff_lt (Nat.two_pow_pos _)).1 hnone
      have hlog : m = 0 ∨ m.log2 < surplus m e :=
        (Nat.eq_zero_or_pos m).imp_right fun hm => (Nat.log2_lt hm.ne').2 hbelow
      have hzero : m = 0 → m.log2 = 0 := fun h => h ▸ Nat.log2_zero
      rw [surplus] at hlog ⊢
      rw [place] at fine hlog ⊢
      omega
    have hr := rounded_eq m e accuracy
    rw [hnone, zero_add] at hr
    rcases hr with hr | hr
    · refine .inl ((roundWithAccuracy_eq s m e accuracy).trans (dif_pos ?_))
      rw [hr, Nat.zero_div]
    · obtain ⟨h, -, hreach⟩ :=
        isMagnitude_surplus (hr.symm ▸ one_pos) (by rw [hr]; norm_num) hlast.ge (.inl hlast)
      refine .inr ⟨_, _, h, (roundWithAccuracy_eq s m e accuracy).trans (dif_neg h.pos.ne'), ?_⟩
      rw [hreach, hr, hlast]
      exact le_max_right _ _
  · have hm : 0 < m := Nat.pos_of_ne_zero fun hzero => by simp [hzero] at hsome
    have hcut := (log2_div_two_pow_le m (surplus m e)).resolve_left hsome.ne'
    obtain ⟨m', e', h, heq, -, -, hreach⟩ :=
      exists_roundWithAccuracy_eq s hm accuracy fine (by omega)
    exact .inr ⟨m', e', h, heq, hreach.trans (le_max_left _ _)⟩

/-- A number that is not below the least double is rounded to a magnitude, which reaches as far, or
one farther. -/
theorem exists_round_eq (s : Sign) {m : ℕ} (hm : 0 < m) {e : ℤ} (least : -1074 ≤ e) :
    ∃ m' e', ∃ h : IsMagnitude m' e',
      Float.Model.UnpackedFloat.round Format.binary64 s m e = .finite s m' e' h.pos ∧
        m.log2 + e ≤ m'.log2 + e' ∧ m'.log2 + e' ≤ m.log2 + e + 1 := by
  rw [Float.Model.UnpackedFloat.round]
  simp only [targetExponent_eq, decreaseExponent, Nat.shiftLeft_eq]
  generalize hshift : (e - place m e).toNat = shift
  have hlog := log2_mul_two_pow hm shift
  have hplace : place (m * 2 ^ shift) (e - shift) = place m e := by
    rw [place, place, hlog]
    push_cast
    congr 1
    ring
  have hfine : e - shift ≤ place (m * 2 ^ shift) (e - shift) := by
    rw [hplace]
    omega
  have hlong : surplus (m * 2 ^ shift) (e - shift) ≤ (m * 2 ^ shift).log2 := by
    rw [surplus, hplace, hlog]
    rw [place] at hshift ⊢
    omega
  obtain ⟨m', e', h, heq, -, hlow, hhigh⟩ := exists_roundWithAccuracy_eq s
    (Nat.mul_pos hm (Nat.two_pow_pos shift)) .exact hfine hlong
  rw [hlog] at hlow hhigh
  push_cast at hlow hhigh
  exact ⟨m', e', h, heq, by omega, by omega⟩

end Quarry.Binary
