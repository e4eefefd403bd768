import Quarry.Proofs.Number.Arithmetic

/-! The order of doubles. Comparing does not tell the signs of zeros, and rounding keeps a number
above the doubles that it is above of, so that a number grows when it is multiplied by
one above one. -/

namespace Quarry.Binary

open Float.Model (Format)
open Float.Model.UnpackedFloat

/-! ### Comparisons -/

theorem compare_swap (u v : Unpacked) : v.compare u = (u.compare v).map Ordering.swap := by
  have hfinite : ∀ (m m' : ℕ) (e e' : ℤ),
      (compare e' e).then (compare m' m) = ((compare e e').then (compare m m')).swap := by
    intro m m' e e'
    rw [Ordering.swap_then, ← Int.compare_swap, ← Nat.compare_swap]
  cases u with
  | finite s m e hm =>
    cases v with
    | finite s' m' e' hm' =>
      cases s <;> cases s' <;> simp only [Float.Model.UnpackedFloat.compare, Option.map_some,
        hfinite m m' e e'] <;> rfl
    | zero s' => cases s <;> rfl
    | infinity s' => cases s' <;> rfl
    | notANumber => rfl
  | zero s =>
    cases v with
    | finite s' m' e' hm' => cases s' <;> rfl
    | infinity s' => cases s' <;> rfl
    | zero s' => rfl
    | notANumber => rfl
  | infinity s =>
    cases v with
    | infinity s' => cases s <;> cases s' <;> rfl
    | finite s' m' e' hm' => cases s <;> rfl
    | zero s' => cases s <;> rfl
    | notANumber => cases s <;> rfl
  | notANumber => cases v <;> rfl

theorem lt_iff {x y : Float} : x < y ↔ x.toModel.unpack.compare y.toModel.unpack = some .lt := by
  change decide (x.toModel < y.toModel) = true ↔ _
  rw [decide_eq_true_iff]
  change (x.toModel.unpack.compare y.toModel.unpack == some .lt) = true ↔ _
  rw [beq_iff_eq]

theorem beq_eq_false_of_lt {x y : Float} (h : x < y) : (x == y) = false := by
  change (x.toModel.unpack.compare y.toModel.unpack == some .eq) = false
  rw [lt_iff.1 h]
  rfl

theorem not_lt_of_lt {x y : Float} (h : x < y) : ¬y < x := by
  rw [lt_iff, compare_swap, lt_iff.1 h]
  simp

/-- Zero adds nothing, but for the sign of a zero. -/
theorem zero_add_eq (x : Float) : 0 + x = x ∨ IsZero (0 + x) ∧ IsZero x := by
  have hzero : (0 : Float).toModel.unpack = .zero .positive := rfl
  have hx := unpack_pack_unpack x
  cases hu : x.toModel.unpack with
  | zero s =>
    refine .inr ⟨⟨.positive, ?_⟩, s, hu⟩
    rw [unpack_add, hu, hzero]
    cases s <;> rfl
  | notANumber | infinity s | finite s m e hm =>
    rw [hu] at hx
    refine .inl (eq_of_unpack ?_)
    rw [unpack_add, hu, hzero]
    exact hx

/-- The signs of zeros do not count in comparisons. -/
theorem lt_congr {x x' y y' : Float} (hx : x = x' ∨ IsZero x ∧ IsZero x')
    (hy : y = y' ∨ IsZero y ∧ IsZero y') : x < y ↔ x' < y' := by
  have hleft : ∀ (s s' : Sign) (v : Unpacked), Float.Model.UnpackedFloat.compare (.zero s) v =
      Float.Model.UnpackedFloat.compare (.zero s') v := by
    intro s s' v
    cases v with
    | finite t m e hm => cases t <;> rfl
    | infinity t => cases t <;> rfl
    | zero t | notANumber => rfl
  have hright : ∀ (s s' : Sign) (u : Unpacked), u.compare (.zero s) = u.compare (.zero s') :=
    fun _ _ u => by rw [compare_swap, hleft, ← compare_swap]
  have hfirst : x.toModel.unpack.compare y.toModel.unpack =
      x'.toModel.unpack.compare y.toModel.unpack := by
    rcases hx with rfl | ⟨⟨s, hs⟩, s', hs'⟩
    · rfl
    · rw [hs, hs', hleft]
  have hsecond : x'.toModel.unpack.compare y.toModel.unpack =
      x'.toModel.unpack.compare y'.toModel.unpack := by
    rcases hy with rfl | ⟨⟨s, hs⟩, s', hs'⟩
    · rfl
    · rw [hs, hs', hright]
  rw [lt_iff, lt_iff, hfirst, hsecond]

/-! ### Rounding -/

/-- A number that is not below a double is not below it without its surplus digits either. -/
theorem le_quotient {m : ℕ} (hm : 0 < m) {e : ℤ} (fine : e ≤ place m e)
    (long : surplus m e ≤ m.log2) {m₀ : ℕ} {e₀ : ℤ} (h₀ : IsMagnitude m₀ e₀)
    (hle : (m₀ : ℚ) * 2 ^ e₀ ≤ m * 2 ^ e) :
    (m₀ : ℚ) * 2 ^ e₀ ≤ (m / 2 ^ surplus m e : ℕ) * 2 ^ place m e := by
  have hfirst : e + surplus m e = place m e := by
    rw [surplus]
    omega
  rcases le_or_gt (place m e) e₀ with hplace | hplace
  · -- The double is a multiple of the last place that is kept.
    obtain ⟨j, hj⟩ := Int.eq_ofNat_of_zero_le (sub_nonneg.2 hplace)
    obtain rfl : e₀ = e + (surplus m e + j : ℕ) := by
      push_cast
      omega
    have hcut : m₀ * 2 ^ j ≤ m / 2 ^ surplus m e := by
      rw [Nat.le_div_iff_mul_le (Nat.two_pow_pos _), mul_assoc, ← pow_add, add_comm j]
      rw [zpow_add₀ two_ne_zero, mul_comm ((2 : ℚ) ^ e), ← mul_assoc, zpow_natCast] at hle
      exact_mod_cast le_of_mul_le_mul_right hle (by positivity)
    calc (m₀ : ℚ) * 2 ^ (e + (surplus m e + j : ℕ) : ℤ) = (m₀ * 2 ^ j : ℕ) * 2 ^ place m e := by
          rw [← hfirst]
          push_cast
          rw [← add_assoc, zpow_add₀ two_ne_zero, zpow_natCast]
          ring
      _ ≤ _ := mul_le_mul_of_nonneg_right (by exact_mod_cast hcut) (by positivity)
  · -- The number has all fifty-three digits, and they begin above those of the double.
    have hdigits : 2 ^ 52 ≤ m / 2 ^ surplus m e := by
      rw [Nat.le_div_iff_mul_le (Nat.two_pow_pos _), ← pow_add]
      refine (Nat.pow_le_pow_right (by norm_num) ?_).trans (Nat.log2_self_le hm.ne')
      have hleast := h₀.least
      rw [place] at hplace hfirst
      omega
    have hbelow : (m₀ : ℚ) < 2 ^ 53 := by exact_mod_cast h₀.below
    calc (m₀ : ℚ) * 2 ^ e₀ ≤ 2 ^ 53 * 2 ^ e₀ := mul_le_mul_of_nonneg_right hbelow.le (by positivity)
      _ = 2 ^ 52 * 2 ^ (e₀ + 1) := by
          rw [zpow_add₀ two_ne_zero]
          ring
      _ ≤ 2 ^ 52 * 2 ^ place m e :=
          mul_le_mul_of_nonneg_left (zpow_le_zpow_right₀ one_le_two (by omega)) (by positivity)
      _ ≤ _ := mul_le_mul_of_nonneg_right (by exact_mod_cast hdigits) (by positivity)

/-- Rounding keeps a number at or above a double. -/
theorem le_roundWithAccuracy (s : Sign) {m : ℕ} (hm : 0 < m) {e : ℤ} (accuracy : Accuracy)
    (fine : e ≤ place m e) (long : surplus m e ≤ m.log2) {m₀ : ℕ} {e₀ : ℤ} (h₀ : IsMagnitude m₀ e₀)
    (hle : (m₀ : ℚ) * 2 ^ e₀ ≤ m * 2 ^ e) :
    ∃ m' e', ∃ h : IsMagnitude m' e',
      roundWithAccuracy Format.binary64 s m e accuracy = .finite s m' e' h.pos ∧
        (m₀ : ℚ) * 2 ^ e₀ ≤ m' * 2 ^ e' := by
  obtain ⟨m', e', h, heq, hvalue, -⟩ := exists_roundWithAccuracy_eq s hm accuracy fine long
  refine ⟨m', e', h, heq, hvalue ▸ (le_quotient hm fine long h₀ hle).trans ?_⟩
  have hup : m / 2 ^ surplus m e ≤ rounded m e accuracy := by
    have := rounded_eq m e accuracy
    omega
  exact mul_le_mul_of_nonneg_right (by exact_mod_cast hup) (by positivity)

/-! ### Products -/

theorem unpack_mul (x y : Float) : (x * y).toModel.unpack =
    (Float.Model.pack (mul Format.binary64 x.toModel.unpack y.toModel.unpack)).unpack := rfl

/-- A magnitude of at least one has all its digits. -/
theorem IsMagnitude.digits {m : ℕ} {e : ℤ} (h : IsMagnitude m e) (one : (1 : ℚ) ≤ m * 2 ^ e) :
    2 ^ 52 ≤ m ∧ -52 ≤ e := by
  have hexponent : -52 ≤ e := by
    by_contra hlow
    have hbelow : (m : ℚ) < 2 ^ 53 := by exact_mod_cast h.below
    have hvalue : (m : ℚ) * 2 ^ e < 1 :=
      calc (m : ℚ) * 2 ^ e < 2 ^ 53 * 2 ^ e := mul_lt_mul_of_pos_right hbelow (by positivity)
        _ ≤ 2 ^ 53 * 2 ^ (-53 : ℤ) :=
            mul_le_mul_of_nonneg_left (zpow_le_zpow_right₀ one_le_two (by omega)) (by positivity)
        _ = 1 := by norm_num
    exact absurd one (not_le.2 hvalue)
  exact ⟨h.normal.resolve_left (by omega), hexponent⟩

/-- A double above one is infinite, or a magnitude of at least one with all its digits. -/
theorem exists_unpack_of_not_le_one {y : Float} (number : y.isNaN = false) (above : ¬y ≤ 1) :
    y.toModel.unpack = .infinity .positive ∨
      ∃ m e, ∃ h : IsMagnitude m e, y.toModel.unpack = .finite .positive m e h.pos ∧
        2 ^ 52 ≤ m ∧ -52 ≤ e := by
  have hle : ¬y.toModel.unpack.le (1 : Float).toModel.unpack = true :=
    fun h => above (decide_eq_true_iff.2 h)
  have hone : (1 : Float).toModel.unpack = .finite .positive (2 ^ 52) (-52) (by decide) := rfl
  change y.toModel.unpack.isNaN = false at number
  rw [hone] at hle
  cases hy : y.toModel.unpack with
  | notANumber =>
    rw [hy] at number
    cases number
  | zero s =>
    rw [hy] at hle
    exact absurd rfl hle
  | infinity s =>
    rw [hy] at hle
    cases s with
    | positive => exact .inl rfl
    | negative => exact absurd rfl hle
  | finite s m e hm =>
    obtain ⟨h, -⟩ := isMagnitude_of_unpack hy
    rw [hy] at hle
    cases s with
    | negative => exact absurd rfl hle
    | positive =>
      have hexponent : ¬e < -52 := by
        intro hlt
        refine hle ?_
        simp [Float.Model.UnpackedFloat.le, Float.Model.UnpackedFloat.compare,
          compare_lt_iff_lt.2 hlt]
      refine .inr ⟨m, e, h, rfl, ?_, by omega⟩
      rcases h.normal with hleast | hdigits
      · omega
      · exact hdigits

/-- A product by a number of at least one is not below the other number. -/
theorem exists_mul_eq {m m' : ℕ} {e e' : ℤ} (h : IsMagnitude m e) (h' : IsMagnitude m' e')
    (digits : 2 ^ 52 ≤ m) (digits' : 2 ^ 52 ≤ m') (above : -52 ≤ e') :
    ∃ n f, ∃ hn : IsMagnitude n f,
      mul Format.binary64 (.finite .positive m e h.pos) (.finite .positive m' e' h'.pos) =
        .finite .positive n f hn.pos ∧ (m : ℚ) * 2 ^ e ≤ n * 2 ^ f := by
  have hlog : 104 ≤ (m * m').log2 := by
    rw [Nat.le_log2 (Nat.mul_pos h.pos h'.pos).ne']
    calc 2 ^ 104 = 2 ^ 52 * 2 ^ 52 := by norm_num
      _ ≤ m * m' := Nat.mul_le_mul digits digits'
  have hleast := h.least
  have hvalue : (m : ℚ) * 2 ^ e ≤ (m * m' : ℕ) * 2 ^ (e + e') := by
    have hone : (1 : ℚ) ≤ m' * 2 ^ e' :=
      calc (1 : ℚ) = 2 ^ 52 * 2 ^ (-52 : ℤ) := by norm_num
        _ ≤ m' * 2 ^ e' := mul_le_mul (by exact_mod_cast digits')
            (zpow_le_zpow_right₀ one_le_two above) (by positivity) (by positivity)
    calc (m : ℚ) * 2 ^ e ≤ m * 2 ^ e * (m' * 2 ^ e') := le_mul_of_one_le_right (by positivity) hone
      _ = (m * m' : ℕ) * 2 ^ (e + e') := by
          push_cast
          rw [zpow_add₀ two_ne_zero]
          ring
  exact le_roundWithAccuracy .positive (Nat.mul_pos h.pos h'.pos) .exact (by rw [place]; omega)
    (by rw [surplus, place]; omega) h hvalue

/-- A number of at least one does not fall when it is multiplied by one above one. -/
theorem le_mul {x y : Float} {m : ℕ} {e : ℤ} {hm : 0 < m}
    (hx : x.toModel.unpack = .finite .positive m e hm) (one : (1 : ℚ) ≤ m * 2 ^ e)
    (number : y.isNaN = false) (above : ¬y ≤ 1) :
    (x * y).toModel.unpack = .infinity .positive ∨
      ∃ n f, ∃ hn : 0 < n, (x * y).toModel.unpack = .finite .positive n f hn ∧
        (m : ℚ) * 2 ^ e ≤ n * 2 ^ f := by
  obtain ⟨h, -⟩ := isMagnitude_of_unpack hx
  rw [unpack_mul, hx]
  rcases exists_unpack_of_not_le_one number above with hy | ⟨m', e', h', hy, digits', hleast⟩
  · rw [hy]
    exact .inl (unpack_pack_infinity .positive)
  · obtain ⟨n, f, hn, heq, hle⟩ := exists_mul_eq h h' (h.digits one).1 digits' hleast
    rw [hy, heq, unpack_pack .positive hn]
    split
    · exact .inl rfl
    · exact .inr ⟨n, f, hn.pos, rfl, hle⟩

end Quarry.Binary
