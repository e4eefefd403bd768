import Quarry.Proofs.Number.Amounts

/-! The exact values of doubles. Doubles that are numbers are compared by their values, infinities
at the two ends; the sign of a zero has no part in its value. -/

namespace Quarry.Binary

open Float.Model (Format)
open Float.Model.UnpackedFloat

/-- The exact value of a double that is a number. -/
def Unpacked.value : Unpacked → WithBot (WithTop ℚ)
  | .infinity .negative | .notANumber => ⊥
  | .infinity .positive => ⊤
  | .zero _ => ((0 : ℚ) : WithTop ℚ)
  | .finite .positive m e _ => (((m : ℚ) * 2 ^ e : ℚ) : WithTop ℚ)
  | .finite .negative m e _ => ((-((m : ℚ) * 2 ^ e) : ℚ) : WithTop ℚ)

def value (x : Float) : WithBot (WithTop ℚ) := Unpacked.value x.toModel.unpack

/-! ### Comparisons -/

/-- Of two magnitudes the one with the greater exponent is greater. -/
theorem IsMagnitude.lt_of_lt {m m' : ℕ} {e e' : ℤ} (h : IsMagnitude m e) (h' : IsMagnitude m' e')
    (hlt : e < e') : (m : ℚ) * 2 ^ e < m' * 2 ^ e' := by
  have hleast := h.least
  have hbelow : (m : ℚ) < 2 ^ 53 := by exact_mod_cast h.below
  have hdigits : (2 : ℚ) ^ 52 ≤ m' := by exact_mod_cast h'.normal.resolve_left (by omega)
  calc (m : ℚ) * 2 ^ e < 2 ^ 53 * 2 ^ e := mul_lt_mul_of_pos_right hbelow (by positivity)
    _ = 2 ^ 52 * 2 ^ (e + 1) := by
        rw [zpow_add₀ two_ne_zero]
        ring
    _ ≤ 2 ^ 52 * 2 ^ e' :=
      mul_le_mul_of_nonneg_left (zpow_le_zpow_right₀ one_le_two (by omega)) (by positivity)
    _ ≤ m' * 2 ^ e' := mul_le_mul_of_nonneg_right hdigits (by positivity)

theorem IsMagnitude.compare_eq {m m' : ℕ} {e e' : ℤ} (h : IsMagnitude m e)
    (h' : IsMagnitude m' e') :
    (compare e e').then (compare m m') = compare ((m : ℚ) * 2 ^ e) (m' * 2 ^ e') := by
  rcases lt_trichotomy e e' with hlt | rfl | hgt
  · rw [compare_lt_iff_lt.2 hlt, compare_lt_iff_lt.2 (h.lt_of_lt h' hlt)]
    rfl
  · have hpower : (0 : ℚ) < 2 ^ e := by positivity
    rw [compare_eq_iff_eq.2 rfl]
    change compare m m' = _
    rcases lt_trichotomy m m' with hlt | rfl | hgt
    · rw [compare_lt_iff_lt.2 hlt,
        compare_lt_iff_lt.2 (mul_lt_mul_of_pos_right (by exact_mod_cast hlt) hpower)]
    · rw [compare_eq_iff_eq.2 rfl, compare_eq_iff_eq.2 rfl]
    · rw [compare_gt_iff_gt.2 hgt,
        compare_gt_iff_gt.2 (mul_lt_mul_of_pos_right (by exact_mod_cast hgt) hpower)]
  · rw [compare_gt_iff_gt.2 hgt, compare_gt_iff_gt.2 (h'.lt_of_lt h hgt)]
    rfl

/-- Rational numbers are compared as what they are among the infinities, and in reverse as what is
below zero. -/
theorem compare_coe (a b : ℚ) :
    compare ((a : WithTop ℚ) : WithBot (WithTop ℚ)) ((b : WithTop ℚ) : WithBot (WithTop ℚ)) =
      compare a b := by
  rcases lt_trichotomy a b with hlt | rfl | hgt
  · rw [compare_lt_iff_lt.2 hlt, compare_lt_iff_lt]
    exact_mod_cast hlt
  · rw [compare_eq_iff_eq.2 rfl, compare_eq_iff_eq.2 rfl]
  · rw [compare_gt_iff_gt.2 hgt, compare_gt_iff_gt]
    exact_mod_cast hgt

theorem compare_neg (a b : ℚ) : compare (-a) (-b) = (compare a b).swap := by
  rcases lt_trichotomy a b with hlt | rfl | hgt
  · rw [compare_lt_iff_lt.2 hlt, compare_gt_iff_gt.2 (neg_lt_neg hlt)]
    rfl
  · rw [compare_eq_iff_eq.2 rfl, compare_eq_iff_eq.2 rfl]
    rfl
  · rw [compare_gt_iff_gt.2 hgt, compare_lt_iff_lt.2 (neg_lt_neg hgt)]
    rfl

/-- What a double is taken apart into if it is a number. -/
def Unpacked.IsNumber : Unpacked → Prop
  | .notANumber => False
  | .finite _ m e _ => IsMagnitude m e
  | .infinity _ | .zero _ => True

theorem isNumber_unpack {x : Float} (hx : x.isNaN = false) :
    Unpacked.IsNumber x.toModel.unpack := by
  change x.toModel.unpack.isNaN = false at hx
  cases hxu : x.toModel.unpack with
  | notANumber =>
    rw [hxu] at hx
    cases hx
  | infinity s | zero s => trivial
  | finite s m e hm => exact (isMagnitude_of_unpack hxu).1

section

variable {a b : WithBot (WithTop ℚ)}

theorem some_lt (h : a < b) :
    some Ordering.lt = some (compare a b) := congrArg some (compare_lt_iff_lt.2 h).symm

theorem some_gt (h : b < a) :
    some Ordering.gt = some (compare a b) := congrArg some (compare_gt_iff_gt.2 h).symm

end

theorem bot_lt_value (q : ℚ) : (⊥ : WithBot (WithTop ℚ)) < (q : WithTop ℚ) := WithBot.bot_lt_coe _

theorem value_lt_top (q : ℚ) : ((q : WithTop ℚ) : WithBot (WithTop ℚ)) < ⊤ :=
  WithBot.coe_lt_coe.2 (WithTop.coe_lt_top q)

theorem value_lt_value {p q : ℚ} (h : p < q) :
    ((p : WithTop ℚ) : WithBot (WithTop ℚ)) < (q : WithTop ℚ) := by
  exact_mod_cast h

theorem IsMagnitude.value_pos {m : ℕ} {e : ℤ} (h : IsMagnitude m e) : (0 : ℚ) < m * 2 ^ e :=
  mul_pos (by exact_mod_cast h.pos) (by positivity)

theorem Unpacked.compare_eq : ∀ {u v : Unpacked}, u.IsNumber → v.IsNumber →
    Float.Model.UnpackedFloat.compare u v = some (Ord.compare u.value v.value)
  | .infinity .negative, .infinity .negative, _, _ | .infinity .negative, .infinity .positive, _, _
  | .infinity .positive, .infinity .negative, _, _ | .infinity .positive, .infinity .positive, _, _
  | .zero _, .zero _, _, _ => rfl
  | .infinity .negative, .zero _, _, _ | .infinity .negative, .finite .negative _ _ _, _, _
  | .infinity .negative, .finite .positive _ _ _, _, _ => some_lt (bot_lt_value _)
  | .zero _, .infinity .negative, _, _ | .finite .negative _ _ _, .infinity .negative, _, _
  | .finite .positive _ _ _, .infinity .negative, _, _ => some_gt (bot_lt_value _)
  | .infinity .positive, .zero _, _, _ | .infinity .positive, .finite .negative _ _ _, _, _
  | .infinity .positive, .finite .positive _ _ _, _, _ => some_gt (value_lt_top _)
  | .zero _, .infinity .positive, _, _ | .finite .negative _ _ _, .infinity .positive, _, _
  | .finite .positive _ _ _, .infinity .positive, _, _ => some_lt (value_lt_top _)
  | .zero _, .finite .negative _ _ _, _, h' =>
    some_gt (value_lt_value (neg_neg_of_pos h'.value_pos))
  | .zero _, .finite .positive _ _ _, _, h' => some_lt (value_lt_value h'.value_pos)
  | .finite .negative _ _ _, .zero _, h, _ => some_lt (value_lt_value (neg_neg_of_pos h.value_pos))
  | .finite .positive _ _ _, .zero _, h, _ => some_gt (value_lt_value h.value_pos)
  | .finite .negative _ _ _, .finite .positive _ _ _, h, h' =>
    some_lt (value_lt_value ((neg_neg_of_pos h.value_pos).trans h'.value_pos))
  | .finite .positive _ _ _, .finite .negative _ _ _, h, h' =>
    some_gt (value_lt_value ((neg_neg_of_pos h'.value_pos).trans h.value_pos))
  | .finite .positive _ _ _, .finite .positive _ _ _, h, h' =>
    congrArg some ((h.compare_eq h').trans (compare_coe _ _).symm)
  | .finite .negative _ _ _, .finite .negative _ _ _, h, h' =>
    congrArg some (h.compare_eq h' ▸ (compare_neg _ _).symm.trans (compare_coe _ _).symm)

/-- Doubles that are numbers are compared by their values. -/
theorem compare_eq {x y : Float} (hx : x.isNaN = false) (hy : y.isNaN = false) :
    x.toModel.unpack.compare y.toModel.unpack = some (compare (value x) (value y)) :=
  Unpacked.compare_eq (isNumber_unpack hx) (isNumber_unpack hy)

theorem lt_iff_value {x y : Float} (hx : x.isNaN = false) (hy : y.isNaN = false) :
    x < y ↔ value x < value y := by
  rw [lt_iff, compare_eq hx hy, Option.some_inj, compare_lt_iff_lt]

theorem beq_iff_value {x y : Float} (hx : x.isNaN = false) (hy : y.isNaN = false) :
    (x == y) = true ↔ value x = value y := by
  change (x.toModel.unpack.compare y.toModel.unpack == some .eq) = true ↔ _
  rw [beq_iff_eq, compare_eq hx hy, Option.some_inj, compare_eq_iff_eq]

theorem le_iff_value {x y : Float} (hx : x.isNaN = false) (hy : y.isNaN = false) :
    x ≤ y ↔ value x ≤ value y := by
  have hle : x ≤ y ↔ Option.any (·.isLE) (x.toModel.unpack.compare y.toModel.unpack) = true :=
    le_iff
  rw [hle, compare_eq hx hy, Option.any_some, ← compare_le_iff_le]
  cases compare (value x) (value y) <;> simp

/-- What is not a number is at most nothing. -/
theorem le_iff_isNaN_value {x y : Float} (hy : y.isNaN = false) :
    x ≤ y ↔ x.isNaN = false ∧ value x ≤ value y := by
  cases hx : x.isNaN with
  | false => simp [le_iff_value hx hy]
  | true =>
    have hle : x ≤ y ↔ Option.any (·.isLE) (x.toModel.unpack.compare y.toModel.unpack) = true :=
      le_iff
    change x.toModel.unpack.isNaN = true at hx
    cases hxu : x.toModel.unpack with
    | notANumber =>
      rw [hle, hxu]
      exact iff_of_false (by simp [Float.Model.UnpackedFloat.compare]) (by simp)
    | infinity s | zero s | finite s m e hm =>
      rw [hxu] at hx
      cases hx

end Quarry.Binary
