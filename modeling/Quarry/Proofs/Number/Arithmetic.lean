import Quarry.Proofs.Number.Rounding

namespace Quarry.Binary

open Float.Model (Format)
open Float.Model.UnpackedFloat

theorem sign_injective {s s' : Sign} (h : (s == .negative) = (s' == .negative)) : s = s' := by
  cases s <;> cases s' <;> first | rfl | exact absurd h (by decide)

theorem ofUnpacked_injective : Function.Injective ofUnpacked := by
  intro u v h
  cases u <;> cases v <;> simp only [ofUnpacked, Binary.mk.injEq, Magnitude.finite.injEq,
    and_true, and_false, reduceCtorEq] at h
  case infinity.infinity s s' => rw [sign_injective h]
  case zero.zero s s' => rw [sign_injective h]
  case zero.finite s s' m e hm => omega
  case finite.zero s m e hm s' => omega
  case finite.finite s m e hm s' m' e' hm' =>
    obtain ⟨hs, rfl, rfl⟩ := h
    rw [sign_injective hs]
  case notANumber.notANumber => rfl

/-- Packing keeps a magnitude, unless its exponent goes too far above. -/
theorem unpack_pack (s : Sign) {m : ℕ} {e : ℤ} (h : IsMagnitude m e) :
    (Float.Model.pack (.finite s m e h.pos)).unpack =
      if 971 < e then .infinity s else .finite s m e h.pos := by
  apply ofUnpacked_injective
  refine (ofUnpacked_unpack_pack s h).trans ?_
  split <;> rfl

theorem unpack_pack_zero (s : Sign) : (Float.Model.pack (.zero s)).unpack = .zero s := by
  cases s <;> rfl

theorem unpack_pack_infinity (s : Sign) :
    (Float.Model.pack (.infinity s)).unpack = .infinity s := by
  cases s <;> rfl

theorem unpack_pack_notANumber : (Float.Model.pack .notANumber).unpack = .notANumber := rfl

/-- What a double is taken apart into is a magnitude within the bounds. -/
theorem isMagnitude_of_unpack {x : Float} {s : Sign} {m : ℕ} {e : ℤ} {hm : 0 < m}
    (h : x.toModel.unpack = .finite s m e hm) : IsMagnitude m e ∧ e ≤ 971 :=
  isMagnitude_of_ofFloat (by rw [ofFloat_eq, h]; rfl) hm

theorem unpack_pack_unpack (x : Float) :
    (Float.Model.pack x.toModel.unpack).unpack = x.toModel.unpack := by
  cases h : x.toModel.unpack with
  | notANumber => exact unpack_pack_notANumber
  | infinity s => exact unpack_pack_infinity s
  | zero s => exact unpack_pack_zero s
  | finite s m e hm =>
    obtain ⟨hmagnitude, htop⟩ := isMagnitude_of_unpack h
    rw [unpack_pack s hmagnitude, if_neg (by omega)]

/-- A double is what it is taken apart into. -/
theorem eq_of_unpack {x y : Float} (h : x.toModel.unpack = y.toModel.unpack) : x = y :=
  ofFloat_injective (by rw [ofFloat_eq, h, ofFloat_eq])

/-! ### Zeros -/

/-- Zero, of either sign. -/
def IsZero (x : Float) : Prop := ∃ s, x.toModel.unpack = .zero s

def IsNegativeZero (x : Float) : Prop := x.toModel.unpack = .zero .negative

/-- Which of two zeros is added to what is not the negative zero plays no part. -/
theorem add_zero_eq {x a a' : Float} (hx : ¬IsNegativeZero x) (ha : IsZero a) (ha' : IsZero a') :
    x + a = x + a' := by
  obtain ⟨s, hs⟩ := ha
  obtain ⟨s', hs'⟩ := ha'
  have hadd : ∀ y : Float, x + y =
      ⟨Float.Model.pack (add Format.binary64 x.toModel.unpack y.toModel.unpack)⟩ :=
    fun y => rfl
  rw [IsNegativeZero] at hx
  rw [hadd, hadd, hs, hs']
  cases h : x.toModel.unpack with
  | notANumber => rfl
  | infinity t => rfl
  | zero t =>
    cases t with
    | negative => exact absurd h hx
    | positive => cases s <;> cases s' <;> rfl
  | finite t m e hm => rfl

theorem unpack_add (x y : Float) : (x + y).toModel.unpack =
    (Float.Model.pack (add Format.binary64 x.toModel.unpack y.toModel.unpack)).unpack := rfl

theorem exists_normalize_eq {n : ℤ} (hn : n ≠ 0) {e : ℤ} (least : -1074 ≤ e) (zeroSign : Sign) :
    ∃ m' e', ∃ h : IsMagnitude m' e',
      Float.Model.UnpackedFloat.normalize Format.binary64 n e zeroSign =
        .finite (if n < 0 then .negative else .positive) m' e' h.pos ∧
      n.natAbs.log2 + e ≤ m'.log2 + e' ∧ m'.log2 + e' ≤ n.natAbs.log2 + e + 1 := by
  rw [Float.Model.UnpackedFloat.normalize]
  rcases lt_or_gt_of_ne hn with hlt | hgt
  · obtain ⟨m', e', h, heq, hreach⟩ :=
      exists_round_eq .negative (show 0 < (-n).toNat by omega) least
    have habs : n.natAbs = (-n).toNat := by omega
    rw [compare_lt_iff_lt.2 hlt, if_pos hlt, habs]
    exact ⟨m', e', h, heq, hreach⟩
  · obtain ⟨m', e', h, heq, hreach⟩ := exists_round_eq .positive (show 0 < n.toNat by omega) least
    have habs : n.natAbs = n.toNat := by omega
    rw [compare_gt_iff_gt.2 hgt, if_neg (by omega), habs]
    exact ⟨m', e', h, heq, hreach⟩

/-- A sum of two numbers is zero, or a magnitude. -/
theorem add_finite_cases (s s' : Sign) {m m' : ℕ} {e e' : ℤ} (h : IsMagnitude m e)
    (h' : IsMagnitude m' e') :
    add Format.binary64 (.finite s m e h.pos) (.finite s' m' e' h'.pos) = .zero .positive ∨
      ∃ t n f, ∃ hn : IsMagnitude n f,
        add Format.binary64 (.finite s m e h.pos) (.finite s' m' e' h'.pos) =
          .finite t n f hn.pos := by
  have hleast : -1074 ≤ min e e' := le_min h.least h'.least
  rw [add]
  simp only [decreaseExponent]
  generalize (s.apply _ + s'.apply _ : ℤ) = sum
  by_cases hsum : sum = 0
  · exact .inl (by rw [hsum]; rfl)
  · obtain ⟨n, f, hn, heq, -⟩ := exists_normalize_eq hsum hleast .positive
    exact .inr ⟨_, n, f, hn, heq⟩

/-- A sum is the negative zero only if its first part is. -/
theorem not_isNegativeZero_add {x : Float} (hx : ¬IsNegativeZero x) (y : Float) :
    ¬IsNegativeZero (x + y) := by
  rw [IsNegativeZero] at hx ⊢
  rw [unpack_add]
  have hy := unpack_pack_unpack y
  cases hxu : x.toModel.unpack with
  | notANumber =>
    rw [add, unpack_pack_notANumber]
    simp
  | infinity s =>
    cases y.toModel.unpack with
    | infinity s' =>
      cases s <;> cases s' <;> simp [add, unpack_pack_infinity, unpack_pack_notANumber]
    | notANumber => simp [add, unpack_pack_notANumber]
    | _ => simp [add, unpack_pack_infinity]
  | zero s =>
    cases hyu : y.toModel.unpack with
    | zero s' =>
      cases s with
      | negative => exact absurd hxu hx
      | positive => cases s' <;> simp [add, unpack_pack_zero]
    | notANumber => simp [add, unpack_pack_notANumber]
    | infinity s' => simp [add, unpack_pack_infinity]
    | finite s' m' e' hm' =>
      change (Float.Model.pack (.finite s' m' e' hm')).unpack ≠ _
      rw [← hyu, hy, hyu]
      simp
  | finite s m e hm =>
    have h := (isMagnitude_of_unpack hxu).1
    cases hyu : y.toModel.unpack with
    | zero s' =>
      change (Float.Model.pack (.finite s m e hm)).unpack ≠ _
      rw [← hxu, unpack_pack_unpack, hxu]
      simp
    | notANumber => simp [add, unpack_pack_notANumber]
    | infinity s' => simp [add, unpack_pack_infinity]
    | finite s' m' e' hm' =>
      have h' := (isMagnitude_of_unpack hyu).1
      rcases add_finite_cases s s' h h' with hzero | ⟨t, n, f, hn, hfinite⟩
      · rw [hzero, unpack_pack_zero]
        simp
      · rw [hfinite, unpack_pack t hn]
        split <;> simp

theorem unpack_div (x y : Float) : (x / y).toModel.unpack =
    (Float.Model.pack (div Format.binary64 x.toModel.unpack y.toModel.unpack)).unpack := rfl

/-- Zeros of either sign are divided alike, but for the sign of a zero. -/
theorem zero_div_eq {x x' : Float} (hx : IsZero x) (hx' : IsZero x') (y : Float) :
    x / y = x' / y ∨ IsZero (x / y) ∧ IsZero (x' / y) := by
  obtain ⟨s, hs⟩ := hx
  obtain ⟨s', hs'⟩ := hx'
  rw [IsZero, IsZero, unpack_div, unpack_div, hs, hs']
  cases hy : y.toModel.unpack with
  | notANumber => exact .inl (eq_of_unpack (by rw [unpack_div, unpack_div, hs, hs', hy]; rfl))
  | zero t => exact .inl (eq_of_unpack (by rw [unpack_div, unpack_div, hs, hs', hy]; rfl))
  | infinity t => exact .inr ⟨⟨_, unpack_pack_zero _⟩, ⟨_, unpack_pack_zero _⟩⟩
  | finite t m e hm => exact .inr ⟨⟨_, unpack_pack_zero _⟩, ⟨_, unpack_pack_zero _⟩⟩

end Quarry.Binary
