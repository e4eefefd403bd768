import Quarry.Number
import Quarry.Proofs.Number.Order

/-! Doubles that are not below zero. Their sums reach as far as their parts, and not much farther
unless they are infinite; and a part divided by the sum is not infinite. -/

namespace Quarry.Binary

open Float.Model (Format)
open Float.Model.UnpackedFloat

/-- Numbers that are not below zero. -/
def IsAmount : Unpacked → Prop
  | .notANumber => False
  | .zero _ => True
  | .infinity s => s = .positive
  | .finite s _ _ _ => s = .positive

/-- A number reaches no farther than another. -/
def Within : Unpacked → Unpacked → Prop
  | .zero _, _ => True
  | .notANumber, _ => False
  | _, .infinity _ => True
  | .finite _ m e _, .finite _ m' e' _ => m.log2 + e ≤ m'.log2 + e'
  | _, _ => False

theorem Within.trans {u v w : Unpacked} (h : Within u v) (h' : Within v w) : Within u w := by
  cases u <;> cases v <;> cases w <;> simp only [Within] at h h' ⊢
  omega

/-- Of two amounts one reaches no farther than the other. -/
theorem IsAmount.within_or {u v : Unpacked} (hu : IsAmount u) (hv : IsAmount v) :
    Within u v ∨ Within v u := by
  cases u <;> cases v <;> simp_all only [Within, IsAmount, or_true, true_or]
  exact le_total _ _

/-- What reaches no farther than a zero is one. -/
theorem Within.isZero {x y : Float} (h : Within x.toModel.unpack y.toModel.unpack) (hy : IsZero y) :
    IsZero x := by
  obtain ⟨s, hs⟩ := hy
  rw [hs] at h
  cases hx : x.toModel.unpack with
  | zero s' => exact ⟨s', hx⟩
  | notANumber | infinity s' | finite s' m e hm =>
    rw [hx] at h
    exact absurd h id

theorem IsAmount.within_self {u : Unpacked} (h : IsAmount u) : Within u u := by
  cases u <;> simp_all [Within, IsAmount]

theorem log2_add_le (m n : ℕ) : (m + n).log2 ≤ max m.log2 n.log2 + 1 := by
  rcases Nat.eq_zero_or_pos (m + n) with hzero | hpos
  · rw [hzero, Nat.log2_zero]
    exact Nat.zero_le _
  · have hm : m < 2 ^ (max m.log2 n.log2 + 1) :=
      Nat.lt_log2_self.trans_le (Nat.pow_le_pow_right two_pos (by omega))
    have hn : n < 2 ^ (max m.log2 n.log2 + 1) :=
      Nat.lt_log2_self.trans_le (Nat.pow_le_pow_right two_pos (by omega))
    refine Nat.lt_succ_iff.1 ((Nat.log2_lt hpos.ne').2 ?_)
    rw [Nat.succ_eq_add_one, pow_succ]
    omega

/-- The sum of two magnitudes is one that reaches as far as each of them, and at most two farther
than the farther one. -/
theorem exists_add_positive_eq {m m' : ℕ} {e e' : ℤ} (h : IsMagnitude m e)
    (h' : IsMagnitude m' e') :
    ∃ n f, ∃ hn : IsMagnitude n f,
      add Format.binary64 (.finite .positive m e h.pos) (.finite .positive m' e' h'.pos) =
        .finite .positive n f hn.pos ∧
      m.log2 + e ≤ n.log2 + f ∧ m'.log2 + e' ≤ n.log2 + f ∧
      n.log2 + f ≤ max (m.log2 + e) (m'.log2 + e') + 2 := by
  have hleast : -1074 ≤ min e e' := le_min h.least h'.least
  rw [add]
  simp only [decreaseExponent, Nat.shiftLeft_eq, Sign.apply]
  generalize hk : (e - min e e').toNat = k
  generalize hk' : (e' - min e e').toNat = k'
  have hlog := log2_mul_two_pow h.pos k
  have hlog' := log2_mul_two_pow h'.pos k'
  have hpos := Nat.mul_pos h.pos (Nat.two_pow_pos k)
  have hmono : (m * 2 ^ k).log2 ≤ (m * 2 ^ k + m' * 2 ^ k').log2 :=
    (Nat.le_log2 (by omega)).2 ((Nat.log2_self_le hpos.ne').trans (Nat.le_add_right ..))
  have hpos' := Nat.mul_pos h'.pos (Nat.two_pow_pos k')
  have hmono' : (m' * 2 ^ k').log2 ≤ (m * 2 ^ k + m' * 2 ^ k').log2 :=
    (Nat.le_log2 (by omega)).2 ((Nat.log2_self_le hpos'.ne').trans (Nat.le_add_left ..))
  have hsum : ((m * 2 ^ k : ℕ) : ℤ) + ((m' * 2 ^ k' : ℕ) : ℤ) ≠ 0 := by omega
  have hgrown := log2_add_le (m * 2 ^ k) (m' * 2 ^ k')
  obtain ⟨n, f, hn, heq, hlow, hhigh⟩ := exists_normalize_eq hsum hleast .positive
  rw [if_neg (by omega)] at heq
  have habs : (((m * 2 ^ k : ℕ) : ℤ) + ((m' * 2 ^ k' : ℕ) : ℤ)).natAbs =
      m * 2 ^ k + m' * 2 ^ k' := by omega
  rw [habs] at hlow hhigh
  exact ⟨n, f, hn, heq, by omega, by omega, by omega⟩

theorem exists_add_zero_eq (s s' : Sign) :
    ∃ t, add Format.binary64 (.zero s) (.zero s') = .zero t := by
  cases s <;> cases s' <;> exact ⟨_, rfl⟩

theorem isZero_add {x y : Float} (hx : IsZero x) (hy : IsZero y) : IsZero (x + y) := by
  obtain ⟨s, hs⟩ := hx
  obtain ⟨s', hs'⟩ := hy
  obtain ⟨t, ht⟩ := exists_add_zero_eq s s'
  exact ⟨t, by rw [unpack_add, hs, hs', ht, unpack_pack_zero]⟩

/-- Amounts add up to an amount that reaches as far as each of them. -/
theorem isAmount_add {x y : Float} (hx : IsAmount x.toModel.unpack)
    (hy : IsAmount y.toModel.unpack) :
    IsAmount (x + y).toModel.unpack ∧ Within x.toModel.unpack (x + y).toModel.unpack ∧
      Within y.toModel.unpack (x + y).toModel.unpack := by
  have hxx := unpack_pack_unpack x
  have hyy := unpack_pack_unpack y
  rw [unpack_add]
  cases hxu : x.toModel.unpack with
  | notANumber =>
    rw [hxu] at hx
    exact absurd hx id
  | zero s =>
    cases hyu : y.toModel.unpack with
    | notANumber =>
      rw [hyu] at hy
      exact absurd hy id
    | zero s' =>
      obtain ⟨t, ht⟩ := exists_add_zero_eq s s'
      rw [ht, unpack_pack_zero]
      exact ⟨trivial, trivial, trivial⟩
    | infinity s' =>
      rw [hyu] at hyy hy
      exact ⟨hyy.symm ▸ hy, trivial, hyy.symm ▸ hy.within_self⟩
    | finite s' m' e' hm' =>
      rw [hyu] at hyy hy
      exact ⟨hyy.symm ▸ hy, trivial, hyy.symm ▸ hy.within_self⟩
  | infinity s =>
    rw [hxu] at hxx hx
    obtain rfl : s = .positive := hx
    cases hyu : y.toModel.unpack with
    | notANumber =>
      rw [hyu] at hy
      exact absurd hy id
    | zero s' => exact ⟨hxx.symm ▸ rfl, hxx.symm ▸ trivial, trivial⟩
    | infinity s' =>
      rw [hyu] at hy
      obtain rfl : s' = .positive := hy
      exact ⟨rfl, trivial, trivial⟩
    | finite s' m' e' hm' => exact ⟨hxx.symm ▸ rfl, hxx.symm ▸ trivial, hxx.symm ▸ trivial⟩
  | finite s m e hm =>
    have h := (isMagnitude_of_unpack hxu).1
    rw [hxu] at hxx hx
    cases hyu : y.toModel.unpack with
    | notANumber =>
      rw [hyu] at hy
      exact absurd hy id
    | zero s' => exact ⟨hxx.symm ▸ hx, hxx.symm ▸ hx.within_self, trivial⟩
    | infinity s' =>
      rw [hyu] at hyy hy
      exact ⟨hyy.symm ▸ hy, hyy.symm ▸ trivial, hyy.symm ▸ trivial⟩
    | finite s' m' e' hm' =>
      have h' := (isMagnitude_of_unpack hyu).1
      rw [hyu] at hy
      obtain rfl : s = .positive := hx
      obtain rfl : s' = .positive := hy
      obtain ⟨n, f, hn, heq, hreach, hreach', -⟩ := exists_add_positive_eq h h'
      rw [heq, unpack_pack .positive hn]
      split
      · exact ⟨rfl, trivial, trivial⟩
      · exact ⟨rfl, hreach, hreach'⟩

/-! ### Quotients -/

/-- Numbers that are not infinite. -/
def IsFinite : Unpacked → Prop
  | .zero _ | .finite _ _ _ _ => True
  | .infinity _ | .notANumber => False

theorem Within.isFinite {u v : Unpacked} (h : Within u v) (hv : IsFinite v) : IsFinite u := by
  cases u <;> cases v <;> simp_all only [Within, IsFinite]

theorem log2_div_le {m m' : ℕ} (hm' : 0 < m') {k : ℕ} (hm : 0 < m) (hq : 0 < m * 2 ^ k / m') :
    (m * 2 ^ k / m').log2 + m'.log2 ≤ m.log2 + k := by
  rw [← log2_mul_two_pow hm, Nat.le_log2 (Nat.mul_pos hm (Nat.two_pow_pos k)).ne', pow_add]
  exact (Nat.mul_le_mul (Nat.log2_self_le hq.ne') (Nat.log2_self_le hm'.ne')).trans
    (Nat.div_mul_le_self ..)

theorem two_pow_le_div {m m' : ℕ} (hm : 0 < m) (hm' : 0 < m') {j k : ℕ}
    (h : j + m'.log2 + 1 ≤ m.log2 + k) :
    2 ^ j ≤ m * 2 ^ k / m' := by
  rw [Nat.le_div_iff_mul_le hm']
  calc 2 ^ j * m' ≤ 2 ^ j * 2 ^ (m'.log2 + 1) := Nat.mul_le_mul_left _ Nat.lt_log2_self.le
    _ ≤ 2 ^ (m.log2 + k) := by
        rw [← pow_add, ← add_assoc]
        exact Nat.pow_le_pow_right two_pos h
    _ ≤ m * 2 ^ k := by
        rw [pow_add]
        exact Nat.mul_le_mul_right _ (Nat.log2_self_le hm.ne')

/-- A magnitude divided by another is rounded from the digits of the quotient down to a place that
is fine enough. These are all digits of a double, unless the other is far above it. -/
theorem exists_div_finite_eq {m m' : ℕ} {e e' : ℤ} (h : IsMagnitude m e) (h' : IsMagnitude m' e') :
    ∃ (q : ℕ) (t : ℤ) (accuracy : Accuracy),
      div Format.binary64 (.finite .positive m e h.pos) (.finite .positive m' e' h'.pos) =
        roundWithAccuracy Format.binary64 .positive q t accuracy ∧
      t ≤ place q t ∧ q.log2 + t ≤ max (m.log2 + e - (m'.log2 + e')) (-1074) ∧
      (q : ℚ) * 2 ^ t ≤ m * 2 ^ e / (m' * 2 ^ e') ∧
      (m : ℚ) * 2 ^ e / (m' * 2 ^ e') < (q + 1) * 2 ^ t ∧
      (m'.log2 + e' ≤ m.log2 + e + 1021 →
        0 < q ∧ surplus q t ≤ q.log2 ∧ m.log2 + e - (m'.log2 + e') - 1 ≤ q.log2 + t) := by
  rw [div]
  simp only [divCore, Nat.shiftLeft_eq]
  generalize ht : min (e - e') (Format.binary64.targetExponent _) = t
  replace ht : min (e - e') (max (m.log2 + 1 + e - (m'.log2 + 1 + e') - 53) (-1074)) = t := ht
  generalize hk : (e - e' - t).toNat = k
  have hm' : (0 : ℚ) < m' := by exact_mod_cast h'.pos
  have hvalue : (m : ℚ) * 2 ^ e / (m' * 2 ^ e') = (m * 2 ^ k : ℕ) / m' * 2 ^ t := by
    obtain rfl : e = k + t + e' := by omega
    rw [zpow_add₀ two_ne_zero, zpow_add₀ two_ne_zero, zpow_natCast]
    push_cast
    field_simp
  have hfloor : ((m * 2 ^ k / m' : ℕ) : ℚ) ≤ (m * 2 ^ k : ℕ) / m' := by
    rw [le_div_iff₀ hm']
    exact_mod_cast Nat.div_mul_le_self ..
  have hceil : ((m * 2 ^ k : ℕ) : ℚ) / m' < (m * 2 ^ k / m' : ℕ) + 1 := by
    rw [div_lt_iff₀ hm']
    exact_mod_cast Nat.lt_mul_of_div_lt (Nat.lt_succ_self _) h'.pos
  have hhigh : (m * 2 ^ k / m').log2 + t ≤ max (m.log2 + e - (m'.log2 + e')) (-1074) := by
    rcases Nat.eq_zero_or_pos (m * 2 ^ k / m') with hzero | hpos
    · have hshort : ¬52 + m'.log2 + 1 ≤ m.log2 + k := by
        intro hlong
        have hdigits := two_pow_le_div h.pos h'.pos hlong
        rw [hzero] at hdigits
        norm_num at hdigits
      rw [hzero, Nat.log2_zero]
      omega
    · have := log2_div_le h'.pos h.pos hpos
      omega
  have hnear : m'.log2 + e' ≤ m.log2 + e + 1021 →
      0 < m * 2 ^ k / m' ∧ m.log2 + e - (m'.log2 + e') - 1 ≤
        (m * 2 ^ k / m').log2 + t := fun near => by
    have hlow : 2 ^ (m.log2 + k - m'.log2 - 1) ≤ m * 2 ^ k / m' :=
      two_pow_le_div h.pos h'.pos (by omega)
    have hpos := (Nat.two_pow_pos _).trans_le hlow
    have hlog := (Nat.le_log2 hpos.ne').2 hlow
    exact ⟨hpos, by omega⟩
  refine ⟨m * 2 ^ k / m', t, _, rfl, ?_, hhigh, ?_, ?_, fun near => ?_⟩
  · rw [place]
    omega
  · rw [hvalue]
    exact mul_le_mul_of_nonneg_right hfloor (by positivity)
  · rw [hvalue]
    exact mul_lt_mul_of_pos_right hceil (by positivity)
  · obtain ⟨hpos, hreach⟩ := hnear near
    refine ⟨hpos, ?_, hreach⟩
    rw [surplus, place]
    omega

/-- A magnitude divided by another is zero only if it is far below it, and otherwise a magnitude
that reaches at most one farther than the difference of their reaches, if it is not among
the least. -/
theorem div_finite_cases {m m' : ℕ} {e e' : ℤ} (h : IsMagnitude m e) (h' : IsMagnitude m' e') :
    div Format.binary64 (.finite .positive m e h.pos) (.finite .positive m' e' h'.pos) =
        .zero .positive ∧ m.log2 + e + 1021 < m'.log2 + e' ∨
      ∃ n f, ∃ hn : IsMagnitude n f,
        div Format.binary64 (.finite .positive m e h.pos) (.finite .positive m' e' h'.pos) =
          .finite .positive n f hn.pos ∧
        n.log2 + f ≤ max (m.log2 + e - (m'.log2 + e') + 1) (-1073) := by
  obtain ⟨q, t, accuracy, heq, hfine, hhigh, -, -, hnear⟩ := exists_div_finite_eq h h'
  rw [heq]
  by_cases hfar : m.log2 + e + 1021 < m'.log2 + e'
  · rcases roundWithAccuracy_cases .positive accuracy hfine with hzero | ⟨n, f, hn, hround, hreach⟩
    · exact .inl ⟨hzero, hfar⟩
    · exact .inr ⟨n, f, hn, hround, by omega⟩
  · obtain ⟨hpos, hlong, -⟩ := hnear (by omega)
    obtain ⟨n, f, hn, hround, -, -, hreach⟩ :=
      exists_roundWithAccuracy_eq .positive hpos accuracy hfine hlong
    exact .inr ⟨n, f, hn, hround, by omega⟩

/-- An amount divided by one that reaches as far and is not zero is a finite amount, if not both are
infinite. -/
theorem isAmount_div {x y : Float} (hx : IsAmount x.toModel.unpack) (hy : IsAmount y.toModel.unpack)
    (within : Within x.toModel.unpack y.toModel.unpack) (hne : ¬IsZero y) :
    (x / y).toModel.unpack = .notANumber ∧ ¬IsFinite x.toModel.unpack ∨
      IsAmount (x / y).toModel.unpack ∧ IsFinite (x / y).toModel.unpack := by
  rw [unpack_div]
  cases hyu : y.toModel.unpack with
  | notANumber =>
    rw [hyu] at hy
    exact absurd hy id
  | zero s => exact absurd ⟨s, hyu⟩ hne
  | infinity s =>
    cases hxu : x.toModel.unpack with
    | notANumber =>
      rw [hxu] at hx
      exact absurd hx id
    | infinity s' => exact .inl ⟨unpack_pack_notANumber, id⟩
    | zero s' | finite s' m e hm =>
      rw [div, unpack_pack_zero]
      exact .inr ⟨trivial, trivial⟩
  | finite s m e hm =>
    rw [hyu] at hy within
    obtain rfl : s = .positive := hy
    cases hxu : x.toModel.unpack with
    | notANumber =>
      rw [hxu] at hx
      exact absurd hx id
    | infinity s' =>
      rw [hxu] at within
      exact absurd within id
    | zero s' =>
      rw [div, unpack_pack_zero]
      exact .inr ⟨trivial, trivial⟩
    | finite s' m' e' hm' =>
      rw [hxu] at hx within
      obtain rfl : s' = .positive := hx
      change m'.log2 + e' ≤ m.log2 + e at within
      have h := (isMagnitude_of_unpack hyu).1
      have h' := (isMagnitude_of_unpack hxu).1
      rcases div_finite_cases h' h with ⟨hzero, -⟩ | ⟨n, f, hn, heq, hreach⟩
      · rw [hzero, unpack_pack_zero]
        exact .inr ⟨trivial, trivial⟩
      · rw [heq, unpack_pack .positive hn, if_neg (by omega)]
        exact .inr ⟨rfl, trivial⟩

/-- A finite number divided by an infinite one is zero. -/
theorem isZero_div {x y : Float} {s : Sign} (hx : IsFinite x.toModel.unpack)
    (hy : y.toModel.unpack = .infinity s) :
    IsZero (x / y) := by
  rw [IsZero, unpack_div, hy]
  cases hxu : x.toModel.unpack with
  | notANumber | infinity s' =>
    rw [hxu] at hx
    exact absurd hx id
  | zero s' | finite s' m e hm => exact ⟨_, unpack_pack_zero _⟩

/-- A number divided by one that is not far above it is not zero. -/
theorem not_isZero_div {x y : Float} {m m' : ℕ} {e e' : ℤ} {hm : 0 < m} {hm' : 0 < m'}
    (hx : x.toModel.unpack = .finite .positive m e hm)
    (hy : y.toModel.unpack = .finite .positive m' e' hm')
    (near : m'.log2 + e' ≤ m.log2 + e + 1021) : ¬IsZero (x / y) := by
  have h := (isMagnitude_of_unpack hx).1
  have h' := (isMagnitude_of_unpack hy).1
  rintro ⟨s, hzero⟩
  rw [unpack_div, hx, hy] at hzero
  rcases div_finite_cases h h' with ⟨-, hfar⟩ | ⟨n, f, hn, heq, -⟩
  · omega
  · rw [heq, unpack_pack .positive hn] at hzero
    split at hzero <;> cases hzero

/-! ### Bounds -/

/-- A number is zero, or reaches no farther than a power of two. -/
def AtMost (r : ℤ) : Unpacked → Prop
  | .zero _ => True
  | .finite _ m e _ => m.log2 + e ≤ r
  | .infinity _ | .notANumber => False

theorem Within.atMost {u : Unpacked} {s : Sign} {m : ℕ} {e : ℤ} {hm : 0 < m}
    (h : Within u (.finite s m e hm)) :
    AtMost (m.log2 + e) u := by
  cases u <;> exact h

theorem AtMost.mono {r r' : ℤ} (hr : r ≤ r') {u : Unpacked} (h : AtMost r u) : AtMost r' u := by
  cases u with
  | zero s => trivial
  | finite s m e hm => exact le_trans h hr
  | infinity s | notANumber => exact h

/-- Two amounts add up to one that reaches at most two farther, unless it is infinite. -/
theorem atMost_add {x y : Float} {r : ℤ} (hx : IsAmount x.toModel.unpack)
    (hy : IsAmount y.toModel.unpack) (hxr : AtMost r x.toModel.unpack)
    (hyr : AtMost r y.toModel.unpack) (finite : IsFinite (x + y).toModel.unpack) :
    AtMost (r + 2) (x + y).toModel.unpack := by
  have hxx := unpack_pack_unpack x
  have hyy := unpack_pack_unpack y
  rw [unpack_add] at finite ⊢
  cases hxu : x.toModel.unpack with
  | notANumber | infinity s =>
    rw [hxu] at hxr
    exact absurd hxr id
  | zero s =>
    cases hyu : y.toModel.unpack with
    | notANumber | infinity s' =>
      rw [hyu] at hyr
      exact absurd hyr id
    | zero s' =>
      obtain ⟨t, ht⟩ := exists_add_zero_eq s s'
      rw [ht, unpack_pack_zero]
      exact trivial
    | finite s' m' e' hm' =>
      rw [hyu] at hyy hyr
      exact hyy.symm ▸ hyr.mono (by omega)
  | finite s m e hm =>
    rw [hxu] at hxx hxr hx
    cases hyu : y.toModel.unpack with
    | notANumber | infinity s' =>
      rw [hyu] at hyr
      exact absurd hyr id
    | zero s' => exact hxx.symm ▸ hxr.mono (by omega)
    | finite s' m' e' hm' =>
      rw [hyu] at hyr hy
      obtain rfl : s = .positive := hx
      obtain rfl : s' = .positive := hy
      obtain ⟨n, f, hn, heq, -, -, hreach⟩ := exists_add_positive_eq (isMagnitude_of_unpack hxu).1
        (isMagnitude_of_unpack hyu).1
      rw [hxu, hyu, heq, unpack_pack .positive hn] at finite
      rw [heq, unpack_pack .positive hn]
      split at finite
      · exact absurd finite id
      · rename_i htop
        rw [if_neg htop]
        change (m.log2 : ℤ) + e ≤ r at hxr
        change (m'.log2 : ℤ) + e' ≤ r at hyr
        change (n.log2 : ℤ) + f ≤ r + 2
        omega

theorem isAmount_unpack_pack {m : ℕ} {e : ℤ} (h : IsMagnitude m e) :
    IsAmount (Float.Model.pack (.finite .positive m e h.pos)).unpack := by
  rw [unpack_pack .positive h]
  split <;> exact rfl

/-- A number that is not below zero, times one. -/
theorem isAmount_mul_one {x y : Float} (hx : IsAmount x.toModel.unpack)
    (hy : y.toModel.unpack = .finite .positive (2 ^ 52) (-52) (by decide)) :
    IsAmount (x * y).toModel.unpack := by
  have hmul : (x * y).toModel.unpack =
      (Float.Model.pack (mul Format.binary64 x.toModel.unpack y.toModel.unpack)).unpack := rfl
  rw [hmul, hy]
  cases hxu : x.toModel.unpack with
  | notANumber =>
    rw [hxu] at hx
    exact absurd hx id
  | zero s =>
    rw [mul, unpack_pack_zero]
    exact trivial
  | infinity s =>
    rw [hxu] at hx
    obtain rfl : s = .positive := hx
    exact rfl
  | finite s m e hm =>
    rw [hxu] at hx
    obtain rfl : s = .positive := hx
    have h := (isMagnitude_of_unpack hxu).1
    change IsAmount (Float.Model.pack
      (roundWithAccuracy Format.binary64 .positive (m * 2 ^ 52) (e - (52 : ℕ)) .exact)).unpack
    rw [roundWithAccuracy_magnitude .positive h]
    exact isAmount_unpack_pack h

/-- A natural number becomes an amount. -/
theorem isAmount_ofNat (n : ℕ) : IsAmount (Float.ofNat n).toModel.unpack := by
  rcases Nat.eq_zero_or_pos n with rfl | hn
  · exact trivial
  have hscientific : Float.ofNat n = Float.ofScientific n false 0 := rfl
  rw [hscientific, Float.ofScientific]
  split
  case isTrue hsmall =>
    change IsAmount (n.toUInt64.toFloat * Float.ofBits 4607182418800017408).toModel.unpack
    refine isAmount_mul_one ?_ (by rfl)
    change IsAmount (Float.Model.pack
      (normalize Format.binary64 (n.toUInt64.toNat : ℤ) 0 .positive)).unpack
    rcases eq_or_ne (n.toUInt64.toNat : ℤ) 0 with hzero | hne
    · rw [hzero]
      exact trivial
    · obtain ⟨m, e, h, heq, -⟩ := exists_normalize_eq hne (show (-1074 : ℤ) ≤ 0 by decide) .positive
      rw [if_neg (by omega)] at heq
      rw [heq]
      exact isAmount_unpack_pack h
  case isFalse hlarge =>
    have hlog := log2_mul_two_pow hn 53
    have hlarge : 53 ≤ n.log2 := (Nat.le_log2 hn.ne').2 (by omega)
    have hplace : place (n * 2 ^ 53) (-53) = n.log2 - 52 := by
      rw [place, hlog]
      omega
    have hlow : ¬((0 : ℤ) < -(2 ^ Format.binary64.exponentBits + (n.log2 : ℤ))) := by
      have hpower : (0 : ℤ) < 2 ^ Format.binary64.exponentBits := by positivity
      omega
    obtain ⟨m, e, h, heq, -⟩ :=
      exists_roundWithAccuracy_eq .positive (Nat.mul_pos hn (Nat.two_pow_pos 53))
      .exact (show (-53 : ℤ) ≤ place (n * 2 ^ 53) (-53) by omega)
        (by rw [surplus, hplace, hlog]; omega)
    have hrounded : ofScientific Format.binary64 n 0 = .finite .positive m e h.pos := by
      rw [ofScientific, dif_neg hn.ne', if_neg (by decide), if_neg hlow, if_pos le_rfl, ← heq]
      change roundWithAccuracy Format.binary64 .positive (n <<< 53 * 10 ^ (0 : ℤ).toNat)
        (-((53 : ℕ) : ℤ) + 0) .exact = _
      rw [Nat.shiftLeft_eq, Int.toNat_zero, pow_zero, mul_one]
      rfl
    change IsAmount (Float.Model.pack (ofScientific Format.binary64 n 0)).unpack
    rw [hrounded]
    exact isAmount_unpack_pack h

/-! ### Comparisons -/

theorem le_iff {x y : Float} :
    x ≤ y ↔ x.toModel.unpack.le y.toModel.unpack = true := decide_eq_true_iff

theorem isFinite_real_iff {x : Float} :
    (Number.real x).isFinite = true ↔ IsFinite x.toModel.unpack := by
  rw [Number.isFinite, ofFloat_eq]
  cases x.toModel.unpack <;> simp [ofUnpacked, IsFinite]

/-- What is finite and not below zero is an amount. -/
theorem isAmount_of_le {x : Float} (finite : (Number.real x).isFinite = true) (h : 0 ≤ x) :
    IsAmount x.toModel.unpack := by
  have hfinite := isFinite_real_iff.1 finite
  have hle := le_iff.1 h
  cases hx : x.toModel.unpack with
  | notANumber | infinity s =>
    rw [hx] at hfinite
    exact absurd hfinite id
  | zero s => exact trivial
  | finite s m e hm =>
    rw [hx] at hle
    cases s with
    | positive => exact rfl
    | negative => cases hle

theorem zero_le_of_isAmount {x : Float} (h : IsAmount x.toModel.unpack) : 0 ≤ x := by
  have hzero : (0 : Float).toModel.unpack = .zero .positive := rfl
  rw [le_iff, hzero]
  cases hx : x.toModel.unpack with
  | notANumber =>
    rw [hx] at h
    exact absurd h id
  | zero s => rfl
  | infinity s | finite s m e hm =>
    rw [hx] at h
    obtain rfl : s = .positive := h
    rfl

/-- What is not at most zero is not zero. -/
theorem not_isZero_of_not_le {x : Float} (h : ¬x ≤ 0) : ¬IsZero x := by
  rintro ⟨s, hs⟩
  refine h (le_iff.2 ?_)
  rw [hs]
  cases s <;> rfl

theorem not_le_of_isAmount {x : Float} (h : IsAmount x.toModel.unpack) (hne : ¬IsZero x) :
    ¬x ≤ 0 := by
  have hzero : (0 : Float).toModel.unpack = .zero .positive := rfl
  rw [le_iff, hzero]
  cases hx : x.toModel.unpack with
  | notANumber =>
    rw [hx] at h
    exact absurd h id
  | zero s => exact absurd ⟨s, hx⟩ hne
  | infinity s | finite s m e hm =>
    rw [hx] at h
    obtain rfl : s = .positive := h
    exact Bool.false_ne_true

theorem pos_of_isAmount {x : Float} (h : IsAmount x.toModel.unpack) (hne : ¬IsZero x) : 0 < x := by
  have hzero : (0 : Float).toModel.unpack = .zero .positive := rfl
  rw [lt_iff, hzero]
  cases hx : x.toModel.unpack with
  | notANumber =>
    rw [hx] at h
    exact absurd h id
  | zero s => exact absurd ⟨s, hx⟩ hne
  | infinity s | finite s m e hm =>
    rw [hx] at h
    obtain rfl : s = .positive := h
    rfl

/-- A magnitude that comes before another in the order of exponents and digits reaches
no farther. -/
theorem IsMagnitude.reach_le {m m' : ℕ} {e e' : ℤ} (h : IsMagnitude m e) (h' : IsMagnitude m' e')
    (hle : e < e' ∨ e = e' ∧ m ≤ m') : m.log2 + e ≤ m'.log2 + e' := by
  have hlog := h.log2_le
  have hleast := h.least
  rcases hle with hlt | ⟨rfl, hmm⟩
  · have hdigits := (Nat.le_log2 h'.pos.ne').2 (h'.normal.resolve_left (by omega))
    omega
  · have := (Nat.le_log2 h'.pos.ne').2 ((Nat.log2_self_le h.pos.ne').trans hmm)
    omega

/-- An amount that is not above a magnitude reaches no farther. -/
theorem atMost_of_le {x y : Float} {m : ℕ} {e : ℤ} {hm : 0 < m} (hx : IsAmount x.toModel.unpack)
    (hy : y.toModel.unpack = .finite .positive m e hm) (hle : x ≤ y) :
    AtMost (m.log2 + e) x.toModel.unpack := by
  have hcompare := le_iff.1 hle
  rw [hy] at hcompare
  cases hxu : x.toModel.unpack with
  | notANumber =>
    rw [hxu] at hx
    exact absurd hx id
  | zero s => exact trivial
  | infinity s =>
    rw [hxu] at hx hcompare
    obtain rfl : s = .positive := hx
    cases hcompare
  | finite s m' e' hm' =>
    rw [hxu] at hx hcompare
    obtain rfl : s = .positive := hx
    refine (isMagnitude_of_unpack hxu).1.reach_le (isMagnitude_of_unpack hy).1 ?_
    rcases lt_trichotomy e' e with hlt | rfl | hgt
    · exact .inl hlt
    · refine .inr ⟨rfl, not_lt.1 fun hlt => ?_⟩
      simp [Float.Model.UnpackedFloat.le, Float.Model.UnpackedFloat.compare,
        compare_gt_iff_gt.2 hlt] at hcompare
    · simp [Float.Model.UnpackedFloat.le, Float.Model.UnpackedFloat.compare,
        compare_gt_iff_gt.2 hgt] at hcompare

/-- A finite amount reaches no farther than one that it is not above. -/
theorem within_of_le {x y : Float} (hx : IsAmount x.toModel.unpack) (hy : IsAmount y.toModel.unpack)
    (finite : IsFinite y.toModel.unpack) (hle : x ≤ y) :
    Within x.toModel.unpack y.toModel.unpack := by
  cases hyu : y.toModel.unpack with
  | notANumber | infinity s =>
    rw [hyu] at finite
    exact absurd finite id
  | zero s =>
    have hcompare := le_iff.1 hle
    cases hxu : x.toModel.unpack with
    | notANumber =>
      rw [hxu] at hx
      exact absurd hx id
    | zero t => exact trivial
    | infinity t | finite t m e hm =>
      rw [hxu] at hx hcompare
      rw [hyu] at hcompare
      obtain rfl : t = .positive := hx
      cases s <;> cases hcompare
  | finite s m e hm =>
    rw [hyu] at hy
    obtain rfl : s = .positive := hy
    have hatMost := atMost_of_le hx hyu hle
    cases hxu : x.toModel.unpack <;> rw [hxu] at hatMost <;> exact hatMost

end Quarry.Binary
