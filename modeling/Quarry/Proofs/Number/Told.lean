import Quarry.Json.Writer
import Quarry.Proofs.Number.Arithmetic
import Quarry.Proofs.Number.Reading

/-! Numbers are told by their texts. What a double is written as reads back as it, so that two
doubles of one text are the same, but for the sign of zero. -/

namespace Quarry

open Decimal (ReadsAs reading)

/-! ### Whole doubles -/

/-- A double that is a whole number is its mantissa, moved by its exponent. -/
theorem value_of_wholePart? {x : Float} {n m : ℕ} {e : ℤ} {negative : Bool}
    (h : wholePart? x = some n) (hx : Binary.ofFloat x = ⟨negative, .finite m e⟩) :
    (m : ℚ) * 2 ^ e = n := by
  rw [wholePart?, hx] at h
  obtain ⟨⟨hwhole, -⟩, hn⟩ := Option.ite_none_right_eq_some.1 h
  change m * 2 ^ e.toNat % 2 ^ (-e).toNat = 0 at hwhole
  obtain rfl : m * 2 ^ e.toNat / 2 ^ (-e).toNat = n := Option.some.inj hn
  rw [Nat.cast_div (Nat.dvd_of_mod_eq_zero hwhole) (by simp), eq_div_iff (by simp)]
  push_cast
  rw [mul_assoc, zpow_mul_pow_toNat two_ne_zero]

theorem negative_of_wholePart? {x : Float} {n m : ℕ} {e : ℤ} {negative : Bool}
    (h : wholePart? x = some n) (hx : Binary.ofFloat x = ⟨negative, .finite m e⟩) (hm : 0 < m) :
    negative = false := by
  rw [wholePart?, hx] at h
  exact (Option.ite_none_right_eq_some.1 h).1.2.resolve_right
    (Nat.mul_pos hm (Nat.two_pow_pos _)).ne'

namespace Binary

open Float.Model (Format)
open Float.Model.UnpackedFloat

/-- A natural number that a double is, and that has more than fifty-three digits, becomes
that double. -/
theorem ofNat_eq {x : Float} {n m : ℕ} {e : ℤ} (hx : ofFloat x = ⟨false, .finite m e⟩) (hm : 0 < m)
    (hvalue : (m : ℚ) * 2 ^ e = n) (large : 2 ^ 53 ≤ n) : Float.ofNat n = x := by
  obtain ⟨hmagnitude, hgreatest⟩ := isMagnitude_of_ofFloat (congrArg magnitude hx) hm
  have he : 0 ≤ e := by
    by_contra hneg
    have hpower : (2 : ℚ) ^ e ≤ 1 := zpow_le_one_of_nonpos₀ one_le_two (by omega)
    have hbelow : (m : ℚ) < 2 ^ 53 := by exact_mod_cast hmagnitude.below
    have hlarge : (2 : ℚ) ^ 53 ≤ n := by exact_mod_cast large
    have hproduct : (m : ℚ) * 2 ^ e ≤ m * 1 := mul_le_mul_of_nonneg_left hpower (Nat.cast_nonneg m)
    linarith
  have hn : n = m * 2 ^ e.toNat := by
    rw [← Int.toNat_of_nonneg he, zpow_natCast] at hvalue
    exact_mod_cast hvalue.symm
  have hfloat : Float.ofNat n = ⟨Float.Model.ofScientific n 0⟩ := by
    change Float.ofScientific n false 0 = _
    rw [Float.ofScientific, dif_neg (by omega)]
    rfl
  have hnonzero : n ≠ 0 := by omega
  have hlow : ¬((0 : ℤ) < -(2 ^ Format.binary64.exponentBits + (n.log2 : ℤ))) := by
    have := Int.natCast_nonneg n.log2
    have hpower : (0 : ℤ) < 2 ^ Format.binary64.exponentBits := by positivity
    omega
  have hdigits : n <<< 53 * 10 ^ (0 : ℤ).toNat = m * 2 ^ (e.toNat + 53) := by
    rw [Nat.shiftLeft_eq, hn, Int.toNat_zero, pow_zero, mul_one, pow_add, mul_assoc]
  have hexponent : -((53 : ℕ) : ℤ) + 0 = e - ((e.toNat + 53 : ℕ) : ℤ) := by
    push_cast
    omega
  have hrounded : Float.Model.UnpackedFloat.ofScientific Format.binary64 n 0 =
      .finite .positive m e hm := by
    rw [Float.Model.UnpackedFloat.ofScientific, dif_neg hnonzero, if_neg (by decide), if_neg hlow,
      if_pos le_rfl]
    change roundWithAccuracy Format.binary64 .positive (n <<< 53 * 10 ^ (0 : ℤ).toNat)
      (-((53 : ℕ) : ℤ) + 0) .exact = _
    rw [hdigits, hexponent]
    exact roundWithAccuracy_magnitude .positive hmagnitude _
  refine eq_of_unpack ?_
  rw [hfloat]
  change (Float.Model.pack (Float.Model.UnpackedFloat.ofScientific Format.binary64 n 0)).unpack = _
  rw [hrounded, unpack_pack .positive hmagnitude, if_neg (by omega)]
  refine ofUnpacked_injective ?_
  rw [← ofFloat_eq, hx]
  rfl

end Binary

/-! ### Signs -/

/-- Whether a unit begins the text of a number without a sign. -/
def beginsNumber (u : UInt16) : Bool := Text.isDigit u || u == 46

theorem head?_digits {t : Text} (h : ∀ u ∈ t, Text.isDigit u = true) (u : UInt16) (rest : Text) :
    ∀ v ∈ (t ++ u :: rest).head?, beginsNumber v = true ∨ v = u := by
  intro v hv
  cases t with
  | nil => exact .inr (Option.mem_some.1 hv).symm
  | cons w t =>
    obtain rfl := Option.mem_some.1 hv
    exact .inl (by rw [beginsNumber, h w (List.mem_cons_self ..), Bool.true_or])

/-- The text of a decimal number begins with a digit or the point. -/
theorem Decimal.beginsNumber_text (d : Decimal) : ∀ u ∈ d.text.head?, beginsNumber u = true := by
  have hdigits := digits_normalForm d
  rw [text]
  generalize d.normalForm = form at hdigits ⊢
  obtain ⟨ds, point⟩ := form
  have hpoint : ∀ {t : Text} {rest : Text}, (∀ u ∈ t, Text.isDigit u = true) →
      ∀ v ∈ (t ++ 46 :: rest).head?, beginsNumber v = true := fun h v hv =>
    (head?_digits h 46 _ v hv).elim id fun heq => by rw [heq]; decide
  dsimp only at hdigits ⊢
  split_ifs
  · intro u hu
    rcases List.mem_append.1 (List.mem_of_head? hu) with hdigit | hzero
    · rw [beginsNumber, hdigits u hdigit, Bool.true_or]
    · rw [List.eq_of_mem_replicate hzero]
      decide
  · rw [List.append_assoc, List.singleton_append]
    exact hpoint fun u hu => hdigits u (List.mem_of_mem_take hu)
  · intro u hu
    obtain rfl := Option.mem_some.1 hu
    decide
  all_goals
    rename_i hlength _
    first
      | obtain ⟨u, rfl⟩ := List.length_eq_one_iff.1 hlength
        intro v hv
        obtain rfl := Option.mem_some.1 hv
        rw [beginsNumber, hdigits u (List.mem_singleton_self u), Bool.true_or]
      | simp only [List.append_assoc, List.cons_append]
        exact hpoint fun u hu => hdigits u (List.mem_of_mem_take hu)

/-! ### Texts -/

/-- A text without a sign that reads back as a double above zero. -/
structure Spells (t : Text) (m : ℕ) (e : ℤ) : Prop where
  begins : ∀ u ∈ t.head?, beginsNumber u = true
  reads : ReadsAs (reading t) m e

theorem spells_shortest {m : ℕ} {e : ℤ} (h : Binary.IsMagnitude m e) :
    Spells (Decimal.shortest m e).text m e where
  begins := (Decimal.shortest m e).beginsNumber_text
  reads := by
    rw [Decimal.reading_text]
    exact Decimal.readsAs_shortest h

theorem begins_ofNat (n : ℕ) : ∀ u ∈ (Text.ofNat n).head?, beginsNumber u = true := fun u hu => by
  rw [beginsNumber, Text.isDigit_of_mem_ofNat (List.mem_of_head? hu), Bool.true_or]

theorem reading_ofNat (n : ℕ) : reading (Text.ofNat n) = n := by
  have hdigits : ∀ u ∈ Text.ofNat n, Text.isDigit u = true :=
    fun _ hu => Text.isDigit_of_mem_ofNat hu
  rw [Decimal.reading_of_not_mem (Decimal.not_mem_of_digits hdigits).2,
    Decimal.readPointed_digits hdigits, Text.digitsToNat_ofNat]

theorem spells_ofNat {n m : ℕ} {e : ℤ} (h : (m : ℚ) * 2 ^ e = n) : Spells (Text.ofNat n) m e where
  begins := begins_ofNat n
  reads := by
    rw [reading_ofNat, ← h]
    exact Decimal.readsAs_self m e

/-- Zero is not above zero. -/
theorem Spells.reading_ne_zero {t : Text} {m : ℕ} {e : ℤ} (h : Spells t m e) (hm : 0 < m) :
    reading t ≠ 0 := by
  have hbelow := h.reads.lower_le
  have hreach := Decimal.Interval.reach_le m e
  have hlarge : (1 : ℚ) ≤ m := by exact_mod_cast hm
  have hpower : (0 : ℚ) < 2 ^ e := by positivity
  have hpositive : 0 < ((m : ℚ) - Decimal.Interval.reach m e) * 2 ^ e :=
    mul_pos (by linarith) hpower
  exact fun hzero => absurd (hzero ▸ hbelow) (not_le.2 hpositive)

/-- What a double is written as: `null` if it is not a number, a nought if it is zero, and otherwise
a text that reads back as it, after its sign. -/
inductive Written (x : Float) : Text → Prop where
  | notANumber (h : (Binary.ofFloat x).magnitude = .notANumber) : Written x [110, 117, 108, 108]
  | zero (h : Binary.IsZero x) : Written x [48]
  | finite {negative : Bool} {m : ℕ} {e : ℤ} (h : Binary.ofFloat x = ⟨negative, .finite m e⟩)
      (hm : Binary.IsMagnitude m e) {t : Text} (spells : Spells t m e) :
      Written x ((if negative then [45] else []) ++ t)

/-- The text of a natural number that is a double reads back as it. -/
theorem spells_whole {x : Float} {n m : ℕ} {e : ℤ} {negative : Bool} (whole : wholePart? x = some n)
    (hx : Binary.ofFloat x = ⟨negative, .finite m e⟩) (hm : Binary.IsMagnitude m e) :
    Spells (Number.whole n).text m e := by
  have hvalue := value_of_wholePart? whole hx
  rw [Number.text]
  split
  case isTrue => exact spells_ofNat hvalue
  case isFalse hlarge =>
    obtain rfl := negative_of_wholePart? whole hx hm.pos
    rw [Binary.ofNat_eq hx hm.pos hvalue (not_lt.1 hlarge), shortestText, hx]
    simp only [if_neg hm.pos.ne']
    exact spells_shortest hm

theorem written_writeNumber {x : Float} (finite : (Binary.ofFloat x).magnitude ≠ .infinite) :
    Written x (Json.writeNumber (.ofFloat x)) := by
  have hx := Binary.ofFloat_eq x
  cases hunpack : x.toModel.unpack with
  | infinity s =>
    rw [hx, hunpack] at finite
    exact absurd rfl finite
  | notANumber =>
    rw [hunpack, Binary.ofUnpacked] at hx
    have hwhole : wholePart? x = none := by rw [wholePart?, hx]
    have htext : Json.writeNumber (.ofFloat x) = [110, 117, 108, 108] := by
      simp [Json.writeNumber, Number.ofFloat, hwhole, Number.isFinite, hx]
    rw [htext]
    exact .notANumber (congrArg Binary.magnitude hx)
  | zero s =>
    rw [hunpack, Binary.ofUnpacked] at hx
    have hwhole : wholePart? x = some 0 := by
      rw [wholePart?, hx]
      simp only [Binary.fraction, Nat.zero_mul, Nat.zero_mod, Nat.zero_div, or_true,
        and_self, if_true]
    have htext : Json.writeNumber (.ofFloat x) = [48] := by
      rw [Number.ofFloat, hwhole]
      rfl
    rw [htext]
    exact .zero ⟨s, hunpack⟩
  | finite s m e hm =>
    rw [hunpack, Binary.ofUnpacked] at hx
    obtain ⟨hmagnitude, -⟩ := Binary.isMagnitude_of_unpack hunpack
    cases hwhole : wholePart? x with
    | none =>
      have htext : Json.writeNumber (.ofFloat x) =
          (if s == .negative then [45] else []) ++ (Decimal.shortest m e).text := by
        simp only [Json.writeNumber, Number.ofFloat, hwhole, Number.isFinite, hx, Number.text,
          shortestText, if_neg hm.ne']
        rfl
      rw [htext]
      exact .finite hx hmagnitude (spells_shortest hmagnitude)
    | some n =>
      have htext : Json.writeNumber (.ofFloat x) = (if s == .negative then [45] else []) ++
          (Number.whole n).text := by
        rw [negative_of_wholePart? hwhole hx hm, Number.ofFloat, hwhole]
        rfl
      rw [htext]
      exact .finite hx hmagnitude (spells_whole hwhole hx hmagnitude)

/-- Numbers with signs are told apart by their signs and what follows. -/
theorem sign_append_inj {negative negative' : Bool} {t t' : Text}
    (h : ∀ u ∈ t.head?, beginsNumber u = true) (h' : ∀ u ∈ t'.head?, beginsNumber u = true)
    (heq : (if negative then [45] else []) ++ t = (if negative' then [45] else []) ++ t') :
    negative = negative' ∧ t = t' := by
  cases negative <;> cases negative'
  · exact ⟨rfl, heq⟩
  · obtain rfl : t = 45 :: t' := heq
    exact absurd (h 45 rfl) (by decide)
  · obtain rfl : 45 :: t = t' := heq
    exact absurd (h' 45 rfl) (by decide)
  · exact ⟨rfl, (List.cons.inj heq).2⟩

/-- The first unit of a number with a sign is no letter. -/
theorem sign_append_ne {negative : Bool} {t : Text} (h : ∀ u ∈ t.head?, beginsNumber u = true)
    (rest : Text) :
    (if negative then [45] else []) ++ t ≠ 110 :: rest := by
  intro heq
  cases negative
  · obtain rfl : t = 110 :: rest := heq
    exact absurd (h 110 rfl) (by decide)
  · exact absurd (List.cons.inj heq).1 (by decide)

theorem sign_append_ne_zero {negative : Bool} {t : Text} {m : ℕ} {e : ℤ} (h : Spells t m e)
    (hm : Binary.IsMagnitude m e) : (if negative then [45] else []) ++ t ≠ [48] := by
  intro heq
  have hzero : ∀ u ∈ List.head? [(48 : UInt16)], beginsNumber u = true := begins_ofNat 0
  have hplain : (if negative then [45] else []) ++ t = (if false then [45] else []) ++ [48] := heq
  obtain ⟨-, rfl⟩ := sign_append_inj h.begins hzero hplain
  exact h.reading_ne_zero hm.pos ((reading_ofNat 0).trans Nat.cast_zero)

/-- Texts that are written alike are written for one double, or for zeros of either sign. -/
theorem Written.unique {x y : Float} {t t' : Text} (hx : Written x t) (hy : Written y t')
    (heq : t = t') :
    x = y ∨ Binary.IsZero x ∧ Binary.IsZero y := by
  cases hx with
  | notANumber hx => cases hy with
    | notANumber hy => exact .inl (Binary.eq_of_toBits (UInt64.toBitVec_inj.1
        ((Binary.toBits_of_notANumber hx).trans (Binary.toBits_of_notANumber hy).symm)))
    | zero _ => exact absurd heq (by decide)
    | finite _ _ spells => exact absurd heq.symm (sign_append_ne spells.begins _)
  | zero hx => cases hy with
    | notANumber _ => exact absurd heq (by decide)
    | zero hy => exact .inr ⟨hx, hy⟩
    | finite _ hm spells => exact absurd heq.symm (sign_append_ne_zero spells hm)
  | finite hx hm spells => cases hy with
    | notANumber _ => exact absurd heq (sign_append_ne spells.begins _)
    | zero _ => exact absurd heq (sign_append_ne_zero spells hm)
    | finite hy hm' spells' =>
      obtain ⟨rfl, rfl⟩ := sign_append_inj spells.begins spells'.begins heq
      obtain ⟨rfl, rfl⟩ := spells.reads.unique spells'.reads hm hm'
      exact .inl (Binary.ofFloat_injective (hx.trans hy.symm))

/-- Doubles that are not infinite and are written alike are the same, but for the sign of zero. -/
theorem eq_or_isZero_of_writeNumber {x y : Float} (hx : (Binary.ofFloat x).magnitude ≠ .infinite)
    (hy : (Binary.ofFloat y).magnitude ≠ .infinite)
    (h : Json.writeNumber (.ofFloat x) = Json.writeNumber (.ofFloat y)) :
    x = y ∨ Binary.IsZero x ∧ Binary.IsZero y :=
  (written_writeNumber hx).unique (written_writeNumber hy) h

end Quarry
