import Mathlib
import Quarry.Number.Binary

/-! Doubles by their parts: what the bits of a double say is what the arithmetic of doubles takes it
apart into. -/

namespace Quarry.Binary

open Float.Model (Format)
open Float.Model.UnpackedFloat

abbrev Unpacked := Float.Model.UnpackedFloat

/-- The parts that the arithmetic of doubles works on. -/
def ofUnpacked : Unpacked → Binary
  | .notANumber => ⟨false, .notANumber⟩
  | .infinity s => ⟨s == .negative, .infinite⟩
  | .zero s => ⟨s == .negative, .finite 0 (-1074)⟩
  | .finite s m e _ => ⟨s == .negative, .finite m e⟩

/-! ### The fields of a word -/

section

variable (b : BitVec Format.binary64.numBits)

theorem toNat_unpackMantissa : (unpackMantissa b).toNat = b.toNat % 2 ^ 52 := by
  simp [unpackMantissa, BitVec.extractLsb]

theorem toNat_unpackExponent : (unpackExponent b).toNat = b.toNat / 2 ^ 52 % 2 ^ 11 := by
  simp [unpackExponent, BitVec.extractLsb, Nat.shiftRight_eq_div_pow]

theorem sign_unpackSign :
    (Sign.ofBitVec (unpackSign b) == .negative) = decide (2 ^ 63 ≤ b.toNat) := by
  have hlt : b.toNat < 2 ^ 64 := b.isLt
  have hsign : (unpackSign b).toNat = b.toNat / 2 ^ 63 % 2 := by
    simp [unpackSign, BitVec.extractLsb, Nat.shiftRight_eq_div_pow]
  by_cases hneg : 2 ^ 63 ≤ b.toNat
  · have hone : unpackSign b ≠ 0#1 := by
      intro hzero
      rw [hzero] at hsign
      change 0 = _ at hsign
      omega
    rw [Sign.ofBitVec, if_neg hone, decide_eq_true hneg]
    rfl
  · have hzero : unpackSign b = 0#1 := by
      apply BitVec.eq_of_toNat_eq
      rw [hsign]
      change _ = 0
      omega
    rw [Sign.ofBitVec, if_pos hzero, decide_eq_false hneg]
    rfl

end

/-- A valid word is unpacked into what its bits say. -/
theorem ofUnpacked_unpack {b : BitVec Format.binary64.numBits} (valid : Format.binary64.Valid b) :
    ofUnpacked (unpack Format.binary64 b) =
      { negative := 2 ^ 63 ≤ b.toNat
        magnitude :=
          if b.toNat / 2 ^ 52 % 2 ^ 11 = 2047 then if b.toNat % 2 ^ 52 = 0 then .infinite
            else .notANumber
          else if b.toNat / 2 ^ 52 % 2 ^ 11 = 0 then .finite (b.toNat % 2 ^ 52) (-1074)
          else .finite (2 ^ 52 + b.toNat % 2 ^ 52)
            (((b.toNat / 2 ^ 52 % 2 ^ 11 : ℕ) : ℤ) - 1075) } := by
  have hsign := sign_unpackSign b
  rw [← toNat_unpackExponent, ← toNat_unpackMantissa, unpack]
  simp only
  have hlt : (unpackExponent b).toNat < 2 ^ 11 := (unpackExponent b).isLt
  by_cases hones : unpackExponent b = -1#11
  · have htop : (unpackExponent b).toNat = 2047 := by
      rw [hones]
      rfl
    rw [if_pos htop, if_pos hones]
    by_cases hzero : unpackMantissa b = 0#52
    · have hfraction : (unpackMantissa b).toNat = 0 := by
        rw [hzero]
        rfl
      rw [if_pos hfraction, if_pos hzero, ofUnpacked, hsign]
    · have hfraction : (unpackMantissa b).toNat ≠ 0 := fun h =>
        hzero (BitVec.eq_of_toNat_eq h)
      rw [if_neg hfraction, if_neg hzero, ofUnpacked, valid.eq_packedNaN hones hzero]
      rfl
  · have htop : (unpackExponent b).toNat ≠ 2047 := fun h =>
      hones (BitVec.eq_of_toNat_eq h)
    rw [if_neg htop, if_neg hones]
    by_cases hleast : unpackExponent b = 0#11
    · have hfield : (unpackExponent b).toNat = 0 := by
        rw [hleast]
        rfl
      rw [if_pos hfield, if_pos hleast, hfield]
      split
      · rename_i hzero
        have hfraction : (unpackMantissa b).toNat = 0 := by
          rw [hzero]
          rfl
        rw [ofUnpacked, hsign, hfraction]
      · rw [ofUnpacked, hsign]
        rfl
    · have hfield : (unpackExponent b).toNat ≠ 0 := fun h =>
        hleast (BitVec.eq_of_toNat_eq h)
      have happend : (1#1 ++ unpackMantissa b).toNat =
          2 ^ 52 + (unpackMantissa b).toNat := by
        rw [BitVec.toNat_append, ← Nat.shiftLeft_add_eq_or_of_lt (unpackMantissa b).isLt]
        rfl
      rw [if_neg hfield, if_neg hleast, ofUnpacked, hsign, happend]
      rfl

theorem ofFloat_eq (x : Float) : ofFloat x = ofUnpacked x.toModel.unpack :=
  (ofUnpacked_unpack x.toModel.valid).symm

theorem eq_of_toBits {x y : Float} (h : x.toBits = y.toBits) : x = y := by
  obtain ⟨⟨bits, valid⟩⟩ := x
  obtain ⟨⟨bits', valid'⟩⟩ := y
  obtain rfl : bits = bits' := h
  rfl

/-- There is one double that is not a number. -/
theorem toBits_of_notANumber {x : Float} (h : (ofFloat x).magnitude = .notANumber) :
    x.toBits.toBitVec = packedNaN Format.binary64 := by
  have hvalid := x.toModel.valid
  change Format.binary64.Valid x.toBits.toBitVec at hvalid
  have hexponent := toNat_unpackExponent x.toBits.toBitVec
  have hmantissa := toNat_unpackMantissa x.toBits.toBitVec
  change _ = x.toBits.toNat / 2 ^ 52 % 2 ^ 11 at hexponent
  change _ = x.toBits.toNat % 2 ^ 52 at hmantissa
  simp only [ofFloat, Nat.pow_eq] at h
  split at h
  · rename_i htop
    split at h
    · cases h
    · rename_i hfraction
      refine hvalid.eq_packedNaN (BitVec.eq_of_toNat_eq (hexponent.trans htop))
        fun hzero => hfraction ?_
      rw [← hmantissa, hzero]
      rfl
  · split at h <;> cases h

/-- A double is what its sign and magnitude are. -/
theorem ofFloat_injective : Function.Injective ofFloat := by
  intro x y h
  have hsign := congrArg Binary.negative h
  have hmagnitude := congrArg Binary.magnitude h
  apply eq_of_toBits
  by_cases hnan : (ofFloat x).magnitude = .notANumber
  · rw [← UInt64.toBitVec_inj, toBits_of_notANumber hnan, toBits_of_notANumber (hmagnitude ▸ hnan)]
  · have hx : x.toBits.toNat < 2 ^ 64 := x.toBits.toNat_lt
    have hy : y.toBits.toNat < 2 ^ 64 := y.toBits.toNat_lt
    rw [← UInt64.toNat_inj]
    simp only [ofFloat, Nat.pow_eq, decide_eq_decide] at hsign hmagnitude hnan
    generalize x.toBits.toNat = n at *
    generalize y.toBits.toNat = n' at *
    -- Each word is made up of its three fields, which the sign and the magnitude tell.
    have hfields : n / 2 ^ 52 % 2 ^ 11 = n' / 2 ^ 52 % 2 ^ 11 ∧ n % 2 ^ 52 = n' % 2 ^ 52 := by
      split_ifs at hmagnitude hnan
      all_goals simp only [Magnitude.finite.injEq, not_true_eq_false] at hmagnitude hnan
      all_goals omega
    omega

/-! ### Packing -/

/-- The magnitudes of doubles above zero, as far as their exponents go below. -/
structure IsMagnitude (m : ℕ) (e : ℤ) : Prop where
  pos : 0 < m
  below : m < 2 ^ 53
  least : -1074 ≤ e
  normal : e = -1074 ∨ 2 ^ 52 ≤ m

theorem isMagnitude_of_ofFloat {x : Float} {m : ℕ} {e : ℤ} (h : (ofFloat x).magnitude = .finite m e)
    (hm : 0 < m) : IsMagnitude m e ∧ e ≤ 971 := by
  simp only [ofFloat, Nat.pow_eq] at h
  generalize x.toBits.toNat = n at h
  split_ifs at h
  all_goals
    obtain ⟨rfl, rfl⟩ := Magnitude.finite.inj h
    refine ⟨⟨hm, ?_, ?_, ?_⟩, ?_⟩ <;> omega

theorem toNat_packComponents (s : Sign) (exponent : BitVec 11) (mantissa : BitVec 52) :
    (packComponents Format.binary64 s exponent mantissa).toNat =
      (if s == .negative then 2 ^ 63 else 0) + exponent.toNat * 2 ^ 52 + mantissa.toNat := by
  have hfields : (packComponents Format.binary64 s exponent mantissa).toNat =
      (s.toBitVec.toNat <<< 11 ||| exponent.toNat) <<< 52 ||| mantissa.toNat := by
    rw [packComponents, BitVec.toNat_append, BitVec.toNat_append]
  rw [hfields, ← Nat.shiftLeft_add_eq_or_of_lt exponent.isLt,
    ← Nat.shiftLeft_add_eq_or_of_lt mantissa.isLt, Nat.shiftLeft_eq, Nat.shiftLeft_eq]
  cases s
  · change (1 * 2 ^ 11 + _) * 2 ^ 52 + _ = 2 ^ 63 + _ + _
    ring
  · change (0 * 2 ^ 11 + _) * 2 ^ 52 + _ = 0 + _ + _
    ring

theorem toNat_pack (s : Sign) {m : ℕ} {e : ℤ} (h : IsMagnitude m e) :
    (pack Format.binary64 (.finite s m e h.pos)).toNat = (if s == .negative then 2 ^ 63 else 0) +
      if 971 < e then 2047 * 2 ^ 52
      else if m < 2 ^ 52 then m else (e + 1075).toNat * 2 ^ 52 + (m - 2 ^ 52) := by
  have hleast := h.least
  have hbelow := h.below
  have hnormal := h.normal
  have hbias : e + (Format.binary64.exponentBias : ℤ) +
      (Format.binary64.mantissaBitsWithoutImplicit : ℤ) =
      e + 1075 := by
    change e + 1023 + 52 = _
    ring
  rw [pack]
  simp only [hbias]
  by_cases htop : 971 < e
  · rw [if_pos (show 2 ^ 11 ≤ (e + 1075).toNat + 1 by omega), if_pos htop, packedInfinity,
      toNat_packComponents]
    rfl
  · rw [if_neg (show ¬2 ^ 11 ≤ (e + 1075).toNat + 1 by omega), if_neg htop]
    by_cases hsub : m < 2 ^ 52
    · have hbits : m.log2 + 1 ≠ Format.binary64.mantissaBits := by
        have hlow := (Nat.log2_lt h.pos.ne').2 hsub
        change _ ≠ 53
        omega
      rw [if_neg hbits, if_pos hsub, toNat_packComponents, BitVec.toNat_ofNat, BitVec.toNat_ofNat]
      omega
    · have hbits : m.log2 + 1 = Format.binary64.mantissaBits := by
        have hlow := (Nat.le_log2 h.pos.ne').2 (not_lt.1 hsub)
        have hhigh := (Nat.log2_lt h.pos.ne').2 hbelow
        change _ = 53
        omega
      rw [if_pos hbits, if_neg hsub, toNat_packComponents, BitVec.toNat_ofNat, BitVec.toNat_ofNat]
      omega

/-- Packing keeps a magnitude, unless its exponent goes too far above. -/
theorem ofUnpacked_unpack_pack (s : Sign) {m : ℕ} {e : ℤ} (h : IsMagnitude m e) :
    ofUnpacked (unpack Format.binary64 (pack Format.binary64 (.finite s m e h.pos))) =
      ⟨s == .negative, if 971 < e then .infinite else .finite m e⟩ := by
  have hleast := h.least
  have hbelow := h.below
  have hnormal := h.normal
  have hpos := h.pos
  rw [ofUnpacked_unpack valid_pack, toNat_pack s h]
  generalize hsign : (if s == .negative then 2 ^ 63 else 0) = sign
  have hnegative : ∀ n < 2 ^ 63, decide (2 ^ 63 ≤ sign + n) = (s == .negative) := by
    intro n hn
    cases hs : s == .negative with
    | true =>
      rw [hs, if_pos rfl] at hsign
      exact decide_eq_true (by omega)
    | false =>
      rw [hs, if_neg (by decide)] at hsign
      exact decide_eq_false (by omega)
  have hdivides : sign % 2 ^ 63 = 0 := by
    rw [← hsign]
    split <;> rfl
  by_cases htop : 971 < e
  · simp only [if_pos htop]
    rw [hnegative _ (by omega), if_pos (by omega), if_pos (by omega)]
  · simp only [if_neg htop]
    by_cases hsub : m < 2 ^ 52
    · have hfraction : (sign + m) % 2 ^ 52 = m := by omega
      simp only [if_pos hsub]
      rw [hnegative _ (by omega), if_neg (by omega), if_pos (by omega), hfraction,
        hnormal.resolve_right (by omega)]
    · have hfraction :
          2 ^ 52 + (sign + ((e + 1075).toNat * 2 ^ 52 + (m - 2 ^ 52))) % 2 ^ 52 = m := by
        omega
      have hexponent :
          (((sign + ((e + 1075).toNat * 2 ^ 52 + (m - 2 ^ 52))) / 2 ^ 52 % 2 ^ 11 : ℕ) : ℤ) - 1075 =
            e := by
        omega
      simp only [if_neg hsub]
      rw [hnegative _ (by omega), if_neg (by omega), if_neg (by omega), hfraction, hexponent]

end Quarry.Binary
