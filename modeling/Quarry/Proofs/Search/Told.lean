import Quarry.Hybrid
import Quarry.Proofs.Fusion
import Quarry.Proofs.Number.Whole
import Quarry.Proofs.Settings

/-! What the numbers of a fingerprint tell of a search: its bound, and its weights but for the signs
of zeros, which no fused list depends on. -/

namespace Quarry

open Decimal (reading)

/-- The call names no limit but a double. -/
def Call.Exact (c : Call) : Prop := ∀ n ∈ c.limit, n.IsDouble

/-! ### Bounds -/

theorem Call.Exact.told_bound {c : Call} (h : c.Exact) : Told c.bound := by
  have hbound : 0 < Number.exactBound := Nat.two_pow_pos 53
  rw [bound]
  cases hlimit : c.limit with
  | none => exact .inl (by decide)
  | some n =>
    have hdouble := h n hlimit
    cases n with
    | whole n => exact .inr (wholePart?_of_isDouble hdouble)
    | real x =>
      simp only
      split
      · refine .inl (floorNat?_lt ?_)
        change Number.ofFloat x = .real x at hdouble
        rw [Number.ofFloat] at hdouble
        cases hwhole : wholePart? x with
        | none => rfl
        | some n =>
          rw [hwhole] at hdouble
          cases hdouble
      · exact .inl (by decide)

/-- A natural number that a text tells reads back from it. -/
theorem Told.spells {n : ℕ} (h : Told n) (hn : 0 < n) :
    ∃ m e, Binary.IsMagnitude m e ∧ (m : ℚ) * 2 ^ e = n ∧ Spells (Number.whole n).text m e := by
  by_cases hsmall : n < Number.exactBound
  · obtain ⟨hmagnitude, hvalue⟩ := isMagnitude_scaled hn hsmall
    refine ⟨_, _, hmagnitude, hvalue, ?_⟩
    rw [Number.text, if_pos hsmall]
    exact spells_ofNat hvalue
  · have hwhole := h.resolve_left hsmall
    have hunpack := Binary.ofFloat_eq (Float.ofNat n)
    cases hx : (Float.ofNat n).toModel.unpack with
    | finite s m e hm =>
      rw [hx, Binary.ofUnpacked] at hunpack
      have hmagnitude := (Binary.isMagnitude_of_unpack hx).1
      exact ⟨m, e, hmagnitude, value_of_wholePart? hwhole hunpack,
        spells_whole hwhole hunpack hmagnitude⟩
    | zero s =>
      rw [hx, Binary.ofUnpacked] at hunpack
      rw [wholePart?, hunpack] at hwhole
      simp only [Binary.fraction, Nat.zero_mul, Nat.zero_mod, Nat.zero_div, or_true,
        and_self, if_true, Option.some.injEq] at hwhole
      omega
    | infinity s =>
      rw [hx, Binary.ofUnpacked] at hunpack
      rw [wholePart?, hunpack] at hwhole
      cases hwhole
    | notANumber =>
      rw [hx, Binary.ofUnpacked] at hunpack
      rw [wholePart?, hunpack] at hwhole
      cases hwhole

/-- Natural numbers that texts tell are told apart. -/
theorem Told.eq {n n' : ℕ} (h : Told n) (h' : Told n')
    (heq : (Number.whole n).text = (Number.whole n').text) : n = n' := by
  have hzero : (Number.whole 0).text = Text.ofNat 0 := rfl
  have hread : reading (Text.ofNat 0) = 0 := (reading_ofNat 0).trans Nat.cast_zero
  rcases Nat.eq_zero_or_pos n with rfl | hn <;> rcases Nat.eq_zero_or_pos n' with rfl | hn'
  · rfl
  · obtain ⟨m, e, hm, -, hspells⟩ := h'.spells hn'
    exact absurd (by rw [← heq, hzero, hread]) (hspells.reading_ne_zero hm.pos)
  · obtain ⟨m, e, hm, -, hspells⟩ := h.spells hn
    exact absurd (by rw [heq, hzero, hread]) (hspells.reading_ne_zero hm.pos)
  · obtain ⟨m, e, hm, hvalue, hspells⟩ := h.spells hn
    obtain ⟨m', e', hm', hvalue', hspells'⟩ := h'.spells hn'
    rw [heq] at hspells
    obtain ⟨rfl, rfl⟩ := hspells.reads.unique hspells'.reads hm hm'
    exact_mod_cast hvalue.symm.trans hvalue'

theorem Call.bound_inj {c c' : Call} (h : c.Exact) (h' : c'.Exact)
    (heq : Json.writeNumber (.whole c.bound) = Json.writeNumber (.whole c'.bound)) :
    c.bound = c'.bound :=
  h.told_bound.eq h'.told_bound heq

/-! ### Weights -/

theorem Settings.Bounded.fuse_eq {s s' : Settings} (h : s.Bounded) (h' : s'.Bounded)
    (heq : ∀ source, Json.writeNumber (.ofFloat (s.weights.get source)) =
      Json.writeNumber (.ofFloat (s'.weights.get source))) (k : Float)
    (rankings : PerSource (List (DocId × Float))) :
    Fusion.fuse s.weights k rankings = Fusion.fuse s'.weights k rankings :=
  Fusion.fuse_congr (fun source =>
    eq_or_isZero_of_writeNumber (h source) (h' source) (heq source)) k rankings

end Quarry
