import Mathlib.Data.List.Basic
import Quarry.Text.Point

/-! The points of a text and its units. A unit that is no surrogate is a point by itself wherever it
stands, so that a text can be taken apart there. -/

namespace Quarry

/-- A unit that is no half of a surrogate pair. -/
def Text.Plain (u : UInt16) : Prop := u < 0xD800 ∨ 0xE000 ≤ u

instance (u : UInt16) : Decidable (Text.Plain u) := inferInstanceAs (Decidable (_ ∨ _))

/-- A point of two units is made of a high surrogate and a low one. -/
def Point.Paired : Point → Prop
  | .unit _ => True
  | .pair high low => Text.isHighSurrogate high = true ∧ Text.isLowSurrogate low = true

namespace Text

theorem isHighSurrogate_iff {u : UInt16} :
    isHighSurrogate u = true ↔ 0xD800 ≤ u.toNat ∧ u.toNat < 0xDC00 := by
  simp [isHighSurrogate, UInt16.le_iff_toNat_le, UInt16.lt_iff_toNat_lt]

theorem isLowSurrogate_iff {u : UInt16} :
    isLowSurrogate u = true ↔ 0xDC00 ≤ u.toNat ∧ u.toNat < 0xE000 := by
  simp [isLowSurrogate, UInt16.le_iff_toNat_le, UInt16.lt_iff_toNat_lt]

theorem plain_iff {u : UInt16} : Plain u ↔ u.toNat < 0xD800 ∨ 0xE000 ≤ u.toNat := by
  simp [Plain, UInt16.le_iff_toNat_le, UInt16.lt_iff_toNat_lt]

theorem Plain.isHighSurrogate {u : UInt16} (h : Plain u) : isHighSurrogate u = false := by
  rw [plain_iff] at h
  rw [← Bool.not_eq_true, isHighSurrogate_iff]
  omega

theorem Plain.isLowSurrogate {u : UInt16} (h : Plain u) : isLowSurrogate u = false := by
  rw [plain_iff] at h
  rw [← Bool.not_eq_true, isLowSurrogate_iff]
  omega

theorem paired_of_mem_points {t : Text} {p : Point} (h : p ∈ t.points) : p.Paired := by
  fun_induction points t with
  | case1 => cases h
  | case2 u =>
    rw [List.mem_singleton.1 h]
    trivial
  | case3 u v rest huv ih =>
    rcases List.mem_cons.1 h with rfl | h
    · exact Bool.and_eq_true_iff.1 huv
    · exact ih h
  | case4 u v rest huv ih =>
    rcases List.mem_cons.1 h with rfl | h
    · trivial
    · exact ih h

/-- Points are parted in front of a unit that is no surrogate. -/
theorem points_cons {u : UInt16} (h : Plain u) (t : Text) :
    points (u :: t) = .unit u :: points t := by
  cases t with
  | nil => rfl
  | cons v rest => simp [points, h.isHighSurrogate]

theorem points_append {u : UInt16} (h : Plain u) (s t : Text) :
    points (s ++ u :: t) = points s ++ .unit u :: points t := by
  fun_induction points s with
  | case1 => exact points_cons h t
  | case2 v => simp [points, h.isLowSurrogate, points_cons h]
  | case3 v w rest hvw ih => simp [points, hvw, ih]
  | case4 v w rest hvw ih =>
    rw [List.cons_append, List.cons_append, points, if_neg hvw]
    simp only [List.cons_append] at ih
    rw [ih, List.cons_append]

theorem ofPoints_append (ps qs : List Point) :
    ofPoints (ps ++ qs) = ofPoints ps ++ ofPoints qs := by
  simp [ofPoints]

end Text

namespace Point

theorem code_unit (u : UInt16) : (unit u).code = u.toNat := rfl

theorem code_pair (high low : UInt16) : (pair high low).code =
    0x10000 + (high.toNat - 0xD800) * 0x400 + (low.toNat - 0xDC00) := rfl

theorem width_eq (p : Point) : p.width = if p.code < 0x10000 then 1 else 2 := by
  cases p with
  | unit u =>
    have hcode : (unit u).code < 0x10000 := by
      have := u.toNat_lt
      rw [code_unit]
      omega
    rw [if_pos hcode, width]
  | pair high low =>
    have hcode : ¬(pair high low).code < 0x10000 := by
      rw [code_pair]
      omega
    rw [if_neg hcode, width]

/-- A unit that is no surrogate is only in the point that it is. -/
theorem mem_units_iff {p : Point} (h : p.Paired) {u : UInt16} (hu : Text.Plain u) :
    u ∈ p.units ↔ p = .unit u := by
  cases p with
  | unit v => simp [units, eq_comm]
  | pair high low =>
    have hhigh := Text.isHighSurrogate_iff.1 h.1
    have hlow := Text.isLowSurrogate_iff.1 h.2
    rw [Text.plain_iff] at hu
    simp only [units, List.mem_cons, List.not_mem_nil, or_false, reduceCtorEq, iff_false]
    rintro (rfl | rfl) <;> omega

theorem ofCode_of_lt {code : Nat} (h : code < 0x10000) :
    ofCode code = .unit code.toUInt16 := if_pos h

theorem paired_ofCode {code : Nat} (h : code < 0x110000) : (ofCode code).Paired := by
  rw [ofCode]
  split
  · trivial
  · refine ⟨Text.isHighSurrogate_iff.2 ?_, Text.isLowSurrogate_iff.2 ?_⟩
    · simp only [Nat.toUInt16_eq, UInt16.toNat_ofNat']
      omega
    · simp only [Nat.toUInt16_eq, UInt16.toNat_ofNat']
      omega

theorem code_ofCode {code : Nat} (h : code < 0x110000) : (ofCode code).code = code := by
  by_cases hlt : code < 0x10000
  · rw [ofCode_of_lt hlt, code_unit, Nat.toUInt16_eq, UInt16.toNat_ofNat']
    omega
  · rw [ofCode, if_neg hlt, code_pair]
    simp only [Nat.toUInt16_eq, UInt16.toNat_ofNat']
    omega

theorem code_eq_of_unit_eq {u : UInt16} {code : Nat} (h : code < 0x110000)
    (heq : unit u = ofCode code) : code = u.toNat := by
  rw [← code_unit, heq, code_ofCode h]

end Point

/-- A unit that is no surrogate is in a text exactly if it is among the points. -/
theorem Text.mem_ofPoints_iff {ps : List Point} (h : ∀ p ∈ ps, p.Paired) {u : UInt16}
    (hu : Plain u) :
    u ∈ ofPoints ps ↔ .unit u ∈ ps := by
  rw [ofPoints, List.mem_flatMap]
  constructor
  · rintro ⟨p, hp, hmem⟩
    rwa [← (Point.mem_units_iff (h p hp) hu).1 hmem]
  · exact fun hmem => ⟨_, hmem, List.mem_singleton_self u⟩

theorem Text.unit_mem_points_iff {t : Text} {u : UInt16} (hu : Plain u) :
    .unit u ∈ t.points ↔ u ∈ t := by
  rw [← mem_ofPoints_iff (fun _ => paired_of_mem_points) hu, ofPoints_points]

end Quarry
