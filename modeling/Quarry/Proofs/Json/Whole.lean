import Quarry.Proofs.Json.Written

/-! Texts without a surrogate that stands alone. They are what a file holds unchanged, and a value
that is written is such a text, since what stands alone in its strings is escaped. -/

namespace Quarry

namespace Text

/-- No surrogate of the text stands alone. -/
def Whole (t : Text) : Prop := ∀ p ∈ t.points, p.isLoneSurrogate = false

instance (t : Text) : Decidable t.Whole := inferInstanceAs (Decidable (∀ p ∈ t.points, _))

theorem Whole.replaceLone_eq {t : Text} (h : t.Whole) : t.replaceLone = t := by
  have hpoints : t.replaceLone = ofPoints t.points :=
    List.flatMap_congr fun p hp => by rw [h p hp, if_neg Bool.false_ne_true]
  rw [hpoints, ofPoints_points]

/-- What is written of a text is empty only if the text is. -/
theorem replaceLone_ne_nil {t : Text} (h : t ≠ []) : t.replaceLone ≠ [] := by
  intro hnil
  have hpoints : t.points = [] := by
    refine List.eq_nil_iff_forall_not_mem.2 fun p hp => ?_
    have hnone := List.flatMap_eq_nil_iff.1 hnil p hp
    split at hnone
    · cases hnone
    · cases p <;> cases hnone
  exact h (by rw [← ofPoints_points t, hpoints]; rfl)

theorem plain_of_isLoneSurrogate_eq_false {u : UInt16}
    (h : (Point.unit u).isLoneSurrogate = false) :
    Plain u := by
  rw [Point.isLoneSurrogate, Bool.and_eq_false_iff, decide_eq_false_iff_not,
    decide_eq_false_iff_not, UInt16.not_le, UInt16.not_lt] at h
  exact h

/-- Behind a text that is whole the points of what follows are parted. -/
theorem Whole.points_append {s : Text} (h : s.Whole) (t : Text) :
    points (s ++ t) = points s ++ points t := by
  unfold Whole at h
  fun_induction points s with
  | case1 => rfl
  | case2 u => exact points_cons (plain_of_isLoneSurrogate_eq_false (h _ List.mem_cons_self)) t
  | case3 u v rest huv ih =>
    rw [List.cons_append, List.cons_append, points, if_pos huv, ih (List.forall_mem_cons.1 h).2]
    rfl
  | case4 u v rest _ ih =>
    rw [List.forall_mem_cons] at h
    rw [List.cons_append, points_cons (plain_of_isLoneSurrogate_eq_false h.1), ih h.2]
    rfl

theorem whole_nil : Whole [] := fun _ hp => nomatch hp

theorem Whole.append {s t : Text} (hs : s.Whole) (ht : t.Whole) : (s ++ t).Whole := by
  intro p hp
  rw [hs.points_append] at hp
  exact (List.mem_append.1 hp).elim (hs p) (ht p)

theorem Plain.whole_singleton {u : UInt16} (h : Plain u) : Whole [u] := by
  intro p hp
  rw [List.mem_singleton.1 hp, Point.isLoneSurrogate, Bool.and_eq_false_iff,
    decide_eq_false_iff_not, decide_eq_false_iff_not, UInt16.not_le, UInt16.not_lt]
  exact h

theorem Whole.cons {u : UInt16} (hu : Plain u) {t : Text} (h : t.Whole) : Whole (u :: t) :=
  hu.whole_singleton.append h

theorem whole_of_forall_plain {t : Text} (h : ∀ u ∈ t, Plain u) : t.Whole := by
  induction t with
  | nil => exact whole_nil
  | cons u t ih =>
    rw [List.forall_mem_cons] at h
    exact (ih h.2).cons h.1

end Text

namespace Json

/-- A point is written without a surrogate that stands alone, whatever it is. -/
theorem whole_writePoint {p : Point} (h : p.Paired) : (writePoint p).Whole := by
  cases p with
  | pair high low =>
    intro p hp
    rw [writePoint, Text.points, h.1, h.2] at hp
    rw [List.mem_singleton.1 hp]
    rfl
  | unit u =>
    rcases writePoint_unit u with hprintable | ⟨heq, -, hplain⟩
    · exact Text.whole_of_forall_plain fun v hv => (hprintable v hv).plain
    · rw [heq]
      exact hplain.whole_singleton

theorem whole_writeText (t : Text) : (writeText t).Whole :=
  ((holds_flatMap Text.whole_nil Text.Whole.append fun _ hp =>
    whole_writePoint (Text.paired_of_mem_points hp)).append
      (Text.Plain.whole_singleton (by decide))).cons (by decide)

/-- A plain value is written without a surrogate that stands alone. -/
theorem Plain.whole_write {j : Json} (h : Plain j) : (write j).Whole :=
  h.holds_write Text.whole_nil Text.Whole.append (fun hu => hu.plain.whole_singleton)
    whole_writeText

end Json
end Quarry
