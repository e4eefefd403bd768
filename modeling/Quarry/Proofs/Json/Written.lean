import Quarry.Proofs.Json.RoundTrip

/-! What a written value is made of: strings, and letters, digits and marks between them. A property
of texts that these have, and that texts put together keep, holds of the whole. No control character
is written, so that a value stands on one line. -/

namespace Quarry

/-- A unit that stands for a letter, a digit or a mark. -/
def Text.Printable (u : UInt16) : Prop := 32 ≤ u ∧ u < 127

instance (u : UInt16) : Decidable (Text.Printable u) := inferInstanceAs (Decidable (_ ∧ _))

theorem Text.printable_of_all {t : Text} (h : t.all (Printable ·) = true) :
    ∀ u ∈ t, Printable u := by
  simpa using h

theorem Text.printable_of_isDigit {u : UInt16} (h : isDigit u = true) : Printable u := by
  simp only [isDigit, Printable, Bool.and_eq_true, decide_eq_true_eq, UInt16.le_iff_toNat_le,
    UInt16.lt_iff_toNat_lt] at h ⊢
  exact ⟨Nat.le_trans (by decide) h.1, Nat.lt_of_le_of_lt h.2 (by decide)⟩

theorem Text.Printable.plain {u : UInt16} (h : Printable u) : Plain u :=
  .inl (UInt16.lt_trans h.2 (by decide))

namespace Json

section

variable {P : Text → Prop} (nil : P []) (append : ∀ {s t : Text}, P s → P t → P (s ++ t))

include nil append

theorem holds_flatMap {α : Type} {f : α → Text} {items : List α} (h : ∀ x ∈ items, P (f x)) :
    P (items.flatMap f) := by
  induction items with
  | nil => exact nil
  | cons x rest ih =>
    rw [List.forall_mem_cons] at h
    exact append h.1 (ih h.2)

variable (unit : ∀ {u : UInt16}, Text.Printable u → P [u])

include unit

theorem holds_of_printable {t : Text} (h : ∀ u ∈ t, Text.Printable u) : P t := by
  rw [← List.flatMap_singleton' t]
  exact holds_flatMap nil append fun u hu => unit (h u hu)

theorem holds_writeItems {items : List Json} (h : ∀ j ∈ items, P (write j)) :
    P (write.writeItems items) := by
  induction items with
  | nil => exact nil
  | cons item rest ih =>
    rw [List.forall_mem_cons] at h
    cases rest with
    | nil => exact h.1
    | cons next rest => exact append h.1 (append (unit (u := 44) (by decide)) (ih h.2))

variable (string : ∀ t, P (writeText t))

include string

theorem holds_writeMembers {ms : List (Text × Json)} (h : ∀ m ∈ ms, P (write m.2)) :
    P (write.writeMembers ms) := by
  induction ms with
  | nil => exact nil
  | cons m ms ih =>
    obtain ⟨name, value⟩ := m
    rw [List.forall_mem_cons] at h
    by_cases hmissing : value = .missing
    · subst hmissing
      exact ih h.2
    · have hmore := ih h.2
      rw [writeMembers_cons hmissing]
      refine append (append (string name) (append (unit (u := 58) (by decide)) h.1)) ?_
      split
      · exact nil
      · exact append (unit (u := 44) (by decide)) hmore

/-- A property of strings and of printable units holds of a plain value as it is written. -/
theorem Plain.holds_write {j : Json} (h : Plain j) : P (write j) := by
  have printable : ∀ {t : Text}, (∀ u ∈ t, Text.Printable u) → P t :=
    holds_of_printable nil append unit
  induction h with
  | null => exact printable (Text.printable_of_all (by decide))
  | bool b => cases b <;> exact printable (Text.printable_of_all (by decide))
  | text t => exact string t
  | @number n h =>
    rw [writeNumber_whole h]
    exact printable fun u hu => Text.printable_of_isDigit (Text.isDigit_of_mem_ofNat hu)
  | array _ ih =>
    exact append (s := [91]) (unit (by decide))
      (append (holds_writeItems nil append unit ih) (unit (u := 93) (by decide)))
  | object _ _ ih =>
    exact append (s := [123]) (unit (by decide))
      (append (holds_writeMembers nil append unit string ih) (unit (u := 125) (by decide)))

end

theorem printable_hexDigit {n : Nat} (h : n < 16) : Text.Printable (hexDigit n) := by
  have hall : ∀ n < 16, Text.Printable (hexDigit n) := by decide
  exact hall n h

theorem printable_unitEscape (u : UInt16) : ∀ v ∈ unitEscape u, Text.Printable v := by
  have hu := u.toNat_lt
  intro v hv
  simp only [unitEscape, List.mem_cons, List.not_mem_nil, or_false] at hv
  rcases hv with rfl | rfl | rfl | rfl | rfl | rfl
  · decide
  · decide
  all_goals exact printable_hexDigit (by omega)

/-- A single unit is written in printable ones, or as it is if it is neither a control character nor
a surrogate. -/
theorem writePoint_unit (u : UInt16) : (∀ v ∈ writePoint (.unit u), Text.Printable v) ∨
    writePoint (.unit u) = [u] ∧ 32 ≤ u ∧ Text.Plain u := by
  rw [writePoint]
  -- The units that have a short escape of their own.
  iterate 7
    split
    · exact .inl (Text.printable_of_all (by decide))
  split
  · exact .inl (printable_unitEscape u)
  · rename_i hplain
    rw [not_or, not_and, UInt16.not_lt] at hplain
    exact .inr ⟨rfl, hplain.1,
      (UInt16.lt_or_le u 0xD800).imp id fun hhigh => UInt16.not_lt.1 (hplain.2 hhigh)⟩

/-! ### Control characters -/

theorem ge_writePoint {p : Point} (h : p.Paired) : ∀ u ∈ writePoint p, 32 ≤ u := by
  cases p with
  | pair high low =>
    have hhigh := Text.isHighSurrogate_iff.1 h.1
    have hlow := Text.isLowSurrogate_iff.1 h.2
    simp only [writePoint, List.forall_mem_cons, List.not_mem_nil, UInt16.le_iff_toNat_le]
    exact ⟨Nat.le_trans (by decide) hhigh.1, Nat.le_trans (by decide) hlow.1, fun _ h => h.elim⟩
  | unit u =>
    rcases writePoint_unit u with hprintable | ⟨heq, hcontrol, -⟩
    · exact fun v hv => (hprintable v hv).1
    · rw [heq]
      simpa using hcontrol

theorem ge_writeText (t : Text) : ∀ u ∈ writeText t, 32 ≤ u := by
  simp only [writeText, List.forall_mem_cons, List.forall_mem_append, List.mem_flatMap,
    List.not_mem_nil, forall_exists_index, and_imp]
  exact ⟨by decide, fun u p hp => ge_writePoint (Text.paired_of_mem_points hp) u, by decide,
    fun _ h => h.elim⟩

/-- A plain value is written without control characters. -/
theorem Plain.ge_write {j : Json} (h : Plain j) : ∀ u ∈ write j, 32 ≤ u :=
  h.holds_write (P := fun t => ∀ u ∈ t, 32 ≤ u) (by simp)
    (fun hs ht => List.forall_mem_append.2 ⟨hs, ht⟩) (fun hu => List.forall_mem_singleton.2 hu.1)
    ge_writeText

end Json
end Quarry
