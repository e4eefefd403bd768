import Quarry.Proofs.Text.Points
import Quarry.Text.Lowercase

/-! What lower-casing does to the units of a text. Letters stay as wide as they are, `İ` apart, no
other letter becomes a full stop, and nothing becomes `İ`. -/

namespace Quarry

namespace Point

/-- Every run of the table moves letters to letters of the same width, none to a full stop and
none to `İ`. -/
theorem lowercaseRuns_bounds : ∀ run ∈ Text.lowercaseRuns.toList,
    (run.2.1 < 0x10000 ∧ run.2.1 + run.2.2.2 < 0x10000 ∨
      0x10000 ≤ run.1 ∧ 0x10000 ≤ run.1 + run.2.2.2 ∧ run.2.1 + run.2.2.2 < 0x110000) ∧
    47 ≤ run.1 + run.2.2.2 ∧ (0x130 < run.1 + run.2.2.2 ∨ run.2.1 + run.2.2.2 < 0x130) := by
  decide +kernel

/-- One point in place of another that is no full stop: neither a full stop nor `İ`, and as wide. -/
structure Moved (p : Point) (code : Nat) : Prop where
  not_dot : p.code ≠ 46
  dot_lt : 46 < code
  ne_dotted : code ≠ 0x130
  narrow : code < 0x10000 ↔ p.code < 0x10000
  lt : code < 0x110000

/-- What may stand for a point in the lower-case form of a text. -/
inductive LowerForm (p : Point) : List Point → Prop where
  | dotted (h : p.code = 0x130) : LowerForm p [ofCode 0x69, ofCode 0x307]
  | same (h : p.code ≠ 0x130) : LowerForm p [p]
  | moved (code : Nat) (h : p.Moved code) : LowerForm p [ofCode code]

theorem lowerForm_lower (p : Point) : p.LowerForm p.lower := by
  rw [lower]
  split
  · rename_i hascii
    split
    · rename_i hupper
      simp only [Bool.and_eq_true, decide_eq_true_eq] at hupper
      exact .moved _ ⟨by omega, by omega, by omega, by omega, by omega⟩
    · exact .same (by omega)
  · rename_i hascii
    split
    · rename_i hdotted
      exact .dotted (beq_iff_eq.1 hdotted)
    · rename_i hdotted
      split
      · rename_i first last step shift hfind
        have hrun := Array.find?_some hfind
        obtain ⟨hwidth, hdot, hne⟩ := lowercaseRuns_bounds _ (Array.mem_of_find?_eq_some hfind).val
        simp only [Bool.and_eq_true, decide_eq_true_eq] at hrun hwidth hdot hne
        exact .moved _ ⟨by omega, by omega, by omega, by omega, by omega⟩
      · exact .same (by simpa using hdotted)

theorem LowerForm.paired {p : Point} {form : List Point} (h : p.LowerForm form) (hp : p.Paired) :
    ∀ q ∈ form, q.Paired := by
  cases h with
  | dotted h => exact List.forall_mem_cons.2 ⟨trivial, List.forall_mem_singleton.2 trivial⟩
  | same h => exact List.forall_mem_singleton.2 hp
  | moved code h => exact List.forall_mem_singleton.2 (paired_ofCode h.lt)

theorem LowerForm.unit_dot_mem_iff {p : Point} {form : List Point} (h : p.LowerForm form) :
    .unit 46 ∈ form ↔ p = .unit 46 := by
  cases h with
  | dotted h =>
    have hne : p ≠ .unit 46 := by
      rintro rfl
      exact absurd h (by decide)
    simp [hne, ofCode]
  | same h => rw [List.mem_singleton, eq_comm]
  | moved code h =>
    have hne : p ≠ .unit 46 := fun heq => h.not_dot (heq ▸ rfl)
    rw [List.mem_singleton, iff_false_right hne]
    intro heq
    have := h.dot_lt
    rw [code_eq_of_unit_eq h.lt heq] at this
    exact absurd this (by decide)

theorem LowerForm.unit_dotted_not_mem {p : Point} {form : List Point} (h : p.LowerForm form) :
    .unit 0x130 ∉ form := by
  cases h with
  | dotted h => simp [ofCode]
  | same h =>
    rw [List.mem_singleton]
    exact fun heq => h (heq ▸ rfl)
  | moved code h =>
    rw [List.mem_singleton]
    exact fun heq => h.ne_dotted (code_eq_of_unit_eq h.lt heq)

theorem LowerForm.length_eq {p : Point} {form : List Point} (h : p.LowerForm form)
    (hne : p.code ≠ 0x130) : (Text.ofPoints form).length = p.width := by
  cases h with
  | dotted h => exact absurd h hne
  | same h => simp [Text.ofPoints, length_units]
  | moved code h =>
    simp [Text.ofPoints, length_units, width_eq, code_ofCode h.lt, h.narrow]

end Point

namespace Text

theorem lowerForm_lowerPoints (passed ps : List Point) :
    ∃ forms, List.Forall₂ Point.LowerForm ps forms ∧ lowerPoints passed ps = forms.flatten := by
  induction ps generalizing passed with
  | nil => exact ⟨[], .nil, rfl⟩
  | cons p rest ih =>
    obtain ⟨forms, hforms, hrest⟩ := ih (p :: passed)
    rw [lowerPoints, hrest]
    split
    · rename_i hsigma
      simp only [Bool.and_eq_true, beq_iff_eq] at hsigma
      refine ⟨[Point.ofCode 0x3C2] :: forms, .cons (.moved _ ?_) hforms, rfl⟩
      exact ⟨by omega, by omega, by omega, by omega, by omega⟩
    · exact ⟨p.lower :: forms, .cons p.lowerForm_lower hforms, rfl⟩

theorem paired_of_mem_forms {ps : List Point} {forms : List (List Point)}
    (h : List.Forall₂ Point.LowerForm ps forms) (paired : ∀ p ∈ ps, p.Paired) :
    ∀ q ∈ forms.flatten, q.Paired := by
  induction h with
  | nil => simp
  | cons hform _ ih =>
    rw [List.forall_mem_cons] at paired
    rw [List.flatten_cons, List.forall_mem_append]
    exact ⟨hform.paired paired.1, ih paired.2⟩

theorem mem_lower_iff {t : Text} {u : UInt16} (hu : Plain u) :
    ∃ forms, List.Forall₂ Point.LowerForm t.points forms ∧ t.lower = ofPoints forms.flatten ∧
      (u ∈ t.lower ↔ .unit u ∈ forms.flatten) := by
  obtain ⟨forms, hforms, heq⟩ := lowerForm_lowerPoints [] t.points
  refine ⟨forms, hforms, by rw [lower, heq], ?_⟩
  rw [lower, heq, mem_ofPoints_iff (paired_of_mem_forms hforms fun _ => paired_of_mem_points) hu]

/-- Lower-casing neither makes nor loses a full stop. -/
theorem dot_mem_lower_iff (t : Text) : 46 ∈ t.lower ↔ 46 ∈ t := by
  obtain ⟨forms, hforms, -, hmem⟩ := mem_lower_iff (t := t) (u := 46) (by decide)
  rw [hmem, ← unit_mem_points_iff (by decide)]
  clear hmem
  generalize t.points = ps at hforms
  induction hforms with
  | nil => simp
  | cons hform _ ih =>
    rw [List.flatten_cons, List.mem_append, hform.unit_dot_mem_iff, ih, List.mem_cons, eq_comm]

theorem dotted_not_mem_lower (t : Text) : 0x130 ∉ t.lower := by
  obtain ⟨forms, hforms, -, hmem⟩ := mem_lower_iff (t := t) (u := 0x130) (by decide)
  rw [hmem]
  clear hmem
  generalize t.points = ps at hforms
  induction hforms with
  | nil => simp
  | cons hform _ ih =>
    rw [List.flatten_cons, List.mem_append, not_or]
    exact ⟨hform.unit_dotted_not_mem, ih⟩

/-- A text without `İ` is as long as its lower-case form. -/
theorem length_lower {t : Text} (h : 0x130 ∉ t) : t.lower.length = t.length := by
  obtain ⟨forms, hforms, heq, -⟩ := mem_lower_iff (t := t) (u := 0x130) (by decide)
  have hpoints : ∀ p ∈ t.points, p.code ≠ 0x130 := by
    intro p hp hcode
    cases p with
    | unit u =>
      have hu : u = 0x130 := UInt16.toNat_inj.1 hcode
      exact h ((unit_mem_points_iff (by decide)).1 (hu ▸ hp))
    | pair high low =>
      rw [Point.code_pair] at hcode
      omega
  rw [heq]
  conv_rhs => rw [← ofPoints_points t]
  clear heq h
  generalize t.points = ps at hforms hpoints
  induction hforms with
  | nil => rfl
  | cons hform _ ih =>
    rw [List.forall_mem_cons] at hpoints
    have hwidth := hform.length_eq hpoints.1
    simp only [ofPoints, List.flatMap_append, List.flatten_cons, List.length_append,
      List.flatMap_cons, Point.length_units] at ih hwidth ⊢
    rw [hwidth, ih hpoints.2]

end Text
end Quarry
