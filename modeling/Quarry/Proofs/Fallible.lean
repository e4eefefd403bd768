import Mathlib.Data.List.Forall2

/-! Steps that may fail, and lists whose items are taken one by one by such a step. The first
failure is that of the whole list, and without one there is an image for each item. -/

namespace Quarry

variable {α β ε : Type} {f : α → Except ε β} {items : List α}

theorem eq_ok_of_toOption {result : Except ε β} {y : β} (h : result.toOption = some y) :
    result = .ok y := by
  cases result with
  | error e => cases h
  | ok y' => exact congrArg _ (Option.some.inj h)

theorem exists_eq_ok_of_isOk {result : Except ε α} (h : result.isOk = true) :
    ∃ x, result = .ok x := by
  cases result with
  | error e => cases h
  | ok x => exact ⟨x, rfl⟩

theorem bind_eq_ok_iff {result : Except ε α} {f : α → Except ε β} {y : β} :
    (result >>= f) = .ok y ↔ ∃ x, result = .ok x ∧ f x = .ok y := by
  cases result with
  | error e => simp [bind, Except.bind]
  | ok x => simp [bind, Except.bind]

theorem bind_eq_error_iff {result : Except ε α} {f : α → Except ε β} {e : ε} :
    (result >>= f) = .error e ↔ result = .error e ∨ ∃ x, result = .ok x ∧ f x = .error e := by
  cases result with
  | error e' => simp [bind, Except.bind]
  | ok x => simp [bind, Except.bind]

theorem map_eq_ok_iff {result : Except ε α} {f : α → β} {y : β} :
    result.map f = .ok y ↔ ∃ x, result = .ok x ∧ f x = y := by
  cases result with
  | error e => simp [Except.map]
  | ok x => simp [Except.map]

theorem map_eq_error_iff {result : Except ε α} {f : α → β} {e : ε} :
    result.map f = .error e ↔ result = .error e := by
  cases result <;> simp [Except.map]

section MapError

variable {ε' : Type} {result : Except ε α} {f : ε → ε'}

theorem mapError_eq_ok_iff {x : α} : result.mapError f = .ok x ↔ result = .ok x := by
  cases result <;> simp [Except.mapError]

theorem mapError_eq_error_iff {e' : ε'} :
    result.mapError f = .error e' ↔ ∃ e, result = .error e ∧ f e = e' := by
  cases result <;> simp [Except.mapError]

end MapError

/-- An image is that of some item. -/
theorem exists_of_mapM_ok {images : List β} (h : items.mapM f = .ok images) :
    ∀ y ∈ images, ∃ x ∈ items, f x = .ok y := by
  induction items generalizing images with
  | nil =>
    cases h
    exact fun y hy => nomatch hy
  | cons x rest ih =>
    rw [List.mapM_cons] at h
    cases hx : f x with
    | error e =>
      rw [hx] at h
      cases h
    | ok y =>
      cases hrest : rest.mapM f with
      | error e =>
        rw [hx, hrest] at h
        cases h
      | ok ys =>
        rw [hx, hrest] at h
        cases h
        refine List.forall_mem_cons.2 ⟨⟨x, List.mem_cons_self, hx⟩, fun y' hy' => ?_⟩
        obtain ⟨x', hx', himage⟩ := ih hrest y' hy'
        exact ⟨x', List.mem_cons_of_mem _ hx', himage⟩

/-- A failure is that of some item. -/
theorem exists_of_mapM_error {e : ε} (h : items.mapM f = .error e) :
    ∃ x ∈ items, f x = .error e := by
  induction items with
  | nil => cases h
  | cons x rest ih =>
    rw [List.mapM_cons] at h
    cases hx : f x with
    | error e' =>
      rw [hx] at h
      cases h
      exact ⟨x, List.mem_cons_self, hx⟩
    | ok y =>
      cases hrest : rest.mapM f with
      | error e' =>
        rw [hx, hrest] at h
        cases h
        obtain ⟨z, hz, hfails⟩ := ih hrest
        exact ⟨z, List.mem_cons_of_mem x hz, hfails⟩
      | ok ys =>
        rw [hx, hrest] at h
        cases h

/-- An item without an image makes the whole list fail, be it with its own failure or with that of
an item before it. -/
theorem exists_error_of_mapM {x : α} {e : ε} (hx : x ∈ items) (h : f x = .error e) :
    ∃ e', items.mapM f = .error e' := by
  induction items with
  | nil => cases hx
  | cons y rest ih =>
    rw [List.mapM_cons]
    cases hy : f y with
    | error e' => exact ⟨e', rfl⟩
    | ok z =>
      rcases List.mem_cons.1 hx with rfl | hrest
      · rw [h] at hy
        cases hy
      · obtain ⟨e', he'⟩ := ih hrest
        exact ⟨e', by rw [he']; rfl⟩

/-- Where each item has an image of a kind, all of them have. -/
theorem exists_forall₂_of_mapM {P : α → β → Prop} (h : ∀ x ∈ items, ∃ y, f x = .ok y ∧ P x y) :
    ∃ images, items.mapM f = .ok images ∧ List.Forall₂ P items images := by
  induction items with
  | nil => exact ⟨[], rfl, .nil⟩
  | cons x rest ih =>
    obtain ⟨⟨y, hy, hfirst⟩, hrest⟩ := List.forall_mem_cons.1 h
    obtain ⟨ys, hys, hall⟩ := ih hrest
    refine ⟨y :: ys, ?_, .cons hfirst hall⟩
    rw [List.mapM_cons, hy, hys]
    rfl

end Quarry
