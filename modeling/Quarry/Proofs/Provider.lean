import Quarry.Provider

/-! The replies of providers from outside, and the deadlines that they are held to. A reply at once
is always in time. A later one is if it comes before the time that is set, provided that this is one
which timers wait. -/

namespace Quarry

namespace Deadline

/-- A timer waits at least a millisecond, and for as long as it is set if it can. -/
theorem isOver_after {n : Nat} (set : 1 ≤ n) (elapsed : Nat) :
    (after (.whole n)).isOver elapsed = decide ((if n ≤ longest then n else 1) ≤ elapsed) := by
  have hbound : (Number.whole n).floorBound = some n := rfl
  rw [isOver, timer?, hbound, Option.filter_some]
  by_cases hlongest : n ≤ longest
  · simp [set, hlongest]
  · simp [hlongest]

/-- No deadline is over at once. -/
theorem isOver_zero (d : Deadline) : d.isOver 0 = false := by
  cases d with
  | unset | unlimited => rfl
  | after n =>
    rw [isOver, timer?, Option.any_some, decide_eq_false_iff_not, Nat.le_zero]
    cases hbound : n.floorBound.filter fun k => 1 ≤ k && k ≤ longest with
    | none => exact Nat.one_ne_zero
    | some k =>
      have hk := (Option.filter_eq_some_iff.1 hbound).2
      rw [Bool.and_eq_true, decide_eq_true_iff, decide_eq_true_iff] at hk
      exact Nat.ne_zero_of_lt hk.1

/-- A time that a deadline allows: none at all, or less than is set, where timers wait that long. -/
def Allows (d : Deadline) (elapsed : Nat) : Prop :=
  elapsed = 0 ∨
    match d with
    | unset => False
    | unlimited => True
    | after n => ∃ k, n = .whole k ∧ elapsed < k ∧ k ≤ longest

/-- A time that is past a deadline. One that is not set is past after a millisecond. -/
def Passed (d : Deadline) (elapsed : Nat) : Prop :=
  match d with
  | unset => 1 ≤ elapsed
  | unlimited => False
  | after n => ∃ k, n = .whole k ∧ 1 ≤ k ∧ k ≤ elapsed

theorem Allows.isOver_eq_false {d : Deadline} {elapsed : Nat} (h : d.Allows elapsed) :
    d.isOver elapsed = false := by
  obtain rfl | h := h
  · exact d.isOver_zero
  · cases d with
    | unset => exact h.elim
    | unlimited => rfl
    | after n =>
      obtain ⟨k, rfl, hlt, hlongest⟩ := h
      rw [isOver_after (Nat.one_le_of_lt hlt), if_pos hlongest, decide_eq_false_iff_not, Nat.not_le]
      exact hlt

theorem Passed.isOver {d : Deadline} {elapsed : Nat} (h : d.Passed elapsed) :
    d.isOver elapsed = true := by
  cases d with
  | unset => exact decide_eq_true h
  | unlimited => exact h.elim
  | after n =>
    obtain ⟨k, rfl, hset, hle⟩ := h
    rw [isOver_after hset, decide_eq_true_iff]
    split <;> omega

/-- Of the deadlines that timers wait, no time is neither allowed nor past. -/
theorem allows_or_passed {k : Nat} (set : 1 ≤ k) (waited : k ≤ longest) (elapsed : Nat) :
    (after (.whole k)).Allows elapsed ∨ (after (.whole k)).Passed elapsed := by
  obtain hlt | hle := Nat.lt_or_ge elapsed k
  · exact .inl (.inr ⟨k, rfl, hlt, waited⟩)
  · exact .inr ⟨k, rfl, set, hle⟩

end Deadline

namespace Backend

variable {b : Backend} {d : Deadline} {query : Text} {limit : Number}

theorem replyBy_of_isOver (h : d.isOver (b.delay b.calls query limit) = true) :
    b.replyBy d query limit = .hangs := by
  rw [replyBy, h, if_pos rfl]

theorem replyBy_of_isOver_eq_false (h : d.isOver (b.delay b.calls query limit) = false) :
    b.replyBy d query limit = b.reply b.calls query limit := by
  rw [replyBy, h, if_neg Bool.false_ne_true]

/-- What a provider has done by its deadline is what it does, unless it is late. -/
theorem replyBy_eq_or (b : Backend) (d : Deadline) (query : Text) (limit : Number) :
    b.replyBy d query limit = .hangs ∨ b.replyBy d query limit = b.reply b.calls query limit := by
  cases h : d.isOver (b.delay b.calls query limit) with
  | true => exact .inl (replyBy_of_isOver h)
  | false => exact .inr (replyBy_of_isOver_eq_false h)

end Backend
end Quarry
