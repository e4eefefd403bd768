import Quarry.Filter
import Quarry.Proofs.Text.Units

/-! Globs of filters that their reader takes. Nothing else of a filter can be refused. -/

namespace Quarry

/-- Reads each glob as the one path that it spells. -/
def GlobReader.literal : GlobReader := fun glob => .ok (glob == ·)

namespace Filter

/-- The reader of globs takes the glob of a filter, if it has one. -/
def Accepted (globs : GlobReader) (f : Filter) : Prop :=
  ∀ glob ∈ f.normalize.glob, ∃ accepts, globs glob = .ok accepts

variable {globs : GlobReader} {f : Filter}

theorem check_eq_ok_iff : f.check globs = .ok () ↔ f.Accepted globs := by
  rw [check, Accepted]
  cases f.normalize.glob with
  | none => simp
  | some glob => cases hglob : globs glob <;> simp [hglob]

alias ⟨_, Accepted.check⟩ := check_eq_ok_iff

/-- What is asked for in plain form is in plain form. -/
theorem glob_normalize (f : Filter) : f.normalize.normalize.glob = f.normalize.glob := by
  have htrimmed (t : Option Text) : trimmed? (trimmed? t) = trimmed? t := by
    rw [trimmed?, trimmed?]
    cases ht : (t.getD []).trim with
    | nil => rfl
    | cons u rest => rw [Option.getD_some, ← ht, Text.trim_trim, ht]
  exact htrimmed f.glob

/-- Filters are checked in plain form as well as in any other. -/
theorem check_normalize (f : Filter) : f.normalize.check globs = f.check globs := by
  rw [check, glob_normalize, check]

theorem check_normalize_eq_ok_iff : f.normalize.check globs = .ok () ↔ f.Accepted globs := by
  rw [check_normalize, check_eq_ok_iff]

alias ⟨_, Accepted.check_normalize⟩ := check_normalize_eq_ok_iff

theorem accepted_of_glob_eq_none (h : f.normalize.glob = .none) : f.Accepted globs := by
  rw [Accepted, h]
  exact fun glob hglob => by cases hglob

theorem accepted_none : none.Accepted globs := accepted_of_glob_eq_none rfl

theorem accepted_literal (f : Filter) : f.Accepted .literal := fun glob _ => ⟨(glob == ·), rfl⟩

end Filter
end Quarry
