import Quarry.Proofs.Text.Order

/-! Maps of buckets: each key has a bucket of values under keys of their own, and a bucket that
falls empty goes. Such a map is told by what it holds in each place. -/

namespace Quarry

/-- A map from texts to buckets. -/
abbrev Buckets (β : Type) := Std.TreeMap Text (Std.TreeMap Text β)

namespace Buckets

variable {β : Type}

/-- What a bucket holds under a key. -/
def at? (m : Buckets β) (name key : Text) : Option β := m[name]?.bind fun bucket => bucket[key]?

/-- No bucket is empty. -/
def Full (m : Buckets β) : Prop :=
  ∀ (name : Text) bucket, m[name]? = some bucket → bucket.isEmpty = false

/-- Puts a value into a bucket. -/
def add (m : Buckets β) (name key : Text) (value : β) : Buckets β :=
  m.insert name ((m.getD name ∅).insert key value)

/-- Takes a value out of its bucket, and the bucket with the last of its values. -/
def drop (m : Buckets β) (name key : Text) : Buckets β :=
  match m[name]? with
  | none => m
  | some bucket =>
    if (bucket.erase key).isEmpty then m.erase name else m.insert name (bucket.erase key)

theorem full_empty : Full (∅ : Buckets β) := by simp [Full]

theorem getElem?_getD (m : Buckets β) (name key : Text) :
    (m.getD name ∅)[key]? = m.at? name key := by
  rw [at?, Std.TreeMap.getD_eq_getD_getElem?]
  cases m[name]? <;> simp

theorem at?_add (m : Buckets β) (name key : Text) (value : β) (name' key' : Text) :
    (m.add name key value).at? name' key' =
      if name = name' ∧ key = key' then some value else m.at? name' key' := by
  rw [at?, add, Text.getElem?_insert]
  by_cases hname : name = name'
  · subst hname
    rw [if_pos rfl, Option.bind_some, Text.getElem?_insert, getElem?_getD]
    simp
  · simp [hname, at?]

theorem Full.add {m : Buckets β} (h : m.Full) (name key : Text) (value : β) :
    (m.add name key value).Full := by
  exact Text.forall_insert h Std.TreeMap.isEmpty_insert

theorem at?_drop (m : Buckets β) (name key : Text) (name' key' : Text) :
    (m.drop name key).at? name' key' =
      if name = name' ∧ key = key' then none else m.at? name' key' := by
  rw [drop]
  cases hbucket : m[name]? with
  | none =>
    simp only
    split
    · rename_i h
      rw [at?, ← h.1, hbucket, Option.bind_none]
    · rfl
  | some bucket =>
    have hdropped : ∀ k : Text, (bucket.erase key)[k]? =
        if key = k then none else m.at? name k := by
      intro k
      rw [Text.getElem?_erase, at?, hbucket, Option.bind_some]
    simp only
    split
    · rename_i hempty
      rw [at?, Text.getElem?_erase]
      by_cases hname : name = name'
      · subst hname
        have hnone := hdropped key'
        rw [Std.TreeMap.getElem?_of_isEmpty hempty] at hnone
        simpa using hnone
      · simp [hname, at?]
    · rw [at?, Text.getElem?_insert]
      by_cases hname : name = name'
      · subst hname
        rw [if_pos rfl, Option.bind_some, hdropped]
        simp
      · simp [hname, at?]

theorem Full.drop {m : Buckets β} (h : m.Full) (name key : Text) : (m.drop name key).Full := by
  rw [Buckets.drop]
  cases m[name]? with
  | none => exact h
  | some bucket =>
    simp only
    split
    · exact Text.forall_erase h name
    · rename_i hempty
      exact Text.forall_insert h (Bool.eq_false_iff.2 hempty)

/-- A bucket is there if it holds something. -/
theorem Full.contains_iff {m : Buckets β} (h : m.Full) (name : Text) :
    m.contains name = true ↔ ∃ key value, m.at? name key = some value := by
  rw [← Std.TreeMap.isSome_getElem?_eq_contains, Option.isSome_iff_exists]
  simp only [at?, Option.bind_eq_some_iff]
  constructor
  · rintro ⟨bucket, hbucket⟩
    obtain ⟨key, hkey⟩ := Std.TreeMap.isEmpty_eq_false_iff_exists_mem.1 (h name bucket hbucket)
    exact ⟨key, bucket[key], bucket, hbucket, Std.TreeMap.getElem?_eq_some_getElem hkey⟩
  · rintro ⟨_, _, bucket, hbucket, -⟩
    exact ⟨bucket, hbucket⟩

/-- Buckets that hold the same are the same in all that can be read from them. -/
theorem equiv_getD {m m' : Buckets β} {name : Text} (h : ∀ key, m.at? name key = m'.at? name key) :
    (m.getD name ∅).Equiv (m'.getD name ∅) := by
  refine Std.TreeMap.Equiv.of_forall_constGet?_eq fun key => ?_
  rw [getElem?_getD, getElem?_getD, h]

end Buckets
end Quarry
