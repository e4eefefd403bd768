import Mathlib.Data.List.Basic
import Quarry.Cache

/-! What a cache answers and holds: an answer is that of an entry for the key and the version that
were asked for, a lookup without an answer drops at most the entry of its key, and every entry was
there before or was just set. -/

namespace Quarry.Cache

variable {β : Type}

theorem mem_of_entry? {c : Cache β} {key : Text} {e : Entry β} (h : c.entry? key = some e) :
    e ∈ c.entries ∧ e.key = key := by
  unfold entry? at h
  exact ⟨List.mem_of_find?_eq_some h, by simpa using List.find?_some h⟩

/-- An answer is that of the entry of the key, which is good. -/
theorem entry?_of_get {c : Cache β} {key : Text} {version : Nat} {now : Float} {response : β}
    (h : (c.get key version now).1 = some response) :
    ∃ e, c.entry? key = some e ∧ e.isFresh version now = true ∧ e.response = response := by
  rw [get] at h
  cases hentry : c.entry? key with
  | none =>
    rw [hentry] at h
    cases h
  | some e =>
    simp only [hentry] at h
    split at h
    · rename_i hfresh
      exact ⟨e, rfl, hfresh, Option.some.inj h⟩
    · cases h

/-- An answer is that of an entry for the key and the version. -/
theorem exists_entry_of_get {c : Cache β} {key : Text} {version : Nat} {now : Float} {response : β}
    (h : (c.get key version now).1 = some response) :
    ∃ e ∈ c.entries, e.key = key ∧ e.version = version ∧ e.response = response := by
  obtain ⟨e, hentry, hfresh, hresponse⟩ := entry?_of_get h
  obtain ⟨hmem, hkey⟩ := mem_of_entry? hentry
  rw [Entry.isFresh, Bool.and_eq_true] at hfresh
  exact ⟨e, hmem, hkey, beq_iff_eq.1 hfresh.1, hresponse⟩

/-- What a lookup without an answer leaves: a miss is counted, and the entry of the key is dropped
if it is past. -/
structure Missed (c c' : Cache β) (key : Text) (version : Nat) (now : Float) : Prop where
  bound : c'.bound = c.bound
  hits : c'.hits = c.hits
  misses : c'.misses = c.misses + 1
  entries : c'.entries = c.entries ∨ ∃ e, c.entry? key = some e ∧ e.isFresh version now = false ∧
    c'.entries = c.entries.filter (·.key != key)

theorem missed_of_get {c : Cache β} {key : Text} {version : Nat} {now : Float}
    (h : (c.get key version now).1 = none) :
    c.Missed (c.get key version now).2 key version now := by
  rw [get] at h ⊢
  cases hentry : c.entry? key with
  | none => exact ⟨rfl, rfl, rfl, .inl rfl⟩
  | some e =>
    simp only [hentry] at h ⊢
    split at h
    · cases h
    · rename_i hpast
      rw [if_neg hpast]
      exact ⟨rfl, rfl, rfl, .inr ⟨e, hentry, Bool.eq_false_iff.2 hpast, rfl⟩⟩

/-- Looking up adds no entry. -/
theorem mem_of_mem_get {c : Cache β} {key : Text} {version : Nat} {now : Float} {e : Entry β}
    (h : e ∈ (c.get key version now).2.entries) : e ∈ c.entries := by
  rw [get] at h
  cases hentry : c.entry? key with
  | none =>
    rw [hentry] at h
    exact h
  | some found =>
    simp only [hentry] at h
    split at h
    · exact h
    · exact (List.mem_filter.1 h).1

theorem mem_of_mem_evict {c : Cache β} {e : Entry β} (h : e ∈ c.evict.entries) : e ∈ c.entries := by
  rw [evict] at h
  split at h
  · exact List.mem_of_mem_drop h
  · exact h

/-- Setting adds at most the entry that is set. -/
theorem mem_of_mem_set {c : Cache β} {key : Text} {response : β} {lifetime : Float} {version : Nat}
    {now : Float} {e : Entry β} (h : e ∈ (c.set key response lifetime version now).entries) :
    e ∈ c.entries ∨ e = ⟨key, response, now, lifetime, version⟩ := by
  rw [set] at h
  split at h
  · rcases List.mem_append.1 (mem_of_mem_evict h) with hold | hnew
    · exact .inl (List.mem_filter.1 hold).1
    · exact .inr (List.mem_singleton.1 hnew)
  · exact .inl h

end Quarry.Cache
