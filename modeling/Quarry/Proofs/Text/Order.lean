import Mathlib.Data.List.Basic
import Std.Data.TreeMap
import Quarry.Text

/-! The order of texts and their beginnings: in ascending order, the texts that begin with a stem
follow one another, and the first of them is the first that is not before the stem. Maps from texts
are looked up by equality of their keys, and a list in ascending order is told by its members. -/

namespace Quarry

/-- If the items of a list that satisfy a condition come first, they are what `takeWhile` takes. -/
theorem takeWhile_eq_filter {α : Type} {p : α → Bool} {items : List α}
    (h : items.Pairwise fun x y => p y = true → p x = true) :
    items.takeWhile p = items.filter p := by
  induction items with
  | nil => rfl
  | cons x rest ih =>
    obtain ⟨hx, hrest⟩ := List.pairwise_cons.1 h
    by_cases hp : p x = true
    · rw [List.takeWhile_cons_of_pos hp, List.filter_cons_of_pos hp, ih hrest]
    · rw [List.takeWhile_cons_of_neg hp, List.filter_cons_of_neg hp, eq_comm,
        List.filter_eq_nil_iff]
      exact fun y hy hpy => hp (hx y hy hpy)

namespace Text

theorem before_iff {a b : Text} : before a b = true ↔ compare a b = .lt := by
  simp [before]

theorem before_eq_false_iff {a b : Text} : before a b = false ↔ (compare b a).isLE = true := by
  rw [before, (Std.OrientedOrd.eq_swap : compare a b = (compare b a).swap)]
  cases compare b a <;> simp

theorem compare_eq_lt {a b : Text} (h : (compare a b).isLE = true) (hne : a ≠ b) :
    compare a b = .lt := by
  cases hcmp : compare a b with
  | lt => rfl
  | eq => exact absurd (Std.LawfulEqCmp.eq_of_compare hcmp) hne
  | gt => simp [hcmp] at h

theorem compare_cons (u v : UInt16) (a b : Text) :
    compare (u :: a) (v :: b) = (compare u v).then (compare a b) :=
  List.compareLex_cons_cons

/-- A text is not before its own beginning. -/
theorem not_before_of_startsWith {t stem : Text} (h : t.startsWith stem = true) :
    before t stem = false := by
  obtain ⟨rest, rfl⟩ := List.isPrefixOf_iff_prefix.1 h
  clear h
  induction stem with
  | nil => cases rest <;> rfl
  | cons u stem ih =>
    rw [List.cons_append, before, compare_cons, Std.ReflOrd.compare_self]
    exact ih

/-- Between a stem and a text that begins with it, all texts do. -/
theorem startsWith_of_between {a b stem : Text} (hlow : before a stem = false)
    (hhigh : compare a b = .lt) (hb : b.startsWith stem = true) : a.startsWith stem = true := by
  induction stem generalizing a b with
  | nil => rfl
  | cons s stem ih =>
    obtain ⟨rest, rfl⟩ := List.isPrefixOf_iff_prefix.1 hb
    cases a with
    | nil => cases hlow
    | cons u a =>
      rw [List.cons_append, compare_cons] at hhigh
      rw [before, compare_cons] at hlow
      cases hus : compare u s with
      | lt => simp [hus] at hlow
      | gt => simp [hus] at hhigh
      | eq =>
        obtain rfl := Std.LawfulEqCmp.eq_of_compare hus
        simp only [hus] at hhigh hlow
        have := ih hlow hhigh (List.isPrefixOf_iff_prefix.2 (List.prefix_append _ _))
        simpa [startsWith] using this

/-! ### Ascending lists and maps -/

/-- Lists in strictly ascending order with the same members are equal. -/
theorem eq_of_ascending {β : Type} (key : β → Text) {l l' : List β}
    (h : l.Pairwise fun a b => compare (key a) (key b) = .lt)
    (h' : l'.Pairwise fun a b => compare (key a) (key b) = .lt) (hmem : ∀ x, x ∈ l ↔ x ∈ l') :
    l = l' := by
  have hnodup : ∀ {l : List β}, (l.Pairwise fun a b => compare (key a) (key b) = .lt) → l.Nodup :=
    fun hl => hl.imp fun hab heq => by simp [heq, Std.ReflOrd.compare_self] at hab
  refine ((List.perm_ext_iff_of_nodup (hnodup h) (hnodup h')).2 hmem).eq_of_pairwise ?_ h h'
  intro a b _ _ hab hba
  rw [Std.OrientedCmp.gt_of_lt hab] at hba
  cases hba

variable {β : Type} (t : Std.TreeMap Text β)

theorem getElem?_insert (k : Text) (v : β) (k' : Text) :
    (t.insert k v)[k']? = if k = k' then some v else t[k']? := by
  simp only [Std.TreeMap.getElem?_insert, Std.LawfulEqCmp.compare_eq_iff_eq]

theorem getElem?_erase (k k' : Text) : (t.erase k)[k']? = if k = k' then none else t[k']? := by
  simp only [Std.TreeMap.getElem?_erase, Std.LawfulEqCmp.compare_eq_iff_eq]

variable {t}

/-- What holds of all values and of a new one holds of all that there are then. -/
theorem forall_insert {P : Text → β → Prop} (h : ∀ (k : Text) v, t[k]? = some v → P k v) {k : Text}
    {v : β} (hv : P k v) : ∀ (k' : Text) v', (t.insert k v)[k']? = some v' → P k' v' := by
  intro k' v' hv'
  rw [getElem?_insert] at hv'
  split at hv'
  · rename_i hk
    rwa [← hk, ← Option.some.inj hv']
  · exact h k' v' hv'

/-- What holds of all values holds of those that are left. -/
theorem forall_erase {P : Text → β → Prop} (h : ∀ (k : Text) v, t[k]? = some v → P k v) (k : Text) :
    ∀ (k' : Text) v, (t.erase k)[k']? = some v → P k' v := by
  intro k' v hv
  rw [getElem?_erase] at hv
  split at hv
  · cases hv
  · exact h k' v hv

/-- A new value under a key that is there changes no key. -/
theorem keys_insert_of_mem {k : Text} (h : k ∈ t) (v : β) : (t.insert k v).keys = t.keys := by
  refine eq_of_ascending (fun k => k) Std.TreeMap.ordered_keys Std.TreeMap.ordered_keys fun k' => ?_
  rw [Std.TreeMap.mem_keys, Std.TreeMap.mem_keys, Std.TreeMap.mem_insert,
    Std.LawfulEqCmp.compare_eq_iff_eq]
  exact ⟨fun h' => h'.elim (fun heq => heq ▸ h) id, .inr⟩

end Text
end Quarry
