import Mathlib.Data.List.TakeWhile
import Quarry.Json

/-! Members of objects, looked up by their names, and the order in which an object holds them. -/

namespace Quarry.Json

variable {α : Type}

@[simp] theorem member?_nil (name : Text) : member? ([] : List (Text × α)) name = none := rfl

@[simp] theorem member?_cons (m : Text × α) (ms : List (Text × α)) (name : Text) :
    member? (m :: ms) name = if m.1 = name then some m.2 else member? ms name := by
  by_cases h : m.1 = name <;> simp [member?, h]

theorem member?_append (ms more : List (Text × α)) (name : Text) :
    member? (ms ++ more) name = (member? ms name).or (member? more name) := by
  rw [member?, List.find?_append]
  cases hfound : ms.find? (·.1 == name) <;> simp [member?, hfound]

theorem isSome_member?_iff (ms : List (Text × α)) (name : Text) :
    (member? ms name).isSome = true ↔ name ∈ ms.map (·.1) := by
  rw [member?, Option.isSome_map, List.find?_isSome, List.mem_map]
  simp only [beq_iff_eq]

theorem any_eq_isSome_member? (ms : List (Text × α)) (name : Text) :
    ms.any (·.1 == name) = (member? ms name).isSome := by
  rw [Bool.eq_iff_iff, isSome_member?_iff, List.any_eq_true, List.mem_map]
  simp only [beq_iff_eq]

/-- Among members with different names each is found by its own. -/
theorem member?_eq_of_mem {ms : List (Text × α)} (h : (ms.map (·.1)).Nodup) {m : Text × α}
    (hm : m ∈ ms) :
    member? ms m.1 = some m.2 := by
  induction ms with
  | nil => cases hm
  | cons first rest ih =>
    rw [List.map_cons, List.nodup_cons] at h
    rw [member?_cons]
    rcases List.mem_cons.1 hm with rfl | hrest
    · rw [if_pos rfl]
    · have hne : first.1 ≠ m.1 := by
        intro heq
        rw [heq] at h
        exact h.1 (List.mem_map_of_mem hrest)
      rw [if_neg hne, ih h.2 hrest]

/-! ### The order of members -/

/-- Members as an object holds them: their names differ, and none comes after one that its name puts
it before. -/
def Ordered (ms : List (Text × α)) : Prop :=
  (ms.map (·.1)).Pairwise fun a b => a ≠ b ∧ nameBefore b a = false

instance (ms : List (Text × α)) : Decidable (Ordered ms) := by
  unfold Ordered
  infer_instance

theorem Ordered.filter {ms : List (Text × α)} (h : Ordered ms) (p : Text × α → Bool) :
    Ordered (ms.filter p) :=
  List.Pairwise.sublist (List.filter_sublist.map _) h

/-- Only the names of members count for their order. -/
theorem Ordered.of_names {β : Type} {ms : List (Text × α)} {ms' : List (Text × β)} (h : Ordered ms)
    (hnames : ms'.map (·.1) = ms.map (·.1)) : Ordered ms' := by
  rw [Ordered, hnames]
  exact h

/-- Members whose names are no array indices are in order as they come. -/
theorem ordered_of_indexOf?_eq_none {ms : List (Text × α)} (nodup : (ms.map (·.1)).Nodup)
    (h : ∀ m ∈ ms, indexOf? m.1 = none) : Ordered ms := by
  refine nodup.imp_of_mem fun ha hb hne => ⟨hne, ?_⟩
  obtain ⟨m, hm, rfl⟩ := List.mem_map.1 hb
  rw [nameBefore, h m hm]

theorem nameBefore_self (a : Text) : nameBefore a a = false := by
  rw [nameBefore]
  cases indexOf? a <;> simp

theorem nameBefore_of_not_before {a b c : Text} (hab : nameBefore a b = true)
    (hcb : nameBefore c b = false) : nameBefore c a = false := by
  rw [nameBefore] at *
  generalize indexOf? a = i at *
  generalize indexOf? b = j at *
  generalize indexOf? c = k at *
  cases i <;> cases j <;> cases k <;> simp_all
  omega

theorem map_fst_setMember_of_mem {ms : List (Text × α)} {name : Text} (h : name ∈ ms.map (·.1))
    (value : α) : (setMember ms name value).map (·.1) = ms.map (·.1) := by
  rw [setMember, any_eq_isSome_member?, (isSome_member?_iff ms name).2 h, if_pos rfl, List.map_map]
  refine List.map_congr_left fun m _ => ?_
  by_cases hm : m.1 = name <;> simp [hm]

theorem setMember_of_not_mem {ms : List (Text × α)} {name : Text} (h : name ∉ ms.map (·.1))
    (value : α) : setMember ms name value = ms.takeWhile (fun m => !nameBefore name m.1) ++
      (name, value) :: ms.dropWhile fun m => !nameBefore name m.1 := by
  rw [setMember, any_eq_isSome_member?, if_neg]
  rwa [isSome_member?_iff]

theorem Ordered.setMember {ms : List (Text × α)} (h : Ordered ms) (name : Text) (value : α) :
    Ordered (setMember ms name value) := by
  by_cases hmem : name ∈ ms.map (·.1)
  · exact h.of_names (map_fst_setMember_of_mem hmem value)
  rw [setMember_of_not_mem hmem]
  have hbefore : ∀ m ∈ ms.takeWhile fun m => !nameBefore name m.1, nameBefore name m.1 = false := by
    intro m hm
    simpa using List.mem_takeWhile_imp hm
  have hafter : ∀ m ∈ ms.dropWhile fun m => !nameBefore name m.1, nameBefore m.1 name = false := by
    have hdropped := h.sublist ((List.dropWhile_sublist fun m => !nameBefore name m.1).map _)
    have hhead := List.head?_dropWhile_not (fun m => !nameBefore name m.1) ms
    cases hrest : ms.dropWhile fun m => !nameBefore name m.1 with
    | nil => simp
    | cons first rest =>
      rw [hrest] at hdropped hhead
      have hfirst : nameBefore name first.1 = true := by simpa using hhead
      obtain ⟨habove, -⟩ := List.pairwise_cons.1 hdropped
      refine List.forall_mem_cons.2
        ⟨nameBefore_of_not_before hfirst (nameBefore_self _), fun m hm => ?_⟩
      exact nameBefore_of_not_before hfirst (habove m.1 (List.mem_map_of_mem hm)).2
  rw [← List.takeWhile_append_dropWhile (p := fun m => !nameBefore name m.1) (l := ms)] at h hmem
  simp only [Ordered, List.map_append, List.map_cons, List.pairwise_append, List.pairwise_cons,
    List.mem_append, List.mem_map, List.mem_cons] at h hmem ⊢
  grind

/-- Members put in order one after the other are in order. -/
theorem ordered_ofMembers (ms : List (Text × α)) : Ordered (ofMembers ms) :=
  List.foldlRecOn ms _ (b := []) .nil fun _ h m _ => h.setMember m.1 m.2

/-- Members in order keep their places. -/
theorem ofMembers_eq_self {ms : List (Text × α)} (h : Ordered ms) : ofMembers ms = ms := by
  have step : ∀ (ms done : List (Text × α)), Ordered (done ++ ms) →
      ms.foldl (fun ms m => Json.setMember ms m.1 m.2) done = done ++ ms := by
    intro ms
    induction ms with
    | nil => simp
    | cons m ms ih =>
      intro done hdone
      have hlast : ∀ m' ∈ done, m'.1 ≠ m.1 ∧ nameBefore m.1 m'.1 = false := by
        rw [Ordered, List.map_append, List.pairwise_append] at hdone
        exact fun m' hm' => hdone.2.2 m'.1 (List.mem_map_of_mem hm') m.1 (by simp)
      have hfresh : m.1 ∉ done.map (·.1) := by
        intro hmem
        obtain ⟨m', hm', heq⟩ := List.mem_map.1 hmem
        exact (hlast m' hm').1 heq
      have hset : Json.setMember done m.1 m.2 = done ++ [m] := by
        rw [setMember_of_not_mem hfresh, List.takeWhile_eq_self_iff.2, List.dropWhile_eq_nil_iff.2]
        all_goals simpa using fun a b hm' => (hlast (a, b) hm').2
      rw [List.foldl_cons, hset, ih _ (by simpa using hdone), List.append_assoc,
        List.singleton_append]
  exact step ms [] h

/-- Putting members with different names in order loses none. -/
theorem ofMembers_perm {ms : List (Text × α)} (h : (ms.map (·.1)).Nodup) :
    (ofMembers ms).Perm ms := by
  have step : ∀ (ms done : List (Text × α)), ((done ++ ms).map (·.1)).Nodup →
      (ms.foldl (fun ms m => Json.setMember ms m.1 m.2) done).Perm (done ++ ms) := by
    intro ms
    induction ms with
    | nil => simp
    | cons m ms ih =>
      intro done hdone
      have hset : (Json.setMember done m.1 m.2).Perm (done ++ [m]) := by
        rw [setMember_of_not_mem (by grind)]
        refine List.perm_middle.trans ?_
        rw [List.takeWhile_append_dropWhile]
        exact (List.perm_append_singleton m done).symm
      have hperm : (Json.setMember done m.1 m.2 ++ ms).Perm (done ++ m :: ms) := by
        simpa using hset.append_right ms
      exact (ih _ ((hperm.map _).nodup_iff.2 hdone)).trans hperm
  exact step ms [] h

theorem setMember_map {β : Type} (f : α → β) (ms : List (Text × α)) (name : Text) (value : α) :
    setMember (ms.map fun m => (m.1, f m.2)) name (f value) =
      (setMember ms name value).map fun m => (m.1, f m.2) := by
  simp only [setMember, List.any_map, Function.comp_def, List.takeWhile_map, List.dropWhile_map]
  split
  · simp only [List.map_map]
    refine List.map_congr_left fun m _ => ?_
    by_cases hm : m.1 = name <;> simp [hm]
  · simp

/-- The order of members does not depend on their values. -/
theorem ofMembers_map {β : Type} (f : α → β) (ms : List (Text × α)) :
    ofMembers (ms.map fun m => (m.1, f m.2)) = (ofMembers ms).map fun m => (m.1, f m.2) := by
  have step : ∀ (ms done : List (Text × α)), (ms.map fun m => (m.1, f m.2)).foldl
      (fun ms m => Json.setMember ms m.1 m.2) (done.map fun m => (m.1, f m.2)) =
        (ms.foldl (fun ms m => Json.setMember ms m.1 m.2) done).map fun m => (m.1, f m.2) := by
    intro ms
    induction ms with
    | nil => simp
    | cons m ms ih =>
      intro done
      rw [List.map_cons, List.foldl_cons, setMember_map, ih, List.foldl_cons]
  exact step ms []

end Quarry.Json
