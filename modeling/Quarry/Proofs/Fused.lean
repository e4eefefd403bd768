import Mathlib.Data.List.Nodup
import Quarry.Fusion
import Quarry.Proofs.Ranking.RankOrder

/-! Which documents a fused list names: those of the rankings, each once. A single ranking without
repetitions is fused in its own order. -/

namespace Quarry.Fusion

variable {α : Type}

/-- The documents of fused entries. -/
def ids (entries : List (Fused α)) : List DocId := entries.map (·.docId)

@[simp] theorem ids_cons (e : Fused α) (rest : List (Fused α)) :
    ids (e :: rest) = e.docId :: ids rest := rfl

variable [Scalar α]

theorem ids_contribute (entries : List (Fused α)) (source : Source) (id : DocId) (amount : α) :
    ids (contribute entries source id amount) =
      if id ∈ ids entries then ids entries else ids entries ++ [id] := by
  induction entries with
  | nil => rfl
  | cons e rest ih =>
    rw [contribute]
    by_cases heq : e.docId = id
    · simp [heq]
    · rw [if_neg heq, ids_cons, ih, ids_cons]
      simp only [List.mem_cons, Ne.symm heq, false_or]
      split <;> rfl

theorem nodup_contribute {entries : List (Fused α)} (h : (ids entries).Nodup) (source : Source)
    (id : DocId) (amount : α) : (ids (contribute entries source id amount)).Nodup := by
  rw [ids_contribute]
  split
  · exact h
  · rename_i hnew
    exact List.concat_eq_append ▸ h.concat hnew

theorem mem_ids_contribute {entries : List (Fused α)} {source : Source} {id id' : DocId}
    {amount : α} :
    id' ∈ ids (contribute entries source id amount) ↔ id' ∈ ids entries ∨ id' = id := by
  rw [ids_contribute]
  split
  · exact ⟨.inl, fun h => h.elim (fun hold => hold) fun heq => heq ▸ ‹_›⟩
  · rw [List.mem_append, List.mem_singleton]

/-- Adding a ranking names its documents besides those that were there. -/
theorem ids_contributeAll (weight k : α) (source : Source) (ranking : List (DocId × α))
    {entries : List (Fused α)} (h : (ids entries).Nodup) :
    (ids (contributeAll weight k source ranking entries)).Nodup ∧
      ∀ id, id ∈ ids (contributeAll weight k source ranking entries) ↔
        id ∈ ids entries ∨ id ∈ ranking.map (·.1) := by
  induction ranking generalizing entries with
  | nil => exact ⟨h, fun id => by simp [contributeAll]⟩
  | cons entry rest ih =>
    obtain ⟨hnodup, hmem⟩ := ih (nodup_contribute h source entry.1 (weight / (k + entry.2)))
    refine ⟨hnodup, fun id => (hmem id).trans ?_⟩
    rw [mem_ids_contribute, List.map_cons, List.mem_cons, or_assoc]

/-- The sums name the documents of all rankings, each once. -/
theorem ids_sums (weights : PerSource α) (k : α) (rankings : PerSource (List (DocId × α))) :
    (ids (sums weights k rankings)).Nodup ∧
      ∀ id, id ∈ ids (sums weights k rankings) ↔ ∃ s, id ∈ (rankings.get s).map (·.1) := by
  have hnone : (ids ([] : List (Fused α))).Nodup := List.nodup_nil
  obtain ⟨hfirst, hmemFirst⟩ :=
    ids_contributeAll (weights.get .bm25) k .bm25 (rankings.get .bm25) hnone
  obtain ⟨hsecond, hmemSecond⟩ := ids_contributeAll (weights.get .semantic) k .semantic
    (rankings.get .semantic) hfirst
  obtain ⟨hthird, hmemThird⟩ :=
    ids_contributeAll (weights.get .fuzzy) k .fuzzy (rankings.get .fuzzy) hsecond
  refine ⟨hthird, fun id => ?_⟩
  rw [sums, Source.all, List.foldl_cons, List.foldl_cons, List.foldl_cons,
    List.foldl_nil, hmemThird, hmemSecond, hmemFirst]
  constructor
  · rintro (((hnone | hid) | hid) | hid)
    · exact absurd hnone List.not_mem_nil
    · exact ⟨_, hid⟩
    · exact ⟨_, hid⟩
    · exact ⟨_, hid⟩
  · rintro ⟨s, hid⟩
    cases s with
    | bm25 => exact .inl (.inl (.inr hid))
    | semantic => exact .inl (.inr hid)
    | fuzzy => exact .inr hid

theorem ids_fuse (weights : PerSource α) (k : α) (rankings : PerSource (List (DocId × α))) :
    (ids (fuse weights k rankings)).Nodup ∧
      ∀ id, id ∈ ids (fuse weights k rankings) ↔ ∃ s, id ∈ (rankings.get s).map (·.1) := by
  have hperm : (ids (fuse weights k rankings)).Perm (ids (sums weights k rankings)) :=
    (rankSort_perm _ _).map _
  obtain ⟨hnodup, hmem⟩ := ids_sums weights k rankings
  exact ⟨hperm.nodup_iff.2 hnodup, fun id => hperm.mem_iff.trans (hmem id)⟩

/-! ### A single ranking -/

@[simp] theorem contributeAll_nil (weight k : α) (source : Source) (entries : List (Fused α)) :
    contributeAll weight k source [] entries = entries := rfl

theorem contribute_of_not_mem {entries : List (Fused α)} {source : Source} {id : DocId} {amount : α}
    (h : id ∉ ids entries) :
    contribute entries source id amount = entries ++ [⟨id, Scalar.zero + amount, [source]⟩] := by
  induction entries with
  | nil => rfl
  | cons e rest ih =>
    obtain ⟨hne, hrest⟩ := not_or.1 (List.mem_cons.not.1 h)
    rw [contribute, if_neg (Ne.symm hne), ih hrest, List.cons_append]

/-- A ranking of documents that are not there yet is added in its order. -/
theorem contributeAll_of_nodup (weight k : α) (source : Source) {ranking : List (DocId × α)}
    {entries : List (Fused α)} (h : (ids entries ++ ranking.map (·.1)).Nodup) :
    contributeAll weight k source ranking entries =
      entries ++ ranking.map fun x => ⟨x.1, Scalar.zero + weight / (k + x.2), [source]⟩ := by
  induction ranking generalizing entries with
  | nil => exact (List.append_nil _).symm
  | cons entry rest ih =>
    obtain ⟨id, rank⟩ := entry
    rw [List.map_cons] at h
    have hnew : id ∉ ids entries := fun hmem =>
      (List.nodup_cons.1 (List.nodup_middle.1 h)).1 (List.mem_append_left _ hmem)
    rw [contributeAll, List.foldl_cons]
    simp only [contribute_of_not_mem hnew]
    refine (ih ?_).trans (List.append_assoc _ _ _)
    rw [ids, List.map_append, List.append_assoc]
    exact h

end Quarry.Fusion
