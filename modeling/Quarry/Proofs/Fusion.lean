import Quarry.Fusion
import Quarry.Proofs.Number.Arithmetic

/-! Fusion by weights that differ in the sign of zero. Such weights contribute the same, since no
sum of contributions is the negative zero. -/

namespace Quarry.Fusion

open Binary (IsZero IsNegativeZero)

/-- Two amounts that are the same, but for the sign of zero. -/
def Same (a a' : Float) : Prop := a = a' ∨ IsZero a ∧ IsZero a'

theorem Same.add_eq {x a a' : Float} (same : Same a a') (hx : ¬IsNegativeZero x) :
    x + a = x + a' := by
  rcases same with rfl | ⟨ha, ha'⟩
  · rfl
  · exact Binary.add_zero_eq hx ha ha'

theorem Same.div {a a' : Float} (same : Same a a') (y : Float) : Same (a / y) (a' / y) := by
  rcases same with rfl | ⟨ha, ha'⟩
  · exact .inl rfl
  · exact Binary.zero_div_eq ha ha' y

/-- No score is the negative zero. -/
def Signless (entries : List (Fused Float)) : Prop := ∀ e ∈ entries, ¬IsNegativeZero e.score

theorem contribute_congr {entries : List (Fused Float)} (signless : Signless entries)
    (source : Source) (id : DocId) {a a' : Float} (same : Same a a') :
    contribute entries source id a = contribute entries source id a' ∧
      Signless (contribute entries source id a) := by
  induction entries with
  | nil =>
    have hzero : ¬IsNegativeZero (Scalar.zero : Float) := by
      rw [IsNegativeZero]
      change ¬Float.Model.UnpackedFloat.zero .positive = _
      simp
    rw [contribute, contribute, same.add_eq hzero]
    exact ⟨rfl, List.forall_mem_singleton.2 (Binary.not_isNegativeZero_add hzero a')⟩
  | cons e rest ih =>
    obtain ⟨he, hrest⟩ := List.forall_mem_cons.1 signless
    rw [contribute, contribute]
    split
    · rw [same.add_eq he]
      exact ⟨rfl, List.forall_mem_cons.2 ⟨Binary.not_isNegativeZero_add he a', hrest⟩⟩
    · obtain ⟨hequal, hsignless⟩ := ih hrest
      rw [← hequal]
      exact ⟨rfl, List.forall_mem_cons.2 ⟨he, hsignless⟩⟩

/-- Two lists of sums that are the same and have no negative zero. -/
def Alike (entries entries' : List (Fused Float)) : Prop := entries = entries' ∧ Signless entries

theorem contributeAll_congr {w w' : Float} (same : Same w w') (k : Float) (source : Source)
    (ranking : List (DocId × Float)) {entries entries' : List (Fused Float)}
    (alike : Alike entries entries') :
    Alike (contributeAll w k source ranking entries)
      (contributeAll w' k source ranking entries') := by
  refine List.foldl_rel alike fun entry _ es es' hes => ?_
  obtain ⟨rfl, hsignless⟩ := hes
  exact contribute_congr hsignless source entry.1 (same.div (k + entry.2))

/-- Weights that are the same but for the signs of zeros fuse rankings alike. -/
theorem fuse_congr {weights weights' : PerSource Float}
    (same : ∀ source, Same (weights.get source) (weights'.get source)) (k : Float)
    (rankings : PerSource (List (DocId × Float))) :
    fuse weights k rankings = fuse weights' k rankings := by
  have hempty : Alike [] [] := ⟨rfl, fun _ he => absurd he List.not_mem_nil⟩
  have hsums : Alike (sums weights k rankings) (sums weights' k rankings) :=
    List.foldl_rel hempty fun s _ _ _ hes => contributeAll_congr (same s) k s (rankings.get s) hes
  rw [fuse, hsums.1, fuse]

end Quarry.Fusion
