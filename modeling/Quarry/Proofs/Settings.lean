import Quarry.Proofs.Json.Schema
import Quarry.Proofs.Number.Amounts
import Quarry.Settings

/-! Settings that are changed. Weights that are read are amounts, put in proportion by their sum,
and so none of them is infinite. -/

namespace Quarry

namespace Schema

/-- A number that passes as an amount is one. -/
theorem isAmount_of_amount {path : List Text} {j : Json} {n : Number} (h : amount path j = .ok n) :
    Binary.IsAmount n.toFloat.toModel.unpack := by
  obtain ⟨-, hfinite, hsign⟩ := amount_eq_ok_iff.1 h
  cases n with
  | whole k => exact Binary.isAmount_ofNat k
  | real x => exact Binary.isAmount_of_le hfinite (of_decide_eq_true hsign)

end Schema

namespace Settings

/-- No weight is infinite. -/
def Bounded (s : Settings) : Prop :=
  ∀ source, (Binary.ofFloat (s.weights.get source)).magnitude ≠ .infinite

/-! ### Values for the sources -/

section

variable {α : Type}

/-- Parts for the sources are put together when each of them passes. -/
theorem sources_eq_ok_iff {f : Source → Checked α} {xs : PerSource α} :
    (((Checked.apply (.ok PerSource.mk) (f .bm25)).apply (f .semantic)).apply (f .fuzzy)) = .ok xs ↔
      ∀ source, f source = .ok (xs.get source) := by
  constructor
  · intro h
    obtain ⟨_, fuzzy, hpair, hfuzzy, rfl⟩ := Schema.apply_eq_ok h
    obtain ⟨_, semantic, hfirst, hsemantic, rfl⟩ := Schema.apply_eq_ok hpair
    obtain ⟨_, bm25, hmk, hbm25, rfl⟩ := Schema.apply_eq_ok hfirst
    cases hmk
    intro source
    cases source with
    | bm25 => exact hbm25
    | semantic => exact hsemantic
    | fuzzy => exact hfuzzy
  · intro h
    rw [h, h, h]
    rfl

/-- Values are read for the sources when each of them is a member that passes the check. -/
theorem perSource_eq_ok_iff {check : Schema.Check α} {path : List Text} {j : Json}
    {xs : PerSource α} :
    perSource check path j = .ok xs ↔
      ∃ ms, j = .object ms ∧ ∀ source, Schema.member ms source.name check path =
        .ok (xs.get source) := by
  rw [perSource, bind_eq_ok_iff]
  refine exists_congr fun ms => and_congr Schema.members_eq_ok_iff ?_
  exact sources_eq_ok_iff (f := fun source => Schema.member ms source.name check path)

theorem perSource_object_eq_ok_iff {check : Schema.Check α} {path : List Text}
    {values : Source → Json} {xs : PerSource α} :
    perSource check path (.object (Source.all.map fun source => (source.name, values source))) =
      .ok xs ↔ ∀ source, check (path ++ [source.name]) (values source) = .ok (xs.get source) := by
  have hvalue : ∀ source : Source,
      Json.member? (Source.all.map fun source => (source.name, values source)) source.name =
        some (values source) := by
    intro source
    cases source <;> rfl
  rw [perSource_eq_ok_iff]
  simp only [Json.object.injEq, exists_eq_left', Schema.member, hvalue, Option.getD_some]

end

/-! ### Weights -/

/-- What weights add up to. -/
def total (w : PerSource Float) : Float := w.bm25 + w.semantic + w.fuzzy

theorem proportion_eq_ok {w w' : PerSource Float} (h : proportion w = .ok w') :
    ¬total w ≤ 0 ∧ w' = w.map (· / total w) := by
  rw [proportion] at h
  split at h
  · cases h
  · rename_i hpositive
    cases h
    exact ⟨hpositive, rfl⟩

section

variable {w w' : PerSource Float}
    (amounts : ∀ source, Binary.IsAmount (w.get source).toModel.unpack)
include amounts

theorem isAmount_total : Binary.IsAmount (total w).toModel.unpack :=
  (Binary.isAmount_add (Binary.isAmount_add (amounts .bm25) (amounts .semantic)).1
    (amounts .fuzzy)).1

/-- No weight reaches farther than all of them together. -/
theorem within_total (source : Source) :
    Binary.Within (w.get source).toModel.unpack (total w).toModel.unpack := by
  obtain ⟨hfirst, hbm25, hsemantic⟩ := Binary.isAmount_add (amounts .bm25) (amounts .semantic)
  obtain ⟨-, hrest, hfuzzy⟩ := Binary.isAmount_add hfirst (amounts .fuzzy)
  cases source with
  | bm25 => exact hbm25.trans hrest
  | semantic => exact hsemantic.trans hrest
  | fuzzy => exact hfuzzy

theorem isAmount_share (hpositive : ¬total w ≤ 0) (source : Source) :
    (w.get source / total w).toModel.unpack = .notANumber ∧
      ¬Binary.IsFinite (w.get source).toModel.unpack ∨
      Binary.IsAmount (w.get source / total w).toModel.unpack ∧
        Binary.IsFinite (w.get source / total w).toModel.unpack :=
  Binary.isAmount_div (amounts source) (isAmount_total amounts) (within_total amounts source)
    (Binary.not_isZero_of_not_le hpositive)

/-- Amounts in proportion are not infinite. -/
theorem magnitude_of_proportion (h : proportion w = .ok w') (source : Source) :
    (Binary.ofFloat (w'.get source)).magnitude ≠ .infinite := by
  obtain ⟨hpositive, rfl⟩ := proportion_eq_ok h
  rw [PerSource.get_map, Binary.ofFloat_eq]
  rcases isAmount_share amounts hpositive source with ⟨hnan, -⟩ | ⟨-, hfinite⟩
  · rw [hnan]
    exact nofun
  · cases hshare : (w.get source / total w).toModel.unpack <;> rw [hshare] at hfinite
    case notANumber | infinity => exact absurd hfinite id
    all_goals exact nofun

end

/-- Weights that are read are amounts in proportion. -/
theorem readWeights_eq_ok_iff {j : Json} {w : PerSource Float} : readWeights j = .ok w ↔
    ∃ given, perSource Schema.amount [] j = .ok given ∧
      proportion (given.map Number.toFloat) = .ok w := by
  rw [readWeights]
  cases hread : perSource Schema.amount [] j with
  | error issues => simp
  | ok given => simp

theorem isAmount_of_perSource {j : Json} {given : PerSource Number}
    (h : perSource Schema.amount [] j = .ok given) (source : Source) :
    Binary.IsAmount ((given.map Number.toFloat).get source).toModel.unpack := by
  obtain ⟨ms, -, hmembers⟩ := perSource_eq_ok_iff.1 h
  rw [PerSource.get_map]
  exact Schema.isAmount_of_amount (hmembers source)

theorem bounded_of_readWeights {j : Json} {w : PerSource Float} (h : readWeights j = .ok w)
    (source : Source) : (Binary.ofFloat (w.get source)).magnitude ≠ .infinite := by
  obtain ⟨given, hgiven, hw⟩ := readWeights_eq_ok_iff.1 h
  exact magnitude_of_proportion (isAmount_of_perSource hgiven) hw source

/-! ### Methods -/

theorem any_sources_iff {p : Source → Bool} :
    Source.all.any p = true ↔ ∃ source, p source = true := by
  rw [List.any_eq_true]
  exact ⟨fun ⟨source, _, h⟩ => ⟨source, h⟩, fun ⟨source, h⟩ => ⟨source, Source.mem_all source, h⟩⟩

/-- Methods that are read are given for each source, and one takes part. -/
theorem readMethods_eq_ok_iff {j : Json} {enabled : PerSource Bool} : readMethods j = .ok enabled ↔
    perSource Schema.bool [] j = .ok enabled ∧ ∃ source, enabled.get source = true := by
  rw [readMethods, ← any_sources_iff]
  cases hread : perSource Schema.bool [] j with
  | error issues => simp
  | ok methods =>
    simp only [Except.ok.injEq]
    split
    · rename_i hany
      exact ⟨fun h => ⟨Except.ok.inj h, Except.ok.inj h ▸ hany⟩, fun h => congrArg _ h.1⟩
    · rename_i hnone
      exact ⟨fun h => (nomatch h), fun h => absurd (h.1 ▸ h.2) hnone⟩

/-! ### Changes -/

variable {s s' : Settings} {j : Json}

theorem withWeights_eq_ok (h : s.withWeights j = .ok s') :
    ∃ w, readWeights j = .ok w ∧ s' = { s with weights := w } := by
  obtain ⟨w, hread, heq⟩ := bind_eq_ok_iff.1 h
  exact ⟨w, hread, (Except.ok.inj heq).symm⟩

theorem withMethods_eq_ok (h : s.withMethods j = .ok s') :
    ∃ methods, readMethods j = .ok methods ∧ s' = { s with enabled := methods } := by
  obtain ⟨methods, hread, heq⟩ := bind_eq_ok_iff.1 h
  exact ⟨methods, hread, (Except.ok.inj heq).symm⟩

end Settings

end Quarry
