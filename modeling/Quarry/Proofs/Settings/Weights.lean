import Quarry.Proofs.Settings.Resolving

/-! Weights that are taken up and read again. As long as their sum is finite, a weight that none of
the others reaches beyond keeps a share that is not zero, and so the shares are weights that are
taken up. -/

namespace Quarry.Settings

section

variable {w w' : PerSource Float}
    (amounts : ∀ source, Binary.IsAmount (w.get source).toModel.unpack)
include amounts

/-! ### Weights that reach farthest -/

theorem exists_farthest :
    ∃ source, ∀ other, Binary.Within (w.get other).toModel.unpack
      (w.get source).toModel.unpack := by
  have hself := fun source => (amounts source).within_self
  have hpair : ∃ source, Binary.Within w.bm25.toModel.unpack (w.get source).toModel.unpack ∧
      Binary.Within w.semantic.toModel.unpack (w.get source).toModel.unpack := by
    rcases (amounts .bm25).within_or (amounts .semantic) with h | h
    · exact ⟨.semantic, h, hself .semantic⟩
    · exact ⟨.bm25, hself .bm25, h⟩
  obtain ⟨first, hbm25, hsemantic⟩ := hpair
  rcases (amounts first).within_or (amounts .fuzzy) with h | h
  · refine ⟨.fuzzy, fun other => ?_⟩
    cases other with
    | bm25 => exact hbm25.trans h
    | semantic => exact hsemantic.trans h
    | fuzzy => exact hself .fuzzy
  · refine ⟨first, fun other => ?_⟩
    cases other with
    | bm25 => exact hbm25
    | semantic => exact hsemantic
    | fuzzy => exact h

theorem isFinite_of_total (finite : Binary.IsFinite (total w).toModel.unpack) (source : Source) :
    Binary.IsFinite (w.get source).toModel.unpack :=
  (within_total amounts source).isFinite finite

/-- Weights add up to little more than the one that reaches farthest. -/
theorem atMost_total {r : ℤ} (atMost : ∀ source, Binary.AtMost r (w.get source).toModel.unpack)
    (finite : Binary.IsFinite (total w).toModel.unpack) :
    Binary.AtMost (r + 4) (total w).toModel.unpack := by
  have hfirst := (Binary.isAmount_add (amounts .bm25) (amounts .semantic)).1
  have hwithin := (Binary.isAmount_add hfirst (amounts .fuzzy)).2.1
  have hpair :=
    Binary.atMost_add (amounts .bm25) (amounts .semantic) (atMost .bm25) (atMost .semantic)
      (hwithin.isFinite finite)
  exact (Binary.atMost_add hfirst (amounts .fuzzy) hpair ((atMost .fuzzy).mono (by omega))
    finite).mono (by omega)

/-- Weights are put in proportion if one of them is not zero. -/
theorem exists_proportion_iff :
    (∃ w', proportion w = .ok w') ↔ ∃ source, ¬Binary.IsZero (w.get source) := by
  have hpositive : ¬total w ≤ 0 ↔ ∃ source, ¬Binary.IsZero (w.get source) := by
    constructor
    · intro h
      by_contra hzero
      have hall : ∀ source, Binary.IsZero (w.get source) :=
        fun source => not_not.1 fun h => hzero ⟨source, h⟩
      exact Binary.not_isZero_of_not_le h
        (Binary.isZero_add (Binary.isZero_add (hall .bm25) (hall .semantic)) (hall .fuzzy))
    · rintro ⟨source, hsource⟩
      exact Binary.not_le_of_isAmount (isAmount_total amounts) fun hzero =>
        hsource ((within_total amounts source).isZero hzero)
  rw [← hpositive]
  constructor
  · rintro ⟨w', hw'⟩
    exact (proportion_eq_ok hw').1
  · intro h
    exact ⟨_, if_neg h⟩

/-- The share of a weight that none reaches beyond is not zero if the sum is finite. -/
theorem not_isZero_share (h : proportion w = .ok w')
    (finite : Binary.IsFinite (total w).toModel.unpack) {source : Source}
    (farthest : ∀ other, Binary.Within (w.get other).toModel.unpack (w.get source).toModel.unpack) :
    ¬Binary.IsZero (w'.get source) := by
  obtain ⟨other, hother⟩ := (exists_proportion_iff amounts).1 ⟨w', h⟩
  obtain ⟨hpositive, rfl⟩ := proportion_eq_ok h
  rw [PerSource.get_map]
  have hsource := amounts source
  have hsourceFinite := isFinite_of_total amounts finite source
  cases hx : (w.get source).toModel.unpack with
  | notANumber | infinity s =>
    rw [hx] at hsourceFinite
    exact absurd hsourceFinite id
  | zero s => exact absurd ((farthest other).isZero ⟨s, hx⟩) hother
  | finite s m e hm =>
    rw [hx] at hsource farthest
    obtain rfl : s = .positive := hsource
    have htotal := isAmount_total amounts
    have hatMost := atMost_total amounts (fun other => (farthest other).atMost) finite
    cases hy : (total w).toModel.unpack with
    | notANumber | infinity s =>
      rw [hy] at hatMost
      exact absurd hatMost id
    | zero s => exact absurd ⟨s, hy⟩ (Binary.not_isZero_of_not_le hpositive)
    | finite s m' e' hm' =>
      rw [hy] at htotal hatMost
      obtain rfl : s = .positive := htotal
      change (m'.log2 : ℤ) + e' ≤ m.log2 + e + 4 at hatMost
      exact Binary.not_isZero_div hx hy (by omega)

theorem pos_share (h : proportion w = .ok w') (finite : Binary.IsFinite (total w).toModel.unpack)
    {source : Source}
    (farthest : ∀ other, Binary.Within (w.get other).toModel.unpack (w.get source).toModel.unpack) :
    0 < w'.get source := by
  have hne := not_isZero_share amounts h finite farthest
  obtain ⟨hpositive, rfl⟩ := proportion_eq_ok h
  rw [PerSource.get_map] at hne ⊢
  rcases isAmount_share amounts hpositive source with ⟨-, hinfinite⟩ | ⟨hamount, -⟩
  · exact absurd (isFinite_of_total amounts finite source) hinfinite
  · exact Binary.pos_of_isAmount hamount hne

end

/-! ### Weights that are read again -/

/-- Weights that settings have are read as the doubles that they are. -/
theorem readWeights_weightsJson_iff {w w' : PerSource Float} :
    readWeights (.object (weightsJson w)) = .ok w' ↔
    (∀ source, Kind.amount.Meets (.number (.ofFloat (w.get source)))) ∧
      proportion (w.map fun x => (Number.ofFloat x).toFloat) = .ok w' := by
  rw [readWeights_eq_ok_iff]
  constructor
  · rintro ⟨given, hgiven, hw'⟩
    have hvalue := perSource_object_eq_ok_iff.1 hgiven
    obtain rfl : given = w.map Number.ofFloat := PerSource.eq_of_get fun source => by
      rw [PerSource.get_map]
      exact (Json.number.inj (Schema.amount_eq_ok_iff.1 (hvalue source)).1).symm
    refine ⟨fun source => ?_, hw'⟩
    have hmeets := (Schema.amount_eq_ok_iff.1 (hvalue source)).2
    rwa [PerSource.get_map] at hmeets
  · rintro ⟨hmeets, hw'⟩
    refine ⟨w.map Number.ofFloat, perSource_object_eq_ok_iff.2 fun source => ?_, hw'⟩
    rw [PerSource.get_map]
    exact Schema.amount_eq_ok_iff.2 ⟨rfl, hmeets source⟩

/-- Weights in proportion are taken up again exactly if the sum that they are shares of
is finite. -/
theorem readWeights_again_iff {given : PerSource Number} {w : PerSource Float}
    (meets : ∀ source, Kind.amount.Meets (.number (given.get source)))
    (doubles : ∀ source, (given.get source).IsDouble)
    (h : proportion (given.map Number.toFloat) = .ok w) :
    (∃ w', readWeights (.object (weightsJson w)) = .ok w') ↔
      Binary.IsFinite (total (given.map Number.toFloat)).toModel.unpack := by
  have hamounts := isAmount_of_meets meets
  have hmeets := meets_proportion meets doubles h
  have hshares : ∀ source,
      Binary.IsAmount ((w.map fun x => (Number.ofFloat x).toFloat).get source).toModel.unpack :=
    fun source => PerSource.get_map _ w source ▸ (hmeets source).isAmount
  have hread : (∃ w', readWeights (.object (weightsJson w)) = .ok w') ↔
      ∃ source, ¬Binary.IsZero (w.get source) := by
    simp only [readWeights_weightsJson_iff, hmeets, implies_true, true_and,
      exists_proportion_iff hshares, PerSource.get_map, isZero_toFloat_ofFloat_iff]
  rw [hread]
  constructor
  · rintro ⟨source, hsource⟩
    have htotal := isAmount_total hamounts
    cases hinfinite : (total (given.map Number.toFloat)).toModel.unpack with
    | zero s | finite s m e hm => exact trivial
    | notANumber =>
      rw [hinfinite] at htotal
      exact absurd htotal id
    | infinity s =>
      obtain ⟨-, rfl⟩ := proportion_eq_ok h
      refine absurd ?_ hsource
      rw [PerSource.get_map, PerSource.get_map]
      exact Binary.isZero_div ((doubles source).isFinite_toFloat (meets source).1) hinfinite
  · intro finite
    obtain ⟨source, hfarthest⟩ := exists_farthest hamounts
    exact ⟨source, not_isZero_share hamounts h finite hfarthest⟩

/-- What can be laid over settings, and names no weights, can be laid over them with any weights
that are taken up. -/
theorem resolve_of_weights {s r : Settings} {weights w w' : PerSource Float} {input : Json}
    (unnamed : ∀ source, input.named? (Place.weight source).path = none)
    (h : resolve input { s with weights } = .ok r)
    (read : readWeights (.object (weightsJson w)) = .ok w') :
    ∃ r', resolve input { s with weights := w } = .ok r' := by
  obtain ⟨ms, d, hj, hd, hsettle⟩ := resolve_eq_ok_iff.1 h
  have hd' : Drafted { s with weights := w }.toDraft ms
    { d with weights := w.map fun x => some (.ofFloat x) } :=
    { hd with
      weights := sourceGroup_unnamed hd.weights fun source =>
        (named?_of_orEmpty hj (.weight source)).trans (unnamed source) }
  obtain ⟨_, -, hmethods⟩ := bind_eq_ok_iff.1 hsettle
  obtain ⟨enabled, hmethods, -⟩ := bind_eq_ok_iff.1 hmethods
  have hsettle' : Draft.settle { d with weights := w.map fun x => some (.ofFloat x) } =
      .ok (d.settled w' enabled) :=
    bind_eq_ok_iff.2 ⟨w', read, bind_eq_ok_iff.2 ⟨enabled, hmethods, rfl⟩⟩
  exact ⟨_, resolve_eq_ok_iff.2 ⟨ms, _, hj, hd', hsettle'⟩⟩

/-- Weights that are taken up are shares of a sum. If it is finite, the shares are taken up again,
one is above zero, and so is that of each weight that no other is above; and the settings can be
resolved by all that the settings before could be resolved by with some weights. -/
theorem withWeights_usable {s s' : Settings} {j : Json} {given : PerSource Number}
    (read : perSource Schema.amount [] j = .ok given)
    (doubles : ∀ source, (given.get source).IsDouble) (accepted : s.withWeights j = .ok s')
    (bounded : (Number.real (total (given.map Number.toFloat))).isFinite = true) :
    (∃ w, readWeights (.object (weightsJson s'.weights)) = .ok w) ∧
      (∃ source, 0 < s'.weights.get source) ∧
      (∀ source, (∀ other, (given.get other).toFloat ≤ (given.get source).toFloat) →
        0 < s'.weights.get source) ∧
      ∀ input, (∀ source, input.named? (Place.weight source).path = none) →
        (∃ weights r, resolve input { s with weights } = .ok r) →
          ∃ r, resolve input s' = .ok r := by
  obtain ⟨w, hw, rfl⟩ := withWeights_eq_ok accepted
  obtain ⟨given', hgiven', hproportion⟩ := readWeights_eq_ok_iff.1 hw
  obtain rfl := Except.ok.inj (read.symm.trans hgiven')
  obtain ⟨ms, -, hmembers⟩ := perSource_eq_ok_iff.1 read
  have hmeets : ∀ source, Kind.amount.Meets (.number (given.get source)) :=
    fun source => (Schema.amount_eq_ok_iff.1 (hmembers source)).2
  have hamounts := isAmount_of_meets hmeets
  have hfinite := Binary.isFinite_real_iff.1 bounded
  obtain ⟨w', hagain⟩ := (readWeights_again_iff hmeets doubles hproportion).2 hfinite
  obtain ⟨farthest, hfarthest⟩ := exists_farthest hamounts
  refine ⟨⟨w', hagain⟩, ⟨farthest, pos_share hamounts hproportion hfinite hfarthest⟩,
    fun source hlargest => ?_, fun input unnamed ⟨weights, r, hr⟩ =>
      resolve_of_weights unnamed hr hagain⟩
  refine pos_share hamounts hproportion hfinite fun other => ?_
  refine Binary.within_of_le (hamounts other) (hamounts source)
    (isFinite_of_total hamounts hfinite source) ?_
  rw [PerSource.get_map, PerSource.get_map]
  exact hlargest other

/-- The least weight there is, alone, becomes one that is taken up again. -/
theorem withWeights_usable_least :
    ∃ s', default.withWeights
      (.object [("bm25", .number (.real (Float.ofBits 1))), ("semantic", .number 0),
        ("fuzzy", .number 0)]) = .ok s' ∧
      0 < s'.weights.bm25 ∧ ∃ r, resolve (.object []) s' = .ok r := by
  have hread : perSource Schema.amount [] (.object [("bm25", .number (.real (Float.ofBits 1))),
      ("semantic", .number 0), ("fuzzy", .number 0)]) = .ok ⟨.real (Float.ofBits 1), 0, 0⟩ := by
    refine perSource_eq_ok_iff.2 ⟨_, rfl, fun source => ?_⟩
    cases source with
    | bm25 => exact Schema.amount_eq_ok_iff.2 ⟨rfl, by decide +kernel, by decide +kernel⟩
    | semantic | fuzzy => rfl
  have hdoubles : ∀ source,
      ((⟨.real (Float.ofBits 1), 0, 0⟩ : PerSource Number).get source).IsDouble := by
    have hpart : wholePart? (Float.ofBits 1) = none := by decide +kernel
    intro source
    cases source with
    | bm25 =>
      change Number.ofFloat (Float.ofBits 1) = .real (Float.ofBits 1)
      rw [Number.ofFloat, hpart]
    | semantic | fuzzy => exact Number.ofFloat_of_isZero ⟨.positive, rfl⟩
  obtain ⟨s', hs⟩ : ∃ s', default.withWeights (.object [("bm25", .number (.real (Float.ofBits 1))),
      ("semantic", .number 0), ("fuzzy", .number 0)]) =
        .ok s' := exists_eq_ok_of_isOk (by decide +kernel)
  obtain ⟨-, -, hlargest, hresolve⟩ := withWeights_usable hread hdoubles hs (by decide +kernel)
  have hdefault : ∃ r, resolve (.object []) = .ok r := exists_eq_ok_of_isOk (by decide +kernel)
  refine ⟨s', hs, hlargest .bm25 fun other => ?_,
    hresolve _ (fun _ => rfl) ⟨default.weights, hdefault⟩⟩
  cases other <;> decide +kernel

/-- Weights whose sum is infinite are taken up as zeros, which settings cannot be resolved with. -/
theorem withWeights_overflow :
    ∃ s', default.withWeights (.object [("bm25", .number (.ofFloat 1e308)),
      ("semantic", .number (.ofFloat 1e308)), ("fuzzy", .number (.ofFloat 1e308))]) = .ok s' ∧
    (∀ source, ¬0 < s'.weights.get source) ∧ ∃ f, resolve (.object []) s' = .error f := by
  have hzero : (default.withWeights (.object [("bm25", .number (.ofFloat 1e308)),
      ("semantic", .number (.ofFloat 1e308)), ("fuzzy", .number (.ofFloat 1e308))])).toOption.map
      (fun s' => Source.all.all (fun source => !decide (0 < s'.weights.get source)) &&
          !(resolve (.object []) s').isOk) = some true := by
    decide +kernel
  obtain ⟨s', hs, hrefused⟩ := Option.map_eq_some_iff.1 hzero
  obtain ⟨hnone, herror⟩ := Bool.and_eq_true_iff.1 hrefused
  refine ⟨s', eq_ok_of_toOption hs, fun source => ?_, ?_⟩
  · have hsource := List.all_eq_true.1 hnone source (Source.mem_all source)
    simpa using hsource
  · cases hr : resolve (.object []) s' with
    | error f => exact ⟨f, rfl⟩
    | ok r =>
      rw [hr] at herror
      cases herror

end Quarry.Settings
