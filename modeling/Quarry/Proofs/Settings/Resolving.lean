import Quarry.Proofs.Settings
import Quarry.Proofs.Settings.Places

/-! Settings that a value is laid over. What the value has at a place is what the settings have
there afterwards, and where it has nothing they stay as they were. The one way to get settings that
are not complete is a setting that is named without a value. -/

namespace Quarry.Settings

variable {α : Type} {kind : Kind} {check : Schema.Check α} {toJson : α → Json}
    {ms : List (Text × Json)}

/-! ### Checks of one setting -/

/-- A check takes up what a kind admits, as it is. -/
def Takes (kind : Kind) (check : Schema.Check α) (toJson : α → Json) : Prop :=
  ∀ {path j x}, check path j = .ok x → toJson x = j ∧ kind.Meets j

theorem takes_amount : Takes .amount (given Schema.amount) (orMissing .number) := by
  intro path j x h
  obtain ⟨n, hn, rfl⟩ := map_eq_ok_iff.1 h
  obtain ⟨rfl, hmeets⟩ := Schema.amount_eq_ok_iff.1 hn
  exact ⟨rfl, hmeets⟩

theorem takes_share : Takes .share (given Schema.share) (orMissing .number) := by
  intro path j x h
  obtain ⟨n, hn, rfl⟩ := map_eq_ok_iff.1 h
  obtain ⟨rfl, hsign, hle⟩ := Schema.share_eq_ok hn
  exact ⟨rfl, hsign, hle⟩

theorem takes_flag : Takes .flag (given Schema.bool) (orMissing .bool) := by
  intro path j x h
  obtain ⟨b, hb, rfl⟩ := map_eq_ok_iff.1 h
  obtain rfl := Schema.bool_eq_ok_iff.1 hb
  exact ⟨rfl, trivial⟩

theorem positive_eq_ok {path : List Text} {j : Json} {n : Number} (h : positive path j = .ok n) :
    j = .number n ∧ IsCount n := by
  obtain ⟨k, hk, rfl⟩ := map_eq_ok_iff.1 h
  obtain ⟨n, rfl, hinteger, hsign, rfl⟩ := Schema.positive_eq_ok hk
  cases n with
  | whole k => exact ⟨rfl, k, of_decide_eq_true hsign, rfl⟩
  | real x =>
    rw [Number.isInteger, wholePart?_neg (of_decide_eq_true hsign)] at hinteger
    cases hinteger

theorem takes_positive : Takes .positive (given positive) (orMissing .number) := by
  intro path j x h
  obtain ⟨n, hn, rfl⟩ := map_eq_ok_iff.1 h
  obtain ⟨rfl, hcount⟩ := positive_eq_ok hn
  exact ⟨rfl, hcount⟩

theorem takes_deadline : Takes .deadline deadline deadlineJson := by
  intro path j x h
  obtain ⟨limit, hlimit, rfl⟩ := map_eq_ok_iff.1 h
  rw [Schema.nullable.eq_def] at hlimit
  split at hlimit
  · cases hlimit
    exact ⟨rfl, trivial⟩
  · obtain ⟨n, hn, rfl⟩ := map_eq_ok_iff.1 hlimit
    obtain ⟨rfl, hcount⟩ := positive_eq_ok hn
    exact ⟨rfl, hcount⟩

/-- Where a value names a setting, the setting is the value now, which is admitted if it is a value
at all; and otherwise it is what it was. -/
def Laid (kind : Kind) (named : Option Json) (was now : Json) : Prop :=
  now = named.getD was ∧ ∀ v ∈ named, v ≠ .missing → kind.Meets v

theorem Laid.meets {named : Option Json} {was now : Json} (h : Laid kind named was now)
    (hwas : kind.Meets was) (hnamed : named ≠ some .missing) : kind.Meets now := by
  rw [h.1]
  cases named with
  | none => exact hwas
  | some v => exact h.2 v rfl (fun hv => hnamed (congrArg some hv))

theorem Takes.laid_setting (takes : Takes kind check toJson) {path : List Text} {name : Text}
    {unset was x : α} (hunset : toJson unset = .missing)
    (h : setting ms path name unset was check = .ok x) :
    Laid kind (Json.member? ms name) (toJson was) (toJson x) := by
  rw [setting.eq_def] at h
  cases hnamed : Json.member? ms name with
  | none =>
    rw [hnamed] at h
    cases h
    exact ⟨rfl, nofun⟩
  | some v =>
    rw [hnamed] at h
    by_cases hv : v = .missing
    · subst hv
      cases h
      exact ⟨hunset, fun v' hv' hne => absurd (Option.some.inj hv').symm hne⟩
    · have hcheck : check (path ++ [name]) v = .ok x := by
        cases v <;> first | exact h | exact absurd rfl hv
      obtain ⟨hx, hmeets⟩ := takes hcheck
      refine ⟨hx, fun v' hv' _ => ?_⟩
      obtain rfl := Option.some.inj hv'
      exact hmeets

/-! ### Groups -/

/-- The members of a group are what a value has under its name. -/
theorem named?_of_group {parts : List (Text × Json)} {name : Text} (h : group ms name = .ok parts)
    (part : Text) :
    (Json.object ms).named? [name, part] = Json.member? parts part := by
  have hnamed : (Json.object ms).named? [name, part] =
      (Json.member? ms name).bind (Json.named? · [part]) := rfl
  rw [hnamed]
  rw [group.eq_def] at h
  split at h
  case h_1 hnone =>
    cases h
    rw [hnone]
    rfl
  case h_2 hmissing =>
    cases h
    rw [hmissing]
    rfl
  case h_3 j _ hj =>
    obtain rfl := Schema.members_eq_ok_iff.1 h
    rw [hj]
    exact Json.named?_object parts part

theorem Takes.laid_sourceGroup (takes : Takes kind check toJson) {name : Text} {unset : α}
    {was xs : PerSource α} (hunset : toJson unset = .missing)
    (h : sourceGroup ms name unset was check = .ok xs) (source : Source) :
    Laid kind ((Json.object ms).named? [name, source.name]) (toJson (was.get source))
      (toJson (xs.get source)) := by
  obtain ⟨parts, hparts, hsources⟩ := bind_eq_ok_iff.1 h
  rw [named?_of_group hparts]
  have hsetting := (sources_eq_ok_iff (f := fun source =>
    setting parts [name] source.name unset (was.get source) check)).1 hsources source
  exact takes.laid_setting hunset hsetting

/-- A group that names no source stays as it was. -/
theorem sourceGroup_unnamed {name : Text} {unset : α} {was was' xs : PerSource α}
    (h : sourceGroup ms name unset was check = .ok xs)
    (unnamed : ∀ source : Source, (Json.object ms).named? [name, source.name] = none) :
    sourceGroup ms name unset was' check = .ok was' := by
  obtain ⟨parts, hparts, -⟩ := bind_eq_ok_iff.1 h
  have hsetting : ∀ source, setting parts [name] source.name unset (was'.get source) check =
      .ok (was'.get source) := by
    intro source
    have hnone := named?_of_group hparts source.name ▸ unnamed source
    rw [setting.eq_def, hnone]
  exact bind_eq_ok_iff.2 ⟨parts, hparts, (sources_eq_ok_iff (f := fun source =>
    setting parts [name] source.name unset (was'.get source) check)).2 hsetting⟩

theorem laid_scoringGroup {k1 b : Option Number} {scoring : Option Number × Option Number}
    (h : scoringGroup ms k1 b = .ok scoring) :
    Laid .amount ((Json.object ms).named? ["bm25", "k1"]) (orMissing .number k1)
      (orMissing .number scoring.1) ∧
      Laid .share ((Json.object ms).named? ["bm25", "b"]) (orMissing .number b)
        (orMissing .number scoring.2) := by
  obtain ⟨parts, hparts, hboth⟩ := bind_eq_ok_iff.1 h
  obtain ⟨hk1, hb⟩ := Schema.both_eq_ok_iff.1 hboth
  rw [named?_of_group hparts, named?_of_group hparts]
  exact ⟨takes_amount.laid_setting rfl hk1, takes_share.laid_setting rfl hb⟩

/-! ### Drafts -/

/-- Each part of a draft is what its check makes of the members. -/
structure Drafted (was : Draft) (ms : List (Text × Json)) (d : Draft) : Prop where
  weights : sourceGroup ms "weights" none was.weights (given Schema.amount) = .ok d.weights
  enabled : sourceGroup ms "enabled" none was.enabled (given Schema.bool) = .ok d.enabled
  rankConstant : optionalSetting ms [] "rrfK" was.rankConstant Schema.amount = .ok d.rankConstant
  scoring : scoringGroup ms was.scoring.1 was.scoring.2 = .ok d.scoring
  deadlines : sourceGroup ms "sourceTimeoutMs" .unset was.deadlines deadline = .ok d.deadlines
  lifetimes : sourceGroup ms "cacheTtlMs" none was.lifetimes (given Schema.amount) = .ok d.lifetimes
  degradedLifetime :
    optionalSetting ms [] "degradedCacheTtlMs" was.degradedLifetime Schema.amount =
      .ok d.degradedLifetime
  cacheBound : optionalSetting ms [] "cacheMaxEntries" was.cacheBound positive = .ok d.cacheBound
  candidateFactor :
    optionalSetting ms [] "candidateMultiplier" was.candidateFactor positive = .ok d.candidateFactor
  expansions : optionalSetting ms [] "maxPrefixExpansions" was.expansions positive =
    .ok d.expansions
  window : optionalSetting ms [] "snippetWindow" was.window positive = .ok d.window
  readers : optionalSetting ms [] "rebuildConcurrency" was.readers positive = .ok d.readers

variable {base s : Settings} {d : Draft} {j : Json}

theorem draft_eq_ok_iff :
    draft base j = .ok d ↔ ∃ ms, j = .object ms ∧ Drafted base.toDraft ms d := by
  rw [draft, bind_eq_ok_iff]
  refine exists_congr fun ms => and_congr Schema.members_eq_ok_iff ?_
  constructor
  · intro h
    obtain ⟨_, readers, h₁, hreaders, rfl⟩ := Schema.apply_eq_ok h
    obtain ⟨_, window, h₂, hwindow, rfl⟩ := Schema.apply_eq_ok h₁
    obtain ⟨_, expansions, h₃, hexpansions, rfl⟩ := Schema.apply_eq_ok h₂
    obtain ⟨_, candidateFactor, h₄, hcandidateFactor, rfl⟩ := Schema.apply_eq_ok h₃
    obtain ⟨_, cacheBound, h₅, hcacheBound, rfl⟩ := Schema.apply_eq_ok h₄
    obtain ⟨_, degradedLifetime, h₆, hdegradedLifetime, rfl⟩ := Schema.apply_eq_ok h₅
    obtain ⟨_, lifetimes, h₇, hlifetimes, rfl⟩ := Schema.apply_eq_ok h₆
    obtain ⟨_, deadlines, h₈, hdeadlines, rfl⟩ := Schema.apply_eq_ok h₇
    obtain ⟨_, scoring, h₉, hscoring, rfl⟩ := Schema.apply_eq_ok h₈
    obtain ⟨_, rankConstant, h₁₀, hrankConstant, rfl⟩ := Schema.apply_eq_ok h₉
    obtain ⟨_, enabled, h₁₁, henabled, rfl⟩ := Schema.apply_eq_ok h₁₀
    obtain ⟨_, weights, h₁₂, hweights, rfl⟩ := Schema.apply_eq_ok h₁₁
    cases h₁₂
    exact ⟨hweights, henabled, hrankConstant, hscoring, hdeadlines, hlifetimes,
      hdegradedLifetime, hcacheBound, hcandidateFactor, hexpansions, hwindow, hreaders⟩
  · intro h
    have h₁ := Schema.apply_ok (g := Draft.mk) rfl h.weights
    have h₂ := Schema.apply_ok h₁ h.enabled
    have h₃ := Schema.apply_ok h₂ h.rankConstant
    have h₄ := Schema.apply_ok h₃ h.scoring
    have h₅ := Schema.apply_ok h₄ h.deadlines
    have h₆ := Schema.apply_ok h₅ h.lifetimes
    have h₇ := Schema.apply_ok h₆ h.degradedLifetime
    have h₈ := Schema.apply_ok h₇ h.cacheBound
    have h₉ := Schema.apply_ok h₈ h.candidateFactor
    have h₁₀ := Schema.apply_ok h₉ h.expansions
    have h₁₁ := Schema.apply_ok h₁₀ h.window
    exact Schema.apply_ok h₁₁ h.readers

/-- At each place the members are laid over what was there. -/
theorem Drafted.laid {was : Draft} (h : Drafted was ms d) (p : Place) :
    Laid p.kind ((Json.object ms).named? p.path) (was.value p) (d.value p) := by
  cases p with
  | weight source => exact takes_amount.laid_sourceGroup rfl h.weights source
  | enabled source => exact takes_flag.laid_sourceGroup rfl h.enabled source
  | rankConstant => exact Json.named?_object ms _ ▸ takes_amount.laid_setting rfl h.rankConstant
  | k1 => exact (laid_scoringGroup h.scoring).1
  | b => exact (laid_scoringGroup h.scoring).2
  | deadline source => exact takes_deadline.laid_sourceGroup rfl h.deadlines source
  | lifetime source => exact takes_amount.laid_sourceGroup rfl h.lifetimes source
  | degradedLifetime =>
    exact Json.named?_object ms _ ▸ takes_amount.laid_setting rfl h.degradedLifetime
  | cacheBound => exact Json.named?_object ms _ ▸ takes_positive.laid_setting rfl h.cacheBound
  | candidateFactor =>
    exact Json.named?_object ms _ ▸ takes_positive.laid_setting rfl h.candidateFactor
  | expansions => exact Json.named?_object ms _ ▸ takes_positive.laid_setting rfl h.expansions
  | window => exact Json.named?_object ms _ ▸ takes_positive.laid_setting rfl h.window
  | readers => exact Json.named?_object ms _ ▸ takes_positive.laid_setting rfl h.readers

/-! ### Drafts that are settled -/

/-- Settings that a draft has with the weights and the methods. -/
def Draft.settled (d : Draft) (weights : PerSource Float) (enabled : PerSource Bool) :
    Settings where
  weights := weights
  enabled := enabled
  rankConstant := d.rankConstant
  k1 := d.scoring.1
  b := d.scoring.2
  deadlines := d.deadlines
  lifetimes := d.lifetimes
  degradedLifetime := d.degradedLifetime
  cacheBound := d.cacheBound
  candidateFactor := d.candidateFactor
  expansions := d.expansions
  window := d.window
  readers := d.readers

/-- The checks of the weights and the methods of a draft. -/
def Draft.settle (d : Draft) : Except Failure Settings := do
  let weights ← readWeights (.object (Source.all.map fun source =>
    (source.name, orMissing Json.number (d.weights.get source))))
  let enabled ← readMethods (.object (Source.all.map fun source =>
    (source.name, orMissing Json.bool (d.enabled.get source))))
  return d.settled weights enabled

/-- Settings are resolved by making a draft and settling it. -/
theorem resolve_eq (j : Json) (base : Settings) : resolve j base =
    match draft base j.orEmpty with
    | .error issues => .error (invalid "Invalid configuration" issues)
    | .ok d => d.settle := by
  cases j <;> rfl

theorem resolve_eq_ok_iff : resolve j base = .ok s ↔
    ∃ ms d, j.orEmpty = .object ms ∧ Drafted base.toDraft ms d ∧ d.settle = .ok s := by
  rw [resolve_eq]
  cases hdraft : draft base j.orEmpty with
  | error issues =>
    simp only [reduceCtorEq, false_iff]
    rintro ⟨ms, d, hj, hd, -⟩
    rw [draft_eq_ok_iff.2 ⟨ms, hj, hd⟩] at hdraft
    cases hdraft
  | ok d =>
    simp only
    constructor
    · intro h
      obtain ⟨ms, hj, hd⟩ := draft_eq_ok_iff.1 hdraft
      exact ⟨ms, d, hj, hd, h⟩
    · rintro ⟨ms, d', hj, hd, h⟩
      rw [draft_eq_ok_iff.2 ⟨ms, hj, hd⟩] at hdraft
      obtain rfl := Except.ok.inj hdraft
      exact h

/-- A failure over settings that cannot be taken up. -/
def Refused (f : Failure) : Prop := ∃ summary issues, f = .settings summary issues

theorem refused_of_readWeights {j : Json} {f : Failure} (h : readWeights j = .error f) :
    Refused f := by
  rw [readWeights] at h
  cases hread : perSource Schema.amount [] j with
  | error issues =>
    rw [hread] at h
    cases h
    exact ⟨_, _, rfl⟩
  | ok given =>
    rw [hread] at h
    simp only [proportion] at h
    split at h
    · cases h
      exact ⟨_, _, rfl⟩
    · cases h

theorem refused_of_readMethods {j : Json} {f : Failure} (h : readMethods j = .error f) :
    Refused f := by
  rw [readMethods] at h
  cases hread : perSource Schema.bool [] j with
  | error issues =>
    rw [hread] at h
    cases h
    exact ⟨_, _, rfl⟩
  | ok methods =>
    rw [hread] at h
    simp only at h
    split at h
    · cases h
    · cases h
      exact ⟨_, _, rfl⟩

theorem refused_of_resolve {f : Failure} (h : resolve j base = .error f) : Refused f := by
  rw [resolve_eq] at h
  split at h
  · cases h
    exact ⟨_, _, rfl⟩
  · rcases bind_eq_error_iff.1 h with hweights | ⟨weights, -, h⟩
    · exact refused_of_readWeights hweights
    · rcases bind_eq_error_iff.1 h with hmethods | ⟨enabled, -, h⟩
      · exact refused_of_readMethods hmethods
      · cases h

theorem orMissing_eq_iff {f : α → Json} (hf : Function.Injective f) (hne : ∀ x, f x ≠ .missing)
    {x? : Option α} {x : α} : orMissing f x? = f x ↔ x? = some x := by
  cases x? with
  | none => exact ⟨fun h => absurd h.symm (hne x), nofun⟩
  | some y => exact hf.eq_iff.trans Option.some_inj.symm

theorem readMethods_draft_eq_ok_iff {methods : PerSource (Option Bool)} {enabled : PerSource Bool} :
    readMethods (.object (Source.all.map fun source =>
        (source.name, orMissing Json.bool (methods.get source)))) = .ok enabled ↔
      (∀ source, methods.get source = some (enabled.get source)) ∧
        ∃ source, enabled.get source = true := by
  rw [readMethods_eq_ok_iff]
  refine and_congr_left' ?_
  rw [perSource_object_eq_ok_iff]
  refine forall_congr' fun source => Schema.bool_eq_ok_iff.trans ?_
  exact orMissing_eq_iff (fun _ _ => Json.bool.inj) (fun _ => Json.noConfusion)

theorem readWeights_draft_eq_ok_iff {amounts : PerSource (Option Number)} {w : PerSource Float} :
    readWeights (.object (Source.all.map fun source =>
        (source.name, orMissing Json.number (amounts.get source)))) = .ok w ↔
      ∃ given : PerSource Number, (∀ source, amounts.get source = some (given.get source) ∧
        Kind.amount.Meets (.number (given.get source))) ∧
          proportion (given.map Number.toFloat) = .ok w := by
  rw [readWeights_eq_ok_iff]
  refine exists_congr fun given => and_congr_left' ?_
  rw [perSource_object_eq_ok_iff]
  refine forall_congr' fun source => Schema.amount_eq_ok_iff.trans (and_congr_left' ?_)
  exact orMissing_eq_iff (fun _ _ => Json.number.inj) (fun _ => Json.noConfusion)

/-- A draft is settled when each source has an amount that is not zero for all of them, and a method
of which one takes part. -/
theorem Draft.settle_eq_ok_iff : d.settle = .ok s ↔
    ∃ (given : PerSource Number) (weights : PerSource Float) (enabled : PerSource Bool),
    (∀ source, d.weights.get source = some (given.get source) ∧
      Kind.amount.Meets (.number (given.get source))) ∧
    proportion (given.map Number.toFloat) = .ok weights ∧
    (∀ source, d.enabled.get source = some (enabled.get source)) ∧
    (∃ source, enabled.get source = true) ∧
    s = d.settled weights enabled := by
  simp only [Draft.settle, bind_eq_ok_iff, readWeights_draft_eq_ok_iff,
    readMethods_draft_eq_ok_iff, pure, Except.pure, Except.ok.injEq]
  constructor
  · rintro ⟨weights, ⟨given, hgiven, hweights⟩, enabled, ⟨henabled, hany⟩, rfl⟩
    exact ⟨given, weights, enabled, hgiven, hweights, henabled, hany, rfl⟩
  · rintro ⟨given, weights, enabled, hgiven, hweights, henabled, hany, rfl⟩
    exact ⟨weights, ⟨given, hgiven, hweights⟩, enabled, ⟨henabled, hany⟩, rfl⟩

/-- Settings have what their draft has, but for the weights. -/
theorem Draft.value_settled {weights : PerSource Float} {enabled : PerSource Bool}
    (henabled : ∀ source, d.enabled.get source = some (enabled.get source)) {p : Place}
    (hp : ∀ source, p ≠ .weight source) : (d.settled weights enabled).value p = d.value p := by
  cases p with
  | weight source => exact absurd rfl (hp source)
  | enabled source =>
    change orMissing Json.bool ((enabled.map some).get source) =
      orMissing Json.bool (d.enabled.get source)
    rw [henabled, PerSource.get_map]
  | _ => rfl

/-! ### Weights in proportion -/

theorem meets_ofFloat {x : Float} (amount : Binary.IsAmount x.toModel.unpack)
    (finite : Binary.IsFinite x.toModel.unpack) : Kind.amount.Meets (.number (.ofFloat x)) := by
  rw [Number.ofFloat]
  split
  · exact ⟨rfl, rfl⟩
  · exact ⟨Binary.isFinite_real_iff.2 finite, decide_eq_true (Binary.zero_le_of_isAmount amount)⟩

theorem Kind.Meets.isAmount {n : Number} (h : Kind.amount.Meets (.number n)) :
    Binary.IsAmount n.toFloat.toModel.unpack := by
  have hread : Schema.amount [] (.number n) = .ok n := Schema.amount_eq_ok_iff.2 ⟨rfl, h⟩
  exact Schema.isAmount_of_amount hread

theorem isAmount_of_meets {given : PerSource Number}
    (meets : ∀ source, Kind.amount.Meets (.number (given.get source))) (source : Source) :
    Binary.IsAmount ((given.map Number.toFloat).get source).toModel.unpack :=
  PerSource.get_map Number.toFloat given source ▸ (meets source).isAmount

/-- Finite amounts in proportion are finite amounts. -/
theorem meets_proportion {given : PerSource Number} {w : PerSource Float}
    (meets : ∀ source, Kind.amount.Meets (.number (given.get source)))
    (doubles : ∀ source, (given.get source).IsDouble)
    (h : proportion (given.map Number.toFloat) = .ok w) (source : Source) :
    Kind.amount.Meets (.number (.ofFloat (w.get source))) := by
  obtain ⟨hpositive, rfl⟩ := proportion_eq_ok h
  have hfinite : Binary.IsFinite ((given.map Number.toFloat).get source).toModel.unpack := by
    rw [PerSource.get_map]
    exact (doubles source).isFinite_toFloat (meets source).1
  rw [PerSource.get_map]
  rcases isAmount_share (isAmount_of_meets meets) hpositive source with
    ⟨-, hinfinite⟩ | ⟨hamount, hshare⟩
  · exact absurd hfinite hinfinite
  · exact meets_ofFloat hamount hshare

/-! ### Settings that are resolved -/

theorem named?_of_orEmpty (hj : j.orEmpty = .object ms) (p : Place) :
    (Json.object ms).named? p.path = j.named? p.path := by
  rw [← hj]
  cases p <;> exact Json.named?_orEmpty j _ _

theorem laid_draft (hj : j.orEmpty = .object ms) (hd : Drafted base.toDraft ms d) (p : Place) :
    Laid p.kind (j.named? p.path) (base.value p) (d.value p) :=
  named?_of_orEmpty hj p ▸ hd.laid p

/-- A weight of a draft is a double if what is laid over it is one. -/
theorem isDouble_of_laid {named : Option Json} {source : Source} {n : Number}
    (h : Laid .amount named (base.value (.weight source)) (.number n))
    (doubles : ∀ n, named = some (.number n) → n.IsDouble) : n.IsDouble := by
  obtain ⟨hvalue, -⟩ := h
  cases named with
  | none =>
    obtain rfl := Json.number.inj (hvalue.trans (value_weight base source))
    exact Number.isDouble_ofFloat _
  | some v => exact doubles n (congrArg some hvalue.symm)

/-- Settings are refused, or have a value at each place: the one they are given if there is one, and
otherwise the one they had. It is admitted everywhere unless a setting is named without a value. -/
theorem resolve_complete (valid : base.Valid)
    (doubles : ∀ source n, j.named? (Place.weight source).path = some (.number n) → n.IsDouble) :
    (∃ f, resolve j base = .error f ∧ Refused f) ∨ ∃ s, resolve j base = .ok s ∧
      (∃ source, s.enabled.get source = true) ∧
      (∀ p, (∀ source, p ≠ .weight source) → s.value p = (j.named? p.path).getD (base.value p)) ∧
      (s.Valid ↔ ∀ p : Place, j.named? p.path ≠ some .missing) := by
  cases hresolve : resolve j base with
  | error f => exact .inl ⟨f, rfl, refused_of_resolve hresolve⟩
  | ok s =>
    right
    obtain ⟨ms, d, hj, hd, hsettle⟩ := resolve_eq_ok_iff.1 hresolve
    obtain ⟨given, weights, enabled, hgiven, hweights, henabled, hany, rfl⟩ :=
      Draft.settle_eq_ok_iff.1 hsettle
    have hlaid := laid_draft hj hd
    have hvalue : ∀ p, (∀ source, p ≠ .weight source) →
        (d.settled weights enabled).value p = d.value p :=
      fun p hp => Draft.value_settled henabled hp
    have hgivenValue : ∀ source, d.value (.weight source) = .number (given.get source) :=
      fun source => Draft.value_weight (hgiven source).1
    have hdouble : ∀ source, (given.get source).IsDouble :=
      fun source => isDouble_of_laid (hgivenValue source ▸ hlaid (.weight source)) (doubles source)
    refine ⟨_, rfl, hany, fun p hp => (hvalue p hp).trans (hlaid p).1, fun hvalid p hmissing => ?_,
      fun hnamed p => ?_⟩
    · -- A weight that is named without a value is refused, and any other setting is left
      -- without one.
      have hunset : d.value p = .missing := (hlaid p).1.trans (by rw [hmissing, Option.getD_some])
      by_cases hp : ∃ source, p = .weight source
      · obtain ⟨source, rfl⟩ := hp
        exact absurd ((hgivenValue source).symm.trans hunset) Json.noConfusion
      · have hmeets := hvalid p
        rw [hvalue p (not_exists.1 hp), hunset] at hmeets
        exact p.kind.not_meets_missing hmeets
    · by_cases hp : ∃ source, p = .weight source
      · obtain ⟨source, rfl⟩ := hp
        rw [value_weight]
        exact meets_proportion (fun source => (hgiven source).2) hdouble hweights source
      · rw [hvalue p (not_exists.1 hp)]
        exact (hlaid p).meets (valid p) (hnamed p)

theorem resolve_complete_named :
    ∃ s, resolve (.object [("weights", .object [("fuzzy", .number 1)]),
      ("bm25", .object [("b", .number 0)])]) = .ok s ∧
      s.Valid ∧ s.value .b = .number 0 ∧ s.value .k1 = default.value .k1 := by
  have hdoubles : ∀ source n, Json.named? (.object [("weights", .object [("fuzzy", .number 1)]),
      ("bm25", .object [("b", .number 0)])]) (Place.weight source).path = some (.number n) →
        n.IsDouble := by
    intro source n hn
    cases source <;> cases hn
    exact Number.isDouble_ofFloat 1
  obtain ⟨s, hs⟩ : ∃ s, resolve (.object [("weights", .object [("fuzzy", .number 1)]),
      ("bm25", .object [("b", .number 0)])]) = .ok s := exists_eq_ok_of_isOk (by decide +kernel)
  rcases resolve_complete default_valid hdoubles with ⟨f, hf, -⟩ | ⟨s', hs', -, hvalue, hvalid⟩
  · cases hf.symm.trans hs
  · refine ⟨s', hs', hvalid.2 fun p hp => ?_, hvalue .b fun _ => Place.noConfusion,
      hvalue .k1 fun _ => Place.noConfusion⟩
    cases p with
    | weight source | enabled source | deadline source | lifetime source =>
      cases source <;> cases hp
    | _ => cases hp

/-- A setting that is named without a value has none afterwards. -/
theorem resolve_unset : default.Valid ∧ ∃ s, resolve (.object [("rrfK", .missing)]) = .ok s ∧
    s.value .rankConstant = .missing ∧ default.value .rankConstant = .number 60 ∧ ¬s.Valid := by
  have hunset : (resolve (.object [("rrfK", .missing)])).toOption.map (·.rankConstant.isNone) =
      some true := by
    decide +kernel
  obtain ⟨s, hs, hnone⟩ := Option.map_eq_some_iff.1 hunset
  have hvalue : s.value .rankConstant = .missing :=
    congrArg (orMissing Json.number) (Option.isNone_iff_eq_none.1 hnone)
  exact ⟨default_valid, s, eq_ok_of_toOption hs, hvalue, rfl,
    fun hvalid => Kind.not_meets_missing _ (hvalue ▸ hvalid .rankConstant)⟩

end Quarry.Settings
