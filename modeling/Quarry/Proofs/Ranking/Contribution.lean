import Mathlib.Analysis.SpecialFunctions.Log.Basic
import Quarry.Proofs.Index.Origin
import Quarry.Ranking.Scalar

/-! The score of one posting in exact arithmetic: that of an ordered field, with any function that
is positive above one for the logarithm. But for its weight a score is a share `tf / (tf + c)` of
`k1 + 1`, with a `c` that grows with the length of the document. That weights are positive and no
division is by zero is due to the index: no more documents hold a term than there are, and a
document that holds a term has a length. -/

namespace Quarry

section

variable {K : Type} [Field K] [LinearOrder K]

namespace Scalar

/-- The arithmetic of a field, with a function for the logarithm. -/
@[reducible] def exact (log : K → K) : Scalar K where
  add := (· + ·)
  sub := (· - ·)
  mul := (· * ·)
  div := (· / ·)
  beq a b := decide (a = b)
  ofNat n := n
  half := 1 / 2
  log := log
  lt a b := decide (a < b)

theorem zero_exact (log : K → K) : @zero K (exact log) = 0 := Nat.cast_zero

theorem one_exact (log : K → K) : @one K (exact log) = 1 := Nat.cast_one

end Scalar

/-- The constants that the formula is meant for. -/
structure Tuning.Proper (tuning : Tuning K) : Prop where
  k1_nonneg : 0 ≤ tuning.k1
  b_nonneg : 0 ≤ tuning.b
  b_le_one : tuning.b ≤ 1

variable (log : K → K)

namespace Bm25

/-- What the weight of a term is the logarithm of. -/
def weightArgument (total frequency : K) : K :=
  1 + (total - frequency + 1 / 2) / (frequency + 1 / 2)

/-- How long a document is, as far as `b` lets that count; one for a document of average length. -/
def lengthNorm (tuning : Tuning K) (length average : K) : K :=
  1 - tuning.b + tuning.b * (length / average)

theorem weight_exact (ix : Index) (count : Nat) : @weight K (.exact log) ix count =
    log (weightArgument ix.documentCount count) := by
  unfold weight inverseDocumentFrequency
  rw [Scalar.one_exact]
  rfl

theorem averageLength_exact (ix : Index) : @averageLength K (.exact log) ix =
    if ix.documentCount = 0 then 0 else (ix.totalLength : K) / ix.documentCount := by
  unfold averageLength
  rw [Scalar.zero_exact]
  rfl

/-- A contribution is a share of the weight times `k1 + 1`. -/
theorem contribution_exact (tuning : Tuning K) (idf frequency length : K) {average : K}
    (h : 0 < average) :
    @contribution K (.exact log) tuning idf frequency length average =
      idf * (tuning.k1 + 1) * (frequency /
        (frequency + tuning.k1 * lengthNorm tuning length average)) := by
  have hlt : @Scalar.lt K (.exact log) 0 average = true := decide_eq_true h
  unfold contribution
  rw [Scalar.zero_exact, Scalar.one_exact, if_pos hlt]
  change idf * (frequency * (tuning.k1 + 1)) /
    (frequency + tuning.k1 * lengthNorm tuning length average) = _
  rw [mul_comm frequency, ← mul_assoc, mul_div_assoc]

variable [IsStrictOrderedRing K]

/-! ### Shares -/

theorem share_le_one {f c : K} (hf : 0 < f) (hc : 0 ≤ c) : f / (f + c) ≤ 1 :=
  (div_le_one (add_pos_of_pos_of_nonneg hf hc)).2 (le_add_of_nonneg_right hc)

/-- A share grows with what it is a share of. -/
theorem share_mono {f f' c : K} (hf : 0 < f) (hff' : f ≤ f') (hc : 0 ≤ c) :
    f / (f + c) ≤ f' / (f' + c) := by
  have hf' : 0 < f' := hf.trans_le hff'
  rw [div_le_div_iff₀ (add_pos_of_pos_of_nonneg hf hc) (add_pos_of_pos_of_nonneg hf' hc),
    mul_add, mul_add, mul_comm f f']
  gcongr

/-- A share falls with what is added below. -/
theorem share_anti {f c c' : K} (hf : 0 < f) (hc : 0 ≤ c) (hcc' : c ≤ c') :
    f / (f + c') ≤ f / (f + c) := by
  have hpos : 0 < f + c := add_pos_of_pos_of_nonneg hf hc
  gcongr

/-! ### Lengths -/

section

variable {tuning : Tuning K} (h : tuning.Proper) {length average : K} (haverage : 0 < average)
include h haverage

theorem lengthNorm_nonneg (hlength : 0 ≤ length) : 0 ≤ lengthNorm tuning length average :=
  add_nonneg (sub_nonneg.2 h.b_le_one) (mul_nonneg h.b_nonneg (div_nonneg hlength haverage.le))

theorem lengthNorm_mono {length' : K} (hle : length ≤ length') :
    lengthNorm tuning length average ≤ lengthNorm tuning length' average := by
  have hb := h.b_nonneg
  unfold lengthNorm
  gcongr

/-- What stands beside the frequency below is no less than zero, so that no division is by zero. -/
theorem slack_nonneg (hlength : 0 ≤ length) : 0 ≤ tuning.k1 * lengthNorm tuning length average :=
  mul_nonneg h.k1_nonneg (lengthNorm_nonneg h haverage hlength)

variable {idf : K} (hidf : 0 < idf)
include hidf

omit haverage in
theorem weight_mul_pos : 0 < idf * (tuning.k1 + 1) :=
  mul_pos hidf (add_pos_of_nonneg_of_pos h.k1_nonneg one_pos)

theorem contribution_pos {frequency : K} (hfrequency : 0 < frequency) (hlength : 0 ≤ length) :
    0 < @contribution K (.exact log) tuning idf frequency length average := by
  rw [contribution_exact log tuning idf frequency length haverage]
  refine mul_pos (weight_mul_pos h hidf) (div_pos hfrequency ?_)
  exact add_pos_of_pos_of_nonneg hfrequency (slack_nonneg h haverage hlength)

theorem contribution_le {frequency : K} (hfrequency : 0 < frequency) (hlength : 0 ≤ length) :
    @contribution K (.exact log) tuning idf frequency length average ≤ idf * (tuning.k1 + 1) := by
  rw [contribution_exact log tuning idf frequency length haverage]
  exact mul_le_of_le_one_right (weight_mul_pos h hidf).le
    (share_le_one hfrequency (slack_nonneg h haverage hlength))

/-- In documents of one length a greater frequency scores no less. -/
theorem monotoneOn_contribution (hlength : 0 ≤ length) :
    MonotoneOn (fun frequency => @contribution K (.exact log) tuning idf frequency length average)
      (Set.Ioi 0) := by
  intro frequency hfrequency frequency' _ hle
  simp only [contribution_exact log tuning idf _ length haverage]
  exact mul_le_mul_of_nonneg_left (share_mono hfrequency hle (slack_nonneg h haverage hlength))
    (weight_mul_pos h hidf).le

/-- Of one frequency a longer document scores no more. -/
theorem antitoneOn_contribution {frequency : K} (hfrequency : 0 < frequency) :
    AntitoneOn (fun length => @contribution K (.exact log) tuning idf frequency length average)
      (Set.Ici 0) := by
  intro length hlength length' _ hle
  simp only [contribution_exact log tuning idf frequency _ haverage]
  refine mul_le_mul_of_nonneg_left (share_anti hfrequency (slack_nonneg h haverage hlength) ?_)
    (weight_mul_pos h hidf).le
  exact mul_le_mul_of_nonneg_left (lengthNorm_mono h haverage hle) h.k1_nonneg

end

/-! ### Indexes -/

/-- No more documents hold a term than there are, so that its weight is that of a number
above one. -/
theorem one_lt_weightArgument {total frequency : Nat} (h : frequency ≤ total) :
    1 < weightArgument (total : K) frequency := by
  have hle : (frequency : K) ≤ total := Nat.cast_le.2 h
  have hpos : (0 : K) < frequency + 1 / 2 :=
    add_pos_of_nonneg_of_pos frequency.cast_nonneg one_half_pos
  exact lt_add_of_pos_right 1
    (div_pos (add_pos_of_nonneg_of_pos (sub_nonneg.2 hle) one_half_pos) hpos)

end Bm25
end

namespace Index.Represents

variable {ix : Index} {rs : Records} (h : ix.Represents rs)
include h

theorem length_postingsOf_le (term : Term) : (ix.postingsOf term).length ≤ ix.documentCount := by
  rw [h.postingsOf_eq, h.documentCount_eq, Records.postingsOf, ← Std.TreeMap.length_toList]
  exact List.length_filterMap_le ..

variable (hwell : rs.WellFormed) {term : Term} {p : Posting} (hp : p ∈ ix.postingsOf term)
include hwell hp

theorem exists_record_of_mem_postingsOf :
    ∃ r, rs[p.docId]? = some r ∧ r.WellFormed ∧ (term, p.positions) ∈ r.terms := by
  rw [h.postingsOf_eq, Records.mem_postingsOf, Records.positions?, Option.bind_eq_some_iff] at hp
  obtain ⟨r, hr, hpositions⟩ := hp
  exact ⟨r, hr, hwell _ r hr, ((hwell _ r hr).positions?_iff).1 hpositions⟩

theorem frequency_pos : 0 < p.frequency := by
  obtain ⟨r, -, hr, hmem⟩ := h.exists_record_of_mem_postingsOf hwell hp
  exact List.length_pos_iff.2 (hr.nonempty _ hmem)

/-- A document that holds a term has a length, and so has the index. -/
theorem totalLength_pos : 0 < ix.totalLength := by
  obtain ⟨r, hfound, hr, hmem⟩ := h.exists_record_of_mem_postingsOf hwell hp
  obtain ⟨position, hposition⟩ := List.exists_mem_of_ne_nil _ (hr.nonempty _ hmem)
  rw [h.totalLength, Records.total_of_getElem? hfound]
  exact Nat.add_pos_left (Nat.zero_lt_of_lt (hr.inside _ hmem position hposition)) _

omit hwell in
theorem documentCount_pos : 0 < ix.documentCount :=
  (List.length_pos_of_mem hp).trans_le (h.length_postingsOf_le term)

end Index.Represents

/-- In exact arithmetic, with a logarithm that is positive above one, the score of a posting of any
index is sound. The weight of its term is the logarithm of a number above one, no division is by
zero, the score is positive and at most the weight times `k1 + 1`, and it does not fall with the
frequency or rise with the length. -/
theorem Bm25.postingScore_sound {K : Type} [Field K] [LinearOrder K] [IsStrictOrderedRing K]
    {log : K → K} (hlog : ∀ x, 1 < x → 0 < log x) {origin : Index.Origin} {calls : List Index.Call}
    (hcalls : ∀ c ∈ calls, c.WellFormed) {tuning : Tuning K} (proper : tuning.Proper) {term : Term}
    {p : Posting} (hp : p ∈ (origin.index.run calls).postingsOf term) :
    let ix := origin.index.run calls
    let argument : K := weightArgument ix.documentCount (ix.postingsOf term).length
    let idf := @weight K (.exact log) ix (ix.postingsOf term).length
    let average := @averageLength K (.exact log) ix
    let frequency : K := p.frequency
    let length : K := ix.documentLength p.docId
    let denominator := frequency + tuning.k1 * lengthNorm tuning length average
    let score := @postingScore K (.exact log) tuning ix idf p
    (p.docId, score) ∈ @termScores K (.exact log) tuning ix term ∧
      1 < argument ∧ idf = log argument ∧ 0 < average ∧ 0 < denominator ∧
      score = idf * (frequency * (tuning.k1 + 1)) / denominator ∧
      0 < score ∧ score ≤ idf * (tuning.k1 + 1) ∧
      MonotoneOn (fun frequency' =>
        @contribution K (.exact log) tuning idf frequency' length average) (Set.Ioi 0) ∧
      AntitoneOn (fun length' => @contribution K (.exact log) tuning idf frequency length' average)
        (Set.Ici 0) := by
  intro ix argument idf average frequency length denominator score
  have hrs := origin.represents_run calls
  have hwell := origin.wellFormed_run hcalls
  have hargument : 1 < argument := one_lt_weightArgument (hrs.length_postingsOf_le term)
  have hweight : idf = log argument := weight_exact log ix _
  have hidf : 0 < idf := hweight ▸ hlog argument hargument
  have hcount : 0 < ix.documentCount := hrs.documentCount_pos hp
  have haverage : 0 < average := by
    rw [show average = _ from averageLength_exact log ix, if_neg hcount.ne']
    exact div_pos (Nat.cast_pos.2 (hrs.totalLength_pos hwell hp)) (Nat.cast_pos.2 hcount)
  have hfrequency : 0 < frequency := Nat.cast_pos.2 (hrs.frequency_pos hwell hp)
  have hlength : 0 ≤ length := Nat.cast_nonneg _
  refine ⟨List.mem_map.2 ⟨p, hp, rfl⟩, hargument, hweight, haverage,
    add_pos_of_pos_of_nonneg hfrequency (slack_nonneg proper haverage hlength), ?_,
    contribution_pos log proper haverage hidf hfrequency hlength,
    contribution_le log proper haverage hidf hfrequency hlength,
    monotoneOn_contribution log proper haverage hidf hlength,
    antitoneOn_contribution log proper haverage hidf hfrequency⟩
  rw [show score = _ from contribution_exact log tuning idf frequency length haverage,
    mul_div_assoc', ← mul_assoc, mul_right_comm]

/-- Of two documents one holds a term, with the natural logarithm and the usual constants. -/
theorem Bm25.postingScore_sound_log :
    let calls : List Index.Call := [.add ⟨"a", "x y x", []⟩, .add ⟨"b", "y", []⟩]
    let ix := (Index.Origin.empty 0).index.run calls
    let tuning : Tuning ℝ := ⟨6 / 5, 3 / 4, none⟩
    let score := @postingScore ℝ (.exact Real.log) tuning ix (Real.log 2) ⟨"a", [0, 2]⟩
    (∀ x, 1 < x → 0 < Real.log x) ∧ (∀ c ∈ calls, c.WellFormed) ∧ tuning.Proper ∧
      ⟨"a", [0, 2]⟩ ∈ ix.postingsOf "x" ∧ 0 < score ∧ score ≤ Real.log 2 * (6 / 5 + 1) := by
  intro calls ix tuning score
  have hcalls : ∀ c ∈ calls, c.WellFormed := by simp [calls, Index.Call.WellFormed]
  have proper : tuning.Proper := ⟨by norm_num, by norm_num, by norm_num⟩
  have hp : (⟨"a", [0, 2]⟩ : Posting) ∈ ix.postingsOf "x" := by decide +kernel
  obtain ⟨-, -, hweight, -, -, -, hpos, hle, -, -⟩ :=
    postingScore_sound (fun _ => Real.log_pos) hcalls proper hp
  have hcounts : ix.documentCount = 2 ∧ (ix.postingsOf "x").length = 1 := by decide +kernel
  have hargument : weightArgument (ix.documentCount : ℝ) ((ix.postingsOf "x").length : ℝ) = 2 := by
    rw [hcounts.1, hcounts.2, weightArgument]
    norm_num
  have hlog := hweight.trans (congrArg Real.log hargument)
  rw [hlog] at hpos hle
  exact ⟨fun _ => Real.log_pos, hcalls, proper, hp, hpos, hle⟩

end Quarry
