import Mathlib.Algebra.Order.BigOperators.Group.List
import Mathlib.Data.Rat.Cast.Order
import Quarry.Proofs.Ranking.Contribution
import Quarry.Proofs.Ranking.Shares

/-! Fusion in exact arithmetic respects dominance. What a source gives to a document falls with the
rank, so that a document which every source of another one ranks, and nowhere behind it, has no
smaller sum; and the fused order has documents of greater sums in front. -/

namespace Quarry.Fusion

section

variable {K : Type} [Field K] [LinearOrder K]

/-- Each source ranks a document once, and from above zero on. -/
structure Proper (rankings : PerSource (List (DocId × K))) : Prop where
  nodup : ∀ s, ((rankings.get s).map (·.1)).Nodup
  positive : ∀ s, ∀ x ∈ rankings.get s, 0 < x.2

/-- Each source that ranks the second document ranks the first one too, and not behind it. -/
def Dominates (rankings : PerSource (List (DocId × K))) (a b : DocId) : Prop :=
  ∀ s rank, (b, rank) ∈ rankings.get s → ∃ rank', (a, rank') ∈ rankings.get s ∧ rank' ≤ rank

/-- A source whose weight is positive ranks the first document and does not rank the second one, or
only behind it. -/
def Excels (weights : PerSource K) (rankings : PerSource (List (DocId × K))) (a b : DocId) : Prop :=
  ∃ s, 0 < weights.get s ∧
    ∃ rank, (a, rank) ∈ rankings.get s ∧ ∀ rank', (b, rank') ∈ rankings.get s → rank < rank'

/-! ### Sums -/

variable {weights : PerSource K} {k : K} {rankings : PerSource (List (DocId × K))} (log : K → K)

/-- What a source gives to a document, which is nothing if it does not rank the document. -/
def share (weights : PerSource K) (k : K) (rankings : PerSource (List (DocId × K))) (id : DocId)
    (s : Source) : K :=
  ((rankings.get s).lookup id).elim 0 fun rank => weights.get s / (k + rank)

/-- What all sources give to a document. -/
def total (weights : PerSource K) (k : K) (rankings : PerSource (List (DocId × K)))
    (id : DocId) : K :=
  (Source.all.map (share weights k rankings id)).sum

theorem sum_shares (sources : List Source) (id : DocId) :
    ((@shares K (.exact log) weights k rankings sources id).map (·.2)).sum =
      (sources.map (share weights k rankings id)).sum := by
  induction sources with
  | nil => rfl
  | cons s rest ih =>
    unfold shares at ih ⊢
    rw [List.filterMap_cons, List.map_cons, List.sum_cons, ← ih, share]
    cases (rankings.get s).lookup id with
    | none => exact (zero_add _).symm
    | some rank => rfl

theorem score_entryOf (id : DocId) (found : List (Source × K)) :
    (@entryOf K (.exact log) id found).score = (found.map (·.2)).sum := by
  rw [List.sum_eq_foldl, ← Scalar.zero_exact log]
  rfl

variable (proper : Proper rankings)
include proper

/-- What is fused are the ranked documents with their totals. -/
theorem score_of_mem_fuse {e : Fused K} (h : e ∈ @fuse K (.exact log) weights k rankings) :
    e.score = total weights k rankings e.docId := by
  obtain ⟨-, heq⟩ :=
    (@mem_sums_iff K (.exact log) weights k rankings proper.nodup e).1
      ((rankSort_perm _ _).mem_iff.1 h)
  rw [total, ← sum_shares log, ← score_entryOf log e.docId, ← heq]

omit [LinearOrder K] proper in
theorem share_eq_zero {id : DocId} {s : Source} (h : (rankings.get s).lookup id = none) :
    share weights k rankings id s = 0 := by
  rw [share, h, Option.elim_none]

theorem share_eq_of_mem {id : DocId} {s : Source} {rank : K} (h : (id, rank) ∈ rankings.get s) :
    share weights k rankings id s = weights.get s / (k + rank) := by
  rw [share, (lookup_eq_some_iff (proper.nodup s)).2 h, Option.elim_some]

/-! ### Two documents -/

variable [IsStrictOrderedRing K] (hk : 0 ≤ k) {a b : DocId}
include hk

section

variable (nonneg : ∀ s, 0 ≤ weights.get s) (dominates : Dominates rankings a b)
include nonneg dominates

theorem share_le_of_dominates (s : Source) :
    share weights k rankings b s ≤ share weights k rankings a s := by
  cases hlookup : (rankings.get s).lookup b with
  | none =>
    rw [share_eq_zero hlookup, share]
    cases hrank : (rankings.get s).lookup a with
    | none => exact le_rfl
    | some rank =>
      have hpos := proper.positive s _ ((lookup_eq_some_iff (proper.nodup s)).1 hrank)
      exact div_nonneg (nonneg s) (add_nonneg hk hpos.le)
  | some rank =>
    have hmem := (lookup_eq_some_iff (proper.nodup s)).1 hlookup
    obtain ⟨rank', hmem', hle⟩ := dominates s rank hmem
    have hpos : 0 < k + rank' := add_pos_of_nonneg_of_pos hk (proper.positive s _ hmem')
    rw [share_eq_of_mem proper hmem, share_eq_of_mem proper hmem']
    exact div_le_div_of_nonneg_left (nonneg s) hpos (add_le_add_right hle k)

theorem total_le_of_dominates : total weights k rankings b ≤ total weights k rankings a :=
  List.sum_le_sum fun s _ => share_le_of_dominates proper hk nonneg dominates s

end

theorem exists_share_lt_of_excels (excels : Excels weights rankings a b) :
    ∃ s, share weights k rankings b s < share weights k rankings a s := by
  obtain ⟨s, hweight, rank, hmem, hbehind⟩ := excels
  have hpos : 0 < k + rank := add_pos_of_nonneg_of_pos hk (proper.positive s _ hmem)
  refine ⟨s, ?_⟩
  rw [share_eq_of_mem proper hmem]
  cases hlookup : (rankings.get s).lookup b with
  | none =>
    rw [share_eq_zero hlookup]
    exact div_pos hweight hpos
  | some rank' =>
    have hmem' := (lookup_eq_some_iff (proper.nodup s)).1 hlookup
    rw [share_eq_of_mem proper hmem']
    exact div_lt_div_of_pos_left hweight hpos (add_lt_add_right (hbehind rank' hmem') k)

theorem total_lt_of_excels (nonneg : ∀ s, 0 ≤ weights.get s) (dominates : Dominates rankings a b)
    (excels : Excels weights rankings a b) :
    total weights k rankings b < total weights k rankings a := by
  obtain ⟨s, hlt⟩ := exists_share_lt_of_excels proper hk excels
  exact List.sum_lt_sum _ _ (fun s _ => share_le_of_dominates proper hk nonneg dominates s)
    ⟨s, s.mem_all, hlt⟩

end

/-! ### The fused order -/

section

variable {K : Type} [Field K] [LinearOrder K] (log : K → K)

theorem ordersBy_exact {β : Type} (score : β → K) (name : β → Text) :
    OrdersBy (fun _ => True) score name (@Scalar.ranksBefore K (.exact log) _ score name) where
  before_iff {a b} _ _ := by
    unfold Scalar.ranksBefore
    change (if decide (score a = score b) = true then _ else decide (score b < score a)) = true ↔ _
    by_cases heq : score a = score b
    · simp [heq, Ordering.isLT_iff_eq_lt]
    · simp [heq]

theorem pairwise_score_fuse (weights : PerSource K) (k : K)
    (rankings : PerSource (List (DocId × K))) :
    (@fuse K (.exact log) weights k rankings).Pairwise fun e e' => e'.score ≤ e.score := by
  have orders := ordersBy_exact log (Fused.score (α := K)) Fused.docId
  refine (orders.ranksOn.sortedBy_rankSort fun _ _ => trivial).imp fun {e e'} h => ?_
  rcases (orders.eq_false_iff trivial trivial).1 h with hlt | ⟨heq, -⟩
  · exact hlt.le
  · exact heq.ge

omit [Field K] in
/-- Where scores never rise, a document whose score is greater comes first. -/
theorem idxOf_lt_of_score_lt {entries : List (Fused K)}
    (hfalls : entries.Pairwise fun e e' => e'.score ≤ e.score) {a b : DocId} (ha : a ∈ ids entries)
    (hlt : ∀ e ∈ entries, ∀ e' ∈ entries, e.docId = a → e'.docId = b → e'.score < e.score) :
    (ids entries).idxOf a < (ids entries).idxOf b := by
  induction entries with
  | nil => cases ha
  | cons e rest ih =>
    obtain ⟨hfirst, hrest⟩ := List.pairwise_cons.1 hfalls
    have hb : e.docId ≠ b := by
      intro heq
      obtain ⟨e', he', hid⟩ := List.mem_map.1 ha
      rcases List.mem_cons.1 he' with rfl | htail
      · exact (hlt e' he' e' he' hid heq).false
      · exact ((hfirst e' htail).trans_lt (hlt e' he' e List.mem_cons_self hid heq)).false
    rw [ids_cons, List.idxOf_cons_ne _ hb]
    by_cases heq : e.docId = a
    · rw [List.idxOf_cons_eq _ heq]
      exact Nat.succ_pos _
    · rw [List.idxOf_cons_ne _ heq]
      have htail : a ∈ ids rest := (List.mem_cons.1 ha).resolve_left (Ne.symm heq)
      exact Nat.succ_lt_succ (ih hrest htail fun e he e' he' =>
        hlt e (List.mem_cons_of_mem _ he) e' (List.mem_cons_of_mem _ he'))

end

/-- In exact arithmetic a document that dominates another one has no smaller fused score. If some
source that counts ranks it before the other one, or alone of the two, it also comes before the
other one in the fused order. -/
theorem fuse_dominates {K : Type} [Field K] [LinearOrder K] [IsStrictOrderedRing K] (log : K → K)
    {weights : PerSource K} (nonneg : ∀ s, 0 ≤ weights.get s) {k : K} (hk : 0 ≤ k)
    {rankings : PerSource (List (DocId × K))} (proper : Proper rankings) {a b : DocId}
    (dominates : Dominates rankings a b) :
    let fused := @fuse K (.exact log) weights k rankings
    (∀ e' ∈ fused, e'.docId = b → ∃ e ∈ fused, e.docId = a ∧ e'.score ≤ e.score) ∧
      (Excels weights rankings a b →
        a ∈ ids fused ∧ (ids fused).idxOf a < (ids fused).idxOf b) := by
  intro fused
  obtain ⟨-, hids⟩ := @ids_fuse K (.exact log) weights k rankings
  refine ⟨fun e' he' hb => ?_, fun excels => ?_⟩
  · obtain ⟨s, hranked⟩ := (hids b).1 (hb ▸ List.mem_map_of_mem he')
    obtain ⟨⟨_, rank⟩, hmem, rfl⟩ := List.mem_map.1 hranked
    obtain ⟨rank', hmem', -⟩ := dominates s rank hmem
    obtain ⟨e, he, ha⟩ := List.mem_map.1 ((hids a).2 ⟨s, List.mem_map_of_mem hmem'⟩)
    refine ⟨e, he, ha, ?_⟩
    rw [score_of_mem_fuse log proper he', score_of_mem_fuse log proper he, ha, hb]
    exact total_le_of_dominates proper hk nonneg dominates
  · have ha : a ∈ ids fused := by
      obtain ⟨s, -, rank, hmem, -⟩ := excels
      exact (hids a).2 ⟨s, List.mem_map_of_mem hmem⟩
    refine ⟨ha, idxOf_lt_of_score_lt (pairwise_score_fuse log weights k rankings) ha
      fun e he e' he' hid hid' => ?_⟩
    rw [score_of_mem_fuse log proper he, score_of_mem_fuse log proper he', hid, hid']
    exact total_lt_of_excels proper hk nonneg dominates excels

/-- One source ranks `a` before `b`, one that does not count ranks it alone, and one ranks it level
with `b`. -/
theorem fuse_dominates_of_overlap :
    let a : DocId := ("a" : String)
    let b : DocId := ("b" : String)
    let c : DocId := ("c" : String)
    let weights : PerSource ℚ := ⟨1 / 2, 0, 3 / 10⟩
    let rankings : PerSource (List (DocId × ℚ)) :=
      ⟨[(b, 3), (c, 2), (a, 1)], [(a, 4)], [(b, 2), (c, 1), (a, 2)]⟩
    let fused := @fuse ℚ (.exact id) weights 60 rankings
    (∀ s, 0 ≤ weights.get s) ∧ Proper rankings ∧ Dominates rankings a b ∧
      Excels weights rankings a b ∧ (ids fused).idxOf a < (ids fused).idxOf b := by
  intro a b c weights rankings fused
  have nonneg : ∀ s, 0 ≤ weights.get s := by
    intro s
    cases s <;> decide +kernel
  have proper : Proper rankings := by
    refine ⟨fun s => ?_, fun s => ?_⟩
    all_goals cases s <;> decide
  have hrank : ∀ s rank, (b, rank) ∈ rankings.get s → (rankings.get s).lookup b = some rank :=
    fun s rank => (lookup_eq_some_iff (proper.nodup s)).2
  have dominates : Dominates rankings a b := by
    intro s rank hmem
    have hlookup := hrank s rank hmem
    cases s with
    | bm25 =>
      obtain rfl : 3 = rank := Option.some.inj hlookup
      exact ⟨1, by decide, by decide⟩
    | semantic => cases hlookup
    | fuzzy =>
      obtain rfl : 2 = rank := Option.some.inj hlookup
      exact ⟨2, by decide, by decide⟩
  have excels : Excels weights rankings a b := by
    refine ⟨.bm25, by decide +kernel, 1, by decide, fun rank hmem => ?_⟩
    obtain rfl : 3 = rank := Option.some.inj (hrank .bm25 rank hmem)
    decide
  have hlt := (fuse_dominates id nonneg (by decide : (0 : ℚ) ≤ 60) proper dominates).2 excels
  exact ⟨nonneg, proper, dominates, excels, hlt.2⟩

end Quarry.Fusion
