import Mathlib
import Quarry.Proofs.Excerpt.Clusters

/-! What an excerpt shows of a text. From left to right the spans fall into runs of near ones, each
as long as it can be; there is one way to part them so, and the clusters are these runs. The excerpt
is cut out around the run with the most spans, of such runs the narrowest, and of these
the first. -/

namespace Quarry.Excerpt

/-- Spans that follow one another. -/
structure Run where
  spans : List Span
  ne_nil : spans ≠ []

namespace Run

def first (r : Run) : Span := r.spans.head r.ne_nil

def last (r : Run) : Span := r.spans.getLast r.ne_nil

/-- How much of the text a run takes up, from its first span to its last. -/
def extent (r : Run) : Int := r.last.stop - r.first.start

def single (s : Span) : Run := ⟨[s], List.cons_ne_nil _ _⟩

def push (r : Run) (s : Span) : Run :=
  ⟨r.spans ++ [s], List.append_ne_nil_of_right_ne_nil _ (List.cons_ne_nil _ _)⟩

@[simp] theorem first_push (r : Run) (s : Span) :
    (r.push s).first = r.first := List.head_append_of_ne_nil _

@[simp] theorem last_push (r : Run) (s : Span) : (r.push s).last = s := List.getLast_concat

/-- The spans of a run are near: neighbours at most a window apart, and all of them within two
windows unless there is only one. -/
structure Fits (window : Int) (r : Run) : Prop where
  near : r.spans.IsChain fun a b => b.start - a.stop ≤ window
  narrow : r.spans.length = 1 ∨ r.extent ≤ 2 * window

theorem fits_single (window : Int) (s : Span) : (single s).Fits window := ⟨.singleton _, .inl rfl⟩

theorem fits_push_iff {window : Int} {r : Run} (h : r.Fits window) {s : Span} :
    (r.push s).Fits window ↔ s.start - r.last.stop ≤ window ∧
      s.stop - r.first.start ≤ 2 * window := by
  have hnear : (r.push s).spans.IsChain (fun a b => b.start - a.stop ≤ window) ↔
      s.start - r.last.stop ≤ window := by
    rw [push, List.isChain_append, List.getLast?_eq_some_getLast r.ne_nil]
    simp only [h.near, List.isChain_singleton, List.head?_cons, Option.mem_some,
      true_and, forall_eq']
    rfl
  have hlength : (r.push s).spans.length ≠ 1 := by
    have := List.length_pos_of_ne_nil r.ne_nil
    rw [push, List.length_append, List.length_singleton]
    omega
  have hextent : (r.push s).extent = s.stop - r.first.start := by rw [extent, last_push, first_push]
  rw [← hnear, ← hextent]
  exact ⟨fun h => ⟨h.near, h.narrow.resolve_left hlength⟩, fun h => ⟨h.1, .inr h.2⟩⟩

theorem Fits.exists_extent_le {window : Int} {r : Run} (h : r.Fits window) :
    ∃ s ∈ r.spans, r.extent ≤ max (2 * window) (s.stop - s.start) := by
  rcases h.narrow with hone | hnarrow
  · obtain ⟨s, hs⟩ := List.length_eq_one_iff.1 hone
    have hfirst : r.first = s := by simp only [first, hs, List.head_cons]
    have hlast : r.last = s := by simp only [last, hs, List.getLast_singleton]
    refine ⟨s, hs ▸ List.mem_singleton_self s, ?_⟩
    rw [extent, hfirst, hlast]
    exact Int.le_max_right ..
  · exact ⟨r.first, List.head_mem _, Int.le_trans hnarrow (Int.le_max_left ..)⟩

/-- A run comes before another in the choice: it has more spans, or as many and takes up less of the
text, or as much and is in front of it. -/
def Preferred (a b : Run) : Prop :=
  b.spans.length < a.spans.length ∨ a.spans.length = b.spans.length ∧
    (a.extent < b.extent ∨ a.extent = b.extent ∧ a.first.start < b.first.start)

theorem Preferred.trans {a b c : Run} (hab : a.Preferred b) (hbc : b.Preferred c) :
    a.Preferred c := by
  simp only [Preferred] at *
  omega

def cluster (r : Run) : Cluster := ⟨r.spans, r.first.start, r.last.stop⟩

theorem beats_cluster_iff {a b : Run} : a.cluster.beats b.cluster = true ↔
    b.spans.length < a.spans.length ∨ a.spans.length = b.spans.length ∧ a.extent < b.extent := by
  rw [Cluster.beats, Bool.or_eq_true, Bool.and_eq_true, beq_iff_eq, decide_eq_true_eq,
    decide_eq_true_eq]
  rfl

end Run

/-- The runs that spans fall into from left to right: near ones together, and each run as long as
it can be. -/
structure Greedy (window : Int) (spans : List Span) (runs : List Run) : Prop where
  flat : runs.flatMap (·.spans) = spans
  fits : ∀ r ∈ runs, r.Fits window
  full : runs.IsChain fun r next => ¬(r.push next.first).Fits window

/-! ### Clusters are runs -/

variable {window : Int}

theorem exists_greedy_clusterFrom {r : Run} {spans : List Span} (fits : r.Fits window)
    (apart : Span.Apart (r.spans ++ spans)) (lt : ∀ s ∈ spans, s.start < s.stop) :
    ∃ runs, clusterFrom window r.cluster spans = runs.map Run.cluster ∧
      Greedy window (r.spans ++ spans) runs ∧ ∀ r' ∈ runs.head?, r'.first = r.first := by
  induction spans generalizing r with
  | nil =>
    refine ⟨[r], rfl, ⟨rfl, List.forall_mem_singleton.2 fits, .singleton r⟩, fun r' hr' => ?_⟩
    rw [Option.mem_some.1 hr']
  | cons s rest ih =>
    obtain ⟨hs, hrest⟩ := List.forall_mem_cons.1 lt
    obtain ⟨-, hbehind, hcross⟩ := List.pairwise_append.1 apart
    rw [clusterFrom]
    split
    case isTrue hnear =>
      have hstop : max r.last.stop s.stop = s.stop := by
        have := hcross r.last (List.getLast_mem _) s List.mem_cons_self
        omega
      have hpush : r.spans ++ s :: rest = (r.push s).spans ++ rest := List.append_cons ..
      have hcluster : (r.push s).cluster =
          ⟨r.spans ++ [s], r.first.start, max r.last.stop s.stop⟩ := by
        rw [Run.cluster, Run.first_push, Run.last_push, hstop]
        rfl
      have hgrown := ih ((Run.fits_push_iff fits).2 hnear) (hpush ▸ apart) hrest
      rw [hcluster, Run.first_push, ← hpush] at hgrown
      exact hgrown
    case isFalse hfar =>
      obtain ⟨runs, heq, hgreedy, hfirst⟩ := ih (Run.fits_single window s) hbehind hrest
      refine ⟨r :: runs, congrArg _ heq, ⟨?_, List.forall_mem_cons.2 ⟨fits, hgreedy.fits⟩, ?_⟩,
        fun r' hr' => ?_⟩
      · rw [List.flatMap_cons, hgreedy.flat]
        rfl
      · refine List.isChain_cons.2 ⟨fun next hnext => ?_, hgreedy.full⟩
        rw [hfirst next hnext]
        exact mt (Run.fits_push_iff fits).1 hfar
      · rw [Option.mem_some.1 hr']

/-- Of spans that are apart the clusters are the runs they fall into. -/
theorem exists_greedy_clusters {spans : List Span} (apart : Span.Apart spans)
    (lt : ∀ s ∈ spans, s.start < s.stop) :
    ∃ runs, clusters window spans = runs.map Run.cluster ∧ Greedy window spans runs := by
  cases spans with
  | nil => exact ⟨[], rfl, ⟨rfl, (fun r hr => nomatch hr), .nil⟩⟩
  | cons s rest =>
    obtain ⟨runs, heq, hgreedy, -⟩ := exists_greedy_clusterFrom (Run.fits_single window s) apart
      (List.forall_mem_cons.1 lt).2
    exact ⟨runs, heq, hgreedy⟩

theorem Greedy.pairwise_first {spans : List Span} {runs : List Run} (h : Greedy window spans runs)
    (apart : Span.Apart spans) (lt : ∀ s ∈ spans, s.start < s.stop) :
    runs.Pairwise fun a b => a.first.start < b.first.start := by
  rw [← h.flat, Span.Apart, List.pairwise_flatMap] at apart
  refine apart.2.imp_of_mem fun {a b} ha _ hab => ?_
  have hmem : a.first ∈ spans := h.flat ▸ List.mem_flatMap.2 ⟨a, ha, List.head_mem _⟩
  exact Int.lt_of_lt_of_le (lt _ hmem) (hab a.first (List.head_mem _) b.first (List.head_mem _))

/-! ### The runs are determined -/

/-- The beginning of a run that fits, fits. -/
theorem Run.Fits.push_of_append {r r' : Run} {s : Span} {behind : List Span} (fits : r'.Fits window)
    (heq : r'.spans = r.spans ++ s :: behind) (apart : Span.Apart r'.spans)
    (lt : ∀ s ∈ r'.spans, s.start < s.stop) : (r.push s).Fits window := by
  have hsplit : r'.spans = (r.push s).spans ++ behind := by rw [heq, List.append_cons]; rfl
  have hnear := fits.near
  have hnarrow : r'.extent ≤ 2 * window := fits.narrow.resolve_left fun hone => by
    have := List.length_pos_of_ne_nil r.ne_nil
    rw [heq, List.length_append, List.length_cons] at hone
    omega
  have hfirst : r'.first = r.first := by
    simp only [Run.first, heq, List.head_append_of_ne_nil r.ne_nil]
  have hlast : s.stop ≤ r'.last.stop := by
    have hmem : r'.last ∈ s :: behind := by
      simp only [Run.last, heq, List.getLast_append_of_ne_nil _ (List.cons_ne_nil s behind)]
      exact List.getLast_mem _
    rcases List.mem_cons.1 hmem with hself | hbehind
    · exact Int.le_of_eq (congrArg Span.stop hself.symm)
    · rw [heq] at apart
      have := (List.pairwise_cons.1 (List.pairwise_append.1 apart).2.1).1 _ hbehind
      have := lt r'.last (List.getLast_mem _)
      omega
  rw [hsplit] at hnear
  refine ⟨(List.isChain_append.1 hnear).1, .inr ?_⟩
  rw [Run.extent, Run.first_push, Run.last_push]
  rw [Run.extent, hfirst] at hnarrow
  omega

section

variable {spans : List Span} (apart : Span.Apart spans) (lt : ∀ s ∈ spans, s.start < s.stop)
include apart lt

theorem Greedy.first_eq_of_le {r r' : Run} {runs runs' : List Run}
    (h : Greedy window spans (r :: runs)) (h' : Greedy window spans (r' :: runs'))
    (hle : r.spans.length ≤ r'.spans.length) : r = r' := by
  have hflat := h.flat
  have hflat' := h'.flat
  rw [List.flatMap_cons] at hflat hflat'
  obtain ⟨behind, hbehind⟩ := List.prefix_of_prefix_length_le ⟨_, hflat⟩ ⟨_, hflat'⟩ hle
  cases behind with
  | nil =>
    rw [List.append_nil] at hbehind
    cases r
    cases r'
    cases hbehind
    rfl
  | cons s behind =>
    -- The other run goes on with the first span of the next one, which would have fitted.
    rw [← hflat', ← hbehind, List.append_assoc, List.append_cancel_left_eq] at hflat
    cases runs with
    | nil => cases hflat
    | cons next runs =>
      have hnext : next.first = s := by
        obtain ⟨_ | ⟨first, rest⟩, hne⟩ := next
        · exact absurd rfl hne
        · exact (List.cons_eq_cons.1 hflat).1
      have hfull := (List.isChain_cons_cons.1 h.full).1
      rw [hnext] at hfull
      rw [← hflat'] at apart lt
      exact absurd ((h'.fits r' List.mem_cons_self).push_of_append hbehind.symm
        (List.pairwise_append.1 apart).1 fun s hs => lt s (List.mem_append_left _ hs)) hfull

end

theorem Greedy.unique {spans : List Span} {runs runs' : List Run} (apart : Span.Apart spans)
    (lt : ∀ s ∈ spans, s.start < s.stop) (h : Greedy window spans runs)
    (h' : Greedy window spans runs') :
    runs = runs' := by
  induction runs generalizing spans runs' with
  | nil =>
    cases runs' with
    | nil => rfl
    | cons r' runs' =>
      have hflat := h'.flat.trans h.flat.symm
      rw [List.flatMap_cons] at hflat
      exact absurd (List.append_eq_nil_iff.1 hflat).1 r'.ne_nil
  | cons r runs ih =>
    cases runs' with
    | nil =>
      have hflat := h.flat.trans h'.flat.symm
      rw [List.flatMap_cons] at hflat
      exact absurd (List.append_eq_nil_iff.1 hflat).1 r.ne_nil
    | cons r' runs' =>
      obtain rfl : r = r' := (Nat.le_total r.spans.length r'.spans.length).elim
        (h.first_eq_of_le apart lt h') fun hle => (h'.first_eq_of_le apart lt h hle).symm
      have hflat := h'.flat.trans h.flat.symm
      rw [List.flatMap_cons, List.flatMap_cons, List.append_cancel_left_eq] at hflat
      rw [← h.flat, List.flatMap_cons] at apart lt
      rw [ih (List.pairwise_append.1 apart).2.1 (fun s hs => lt s (List.mem_append_right _ hs))
        ⟨rfl, (List.forall_mem_cons.1 h.fits).2, (List.isChain_cons.1 h.full).2⟩
        ⟨hflat, (List.forall_mem_cons.1 h'.fits).2, (List.isChain_cons.1 h'.full).2⟩]

/-! ### The choice -/

/-- Going through runs from left to right, the most preferred one is kept. -/
theorem exists_foldl_beats_eq {best : Run} {runs : List Run}
    (ordered : (best :: runs).Pairwise fun a b => a.first.start < b.first.start) :
    ∃ r ∈ best :: runs,
      (runs.map Run.cluster).foldl (fun best c => if c.beats best then c else best)
        best.cluster = r.cluster ∧ ∀ x ∈ best :: runs, x = r ∨ r.Preferred x := by
  induction runs generalizing best with
  | nil => exact ⟨best, List.mem_cons_self, rfl, fun x hx => .inl (List.mem_singleton.1 hx)⟩
  | cons next rest ih =>
    obtain ⟨hbest, hrest⟩ := List.pairwise_cons.1 ordered
    obtain ⟨hfirst, hbest⟩ := List.forall_mem_cons.1 hbest
    rw [List.map_cons, List.foldl_cons]
    split
    case isTrue hbeats =>
      rw [Run.beats_cluster_iff] at hbeats
      have hpreferred : next.Preferred best := hbeats.imp_right fun h => ⟨h.1, .inl h.2⟩
      obtain ⟨r, hr, heq, hall⟩ := ih hrest
      refine ⟨r, List.mem_cons_of_mem _ hr, heq, List.forall_mem_cons.2 ⟨.inr ?_, hall⟩⟩
      rcases hall next List.mem_cons_self with rfl | hnext
      · exact hpreferred
      · exact hnext.trans hpreferred
    case isFalse hbeats =>
      rw [Run.beats_cluster_iff] at hbeats
      have hpreferred : best.Preferred next := by
        rw [Run.Preferred]
        omega
      obtain ⟨r, hr, heq, hall⟩ := ih (List.pairwise_cons.2 ⟨hbest, (List.pairwise_cons.1 hrest).2⟩)
      obtain ⟨hkept, hall⟩ := List.forall_mem_cons.1 hall
      refine ⟨r, ?_, heq, List.forall_mem_cons.2 ⟨hkept, List.forall_mem_cons.2 ⟨.inr ?_, hall⟩⟩⟩
      · exact (List.mem_cons.1 hr).elim (· ▸ List.mem_cons_self) fun h => by simp [h]
      · rcases hkept with rfl | hkept
        · exact hpreferred
        · exact hkept.trans hpreferred

/-- The run that an excerpt is cut out around. -/
theorem exists_best?_eq {spans : List Span} {runs : List Run} (h : Greedy window spans runs)
    (apart : Span.Apart spans) (lt : ∀ s ∈ spans, s.start < s.stop) (hne : runs ≠ []) :
    ∃ r ∈ runs, best? (runs.map Run.cluster) = some r.cluster ∧ ∀ x ∈ runs, x = r ∨
      r.Preferred x := by
  have hordered := h.pairwise_first apart lt
  cases runs with
  | nil => exact absurd rfl hne
  | cons first runs =>
    obtain ⟨r, hr, heq, hall⟩ := exists_foldl_beats_eq hordered
    exact ⟨r, hr, congrArg some heq, hall⟩

/-! ### What is shown -/

/-- An excerpt of a text shows a run: it is what stands from a window in front of the run to a
window behind it, as far as the text goes, with an ellipsis on each side that is cut off, and the
spans of the run are highlighted where they have come to stand. -/
structure ShowsRun (text : Text) (window : Int) (r : Run) (e : Excerpt) : Prop where
  cut : ∃ before after : Text, ∃ first last : Nat,
    e = ⟨before ++ text.slice first last ++ after, r.spans.map (·.move (before.length - first))⟩ ∧
    (first : Int) = max 0 (r.first.start - window) ∧
    (last : Int) = min (text.length : Int) (r.last.stop + window) ∧
    before = (if 0 < first then ellipsis else []) ∧
      after = if last < text.length then ellipsis else []
  pieces : List.Forall₂ (fun h s => h.Within e.text.length ∧ e.text.piece h = text.piece s)
    e.highlights r.spans
  ordered : e.highlights.Pairwise fun a b => a.start < b.start ∧ a.stop ≤ b.start
  length_le : ∃ s ∈ r.spans, (e.text.length : Int) ≤
    max (2 * window) (s.stop - s.start) + 2 * window + 2

variable {text : Text} {spans : List Span}

theorem showsRun_of_best {r : Run} (hw : 1 ≤ window)
    (hbest : best? (clusters (max 1 window) (candidates text spans)) = some r.cluster)
    (fits : r.Fits window) (apart : Span.Apart r.spans) :
    ShowsRun text window r (extract text spans window) := by
  obtain ⟨before, after, first, last, heq, hfirst, hlast, hbefore, hafter⟩ := extract_of_best hbest
  rw [Int.max_eq_right hw] at hfirst hlast
  replace hfirst : (first : Int) = max 0 (r.first.start - window) := hfirst
  replace hlast : (last : Int) = min (text.length : Int) (r.last.stop + window) := hlast
  have hcut : ∀ s ∈ r.spans, s.Within text.length ∧ r.first.start ≤ s.start ∧
      s.stop ≤ r.last.stop :=
    fun s hs => cut_of_best hbest hs
  rw [heq]
  refine ⟨⟨before, after, first, last, rfl, hfirst, hlast, hbefore, hafter⟩, ?_, ?_, ?_⟩
  · refine List.forall₂_map_left_iff.2 (List.forall₂_same.2 fun s hs => ?_)
    obtain ⟨hwithin, hleft, hright⟩ := hcut s hs
    have hnonneg := hwithin.nonneg
    have hle := hwithin.le
    exact text.piece_between before after hwithin (by omega) (by omega)
  · refine List.pairwise_map.2 (apart.imp_of_mem fun {a b} ha _ hab => ?_)
    have hlt := (hcut a ha).1.lt
    simp only [Span.move]
    omega
  · obtain ⟨s, hs, hextent⟩ := fits.exists_extent_le
    have hmarks : before.length ≤ 1 ∧ after.length ≤ 1 := by
      rw [hbefore, hafter]
      constructor <;> split <;> decide
    have hlength : (text.slice first last).length = min last text.length - first :=
      text.length_slice first last
    rw [Run.extent] at hextent
    refine ⟨s, hs, ?_⟩
    simp only [List.length_append, hlength]
    omega

theorem extract_of_candidates_eq_nil (hw : 1 ≤ window) (hnil : candidates text spans = []) :
    extract text spans window =
      ⟨text.take (2 * window).toNat ++ if 2 * window < text.length then ellipsis else [], []⟩ := by
  rw [candidates] at hnil
  rw [extract]
  simp only [hnil, clusters, best?, Int.max_eq_right hw, List.length_take]
  congr 1
  split
  case isTrue hcut => rw [if_pos (by omega)]
  case isFalse hcut => rw [if_neg (by omega), List.append_nil]

/-- Excerpts are faithful. Without a span to show, the excerpt is the beginning of the text.
Otherwise it shows the run of spans that is preferred to all others, out of the runs into which the
spans fall in one way. -/
theorem extract_faithful (text : Text) (spans : List Span) {window : Int} (hw : 1 ≤ window) :
    (candidates text spans = [] → extract text spans window =
      ⟨text.take (2 * window).toNat ++ if 2 * window < text.length then ellipsis else [], []⟩) ∧
    (candidates text spans ≠ [] →
      ∃ runs, (∀ runs', Greedy window (candidates text spans) runs' ↔ runs' = runs) ∧
        ∃ r ∈ runs, (∀ x ∈ runs, x = r ∨ r.Preferred x) ∧
          ShowsRun text window r (extract text spans window)) := by
  refine ⟨extract_of_candidates_eq_nil hw, fun hne => ?_⟩
  have hapart : Span.Apart (candidates text spans) := Span.apart_merge _
  have hlt : ∀ s ∈ candidates text spans, s.start < s.stop :=
    fun s hs => (within_of_mem_candidates s hs).lt
  obtain ⟨runs, hclusters, hgreedy⟩ :
      ∃ runs, clusters window (candidates text spans) = runs.map Run.cluster ∧
        Greedy window (candidates text spans) runs := exists_greedy_clusters hapart hlt
  have hruns : runs ≠ [] := by
    rintro rfl
    exact hne hgreedy.flat.symm
  obtain ⟨r, hr, hbest, hall⟩ := exists_best?_eq hgreedy hapart hlt hruns
  refine ⟨runs, fun runs' => ⟨fun h => h.unique hapart hlt hgreedy, fun h => h ▸ hgreedy⟩, r,
    hr, hall, ?_⟩
  rw [← hgreedy.flat, Span.Apart, List.pairwise_flatMap] at hapart
  exact showsRun_of_best hw (by rw [Int.max_eq_right hw, hclusters, hbest]) (hgreedy.fits r hr)
    (hapart.1 r hr)

/-- Spans out of order, overlapping and touching ones, one that is wider than two windows, empty
ones and ones that are not within the text. Of the runs of two spans the narrower one is shown. -/
theorem extract_faithful_of_mixed :
    let text : Text := ("ab cd efghijklmnopqrstuvwx yz 0123456789" : String)
    let spans : List Span :=
      [⟨6, 18⟩, ⟨27, 28⟩, ⟨0, 2⟩, ⟨1, 3⟩, ⟨4, 5⟩, ⟨28, 29⟩, ⟨9, 9⟩, ⟨-1, 2⟩, ⟨38, 41⟩]
    (1 : Int) ≤ 2 ∧ candidates text spans = [⟨0, 3⟩, ⟨4, 5⟩, ⟨6, 18⟩, ⟨27, 28⟩, ⟨28, 29⟩] ∧
      extract text spans 2 = ⟨("…x yz 0…" : String), [⟨3, 4⟩, ⟨4, 5⟩]⟩ ∧
      ∃ runs, (∀ runs', Greedy 2 (candidates text spans) runs' ↔ runs' = runs) ∧
        ∃ r ∈ runs, (∀ x ∈ runs, x = r ∨ r.Preferred x) ∧
          ShowsRun text 2 r (extract text spans 2) :=
  ⟨by decide, by cbv, by cbv, (extract_faithful _ _ (by decide)).2 (by decide_cbv)⟩

end Quarry.Excerpt
