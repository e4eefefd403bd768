import Quarry.Excerpt
import Quarry.Proofs.Excerpt.Spans

/-! Excerpts show what they highlight. The clusters of some spans part them without losing one, and
each extends over its own spans; so the text that is cut out around a cluster holds all of its
spans, and moving these by the offset of the cut leaves what stands there. -/

namespace Quarry

namespace Text

/-- A slice of a slice, put between two texts, is one of the whole. -/
theorem slice_between (t before after : Text) {start stop i j : Nat} (hi : start ≤ i) (hij : i ≤ j)
    (hj : j ≤ stop) (hlength : j ≤ t.length) :
    (before ++ t.slice start stop ++ after).slice (before.length + (i - start))
      (before.length + (j - start)) = t.slice i j := by
  have hinner : j - start ≤ (t.slice start stop).length := by
    rw [length_slice]
    omega
  rw [slice, List.append_assoc, List.take_length_add_append, List.drop_length_add_append,
    List.take_append_of_le_length hinner, slice, List.take_drop, List.take_take,
    List.drop_drop, slice,
    Nat.add_sub_cancel' hi, Nat.add_sub_cancel' (hi.trans hij), Nat.min_eq_left hj]

end Text

/-- A span moved along a text. -/
def Span.move (s : Span) (offset : Int) : Span := ⟨s.start + offset, s.stop + offset⟩

/-- A span that is moved as what is cut out of a text selects the same there. -/
theorem Text.piece_between (t before after : Text) {first last : Nat} {s : Span}
    (within : s.Within t.length) (hfirst : (first : Int) ≤ s.start) (hlast : s.stop ≤ last) :
    (s.move (before.length - first)).Within (before ++ t.slice first last ++ after).length ∧
      (before ++ t.slice first last ++ after).piece (s.move (before.length - first)) =
        t.piece s := by
  obtain ⟨hnonneg, hlt, hle⟩ := within
  have hcut : first ≤ s.start.toNat ∧ s.start.toNat ≤ s.stop.toNat ∧ s.stop.toNat ≤ last ∧
      s.stop.toNat ≤ t.length := by omega
  have hlength : (t.slice first last).length = min last t.length - first :=
    t.length_slice first last
  refine ⟨⟨?_, ?_, ?_⟩, ?_⟩
  · simp only [Span.move]
    omega
  · simp only [Span.move]
    omega
  · simp only [Span.move, List.length_append, hlength]
    omega
  · have hpiece := t.slice_between before after hcut.1 hcut.2.1 hcut.2.2.1 hcut.2.2.2
    rw [Text.piece, Text.piece, ← hpiece]
    congr 1 <;> (simp only [Span.move]; omega)

namespace Excerpt

variable (window : Int)

/-! ### Clusters -/

/-- A cluster has spans and extends over all of them. -/
structure Cluster.Covers (c : Cluster) : Prop where
  ne_nil : c.spans ≠ []
  inside : ∀ s ∈ c.spans, c.start ≤ s.start ∧ s.stop ≤ c.stop

theorem Cluster.covers_singleton (s : Span) : Cluster.Covers ⟨[s], s.start, s.stop⟩ where
  ne_nil := List.cons_ne_nil _ _
  inside s' hs' := by
    rw [List.mem_singleton.1 hs']
    exact ⟨Int.le_refl _, Int.le_refl _⟩

theorem Cluster.Covers.push {c : Cluster} (h : c.Covers) {s : Span} (hstart : c.start ≤ s.start) :
    Cluster.Covers { c with spans := c.spans ++ [s], stop := max c.stop s.stop } where
  ne_nil := List.append_ne_nil_of_left_ne_nil h.ne_nil _
  inside s' hs' := by
    rcases List.mem_append.1 hs' with hs' | hs'
    · have hinside := h.inside s' hs'
      exact ⟨hinside.1, Int.le_trans hinside.2 (Int.le_max_left ..)⟩
    · rw [List.mem_singleton.1 hs']
      exact ⟨hstart, Int.le_max_right ..⟩

theorem flatMap_spans_clusterFrom (current : Cluster) (spans : List Span) :
    (clusterFrom window current spans).flatMap (·.spans) = current.spans ++ spans := by
  induction spans generalizing current with
  | nil => simp [clusterFrom]
  | cons s rest ih =>
    rw [clusterFrom]
    split
    · rw [ih, List.append_assoc]
      rfl
    · rw [List.flatMap_cons, ih]
      rfl

/-- The clusters of some spans have all of them, in their order. -/
theorem flatMap_spans_clusters (spans : List Span) :
    (clusters window spans).flatMap (·.spans) = spans := by
  cases spans with
  | nil => rfl
  | cons s rest => exact flatMap_spans_clusterFrom window _ _

theorem covers_clusterFrom {current : Cluster} {spans : List Span} (hcurrent : current.Covers)
    (hstart : ∀ s ∈ spans, current.start ≤ s.start)
    (hsorted : spans.Pairwise fun a b => a.start ≤ b.start) :
    ∀ c ∈ clusterFrom window current spans, c.Covers := by
  induction spans generalizing current with
  | nil => simpa [clusterFrom] using hcurrent
  | cons s rest ih =>
    obtain ⟨hs, hrest⟩ := List.forall_mem_cons.1 hstart
    obtain ⟨hfirst, hsorted⟩ := List.pairwise_cons.1 hsorted
    rw [clusterFrom]
    split
    · exact ih (hcurrent.push hs) hrest hsorted
    · exact List.forall_mem_cons.2 ⟨hcurrent, ih (Cluster.covers_singleton s) hfirst hsorted⟩

theorem covers_clusters {spans : List Span}
    (hsorted : spans.Pairwise fun a b => a.start ≤ b.start) :
    ∀ c ∈ clusters window spans, c.Covers := by
  cases spans with
  | nil => exact fun c hc => nomatch hc
  | cons s rest =>
    obtain ⟨hfirst, hsorted⟩ := List.pairwise_cons.1 hsorted
    exact covers_clusterFrom window (Cluster.covers_singleton s) hfirst hsorted

theorem best?_eq_none_iff {cs : List Cluster} : best? cs = none ↔ cs = [] := by
  cases cs <;> simp [best?]

theorem mem_of_best? {cs : List Cluster} {c : Cluster} (h : best? cs = some c) : c ∈ cs := by
  have hfold : ∀ (rest : List Cluster) (best : Cluster),
      rest.foldl (fun best c => if c.beats best then c else best) best ∈ best :: rest := by
    intro rest
    induction rest with
    | nil => exact fun best => List.mem_singleton_self best
    | cons c rest ih =>
      intro best
      rw [List.foldl_cons]
      split
      · exact List.mem_cons_of_mem _ (ih c)
      · exact List.mem_cons.2 ((List.mem_cons.1 (ih best)).imp_right (List.mem_cons_of_mem _))
  cases cs with
  | nil => cases h
  | cons first rest =>
    cases h
    exact hfold rest first

/-! ### Highlights -/

variable {window : Int} {text : Text} {spans : List Span}

/-- The spans that an excerpt of a text may highlight. -/
def candidates (text : Text) (spans : List Span) : List Span :=
  Span.merge (spans.filter fun s => 0 ≤ s.start && s.stop ≤ (text.length : Int) && s.start < s.stop)

theorem within_of_mem_candidates : ∀ s ∈ candidates text spans, s.Within text.length := by
  refine Span.within_merge fun s hs => ?_
  obtain ⟨-, hs⟩ := List.mem_filter.1 hs
  simp only [Bool.and_eq_true, decide_eq_true_eq] at hs
  exact ⟨hs.1.1, hs.2, hs.1.2⟩

theorem candidates_eq_self (hapart : Span.Apart spans)
    (hwithin : ∀ s ∈ spans, s.Within text.length) :
    candidates text spans = spans := by
  have hfilter : (spans.filter fun s =>
      0 ≤ s.start && s.stop ≤ (text.length : Int) && s.start < s.stop) = spans := by
    refine List.filter_eq_self.2 fun s hs => ?_
    obtain ⟨hnonneg, hlt, hle⟩ := hwithin s hs
    simp [hnonneg, hlt, hle]
  rw [candidates, hfilter, Span.merge_eq_self hapart fun s hs => (hwithin s hs).lt.le]

theorem pairwise_candidates : (candidates text spans).Pairwise fun a b => a.start ≤ b.start := by
  refine List.Pairwise.imp_of_mem (fun {a b} ha _ hab => ?_) (Span.apart_merge _)
  exact Int.le_trans (Int.le_of_lt (within_of_mem_candidates a ha).lt) hab

section

variable {c : Cluster} (hbest : best? (clusters (max 1 window) (candidates text spans)) = some c)
include hbest

theorem covers_of_best : c.Covers ∧ ∀ s ∈ c.spans, s ∈ candidates text spans := by
  have hmem := mem_of_best? hbest
  refine ⟨covers_clusters _ pairwise_candidates c hmem, fun s hs => ?_⟩
  rw [← flatMap_spans_clusters (max 1 window) (candidates text spans)]
  exact List.mem_flatMap.2 ⟨c, hmem, hs⟩

theorem apart_of_best : Span.Apart c.spans := by
  have hapart : Span.Apart (candidates text spans) := Span.apart_merge _
  rw [← flatMap_spans_clusters (max 1 window) (candidates text spans), Span.Apart,
    List.pairwise_flatMap] at hapart
  exact hapart.1 c (mem_of_best? hbest)

/-- The cut around a cluster holds all of its spans. -/
theorem cut_of_best {s : Span} (hs : s ∈ c.spans) :
    s.Within text.length ∧ c.start ≤ s.start ∧ s.stop ≤ c.stop := by
  obtain ⟨hcovers, hcandidates⟩ := covers_of_best hbest
  exact ⟨within_of_mem_candidates s (hcandidates s hs), hcovers.inside s hs⟩

/-- The excerpt around a cluster is what is cut out, marked where the text goes on, and the spans of
the cluster moved along. -/
theorem extract_of_best : ∃ before after : Text, ∃ first last : Nat,
    extract text spans window = ⟨before ++ text.slice first last ++ after,
      c.spans.map (·.move (before.length - first))⟩ ∧
    (first : Int) = max 0 (c.start - max 1 window) ∧
    (last : Int) = min (text.length : Int) (c.stop + max 1 window) ∧
    before = (if 0 < first then ellipsis else []) ∧
    after = if last < text.length then ellipsis else [] := by
  obtain ⟨s, hs⟩ := List.exists_mem_of_ne_nil _ (covers_of_best hbest).1.ne_nil
  obtain ⟨⟨hnonneg, hlt, -⟩, -, hstop⟩ := cut_of_best hbest hs
  obtain ⟨first, hfirst⟩ : ∃ first : Nat, max 0 (c.start - max 1 window) = first :=
    Int.eq_ofNat_of_zero_le (by omega)
  obtain ⟨last, hlast⟩ : ∃ last : Nat, min (text.length : Int) (c.stop + max 1 window) = last :=
    Int.eq_ofNat_of_zero_le (by omega)
  refine ⟨_, _, first, last, ?_, hfirst.symm, hlast.symm, rfl, rfl⟩
  rw [candidates] at hbest
  rw [extract]
  simp only [hbest, hfirst, hlast, Int.natCast_pos, Int.ofNat_lt, Int.toNat_natCast]
  rfl

end

theorem highlights_eq_nil (hnone : best? (clusters (max 1 window) (candidates text spans)) = none) :
    (extract text spans window).highlights = [] := by
  rw [candidates] at hnone
  rw [extract, hnone]

/-- What an excerpt highlights stands in its text, and is what stands in the whole text at one of
the candidates. -/
theorem piece_of_mem_highlights {h : Span} (hmem : h ∈ (extract text spans window).highlights) :
    h.Within (extract text spans window).text.length ∧
      ∃ s ∈ candidates text spans, (extract text spans window).text.piece h = text.piece s := by
  cases hbest : best? (clusters (max 1 window) (candidates text spans)) with
  | none =>
    rw [highlights_eq_nil hbest] at hmem
    cases hmem
  | some c =>
    obtain ⟨before, after, first, last, heq, hfirst, hlast, -, -⟩ := extract_of_best hbest
    rw [heq] at hmem ⊢
    obtain ⟨s, hs, rfl⟩ := List.mem_map.1 hmem
    obtain ⟨hwithin, hleft, hright⟩ := cut_of_best hbest hs
    have hnonneg := hwithin.nonneg
    have hle := hwithin.le
    obtain ⟨hmoved, hpiece⟩ :=
      text.piece_between before after hwithin (by omega : (first : Int) ≤ s.start)
        (by omega : s.stop ≤ last)
    exact ⟨hmoved, s, (covers_of_best hbest).2 s hs, hpiece⟩

/-- What an excerpt highlights comes one behind the other. -/
theorem apart_highlights : Span.Apart (extract text spans window).highlights := by
  cases hbest : best? (clusters (max 1 window) (candidates text spans)) with
  | none =>
    rw [highlights_eq_nil hbest]
    exact .nil
  | some c =>
    obtain ⟨before, after, first, last, heq, -⟩ := extract_of_best hbest
    rw [heq]
    refine List.pairwise_map.2 ((apart_of_best hbest).imp fun {a b} hab => ?_)
    simp only [Span.move]
    omega

/-- An excerpt highlights something if there is a candidate. -/
theorem highlights_ne_nil (hne : candidates text spans ≠ []) :
    (extract text spans window).highlights ≠ [] := by
  cases hbest : best? (clusters (max 1 window) (candidates text spans)) with
  | none =>
    have hall := flatMap_spans_clusters (max 1 window) (candidates text spans)
    rw [best?_eq_none_iff.1 hbest] at hall
    exact absurd hall.symm hne
  | some c =>
    obtain ⟨before, after, first, last, heq, -⟩ := extract_of_best hbest
    rw [heq, Ne, List.map_eq_nil_iff]
    exact (covers_of_best hbest).1.ne_nil

/-- An excerpt highlights something, and each highlight is a piece of the text that is, in lower
case, one of some terms. -/
structure Shows (t : Text) (terms : List Term) (e : Excerpt) : Prop where
  highlights_ne_nil : e.highlights ≠ []
  within : ∀ h ∈ e.highlights, h.Within e.text.length
  piece : ∀ h ∈ e.highlights, ∃ s : Span, s.Within t.length ∧ e.text.piece h = t.piece s
  lower_piece : ∀ h ∈ e.highlights, (e.text.piece h).lower ∈ terms

/-- The excerpt around the terms that are located in a text shows them, if there is one. -/
theorem shows_locate {t : Text} {wanted : List Term} {token : Token} (htoken : token ∈ t.tokens)
    (hwanted : token.term ∈ wanted) (window : Int) :
    (extract t (t.locate wanted) window).Shows t wanted := by
  have hcandidates : candidates t (t.locate wanted) = t.locate wanted := by
    rw [Text.locate_eq]
    exact candidates_eq_self (t.apart_ofTokens wanted) (t.within_ofTokens wanted)
  refine ⟨highlights_ne_nil ?_, fun h hh => (piece_of_mem_highlights hh).1, fun h hh => ?_,
    fun h hh => ?_⟩
  · rw [hcandidates]
    exact Text.locate_ne_nil htoken hwanted
  all_goals obtain ⟨-, s, hs, hpiece⟩ := piece_of_mem_highlights hh
  · exact ⟨s, within_of_mem_candidates s hs, hpiece⟩
  · rw [hcandidates] at hs
    rw [hpiece]
    exact Text.lower_piece_of_mem_locate hs

end Excerpt
end Quarry
