import Quarry.Proofs.Excerpt.Clusters
import Quarry.Proofs.Text.Runs

/-! Excerpts in pieces. Each piece goes on where the one before it stops, so that the pieces give
back the text in whichever order the highlights come and however far they reach. Where the
highlights are apart and stand in the text, as in what is cut out of a text, the pieces give back
the whole excerpt. -/

namespace Quarry

/-! ### Cuts -/

namespace Text

theorem cut_self (t : Text) (i : Int) : t.cut i i = [] := by
  refine List.eq_nil_of_length_eq_zero ?_
  rw [cut, length_slice]
  omega

variable (t : Text) {start stop : Int} (hstart : 0 ≤ start) (hstop : start ≤ stop)
include hstart hstop

theorem cut_eq_slice : t.cut start stop = t.slice start.toNat stop.toNat := by
  rw [cut, t.offsetAt_of_nonneg hstart, t.offsetAt_of_nonneg (Int.le_trans hstart hstop)]

/-- What stands behind a cut goes on with it, also where the cut overruns the text. -/
theorem cut_append_drop : t.cut start stop ++ t.drop stop.toNat = t.drop start.toNat := by
  have hsum : stop.toNat = start.toNat + (stop.toNat - start.toNat) := by omega
  rw [t.cut_eq_slice hstart hstop, slice, hsum, List.drop_take, Nat.add_sub_cancel_left]
  exact List.drop_take_append_drop ..

theorem add_length_cut (hlength : stop ≤ t.length) : start + (t.cut start stop).length = stop := by
  rw [t.cut_eq_slice hstart hstop, length_slice]
  omega

end Text

namespace Excerpt

/-! ### Pieces put together -/

/-- What is highlighted by pieces that stand in a text from an offset on. -/
def highlightsFrom (offset : Int) : List Part → List Span
  | [] => []
  | p :: rest =>
    (if p.highlighted then [⟨offset, offset + p.text.length⟩] else []) ++
      highlightsFrom (offset + p.text.length) rest

/-- The excerpt that pieces give when they are put together. -/
def ofParts (parts : List Part) : Excerpt := ⟨(parts.map (·.text)).flatten, highlightsFrom 0 parts⟩

/-- The highlights of pieces put together select the highlighted ones. -/
theorem map_piece_ofParts (parts : List Part) :
    (ofParts parts).highlights.map (ofParts parts).text.piece =
      (parts.filter (·.highlighted)).map (·.text) := by
  have hbehind : ∀ before : Text, (highlightsFrom before.length parts).map
      (before ++ (parts.map (·.text)).flatten).piece =
        (parts.filter (·.highlighted)).map (·.text) := by
    induction parts with
    | nil => exact fun _ => rfl
    | cons p rest ih =>
      intro before
      have hpiece : (before ++ p.text ++ (rest.map (·.text)).flatten).piece
          ⟨before.length, before.length + p.text.length⟩ = p.text :=
            Text.slice_append before p.text _
      have hrest := ih (before ++ p.text)
      rw [List.length_append, Int.natCast_add] at hrest
      rw [highlightsFrom, List.map_append, List.map_cons, List.flatten_cons,
        ← List.append_assoc, hrest, List.filter_cons]
      split
      · rw [List.map_singleton, hpiece]
        rfl
      · rfl
  exact hbehind []

/-! ### Splitting -/

section

variable {t : Text} {offset : Int} {highlights : List Span} (hoffset : 0 ≤ offset)
include hoffset

/-- The pieces of what is left of a text give it back. -/
theorem flatten_splitFrom (hproper : ∀ h ∈ highlights, h.start ≤ h.stop) :
    ((splitFrom t offset highlights).map (·.text)).flatten = t.drop offset.toNat := by
  induction highlights generalizing offset with
  | nil =>
    rw [splitFrom]
    split
    case isTrue => simp [t.offsetAt_of_nonneg hoffset]
    case isFalse hend => exact (List.drop_eq_nil_of_le (by omega)).symm
  | cons h rest ih =>
    obtain ⟨hstop, hrest⟩ := List.forall_mem_cons.1 hproper
    rw [splitFrom]
    split
    case isTrue => exact ih hoffset hrest
    case isFalse hnext =>
      have hstart : offset ≤ h.start := Int.not_lt.1 hnext
      have hnonneg : 0 ≤ h.start := Int.le_trans hoffset hstart
      -- Where a highlight goes on with the one before it, no plain piece stands between them.
      have hplain : ((if offset < h.start then [Part.mk (t.cut offset h.start) false] else []).map
          (·.text)).flatten = t.cut offset h.start := by
        split
        case isTrue => exact List.append_nil _
        case isFalse htouch =>
          obtain rfl : offset = h.start := by omega
          rw [t.cut_self]
          rfl
      rw [List.map_append, List.flatten_append, hplain, List.map_cons, List.flatten_cons,
        ih (Int.le_trans hnonneg hstop) hrest, t.cut_append_drop hnonneg hstop,
        t.cut_append_drop hoffset hstart]

/-- Of highlights that come one behind the other none is passed over, and each is found again. -/
theorem highlightsFrom_splitFrom (hapart : Span.Apart highlights)
    (hwithin : ∀ h ∈ highlights, h.Within t.length) (hbehind : ∀ h ∈ highlights, offset ≤ h.start) :
    highlightsFrom offset (splitFrom t offset highlights) = highlights := by
  induction highlights generalizing offset with
  | nil =>
    rw [splitFrom]
    split <;> rfl
  | cons h rest ih =>
    obtain ⟨⟨hnonneg, hlt, hle⟩, hrest⟩ := List.forall_mem_cons.1 hwithin
    obtain ⟨hnext, hapart⟩ := List.pairwise_cons.1 hapart
    have hstart : offset ≤ h.start := hbehind h List.mem_cons_self
    have hlength : h.start + (t.cut h.start h.stop).length = h.stop :=
      t.add_length_cut hnonneg hlt.le hle
    have hplain (parts : List Part) : highlightsFrom offset
        ((if offset < h.start then [Part.mk (t.cut offset h.start) false] else []) ++ parts) =
          highlightsFrom h.start parts := by
      split
      case isTrue =>
        have hgap : offset + (t.cut offset h.start).length = h.start :=
          t.add_length_cut hoffset hstart (by omega)
        rw [List.singleton_append, highlightsFrom, hgap]
        rfl
      case isFalse htouch =>
        obtain rfl : offset = h.start := by omega
        rfl
    rw [splitFrom, if_neg (Int.not_lt.2 hstart), hplain, highlightsFrom, hlength,
      ih (by omega) hapart hrest hnext]
    rfl

end

/-- An excerpt whose highlights are apart and stand in its text is split without loss. -/
theorem ofParts_split {e : Excerpt} (hapart : Span.Apart e.highlights)
    (hwithin : ∀ h ∈ e.highlights, h.Within e.text.length) : ofParts e.split = e := by
  have htext : (e.split.map (·.text)).flatten = e.text :=
    flatten_splitFrom (Int.le_refl 0) fun h hh => (hwithin h hh).lt.le
  have hhighlights : highlightsFrom 0 e.split = e.highlights :=
    highlightsFrom_splitFrom (Int.le_refl 0) hapart hwithin fun h hh => (hwithin h hh).nonneg
  rw [ofParts, htext, hhighlights]

/-- Excerpts are split without loss. In whichever order the highlights come, also where they
overlap, begin before the text or overrun it, the pieces give back the text. What is cut out of a
text has the highlighted pieces that its highlights select, in their order and where these stand, so
that the pieces give back the whole excerpt. -/
theorem split_lossless :
    (∀ e : Excerpt, (∀ h ∈ e.highlights, h.start ≤ h.stop) →
      (e.split.map (·.text)).flatten = e.text) ∧
    ∀ (text : Text) (spans : List Span) (window : Int),
      let e := extract text spans window
      (e.split.filter (·.highlighted)).map (·.text) = e.highlights.map e.text.piece ∧
        ofParts e.split = e := by
  refine ⟨fun e hproper => flatten_splitFrom (Int.le_refl 0) hproper, fun text spans window => ?_⟩
  intro e
  have hwhole : ofParts e.split = e :=
    ofParts_split apart_highlights fun h hh => (piece_of_mem_highlights hh).1
  refine ⟨?_, hwhole⟩
  rw [← map_piece_ofParts, hwhole]

/-- Highlights out of order that overlap, that touch, that are empty and that overrun the text. -/
theorem split_lossless_mixed :
    let e : Excerpt := ⟨("use alpha" : String), [⟨4, 6⟩, ⟨0, 3⟩, ⟨5, 8⟩, ⟨6, 6⟩, ⟨7, 12⟩, ⟨14, 18⟩]⟩
    (∀ h ∈ e.highlights, h.start ≤ h.stop) ∧
      e.split = [⟨("use " : String), false⟩, ⟨("al" : String), true⟩, ⟨[], true⟩,
        ⟨("p" : String), false⟩, ⟨("ha" : String), true⟩, ⟨[], false⟩, ⟨[], true⟩] ∧
      (e.split.map (·.text)).flatten = e.text :=
  ⟨by decide, by decide, split_lossless.1 _ (by decide)⟩

end Excerpt
end Quarry
