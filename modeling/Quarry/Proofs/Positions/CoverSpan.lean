import Mathlib.Algebra.Order.Ring.Int
import Mathlib.Algebra.Order.Sub.Basic
import Mathlib.Data.Finset.Range
import Mathlib.Data.Finset.Card
import Mathlib.Data.List.Forall2
import Mathlib.Order.Bounds.Defs
import Quarry.Ranking.Positions

/-! The width that the sliding window finds. `coverSpan` of some lists is the least spread of all
ways to choose one position from each of them, in whatever order the positions stand. The window is
followed event by event: `Tally` says that its counts are those of the events it holds, `Shrunk`
what dropping events on the left does, and `Window.Valid` what holds once some events were
taken in. -/

namespace Quarry.Positions

variable {α : Type}

/-- One position from each of the lists, in the order of the lists. -/
def Choice (lists : List (List α)) (chosen : List α) : Prop := List.Forall₂ (· ∈ ·) chosen lists

theorem Choice.mem {lists : List (List α)} {chosen : List α} (h : Choice lists chosen) {label : Nat}
    {p : α} (hp : chosen[label]? = some p) : ∃ positions, lists[label]? = some positions ∧
      p ∈ positions := by
  obtain ⟨hlength, hmem⟩ := List.forall₂_iff_get.1 h
  obtain ⟨hlt, rfl⟩ := List.getElem?_eq_some_iff.1 hp
  exact ⟨_, List.getElem?_eq_getElem (hlength ▸ hlt), hmem label hlt (hlength ▸ hlt)⟩

/-- A choice among the positions that have some property, if every list has one. -/
theorem exists_choice (lists : List (List α)) {P : α → Prop}
    (h : ∀ positions ∈ lists, ∃ p ∈ positions, P p) : ∃ chosen, Choice lists chosen ∧
      ∀ p ∈ chosen, P p := by
  induction lists with
  | nil => exact ⟨[], .nil, by simp⟩
  | cons first rest ih =>
    obtain ⟨p, hp, hP⟩ := h first List.mem_cons_self
    obtain ⟨chosen, hchoice, hall⟩ := ih fun ps hps => h ps (List.mem_cons_of_mem _ hps)
    refine ⟨p :: chosen, .cons hp hchoice, ?_⟩
    simpa using ⟨hP, hall⟩

/-! ### Counts -/

/-- The lists that some events are from. -/
def labels (es : List (Event α)) : Finset Nat := (es.map Event.label).toFinset

theorem mem_labels {es : List (Event α)} {label : Nat} :
    label ∈ labels es ↔ ∃ e ∈ es, e.label = label := by
  simp [labels]

theorem labels_append_singleton (es : List (Event α)) (e : Event α) :
    labels (es ++ [e]) = insert e.label (labels es) := by
  ext label
  simp only [mem_labels, Finset.mem_insert, List.mem_append, List.mem_singleton]
  grind

theorem labels_cons (e : Event α) (es : List (Event α)) :
    labels (e :: es) = insert e.label (labels es) := by
  simp [labels]

theorem labels_subset {need : Nat} {es : List (Event α)} (h : ∀ e ∈ es, e.label < need) :
    labels es ⊆ Finset.range need := by
  intro label hl
  obtain ⟨e, he, rfl⟩ := mem_labels.1 hl
  exact Finset.mem_range.2 (h e he)

/-- Events from as many lists as there are, are from each of them. -/
theorem exists_of_card_labels {need : Nat} {es : List (Event α)} (h : ∀ e ∈ es, e.label < need)
    (hall : (labels es).card = need) {label : Nat} (hl : label < need) :
    ∃ e ∈ es, e.label = label := by
  rw [← mem_labels, Finset.eq_of_subset_of_card_le (labels_subset h) (by simp [hall])]
  exact Finset.mem_range.2 hl

/-- The counts of a window over `need` lists are those of the events that it holds. -/
structure Tally (need : Nat) (held : List (Event α)) (counts : Array Nat)
    (covered : Nat) : Prop where
  size : counts.size = need
  label_lt : ∀ e ∈ held, e.label < need
  count : ∀ label, counts.getD label 0 = held.countP (·.label = label)
  covered : covered = (labels held).card

namespace Tally

variable {need : Nat} {held : List (Event α)} {counts : Array Nat} {covered : Nat} {e : Event α}

theorem count_eq_zero_iff (h : Tally need held counts covered) (label : Nat) :
    counts.getD label 0 = 0 ↔ label ∉ labels held := by
  rw [h.count, List.countP_eq_zero, mem_labels]
  simp

theorem getD_setIfInBounds (hsize : counts.size = need) (hlt : e.label < need) (n label : Nat) :
    (counts.setIfInBounds e.label n).getD label 0 =
      if e.label = label then n else counts.getD label 0 := by
  simp only [Array.getD_eq_getD_getElem?, Array.getElem?_setIfInBounds]
  split
  · rw [if_pos (by omega)]
    rfl
  · rfl

/-- The window takes an event in on the right. -/
theorem push (h : Tally need held counts covered) (hlt : e.label < need) :
    Tally need (held ++ [e]) (counts.setIfInBounds e.label (counts.getD e.label 0 + 1))
      (if counts.getD e.label 0 = 0 then covered + 1 else covered) where
  size := by simpa using h.size
  label_lt := by
    intro x hx
    rcases List.mem_append.1 hx with hx | hx
    · exact h.label_lt x hx
    · obtain rfl := List.mem_singleton.1 hx
      exact hlt
  count label := by
    rw [getD_setIfInBounds h.size hlt, h.count, h.count, List.countP_append]
    by_cases hl : e.label = label <;> simp [hl]
  covered := by
    rw [labels_append_singleton, h.covered]
    split
    · rename_i hzero
      rw [Finset.card_insert_of_notMem ((h.count_eq_zero_iff _).1 hzero)]
    · rename_i hne
      rw [h.count_eq_zero_iff, not_not] at hne
      rw [Finset.insert_eq_of_mem hne]

/-- The window drops an event on the left. -/
theorem pop (h : Tally need (e :: held) counts covered) :
    Tally need held (counts.setIfInBounds e.label (counts.getD e.label 0 - 1))
      (if counts.getD e.label 0 - 1 = 0 then covered - 1 else covered) where
  size := by simpa using h.size
  label_lt x hx := h.label_lt x (List.mem_cons_of_mem _ hx)
  count label := by
    rw [getD_setIfInBounds h.size (h.label_lt e List.mem_cons_self), h.count, h.count,
      List.countP_cons, List.countP_cons]
    by_cases hl : e.label = label <;> simp [hl]
  covered := by
    have hcount : counts.getD e.label 0 - 1 = held.countP (·.label = e.label) := by
      rw [h.count, List.countP_cons]
      simp
    have hzero : counts.getD e.label 0 - 1 = 0 ↔ e.label ∉ labels held := by
      rw [hcount, List.countP_eq_zero, mem_labels]
      simp
    rw [h.covered, labels_cons]
    split
    · rename_i hz
      rw [Finset.card_insert_of_notMem (hzero.1 hz), Nat.add_sub_cancel]
    · rename_i hne
      rw [hzero, not_not] at hne
      rw [Finset.insert_eq_of_mem hne]

/-- A window that covers too little misses some list. -/
theorem exists_missing (h : Tally need held counts covered) (hshort : covered ≠ need) :
    ∃ label < need, label ∉ labels held := by
  by_contra hnone
  push Not at hnone
  apply hshort
  have : labels held = Finset.range need :=
    (labels_subset h.label_lt).antisymm fun label hl => hnone label (Finset.mem_range.1 hl)
  rw [h.covered, this, Finset.card_range]

end Tally

variable [LinearOrder α]

/-- The greatest of some positions less the least of them. -/
def spread [Sub α] (chosen : List α) : Option α := do
  return (← chosen.max?) - (← chosen.min?)

/-- The spreads of all choices from the lists. -/
def spreads [Sub α] (lists : List (List α)) : Set α :=
  {width | ∃ chosen, Choice lists chosen ∧ spread chosen = some width}

theorem spread_eq_some_iff [Sub α] {chosen : List α} {width : α} :
    spread chosen = some width ↔ ∃ high low, (high ∈ chosen ∧ ∀ p ∈ chosen, p ≤ high) ∧
      (low ∈ chosen ∧ ∀ p ∈ chosen, low ≤ p) ∧ width = high - low := by
  simp only [spread, bind, Option.bind_eq_some_iff, List.max?_eq_some_iff, List.min?_eq_some_iff,
    pure, Option.some.injEq]
  constructor
  · rintro ⟨high, hhigh, low, hlow, rfl⟩
    exact ⟨high, low, hhigh, hlow, rfl⟩
  · rintro ⟨high, low, hhigh, hlow, rfl⟩
    exact ⟨high, hhigh, low, hlow, rfl⟩

theorem spreads_nonempty [Sub α] {lists : List (List α)} (hne : lists ≠ [])
    (held : ∀ positions ∈ lists, positions ≠ []) : (spreads lists).Nonempty := by
  obtain ⟨chosen, hchoice, -⟩ := exists_choice lists (P := fun _ => True) fun positions h => by
    obtain ⟨p, hp⟩ := List.exists_mem_of_ne_nil _ (held positions h)
    exact ⟨p, hp, trivial⟩
  have hchosen : chosen ≠ [] := by
    rintro rfl
    exact hne (List.forall₂_nil_left_iff.1 hchoice)
  obtain ⟨high, hhigh⟩ := Option.ne_none_iff_exists'.1 (mt List.max?_eq_none_iff.1 hchosen)
  obtain ⟨low, hlow⟩ := Option.ne_none_iff_exists'.1 (mt List.min?_eq_none_iff.1 hchosen)
  exact ⟨high - low, chosen, hchoice, by rw [spread, hhigh, hlow]; rfl⟩

/-- There is a choice, and so a spread, exactly if no list is empty. -/
theorem spreads_nonempty_iff [Sub α] {lists : List (List α)} (hne : lists ≠ []) :
    (spreads lists).Nonempty ↔ [] ∉ lists := by
  constructor
  · rintro ⟨width, chosen, hchoice, -⟩ hempty
    obtain ⟨label, hlt, hlabel⟩ := List.getElem_of_mem hempty
    obtain ⟨hlength, hmem⟩ := List.forall₂_iff_get.1 hchoice
    have hposition := hmem label (hlength ▸ hlt) hlt
    rw [List.get_eq_getElem, hlabel] at hposition
    cases hposition
  · exact fun hempty => spreads_nonempty hne fun positions hmem heq => hempty (heq ▸ hmem)

/-! ### Events -/

theorem Event.le_trans (a b c : Event α) (hab : Event.le a b = true) (hbc : Event.le b c = true) :
    Event.le a c = true := by
  simp only [Event.le] at *
  grind

theorem Event.le_total (a b : Event α) : (Event.le a b || Event.le b a) = true := by
  simp only [Event.le, Bool.or_eq_true]
  grind

theorem Event.position_le {a b : Event α} (h : Event.le a b = true) : a.position ≤ b.position := by
  simp only [Event.le] at h
  grind

/-- The positions of the events do not descend. -/
theorem pairwise_events (lists : List (List α)) :
    (events lists).Pairwise fun a b => a.position ≤ b.position :=
  (List.pairwise_mergeSort Event.le_trans Event.le_total _).imp Event.position_le

/-- There is one event for each position of each list. -/
theorem mem_events {lists : List (List α)} {e : Event α} :
    e ∈ events lists ↔ ∃ positions, lists[e.label]? = some positions ∧ e.position ∈ positions := by
  rw [events, List.mem_mergeSort, List.mem_flatMap]
  constructor
  · rintro ⟨⟨positions, label⟩, hlist, he⟩
    obtain ⟨p, hp, rfl⟩ := List.mem_map.1 he
    exact ⟨positions, List.mem_zipIdx_iff_getElem?.1 hlist, hp⟩
  · rintro ⟨positions, hlist, hp⟩
    exact ⟨(positions, e.label), List.mem_zipIdx_iff_getElem?.2 hlist, List.mem_map.2 ⟨_, hp, rfl⟩⟩

theorem label_lt_of_mem_events {lists : List (List α)} {e : Event α} (h : e ∈ events lists) :
    e.label < lists.length := by
  obtain ⟨positions, hlist, -⟩ := mem_events.1 h
  exact (List.getElem?_eq_some_iff.1 hlist).1

/-! ### The window -/

/-- The narrowest window so far is at most as wide as `width`. -/
def AtMost (best : Option α) (width : α) : Prop := ∃ b, best = some b ∧ b ≤ width

theorem AtMost.trans {best : Option α} {width width' : α} (h : AtMost best width)
    (hle : width ≤ width') : AtMost best width' := by
  obtain ⟨b, hb, hbw⟩ := h
  exact ⟨b, hb, hbw.trans hle⟩

theorem narrower_le (best : Option α) (width : α) : narrower best width ≤ width := by
  unfold narrower
  split
  · split
    · exact le_rfl
    · exact le_of_not_gt ‹_›
  · exact le_rfl

theorem narrower_le_of_eq_some {best : Option α} {b : α} (h : best = some b) (width : α) :
    narrower best width ≤ b := by
  subst h
  simp only [narrower]
  split
  · exact le_of_lt ‹_›
  · exact le_rfl

theorem narrower_eq (best : Option α) (width : α) :
    best = some (narrower best width) ∨ narrower best width = width := by
  unfold narrower
  split
  · split <;> simp
  · exact .inr rfl

variable [Sub α]

/-- What dropping events on the left makes of a window that held the events `held`, before `rest`:
`dropped` are gone, and the events that are kept do not cover all lists any more. A new width is
that of a window that did. -/
structure Shrunk (need : Nat) (position : α) (best : Option α) (held rest : List (Event α))
    (w : Window α) (dropped kept : List (Event α)) : Prop where
  split : held = dropped ++ kept
  left : w.left = kept ++ rest
  tally : Tally need kept w.counts w.covered
  short : w.covered ≠ need
  within : ∀ d ∈ dropped, AtMost w.best (position - d.position)
  mono : ∀ b, best = some b → AtMost w.best b
  found : w.best = best ∨ ∃ before head tail, held = before ++ head :: tail ∧
    (labels (head :: tail)).card = need ∧ w.best = some (position - head.position)

theorem shrink_spec {need : Nat} (hneed : 0 < need) (position : α) (best : Option α)
    (rest held : List (Event α)) {counts : Array Nat} {covered : Nat}
    (h : Tally need held counts covered) :
    ∃ dropped kept, Shrunk need position best held rest
      (shrink need position counts covered best (held ++ rest)) dropped kept := by
  induction held generalizing counts covered best with
  | nil =>
    have hcovered : covered = 0 := by simpa [labels] using h.covered
    have hstop : shrink need position counts covered best ([] ++ rest) =
        ⟨counts, covered, rest, best⟩ := by
      cases rest with
      | nil => rfl
      | cons head left =>
        rw [List.nil_append, shrink, if_neg (by omega)]
    rw [hstop]
    exact ⟨[], [], rfl, rfl, h, by simp only; omega, by simp, fun b hb => ⟨b, hb, le_rfl⟩, .inl rfl⟩
  | cons head held ih =>
    rw [List.cons_append, shrink]
    split
    · rename_i hcovered
      obtain ⟨dropped, kept, hs⟩ := ih (some (narrower best (position - head.position))) h.pop
      have hbest := hs.mono _ rfl
      refine ⟨head :: dropped, kept, by rw [hs.split]; rfl, hs.left, hs.tally, hs.short, ?_, ?_, ?_⟩
      · intro d hd
        rcases List.mem_cons.1 hd with rfl | hd
        · exact hbest.trans (narrower_le _ _)
        · exact hs.within d hd
      · exact fun b hb => hbest.trans (narrower_le_of_eq_some hb _)
      · rcases hs.found with hsame | ⟨before, head', tail, hheld, hall, hwidth⟩
        · rcases narrower_eq best (position - head.position) with hn | hn
          · exact .inl (by rw [hsame, ← hn])
          · exact .inr ⟨[], head, held, rfl, by rw [← h.covered, hcovered], by rw [hsame, hn]⟩
        · exact .inr ⟨head :: before, head', tail, by rw [hheld]; rfl, hall, hwidth⟩
    · rename_i hcovered
      exact ⟨[], head :: held, rfl, rfl, h, hcovered, by simp,
        fun b hb => ⟨b, hb, le_rfl⟩, .inl rfl⟩

/-- Taking in an event is pushing it and then dropping on the left. -/
theorem Window.extend_spec {need : Nat} (hneed : 0 < need) {e : Event α}
    {kept rest : List (Event α)} {w : Window α} (hleft : w.left = kept ++ e :: rest)
    (h : Tally need kept w.counts w.covered) (hlt : e.label < need) :
    ∃ gone kept', Shrunk need e.position w.best (kept ++ [e]) rest
      (w.extend need e) gone kept' := by
  rw [Window.extend, hleft, List.append_cons kept e rest]
  exact shrink_spec hneed e.position w.best rest (kept ++ [e]) (h.push hlt)

variable [AddCommSemigroup α] [AddLeftMono α] [OrderedSub α]

/-- The chosen positions are among some events, each with its list. -/
def ChosenFrom (es : List (Event α)) (chosen : List α) : Prop :=
  ∀ label p, chosen[label]? = some p → (⟨p, label⟩ : Event α) ∈ es

/-- The window once the events `taken` were taken in and `rest` are still to come. -/
structure Window.Valid (lists : List (List α)) (taken rest : List (Event α)) (w : Window α) :
    Prop where
  /-- The window holds the last of the events taken in, and they do not cover all lists. -/
  held : ∃ dropped kept, taken = dropped ++ kept ∧ w.left = kept ++ rest ∧
    Tally lists.length kept w.counts w.covered ∧ w.covered ≠ lists.length ∧
    -- A window from a dropped event on to any later one is no improvement.
    ∀ d ∈ dropped, ∀ e ∈ rest, AtMost w.best (e.position - d.position)
  /-- No choice from the events taken in has a lesser spread. -/
  least : ∀ chosen width, chosen.length = lists.length → ChosenFrom taken chosen →
    spread chosen = some width → AtMost w.best width
  /-- The width is no less than the spread of some choice. -/
  attained : ∀ b, w.best = some b → ∃ width ∈ spreads lists, width ≤ b

/-- Events that cover all lists, in order and up to one at `position`, give a choice. -/
theorem exists_spread_le {lists : List (List α)} {head : Event α} {tail : List (Event α)}
    {position : α} (hall : (labels (head :: tail)).card = lists.length) (hne : lists ≠ [])
    (hevents : ∀ e ∈ head :: tail, e ∈ events lists)
    (hsorted : (head :: tail).Pairwise fun a b => a.position ≤ b.position)
    (hlast : ∀ e ∈ head :: tail, e.position ≤ position) :
    ∃ width ∈ spreads lists, width ≤ position - head.position := by
  have hhead : ∀ e ∈ head :: tail, head.position ≤ e.position := by
    intro e he
    rcases List.mem_cons.1 he with rfl | he
    · exact le_rfl
    · exact (List.pairwise_cons.1 hsorted).1 e he
  obtain ⟨chosen, hchoice, hwithin⟩ := exists_choice lists
    (P := fun p => head.position ≤ p ∧ p ≤ position) (by
    intro positions hpositions
    obtain ⟨label, hl, rfl⟩ := List.getElem_of_mem hpositions
    obtain ⟨e, he, rfl⟩ :=
      exists_of_card_labels (fun e he => label_lt_of_mem_events (hevents e he)) hall hl
    obtain ⟨positions, hlist, hp⟩ := mem_events.1 (hevents e he)
    obtain rfl : lists[e.label] = positions := by
      simpa [List.getElem?_eq_getElem hl] using hlist
    exact ⟨e.position, hp, hhead e he, hlast e he⟩)
  have hchosen : chosen ≠ [] := by
    rintro rfl
    exact hne (List.length_eq_zero_iff.1 (List.Forall₂.length_eq hchoice).symm)
  obtain ⟨high, hhigh⟩ := Option.ne_none_iff_exists'.1 (mt List.max?_eq_none_iff.1 hchosen)
  obtain ⟨low, hlow⟩ := Option.ne_none_iff_exists'.1 (mt List.min?_eq_none_iff.1 hchosen)
  refine ⟨high - low, ⟨chosen, hchoice, by simp [spread, hhigh, hlow]⟩, ?_⟩
  exact tsub_le_tsub (hwithin high (List.max?_eq_some_iff.1 hhigh).1).2
    (hwithin low (List.min?_eq_some_iff.1 hlow).1).1

/-- A choice that uses the event `e` is no narrower than the best window, if the events that are
kept miss a list: what it takes from there was dropped. -/
theorem spread_of_dropped {need : Nat} {taken dropped kept : List (Event α)} {e : Event α}
    {w : Window α} (htaken : taken = dropped ++ kept) (htally : Tally need kept w.counts w.covered)
    (hshort : w.covered ≠ need) (hwithin : ∀ d ∈ dropped, AtMost w.best (e.position - d.position))
    {chosen : List α} {width : α} (hlength : chosen.length = need) (hfrom : ChosenFrom taken chosen)
    (hspread : spread chosen = some width) (huse : e.position ∈ chosen) : AtMost w.best width := by
  obtain ⟨high, low, ⟨-, hhigh⟩, ⟨-, hlow⟩, rfl⟩ := spread_eq_some_iff.1 hspread
  obtain ⟨label, hlt, hmiss⟩ := htally.exists_missing hshort
  have hp : chosen[label]? = some chosen[label] := List.getElem?_eq_getElem (by omega)
  have hmem := hfrom label _ hp
  rw [htaken, List.mem_append] at hmem
  have hdropped := hmem.resolve_right fun hkept => hmiss (mem_labels.2 ⟨_, hkept, rfl⟩)
  exact (hwithin _ hdropped).trans
    (tsub_le_tsub (hhigh _ huse) (hlow _ (List.mem_of_getElem? hp)))

/-- Taking in the next event keeps the window valid. -/
theorem Window.Valid.extend {lists : List (List α)} {taken rest : List (Event α)} {e : Event α}
    {w : Window α} (hne : lists ≠ []) (hsplit : events lists = taken ++ e :: rest)
    (h : w.Valid lists taken (e :: rest)) :
    (w.extend lists.length e).Valid lists (taken ++ [e]) rest := by
  obtain ⟨dropped, kept, htaken, hleft, htally, -, hdropped⟩ := h.held
  have hsorted := pairwise_events lists
  rw [hsplit, List.append_cons] at hsorted
  obtain ⟨gone, kept', hs⟩ := Window.extend_spec (List.length_pos_iff.2 hne) hleft htally
    (label_lt_of_mem_events (hsplit ▸ by simp))
  have htaken' : taken ++ [e] = dropped ++ gone ++ kept' := by
    rw [htaken, List.append_assoc, hs.split, List.append_assoc]
  -- From a dropped event on, no window up to the new event is an improvement.
  have hwithin : ∀ d ∈ dropped ++ gone, AtMost (w.extend lists.length e).best
      (e.position - d.position) := by
    intro d hd
    rcases List.mem_append.1 hd with hd | hd
    · obtain ⟨b, hb, hbe⟩ := hdropped d hd e List.mem_cons_self
      exact (hs.mono b hb).trans hbe
    · exact hs.within d hd
  refine ⟨⟨dropped ++ gone, kept', htaken', hs.left, hs.tally, hs.short, ?_⟩, ?_, ?_⟩
  · intro d hd x hx
    refine (hwithin d hd).trans (tsub_le_tsub_right ?_ _)
    exact (List.pairwise_append.1 hsorted).2.2 e (by simp) x hx
  · intro chosen width hlength hfrom hspread
    by_cases hold : ChosenFrom taken chosen
    · obtain ⟨b, hb, hbw⟩ := h.least chosen width hlength hold hspread
      exact (hs.mono b hb).trans hbw
    · simp only [ChosenFrom, not_forall] at hold
      obtain ⟨label, p, hp, hnot⟩ := hold
      obtain rfl : (⟨p, label⟩ : Event α) = e := by
        simpa [hnot] using hfrom label p hp
      exact spread_of_dropped htaken' hs.tally hs.short hwithin hlength hfrom hspread
        (List.mem_of_getElem? hp)
  · intro b hb
    rcases hs.found with hsame | ⟨before, head, tail, hheld, hall, hwidth⟩
    · exact h.attained b (hsame ▸ hb)
    · obtain rfl : e.position - head.position = b := Option.some.inj (hwidth.symm.trans hb)
      have hsuffix : taken ++ [e] = (dropped ++ before) ++ head :: tail := by
        rw [htaken, List.append_assoc, hheld, List.append_assoc]
      have htail := (List.pairwise_append.1 hsorted).1
      rw [hsuffix] at htail
      refine exists_spread_le hall hne (fun x hx => ?_) (List.pairwise_append.1 htail).2.1
        (fun x hx => ?_)
      · rw [hsplit, List.append_cons, hsuffix]
        exact List.mem_append_left _ (List.mem_append_right _ hx)
      · have hx' : x ∈ taken ++ [e] := hsuffix ▸ List.mem_append_right _ hx
        rcases List.mem_append.1 hx' with hx' | hx'
        · exact (List.pairwise_append.1 (List.pairwise_append.1 hsorted).1).2.2 x hx' e (by simp)
        · rw [List.mem_singleton.1 hx']

/-- Once all events were taken in, the window is valid for all of them. -/
theorem Window.Valid.foldl {lists : List (List α)} (hne : lists ≠ []) (rest : List (Event α)) :
    ∀ {taken : List (Event α)} {w : Window α}, events lists = taken ++ rest →
      w.Valid lists taken rest →
      (rest.foldl (Window.extend lists.length) w).Valid lists (events lists) [] := by
  induction rest with
  | nil =>
    intro taken w hsplit h
    rw [hsplit, List.append_nil]
    exact h
  | cons e rest ih =>
    intro taken w hsplit h
    exact ih (by rw [hsplit, List.append_cons]) (h.extend hne hsplit)

omit [AddCommSemigroup α] [AddLeftMono α] [OrderedSub α] in
theorem Window.valid_start {lists : List (List α)} (hne : lists ≠ []) :
    Window.Valid lists [] (events lists)
      ⟨Array.replicate lists.length 0, 0, events lists, none⟩ := by
  have hpos := List.length_pos_iff.2 hne
  refine ⟨⟨[], [], rfl, rfl, ⟨by simp, by simp, fun label => ?_, rfl⟩,
    by simp only; omega, by simp⟩, ?_, by simp⟩
  · simp only [Array.getD_eq_getD_getElem?, Array.getElem?_replicate, List.countP_nil]
    split <;> rfl
  · intro chosen width hlength hfrom _
    have := hfrom 0 chosen[0] (List.getElem?_eq_getElem (by omega))
    simp at this

/-- What is known of the width that the window ends with. -/
theorem coverSpan_spec (lists : List (List α)) :
    (∀ width ∈ spreads lists, AtMost (coverSpan lists) width) ∧
      ∀ b, coverSpan lists = some b → ∃ width ∈ spreads lists, width ≤ b := by
  by_cases hne : lists = []
  · subst hne
    refine ⟨?_, fun b hb => by simp [coverSpan, events] at hb⟩
    rintro width ⟨chosen, hchoice, hspread⟩
    obtain rfl : chosen = [] := List.forall₂_nil_right_iff.1 hchoice
    simp [spread] at hspread
  · have hvalid := Window.Valid.foldl hne (events lists) rfl (Window.valid_start hne)
    refine ⟨?_, hvalid.attained⟩
    rintro width ⟨chosen, hchoice, hspread⟩
    refine hvalid.least chosen width (List.Forall₂.length_eq hchoice) (fun label p hp => ?_) hspread
    exact mem_events.2 (hchoice.mem hp)

/-- The window finds the least spread of all choices. -/
theorem coverSpan_eq_some_iff {lists : List (List α)} {width : α} :
    coverSpan lists = some width ↔ IsLeast (spreads lists) width := by
  obtain ⟨least, attained⟩ := coverSpan_spec lists
  constructor
  · intro h
    have hlower : ∀ s ∈ spreads lists, width ≤ s := by
      intro s hs
      obtain ⟨b, hb, hbs⟩ := least s hs
      rwa [← Option.some.inj (h.symm.trans hb)] at hbs
    obtain ⟨s, hs, hsw⟩ := attained width h
    exact ⟨le_antisymm (hlower s hs) hsw ▸ hs, hlower⟩
  · rintro ⟨hmem, hlower⟩
    obtain ⟨b, hb, hbw⟩ := least width hmem
    obtain ⟨s, hs, hsb⟩ := attained b hb
    rw [hb, le_antisymm hbw ((hlower hs).trans hsb)]

/-- There is a window exactly if there is a choice. -/
theorem isSome_coverSpan_iff {lists : List (List α)} :
    (coverSpan lists).isSome = true ↔ (spreads lists).Nonempty := by
  obtain ⟨least, attained⟩ := coverSpan_spec lists
  rw [Option.isSome_iff_exists]
  constructor
  · rintro ⟨b, hb⟩
    obtain ⟨s, hs, -⟩ := attained b hb
    exact ⟨s, hs⟩
  · rintro ⟨s, hs⟩
    obtain ⟨b, hb, -⟩ := least s hs
    exact ⟨b, hb⟩

/-- Over lists of integers in any order, the window finds the least spread of all choices, and there
is none exactly if some list is empty. -/
theorem coverSpan_exact {lists : List (List ℤ)} (hne : lists ≠ []) :
    (∀ width, coverSpan lists = some width ↔ IsLeast (spreads lists) width) ∧
      (coverSpan lists = none ↔ [] ∈ lists) := by
  refine ⟨fun width => coverSpan_eq_some_iff, ?_⟩
  rw [← Option.not_isSome_iff_eq_none, isSome_coverSpan_iff, spreads_nonempty_iff hne, not_not]

/-- Positions that descend, repeat and are shared between lists: a choice has `4` and one of `10`
and `-3`. -/
theorem coverSpan_exact_unordered :
    let lists : List (List ℤ) := [[10, -3], [4, 12, 4], [4]]
    lists ≠ [] ∧ coverSpan lists = some 6 := by
  intro lists
  refine ⟨by decide, ((coverSpan_exact (by decide)).1 6).2
    ⟨⟨[10, 4, 4], by simp [Choice, lists], by decide⟩, ?_⟩⟩
  rintro width ⟨chosen, hchoice, hspread⟩
  obtain ⟨high, low, ⟨-, hhigh⟩, ⟨-, hlow⟩, rfl⟩ := spread_eq_some_iff.1 hspread
  obtain ⟨p, _, hp, hothers, rfl⟩ := List.forall₂_cons_right_iff.1 hchoice
  obtain ⟨q, _, -, hlast, rfl⟩ := List.forall₂_cons_right_iff.1 hothers
  obtain ⟨r, _, hr, -, rfl⟩ := List.forall₂_cons_right_iff.1 hlast
  simp only [List.forall_mem_cons] at hhigh hlow
  simp only [List.mem_cons, List.not_mem_nil, or_false] at hp hr
  omega

end Quarry.Positions
