import Mathlib.Data.List.Sort
import Quarry.Excerpt.Span

/-! Merging brings spans into a canonical form. Two spans are joined only where the second starts
inside the first, so that what the spans cover is kept and so is every place where they merely
touch; and since they are sorted before, nothing depends on how they were listed. -/

namespace Quarry.Span

/-- The spans are in order, each behind the one before it. They may touch. -/
def Apart (spans : List Span) : Prop := spans.Pairwise fun a b => a.stop ≤ b.start

/-! ### The order of spans -/

theorem le_iff {a b : Span} :
    a.le b = true ↔ a.start < b.start ∨ a.start = b.start ∧ a.stop ≤ b.stop := by
  simp [le]

theorem pairwise_le_mergeSort (spans : List Span) :
    (spans.mergeSort le).Pairwise fun a b => a.le b = true := by
  refine List.pairwise_mergeSort (fun a b c hab hbc => ?_) (fun a b => ?_) spans
  · rw [le_iff] at *
    omega
  · rw [Bool.or_eq_true, le_iff, le_iff]
    omega

theorem pairwise_mergeSort (spans : List Span) :
    (spans.mergeSort le).Pairwise fun a b => a.start ≤ b.start := by
  refine (pairwise_le_mergeSort spans).imp fun {a b} hab => ?_
  rw [le_iff] at hab
  omega

/-- In whichever order spans come, they are sorted alike. -/
theorem mergeSort_eq_of_perm {spans spans' : List Span} (h : spans.Perm spans') :
    spans.mergeSort le = spans'.mergeSort le := by
  have hperm : (spans.mergeSort le).Perm (spans'.mergeSort le) :=
    (List.mergeSort_perm spans le).trans (h.trans (List.mergeSort_perm spans' le).symm)
  refine hperm.eq_of_pairwise (fun a b _ _ hab hba => ?_) (pairwise_le_mergeSort spans)
    (pairwise_le_mergeSort spans')
  obtain ⟨start, stop⟩ := a
  obtain ⟨start', stop'⟩ := b
  rw [le_iff] at hab hba
  simp only [Span.mk.injEq] at *
  omega

/-! ### Joining -/

/-- A span that goes on at least as far as another one. -/
def join (a b : Span) : Span := { a with stop := max a.stop b.stop }

/-- The second span starts inside the first. -/
structure Meets (a b : Span) : Prop where
  le : a.start ≤ b.start
  lt : b.start < a.stop

section

variable {current : Span} {spans : List Span}
    (h : (current :: spans).Pairwise fun a b => a.start ≤ b.start)
include h

/-- Of spans in the order of their starts, merged ones are apart and begin no earlier. -/
theorem apart_mergeFrom :
    Apart (mergeFrom current spans) ∧ ∀ s ∈ mergeFrom current spans, current.start ≤ s.start := by
  induction spans generalizing current with
  | nil => exact ⟨List.pairwise_singleton _ _, fun s hs => List.mem_singleton.1 hs ▸ Int.le_refl _⟩
  | cons s rest ih =>
    obtain ⟨hcurrent, hrest⟩ := List.pairwise_cons.1 h
    rw [mergeFrom]
    split
    · exact ih (.cons (fun s' hs' => hcurrent s' (List.mem_cons_of_mem _ hs'))
        (List.pairwise_cons.1 hrest).2)
    · rename_i hbehind
      obtain ⟨hapart, hstart⟩ := ih hrest
      have hfirst := hcurrent s List.mem_cons_self
      refine ⟨.cons (fun s' hs' => ?_) hapart, fun s' hs' => ?_⟩
      · have := hstart s' hs'
        omega
      · rcases List.mem_cons.1 hs' with rfl | hs'
        · exact Int.le_refl _
        · exact Int.le_trans hfirst (hstart s' hs')

variable {P : Span → Prop}

/-- What holds of some spans holds of merged ones if joining keeps it. -/
theorem forall_mem_mergeFrom (hjoin : ∀ {a b : Span}, a.Meets b → P a → P b → P (a.join b))
    (hall : ∀ s ∈ current :: spans, P s) : ∀ t ∈ mergeFrom current spans, P t := by
  induction spans generalizing current with
  | nil => exact hall
  | cons s rest ih =>
    obtain ⟨hcurrent, hrest⟩ := List.pairwise_cons.1 h
    obtain ⟨hP, hs, hPs⟩ := by simpa only [List.forall_mem_cons] using hall
    rw [mergeFrom]
    split
    · rename_i hlt
      have hmeets : current.Meets s := ⟨hcurrent s List.mem_cons_self, hlt⟩
      refine ih (.cons (fun s' hs' => hcurrent s' (List.mem_cons_of_mem _ hs')) hrest.of_cons) ?_
      exact List.forall_mem_cons.2 ⟨hjoin hmeets hP hs, hPs⟩
    · exact List.forall_mem_cons.2 ⟨hP, ih hrest (List.forall_mem_cons.2 ⟨hs, hPs⟩)⟩

/-- What holds of one of some spans holds of a merged one if it goes over to what the span is
joined into. -/
theorem exists_mem_mergeFrom (hjoin : ∀ {a b : Span}, a.Meets b → P a ∨ P b → P (a.join b))
    (hsome : ∃ s ∈ current :: spans, P s) : ∃ t ∈ mergeFrom current spans, P t := by
  induction spans generalizing current with
  | nil => exact hsome
  | cons s rest ih =>
    obtain ⟨hcurrent, hrest⟩ := List.pairwise_cons.1 h
    simp only [List.exists_mem_cons_iff] at hsome ih
    rw [mergeFrom]
    split
    · rename_i hlt
      have hmeets : current.Meets s := ⟨hcurrent s List.mem_cons_self, hlt⟩
      refine ih (.cons (fun s' hs' => hcurrent s' (List.mem_cons_of_mem _ hs')) hrest.of_cons) ?_
      rw [← or_assoc] at hsome
      exact hsome.imp_left (hjoin hmeets)
    · exact (List.exists_mem_cons_iff ..).2 (hsome.imp_right (ih hrest))

end

/-! ### Merging -/

variable {spans : List Span} {P : Span → Prop}

theorem apart_merge (spans : List Span) : Apart (merge spans) := by
  have hsorted := pairwise_mergeSort spans
  rw [merge]
  split
  · exact .nil
  · rename_i s rest heq
    exact (apart_mergeFrom (heq ▸ hsorted)).1

theorem forall_mem_merge (hjoin : ∀ {a b : Span}, a.Meets b → P a → P b → P (a.join b))
    (hall : ∀ s ∈ spans, P s) : ∀ t ∈ merge spans, P t := by
  have hsorted := pairwise_mergeSort spans
  have hmem : ∀ s ∈ spans.mergeSort le, P s := fun s hs => hall s (List.mem_mergeSort.1 hs)
  rw [merge]
  split
  · exact fun t ht => nomatch ht
  · rename_i s rest heq
    exact forall_mem_mergeFrom (heq ▸ hsorted) hjoin (heq ▸ hmem)

theorem exists_mem_merge (hjoin : ∀ {a b : Span}, a.Meets b → P a ∨ P b → P (a.join b))
    (hsome : ∃ s ∈ spans, P s) : ∃ t ∈ merge spans, P t := by
  have hsorted := pairwise_mergeSort spans
  have hmem : ∃ s ∈ spans.mergeSort le, P s := by simpa only [List.mem_mergeSort] using hsome
  rw [merge]
  split
  · rename_i heq
    rw [heq] at hmem
    obtain ⟨s, hs, -⟩ := hmem
    cases hs
  · rename_i s rest heq
    exact exists_mem_mergeFrom (heq ▸ hsorted) hjoin (heq ▸ hmem)

/-- What holds of a joined span exactly if it holds of one of its parts is kept by merging. -/
theorem exists_mem_merge_iff (hjoin : ∀ {a b : Span}, a.Meets b → (P (a.join b) ↔ P a ∨ P b)) :
    (∃ t ∈ merge spans, P t) ↔ ∃ s ∈ spans, P s := by
  refine ⟨fun h => ?_, exists_mem_merge fun hmeets => (hjoin hmeets).2⟩
  contrapose! h
  exact forall_mem_merge (fun hmeets ha hb hP => ((hjoin hmeets).1 hP).elim ha hb) h

/-- Spans that are apart are left as they are. -/
theorem merge_eq_self (h : Apart spans) (proper : ∀ s ∈ spans, s.start ≤ s.stop) :
    merge spans = spans := by
  have hsorted : spans.Pairwise fun a b => a.le b = true := by
    refine List.Pairwise.imp_of_mem (fun {a b} ha hb hab => ?_) h
    have := proper a ha
    have := proper b hb
    rw [le_iff]
    omega
  have hmerged : ∀ (current : Span) (rest : List Span), Apart (current :: rest) →
      mergeFrom current rest = current :: rest := by
    intro current rest hrest
    induction rest generalizing current with
    | nil => rfl
    | cons s rest ih =>
      obtain ⟨hcurrent, hrest⟩ := List.pairwise_cons.1 hrest
      rw [mergeFrom, if_neg (Int.not_lt.2 (hcurrent s List.mem_cons_self)), ih s hrest]
  rw [merge, List.mergeSort_of_pairwise hsorted]
  cases spans with
  | nil => rfl
  | cons s rest => exact hmerged s rest h

/-! ### The canonical form -/

/-- The character at an offset belongs to one of the spans. -/
def Covered (spans : List Span) (offset : Int) : Prop :=
  ∃ s ∈ spans, s.start ≤ offset ∧ offset < s.stop

/-- One of the spans goes on across an offset, with characters on both sides of it. -/
def Straddled (spans : List Span) (offset : Int) : Prop :=
  ∃ s ∈ spans, s.start < offset ∧ offset < s.stop

theorem covered_merge_iff (spans : List Span) (offset : Int) :
    Covered (merge spans) offset ↔ Covered spans offset := by
  refine exists_mem_merge_iff fun {a b} ⟨hle, hlt⟩ => ?_
  simp only [join]
  omega

theorem straddled_merge_iff (spans : List Span) (offset : Int) :
    Straddled (merge spans) offset ↔ Straddled spans offset := by
  refine exists_mem_merge_iff fun {a b} ⟨hle, hlt⟩ => ?_
  simp only [join]
  omega

theorem exists_mem_merge_inside {s : Span} (hs : s ∈ spans) :
    ∃ t ∈ merge spans, t.start ≤ s.start ∧ s.stop ≤ t.stop := by
  refine exists_mem_merge (fun {a b} ⟨hle, hlt⟩ h => ?_) ⟨s, hs, Int.le_refl _, Int.le_refl _⟩
  simp only [join]
  omega

theorem merge_eq_of_perm {spans' : List Span} (h : spans.Perm spans') :
    merge spans' = merge spans := by
  rw [merge, merge, mergeSort_eq_of_perm h]

/-- Merging gives spans a canonical form. The merged spans are in order, each starting where the one
before it stops or behind that. They cover the characters that the given spans cover and go on
across the offsets that those go on across, so that spans which only touch stay apart, and each
given span lies inside one of them. In whichever order spans are given, the merged spans are the
same, and merging these again changes nothing. -/
theorem merge_canonical (proper : ∀ s ∈ spans, s.start ≤ s.stop) :
    Apart (merge spans) ∧ (∀ t ∈ merge spans, t.start ≤ t.stop) ∧
      (∀ offset, Covered (merge spans) offset ↔ Covered spans offset) ∧
      (∀ offset, Straddled (merge spans) offset ↔ Straddled spans offset) ∧
      (∀ s ∈ spans, ∃ t ∈ merge spans, t.start ≤ s.start ∧ s.stop ≤ t.stop) ∧
      (∀ spans', spans.Perm spans' → merge spans' = merge spans) ∧
        merge (merge spans) = merge spans := by
  have hproper : ∀ t ∈ merge spans, t.start ≤ t.stop := by
    refine forall_mem_merge (fun {a b} _ ha _ => ?_) proper
    exact Int.le_trans ha (Int.le_max_left ..)
  exact ⟨apart_merge spans, hproper, covered_merge_iff spans, straddled_merge_iff spans,
    fun s hs => exists_mem_merge_inside hs, fun spans' h => merge_eq_of_perm h,
    merge_eq_self (apart_merge spans) hproper⟩

/-- Spans out of order that overlap, touch, lie inside one another or are empty. Of the two empty
ones that which lies inside another span is gone. -/
theorem merge_canonical_mixed :
    let spans : List Span := [⟨5, 8⟩, ⟨3, 5⟩, ⟨1, 3⟩, ⟨7, 9⟩, ⟨6, 6⟩, ⟨2, 3⟩, ⟨3, 3⟩]
    (∀ s ∈ spans, s.start ≤ s.stop) ∧ merge spans = [⟨1, 3⟩, ⟨3, 3⟩, ⟨3, 5⟩, ⟨5, 9⟩] ∧
      merge spans.reverse = merge spans ∧ merge (merge spans) = merge spans := by
  intro spans
  have proper : ∀ s ∈ spans, s.start ≤ s.stop := by decide
  obtain ⟨-, -, -, -, -, hperm, hagain⟩ := merge_canonical proper
  have hsorted : spans.Perm [⟨1, 3⟩, ⟨2, 3⟩, ⟨3, 3⟩, ⟨3, 5⟩, ⟨5, 8⟩, ⟨6, 6⟩, ⟨7, 9⟩] := by decide
  have hmerged : merge spans = [⟨1, 3⟩, ⟨3, 3⟩, ⟨3, 5⟩, ⟨5, 9⟩] := by
    rw [← hperm _ hsorted, merge, List.mergeSort_of_pairwise (by decide)]
    rfl
  exact ⟨proper, hmerged, hperm _ spans.reverse_perm.symm, hagain⟩

end Quarry.Span
