import Quarry.Proofs.Excerpt.Merging
import Quarry.Proofs.Text.Places

/-! Where terms are located in a text. The spans of the wanted tokens of a text are in order and
apart from one another already, and merging leaves them as they are: a compound is taken only where
none of its parts was. -/

namespace Quarry

namespace Span

/-- A span that is not empty and lies within a text of `n` units. -/
structure Within (n : Nat) (s : Span) : Prop where
  nonneg : 0 ≤ s.start
  lt : s.start < s.stop
  le : s.stop ≤ n

theorem within_merge {n : Nat} {spans : List Span} (h : ∀ s ∈ spans, s.Within n) :
    ∀ s ∈ merge spans, s.Within n := by
  refine forall_mem_merge (fun {a b} _ ⟨hnonneg, hlt, hle⟩ hb => ?_) h
  have := hb.le
  exact ⟨hnonneg, by simp only [join]; omega, by simp only [join]; omega⟩

/-! ### Located terms -/

theorem overlaps_iff {a b : Span} : a.overlaps b = true ↔ a.start < b.stop ∧ b.start < a.stop := by
  simp [overlaps]

variable {wanted : Term → Bool} {found : List Span} {tokens : List Token}

theorem mem_ofTokens {s : Span} (h : s ∈ ofTokens wanted found tokens) :
    s ∈ found ∨ ∃ token ∈ tokens, wanted token.term = true ∧ s = ofToken token := by
  fun_induction ofTokens wanted found tokens with
  | case1 found => exact .inl (List.mem_reverse.1 h)
  | case2 found token rest hskip ih =>
    exact (ih h).imp_right fun ⟨token', hmem, hwanted⟩ =>
      ⟨token', List.mem_cons_of_mem _ hmem, hwanted⟩
  | case3 found token rest hkeep ih =>
    have hwanted : wanted token.term = true := by
      cases hw : wanted token.term with
      | true => rfl
      | false => simp [hw] at hkeep
    rcases ih h with h | ⟨token', hmem, hwanted'⟩
    · rcases List.mem_cons.1 h with rfl | h
      · exact .inr ⟨token, List.mem_cons_self, hwanted, rfl⟩
      · exact .inl h
    · exact .inr ⟨token', List.mem_cons_of_mem _ hmem, hwanted'⟩

/-- A compound is passed over only where something was found before. -/
theorem ofTokens_ne_nil (h : found ≠ [] ∨ ∃ token ∈ tokens, wanted token.term = true) :
    ofTokens wanted found tokens ≠ [] := by
  fun_induction ofTokens wanted found tokens with
  | case1 found =>
    rcases h with h | ⟨token, hmem, -⟩
    · exact mt List.reverse_eq_nil_iff.1 h
    · cases hmem
  | case2 found token rest hskip ih =>
    refine ih ?_
    rcases h with h | ⟨token', hmem, hwanted⟩
    · exact .inl h
    · rcases List.mem_cons.1 hmem with rfl | hmem
      · left
        rintro rfl
        simp [hwanted] at hskip
      · exact .inr ⟨token', hmem, hwanted⟩
  | case3 found token rest hkeep ih => exact ih (.inl (List.cons_ne_nil _ _))

/-- The spans of tokens that follow one another are apart. A compound that overlaps none of those
before it is behind all of them. -/
theorem apart_ofTokens (hfollows : tokens.Pairwise Token.Follows) (hfound : Apart found.reverse)
    (hbefore : ∀ s ∈ found, ∀ token ∈ tokens,
      s.stop ≤ token.start ∨ token.compound = true ∧ s.start < token.stop) :
    Apart (ofTokens wanted found tokens) := by
  fun_induction ofTokens wanted found tokens with
  | case1 found => exact hfound
  | case2 found token rest hskip ih =>
    exact ih (List.pairwise_cons.1 hfollows).2 hfound
      fun s hs token' htoken' => hbefore s hs token' (List.mem_cons_of_mem _ htoken')
  | case3 found token rest hkeep ih =>
    -- What is found is kept in reverse, so that a new span goes to the end of the order.
    obtain ⟨hfirst, hrest⟩ := List.pairwise_cons.1 hfollows
    refine ih hrest ?_ fun s hs token' htoken' => ?_
    · rw [List.reverse_cons]
      refine List.pairwise_append.2 ⟨hfound, List.pairwise_singleton _ _, fun s hs s' hs' => ?_⟩
      rw [List.mem_singleton.1 hs']
      rw [List.mem_reverse] at hs
      rcases hbefore s hs token List.mem_cons_self with hstop | ⟨hcompound, hstart⟩
      · exact hstop
      · simp only [hcompound, Bool.true_and, Bool.or_eq_true, not_or, List.any_eq_true, not_exists,
          not_and] at hkeep
        have hoverlaps := hkeep.2 s hs
        rw [overlaps_iff, not_and] at hoverlaps
        exact Int.not_lt.1 (hoverlaps hstart)
    · rcases List.mem_cons.1 hs with rfl | hs
      · simp only [ofToken]
        rcases hfirst token' htoken' with hstop | ⟨hcompound, hstart⟩
        · exact .inl (by omega)
        · exact .inr ⟨hcompound, by omega⟩
      · exact hbefore s hs token' (List.mem_cons_of_mem _ htoken')

end Span

namespace Text

/-- What stands in a text at a span. -/
def piece (t : Text) (s : Span) : Text := t.slice s.start.toNat s.stop.toNat

variable (t : Text) (wanted : List Term)

theorem within_ofTokens : ∀ s ∈ Span.ofTokens wanted.contains [] t.tokens, s.Within t.length := by
  intro s hs
  obtain hnil | ⟨token, htoken, -, rfl⟩ := Span.mem_ofTokens hs
  · cases hnil
  · obtain ⟨hlt, hle, -⟩ := marks_of_mem_tokens htoken
    exact ⟨Int.natCast_nonneg _, by simp only [Span.ofToken]; omega,
      by simp only [Span.ofToken]; omega⟩

theorem apart_ofTokens : Span.Apart (Span.ofTokens wanted.contains [] t.tokens) :=
  Span.apart_ofTokens t.pairwise_follows .nil fun _ hs => nomatch hs

/-- Nothing is merged of what is located. -/
theorem locate_eq : t.locate wanted = Span.ofTokens wanted.contains [] t.tokens :=
  Span.merge_eq_self (t.apart_ofTokens wanted) fun s hs => (t.within_ofTokens wanted s hs).lt.le

variable {t wanted}

/-- What is located are pieces of the text that, in lower case, are wanted terms. -/
theorem lower_piece_of_mem_locate {s : Span} (h : s ∈ t.locate wanted) :
    (t.piece s).lower ∈ wanted := by
  rw [locate_eq] at h
  obtain hnil | ⟨token, htoken, hwanted, rfl⟩ := Span.mem_ofTokens h
  · cases hnil
  · have hterm := (marks_of_mem_tokens htoken).term
    rw [piece, Span.ofToken, Int.toNat_natCast, Int.toNat_natCast, ← hterm]
    simpa using hwanted

/-- Something is located in a text that has a wanted term. -/
theorem locate_ne_nil {token : Token} (htoken : token ∈ t.tokens) (hwanted : token.term ∈ wanted) :
    t.locate wanted ≠ [] := by
  rw [locate_eq]
  exact Span.ofTokens_ne_nil (.inr ⟨token, htoken, by simpa using hwanted⟩)

end Text
end Quarry
