import Quarry.Proofs.Text.Words
import Quarry.Text.Blank

/-! Terms that the tokenizer gives back. Such a term is all of its own text: it is the lower-case
form of a word in it, lower-casing keeps lengths where there is no `İ`, and no `İ` is left by it. So
it is made of what words are made of, and of nothing that has a meaning in query notation. -/

namespace Quarry.Text

/-- The blank characters beyond ASCII, by ranges of code points. -/
def wideBlanks : List (Nat × Nat) :=
  [(0xA0, 0xA0), (0x1680, 0x1680), (0x2000, 0x200A), (0x2028, 0x2029), (0x202F, 0x202F),
    (0x205F, 0x205F), (0x3000, 0x3000), (0xFEFF, 0xFEFF)]

/-- No range of letters and numbers meets a blank character. -/
theorem wideBlanks_apart : letterOrNumberRanges.toList.all fun range => wideBlanks.all fun blank =>
    decide (blank.2 < range.1) || decide (range.2 < blank.1) := by
  decide +kernel

theorem isBlank_iff {u : UInt16} : isBlank u = true ↔ u.toNat = 0x20 ∨
    (9 ≤ u.toNat ∧ u.toNat ≤ 13) ∨ ∃ blank ∈ wideBlanks, blank.1 ≤ u.toNat ∧ u.toNat ≤ blank.2 := by
  simp only [isBlank, Bool.or_eq_true, Bool.and_eq_true, beq_iff_eq, decide_eq_true_eq,
    UInt16.le_iff_toNat_le, ← UInt16.toNat_inj, UInt16.reduceToNat, wideBlanks, List.mem_cons,
    List.not_mem_nil, or_false, exists_eq_or_imp, exists_eq_left]
  omega

theorem isWordCode_of_isBlank {u : UInt16} (h : isBlank u = true) : isWordCode u.toNat = false := by
  rw [isBlank_iff] at h
  rw [← Bool.not_eq_true]
  intro hword
  rw [isWordCode] at hword
  split at hword
  · simp only [Bool.or_eq_true, Bool.and_eq_true, decide_eq_true_eq, beq_iff_eq] at hword
    simp only [wideBlanks, List.mem_cons, List.not_mem_nil, or_false, exists_eq_or_imp,
      exists_eq_left] at h
    omega
  · rename_i hwide
    obtain ⟨blank, hblank, hle, hge⟩ := (h.resolve_left (by omega)).resolve_left (by omega)
    obtain ⟨range, hrange, hin⟩ := Array.any_eq_true'.1 hword
    have hapart := List.all_eq_true.1 wideBlanks_apart range hrange.val
    have := List.all_eq_true.1 hapart blank hblank
    simp only [Bool.or_eq_true, Bool.and_eq_true, decide_eq_true_eq] at this hin
    omega

/-- A unit that neither parts words nor has a meaning in query notation. -/
def Inner (u : UInt16) : Prop := isBlank u = false ∧ u ∉ [34, 40, 41, 42, 44]

theorem inner_of_surrogate {u : UInt16} (hle : 0xD800 ≤ u.toNat) (hlt : u.toNat < 0xE000) :
    Inner u := by
  refine ⟨?_, fun hmem => ?_⟩
  · rw [← Bool.not_eq_true, isBlank_iff]
    simp only [wideBlanks, List.mem_cons, List.not_mem_nil, or_false, exists_eq_or_imp,
      exists_eq_left]
    omega
  · simp only [List.mem_cons, List.not_mem_nil, or_false, ← UInt16.toNat_inj,
      UInt16.reduceToNat] at hmem
    omega

theorem inner_of_isWord {p : Point} (hp : p.Paired) (hword : p.isWord = true) :
    ∀ u ∈ p.units, Inner u := by
  cases p with
  | unit u =>
    rw [Point.units, List.forall_mem_singleton]
    have hcode : isWordCode u.toNat = true := hword
    refine ⟨Bool.eq_false_iff.2 fun hblank => ?_, fun hmem => ?_⟩
    · rw [isWordCode_of_isBlank hblank] at hcode
      cases hcode
    · have hall : ([34, 40, 41, 42, 44] : Text).all (fun v => !isWordCode v.toNat) = true := by
        decide
      have hnot := List.all_eq_true.1 hall u hmem
      rw [hcode] at hnot
      cases hnot
  | pair high low =>
    have hhigh := isHighSurrogate_iff.1 hp.1
    have hlow := isLowSurrogate_iff.1 hp.2
    rw [Point.units, List.forall_mem_cons, List.forall_mem_singleton]
    exact ⟨inner_of_surrogate hhigh.1 (by omega), inner_of_surrogate (by omega) hlow.2⟩

theorem inner_of_isDigit {u : UInt16} (h : isDigit u = true) : Inner u := by
  simp only [isDigit, Bool.and_eq_true, decide_eq_true_eq, UInt16.le_iff_toNat_le,
    UInt16.reduceToNat] at h
  refine ⟨Bool.eq_false_iff.2 fun hblank => ?_, fun hmem => ?_⟩
  · rw [isBlank_iff] at hblank
    simp only [wideBlanks, List.mem_cons, List.not_mem_nil, or_false, exists_eq_or_imp,
      exists_eq_left] at hblank
    omega
  · simp only [List.mem_cons, List.not_mem_nil, or_false, ← UInt16.toNat_inj,
      UInt16.reduceToNat] at hmem
    omega

theorem inner_dot : Inner 46 := ⟨by decide, by decide⟩

end Quarry.Text

namespace Quarry.Word

open Text

theorem inner_of_isRun {part : Text} (h : IsRun part) : ∀ u ∈ part, Inner u := by
  obtain ⟨-, run, rfl, hrun⟩ := h
  intro u hu
  obtain ⟨p, hp, hmem⟩ := List.mem_flatMap.1 hu
  exact inner_of_isWord (hrun p hp).2 (hrun p hp).1 u hmem

theorem inner_of_mem_text {w : Word} (hruns : ∀ part ∈ w.parts, IsRun part) :
    ∀ u ∈ w.text, Inner u := by
  intro u hu
  rcases mem_join hu with hdot | ⟨part, hpart, hmem⟩
  · rw [List.mem_singleton.1 hdot]
    exact inner_dot
  · exact inner_of_isRun (hruns part hpart) u hmem

/-- The term of a token is the lower-case form of a stretch of the text that word characters and
full stops make up. -/
theorem exists_infix_of_mem_tokens {t : Text} {token : Token} (h : token ∈ t.tokens) :
    ∃ s, token.term = Text.lower s ∧ s <:+: t ∧ s ≠ [] ∧ ∀ u ∈ s, Inner u := by
  obtain ⟨w, hw, first, htoken⟩ := mem_tokensFrom h
  obtain ⟨hinside, hne, hruns⟩ := mem_scan (fun _ => paired_of_mem_points) hw
  rw [ofPoints_points] at hinside
  rcases List.mem_append.1 htoken with htoken | htoken
  · obtain ⟨-, -, -, part, hpart, hterm⟩ := mem_partTokens htoken
    exact ⟨part, hterm, (infix_join hpart).trans hinside, (hruns part hpart).1,
      inner_of_isRun (hruns part hpart)⟩
  · split at htoken
    · cases htoken
    · rename_i hlen
      rw [List.mem_singleton.1 htoken]
      refine ⟨w.text, rfl, hinside, ?_, inner_of_mem_text hruns⟩
      exact List.ne_nil_of_mem (dot_mem_text (by omega))

end Quarry.Word

namespace Quarry.Text

/-- A term that the tokenizer gives back. -/
def Stable (t : Term) : Prop := t.queryTerms = [t]

instance (t : Term) : Decidable t.Stable :=
  inferInstanceAs (Decidable (t.queryTerms = [t]))

theorem exists_token_of_mem_queryTerms {t : Text} {term : Term} (h : term ∈ t.queryTerms) :
    ∃ token ∈ t.tokens, token.term = term := by
  rw [queryTerms] at h
  split at h
  · rename_i whole hwhole
    split at h
    · have hmem : whole ∈ t.tokens.filter (·.compound) := hwhole ▸ List.mem_singleton_self whole
      exact ⟨whole, (List.mem_filter.1 hmem).1, (List.mem_singleton.1 h).symm⟩
    · obtain ⟨token, htoken, hterm⟩ := List.mem_map.1 h
      exact ⟨token, (List.mem_filter.1 htoken).1, hterm⟩
  · obtain ⟨token, htoken, hterm⟩ := List.mem_map.1 h
    exact ⟨token, (List.mem_filter.1 htoken).1, hterm⟩

theorem Stable.inner {t : Term} (h : t.Stable) : t ≠ [] ∧ ∀ u ∈ t, Inner u := by
  have hmem : t ∈ t.queryTerms := by
    rw [h]
    exact List.mem_singleton_self t
  obtain ⟨token, htoken, hterm⟩ := exists_token_of_mem_queryTerms hmem
  obtain ⟨s, hs, hinside, hne, hinner⟩ := Word.exists_infix_of_mem_tokens htoken
  have hlower : Text.lower s = t := hs.symm.trans hterm
  have hdotted : 0x130 ∉ s := fun hmem => dotted_not_mem_lower s (hlower ▸ hinside.subset hmem)
  have hlength : s.length = t.length := by rw [← length_lower hdotted, hlower]
  rw [← hinside.eq_of_length hlength]
  exact ⟨hne, hinner⟩

end Quarry.Text

/-! ### Terms side by side -/

namespace Quarry

theorem takeWhile_append_cons {α : Type} {p : α → Bool} {x : α} (hx : p x = false)
    (xs ys : List α) :
    (xs ++ x :: ys).takeWhile p = xs.takeWhile p := by
  induction xs with
  | nil => simp [hx]
  | cons y xs ih => simp only [List.cons_append, List.takeWhile_cons, ih]

theorem dropWhile_append_cons {α : Type} {p : α → Bool} {x : α} (hx : p x = false)
    (xs ys : List α) :
    (xs ++ x :: ys).dropWhile p = xs.dropWhile p ++ x :: ys := by
  induction xs with
  | nil => simp [hx]
  | cons y xs ih =>
    simp only [List.cons_append, List.dropWhile_cons, ih]
    split <;> rfl

namespace Word

section

variable {gap : UInt16} (hgap : (Point.unit gap).isWord = false) (hdot : gap ≠ dot)

theorem afterDot?_of_ne_dot {u : UInt16} (hu : u ≠ dot) (ps : List Point) :
    afterDot? (.unit u :: ps) = none := by
  cases h : afterDot? (.unit u :: ps) with
  | none => rfl
  | some next =>
    cases eq_cons_of_afterDot? h
    exact absurd rfl hu

include hgap hdot in
theorem afterDot?_append (ps qs : List Point) :
    afterDot? (ps ++ .unit gap :: qs) = (afterDot? ps).map (· ++ .unit gap :: qs) := by
  match ps with
  | [] => exact afterDot?_of_ne_dot hdot qs
  | .pair high low :: rest => rfl
  | [.unit u] =>
    by_cases hu : u = dot
    · subst hu
      simp [afterDot?, dot, hgap]
    · rw [List.cons_append, afterDot?_of_ne_dot hu, afterDot?_of_ne_dot hu, Option.map_none]
  | .unit u :: next :: rest =>
    by_cases hu : u = dot
    · subst hu
      by_cases hnext : next.isWord <;> simp [afterDot?, dot, hnext]
    · rw [List.cons_append, afterDot?_of_ne_dot hu, afterDot?_of_ne_dot hu, Option.map_none]

include hgap hdot in
/-- A character that belongs to no word ends a chain wherever it stands. -/
theorem chain_append (ps qs : List Point) :
    chain (ps ++ .unit gap :: qs) = ((chain ps).1, (chain ps).2 ++ .unit gap :: qs) := by
  fun_induction chain ps with
  | case1 ps next hnext ih =>
    have happend : afterDot? ((ps ++ .unit gap :: qs).dropWhile Point.isWord) =
        some (next ++ .unit gap :: qs) := by
      rw [dropWhile_append_cons hgap, afterDot?_append hgap hdot, hnext, Option.map_some]
    rw [chain]
    split
    · rename_i next' hnext'
      rw [happend] at hnext'
      cases hnext'
      rw [ih, takeWhile_append_cons hgap]
    · rename_i hnone
      rw [happend] at hnone
      cases hnone
  | case2 ps hnext =>
    have happend : afterDot? ((ps ++ .unit gap :: qs).dropWhile Point.isWord) = none := by
      rw [dropWhile_append_cons hgap, afterDot?_append hgap hdot, hnext, Option.map_none]
    rw [chain]
    split
    · rename_i next' hnext'
      rw [happend] at hnext'
      cases hnext'
    · rw [dropWhile_append_cons hgap, takeWhile_append_cons hgap]

end

theorem map_parts_scan (offset offset' : Nat) (ps : List Point) :
    (scan offset ps).map (·.parts) = (scan offset' ps).map (·.parts) := by
  fun_induction scan offset ps generalizing offset' with
  | case1 => rw [scan]
  | case2 offset p rest hp first ih =>
    conv_rhs => rw [scan, dif_pos hp]
    rw [List.map_cons, List.map_cons, ih]
  | case3 offset p rest hp ih =>
    conv_rhs => rw [scan, dif_neg hp]
    exact ih _

theorem map_parts_scan_append {gap : UInt16} (hgap : (Point.unit gap).isWord = false)
    (hdot : gap ≠ dot) (offset : Nat) (ps qs : List Point) :
    (scan offset (ps ++ .unit gap :: qs)).map (·.parts) =
      (scan offset ps).map (·.parts) ++ (scan offset qs).map (·.parts) := by
  fun_induction scan offset ps with
  | case1 offset =>
    rw [List.nil_append, scan, dif_neg (by rw [hgap]; decide)]
    exact map_parts_scan ..
  | case2 offset p rest hp first ih =>
    have hchain := chain_append hgap hdot (p :: rest) qs
    rw [List.cons_append] at hchain ⊢
    rw [scan, dif_pos hp]
    simp only [hchain, List.map_cons, List.cons_append]
    refine congrArg _ (Eq.trans (map_parts_scan _ _ _) (ih.trans ?_))
    exact congrArg _ (map_parts_scan ..)
  | case3 offset p rest hp ih =>
    rw [List.cons_append, scan, dif_neg hp, ih]
    exact congrArg _ (map_parts_scan ..)

theorem map_term_partTokens (position offset : Nat) (parts : List Text) :
    ((partTokens position offset parts).filter (!·.compound)).map (·.term) =
      parts.map Text.lower := by
  induction parts generalizing position offset with
  | nil => rfl
  | cons part rest ih => simp [partTokens, ih]

theorem map_term_tokens (w : Word) (position : Nat) :
    ((w.tokens position).filter (!·.compound)).map (·.term) = w.parts.map Text.lower := by
  rw [tokens, List.filter_append, List.map_append, map_term_partTokens]
  split <;> simp

theorem map_term_tokensFrom (position : Nat) (ws : List Word) :
    ((tokensFrom position ws).filter (!·.compound)).map (·.term) =
      (ws.map (·.parts)).flatten.map Text.lower := by
  induction ws generalizing position with
  | nil => rfl
  | cons w ws ih =>
    rw [tokensFrom, List.filter_append, List.map_append, map_term_tokens, ih, List.map_cons,
      List.flatten_cons, List.map_append]

end Word

namespace Text

theorem phraseTerms_eq (t : Text) : t.phraseTerms = (t.words.map (·.parts)).flatten.map lower :=
  Word.map_term_tokensFrom 0 t.words

/-- The terms of texts with a space between them are those of the texts. -/
theorem phraseTerms_append (s t : Text) :
    phraseTerms (s ++ 32 :: t) = phraseTerms s ++ phraseTerms t := by
  have hparts : (words (s ++ 32 :: t)).map (·.parts) =
      s.words.map (·.parts) ++ t.words.map (·.parts) := by
    rw [words, points_append (by decide)]
    exact Word.map_parts_scan_append (by decide) (by decide) 0 s.points t.points
  rw [phraseTerms_eq, hparts, List.flatten_append, List.map_append, phraseTerms_eq, phraseTerms_eq]

theorem phraseTerms_join {ts : List Term} (h : ∀ t ∈ ts, phraseTerms t = [t]) :
    phraseTerms (join [32] ts) = ts := by
  induction ts with
  | nil => decide +kernel
  | cons t ts ih =>
    rw [List.forall_mem_cons] at h
    cases ts with
    | nil =>
      rw [join, List.intercalate_singleton]
      exact h.1
    | cons t' ts =>
      rw [join_cons_cons, List.append_assoc, List.singleton_append, phraseTerms_append, h.1, ih h.2,
        List.singleton_append]

theorem undotted_phraseTerms (t : Text) : ∀ s ∈ t.phraseTerms, 46 ∉ s := by
  intro s hs hdot
  obtain ⟨token, htoken, rfl⟩ := List.mem_map.1 hs
  obtain ⟨hmem, hpart⟩ := List.mem_filter.1 htoken
  rw [(compound_iff hmem).2 hdot] at hpart
  cases hpart

theorem queryTerms_cases (t : Text) : t.queryTerms.length = 1 ∨ t.queryTerms = t.phraseTerms := by
  rw [queryTerms]
  split
  · split
    · exact .inl rfl
    · exact .inr rfl
  · exact .inr rfl

/-- A term without a full stop is found again in a phrase. -/
theorem Stable.phraseTerms {t : Term} (h : t.Stable) (hdot : 46 ∉ t) :
    Text.phraseTerms t = [t] := by
  have hterms : t.queryTerms = [t] := h
  rw [queryTerms] at hterms
  split at hterms
  · rename_i whole hwhole
    split at hterms
    · have hmem := List.mem_filter.1 (hwhole ▸ List.mem_singleton_self whole)
      have hterm := (compound_iff hmem.1).1 hmem.2
      rw [(List.cons.inj hterms).1] at hterm
      exact absurd hterm hdot
    · exact hterms
  · exact hterms

end Text
end Quarry
