import Mathlib.Data.List.Infix
import Mathlib.Data.List.TakeWhile
import Quarry.Proofs.Text.Lower
import Quarry.Token

/-! The words of a text and their tokens. The runs of a word lie side by side in the text, joined by
full stops, and hold word characters only. A full stop is no word character, so that it tells the
terms of compounds from those of parts. -/

namespace Quarry

theorem Text.join_cons_cons (separator s t : Text) (ts : List Text) :
    Text.join separator (s :: t :: ts) = s ++ separator ++ Text.join separator (t :: ts) := by
  simp [Text.join]

theorem Text.mem_join {separator : Text} {ts : List Text} {u : UInt16}
    (h : u ∈ Text.join separator ts) :
    u ∈ separator ∨ ∃ t ∈ ts, u ∈ t := by
  induction ts with
  | nil => cases h
  | cons t ts ih =>
    cases ts with
    | nil =>
      refine .inr ⟨t, List.mem_singleton_self t, ?_⟩
      simpa [Text.join] using h
    | cons t' ts =>
      rw [Text.join_cons_cons, List.mem_append, List.mem_append] at h
      rcases h with (h | h) | h
      · exact .inr ⟨t, List.mem_cons_self .., h⟩
      · exact .inl h
      · rcases ih h with h | ⟨s, hs, h⟩
        · exact .inl h
        · exact .inr ⟨s, List.mem_cons_of_mem _ hs, h⟩

theorem Text.infix_join {separator t : Text} {ts : List Text} (h : t ∈ ts) :
    t <:+: Text.join separator ts := by
  induction ts with
  | nil => cases h
  | cons s ts ih =>
    cases ts with
    | nil =>
      rw [List.mem_singleton.1 h]
      exact ⟨[], [], by simp [Text.join]⟩
    | cons s' ts =>
      rw [Text.join_cons_cons]
      rcases List.mem_cons.1 h with rfl | h
      · exact ((List.prefix_append _ _).trans (List.prefix_append _ _)).isInfix
      · exact (ih h).trans (List.suffix_append _ _).isInfix

theorem Text.ofPoints_intercalate (runs : List (List Point)) :
    ofPoints (List.intercalate [.unit Word.dot] runs) = join [Word.dot] (runs.map ofPoints) := by
  induction runs with
  | nil => rfl
  | cons run runs ih =>
    cases runs with
    | nil => simp [join]
    | cons run' runs =>
      rw [List.map_cons, List.map_cons, join_cons_cons, ← List.map_cons, ← ih]
      simp [List.intercalate_cons_cons, ofPoints, Point.units]

namespace Word

/-- The runs of a chain and what follows it make up the points it was read from. -/
theorem intercalate_chain (ps : List Point) :
    List.intercalate [.unit dot] (chain ps).1 ++ (chain ps).2 = ps := by
  fun_induction chain ps with
  | case1 ps next h ih =>
    have hne : (chain next).1 ≠ [] := by
      rw [chain]
      split <;> simp
    obtain ⟨run, runs, hruns⟩ := List.exists_cons_of_ne_nil hne
    rw [hruns] at ih ⊢
    rw [List.intercalate_cons_cons, List.append_assoc, List.append_assoc, ih, List.singleton_append,
      ← eq_cons_of_afterDot? h, List.takeWhile_append_dropWhile]
  | case2 ps h => simp [List.takeWhile_append_dropWhile]

theorem isWord_of_mem_chain {ps run : List Point} (h : run ∈ (chain ps).1) :
    ∀ p ∈ run, p.isWord = true := by
  fun_induction chain ps with
  | case1 ps next hnext ih =>
    rcases List.mem_cons.1 h with rfl | h
    · exact fun p hp => List.mem_takeWhile_imp hp
    · exact ih h
  | case2 ps hnext =>
    rw [List.mem_singleton.1 h]
    exact fun p hp => List.mem_takeWhile_imp hp

theorem isWord_head_of_afterDot? {ps : List Point} {p : Point} {rest : List Point}
    (h : afterDot? ps = some (p :: rest)) : p.isWord = true := by
  unfold afterDot? at h
  split at h
  · split at h
    · cases h
      assumption
    · cases h
  · cases h

theorem ne_nil_of_mem_chain {p : Point} {ps run : List Point} (hp : p.isWord = true)
    (h : run ∈ (chain (p :: ps)).1) : run ≠ [] := by
  generalize hqs : p :: ps = qs at h
  fun_induction chain qs generalizing p ps with
  | case1 qs next hnext ih =>
    rcases List.mem_cons.1 h with rfl | h
    · rw [← hqs, List.takeWhile_cons_of_pos hp]
      exact List.cons_ne_nil _ _
    · obtain ⟨q, rest, rfl⟩ : ∃ q rest, next = q :: rest := by
        unfold afterDot? at hnext
        grind
      exact ih (isWord_head_of_afterDot? hnext) rfl h
  | case2 qs hnext =>
    rw [List.mem_singleton.1 h, ← hqs, List.takeWhile_cons_of_pos hp]
    exact List.cons_ne_nil _ _

/-- A run of word characters of a text. -/
def IsRun (part : Text) : Prop :=
  part ≠ [] ∧ ∃ run : List Point, part = Text.ofPoints run ∧ ∀ p ∈ run, p.isWord = true ∧ p.Paired

theorem chain_ne_nil (ps : List Point) : (chain ps).1 ≠ [] := by
  rw [chain]
  split <;> simp

theorem mem_of_mem_chain {ps run : List Point} (h : run ∈ (chain ps).1) : ∀ p ∈ run, p ∈ ps := by
  fun_induction chain ps with
  | case1 ps next hnext ih =>
    rcases List.mem_cons.1 h with rfl | h
    · exact fun p hp => (List.takeWhile_prefix _).subset hp
    · intro p hp
      have hdrop : p ∈ ps.dropWhile Point.isWord := by
        rw [eq_cons_of_afterDot? hnext]
        exact List.mem_cons_of_mem _ (ih h p hp)
      exact (List.dropWhile_suffix _).subset hdrop
  | case2 ps hnext =>
    rw [List.mem_singleton.1 h]
    exact fun p hp => (List.takeWhile_prefix _).subset hp

theorem mem_scan {offset : Nat} {ps : List Point} (paired : ∀ p ∈ ps, p.Paired) {w : Word}
    (h : w ∈ scan offset ps) :
    w.text <:+: Text.ofPoints ps ∧ w.parts ≠ [] ∧ ∀ part ∈ w.parts, IsRun part := by
  fun_induction scan offset ps with
  | case1 => cases h
  | case2 offset p rest hp first ih =>
    have hsplit := congrArg Text.ofPoints (intercalate_chain (p :: rest))
    rw [Text.ofPoints_append, Text.ofPoints_intercalate] at hsplit
    rcases List.mem_cons.1 h with rfl | h
    · refine ⟨?_, fun hnil => chain_ne_nil _ (List.map_eq_nil_iff.1 hnil), fun part hpart => ?_⟩
      · exact hsplit ▸ (List.prefix_append _ _).isInfix
      · obtain ⟨run, hrun, rfl⟩ := List.mem_map.1 hpart
        refine ⟨?_, run, rfl, fun q hq =>
          ⟨isWord_of_mem_chain hrun q hq, paired q (mem_of_mem_chain hrun q hq)⟩⟩
        obtain ⟨q, run, rfl⟩ := List.exists_cons_of_ne_nil (ne_nil_of_mem_chain hp hrun)
        cases q <;> simp [Text.ofPoints, Point.units]
    · have hsuffix : (chain (p :: rest)).2 <:+ p :: rest := ⟨_, intercalate_chain (p :: rest)⟩
      obtain ⟨hinside, hrest⟩ := ih (fun q hq => paired q (hsuffix.subset hq)) h
      exact ⟨hinside.trans (hsplit ▸ (List.suffix_append _ _).isInfix), hrest⟩
  | case3 offset p rest hp ih =>
    obtain ⟨hinside, hrest⟩ := ih (fun q hq => paired q (List.mem_cons_of_mem _ hq)) h
    exact ⟨hinside.trans (List.suffix_append p.units _).isInfix, hrest⟩

theorem dot_not_mem_of_isRun {part : Text} (h : IsRun part) : 46 ∉ part := by
  obtain ⟨-, run, rfl, hrun⟩ := h
  rw [Text.mem_ofPoints_iff (fun p hp => (hrun p hp).2) (by decide)]
  exact fun hmem => absurd (hrun _ hmem).1 (by decide)

theorem dot_mem_text {w : Word} (h : 1 < w.parts.length) : 46 ∈ w.text := by
  rw [text]
  match w.parts, h with
  | part :: part' :: parts, _ => simp [Text.join_cons_cons, dot]

/-! ### Tokens -/

theorem mem_partTokens {position offset : Nat} {parts : List Text} {token : Token}
    (h : token ∈ partTokens position offset parts) :
    token.compound = false ∧ position ≤ token.position ∧ token.position < position + parts.length ∧
      ∃ part ∈ parts, token.term = part.lower := by
  induction parts generalizing position offset with
  | nil => cases h
  | cons part rest ih =>
    rcases List.mem_cons.1 h with rfl | h
    · exact ⟨rfl, Nat.le_refl _, by simp, part, List.mem_cons_self .., rfl⟩
    · obtain ⟨hcompound, hle, hlt, part', hpart', hterm⟩ := ih h
      exact ⟨hcompound, by omega, by simp only [List.length_cons]; omega, part',
        List.mem_cons_of_mem _ hpart', hterm⟩

theorem pairwise_partTokens (position offset : Nat) (parts : List Text) :
    (partTokens position offset parts).Pairwise fun a b => a.position < b.position := by
  induction parts generalizing position offset with
  | nil => exact .nil
  | cons part rest ih => exact .cons (fun token h => (mem_partTokens h).2.1) (ih _ _)

/-- The tokens of a word stand at the positions of its runs, and those with a full stop in their
term are the compounds. -/
theorem mem_tokens {w : Word} (hne : w.parts ≠ []) (hruns : ∀ part ∈ w.parts, IsRun part)
    {position : Nat} {token : Token} (h : token ∈ w.tokens position) :
    position ≤ token.position ∧ token.position < position + w.parts.length ∧
      (token.compound = true ↔ 46 ∈ token.term) := by
  rcases List.mem_append.1 h with h | h
  · obtain ⟨hcompound, hle, hlt, part, hpart, hterm⟩ := mem_partTokens h
    refine ⟨hle, hlt, ?_⟩
    rw [hcompound, hterm, Text.dot_mem_lower_iff]
    simpa using dot_not_mem_of_isRun (hruns part hpart)
  · have hpos := List.length_pos_iff.2 hne
    split at h
    · cases h
    · rename_i hlen
      rw [List.mem_singleton.1 h]
      refine ⟨Nat.le_refl _, by simp only; omega, ?_⟩
      simpa [Text.dot_mem_lower_iff] using dot_mem_text (by omega)

/-- Of two tokens with the same term the earlier one has the smaller position. -/
def Advancing (a b : Token) : Prop := a.term = b.term → a.position < b.position

theorem pairwise_tokens {w : Word} (hne : w.parts ≠ []) (hruns : ∀ part ∈ w.parts, IsRun part)
    (position : Nat) : (w.tokens position).Pairwise Advancing := by
  refine List.pairwise_append.2 ⟨?_, ?_, ?_⟩
  · exact (pairwise_partTokens ..).imp fun {a b} h (_ : a.term = b.term) => h
  · split
    · exact .nil
    · exact List.pairwise_singleton _ _
  · intro a ha b hb heq
    have hpart := (mem_tokens hne hruns (List.mem_append_left _ ha)).2.2
    have hwhole := (mem_tokens hne hruns (List.mem_append_right _ hb)).2.2
    split at hb
    · cases hb
    · rw [(mem_partTokens ha).1, heq, ← hwhole, List.mem_singleton.1 hb] at hpart
      simp at hpart

theorem pairwise_tokensFrom (position : Nat) {ws : List Word}
    (h : ∀ w ∈ ws, w.parts ≠ [] ∧ ∀ part ∈ w.parts, IsRun part) :
    (tokensFrom position ws).Pairwise Advancing ∧
      ∀ token ∈ tokensFrom position ws, position ≤ token.position := by
  induction ws generalizing position with
  | nil => exact ⟨.nil, by simp [tokensFrom]⟩
  | cons w ws ih =>
    rw [List.forall_mem_cons] at h
    obtain ⟨⟨hne, hruns⟩, hrest⟩ := h
    obtain ⟨hpairwise, hle⟩ := ih (position + w.parts.length) hrest
    refine ⟨List.pairwise_append.2 ⟨pairwise_tokens hne hruns position, hpairwise, ?_⟩, ?_⟩
    · intro a ha b hb _
      have := (mem_tokens hne hruns ha).2.1
      have := hle b hb
      omega
    · intro token htoken
      rcases List.mem_append.1 htoken with htoken | htoken
      · exact (mem_tokens hne hruns htoken).1
      · exact Nat.le_trans (Nat.le_add_right ..) (hle token htoken)

/-- The tokens of words stand at as many positions as there are runs. -/
theorem countP_tokensFrom (position : Nat) (ws : List Word) :
    (tokensFrom position ws).countP (!·.compound) = (ws.flatMap (·.parts)).length := by
  have parts : ∀ position offset (parts : List Text),
      (partTokens position offset parts).countP (!·.compound) = parts.length := by
    intro position offset parts
    induction parts generalizing position offset with
    | nil => rfl
    | cons part rest ih => simp [partTokens, ih]
  induction ws generalizing position with
  | nil => rfl
  | cons w ws ih =>
    rw [tokensFrom, List.countP_append, ih, tokens, List.countP_append, parts, List.flatMap_cons,
      List.length_append]
    split <;> simp

theorem position_lt_of_mem_tokensFrom {position : Nat} {ws : List Word}
    (h : ∀ w ∈ ws, w.parts ≠ [] ∧ ∀ part ∈ w.parts, IsRun part) {token : Token}
    (htoken : token ∈ tokensFrom position ws) :
    token.position < position + (ws.flatMap (·.parts)).length := by
  induction ws generalizing position with
  | nil => cases htoken
  | cons w ws ih =>
    rw [List.forall_mem_cons] at h
    rw [List.flatMap_cons, List.length_append]
    rcases List.mem_append.1 htoken with htoken | htoken
    · have := (mem_tokens h.1.1 h.1.2 htoken).2.1
      omega
    · have := ih h.2 htoken
      omega

theorem mem_tokensFrom {position : Nat} {ws : List Word} {token : Token}
    (h : token ∈ tokensFrom position ws) : ∃ w ∈ ws, ∃ first, token ∈ w.tokens first := by
  induction ws generalizing position with
  | nil => cases h
  | cons w ws ih =>
    rcases List.mem_append.1 h with h | h
    · exact ⟨w, List.mem_cons_self .., position, h⟩
    · obtain ⟨w', hw', first, hfirst⟩ := ih h
      exact ⟨w', List.mem_cons_of_mem _ hw', first, hfirst⟩

end Word

/-- The compounds among the tokens are told by a full stop in their terms. -/
theorem Text.compound_iff {t : Text} {token : Token} (h : token ∈ t.tokens) :
    token.compound = true ↔ 46 ∈ token.term := by
  obtain ⟨w, hw, first, htoken⟩ := Word.mem_tokensFrom h
  obtain ⟨-, hne, hruns⟩ := Word.mem_scan (fun _ => paired_of_mem_points) hw
  exact (Word.mem_tokens hne hruns htoken).2.2

theorem Text.isRun_of_mem_words {t : Text} {w : Word} (h : w ∈ t.words) :
    w.parts ≠ [] ∧ ∀ part ∈ w.parts, Word.IsRun part :=
  (Word.mem_scan (fun _ => paired_of_mem_points) h).2

/-- The tokens of one term stand at strictly ascending positions. -/
theorem Text.pairwise_tokens (t : Text) : t.tokens.Pairwise Word.Advancing :=
  (Word.pairwise_tokensFrom 0 fun _ => isRun_of_mem_words).1

/-- A token stands at one of the positions that are counted. -/
theorem Text.position_lt_positionCount {t : Text} {token : Token} (h : token ∈ t.tokens) :
    token.position < t.positionCount := by
  rw [positionCount, tokens, Word.countP_tokensFrom]
  have := Word.position_lt_of_mem_tokensFrom (fun _ => isRun_of_mem_words) h
  omega

end Quarry
