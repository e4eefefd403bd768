import Quarry.Proofs.Query.Lexing
import Quarry.Proofs.Text.Places

/-! Pieces of a text as queries. A word of the text that is typed bare stands for its one term, the
compound if it is dotted. A stretch of the text in double quotes stands for its terms in order. -/

namespace Quarry

namespace Word

theorem chain_of_some {ps next : List Point}
    (h : afterDot? (ps.dropWhile Point.isWord) = some next) :
    chain ps = (ps.takeWhile Point.isWord :: (chain next).1, (chain next).2) := by
  rw [chain]
  split
  · rename_i hnext
    rw [h] at hnext
    cases hnext
    rfl
  · rename_i hnone
    rw [h] at hnone
    cases hnone

theorem chain_of_none {ps : List Point} (h : afterDot? (ps.dropWhile Point.isWord) = none) :
    chain ps = ([ps.takeWhile Point.isWord], ps.dropWhile Point.isWord) := by
  rw [chain]
  split
  · rename_i hnext
    rw [h] at hnext
    cases hnext
  · rfl

/-- A chain that begins with a word character, put together, begins with that character. -/
theorem exists_intercalate_chain {p : Point} (hp : p.isWord = true) (ps : List Point) :
    ∃ tail, List.intercalate [.unit dot] (chain (p :: ps)).1 = p :: tail := by
  have hsplit := intercalate_chain (p :: ps)
  cases hinner : List.intercalate [.unit dot] (chain (p :: ps)).1 with
  | nil =>
    rw [hinner] at hsplit
    have hshorter : (chain (p :: ps)).2.length < (p :: ps).length := length_chain_lt hp
    rw [← List.nil_append (chain (p :: ps)).2, hsplit] at hshorter
    exact absurd hshorter (Nat.lt_irrefl _)
  | cons q tail =>
    rw [hinner] at hsplit
    exact ⟨tail, by rw [(List.cons.inj hsplit).1]⟩

/-- A chain by itself is read as it was. -/
theorem chain_intercalate (ps : List Point) :
    chain (List.intercalate [.unit dot] (chain ps).1) = ((chain ps).1, []) := by
  fun_induction chain ps with
  | case1 ps next hnext ih =>
    have hword : ∀ p ∈ ps.takeWhile Point.isWord, p.isWord = true :=
      fun p hp => List.mem_takeWhile_imp hp
    obtain ⟨q, more, rfl⟩ : ∃ q more, next = q :: more := by
      unfold afterDot? at hnext
      grind
    have hq := isWord_head_of_afterDot? hnext
    obtain ⟨tail, htail⟩ := exists_intercalate_chain hq more
    obtain ⟨run, runs, hruns⟩ := List.exists_cons_of_ne_nil (chain_ne_nil (q :: more))
    have hwhole : List.intercalate [.unit dot]
        (ps.takeWhile Point.isWord :: (chain (q :: more)).1) =
        ps.takeWhile Point.isWord ++ .unit dot :: q :: tail := by
      rw [hruns, List.intercalate_cons_cons, ← hruns, htail, List.append_assoc,
        List.singleton_append]
    have hgap : (Point.unit dot).isWord = false := by decide
    have hdrop : (ps.takeWhile Point.isWord ++ .unit dot :: q :: tail).dropWhile Point.isWord =
        .unit dot :: q :: tail := by
      rw [List.dropWhile_append_of_pos hword, List.dropWhile_cons_of_neg (by simp [hgap])]
    have htake : (ps.takeWhile Point.isWord ++ .unit dot :: q :: tail).takeWhile Point.isWord =
        ps.takeWhile Point.isWord := by
      rw [List.takeWhile_append_of_pos hword, List.takeWhile_cons_of_neg (by simp [hgap]),
        List.append_nil]
    have hafter : afterDot? (.unit dot :: q :: tail) = some (q :: tail) := if_pos hq
    rw [htail] at ih
    rw [hwhole, chain_of_some (hdrop ▸ hafter), htake, ih]
  | case2 ps hnext =>
    have hword : ∀ p ∈ ps.takeWhile Point.isWord, p.isWord = true :=
      fun p hp => List.mem_takeWhile_imp hp
    have hdrop : (ps.takeWhile Point.isWord).dropWhile Point.isWord = [] :=
      List.dropWhile_eq_nil_iff.2 hword
    have htake : (ps.takeWhile Point.isWord).takeWhile Point.isWord = ps.takeWhile Point.isWord :=
      List.takeWhile_eq_self_iff.2 hword
    rw [List.intercalate_singleton, chain_of_none (by rw [hdrop]; rfl), hdrop, htake]

/-- A word of one run is that run. -/
theorem parts_eq_singleton {w : Word} (hne : w.parts ≠ []) (hsingle : w.parts.length ≤ 1) :
    w.parts = [w.text] := by
  obtain ⟨part, hpart⟩ : ∃ part, w.parts = [part] :=
    List.length_eq_one_iff.1 (Nat.le_antisymm hsingle (List.length_pos_iff.2 hne))
  rw [text, hpart, Text.join, List.intercalate_singleton]

/-- A word of a list of points is read as the chain at its place. -/
theorem exists_chain_of_mem_scan {offset : Nat} {ps : List Point} {w : Word}
    (h : w ∈ scan offset ps) :
    ∃ before p rest, ps = before ++ p :: rest ∧ p.isWord = true ∧
      w.parts = (chain (p :: rest)).1.map Text.ofPoints := by
  fun_induction scan offset ps with
  | case1 => cases h
  | case2 offset p rest hp first ih =>
    rcases List.mem_cons.1 h with rfl | h
    · exact ⟨[], p, rest, rfl, hp, rfl⟩
    · obtain ⟨before, q, more, hsplit, hq, hparts⟩ := ih h
      refine ⟨List.intercalate [.unit dot] (chain (p :: rest)).1 ++ before, q, more, ?_, hq, hparts⟩
      rw [List.append_assoc, ← hsplit, intercalate_chain]
  | case3 offset p rest hp ih =>
    obtain ⟨before, q, more, hsplit, hq, hparts⟩ := ih h
    exact ⟨p :: before, q, more, by rw [hsplit]; rfl, hq, hparts⟩

end Word

namespace Text

/-- The text of a word has that one word. -/
theorem words_text {t : Text} {w : Word} (h : w ∈ t.words) : w.text.words = [⟨0, w.parts⟩] := by
  obtain ⟨before, p, rest, hsplit, hp, hparts⟩ := Word.exists_chain_of_mem_scan h
  have hchain := Word.intercalate_chain (p :: rest)
  have htext : w.text = ofPoints
      (List.intercalate [.unit Word.dot] (Word.chain (p :: rest)).1) := by
    rw [Word.text, hparts, ofPoints_intercalate]
  have hpoints : w.text.points = List.intercalate [.unit Word.dot] (Word.chain (p :: rest)).1 := by
    rw [← hchain] at hsplit
    rw [htext]
    exact points_ofPoints_left (points_ofPoints_right hsplit)
  obtain ⟨tail, htail⟩ := Word.exists_intercalate_chain hp rest
  have hself := Word.chain_intercalate (p :: rest)
  rw [htail] at hself hpoints
  rw [words, hpoints, Word.scan, dif_pos hp]
  simp only [hself, ← hparts]
  rw [Word.scan]

/-- A word of a text stands for one term by itself, that of all of it. -/
theorem queryTerms_text {t : Text} {w : Word} (h : w ∈ t.words) :
    w.text.queryTerms = [w.text.lower] := by
  have htokens : w.text.tokens = Run.tokens 0 (Run.spaced 0 w.parts) ++
      if w.parts.length ≤ 1 then [] else [⟨w.text.lower, 0, 0, 0 + w.text.length, true⟩] := by
    rw [tokens, words_text h, Word.tokensFrom, Word.tokensFrom, List.append_nil, Word.tokens,
      Run.partTokens_eq]
    rfl
  by_cases hsingle : w.parts.length ≤ 1
  · rw [if_pos hsingle, List.append_nil,
      Word.parts_eq_singleton (isRun_of_mem_words h).1 hsingle] at htokens
    rw [queryTerms, htokens]
    rfl
  · have hinside : ((Run.tokens 0 (Run.spaced 0 w.parts)).all fun part =>
        decide (0 ≤ part.start) && decide (part.stop ≤ 0 + w.text.length)) = true := by
      refine List.all_eq_true.2 fun part hpart => ?_
      obtain ⟨i, r, hr, rfl⟩ := Run.exists_of_mem_tokens hpart
      obtain ⟨-, offset, hstart, hstands⟩ := Run.stands_of_mem_spaced hr
      have hle : offset + r.text.length ≤ w.text.length := hstands.le_length
      simp only [Nat.zero_le, decide_true, Bool.true_and, decide_eq_true_eq]
      change r.start + r.text.length ≤ 0 + w.text.length
      omega
    rw [if_neg hsingle] at htokens
    rw [queryTerms, htokens, List.filter_append, List.filter_append, Run.filter_compound_tokens,
      Run.filter_tokens_eq_self]
    rw [← List.append_nil (Run.tokens 0 (Run.spaced 0 w.parts))] at hinside
    exact if_pos hinside

end Text

namespace Query

/-- A word of a text that is typed bare is parsed to its term. -/
theorem parse_text {t : Text} {w : Word} (h : w ∈ t.words)
    (hkeyword : w.text ∉ [andWord, orWord, notWord]) : parse w.text = .ok (.term w.text.lower) := by
  obtain ⟨hne, hruns⟩ := Text.isRun_of_mem_words h
  exact (lexes_of_queryTerms (Word.text_ne_nil hne hruns) (Word.inner_of_mem_text hruns) hkeyword
    (Text.queryTerms_text h)).parse (.toQuery (.toOr (.toAnd (.operand _))))

/-- A stretch of a text in double quotes is parsed to the terms of its runs. -/
theorem parse_slice {t : Text} {i j : Nat} (hij : i ≤ j) {first last : Run}
    (hfirst : t.runs[i]? = some first) (hlast : t.runs[j]? = some last)
    (hquote : 34 ∉ t.slice first.start last.stop) :
    parse (34 :: (t.slice first.start last.stop ++ [34])) =
      .ok (.ofTerms (((t.runs.drop i).take (j - i + 1)).map (·.text.lower))) := by
  have hterms := Text.phraseTerms_slice hij hfirst hlast
  have hne : (t.slice first.start last.stop).phraseTerms ≠ [] := by
    obtain ⟨hi, -⟩ := List.getElem?_eq_some_iff.1 hfirst
    rw [hterms, List.drop_eq_getElem_cons hi]
    exact List.cons_ne_nil _ _
  rw [← hterms]
  exact (lexes_quoted hquote hne).parse (.toQuery (.toOr (.toAnd (.operand _))))

end Query
end Quarry
