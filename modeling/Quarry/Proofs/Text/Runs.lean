import Quarry.Proofs.Text.Terms

/-! The maximal runs of word characters of a text. The tokens that are no compounds are those of the
runs, one for each, in order and at consecutive positions; whether full stops join runs to words
makes no difference to them. A stretch of the text that begins and ends with a run holds just the
runs between, so that it has the terms that the text has there. -/

namespace Quarry

/-! ### Stretches of points -/

namespace Text

theorem slice_append (s t u : Text) : (s ++ t ++ u).slice s.length (s.length + t.length) = t := by
  rw [slice, ← List.length_append, List.take_left, List.drop_left]

/-- The points at the head of a text are the points of what they spell. -/
theorem points_ofPoints_left {t : Text} {ps qs : List Point} (h : t.points = ps ++ qs) :
    points (ofPoints ps) = ps := by
  fun_induction points t generalizing ps with
  | case1 =>
    rw [(List.append_eq_nil_iff.1 h.symm).1]
    rfl
  | case2 u =>
    cases ps with
    | nil => rfl
    | cons p ps =>
      obtain ⟨rfl, hnil⟩ := List.cons.inj h
      rw [(List.append_eq_nil_iff.1 hnil.symm).1]
      rfl
  | case3 u v rest huv ih =>
    cases ps with
    | nil => rfl
    | cons p ps =>
      obtain ⟨rfl, hrest⟩ := List.cons.inj h
      change points (u :: v :: ofPoints ps) = _
      rw [points, if_pos huv, ih hrest]
  | case4 u v rest huv ih =>
    cases ps with
    | nil => rfl
    | cons p ps =>
      obtain ⟨rfl, hrest⟩ := List.cons.inj (h : _ = _ :: (ps ++ qs))
      -- The next point spells a text that begins with the next unit.
      cases hspelled : ofPoints ps with
      | nil =>
        cases ps with
        | nil => rfl
        | cons q ps => cases q <;> cases hspelled
      | cons v' more =>
        have hunits : ofPoints (ps ++ qs) = v :: rest :=
          (congrArg ofPoints hrest).symm.trans (ofPoints_points _)
        rw [ofPoints_append, hspelled] at hunits
        obtain ⟨rfl, -⟩ := List.cons.inj hunits
        change points (u :: ofPoints ps) = _
        have hpoints := ih hrest
        rw [hspelled] at hpoints ⊢
        rw [points, if_neg huv, hpoints]

/-- The points behind the first one are those of some text. -/
theorem exists_points_of_cons {t : Text} {p : Point} {ps : List Point} (h : t.points = p :: ps) :
    ∃ rest : Text, rest.points = ps := by
  fun_induction points t with
  | case1 => cases h
  | case2 u => exact ⟨[], (List.cons.inj h).2⟩
  | case3 u v rest _ _ => exact ⟨rest, (List.cons.inj h).2⟩
  | case4 u v rest _ _ => exact ⟨v :: rest, (List.cons.inj h).2⟩

/-- The points at the end of a text are the points of what they spell. -/
theorem points_ofPoints_right {t : Text} {ps qs : List Point} (h : t.points = ps ++ qs) :
    points (ofPoints qs) = qs := by
  induction ps generalizing t with
  | nil =>
    rw [List.nil_append] at h
    rw [← h, ofPoints_points]
  | cons p ps ih =>
    obtain ⟨rest, hrest⟩ := exists_points_of_cons h
    exact ih hrest

end Text

/-! ### Runs -/

/-- A maximal run of word characters and its offset. -/
structure Run where
  start : Nat
  text : Text
deriving DecidableEq, Repr

namespace Run

def stop (r : Run) : Nat := r.start + r.text.length

/-- The token of a run at a position. -/
def token (position : Nat) (r : Run) : Token := ⟨r.text.lower, position, r.start, r.stop, false⟩

/-- The runs of a list of points that begins at `offset` of its text. -/
def scan (offset : Nat) : List Point → List Run
  | [] => []
  | p :: rest =>
    if p.isWord then
      let r : Run := ⟨offset, Text.ofPoints ((p :: rest).takeWhile Point.isWord)⟩
      r :: scan r.stop ((p :: rest).dropWhile Point.isWord)
    else scan (offset + p.width) rest
termination_by ps => ps.length
decreasing_by
  · rw [List.dropWhile_cons_of_pos ‹_›]
    have := Word.length_dropWhile_le Point.isWord rest
    simp only [List.length_cons]
    omega
  · simp

/-- Runs with a single unit between neighbours, from an offset on. -/
def spaced (offset : Nat) : List Text → List Run
  | [] => []
  | part :: rest => ⟨offset, part⟩ :: spaced (offset + part.length + 1) rest

/-- The tokens of runs at consecutive positions. -/
def tokens (position : Nat) : List Run → List Token
  | [] => []
  | r :: rest => r.token position :: tokens (position + 1) rest

theorem length_spaced (offset : Nat) (parts : List Text) :
    (spaced offset parts).length = parts.length := by
  induction parts generalizing offset with
  | nil => rfl
  | cons part rest ih => rw [spaced, List.length_cons, List.length_cons, ih]

theorem tokens_append (position : Nat) (rs rs' : List Run) :
    tokens position (rs ++ rs') = tokens position rs ++ tokens (position + rs.length) rs' := by
  induction rs generalizing position with
  | nil => rfl
  | cons r rs ih =>
    rw [List.cons_append, tokens, tokens, ih, List.length_cons, Nat.add_assoc, Nat.add_comm 1]
    rfl

theorem getElem?_tokens (position : Nat) (rs : List Run) (i : Nat) :
    (tokens position rs)[i]? = rs[i]?.map (token (position + i)) := by
  induction rs generalizing position i with
  | nil => rfl
  | cons r rs ih =>
    cases i with
    | zero => rfl
    | succ i =>
      rw [tokens, List.getElem?_cons_succ, List.getElem?_cons_succ, ih, Nat.add_assoc,
        Nat.add_comm 1]

theorem exists_of_mem_tokens {position : Nat} {rs : List Run} {token : Token}
    (h : token ∈ tokens position rs) : ∃ i, ∃ r ∈ rs, token = r.token (position + i) := by
  obtain ⟨i, hi⟩ := List.mem_iff_getElem?.1 h
  rw [getElem?_tokens, Option.map_eq_some_iff] at hi
  obtain ⟨r, hr, rfl⟩ := hi
  exact ⟨i, r, List.mem_of_getElem? hr, rfl⟩

theorem filter_tokens_eq_self (position : Nat) (rs : List Run) :
    (tokens position rs).filter (!·.compound) = tokens position rs := by
  refine List.filter_eq_self.2 fun token htoken => ?_
  obtain ⟨i, r, -, rfl⟩ := exists_of_mem_tokens htoken
  rfl

theorem filter_compound_tokens (position : Nat) (rs : List Run) :
    (tokens position rs).filter (·.compound) = [] := by
  refine List.filter_eq_nil_iff.2 fun token htoken => ?_
  obtain ⟨i, r, -, rfl⟩ := exists_of_mem_tokens htoken
  exact Bool.false_ne_true

theorem map_term_tokens (position : Nat) (rs : List Run) :
    (tokens position rs).map (·.term) = rs.map (·.text.lower) := by
  induction rs generalizing position with
  | nil => rfl
  | cons r rs ih =>
    rw [tokens, List.map_cons, List.map_cons, ih]
    rfl

theorem partTokens_eq (position offset : Nat) (parts : List Text) :
    Word.partTokens position offset parts = tokens position (spaced offset parts) := by
  induction parts generalizing position offset with
  | nil => rfl
  | cons part rest ih =>
    rw [Word.partTokens, ih]
    rfl

/-! ### Runs of words -/

theorem scan_of_isWord {p : Point} (hp : p.isWord = true) (offset : Nat) (rest : List Point) :
    scan offset (p :: rest) = ⟨offset, Text.ofPoints ((p :: rest).takeWhile Point.isWord)⟩ ::
      scan (offset + (Text.ofPoints ((p :: rest).takeWhile Point.isWord)).length)
        ((p :: rest).dropWhile Point.isWord) := by
  rw [scan, if_pos hp]
  rfl

theorem scan_of_not_isWord {p : Point} (hp : p.isWord = false) (offset : Nat) (rest : List Point) :
    scan offset (p :: rest) = scan (offset + p.width) rest := by
  rw [scan, if_neg (by rw [hp]; decide)]

/-- The runs of a chain come first, a full stop between neighbours. -/
theorem scan_chain {p : Point} (hp : p.isWord = true) (offset : Nat) (rest : List Point) :
    scan offset (p :: rest) =
      spaced offset ((Word.chain (p :: rest)).1.map Text.ofPoints) ++
        scan (offset + (Text.join [Word.dot] ((Word.chain (p :: rest)).1.map Text.ofPoints)).length)
          (Word.chain (p :: rest)).2 := by
  generalize hps : p :: rest = ps
  fun_induction Word.chain ps generalizing p rest offset with
  | case1 ps next hnext ih =>
    obtain ⟨q, more, rfl⟩ : ∃ q more, next = q :: more := by
      unfold Word.afterDot? at hnext
      grind
    have hq := Word.isWord_head_of_afterDot? hnext
    have hgap : (Point.unit Word.dot).isWord = false := by decide
    obtain ⟨run, runs, hruns⟩ := List.exists_cons_of_ne_nil (Word.chain_ne_nil (q :: more))
    have hrest := ih hq (offset + (Text.ofPoints (ps.takeWhile Point.isWord)).length + 1) more rfl
    have hjoin : offset + (Text.join [Word.dot] ((ps.takeWhile Point.isWord ::
          (Word.chain (q :: more)).1).map Text.ofPoints)).length =
        offset + (Text.ofPoints (ps.takeWhile Point.isWord)).length + 1 +
          (Text.join [Word.dot] ((Word.chain (q :: more)).1.map Text.ofPoints)).length := by
      rw [hruns, List.map_cons, List.map_cons, Text.join_cons_cons]
      simp only [List.length_append, List.length_singleton]
      omega
    rw [← hps, scan_of_isWord hp, hps, Word.eq_cons_of_afterDot? hnext, scan_of_not_isWord hgap]
    rw [hjoin, List.map_cons, spaced, List.cons_append]
    exact congrArg _ hrest
  | case2 ps hnext =>
    rw [← hps, scan_of_isWord hp]
    simp [spaced, Text.join]

theorem scan_eq (offset : Nat) (ps : List Point) :
    scan offset ps = (Word.scan offset ps).flatMap fun w => spaced w.start w.parts := by
  fun_induction Word.scan offset ps with
  | case1 => rw [scan]; rfl
  | case2 offset p rest hp first ih =>
    rw [scan_chain hp, List.flatMap_cons, ← ih]
    rfl
  | case3 offset p rest hp ih => rw [scan_of_not_isWord (by simpa using hp), ih]

theorem filter_tokensFrom (position : Nat) (ws : List Word) :
    (Word.tokensFrom position ws).filter (!·.compound) =
      tokens position (ws.flatMap fun w => spaced w.start w.parts) := by
  induction ws generalizing position with
  | nil => rfl
  | cons w ws ih =>
    rw [Word.tokensFrom, List.filter_append, ih, Word.tokens, List.filter_append, partTokens_eq,
      filter_tokens_eq_self, List.flatMap_cons, tokens_append, length_spaced]
    congr 1
    split <;> simp

/-! ### Stretches that begin and end with a run -/

theorem map_text_scan (offset offset' : Nat) (ps : List Point) :
    (scan offset ps).map (·.text) = (scan offset' ps).map (·.text) := by
  fun_induction scan offset ps generalizing offset' with
  | case1 => rw [scan]
  | case2 offset p rest hp r ih =>
    rw [scan_of_isWord hp, List.map_cons, List.map_cons, ih]
  | case3 offset p rest hp ih =>
    rw [scan_of_not_isWord (by simpa using hp)]
    exact ih _

/-- From the start of a run on there are the runs from it on. -/
theorem exists_append_of_scan {offset : Nat} {ps : List Point} {earlier later : List Run} {r : Run}
    (h : scan offset ps = earlier ++ r :: later) : ∃ before after, ps = before ++ after ∧
      r.start = offset + (Text.ofPoints before).length ∧ scan r.start after = r :: later := by
  fun_induction scan offset ps generalizing earlier with
  | case1 => cases earlier <;> cases h
  | case2 offset p rest hp first =>
    rename_i ih
    cases earlier with
    | nil =>
      obtain ⟨rfl, hlater⟩ := List.cons.inj h
      refine ⟨[], p :: rest, rfl, rfl, ?_⟩
      rw [← hlater]
      exact scan_of_isWord hp _ _
    | cons _ earlier =>
      obtain ⟨before, after, hsplit, hstart, hscan⟩ := ih (List.cons.inj h).2
      refine ⟨(p :: rest).takeWhile Point.isWord ++ before, after, ?_, ?_, hscan⟩
      · rw [List.append_assoc, ← hsplit, List.takeWhile_append_dropWhile]
      · rw [hstart, Text.ofPoints_append, List.length_append, stop, Nat.add_assoc]
  | case3 offset p rest hp ih =>
    obtain ⟨before, after, hsplit, hstart, hscan⟩ := ih h
    refine ⟨p :: before, after, by rw [hsplit]; rfl, ?_, hscan⟩
    rw [hstart, show Text.ofPoints (p :: before) = p.units ++ Text.ofPoints before from rfl,
      List.length_append, p.length_units, Nat.add_assoc]

/-- What is cut off behind a run at the head leaves the run as it is. -/
theorem scan_takeWhile_append {p : Point} (hp : p.isWord = true) {rest inside behind : List Point}
    (h : (p :: rest).dropWhile Point.isWord = inside ++ behind) (offset : Nat) :
    scan offset ((p :: rest).takeWhile Point.isWord ++ inside) =
      ⟨offset, Text.ofPoints ((p :: rest).takeWhile Point.isWord)⟩ ::
        scan (offset + (Text.ofPoints ((p :: rest).takeWhile Point.isWord)).length) inside := by
  have hword : ∀ q ∈ (p :: rest).takeWhile Point.isWord, q.isWord = true :=
    fun q hq => List.mem_takeWhile_imp hq
  obtain ⟨htake, hdrop⟩ : inside.takeWhile Point.isWord = [] ∧
    inside.dropWhile Point.isWord = inside := by
    cases inside with
    | nil => exact ⟨rfl, rfl⟩
    | cons q inside =>
      have hhead := List.head?_dropWhile_not Point.isWord (p :: rest)
      rw [h] at hhead
      have hq : q.isWord = false := by simpa using hhead
      exact ⟨List.takeWhile_cons_of_neg (by simp [hq]), List.dropWhile_cons_of_neg (by simp [hq])⟩
  have hcut : ((p :: rest).takeWhile Point.isWord ++ inside).takeWhile Point.isWord =
      (p :: rest).takeWhile Point.isWord := by
    rw [List.takeWhile_append_of_pos hword, htake, List.append_nil]
  have hleft : ((p :: rest).takeWhile Point.isWord ++ inside).dropWhile Point.isWord = inside := by
    rw [List.dropWhile_append_of_pos hword, hdrop]
  have hcons : (p :: rest).takeWhile Point.isWord = p :: rest.takeWhile Point.isWord :=
    List.takeWhile_cons_of_pos hp
  rw [hcons, List.cons_append] at hcut hleft ⊢
  rw [scan_of_isWord hp, hcut, hleft]

/-- Up to the end of a run there are the runs up to it. -/
theorem exists_prefix_of_scan {offset : Nat} {ps : List Point} {earlier later : List Run} {r : Run}
    (h : scan offset ps = earlier ++ r :: later) : ∃ inside behind, ps = inside ++ behind ∧
      offset + (Text.ofPoints inside).length = r.stop ∧ scan offset inside = earlier ++ [r] := by
  fun_induction scan offset ps generalizing earlier with
  | case1 => cases earlier <;> cases h
  | case2 offset p rest hp first =>
    rename_i ih
    cases earlier with
    | nil =>
      obtain ⟨rfl, -⟩ := List.cons.inj h
      refine ⟨_, _, (List.takeWhile_append_dropWhile (p := Point.isWord)).symm, rfl, ?_⟩
      have hscan :=
        scan_takeWhile_append hp (List.nil_append ((p :: rest).dropWhile Point.isWord)).symm offset
      rw [List.append_nil] at hscan
      rw [hscan, scan]
      rfl
    | cons _ earlier =>
      obtain ⟨rfl, hlater⟩ := List.cons.inj (h : _ = _ :: (earlier ++ r :: later))
      obtain ⟨inside, behind, hsplit, hstop, hscan⟩ := ih hlater
      refine ⟨(p :: rest).takeWhile Point.isWord ++ inside, behind, ?_, ?_, ?_⟩
      · rw [List.append_assoc, ← hsplit, List.takeWhile_append_dropWhile]
      · rw [← hstop, Text.ofPoints_append, List.length_append, ← Nat.add_assoc]
        rfl
      · rw [scan_takeWhile_append hp hsplit, List.cons_append, ← hscan]
        rfl
  | case3 offset p rest hp ih =>
    obtain ⟨inside, behind, hsplit, hstop, hscan⟩ := ih h
    refine ⟨p :: inside, behind, by rw [hsplit]; rfl, ?_, ?_⟩
    · rw [← hstop, show Text.ofPoints (p :: inside) = p.units ++ Text.ofPoints inside from rfl,
        List.length_append, p.length_units, Nat.add_assoc]
    · rw [scan_of_not_isWord (by simpa using hp), hscan]

end Run

namespace Text

def runs (t : Text) : List Run := Run.scan 0 t.points

/-- The tokens that are no compounds are those of the runs. -/
theorem filter_tokens (t : Text) : t.tokens.filter (!·.compound) = Run.tokens 0 t.runs := by
  rw [tokens, Run.filter_tokensFrom, runs, Run.scan_eq]
  rfl

theorem phraseTerms_eq_map_runs (t : Text) : t.phraseTerms = t.runs.map (·.text.lower) := by
  rw [phraseTerms, filter_tokens, Run.map_term_tokens]

/-- A stretch of a text from the start of one run to the end of another has the terms of the runs
from the one to the other. -/
theorem phraseTerms_slice {t : Text} {i j : Nat} (hij : i ≤ j) {first last : Run}
    (hfirst : t.runs[i]? = some first) (hlast : t.runs[j]? = some last) :
    phraseTerms (t.slice first.start last.stop) =
      ((t.runs.drop i).take (j - i + 1)).map (·.text.lower) := by
  obtain ⟨hi, rfl⟩ := List.getElem?_eq_some_iff.1 hfirst
  obtain ⟨hj, rfl⟩ := List.getElem?_eq_some_iff.1 hlast
  have hdrop : t.runs.drop i = t.runs[i] :: t.runs.drop (i + 1) := List.drop_eq_getElem_cons hi
  have hearlier : t.runs = t.runs.take i ++ t.runs[i] :: t.runs.drop (i + 1) := by
    rw [← hdrop, List.take_append_drop]
  have hlater : t.runs[i] :: t.runs.drop (i + 1) =
      (t.runs.drop i).take (j - i) ++ t.runs[j] :: t.runs.drop (j + 1) := by
    have hrest : (t.runs.drop i).drop (j - i) = t.runs.drop j := by
      rw [List.drop_drop, Nat.add_sub_cancel' hij]
    rw [← hdrop, ← List.drop_eq_getElem_cons hj, ← hrest, List.take_append_drop]
  obtain ⟨before, after, hsplit, hstart, hscan⟩ :=
    Run.exists_append_of_scan (show Run.scan 0 t.points = _ from hearlier)
  rw [hlater] at hscan
  obtain ⟨inside, behind, rfl, hstop, hinside⟩ := Run.exists_prefix_of_scan hscan
  rw [Nat.zero_add] at hstart
  have hslice : t.slice t.runs[i].start t.runs[j].stop = ofPoints inside := by
    have htext : ofPoints before ++ ofPoints inside ++ ofPoints behind = t := by
      rw [← ofPoints_append, ← ofPoints_append, List.append_assoc, ← hsplit, ofPoints_points]
    have hpart := slice_append (ofPoints before) (ofPoints inside) (ofPoints behind)
    rwa [htext, ← hstart, hstop] at hpart
  have hpoints : (ofPoints inside).points = inside :=
    points_ofPoints_left (points_ofPoints_right hsplit)
  have hruns : (t.runs.drop i).take (j - i + 1) = Run.scan t.runs[i].start inside := by
    rw [hinside, List.take_add_one, List.getElem?_drop, Nat.add_sub_cancel' hij, hlast]
    rfl
  have hterms := congrArg (List.map lower) (Run.map_text_scan 0 t.runs[i].start inside)
  rw [List.map_map, List.map_map] at hterms
  rw [hslice, phraseTerms_eq_map_runs, runs, hpoints, hruns]
  exact hterms

end Text
end Quarry
