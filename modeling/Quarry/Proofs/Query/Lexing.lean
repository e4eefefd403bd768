import Quarry.Proofs.Query.Lexemes
import Quarry.Proofs.Query.Normal
import Quarry.Proofs.Text.Units

/-! How printed pieces of a query are read as lexemes, wherever they stand in front of a blank, a
closing parenthesis or the end. -/

namespace Quarry.Query

/-- What may follow a bare word: a blank, a closing parenthesis, or nothing. -/
def Ends (rest : Text) : Prop := ∀ u more, rest = u :: more → Text.isBlank u = true ∨ u = 41

/-- The text is read as lexemes that spell the symbols, in front of anything that may follow
a word. -/
def Lexes (t : Text) (as : List Symbol) : Prop :=
  ∀ (offset : Nat) (rest : Text) (ys : List Lexeme), Ends rest →
    Lexeme.scan (offset + t.length) rest = .ok ys →
    ∃ xs, Lexeme.scan offset (t ++ rest) = .ok (xs ++ ys) ∧ Spells xs as

theorem ends_nil : Ends [] := nofun

theorem ends_cons {u : UInt16} (h : Text.isBlank u = true ∨ u = 41) (rest : Text) :
    Ends (u :: rest) := by
  intro v more heq
  cases heq
  exact h

/-- Reading goes on behind the first lexeme. -/
theorem scan_append {u : UInt16} {t rest : Text} {kind : Lexeme.Kind} (hu : Text.isBlank u = false)
    (hfirst : Lexeme.first (u :: t ++ rest) = .ok (kind, t.length + 1)) {offset : Nat}
    {ys : List Lexeme} (hrest : Lexeme.scan (offset + (u :: t).length) rest = .ok ys) :
    Lexeme.scan offset (u :: t ++ rest) =
      .ok (⟨kind, offset, offset + (u :: t).length⟩ :: ys) := by
  rw [List.cons_append] at hfirst ⊢
  rw [Lexeme.scan, hu, if_neg (by decide), hfirst]
  simp only [Nat.add_sub_cancel, List.drop_left, List.length_cons] at hrest ⊢
  rw [hrest]
  rfl

theorem Lexes.of_first {u : UInt16} {t : Text} {kind : Lexeme.Kind} {a : Symbol}
    (hu : Text.isBlank u = false)
    (hfirst : ∀ rest, Ends rest → Lexeme.first (u :: t ++ rest) = .ok (kind, t.length + 1))
    (ha : kind.symbol = .ok (some a)) : Lexes (u :: t) [a] := by
  intro offset rest ys hends hrest
  exact ⟨[_], scan_append hu (hfirst rest hends) hrest, .take ha .nil⟩

theorem Lexes.blank {t : Text} {as : List Symbol} (h : Lexes t as) : Lexes (32 :: t) as := by
  intro offset rest ys hends hrest
  rw [List.length_cons, ← Nat.add_assoc, Nat.add_right_comm] at hrest
  obtain ⟨xs, hscan, hspells⟩ := h (offset + 1) rest ys hends hrest
  refine ⟨xs, ?_, hspells⟩
  rw [List.cons_append, Lexeme.scan, if_pos (by decide)]
  exact hscan

/-- A text that is read as what the grammar derives is parsed to the tree. -/
theorem Lexes.parse {t : Text} {as : List Symbol} {q : Query} (h : Lexes t as)
    (hderives : Derives .query as q) : parse t = .ok q := by
  obtain ⟨xs, hscan, hspells⟩ := h 0 [] [] ends_nil (by rw [Lexeme.scan])
  rw [List.append_nil, List.append_nil] at hscan
  exact parse_of_derives hscan hspells hderives

/-- Two texts are read one after the other if the second begins with what may follow a word. -/
theorem Lexes.append {s t : Text} {as bs : List Symbol} (hs : Lexes s as) (ht : Lexes t bs)
    (hends : ∀ rest, Ends (t ++ rest)) : Lexes (s ++ t) (as ++ bs) := by
  intro offset rest ys hrest hys
  rw [List.length_append, ← Nat.add_assoc] at hys
  obtain ⟨zs, hscan, hspells⟩ := ht (offset + s.length) rest ys hrest hys
  obtain ⟨xs, hscan', hspells'⟩ := hs offset (t ++ rest) (zs ++ ys) (hends rest) hscan
  refine ⟨xs ++ zs, ?_, hspells'.append hspells⟩
  rw [List.append_assoc, List.append_assoc]
  exact hscan'

/-- A text in parentheses. -/
theorem Lexes.group {t : Text} {as : List Symbol} (h : Lexes t as) :
    Lexes (40 :: (t ++ [41])) (.opening :: (as ++ [.closing])) := by
  have hclosing : Lexes [41] [.closing] := .of_first (by decide) (fun _ _ => rfl) rfl
  have hinner : Lexes (t ++ [41]) (as ++ [.closing]) :=
    h.append hclosing fun rest => ends_cons (.inr rfl) rest
  intro offset rest ys hends hys
  rw [List.length_cons, Nat.add_comm _ 1, ← Nat.add_assoc] at hys
  obtain ⟨xs, hscan, hspells⟩ := hinner (offset + 1) rest ys hends hys
  refine ⟨⟨.opening, offset, offset + 1⟩ :: xs, ?_, .take rfl hspells⟩
  exact scan_append (t := []) (by decide) rfl hscan

/-! ### Words -/

theorem bare_of_all {t : Text} (h : t.all (fun u => decide (Bare u)) = true) : ∀ u ∈ t, Bare u :=
  fun u hu => of_decide_eq_true (List.all_eq_true.1 h u hu)

theorem Bare.of_inner {u : UInt16} (h : Text.Inner u) : Bare u := by
  obtain ⟨hblank, hnot⟩ := h
  simp only [List.mem_cons, List.not_mem_nil, or_false, not_or] at hnot
  exact ⟨hblank, hnot.1, hnot.2.1, hnot.2.2.1⟩

theorem wordLength?_append {t rest : Text} (ht : ∀ u ∈ t, Bare u) (hrest : Ends rest) :
    Lexeme.wordLength? 0 (t ++ rest) = some t.length := by
  induction t with
  | nil =>
    cases rest with
    | nil => rfl
    | cons u more =>
      rw [List.nil_append, Lexeme.wordLength?]
      rcases hrest u more rfl with hu | hu <;> simp [hu]
  | cons u t ih =>
    rw [List.forall_mem_cons] at ht
    obtain ⟨⟨hblank, hquote, hopen, hclose⟩, ht⟩ := ht
    rw [List.cons_append, Lexeme.wordLength?]
    simp [hblank, hquote, hopen, hclose, ih ht]

theorem not_startsWith_nearOpening {t rest : Text} (ht : ∀ u ∈ t, Bare u) (hrest : Ends rest) :
    Text.startsWith (t ++ rest) nearOpening = false := by
  rw [← Bool.not_eq_true, Text.startsWith, List.isPrefixOf_iff_prefix]
  rintro ⟨more, hmore⟩
  have hopen : 40 ∉ t := fun hmem => (ht 40 hmem).2.2.1 rfl
  -- Its parenthesis would stand in the word, or else some part of it would be what ends the word.
  rcases List.append_eq_append_iff.1 hmore with ⟨s, hs, -⟩ | ⟨s, hs, hs'⟩
  · refine hopen (hs ▸ List.mem_append_left _ ?_)
    decide
  · cases s with
    | nil =>
      rw [List.append_nil] at hs
      exact hopen (hs ▸ by decide)
    | cons v s =>
      have hv : v ∈ nearOpening := hs ▸ List.mem_append_right _ List.mem_cons_self
      have hall : nearOpening.all (fun w => !Text.isBlank w && w != 41) = true := by decide
      have hnot := List.all_eq_true.1 hall v hv
      rcases hrest v _ hs' with hblank | hclose
      · simp [hblank] at hnot
      · simp [hclose] at hnot

theorem first_word {u : UInt16} {t rest : Text} (ht : ∀ v ∈ u :: t, Bare v) (hrest : Ends rest) :
    Lexeme.first (u :: t ++ rest) = .ok (Lexeme.ofWord (u :: t), t.length + 1) := by
  have hlength := wordLength?_append ht hrest
  have hnear := not_startsWith_nearOpening ht hrest
  obtain ⟨-, hquote, hopen, hclose⟩ := ht u List.mem_cons_self
  rw [Lexeme.first]
  · rw [hnear, if_neg (by decide), hlength]
    simp
  · intro more heq
    exact hquote (List.cons.inj heq).1
  · intro more heq
    exact hopen (List.cons.inj heq).1
  · intro more heq
    exact hclose (List.cons.inj heq).1

theorem lexes_word {t : Text} {a : Symbol} (hne : t ≠ []) (ht : ∀ u ∈ t, Bare u)
    (ha : (Lexeme.ofWord t).symbol = .ok (some a)) : Lexes t [a] := by
  obtain ⟨u, t, rfl⟩ := List.exists_cons_of_ne_nil hne
  exact .of_first (ht u List.mem_cons_self).1 (fun rest hends => first_word ht hends) ha

theorem lexes_and : Lexes andWord [.and] :=
  lexes_word (by decide) (bare_of_all (by decide)) rfl

theorem lexes_or : Lexes orWord [.or] :=
  lexes_word (by decide) (bare_of_all (by decide)) rfl

theorem lexes_not : Lexes notWord [.not] :=
  lexes_word (by decide) (bare_of_all (by decide)) rfl

/-! ### Operands -/

theorem ofWord_of_ne {t : Text} (hand : t ≠ andWord) (hor : t ≠ orWord) (hnot : t ≠ notWord) :
    Lexeme.ofWord t = .word t := by
  rw [Lexeme.ofWord, if_neg (by simpa using hand), if_neg (by simpa using hor),
    if_neg (by simpa using hnot)]

/-- A bare word that is no keyword and has one term stands for the term. -/
theorem lexes_of_queryTerms {s : Text} {t : Term} (hne : s ≠ []) (hinner : ∀ u ∈ s, Text.Inner u)
    (hkeyword : s ∉ [andWord, orWord, notWord]) (hterms : s.queryTerms = [t]) :
    Lexes s [.operand (.term t)] := by
  simp only [List.mem_cons, List.not_mem_nil, or_false, not_or] at hkeyword
  have hword : Lexeme.ofWord s = .word s := ofWord_of_ne hkeyword.1 hkeyword.2.1 hkeyword.2.2
  have hstar : s.endsWith [42] = false := by
    rw [← Bool.not_eq_true, Text.endsWith, List.isSuffixOf_iff_suffix]
    intro hsuffix
    exact (hinner 42 (hsuffix.subset (List.mem_singleton_self 42))).2 (by decide)
  refine lexes_word hne (fun u hu => .of_inner (hinner u hu)) (symbol_of_operand ?_)
  rw [hword, operand, wordOperand, hstar, if_neg (by decide), hterms]
  rfl

theorem lexes_term {t : Term} (h : t.Stable) : Lexes t [.operand (.term t)] := by
  have hterms : t.queryTerms = [t] := h
  refine lexes_of_queryTerms h.inner.1 h.inner.2 (fun hmem => ?_) hterms
  have hkeyword : ∀ keyword ∈ [andWord, orWord, notWord], keyword.queryTerms ≠ [keyword] := by
    decide +kernel
  exact hkeyword t hmem hterms

theorem lexes_stem {t : Text} (h : Text.Stable t) : Lexes (t ++ [42]) [.operand (.stem t)] := by
  obtain ⟨hne, hinner⟩ := h.inner
  have hterms : t.queryTerms = [t] := h
  have hmem : (42 : UInt16) ∈ t ++ [42] := List.mem_append_right _ (List.mem_singleton_self 42)
  have hword : Lexeme.ofWord (t ++ [42]) = .word (t ++ [42]) := by
    have hkeyword : ∀ keyword ∈ [andWord, orWord, notWord], (42 : UInt16) ∉ keyword := by decide
    refine ofWord_of_ne ?_ ?_ ?_
    · exact fun heq => hkeyword andWord (by decide) (heq ▸ hmem)
    · exact fun heq => hkeyword orWord (by decide) (heq ▸ hmem)
    · exact fun heq => hkeyword notWord (by decide) (heq ▸ hmem)
  have hstar : (t ++ [42]).endsWith [42] = true := by
    rw [Text.endsWith, List.isSuffixOf_iff_suffix]
    exact List.suffix_append t [42]
  have hbase : ((t ++ [42]).reverse.dropWhile (· == 42)).reverse = t := by
    rw [List.reverse_append, List.reverse_singleton, List.singleton_append,
      List.dropWhile_cons_of_pos (by decide), List.dropWhile_eq_self_iff.2, List.reverse_reverse]
    intro hlength
    have hlast := (hinner _ (List.mem_reverse.1 (List.getElem_mem hlength))).2
    simp only [List.mem_cons, not_or] at hlast
    simpa using hlast.2.2.2.1
  refine lexes_word (by simp) (fun u hu => ?_) (symbol_of_operand ?_)
  · rcases List.mem_append.1 hu with hu | hu
    · exact .of_inner (hinner u hu)
    · rw [List.mem_singleton.1 hu]
      exact ⟨by decide, by decide, by decide, by decide⟩
  · rw [hword, operand, wordOperand, hstar, if_pos rfl]
    simp only [hbase, hterms]
    rfl

theorem inner_join {separator : Text} {ts : List Term} (h : ∀ t ∈ ts, t.Stable) {u : UInt16}
    (hu : u ∈ Text.join separator ts) : u ∈ separator ∨ Text.Inner u := by
  rcases Text.mem_join hu with hu | ⟨t, ht, hu⟩
  · exact .inl hu
  · exact .inr ((h t ht).inner.2 u hu)

/-- What stands in double quotes stands for its terms. -/
theorem lexes_quoted {body : Text} (hquote : 34 ∉ body) (hne : body.phraseTerms ≠ []) :
    Lexes (34 :: (body ++ [34])) [.operand (.ofTerms body.phraseTerms)] := by
  have hfirst : ∀ rest, Ends rest → Lexeme.first (34 :: (body ++ [34]) ++ rest) =
      .ok (.phrase body, (body ++ [34]).length + 1) := by
    intro rest _
    rw [List.cons_append, List.append_assoc, List.singleton_append, Lexeme.first,
      Text.offsetOf?_append hquote]
    simp
  refine .of_first (by decide) hfirst (symbol_of_operand ?_)
  rw [operand]
  split
  · rename_i hnil
    exact absurd hnil hne
  · rfl

theorem lexes_phrase {ts : List Term} (several : 2 ≤ ts.length) (undotted : ∀ t ∈ ts, 46 ∉ t)
    (h : ∀ t ∈ ts, t.Stable) :
    Lexes (34 :: (Text.join [32] ts ++ [34])) [.operand (.phrase ts)] := by
  have hquote : (34 : UInt16) ∉ Text.join [32] ts := by
    intro hmem
    rcases inner_join h hmem with hmem | hinner
    · exact absurd hmem (by decide)
    · exact hinner.2 (by decide)
  have hterms : Text.phraseTerms (Text.join [32] ts) = ts :=
    Text.phraseTerms_join fun t ht => (h t ht).phraseTerms (undotted t ht)
  obtain ⟨t, t', rest, rfl⟩ := exists_cons_cons several
  have hlexes := lexes_quoted hquote (by rw [hterms]; exact List.cons_ne_nil _ _)
  rwa [hterms] at hlexes

theorem first_near {body : Text} {kind : Lexeme.Kind} (hbody : 41 ∉ body)
    (h : Lexeme.ofNearBody body = .ok kind) (rest : Text) :
    Lexeme.first (nearOpening ++ (body ++ 41 :: rest)) =
      .ok (kind, nearOpening.length + body.length + 1) := by
  rw [Lexeme.first_near_opening, Text.offsetOf?_append hbody, Option.elim_some, List.take_left, h]
  rfl

theorem isNearGap_of_inner {u : UInt16} (h : Text.Inner u) : Lexeme.isNearGap u = false := by
  obtain ⟨hblank, hnot⟩ := h
  simp only [List.mem_cons, List.not_mem_nil, or_false, not_or] at hnot
  simp [Lexeme.isNearGap, hblank, hnot]

section

variable {ts : List Term} (h : ∀ t ∈ ts, t.Stable) (n : Nat)

/-- The inside of a proximity group. -/
def nearBody (ts : List Term) (n : Nat) : Text := Text.join [32] ts ++ 44 :: 32 :: Text.ofNat n

include h in
theorem not_mem_nearBody {u : UInt16} (hu : u ∈ [34, 40, 41]) : u ∉ nearBody ts n := by
  obtain ⟨hmeaning, hspace, hcomma⟩ : u ∈ [34, 40, 41, 42, 44] ∧ u ≠ 32 ∧ u ≠ 44 := by
    simp only [List.mem_cons, List.not_mem_nil, or_false] at hu
    rcases hu with rfl | rfl | rfl <;> decide
  have hinner : ¬Text.Inner u := fun hinner => hinner.2 hmeaning
  intro hmem
  rcases List.mem_append.1 hmem with hmem | hmem
  · rcases inner_join h hmem with hmem | hmem
    · exact hspace (List.mem_singleton.1 hmem)
    · exact hinner hmem
  · rcases List.mem_cons.1 hmem with hmem | hmem
    · exact hcomma hmem
    · rcases List.mem_cons.1 hmem with hmem | hmem
      · exact hspace hmem
      · exact hinner (Text.inner_of_isDigit (Text.isDigit_of_mem_ofNat hmem))

include h in
theorem ofNearBody_nearBody (several : 2 ≤ ts.length) (hn : n < Number.exactBound) :
    Lexeme.ofNearBody (nearBody ts n) = .ok (.near ts (.whole n)) := by
  have hnested : ((nearBody ts n).contains 40 || (nearBody ts n).contains 34) = false := by
    have hopen := not_mem_nearBody h n (u := 40) (by decide)
    have hquote := not_mem_nearBody h n (u := 34) (by decide)
    simp [hopen, hquote]
  have hdigits : ∀ u ∈ Text.ofNat n, Text.Inner u :=
    fun u hu => Text.inner_of_isDigit (Text.isDigit_of_mem_ofNat hu)
  have hcomma : (44 : UInt16) ∉ 32 :: Text.ofNat n := by
    intro hmem
    rcases List.mem_cons.1 hmem with hmem | hmem
    · exact absurd hmem (by decide)
    · exact (hdigits 44 hmem).2 (by decide)
  have hoffset : Text.lastOffsetOf? 44 (nearBody ts n) = some (Text.join [32] ts).length :=
    Text.lastOffsetOf?_append hcomma _
  have hwords : Text.fields Lexeme.isNearGap
      ((nearBody ts n).take (Text.join [32] ts).length) = ts := by
    rw [nearBody, List.take_left]
    refine Text.fields_join (by decide) fun t ht => ⟨(h t ht).inner.1, fun u hu => ?_⟩
    exact isNearGap_of_inner ((h t ht).inner.2 u hu)
  have hdistance : Text.trim ((nearBody ts n).drop ((Text.join [32] ts).length + 1)) =
      Text.ofNat n := by
    rw [nearBody, List.drop_append, List.drop_of_length_le (Nat.le_succ _), Nat.add_sub_cancel_left]
    exact Text.trim_cons (by decide) fun u hu => (hdigits u hu).1
  have hall : (Text.ofNat n).all Text.isDigit = true :=
    List.all_eq_true.2 fun u hu => Text.isDigit_of_mem_ofNat hu
  have hne : (Text.ofNat n).isEmpty = false := List.isEmpty_eq_false_iff.2 (Text.ofNat_ne_nil n)
  have hnumber : Number.ofDecimal false n 0 = .whole n := by
    simp [Number.ofDecimal, hn]
  rw [Lexeme.ofNearBody, hnested, if_neg (by decide), hoffset]
  simp only [hwords, hdistance, hall, hne, Text.digitsToNat_ofNat, hnumber,
    if_neg (Nat.not_lt.2 several)]
  rfl

include h in
theorem lexes_near (several : 2 ≤ ts.length) (distinct : ts.Nodup) (hn : n < Number.exactBound) :
    Lexes (nearOpening ++ (nearBody ts n ++ [41])) [.operand (.near ts (.whole n))] := by
  have hclose : 41 ∉ nearBody ts n := not_mem_nearBody h n (by decide)
  have hbody := ofNearBody_nearBody h n several hn
  have hterms : (ts.flatMap Text.queryTerms).eraseDups = ts := by
    rw [List.flatMap_congr h, List.flatMap_singleton', eraseDups_of_nodup distinct]
  have hfirst : ∀ rest, Ends rest → Lexeme.first (nearOpening ++ (nearBody ts n ++ [41]) ++ rest) =
      .ok (.near ts (.whole n), (nearOpening.tail ++ (nearBody ts n ++ [41])).length + 1) := by
    intro rest _
    have hlength : (nearOpening.tail ++ (nearBody ts n ++ [41])).length =
        nearOpening.length + (nearBody ts n).length := by
      have htail : nearOpening.tail.length + 1 = nearOpening.length := by decide
      simp only [List.length_append, List.length_singleton]
      omega
    rw [List.append_assoc, List.append_assoc, List.singleton_append,
      first_near hclose hbody, hlength]
  refine .of_first (by decide) hfirst (symbol_of_operand ?_)
  rw [operand, hterms]
  obtain ⟨t, t', rest, rfl⟩ := exists_cons_cons several
  rfl

end

end Quarry.Query
