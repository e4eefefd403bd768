import Quarry.Proofs.Query.Lexemes
import Quarry.Proofs.Query.Parse
import Quarry.Proofs.Text.Blanks

/-! Blanks in query texts. However many blanks stand in one place of a query, and whatever blanks
begin or end it, its lexemes mean the same and it is parsed to the same tree. -/

namespace Quarry.Query

open Text

/-! ### Operands -/

theorem wordOperand_collapseBlanks (t : Text) : wordOperand (collapseBlanks t) = wordOperand t := by
  have hstar : (collapseBlanks t).endsWith [42] = t.endsWith [42] := by
    rw [endsWith_singleton, endsWith_singleton, Bool.eq_iff_iff, beq_iff_eq, beq_iff_eq,
      getLast?_collapseBlanks_eq (by decide)]
  rw [wordOperand, hstar, strip_collapseBlanks (by decide), queryTerms_collapseBlanks,
    queryTerms_collapseBlanks, wordOperand]

theorem symbol_ofWord_collapseBlanks (t : Text) :
    (Lexeme.ofWord (collapseBlanks t)).symbol = (Lexeme.ofWord t).symbol := by
  have hkeyword : ∀ keyword ∈ [andWord, orWord, notWord],
      (collapseBlanks t == keyword) = (t == keyword) := by
    intro keyword hmem
    have hall : ∀ keyword ∈ [andWord, orWord, notWord],
        keyword.all (fun u => !isBlank u) = true := by decide
    rw [Bool.eq_iff_iff, beq_iff_eq, beq_iff_eq,
      collapseBlanks_eq_iff (unblank_of_all (hall keyword hmem))]
  rw [Lexeme.ofWord, hkeyword andWord (by decide), hkeyword orWord (by decide),
    hkeyword notWord (by decide), Lexeme.ofWord]
  split_ifs
  · rfl
  · rfl
  · rfl
  · simp only [Lexeme.Kind.symbol, operand, wordOperand_collapseBlanks]

theorem symbol_phrase_collapseBlanks (t : Text) :
    (Lexeme.Kind.phrase (collapseBlanks t)).symbol = (Lexeme.Kind.phrase t).symbol := by
  simp only [Lexeme.Kind.symbol, operand, phraseTerms_collapseBlanks]

/-- The inside of a proximity group, by what stands in front of its last comma and what behind. -/
theorem toOption_ofNearBody (body : Text) : (Lexeme.ofNearBody body).toOption =
    if body.contains 40 || body.contains 34 then none
    else (partAtLast? 44 body).bind fun (list, distance) =>
      if (fields Lexeme.isNearGap list).length < 2 then none
      else if distance.trim.isEmpty || !distance.trim.all isDigit then none
      else some (.near (fields Lexeme.isNearGap list)
        (.ofDecimal false (digitsToNat distance.trim) 0)) := by
  rw [Lexeme.ofNearBody, partAtLast?]
  split
  · rfl
  · cases lastOffsetOf? 44 body with
    | none => rfl
    | some comma =>
      simp only [Option.map_some, Option.bind_some]
      split
      · rfl
      · split <;> rfl

theorem toOption_ofNearBody_collapseBlanks (body : Text) :
    (Lexeme.ofNearBody (collapseBlanks body)).toOption = (Lexeme.ofNearBody body).toOption := by
  have hcontains : ∀ u, isBlank u = false → (collapseBlanks body).contains u = body.contains u := by
    intro u hu
    rw [Bool.eq_iff_iff, List.contains_iff_mem, List.contains_iff_mem, mem_collapseBlanks hu]
  rw [toOption_ofNearBody, toOption_ofNearBody, hcontains 40 (by decide), hcontains 34 (by decide),
    partAtLast?_collapseBlanks (by decide)]
  cases partAtLast? 44 body with
  | none => rfl
  | some parts =>
    obtain ⟨list, distance⟩ := parts
    have hfields : fields Lexeme.isNearGap (collapseBlanks list) = fields Lexeme.isNearGap list :=
      fields_collapseBlanks (fun u hu => by simp [Lexeme.isNearGap, hu]) list
    have hdigit : ∀ u, isBlank u = true → isDigit u = false := by
      intro u hu
      rw [← Bool.not_eq_true]
      intro hdigit
      simp [(inner_of_isDigit hdigit).1] at hu
    simp only [Option.map_some, Option.bind_some, Prod.map_apply, hfields, trim_collapseBlanks,
      isEmpty_collapseBlanks, all_collapseBlanks hdigit]
    -- A distance that is read has digits only, so that no blank of it is lost.
    cases hall : distance.trim.all isDigit with
    | false => simp
    | true =>
      have hsame : collapseBlanks distance.trim = distance.trim := collapseBlanks_of_all fun u hu =>
        (inner_of_isDigit (List.all_eq_true.1 hall u hu)).1
      rw [hsame]

/-! ### Lexemes -/

namespace Lexeme

/-- The bare word at the head of a text, and the rest. -/
def word? (depth : Nat) (t : Text) : Option (Text × Text) :=
  (wordLength? depth t).map fun n => (t.take n, t.drop n)

theorem word?_cons (depth : Nat) (u : UInt16) (t : Text) : word? depth (u :: t) =
    if depth = 0 && (isBlank u || u == 34 || u == 41) then some ([], u :: t)
    else (word? (if u = 40 then depth + 1 else if u = 41 then depth - 1 else depth) t).map
      (Prod.map (u :: ·) id) := by
  rw [word?, wordLength?]
  split
  · rfl
  · rw [word?, Option.map_map, Option.map_map]
    rfl

theorem word?_blank {b : UInt16} (hb : isBlank b = true) (depth : Nat) (t : Text) :
    word? depth (b :: t) =
    if depth = 0 then some ([], b :: t) else (word? depth t).map (Prod.map (b :: ·) id) := by
  have hne : ∀ u, isBlank u = false → b ≠ u := by
    rintro u hu rfl
    simp [hu] at hb
  rw [word?_cons, hb, if_neg (hne 40 (by decide)), if_neg (hne 41 (by decide))]
  simp

theorem word?_collapseBlanks (depth : Nat) (t : Text) :
    word? depth (collapseBlanks t) =
      (word? depth t).map (Prod.map collapseBlanks collapseBlanks) := by
  have hspace : isBlank 0x20 = true := by decide
  fun_induction collapseBlanks t generalizing depth with
  | case1 =>
    rw [word?, wordLength?]
    split <;> rfl
  | case2 b hb =>
    rw [word?_blank hspace, word?_blank hb]
    split
    · rw [Option.map_some, Prod.map_apply, collapseBlanks_singleton hb]
      rfl
    · rw [word?, wordLength?, if_neg ‹_›]
      rfl
  | case3 b hb v rest hv ih =>
    rw [ih, word?_blank hb, word?_blank hv]
    split
    · rw [Option.map_some, Option.map_some, Prod.map_apply, Prod.map_apply,
        collapseBlanks_blank_blank hb hv]
    · cases word? depth rest with
      | none => rfl
      | some parts => simp [Prod.map, collapseBlanks_blank_blank hb hv]
  | case4 b hb v rest hv ih =>
    have hv : isBlank v = false := by simpa using hv
    rw [word?_blank hspace, ih, word?_blank hb]
    split
    · rw [Option.map_some, Prod.map_apply, collapseBlanks_blank hb hv]
      rfl
    · rename_i hdepth
      rw [word?_cons, if_neg (by simp [hdepth])]
      cases word? _ rest with
      | none => rfl
      | some parts => simp [Prod.map, collapseBlanks_blank hb hv]
  | case5 v rest hv ih =>
    have hv : isBlank v = false := by simpa using hv
    rw [word?_cons, word?_cons, ih]
    split
    · rw [Option.map_some, Prod.map_apply, collapseBlanks_cons hv]
      rfl
    · cases word? _ rest with
      | none => rfl
      | some parts => simp [Prod.map, collapseBlanks_cons hv]

/-! ### Lexemes at the head of a text -/

/-- What the lexeme at the head of a text means, and the rest of the text. -/
def head? (t : Text) : Option (Except Flaw (Option Symbol) × Text) :=
  (first t).toOption.map fun (kind, n) => (kind.symbol, t.drop n)

theorem head?_phrase (t : Text) : head? (34 :: t) =
    (partAt? 34 t).map fun (body, rest) => ((Kind.phrase body).symbol, rest) := by
  rw [head?, first, partAt?]
  cases offsetOf? 34 t <;> rfl

theorem head?_opening (t : Text) : head? (40 :: t) = some (.ok (some .opening), t) := rfl

theorem head?_closing (t : Text) : head? (41 :: t) = some (.ok (some .closing), t) := rfl

theorem head?_near (t : Text) : head? (nearOpening ++ t) = (partAt? 41 t).bind fun (body, rest) =>
    (ofNearBody body).toOption.map fun kind => (kind.symbol, rest) := by
  rw [head?, first_near_opening, partAt?]
  cases offsetOf? 41 t with
  | none => rfl
  | some close =>
    simp only [Option.elim_some, Option.map_some, Option.bind_some]
    cases ofNearBody (t.take close) with
    | error flaw => rfl
    | ok kind =>
      have hrest : (nearOpening ++ t).drop (nearOpening.length + close + 1) =
          t.drop (close + 1) := by
        rw [Nat.add_assoc, List.drop_append, List.drop_eq_nil_of_le (Nat.le_add_right _ _),
          List.nil_append, Nat.add_sub_cancel_left]
      rw [← hrest]
      rfl

theorem BeginsBare.head?_eq {u : UInt16} {t : Text} (h : BeginsBare u t) : head? (u :: t) =
    (word? 0 (u :: t)).map fun (w, rest) => ((ofWord w).symbol, rest) := by
  rw [head?, h.first_eq, word?]
  cases wordLength? 0 (u :: t) <;> rfl

theorem head?_collapseBlanks {u : UInt16} (hu : isBlank u = false) (t : Text) :
    head? (collapseBlanks (u :: t)) = (head? (u :: t)).map (Prod.map id collapseBlanks) := by
  rcases cases_head u t with rfl | rfl | rfl | ⟨rest, hnear⟩ | hbare
  · rw [collapseBlanks_cons hu, head?_phrase, head?_phrase, partAt?_collapseBlanks hu]
    cases partAt? 34 t with
    | none => rfl
    | some parts => simp [symbol_phrase_collapseBlanks]
  · rw [collapseBlanks_cons hu, head?_opening, head?_opening]
    rfl
  · rw [collapseBlanks_cons hu, head?_closing, head?_closing]
    rfl
  · rw [hnear, collapseBlanks_append (unblank_of_all (by decide)), head?_near, head?_near,
      partAt?_collapseBlanks (by decide)]
    cases partAt? 41 rest with
    | none => rfl
    | some parts =>
      simp only [Option.map_some, Option.bind_some, Prod.map, toOption_ofNearBody_collapseBlanks,
        Option.map_map]
      rfl
  · have hsame : BeginsBare u (collapseBlanks t) := by
      refine ⟨hbare.phrase, hbare.opening, hbare.closing, ?_⟩
      rw [← collapseBlanks_cons hu, startsWith_collapseBlanks (unblank_of_all (by decide))]
      exact hbare.near
    rw [collapseBlanks_cons hu, hsame.head?_eq, hbare.head?_eq, ← collapseBlanks_cons hu,
      word?_collapseBlanks]
    cases word? 0 (u :: t) with
    | none => rfl
    | some parts => simp [Prod.map, symbol_ofWord_collapseBlanks]

/-! ### Blanks behind a text -/

section

variable {bs : Text} (hbs : ∀ b ∈ bs, isBlank b = true)
include hbs

theorem word?_blanks {depth : Nat} (hdepth : depth ≠ 0) : word? depth bs = none := by
  induction bs with
  | nil =>
    rw [word?, wordLength?, if_neg hdepth]
    rfl
  | cons b bs ih =>
    rw [List.forall_mem_cons] at hbs
    rw [word?_blank hbs.1, if_neg hdepth, ih hbs.2]
    rfl

theorem word?_append_blanks (depth : Nat) (t : Text) :
    word? depth (t ++ bs) = (word? depth t).map (Prod.map id (· ++ bs)) := by
  induction t generalizing depth with
  | nil =>
    by_cases hdepth : depth = 0
    · subst hdepth
      cases bs with
      | nil => rfl
      | cons b bs =>
        rw [List.nil_append, word?_blank (hbs b List.mem_cons_self), if_pos rfl]
        rfl
    · rw [List.nil_append, word?_blanks hbs hdepth, word?, wordLength?, if_neg hdepth]
      rfl
  | cons u t ih =>
    rw [List.cons_append, word?_cons, word?_cons, ih]
    split
    · rfl
    · cases word? _ t <;> rfl

theorem head?_append_blanks (u : UInt16) (t : Text) :
    head? (u :: t ++ bs) = (head? (u :: t)).map (Prod.map id (· ++ bs)) := by
  rcases cases_head u t with rfl | rfl | rfl | ⟨rest, hnear⟩ | hbare
  · rw [List.cons_append, head?_phrase, head?_phrase, partAt?_append_blanks hbs (by decide)]
    cases partAt? 34 t <;> rfl
  · rfl
  · rfl
  · rw [hnear, List.append_assoc, head?_near, head?_near, partAt?_append_blanks hbs (by decide)]
    cases partAt? 41 rest with
    | none => rfl
    | some parts =>
      simp only [Option.map_some, Option.bind_some, Prod.map, Option.map_map]
      rfl
  · have hsame : BeginsBare u (t ++ bs) := by
      refine ⟨hbare.phrase, hbare.opening, hbare.closing, ?_⟩
      rw [← List.cons_append, startsWith_append_blanks hbs (unblank_of_all (by decide))]
      exact hbare.near
    rw [List.cons_append, hsame.head?_eq, hbare.head?_eq, ← List.cons_append,
      word?_append_blanks hbs]
    cases word? 0 (u :: t) <;> rfl

end

theorem length_head? {u : UInt16} (hu : isBlank u = false) {t : Text}
    {a : Except Flaw (Option Symbol)} {rest : Text} (h : head? (u :: t) = some (a, rest)) :
    rest.length ≤ t.length := by
  rw [head?] at h
  cases hfirst : first (u :: t) with
  | error flaw =>
    rw [hfirst] at h
    cases h
  | ok found =>
    rw [hfirst] at h
    cases h
    have hpos := first_pos hu hfirst
    rw [List.length_drop, List.length_cons]
    omega

end Lexeme

/-! ### Query texts -/

/-- What the lexemes of a text mean, if it has lexemes. -/
def meanings (t : Text) : Option (List (Except Flaw (Option Symbol))) :=
  (lexemes t).toOption.map (·.map (·.kind.symbol))

theorem toOption_scan_of_first {u : UInt16} (hu : isBlank u = false) {t : Text} {kind : Lexeme.Kind}
    {n : Nat} (hfirst : Lexeme.first (u :: t) = .ok (kind, n)) (offset : Nat) :
    (Lexeme.scan offset (u :: t)).toOption.map (·.map (·.kind.symbol)) =
      ((Lexeme.scan (offset + n) (t.drop (n - 1))).toOption.map (·.map (·.kind.symbol))).map
        (kind.symbol :: ·) := by
  rw [Lexeme.scan, if_neg (by simp [hu]), hfirst]
  simp only
  cases Lexeme.scan (offset + n) (t.drop (n - 1)) <;> rfl

/-- Where a text stands plays no part in what its lexemes mean. -/
theorem toOption_scan (offset : Nat) (t : Text) :
    (Lexeme.scan offset t).toOption.map (·.map (·.kind.symbol)) = meanings t := by
  rw [meanings, lexemes]
  generalize 0 = start
  fun_induction Lexeme.scan offset t generalizing start with
  | case1 => rw [Lexeme.scan]
  | case2 offset u rest hu ih =>
    rw [ih (start + 1)]
    conv_rhs => rw [Lexeme.scan, if_pos hu]
  | case3 offset u rest hu flaw hfirst =>
    rw [Lexeme.scan, if_neg hu, hfirst]
    rfl
  | case4 offset u rest hu kind length hfirst ih =>
    have hu : isBlank u = false := by simpa using hu
    rw [toOption_scan_of_first hu hfirst start, ← ih (start + length)]
    cases Lexeme.scan (offset + length) (rest.drop (length - 1)) <;> rfl

theorem meanings_blank {b : UInt16} (hb : isBlank b = true) (t : Text) :
    meanings (b :: t) = meanings t := by
  rw [meanings, lexemes, Lexeme.scan, if_pos hb, toOption_scan]

theorem meanings_cons {u : UInt16} (hu : isBlank u = false) (t : Text) : meanings (u :: t) =
    (Lexeme.head? (u :: t)).bind fun (a, rest) => (meanings rest).map (a :: ·) := by
  rw [meanings, lexemes, Lexeme.head?]
  cases hfirst : Lexeme.first (u :: t) with
  | error flaw =>
    rw [Lexeme.scan, if_neg (by simp [hu]), hfirst]
    rfl
  | ok found =>
    obtain ⟨kind, n⟩ := found
    have hrest : t.drop (n - 1) = (u :: t).drop n := by
      obtain ⟨m, rfl⟩ :=
        Nat.exists_eq_succ_of_ne_zero (Nat.pos_iff_ne_zero.1 (Lexeme.first_pos hu hfirst))
      rfl
    rw [toOption_scan_of_first hu hfirst, toOption_scan, hrest]
    rfl

theorem meanings_collapseBlanks (t : Text) : meanings (collapseBlanks t) = meanings t := by
  induction hn : t.length using Nat.strongRecOn generalizing t with
  | _ n ih =>
    subst hn
    cases t with
    | nil => rfl
    | cons u t =>
      cases hu : isBlank u with
      | true =>
        cases t with
        | nil => rw [collapseBlanks_singleton hu, meanings_blank (by decide), meanings_blank hu]
        | cons v t =>
          have hrest := ih (v :: t).length (Nat.lt_succ_self _) (v :: t) rfl
          cases hv : isBlank v with
          | true => rw [collapseBlanks_blank_blank hu hv, hrest, meanings_blank hu]
          | false =>
            rw [collapseBlanks_blank hu hv, meanings_blank (by decide), hrest, meanings_blank hu]
      | false =>
        rw [collapseBlanks_cons hu, meanings_cons hu, meanings_cons hu, ← collapseBlanks_cons hu,
          Lexeme.head?_collapseBlanks hu]
        cases hhead : Lexeme.head? (u :: t) with
        | none => rfl
        | some found =>
          obtain ⟨a, rest⟩ := found
          have hlength := Lexeme.length_head? hu hhead
          simp only [Option.map_some, Option.bind_some, Prod.map_apply, id,
            ih rest.length (Nat.lt_succ_of_le hlength) rest rfl]

theorem meanings_append_blanks {bs : Text} (hbs : ∀ b ∈ bs, isBlank b = true) (t : Text) :
    meanings (t ++ bs) = meanings t := by
  induction hn : t.length using Nat.strongRecOn generalizing t with
  | _ n ih =>
    subst hn
    cases t with
    | nil =>
      clear ih
      rw [List.nil_append]
      induction bs with
      | nil => rfl
      | cons b bs ih =>
        rw [List.forall_mem_cons] at hbs
        rw [meanings_blank hbs.1, ih hbs.2]
    | cons u t =>
      cases hu : isBlank u with
      | true =>
        rw [List.cons_append, meanings_blank hu, meanings_blank hu]
        exact ih t.length (Nat.lt_succ_self _) t rfl
      | false =>
        rw [List.cons_append, meanings_cons hu, meanings_cons hu, ← List.cons_append,
          Lexeme.head?_append_blanks hbs]
        cases hhead : Lexeme.head? (u :: t) with
        | none => rfl
        | some found =>
          obtain ⟨a, rest⟩ := found
          have hlength := Lexeme.length_head? hu hhead
          simp only [Option.map_some, Option.bind_some, Prod.map_apply, id,
            ih rest.length (Nat.lt_succ_of_le hlength) rest rfl]

theorem meanings_trim (t : Text) : meanings t.trim = meanings t := by
  obtain ⟨before, after, hsplit, hbefore, hafter⟩ := exists_trim t
  have hstart : ∀ s : Text, meanings (before ++ s) = meanings s := by
    intro s
    clear hsplit
    induction before with
    | nil => rfl
    | cons b before ih =>
      rw [List.forall_mem_cons] at hbefore
      rw [List.cons_append, meanings_blank hbefore.1, ih hbefore.2]
  conv_rhs => rw [hsplit]
  rw [List.append_assoc, hstart, meanings_append_blanks hafter]

theorem Spells.congr {xs ys : List Lexeme} {as : List Symbol} (h : Spells xs as)
    (hsymbols : ys.map (·.kind.symbol) = xs.map (·.kind.symbol)) : Spells ys as := by
  induction h generalizing ys with
  | nil =>
    rw [List.map_eq_nil_iff.1 hsymbols]
    exact .nil
  | drop hx _ ih =>
    obtain ⟨y, ys, rfl, hy, hys⟩ := List.map_eq_cons_iff.1 hsymbols
    exact .drop (hy.trans hx) (ih hys)
  | take hx _ ih =>
    obtain ⟨y, ys, rfl, hy, hys⟩ := List.map_eq_cons_iff.1 hsymbols
    exact .take (hy.trans hx) (ih hys)

/-- Lexemes that mean the same are parsed to the same tree. -/
theorem parse_of_meanings {s t : Text} (h : meanings s = meanings t) {q : Query}
    (hparse : parse s = .ok q) :
    parse t = .ok q := by
  obtain ⟨xs, as, hxs, hspells, hderives⟩ := exists_derives_of_parse hparse
  rw [meanings, hxs, meanings] at h
  cases hys : lexemes t with
  | error e =>
    rw [hys] at h
    cases h
  | ok ys =>
    rw [hys] at h
    exact parse_of_derives hys (hspells.congr (Option.some.inj h).symm) hderives

/-- Texts that are the same but for blanks are parsed to the same tree, or neither is parsed. -/
theorem parse_of_blanks {s t : Text} (h : s.trim.collapseBlanks = t.trim.collapseBlanks) {q : Query}
    (hparse : parse s = .ok q) : parse t = .ok q := by
  refine parse_of_meanings ?_ hparse
  rw [← meanings_trim s, ← meanings_collapseBlanks, h, meanings_collapseBlanks, meanings_trim]

/-- Whichever of two texts that are the same but for blanks is parsed, the tree is the same, and one
is refused if the other is. -/
theorem parse_alike {s t : Text} (h : s.trim.collapseBlanks = t.trim.collapseBlanks) :
    (∃ q, parse s = .ok q ∧ parse t = .ok q) ∨
      ∃ e e', parse s = .error e ∧ parse t = .error e' := by
  cases hs : parse s with
  | ok q => exact .inl ⟨q, rfl, parse_of_blanks h hs⟩
  | error e =>
    cases ht : parse t with
    | ok q => cases hs.symm.trans (parse_of_blanks h.symm ht)
    | error e' => exact .inr ⟨e, e', rfl, rfl⟩

/-- There are blanks at the ends, between lexemes, in a phrase, in the parentheses of a word and in
a proximity group. -/
theorem parse_alike_everywhere :
    ∃ q, parse "  f(a \t b)  NEAR(c\n\nd ,\t 2 )\n\"e  f\" " = .ok q ∧
      parse "f(a b) NEAR(c d , 2 ) \"e f\"" = .ok q := by
  have hok : (parse "f(a b) NEAR(c d , 2 ) \"e f\"").isOk = true := by decide +kernel
  rcases parse_alike (s := "  f(a \t b)  NEAR(c\n\nd ,\t 2 )\n\"e  f\" ")
    (t := "f(a b) NEAR(c d , 2 ) \"e f\"") (by decide +kernel) with h | ⟨e, e', -, he'⟩
  · exact h
  · rw [he'] at hok
    cases hok

end Quarry.Query
