import Quarry.Proofs.Text.Places
import Quarry.Proofs.Text.Units

/-! Texts whose blanks are run together. Each stretch of blanks gives way to one space, and all
other units stay in their order, so that the words of the text and what splitting it at blanks
leaves are the same as before. -/

namespace Quarry

namespace Text

/-! ### Units -/

theorem unblank_of_all {t : Text} (h : t.all (fun u => !isBlank u) = true) :
    ∀ u ∈ t, isBlank u = false :=
  fun u hu => by simpa using List.all_eq_true.1 h u hu

theorem collapseBlanks_cons {u : UInt16} (hu : isBlank u = false) (t : Text) :
    collapseBlanks (u :: t) = u :: collapseBlanks t := by
  rw [collapseBlanks.eq_def]
  simp [hu]

theorem collapseBlanks_singleton {b : UInt16} (hb : isBlank b = true) :
    collapseBlanks [b] = [0x20] := by
  rw [collapseBlanks, if_pos hb]

theorem collapseBlanks_blank_blank {b v : UInt16} (hb : isBlank b = true) (hv : isBlank v = true)
    (t : Text) :
    collapseBlanks (b :: v :: t) = collapseBlanks (v :: t) := by
  rw [collapseBlanks, if_pos hb, if_pos hv]

theorem collapseBlanks_blank {b v : UInt16} (hb : isBlank b = true) (hv : isBlank v = false)
    (t : Text) :
    collapseBlanks (b :: v :: t) = 0x20 :: collapseBlanks (v :: t) := by
  rw [collapseBlanks, if_pos hb, if_neg (by simp [hv])]

/-- Blanks are run together on either side of another unit. -/
theorem collapseBlanks_append_cons {u : UInt16} (hu : isBlank u = false) (s t : Text) :
    collapseBlanks (s ++ u :: t) = collapseBlanks s ++ u :: collapseBlanks t := by
  fun_induction collapseBlanks s with
  | case1 => exact collapseBlanks_cons hu t
  | case2 b hb =>
    rw [List.singleton_append, collapseBlanks_blank hb hu, collapseBlanks_cons hu,
      List.singleton_append]
  | case3 b hb v rest hv ih =>
    rw [List.cons_append, List.cons_append, collapseBlanks_blank_blank hb hv,
      ← List.cons_append, ih]
  | case4 b hb v rest hv ih =>
    rw [List.cons_append, List.cons_append, collapseBlanks_blank hb (by simpa using hv),
      ← List.cons_append, ih, List.cons_append]
  | case5 v rest hv ih =>
    rw [List.cons_append, collapseBlanks_cons (by simpa using hv), ih, List.cons_append]

theorem collapseBlanks_append {s : Text} (hs : ∀ u ∈ s, isBlank u = false) (t : Text) :
    collapseBlanks (s ++ t) = s ++ collapseBlanks t := by
  induction s with
  | nil => rfl
  | cons u s ih =>
    rw [List.forall_mem_cons] at hs
    rw [List.cons_append, collapseBlanks_cons hs.1, ih hs.2, List.cons_append]

theorem collapseBlanks_of_all {t : Text} (h : ∀ u ∈ t, isBlank u = false) :
    collapseBlanks t = t := by
  simpa [collapseBlanks] using collapseBlanks_append h []

/-- A condition that no blank meets is met by all units as before. -/
theorem all_collapseBlanks {p : UInt16 → Bool} (hp : ∀ u, isBlank u = true → p u = false)
    (t : Text) :
    (collapseBlanks t).all p = t.all p := by
  have hspace : p 0x20 = false := hp 0x20 (by decide)
  fun_induction collapseBlanks t with
  | case1 => rfl
  | case2 b hb => simp [hspace, hp b hb]
  | case3 b hb v rest hv ih => simp [ih, hp b hb, hp v hv]
  | case4 b hb v rest hv ih => simp [hspace, hp b hb]
  | case5 v rest hv ih => simp [ih]

theorem isEmpty_collapseBlanks (t : Text) : (collapseBlanks t).isEmpty = t.isEmpty := by
  fun_induction collapseBlanks t with
  | case3 b hb v rest hv ih => exact ih
  | case1 | case2 | case4 | case5 => rfl

/-- A text without blanks comes from itself only. -/
theorem collapseBlanks_eq_iff {s t : Text} (hs : ∀ u ∈ s, isBlank u = false) :
    collapseBlanks t = s ↔ t = s := by
  constructor
  · intro h
    have hall := all_collapseBlanks (p := fun u => !isBlank u) (by simp) t
    have hsame : t.all (fun u => !isBlank u) = true := by
      rw [← hall, h]
      simpa using hs
    rwa [collapseBlanks_of_all (by simpa using hsame)] at h
  · rintro rfl
    exact collapseBlanks_of_all hs

theorem mem_collapseBlanks {u : UInt16} (hu : isBlank u = false) {t : Text} :
    u ∈ collapseBlanks t ↔ u ∈ t := by
  have hblank : ∀ b, isBlank b = true → u ≠ b := by
    rintro b hb rfl
    simp [hu] at hb
  have hspace : u ≠ 0x20 := hblank 0x20 (by decide)
  fun_induction collapseBlanks t with
  | case1 => rfl
  | case2 b hb => simp [hspace, hblank b hb]
  | case3 b hb v rest hv ih => simp [ih, hblank b hb]
  | case4 b hb v rest hv ih => simp [ih, hspace, hblank b hb]
  | case5 v rest hv ih => simp [ih]

theorem getLast?_collapseBlanks (t : Text) :
    (collapseBlanks t).getLast? = t.getLast?.map fun u => if isBlank u then 0x20 else u := by
  fun_induction collapseBlanks t with
  | case1 => rfl
  | case2 b hb => simp [hb]
  | case3 b hb v rest hv ih => rw [ih, List.getLast?_cons_cons]
  | case4 b hb v rest hv ih =>
    rw [collapseBlanks_cons (by simpa using hv)] at ih ⊢
    rw [List.getLast?_cons_cons, ih, List.getLast?_cons_cons]
  | case5 v rest hv ih =>
    rw [List.getLast?_cons, ih, List.getLast?_cons]
    cases rest.getLast? <;> simp [hv]

/-! ### Last units -/

theorem endsWith_singleton (u : UInt16) (t : Text) : t.endsWith [u] = (t.getLast? == some u) := by
  rw [Bool.eq_iff_iff, endsWith, List.isSuffixOf_iff_suffix, beq_iff_eq, List.getLast?_eq_some_iff]
  exact ⟨fun ⟨s, hs⟩ => ⟨s, hs.symm⟩, fun ⟨s, hs⟩ => ⟨s, hs.symm⟩⟩

theorem strip_of_getLast?_ne {u : UInt16} {t : Text} (h : t.getLast? ≠ some u) :
    (t.reverse.dropWhile (· == u)).reverse = t := by
  rw [List.dropWhile_eq_self_iff.2, List.reverse_reverse]
  intro hlength hhead
  rw [List.getElem_reverse] at hhead
  rw [List.length_reverse] at hlength
  refine h ?_
  rw [List.getLast?_eq_getElem?, List.getElem?_eq_getElem (Nat.sub_lt hlength Nat.one_pos)]
  simpa using hhead

theorem getLast?_collapseBlanks_eq {u : UInt16} (hu : isBlank u = false) (t : Text) :
    (collapseBlanks t).getLast? = some u ↔ t.getLast? = some u := by
  rw [getLast?_collapseBlanks]
  cases t.getLast? with
  | none => rfl
  | some v =>
    simp only [Option.map_some, Option.some.injEq]
    split <;> rename_i hv
    · constructor <;> rintro rfl
      · exact absurd hu (by decide)
      · simp [hu] at hv
    · rfl

/-- What is left without the asterisks at the end. -/
theorem strip_collapseBlanks {u : UInt16} (hu : isBlank u = false) (t : Text) :
    ((collapseBlanks t).reverse.dropWhile (· == u)).reverse =
      collapseBlanks (t.reverse.dropWhile (· == u)).reverse := by
  induction t using List.reverseRecOn with
  | nil => rfl
  | append_singleton t v ih =>
    by_cases hv : v = u
    · subst hv
      rw [collapseBlanks_append_cons hu]
      simpa [collapseBlanks] using ih
    · have hlast : (t ++ [v]).getLast? ≠ some u := by simpa using hv
      rw [strip_of_getLast?_ne hlast,
        strip_of_getLast?_ne fun h => hlast ((getLast?_collapseBlanks_eq hu _).1 h)]

/-! ### Trimming -/

theorem trimStart_collapseBlanks (t : Text) :
    (collapseBlanks t).trimStart = collapseBlanks t.trimStart := by
  have hspace : isBlank 0x20 = true := by decide
  simp only [trimStart]
  fun_induction collapseBlanks t with
  | case1 => rfl
  | case2 b hb => simp [hb, hspace, collapseBlanks]
  | case3 b hb v rest hv ih => rw [ih, List.dropWhile_cons_of_pos hb]
  | case4 b hb v rest hv ih =>
    rw [List.dropWhile_cons_of_pos hspace, ih, List.dropWhile_cons_of_pos hb]
  | case5 v rest hv ih =>
    rw [List.dropWhile_cons_of_neg hv, List.dropWhile_cons_of_neg hv,
      collapseBlanks_cons (by simpa using hv)]

/-- A text is all blanks, or it has a last unit that is none. -/
theorem blanks_or_last (t : Text) : (∀ b ∈ t, isBlank b = true) ∨
    ∃ s u bs, t = s ++ u :: bs ∧ isBlank u = false ∧ ∀ b ∈ bs, isBlank b = true := by
  induction t with
  | nil => exact .inl (by simp)
  | cons v t ih =>
    rcases ih with hall | ⟨s, u, bs, rfl, hu, hbs⟩
    · cases hv : isBlank v with
      | true => exact .inl (List.forall_mem_cons.2 ⟨hv, hall⟩)
      | false => exact .inr ⟨[], v, t, rfl, hv, hall⟩
    · exact .inr ⟨v :: s, u, bs, rfl, hu, hbs⟩

theorem trimEnd_of_all {t : Text} (h : ∀ b ∈ t, isBlank b = true) : t.trimEnd = [] := by
  rw [trimEnd, List.dropWhile_eq_nil_iff.2 (by simpa using h)]
  rfl

theorem trimEnd_append_cons {u : UInt16} (hu : isBlank u = false) (s : Text) {bs : Text}
    (hbs : ∀ b ∈ bs, isBlank b = true) : trimEnd (s ++ u :: bs) = s ++ [u] := by
  rw [trimEnd, List.reverse_append, List.reverse_cons, List.append_assoc,
    List.dropWhile_append_of_pos (by simpa using hbs), List.singleton_append,
    List.dropWhile_cons_of_neg (by simp [hu]), List.reverse_cons, List.reverse_reverse]

theorem blank_of_mem_collapseBlanks {t : Text} (h : ∀ b ∈ t, isBlank b = true) :
    ∀ b ∈ collapseBlanks t, isBlank b = true := by
  intro b hb
  cases hblank : isBlank b with
  | true => rfl
  | false => exact hblank.symm.trans (h b ((mem_collapseBlanks hblank).1 hb))

theorem trimEnd_collapseBlanks (t : Text) :
    (collapseBlanks t).trimEnd = collapseBlanks t.trimEnd := by
  rcases blanks_or_last t with hall | ⟨s, u, bs, rfl, hu, hbs⟩
  · rw [trimEnd_of_all hall, trimEnd_of_all (blank_of_mem_collapseBlanks hall)]
    rfl
  · rw [collapseBlanks_append_cons hu, trimEnd_append_cons hu _ (blank_of_mem_collapseBlanks hbs),
      trimEnd_append_cons hu s hbs, collapseBlanks_append_cons hu]
    rfl

theorem trim_collapseBlanks (t : Text) : (collapseBlanks t).trim = collapseBlanks t.trim := by
  rw [trim, trimStart_collapseBlanks, trimEnd_collapseBlanks, trim]

/-- Trimming takes away blanks at both ends. -/
theorem exists_trim (t : Text) : ∃ before after, t = before ++ t.trim ++ after ∧
    (∀ b ∈ before, isBlank b = true) ∧ ∀ b ∈ after, isBlank b = true := by
  have hsplit : t.takeWhile isBlank ++ t.trimStart = t := List.takeWhile_append_dropWhile
  have hbefore : ∀ b ∈ t.takeWhile isBlank, isBlank b = true :=
    fun b hb => List.mem_takeWhile_imp hb
  rcases blanks_or_last t.trimStart with hall | ⟨s, u, bs, hlast, hu, hbs⟩
  · refine ⟨t.takeWhile isBlank, t.trimStart, ?_, hbefore, hall⟩
    rw [trim, trimEnd_of_all hall, List.append_nil, hsplit]
  · refine ⟨t.takeWhile isBlank, bs, ?_, hbefore, hbs⟩
    rw [trim, hlast, trimEnd_append_cons hu s hbs, List.append_assoc, List.append_assoc,
      List.singleton_append, ← hlast, hsplit]

/-- Nothing is left of a text that is all blanks, and of no other. -/
theorem trim_eq_nil_iff {t : Text} : t.trim = [] ↔ ∀ b ∈ t, isBlank b = true := by
  constructor
  · intro h
    obtain ⟨before, after, ht, hbefore, hafter⟩ := exists_trim t
    rw [ht, h, List.append_nil]
    exact List.forall_mem_append.2 ⟨hbefore, hafter⟩
  · intro h
    rw [trim, trimStart, List.dropWhile_eq_nil_iff.2 (by simpa using h)]
    rfl

/-! ### Splitting -/

theorem fields_go_collapseBlanks {isGap : UInt16 → Bool}
    (hgap : ∀ u, isBlank u = true → isGap u = true) (run t : Text) :
    fields.go isGap run (collapseBlanks t) = fields.go isGap run t := by
  have hspace : isGap 0x20 = true := hgap 0x20 (by decide)
  fun_induction collapseBlanks t generalizing run with
  | case1 => rfl
  | case2 b hb => simp [fields.go, hspace, hgap b hb]
  | case3 b hb v rest hv ih =>
    rw [ih, fields.go, if_pos (hgap v hv), fields.go, if_pos (hgap b hb), fields.go,
      if_pos (hgap v hv)]
    simp
  | case4 b hb v rest hv ih =>
    rw [fields.go, if_pos hspace, ih]
    conv_rhs => rw [fields.go, if_pos (hgap b hb)]
  | case5 v rest hv ih => rw [fields.go, ih, ih, fields.go]

/-- Blanks that are gaps part the same fields, however many there are. -/
theorem fields_collapseBlanks {isGap : UInt16 → Bool}
    (hgap : ∀ u, isBlank u = true → isGap u = true) (t : Text) :
    fields isGap (collapseBlanks t) = fields isGap t :=
  fields_go_collapseBlanks hgap [] t

/-- A text parted at the first unit equal to `u`. -/
def partAt? (u : UInt16) (t : Text) : Option (Text × Text) :=
  (offsetOf? u t).map fun n => (t.take n, t.drop (n + 1))

/-- A text parted at the last unit equal to `u`. -/
def partAtLast? (u : UInt16) (t : Text) : Option (Text × Text) :=
  (lastOffsetOf? u t).map fun n => (t.take n, t.drop (n + 1))

theorem partAt?_append {u : UInt16} {s : Text} (h : u ∉ s) (t : Text) :
    partAt? u (s ++ u :: t) = some (s, t) := by
  rw [partAt?, offsetOf?_append h]
  simp

theorem partAt?_of_not_mem {u : UInt16} {t : Text} (h : u ∉ t) : partAt? u t = none := by
  rw [partAt?, offsetOf?_of_not_mem h]
  rfl

theorem partAtLast?_append {u : UInt16} {t : Text} (h : u ∉ t) (s : Text) :
    partAtLast? u (s ++ u :: t) = some (s, t) := by
  rw [partAtLast?, lastOffsetOf?_append h]
  simp

theorem partAtLast?_of_not_mem {u : UInt16} {t : Text} (h : u ∉ t) : partAtLast? u t = none := by
  rw [partAtLast?, lastOffsetOf?, offsetOf?_of_not_mem (by simpa using h)]
  rfl

theorem partAt?_collapseBlanks {u : UInt16} (hu : isBlank u = false) (t : Text) :
    partAt? u (collapseBlanks t) = (partAt? u t).map (Prod.map collapseBlanks collapseBlanks) := by
  by_cases hmem : u ∈ t
  · obtain ⟨s, rest, rfl, hs⟩ := List.eq_append_cons_of_mem hmem
    rw [collapseBlanks_append_cons hu, partAt?_append hs,
      partAt?_append (fun hmem => hs ((mem_collapseBlanks hu).1 hmem))]
    rfl
  · rw [partAt?_of_not_mem hmem, partAt?_of_not_mem fun h => hmem ((mem_collapseBlanks hu).1 h)]
    rfl

theorem partAtLast?_collapseBlanks {u : UInt16} (hu : isBlank u = false) (t : Text) :
    partAtLast? u (collapseBlanks t) =
      (partAtLast? u t).map (Prod.map collapseBlanks collapseBlanks) := by
  by_cases hmem : u ∈ t
  · obtain ⟨before, after, hsplit, hbefore⟩ := List.eq_append_cons_of_mem (List.mem_reverse.2 hmem)
    have ht : t = after.reverse ++ u :: before.reverse := by
      rw [← List.reverse_reverse t, hsplit]
      simp
    have hlast : u ∉ before.reverse := fun h => hbefore (List.mem_reverse.1 h)
    rw [ht, collapseBlanks_append_cons hu, partAtLast?_append hlast,
      partAtLast?_append (fun h => hlast ((mem_collapseBlanks hu).1 h))]
    rfl
  · rw [partAtLast?_of_not_mem hmem,
      partAtLast?_of_not_mem fun h => hmem ((mem_collapseBlanks hu).1 h)]
    rfl

theorem exists_collapseBlanks_cons {b : UInt16} (hb : isBlank b = true) (t : Text) :
    ∃ rest, collapseBlanks (b :: t) = 0x20 :: rest := by
  induction t generalizing b with
  | nil => exact ⟨[], collapseBlanks_singleton hb⟩
  | cons v t ih =>
    cases hv : isBlank v with
    | true => exact collapseBlanks_blank_blank hb hv t ▸ ih hv
    | false => exact ⟨_, collapseBlanks_blank hb hv t⟩

theorem startsWith_collapseBlanks {stem : Text} (hstem : ∀ u ∈ stem, isBlank u = false) (t : Text) :
    (collapseBlanks t).startsWith stem = t.startsWith stem := by
  induction stem generalizing t with
  | nil => rfl
  | cons a stem ih =>
    rw [List.forall_mem_cons] at hstem
    have hblank : ∀ b rest, isBlank b = true → Text.startsWith (b :: rest) (a :: stem) = false := by
      intro b rest hb
      have hne : a ≠ b := by
        rintro rfl
        simp [hstem.1] at hb
      simp [startsWith, List.isPrefixOf, hne]
    cases t with
    | nil => rfl
    | cons u t =>
      cases hu : isBlank u with
      | true =>
        obtain ⟨rest, hrest⟩ := exists_collapseBlanks_cons hu t
        rw [hrest, hblank 0x20 rest (by decide), hblank u t hu]
      | false =>
        have htail := ih hstem.2 t
        simp only [startsWith] at htail
        simp [collapseBlanks_cons hu, startsWith, List.isPrefixOf, htail]

/-! ### Blanks at the end -/

section

variable {bs : Text} (hbs : ∀ b ∈ bs, isBlank b = true)
include hbs

theorem not_mem_blanks {u : UInt16} (hu : isBlank u = false) : u ∉ bs := by
  intro hmem
  simp [hbs u hmem] at hu

theorem partAt?_append_blanks {u : UInt16} (hu : isBlank u = false) (t : Text) :
    partAt? u (t ++ bs) = (partAt? u t).map (Prod.map id (· ++ bs)) := by
  by_cases hmem : u ∈ t
  · obtain ⟨s, rest, rfl, hs⟩ := List.eq_append_cons_of_mem hmem
    rw [List.append_assoc, List.cons_append, partAt?_append hs, partAt?_append hs]
    rfl
  · have happend : u ∉ t ++ bs := List.mem_append.not.2 (not_or.2 ⟨hmem, not_mem_blanks hbs hu⟩)
    rw [partAt?_of_not_mem hmem, partAt?_of_not_mem happend]
    rfl

theorem startsWith_append_blanks {stem : Text} (hstem : ∀ u ∈ stem, isBlank u = false) (t : Text) :
    (t ++ bs).startsWith stem = t.startsWith stem := by
  induction stem generalizing t with
  | nil => rfl
  | cons a stem ih =>
    rw [List.forall_mem_cons] at hstem
    cases t with
    | nil =>
      cases bs with
      | nil => rfl
      | cons b bs =>
        have hne : a ≠ b := fun heq => not_mem_blanks hbs hstem.1 (heq ▸ List.mem_cons_self)
        simp [startsWith, List.isPrefixOf, hne]
    | cons u t =>
      have htail := ih hstem.2 t
      simp only [startsWith] at htail
      simp [startsWith, List.isPrefixOf, htail]

end

/-! ### Words -/

/-- A blank parts the words of a text. -/
theorem map_parts_words_append {b : UInt16} (hb : isBlank b = true) (s t : Text) :
    (words (s ++ b :: t)).map (·.parts) = s.words.map (·.parts) ++ t.words.map (·.parts) := by
  have hplain : Plain b := by
    rw [isBlank_iff] at hb
    rw [plain_iff]
    simp only [wideBlanks, List.mem_cons, List.not_mem_nil, or_false, exists_eq_or_imp,
      exists_eq_left] at hb
    omega
  have hgap : (Point.unit b).isWord = false := isWordCode_of_isBlank hb
  have hdot : b ≠ Word.dot := by
    rintro rfl
    exact absurd hb (by decide)
  rw [words, points_append hplain]
  exact Word.map_parts_scan_append hgap hdot 0 s.points t.points

theorem map_parts_words_cons {b : UInt16} (hb : isBlank b = true) (t : Text) :
    (words (b :: t)).map (·.parts) = t.words.map (·.parts) := by
  have hnone : words [] = [] := by rw [words, points, Word.scan]
  have happend := map_parts_words_append hb [] t
  rwa [hnone, List.map_nil, List.nil_append, List.nil_append] at happend

/-- Blanks that are run together part the same words. What stands in front comes along, since a word
is looked at from its beginning. -/
theorem map_parts_words_append_collapseBlanks (s t : Text) :
    (words (s ++ collapseBlanks t)).map (·.parts) = (words (s ++ t)).map (·.parts) := by
  have hspace : isBlank 0x20 = true := by decide
  fun_induction collapseBlanks t generalizing s with
  | case1 => rfl
  | case2 b hb => rw [map_parts_words_append hspace, map_parts_words_append hb]
  | case3 b hb v rest hv ih =>
    rw [ih, map_parts_words_append hv, map_parts_words_append hb, map_parts_words_cons hv]
  | case4 b hb v rest hv ih =>
    rw [map_parts_words_append hspace, map_parts_words_append hb]
    exact congrArg _ (ih [])
  | case5 v rest hv ih =>
    have hmove := ih (s ++ [v])
    rwa [List.append_assoc, List.append_assoc] at hmove

theorem map_parts_words_collapseBlanks (t : Text) :
    (collapseBlanks t).words.map (·.parts) = t.words.map (·.parts) :=
  map_parts_words_append_collapseBlanks [] t

theorem phraseTerms_collapseBlanks (t : Text) : (collapseBlanks t).phraseTerms = t.phraseTerms := by
  rw [phraseTerms_eq, map_parts_words_collapseBlanks, phraseTerms_eq]

end Text

namespace Word

/-- Some part of a word is a token that is no compound. -/
theorem exists_part {w : Word} (hne : w.parts ≠ []) (position : Nat) :
    ∃ part ∈ w.tokens position, part.compound = false := by
  obtain ⟨part, parts, hparts⟩ := List.exists_cons_of_ne_nil hne
  refine ⟨⟨part.lower, position, w.start, w.start + part.length, false⟩, ?_, rfl⟩
  rw [tokens, hparts, partTokens]
  exact List.mem_append_left _ List.mem_cons_self

/-- No token holds all parts of a text that has several words. -/
theorem exists_part_outside {w w' : Word} {ws : List Word}
    (hwords : ∀ v ∈ w :: w' :: ws, v.parts ≠ [] ∧ ∀ part ∈ v.parts, IsRun part)
    (hbehind : (w :: w' :: ws).Pairwise fun v v' => v.stop ≤ v'.start) {whole : Token}
    (hwhole : whole ∈ tokensFrom 0 (w :: w' :: ws)) :
    ∃ part ∈ tokensFrom 0 (w :: w' :: ws), part.compound = false ∧
      ¬(whole.start ≤ part.start ∧ part.stop ≤ whole.stop) := by
  obtain ⟨⟨hne, hruns⟩, hrest⟩ := List.forall_mem_cons.1 hwords
  obtain ⟨⟨hne', hruns'⟩, -⟩ := List.forall_mem_cons.1 hrest
  obtain ⟨hbehind, -⟩ := List.pairwise_cons.1 hbehind
  rw [tokensFrom] at hwhole ⊢
  rcases List.mem_append.1 hwhole with hfirst | hlater
  · -- The token is of the first word: a part of the second one stands behind it.
    obtain ⟨part, hpart, hcompound⟩ := exists_part hne' (0 + w.parts.length)
    have hinside := within_of_mem_tokens hne hruns hfirst
    have hwithin := within_of_mem_tokens hne' hruns' hpart
    have hstop := hbehind w' List.mem_cons_self
    refine ⟨part, List.mem_append_right _ ?_, hcompound, by omega⟩
    rw [tokensFrom]
    exact List.mem_append_left _ hpart
  · -- It is of a later word: a part of the first one stands in front of it.
    obtain ⟨part, hpart, hcompound⟩ := exists_part hne 0
    obtain ⟨v, hv, first, htoken⟩ := mem_tokensFrom hlater
    have hinside := within_of_mem_tokens (hrest v hv).1 (hrest v hv).2 htoken
    have hwithin := within_of_mem_tokens hne hruns hpart
    have hstop := hbehind v hv
    exact ⟨part, List.mem_append_left _ hpart, hcompound, by omega⟩

end Word

namespace Text

/-- The terms of a bare word of a query by the words that it holds. -/
theorem queryTerms_eq (t : Text) : t.queryTerms = match t.words with
    | [w] => if w.parts.length ≤ 1 then t.phraseTerms else [w.text.lower]
    | _ => t.phraseTerms := by
  have hwords : ∀ w ∈ t.words, w.parts ≠ [] ∧ ∀ part ∈ w.parts, Word.IsRun part :=
    fun _ => isRun_of_mem_words
  have hbehind : t.words.Pairwise fun w w' => w.stop ≤ w'.start := Word.pairwise_scan 0 t.points
  have htokens : t.tokens = Word.tokensFrom 0 t.words := rfl
  generalize t.words = ws at hwords hbehind htokens ⊢
  match ws with
  | [] =>
    rw [queryTerms, phraseTerms, htokens]
    rfl
  | [w] =>
    obtain ⟨hne, hruns⟩ := hwords w (List.mem_singleton_self w)
    rw [Word.tokensFrom, Word.tokensFrom, List.append_nil] at htokens
    have hinside : ∀ part ∈ t.tokens, w.start ≤ part.start ∧
        part.stop ≤ w.start + w.text.length := by
      intro part hpart
      have hwithin := Word.within_of_mem_tokens hne hruns (htokens ▸ hpart)
      exact ⟨hwithin.1, hwithin.2.2⟩
    have hcompounds : t.tokens.filter (·.compound) = if w.parts.length ≤ 1 then [] else
        [⟨w.text.lower, 0, w.start, w.start + w.text.length, true⟩] := by
      rw [htokens, Word.tokens, List.filter_append, Run.partTokens_eq, Run.filter_compound_tokens]
      split <;> rfl
    by_cases hsingle : w.parts.length ≤ 1
    · simp only [queryTerms, hcompounds, if_pos hsingle]
      rfl
    · simp only [queryTerms, hcompounds, if_neg hsingle]
      refine if_pos (List.all_eq_true.2 fun part hpart => ?_)
      simpa using hinside part (List.mem_filter.1 hpart).1
  | w :: w' :: ws =>
    rw [queryTerms]
    split
    · rename_i whole hwhole
      have hmem : whole ∈ t.tokens.filter (·.compound) := hwhole ▸ List.mem_singleton_self whole
      obtain ⟨part, hpart, hcompound, houtside⟩ :=
        Word.exists_part_outside hwords hbehind (htokens ▸ (List.mem_filter.1 hmem).1)
      refine if_neg fun hall => houtside ?_
      have hpart :=
        List.all_eq_true.1 hall part (List.mem_filter.2 ⟨htokens ▸ hpart, by simp [hcompound]⟩)
      simpa using hpart
    · rfl

theorem queryTerms_congr {s t : Text} (h : s.words.map (·.parts) = t.words.map (·.parts)) :
    s.queryTerms = t.queryTerms := by
  have hphrase : s.phraseTerms = t.phraseTerms := by rw [phraseTerms_eq, h, phraseTerms_eq]
  rw [queryTerms_eq, queryTerms_eq, hphrase]
  generalize s.words = ws at h ⊢
  generalize t.words = ws' at h ⊢
  match ws, ws' with
  | [], [] => rfl
  | [w], [w'] =>
    have hparts : w.parts = w'.parts := (List.cons.inj h).1
    simp only [Word.text, hparts]
  | _ :: _ :: _, _ :: _ :: _ => rfl
  | [], _ :: _ | _ :: _, [] => cases h
  | [_], _ :: _ :: _ | _ :: _ :: _, [_] => cases (List.cons.inj h).2

theorem queryTerms_collapseBlanks (t : Text) : (collapseBlanks t).queryTerms = t.queryTerms :=
  queryTerms_congr (map_parts_words_collapseBlanks t)

end Text
end Quarry
