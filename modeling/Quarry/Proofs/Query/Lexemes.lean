import Quarry.Proofs.Fallible
import Quarry.Proofs.Text.Units
import Quarry.Query.Lexeme

/-! Lexemes as stretches of a query text. `Covers` says what a lexeme covers at the head of a text,
for each of the ways in which reading advances; these stretches, from lexeme to lexeme, and the
blanks between them make up the text. -/

namespace Quarry.Query

open Text

/-- A unit that a bare word may have outside parentheses. -/
def Bare (u : UInt16) : Prop := isBlank u = false ∧ u ≠ 34 ∧ u ≠ 40 ∧ u ≠ 41

instance (u : UInt16) : Decidable (Bare u) :=
  inferInstanceAs (Decidable (_ ∧ _))

/-- A text in which parentheses open and close in pairs. -/
inductive Balanced : Text → Prop where
  | nil : Balanced []
  | unit {u : UInt16} {t : Text} (hopen : u ≠ 40) (hclose : u ≠ 41) (h : Balanced t) :
    Balanced (u :: t)
  | group {s t : Text} (hs : Balanced s) (ht : Balanced t) : Balanced (40 :: (s ++ 41 :: t))

/-- A text as a bare word may be: its parentheses come in pairs, and blanks and double quotes stand
inside them only. -/
inductive Worded : Text → Prop where
  | nil : Worded []
  | unit {u : UInt16} {t : Text} (hu : Bare u) (h : Worded t) : Worded (u :: t)
  | group {s t : Text} (hs : Balanced s) (ht : Worded t) : Worded (40 :: (s ++ 41 :: t))

/-- What follows a bare word: nothing, or a unit that no word goes on with. -/
def Stops (rest : Text) : Prop := ∀ u more, rest = u :: more → isBlank u = true ∨ u = 34 ∨ u = 41

namespace Lexeme

/-- A lexeme covers a text where some rest comes behind it. -/
inductive Kind.Covers : Kind → Text → Text → Prop where
  | phrase {body : Text} (hquote : 34 ∉ body) (rest : Text) :
    Covers (.phrase body) (34 :: (body ++ [34])) rest
  | opening (rest : Text) : Covers .opening [40] rest
  | closing (rest : Text) : Covers .closing [41] rest
  | near {body : Text} {words : List Text} {distance : Number} (hclose : 41 ∉ body)
    (hbody : ofNearBody body = .ok (.near words distance)) (rest : Text) :
    Covers (.near words distance) (nearOpening ++ (body ++ [41])) rest
  | word {t rest : Text} (hne : t ≠ []) (ht : Worded t) (hrest : Stops rest) :
    Covers (ofWord t) t rest

theorem Kind.Covers.ne_nil {kind : Kind} {t rest : Text} (h : kind.Covers t rest) : t ≠ [] := by
  cases h with
  | phrase | opening | closing => exact List.cons_ne_nil _ _
  | near => exact List.append_ne_nil_of_left_ne_nil (by decide) _
  | word hne => exact hne

/-! ### Bare words -/

/-- A text that closes some open parentheses, after which it is as a bare word may be. -/
inductive Closes : Nat → Text → Prop where
  | zero {t : Text} (h : Worded t) : Closes 0 t
  | succ {depth : Nat} {s t : Text} (hs : Balanced s) (ht : Closes depth t) :
    Closes (depth + 1) (s ++ 41 :: t)

theorem Closes.unit {depth : Nat} {u : UInt16} {t : Text} (h : Closes depth t) (hopen : u ≠ 40)
    (hclose : u ≠ 41) (hu : depth = 0 → isBlank u = false ∧ u ≠ 34) : Closes depth (u :: t) := by
  cases h with
  | zero h => exact .zero (.unit ⟨(hu rfl).1, (hu rfl).2, hopen, hclose⟩ h)
  | succ hs ht => exact .succ (hs.unit hopen hclose) ht

theorem Closes.opening {depth : Nat} {t : Text} (h : Closes (depth + 1) t) :
    Closes depth (40 :: t) := by
  cases h with
  | succ hs ht =>
    cases ht with
    | zero ht => exact .zero (.group hs ht)
    | succ hs' ht' => simpa using Closes.succ (hs.group hs') ht'

theorem wordLength?_spec {depth : Nat} {t : Text} {n : Nat} (h : wordLength? depth t = some n) :
    ∃ s rest, t = s ++ rest ∧ n = s.length ∧ Closes depth s ∧ Stops rest := by
  induction t generalizing depth n with
  | nil =>
    rw [wordLength?] at h
    split at h
    · rename_i hdepth
      cases h
      exact ⟨[], [], rfl, rfl, hdepth ▸ .zero .nil, nofun⟩
    · cases h
  | cons u t ih =>
    rw [wordLength?] at h
    split at h
    · rename_i hends
      cases h
      simp only [Bool.and_eq_true, decide_eq_true_eq, Bool.or_eq_true, beq_iff_eq,
        or_assoc] at hends
      obtain ⟨rfl, hu⟩ := hends
      refine ⟨[], u :: t, rfl, rfl, .zero .nil, fun v more heq => ?_⟩
      cases heq
      exact hu
    · rename_i hgoes
      simp only [Bool.and_eq_true, decide_eq_true_eq, Bool.or_eq_true, beq_iff_eq, not_and, not_or,
        Bool.not_eq_true] at hgoes
      obtain ⟨m, hm, rfl⟩ := Option.map_eq_some_iff.1 h
      obtain ⟨s, rest, rfl, rfl, hcloses, hstops⟩ := ih hm
      refine ⟨u :: s, rest, rfl, rfl, ?_, hstops⟩
      by_cases hopen : u = 40
      · rw [if_pos hopen] at hcloses
        exact hopen ▸ hcloses.opening
      · by_cases hclose : u = 41
        · -- A parenthesis closes here only inside another one.
          obtain ⟨outer, rfl⟩ : ∃ outer, depth = outer + 1 :=
            Nat.exists_eq_succ_of_ne_zero fun hdepth => (hgoes hdepth).2 hclose
          rw [if_neg hopen, if_pos hclose, Nat.add_sub_cancel] at hcloses
          exact hclose ▸ Closes.succ .nil hcloses
        · rw [if_neg hopen, if_neg hclose] at hcloses
          exact hcloses.unit hopen hclose fun hdepth => (hgoes hdepth).1

theorem wordLength?_zero_spec {t : Text} {n : Nat} (h : wordLength? 0 t = some n) :
    ∃ s rest, t = s ++ rest ∧ n = s.length ∧ Worded s ∧ Stops rest := by
  obtain ⟨s, rest, rfl, hn, hcloses, hstops⟩ := wordLength?_spec h
  cases hcloses with
  | zero hs => exact ⟨s, rest, rfl, hn, hs, hstops⟩

/-! ### The head of a text -/

theorem first_near_opening (t : Text) : first (nearOpening ++ t) =
    (offsetOf? 41 t).elim (.error .nearUnclosed) fun close =>
      (ofNearBody (t.take close)).map fun kind => (kind, nearOpening.length + close + 1) := by
  have hnear : (nearOpening ++ t).startsWith nearOpening = true := by
    rw [startsWith, List.isPrefixOf_iff_prefix]
    exact List.prefix_append ..
  rw [first]
  · simp only [hnear, if_pos, List.drop_left]
    cases offsetOf? 41 t with
    | none => rfl
    | some close =>
      simp only [Option.elim_some]
      cases ofNearBody (t.take close) <;> rfl
  · exact fun more heq => absurd (List.cons.inj heq).1 (by decide)
  · exact fun more heq => absurd (List.cons.inj heq).1 (by decide)
  · exact fun more heq => absurd (List.cons.inj heq).1 (by decide)

/-- A text begins with a bare word if it begins with none of the other lexemes. -/
structure BeginsBare (u : UInt16) (t : Text) : Prop where
  phrase : u ≠ 34
  opening : u ≠ 40
  closing : u ≠ 41
  near : Text.startsWith (u :: t) nearOpening = false

theorem BeginsBare.first_eq {u : UInt16} {t : Text} (h : BeginsBare u t) :
    first (u :: t) = (wordLength? 0 (u :: t)).elim (.error .unbalancedParenthesis) fun n =>
      .ok (ofWord ((u :: t).take n), n) := by
  rw [first]
  · rw [h.near, if_neg (by decide)]
    cases wordLength? 0 (u :: t) <;> rfl
  · exact fun more heq => h.phrase (List.cons.inj heq).1
  · exact fun more heq => h.opening (List.cons.inj heq).1
  · exact fun more heq => h.closing (List.cons.inj heq).1

theorem BeginsBare.wordLength?_pos {u : UInt16} {t : Text} (h : BeginsBare u t)
    (hu : isBlank u = false) {n : Nat} (hlength : wordLength? 0 (u :: t) = some n) : 0 < n := by
  have hgoes : (decide ((0 : Nat) = 0) && (isBlank u || u == 34 || u == 41)) = false := by
    simp [hu, h.phrase, h.closing]
  rw [wordLength?, hgoes, if_neg (by decide)] at hlength
  obtain ⟨m, -, rfl⟩ := Option.map_eq_some_iff.1 hlength
  exact Nat.succ_pos m

/-- A text begins with one of five sorts of lexemes. -/
theorem cases_head (u : UInt16) (t : Text) : u = 34 ∨ u = 40 ∨ u = 41 ∨
    (∃ rest, u :: t = nearOpening ++ rest) ∨ BeginsBare u t := by
  cases hnear : Text.startsWith (u :: t) nearOpening with
  | true =>
    rw [startsWith, List.isPrefixOf_iff_prefix] at hnear
    obtain ⟨rest, hrest⟩ := hnear
    exact .inr (.inr (.inr (.inl ⟨rest, hrest.symm⟩)))
  | false =>
    by_cases hphrase : u = 34
    · exact .inl hphrase
    by_cases hopening : u = 40
    · exact .inr (.inl hopening)
    by_cases hclosing : u = 41
    · exact .inr (.inr (.inl hclosing))
    exact .inr (.inr (.inr (.inr ⟨hphrase, hopening, hclosing, hnear⟩)))

theorem exists_near_of_ofNearBody {body : Text} {kind : Kind} (h : ofNearBody body = .ok kind) :
    ∃ words distance, kind = .near words distance := by
  rw [ofNearBody] at h
  split at h
  · cases h
  · split at h
    · cases h
    · simp only at h
      split_ifs at h
      cases h
      exact ⟨_, _, rfl⟩

/-- What is found at the head of a text covers a stretch of its length there. -/
theorem first_covers {u : UInt16} (hu : isBlank u = false) {t : Text} {kind : Kind} {n : Nat}
    (h : first (u :: t) = .ok (kind, n)) :
    ∃ s rest, u :: t = s ++ rest ∧ n = s.length ∧ kind.Covers s rest := by
  rcases cases_head u t with rfl | rfl | rfl | ⟨near, hnear⟩ | hbare
  · rw [first] at h
    cases hclose : offsetOf? 34 t with
    | none => simp [hclose] at h
    | some close =>
      rw [hclose] at h
      cases h
      obtain ⟨body, rest, rfl, rfl, hbody⟩ := exists_of_offsetOf? hclose
      rw [List.take_left]
      exact ⟨34 :: (body ++ [34]), rest, by simp, by simp, .phrase hbody rest⟩
  · cases h
    exact ⟨[40], t, rfl, rfl, .opening t⟩
  · cases h
    exact ⟨[41], t, rfl, rfl, .closing t⟩
  · rw [hnear, first_near_opening] at h
    cases hclose : offsetOf? 41 near with
    | none =>
      rw [hclose] at h
      cases h
    | some close =>
      obtain ⟨body, rest, rfl, rfl, hbody⟩ := exists_of_offsetOf? hclose
      rw [hclose, Option.elim_some, List.take_left] at h
      obtain ⟨kind', hkind, heq⟩ := map_eq_ok_iff.1 h
      obtain ⟨words, distance, rfl⟩ := exists_near_of_ofNearBody hkind
      cases heq
      exact ⟨nearOpening ++ (body ++ [41]), rest, by simp [hnear], by simp [Nat.add_assoc],
        .near hbody hkind rest⟩
  · rw [hbare.first_eq] at h
    cases hlength : wordLength? 0 (u :: t) with
    | none =>
      rw [hlength] at h
      cases h
    | some m =>
      have hpos := hbare.wordLength?_pos hu hlength
      obtain ⟨s, rest, hsplit, rfl, hs, hrest⟩ := wordLength?_zero_spec hlength
      rw [hlength, Option.elim_some, hsplit, List.take_left] at h
      cases h
      exact ⟨s, rest, hsplit, rfl, .word (List.ne_nil_of_length_pos hpos) hs hrest⟩

/-- No lexeme is empty. -/
theorem first_pos {u : UInt16} (hu : isBlank u = false) {t : Text} {kind : Kind} {n : Nat}
    (h : first (u :: t) = .ok (kind, n)) : 0 < n := by
  obtain ⟨s, rest, -, rfl, hcovers⟩ := first_covers hu h
  exact List.length_pos_iff.2 hcovers.ne_nil

/-! ### The whole text -/

/-- The text from an offset on is made up of blanks and of stretches that the lexemes cover. -/
inductive Tiles : Nat → Text → List Lexeme → Prop where
  | nil (offset : Nat) : Tiles offset [] []
  | blank {offset : Nat} {u : UInt16} {t : Text} {xs : List Lexeme} (hu : isBlank u = true)
    (h : Tiles (offset + 1) t xs) : Tiles offset (u :: t) xs
  | lexeme {offset : Nat} {kind : Kind} {s rest : Text} {xs : List Lexeme} (hs : kind.Covers s rest)
    (h : Tiles (offset + s.length) rest xs) :
    Tiles offset (s ++ rest) (⟨kind, offset, offset + s.length⟩ :: xs)

theorem tiles_scan {offset : Nat} {t : Text} {xs : List Lexeme} (h : scan offset t = .ok xs) :
    Tiles offset t xs := by
  fun_induction scan offset t generalizing xs with
  | case1 offset =>
    cases h
    exact .nil offset
  | case2 offset u t hu ih => exact .blank hu (ih h)
  | case3 offset u t hu flaw hfirst => cases h
  | case4 offset u t hu kind n hfirst ih =>
    obtain ⟨s, rest, hsplit, rfl, hcovers⟩ := first_covers (by simpa using hu) hfirst
    obtain ⟨more, hmore, heq⟩ := bind_eq_ok_iff.1 h
    cases heq
    have hrest : t.drop (s.length - 1) = rest := by
      obtain ⟨v, tail, rfl⟩ := List.exists_cons_of_ne_nil hcovers.ne_nil
      obtain ⟨rfl, rfl⟩ := List.cons.inj hsplit
      exact List.drop_left
    rw [hrest] at hmore ih
    exact hsplit ▸ .lexeme hcovers (ih hmore)

namespace Tiles

variable {offset : Nat} {t : Text} {xs : List Lexeme} (h : Tiles offset t xs)
include h

theorem bounds : ∀ x ∈ xs, offset ≤ x.start ∧ x.start < x.stop ∧ x.stop ≤ offset + t.length := by
  induction h with
  | nil => exact fun x hx => nomatch hx
  | blank hu h ih =>
    intro x hx
    have hinner := ih x hx
    simp only [List.length_cons]
    omega
  | lexeme hs h ih =>
    have hpos := List.length_pos_iff.2 hs.ne_nil
    simp only [List.length_append]
    refine List.forall_mem_cons.2 ⟨⟨Nat.le_refl _, Nat.lt_add_of_pos_right hpos,
      Nat.add_le_add_left (Nat.le_add_right _ _) _⟩, fun x hx => ?_⟩
    have hinner := ih x hx
    omega

/-- Each lexeme stops before the next one starts. -/
theorem pairwise : xs.Pairwise fun x y => x.stop ≤ y.start := by
  induction h with
  | nil => exact .nil
  | blank hu h ih => exact ih
  | lexeme hs h ih => exact .cons (fun x hx => (h.bounds x hx).1) ih

theorem covers (before : Text) (hbefore : before.length = offset) : ∀ x ∈ xs,
    x.kind.Covers ((before ++ t).slice x.start x.stop) ((before ++ t).drop x.stop) := by
  induction h generalizing before with
  | nil => exact fun x hx => nomatch hx
  | @blank offset u t xs hu h ih =>
    rw [List.append_cons]
    exact ih _ (by simp [hbefore])
  | @lexeme offset kind s rest xs hs h ih =>
    subst hbefore
    rw [← List.append_assoc]
    refine List.forall_mem_cons.2 ⟨?_, ih _ List.length_append⟩
    rw [← List.length_append, slice, List.take_left, List.drop_left, List.drop_left]
    exact hs

/-- What stands outside the lexemes is blank. -/
theorem exists_mem_or_isBlank {i : Nat} (hi : i < t.length) :
    (∃ x ∈ xs, x.start ≤ offset + i ∧ offset + i < x.stop) ∨ isBlank t[i] = true := by
  induction h generalizing i with
  | nil => cases hi
  | @blank offset u t xs hu h ih =>
    cases i with
    | zero => exact .inr hu
    | succ i =>
      have hinner := ih (Nat.lt_of_succ_lt_succ hi)
      rwa [Nat.add_assoc, Nat.add_comm 1] at hinner
  | @lexeme offset kind s rest xs hs h ih =>
    by_cases hin : i < s.length
    · exact .inl ⟨_, List.mem_cons_self, Nat.le_add_right _ _, Nat.add_lt_add_left hin _⟩
    · have hle : s.length ≤ i := Nat.le_of_not_lt hin
      rw [List.length_append] at hi
      have hinner := ih (i := i - s.length) (by omega)
      rw [Nat.add_assoc, Nat.add_sub_cancel' hle] at hinner
      rw [List.getElem_append_right hle]
      exact hinner.imp_left fun ⟨x, hx, hrange⟩ => ⟨x, List.mem_cons_of_mem _ hx, hrange⟩

end Tiles

theorem ofWord_eq_word {t w : Text} (h : ofWord t = .word w) : t = w := by
  rw [ofWord] at h
  split_ifs at h
  exact Kind.word.inj h

theorem Kind.Covers.worded {w t rest : Text} (h : (Kind.word w).Covers t rest) :
    t = w ∧ Worded w := by
  generalize hkind : Kind.word w = kind at h
  cases h with
  | phrase | opening | closing | near => cases hkind
  | word hne ht hrest =>
    obtain rfl := ofWord_eq_word hkind.symm
    exact ⟨rfl, ht⟩

end Lexeme

/-- The lexemes of a query text tile it. Each has a range of the text that is not empty and that
spells it, with its quotes or all of its `NEAR(…)`; the range of a bare word is the word, whose
parentheses come in pairs and which has blanks and double quotes inside them only. The ranges follow
one another without overlapping, and all that stands outside them is blank. -/
theorem lexemes_tile {query : Text} {xs : List Lexeme} (h : lexemes query = .ok xs) :
    (∀ x ∈ xs, x.start < x.stop ∧ x.stop ≤ query.length ∧
      x.kind.Covers (query.slice x.start x.stop) (query.drop x.stop)) ∧
      (∀ x ∈ xs, ∀ w, x.kind = .word w → query.slice x.start x.stop = w ∧ Worded w) ∧
      xs.Pairwise (fun x y => x.stop ≤ y.start) ∧
      ∀ i (hi : i < query.length), (∃ x ∈ xs, x.start ≤ i ∧ i < x.stop) ∨
        isBlank query[i] = true := by
  have htiles := Lexeme.tiles_scan h
  have hcovers := htiles.covers [] rfl
  refine ⟨fun x hx => ?_, fun x hx w hw => (hw ▸ hcovers x hx).worded, htiles.pairwise,
    fun i hi => ?_⟩
  · obtain ⟨-, hlt, hle⟩ := htiles.bounds x hx
    exact ⟨hlt, by rwa [Nat.zero_add] at hle, hcovers x hx⟩
  · have hinner := htiles.exists_mem_or_isBlank hi
    rwa [Nat.zero_add] at hinner

/-- A word with a blank and quotes in its parentheses touches a phrase, which touches a proximity
group, which touches a keyword. -/
theorem lexemes_tile_touching :
    let query : Text := "f(a \"b\")x\"p q\"NEAR(c d, 2)NOT (y)"
    ∃ xs, lexemes query = .ok xs ∧
      xs.map (fun x => (x.start, x.stop)) =
        [(0, 9), (9, 14), (14, 26), (26, 29), (30, 31), (31, 32), (32, 33)] ∧
      xs.Pairwise (fun x y => x.stop ≤ y.start) := by
  intro query
  have hranges : (lexemes query).toOption.map (·.map fun x => (x.start, x.stop)) =
      some [(0, 9), (9, 14), (14, 26), (26, 29), (30, 31), (31, 32), (32, 33)] := by decide +kernel
  obtain ⟨xs, hxs, heq⟩ := Option.map_eq_some_iff.1 hranges
  have hok := eq_ok_of_toOption hxs
  exact ⟨xs, hok, heq, (lexemes_tile hok).2.2.1⟩

end Quarry.Query
