import Mathlib.Data.List.Basic
import Quarry.Proofs.Text.Words
import Quarry.Text.Blank

/-! Finding units in texts, splitting and trimming texts, and reading decimal digits. -/

namespace Quarry.Text

theorem offsetOf?_append {u : UInt16} {s : Text} (h : u ∉ s) (t : Text) :
    offsetOf? u (s ++ u :: t) = some s.length := by
  rw [offsetOf?, List.findIdx?_append, List.findIdx?_cons, beq_self_eq_true, if_pos rfl]
  have hnone : s.findIdx? (· == u) = none := by
    rw [List.findIdx?_eq_none_iff]
    intro v hv
    exact beq_false_of_ne fun heq => h (heq ▸ hv)
  rw [hnone]
  simp

theorem offsetOf?_of_not_mem {u : UInt16} {t : Text} (h : u ∉ t) : offsetOf? u t = none := by
  rw [offsetOf?, List.findIdx?_eq_none_iff]
  exact fun v hv => beq_false_of_ne fun heq => h (heq ▸ hv)

/-- A unit is found behind a stretch of the text that does not have it. -/
theorem exists_of_offsetOf? {u : UInt16} {t : Text} {n : Nat} (h : offsetOf? u t = some n) :
    ∃ s rest, t = s ++ u :: rest ∧ n = s.length ∧ u ∉ s := by
  by_cases hmem : u ∈ t
  · obtain ⟨s, rest, rfl, hs⟩ := List.eq_append_cons_of_mem hmem
    rw [offsetOf?_append hs] at h
    exact ⟨s, rest, rfl, (Option.some.inj h).symm, hs⟩
  · rw [offsetOf?_of_not_mem hmem] at h
    cases h

theorem lastOffsetOf?_append {u : UInt16} {t : Text} (h : u ∉ t) (s : Text) :
    lastOffsetOf? u (s ++ u :: t) = some s.length := by
  have hreverse : (s ++ u :: t).reverse = t.reverse ++ u :: s.reverse := by simp
  rw [lastOffsetOf?, hreverse, offsetOf?_append (by simpa using h)]
  simp only [Option.map_some, List.length_append, List.length_cons, List.length_reverse]
  congr 1
  omega

/-! ### Splitting and trimming -/

theorem fields_go_append {isGap : UInt16 → Bool} {s : Text} (h : ∀ u ∈ s, isGap u = false)
    (run t : Text) : fields.go isGap run (s ++ t) = fields.go isGap (s.reverse ++ run) t := by
  induction s generalizing run with
  | nil => rfl
  | cons u s ih =>
    rw [List.forall_mem_cons] at h
    rw [List.cons_append, fields.go, h.1, if_neg (by decide), ih h.2, List.reverse_cons,
      List.append_assoc, List.singleton_append]

/-- Splitting finds the texts that a gap joins. -/
theorem fields_join {isGap : UInt16 → Bool} {gap : UInt16} (hgap : isGap gap = true)
    {ts : List Text} (h : ∀ t ∈ ts, t ≠ [] ∧ ∀ u ∈ t, isGap u = false) :
    fields isGap (join [gap] ts) = ts := by
  rw [fields]
  induction ts with
  | nil => rfl
  | cons t ts ih =>
    rw [List.forall_mem_cons] at h
    obtain ⟨⟨hne, hunits⟩, hrest⟩ := h
    have hreverse : (t.reverse ++ []).isEmpty = false := by
      rw [List.append_nil, List.isEmpty_eq_false_iff]
      exact fun hnil => hne (List.reverse_eq_nil_iff.1 hnil)
    cases ts with
    | nil =>
      have happend := fields_go_append hunits [] []
      rw [List.append_nil] at happend
      rw [join, List.intercalate_singleton, happend, fields.go, hreverse]
      simp
    | cons t' ts =>
      rw [join_cons_cons, List.append_assoc, fields_go_append hunits,
        List.singleton_append, fields.go, if_pos hgap, hreverse, if_neg (by decide), ih hrest]
      simp

theorem trim_cons {u : UInt16} (hu : isBlank u = true) {t : Text} (h : ∀ v ∈ t, isBlank v = false) :
    trim (u :: t) = t := by
  have hstart : trimStart (u :: t) = t := by
    rw [trimStart, List.dropWhile_cons_of_pos hu, List.dropWhile_eq_self_iff]
    exact fun hlength => Bool.eq_false_iff.1 (h _ (List.getElem_mem hlength))
  rw [trim, hstart, trimEnd, List.dropWhile_eq_self_iff.2, List.reverse_reverse]
  exact fun hlength => Bool.eq_false_iff.1 (h _ (List.mem_reverse.1 (List.getElem_mem hlength)))

theorem dropWhile_of_prefix {t s : Text} (h : s <+: t.dropWhile isBlank) :
    s.dropWhile isBlank = s := by
  cases s with
  | nil => rfl
  | cons u s =>
    obtain ⟨rest, hrest⟩ := h
    have hhead := List.head?_dropWhile_not isBlank t
    rw [← hrest, List.cons_append] at hhead
    exact List.dropWhile_cons_of_neg (by simpa using hhead)

theorem isPrefix_trimEnd (t : Text) : t.trimEnd <+: t := by
  rw [trimEnd, ← List.reverse_suffix, List.reverse_reverse]
  exact List.dropWhile_suffix isBlank

/-- Trimming what is trimmed changes nothing. -/
theorem trim_trim (t : Text) : t.trim.trim = t.trim := by
  have hstart : t.trim.trimStart = t.trim := dropWhile_of_prefix (isPrefix_trimEnd _)
  have hend : t.trim.trimEnd = t.trim := by
    rw [trim, trimEnd, trimEnd, List.reverse_reverse, dropWhile_of_prefix (List.prefix_refl _)]
  rw [trim, hstart, hend]

/-! ### Digits -/

theorem ofNat_ne_nil (n : Nat) : ofNat n ≠ [] := by
  rw [ofNat, Ne, List.map_eq_nil_iff]
  exact Nat.toDigits_ne_nil

theorem toNat_of_isDigit {c : Char} (h : c.isDigit = true) :
    48 ≤ c.toNat ∧ c.toNat ≤ 57 ∧ (c.toNat.toUInt16).toNat = c.toNat := by
  delta Char.isDigit at h
  simp only [Bool.and_eq_true, decide_eq_true_eq, UInt32.le_iff_toNat_le] at h
  have hbounds : 48 ≤ c.toNat ∧ c.toNat ≤ 57 := h
  refine ⟨hbounds.1, hbounds.2, ?_⟩
  rw [Nat.toUInt16_eq, UInt16.toNat_ofNat']
  omega

theorem isDigit_of_mem_ofNat {n : Nat} {u : UInt16} (h : u ∈ ofNat n) : isDigit u = true := by
  obtain ⟨c, hc, rfl⟩ := List.mem_map.1 h
  obtain ⟨hle, hge, hunit⟩ :=
    toNat_of_isDigit (Nat.isDigit_of_mem_toDigits (by decide) (by decide) hc)
  simp only [isDigit, Bool.and_eq_true, decide_eq_true_eq, UInt16.le_iff_toNat_le, hunit]
  exact ⟨hle, hge⟩

/-- The digits of a number are read back as the number. -/
theorem digitsToNat_ofNat (n : Nat) : digitsToNat (ofNat n) = n := by
  rw [digitsToNat, ofNat, List.foldl_map]
  conv_rhs => rw [← Nat.ofDigitChars_ten_toDigits (n := n), Nat.ofDigitChars_eq_foldl]
  refine List.foldl_ext _ _ _ fun value c hc => ?_
  obtain ⟨-, -, hunit⟩ := toNat_of_isDigit (Nat.isDigit_of_mem_toDigits (by decide) (by decide) hc)
  rw [hunit]
  rfl

/-- No number but zero has a zero for its first digit. -/
theorem eq_zero_of_head?_ofNat {n : Nat} (h : (ofNat n).head? = some 48) : n = 0 := by
  induction n using Nat.strongRecOn with
  | _ n ih =>
    rw [ofNat] at h
    by_cases hlt : n < 10
    · rw [Nat.toDigits_of_lt_base hlt] at h
      have hdigit : ∀ n < 10, (Nat.digitChar n).toNat.toUInt16 = 48 → n = 0 := by decide
      exact hdigit n hlt (by simpa using h)
    · rw [Nat.toDigits_of_base_le (by decide) (Nat.le_of_not_lt hlt), List.map_append,
        ← ofNat, List.head?_append_of_ne_nil _ (ofNat_ne_nil (n / 10))] at h
      have := ih (n / 10) (by omega) h
      omega

end Quarry.Text
