import Quarry.Proofs.Number.Shortest
import Quarry.Proofs.Text.Units

namespace Quarry

namespace Text

theorem digitsToNat_append (t t' : Text) :
    digitsToNat (t ++ t') = digitsToNat t * 10 ^ t'.length + digitsToNat t' := by
  have hfrom : ∀ n : Nat, t'.foldl (fun n u => 10 * n + (u.toNat - 48)) n =
      n * 10 ^ t'.length + digitsToNat t' := by
    rw [digitsToNat]
    induction t' with
    | nil => simp
    | cons u rest ih =>
      intro n
      rw [List.foldl_cons, List.foldl_cons, ih, ih (10 * 0 + (u.toNat - 48)),
        List.length_cons, pow_succ]
      ring
  rw [digitsToNat, List.foldl_append, hfrom]
  rfl

theorem digitsToNat_zeros (n : Nat) : digitsToNat (List.replicate n 48) = 0 := by
  induction n with
  | zero => rfl
  | succ n ih =>
    rw [List.replicate_succ', digitsToNat_append, ih]
    rfl

/-- The parts of a text before and behind the first place of a unit. -/
def cutAt (u : UInt16) (t : Text) : Text × Text :=
  (t.takeWhile (· != u), (t.dropWhile (· != u)).drop 1)

theorem cutAt_append {u : UInt16} {t : Text} (h : u ∉ t) (rest : Text) :
    cutAt u (t ++ u :: rest) = (t, rest) := by
  have hne : ∀ v ∈ t, (v != u) = true := fun v hv => by
    rw [bne_iff_ne]
    exact fun heq => h (heq ▸ hv)
  rw [cutAt, List.takeWhile_append_of_pos hne, List.dropWhile_append_of_pos hne]
  simp

theorem cutAt_of_not_mem {u : UInt16} {t : Text} (h : u ∉ t) : cutAt u t = (t, []) := by
  have hne : ∀ v ∈ t, (v != u) = true := fun v hv => by
    rw [bne_iff_ne]
    exact fun heq => h (heq ▸ hv)
  rw [cutAt, List.takeWhile_eq_self_iff.2 hne, List.dropWhile_eq_nil_iff.2 hne, List.drop_nil]

end Text

namespace Decimal

open Text (digitsToNat isDigit)

/-- What digits stand for that have a point among them, or none. -/
def readPointed (t : Text) : ℚ :=
  digitsToNat ((t.cutAt 46).1 ++ (t.cutAt 46).2) / 10 ^ (t.cutAt 46).2.length

/-- The power of ten that stands behind the mark of the exponent. -/
def readPower : Text → ℤ
  | [] => 0
  | 45 :: digits => -digitsToNat digits
  | _ :: digits => digitsToNat digits

/-- What the text of a number that is not negative stands for. -/
def reading (t : Text) : ℚ := readPointed (t.cutAt 101).1 * 10 ^ readPower (t.cutAt 101).2

theorem isDigit_zeros (n : ℕ) : ∀ u ∈ List.replicate n (48 : UInt16), isDigit u = true := by
  intro u hu
  rw [List.eq_of_mem_replicate hu]
  decide

/-- A digit is neither the point nor the mark of the exponent. -/
theorem not_mem_of_digits {t : Text} (h : ∀ u ∈ t, isDigit u = true) : 46 ∉ t ∧ 101 ∉ t :=
  ⟨fun hmem => absurd (h 46 hmem) (by decide), fun hmem => absurd (h 101 hmem) (by decide)⟩

theorem readPointed_digits {t : Text} (h : ∀ u ∈ t, isDigit u = true) :
    readPointed t = digitsToNat t := by
  rw [readPointed, Text.cutAt_of_not_mem (not_mem_of_digits h).1]
  simp

theorem readPointed_append {t t' : Text} (h : ∀ u ∈ t, isDigit u = true) :
    readPointed (t ++ 46 :: t') = digitsToNat (t ++ t') / 10 ^ t'.length := by
  rw [readPointed, Text.cutAt_append (not_mem_of_digits h).1]

theorem reading_of_not_mem {t : Text} (h : 101 ∉ t) : reading t = readPointed t := by
  rw [reading, Text.cutAt_of_not_mem h]
  simp [readPower]

theorem reading_append {t : Text} (h : 101 ∉ t) (power : Text) :
    reading (t ++ 101 :: power) = readPointed t * 10 ^ readPower power := by
  rw [reading, Text.cutAt_append h]

theorem exists_zeros_normalForm (d : Decimal) :
    ∃ zeros, Text.ofNat d.digits = d.normalForm.1 ++ List.replicate zeros 48 := by
  refine ⟨((Text.ofNat d.digits).reverse.takeWhile (· == 48)).length, ?_⟩
  have hzeros : (Text.ofNat d.digits).reverse.takeWhile (· == 48) =
      List.replicate ((Text.ofNat d.digits).reverse.takeWhile (· == 48)).length 48 :=
    List.eq_replicate_of_mem fun u hu => by simpa using List.mem_takeWhile_imp hu
  rw [normalForm, ← List.reverse_replicate, ← hzeros, ← List.reverse_append,
    List.takeWhile_append_dropWhile, List.reverse_reverse]

/-- The normal form has the value of the number. -/
theorem value_eq_normalForm (d : Decimal) :
    d.value = digitsToNat d.normalForm.1 * 10 ^ (d.normalForm.2 - d.normalForm.1.length) := by
  obtain ⟨zeros, hzeros⟩ := exists_zeros_normalForm d
  have hdigits : d.digits = digitsToNat d.normalForm.1 * 10 ^ zeros := by
    have hread := Text.digitsToNat_ofNat d.digits
    rw [hzeros, Text.digitsToNat_append, Text.digitsToNat_zeros, List.length_replicate] at hread
    omega
  have hpoint : d.normalForm.2 = d.scale + (d.normalForm.1.length + zeros : ℕ) := by
    change d.scale + ((Text.ofNat d.digits).length : ℤ) = _
    rw [hzeros, List.length_append, List.length_replicate]
  have hscale : d.normalForm.2 - d.normalForm.1.length = zeros + d.scale := by
    rw [hpoint]
    push_cast
    ring
  rw [value, hscale, zpow_add₀ (by norm_num), zpow_natCast, ← mul_assoc]
  congr 1
  exact_mod_cast hdigits

theorem digits_normalForm (d : Decimal) : ∀ u ∈ d.normalForm.1, isDigit u = true := by
  intro u hu
  rw [normalForm] at hu
  exact Text.isDigit_of_mem_ofNat (List.mem_reverse.1
    ((List.dropWhile_suffix _).subset (List.mem_reverse.1 hu)))

theorem readPower_natAbs (e : ℤ) :
    readPower ((if e < 0 then [45] else [43]) ++ Text.ofNat e.natAbs) = e := by
  split
  · change -((digitsToNat (Text.ofNat e.natAbs) : ℕ) : ℤ) = e
    rw [Text.digitsToNat_ofNat]
    omega
  · change ((digitsToNat (Text.ofNat e.natAbs) : ℕ) : ℤ) = e
    rw [Text.digitsToNat_ofNat]
    omega

/-! ### The four forms of a text -/

section

variable {ds : Text} (digits : ∀ u ∈ ds, isDigit u = true) {point : ℤ}
include digits

/-- Digits with a point among them have no mark of an exponent. -/
theorem not_mem_of_pointed {rest : Text} (digits' : ∀ u ∈ rest, isDigit u = true) :
    101 ∉ ds ++ 46 :: rest := by
  simp only [List.mem_append, List.mem_cons, not_or]
  exact ⟨(not_mem_of_digits digits).2, by decide, (not_mem_of_digits digits').2⟩

theorem readPointed_eq (rest : Text) :
    readPointed (ds ++ 46 :: rest) = digitsToNat (ds ++ rest) * 10 ^ (-(rest.length : ℤ)) := by
  rw [readPointed_append digits, div_eq_mul_inv, ← zpow_natCast, ← zpow_neg]

theorem reading_whole (hpoint : (ds.length : ℤ) ≤ point) :
    reading (ds ++ List.replicate (point.toNat - ds.length) 48) =
      digitsToNat ds * 10 ^ (point - ds.length) := by
  have hall : ∀ u ∈ ds ++ List.replicate (point.toNat - ds.length) 48, isDigit u = true :=
    List.forall_mem_append.2 ⟨digits, isDigit_zeros _⟩
  rw [reading_of_not_mem (not_mem_of_digits hall).2, readPointed_digits hall,
    Text.digitsToNat_append, Text.digitsToNat_zeros, List.length_replicate,
    show point - ds.length = ((point.toNat - ds.length : ℕ) : ℤ) by omega, zpow_natCast]
  push_cast
  ring

theorem reading_inside (hpositive : 0 < point) (hpoint : point ≤ ds.length) :
    reading (ds.take point.toNat ++ [46] ++ ds.drop point.toNat) =
      digitsToNat ds * 10 ^ (point - ds.length) := by
  have htake : ∀ u ∈ ds.take point.toNat, isDigit u = true :=
    fun u hu => digits u (List.mem_of_mem_take hu)
  have hdrop : ∀ u ∈ ds.drop point.toNat, isDigit u = true :=
    fun u hu => digits u (List.mem_of_mem_drop hu)
  rw [List.append_assoc, List.singleton_append, reading_of_not_mem (not_mem_of_pointed htake hdrop),
    readPointed_eq htake, List.take_append_drop, List.length_drop]
  congr 2
  omega

theorem reading_before (hpoint : point ≤ 0) :
    reading ([48, 46] ++ List.replicate (-point).toNat 48 ++ ds) =
      digitsToNat ds * 10 ^ (point - ds.length) := by
  have hzero : ∀ u ∈ [(48 : UInt16)], isDigit u = true := List.forall_mem_singleton.2 (by decide)
  have hrest : ∀ u ∈ List.replicate (-point).toNat 48 ++ ds, isDigit u = true :=
    List.forall_mem_append.2 ⟨isDigit_zeros _, digits⟩
  have htext : [48, 46] ++ List.replicate (-point).toNat 48 ++ ds =
      [48] ++ 46 :: (List.replicate (-point).toNat 48 ++ ds) := List.append_assoc ..
  have hvalue : digitsToNat ([48] ++ (List.replicate (-point).toNat 48 ++ ds)) =
      digitsToNat ds := by
    rw [Text.digitsToNat_append, Text.digitsToNat_append, Text.digitsToNat_zeros]
    change 0 * _ + (0 * _ + _) = _
    omega
  rw [htext, reading_of_not_mem (not_mem_of_pointed hzero hrest), readPointed_eq hzero, hvalue,
    List.length_append, List.length_replicate]
  congr 2
  omega

theorem reading_power :
    reading (ds.take 1 ++ (if ds.length = 1 then [] else 46 :: ds.drop 1) ++ [101] ++
        (if point - 1 < 0 then [45] else [43]) ++ Text.ofNat (point - 1).natAbs) =
      digitsToNat ds * 10 ^ (point - ds.length) := by
  have hpower := readPower_natAbs (point - 1)
  generalize (if point - 1 < 0 then [45] else [43]) = sign at hpower ⊢
  rw [List.append_assoc, List.append_assoc, List.singleton_append]
  by_cases hone : ds.length = 1
  · rw [if_pos hone, List.append_nil, List.take_of_length_le hone.le,
      reading_append (not_mem_of_digits digits).2, readPointed_digits digits, hpower, hone]
    rfl
  · have htake : ∀ u ∈ ds.take 1, isDigit u = true := fun u hu => digits u (List.mem_of_mem_take hu)
    have hdrop : ∀ u ∈ ds.drop 1, isDigit u = true := fun u hu => digits u (List.mem_of_mem_drop hu)
    rw [if_neg hone, reading_append (not_mem_of_pointed htake hdrop), readPointed_eq htake, hpower,
      List.take_append_drop, List.length_drop, mul_assoc, ← zpow_add₀ (by norm_num)]
    rcases Nat.eq_zero_or_pos ds.length with hnone | hpos
    · rw [List.eq_nil_of_length_eq_zero hnone]
      simp [digitsToNat]
    · congr 2
      omega

end

/-- The text of a number stands for its value. -/
theorem reading_text (d : Decimal) : reading d.text = d.value := by
  have hdigits := digits_normalForm d
  rw [value_eq_normalForm, text]
  generalize d.normalForm = form at hdigits ⊢
  obtain ⟨ds, point⟩ := form
  dsimp only at hdigits ⊢
  split
  case isTrue hwhole => exact reading_whole hdigits hwhole.1
  case isFalse hlong =>
    split
    case isTrue hinside => exact reading_inside hdigits hinside.1 (by omega)
    case isFalse =>
      split
      case isTrue hbefore => exact reading_before hdigits hbefore.2
      case isFalse => exact reading_power hdigits

end Decimal
end Quarry
