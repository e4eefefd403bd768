import Quarry.Json.Reader
import Quarry.Json.Writer
import Quarry.Proofs.Json.Members
import Quarry.Proofs.Text.Units

/-! Written values are read back. A string loses none of its units, whether they are written as they
are, escaped by a letter or spelled out in hexadecimal digits, and a number below the exact bound is
written with all of its digits. What follows a value matters to a number only, which goes on as far
as there are digits. -/

namespace Quarry.Json

/-! ### Strings -/

theorem hexValue?_hexDigit : ∀ n < 16, hexValue? (hexDigit n) = some n := by decide

theorem hexUnit?_unitEscape (u : UInt16) :
    hexUnit? (hexDigit (u.toNat / 4096)) (hexDigit (u.toNat / 256 % 16))
      (hexDigit (u.toNat / 16 % 16)) (hexDigit (u.toNat % 16)) = some u := by
  have hbound := u.toNat_lt
  rw [hexUnit?, hexValue?_hexDigit _ (by omega), hexValue?_hexDigit _ (by omega),
    hexValue?_hexDigit _ (by omega), hexValue?_hexDigit _ (by omega)]
  have hsum : ((u.toNat / 4096 * 16 + u.toNat / 256 % 16) * 16 + u.toNat / 16 % 16) * 16 +
      u.toNat % 16 = u.toNat := by omega
  change some (Nat.toUInt16 _) = some u
  rw [hsum, Nat.toUInt16_eq, UInt16.ofNat_toNat]

/-- A unit that is neither a control character nor a quote nor a backslash is read as it is. -/
theorem readString_cons {u : UInt16} (hquote : u ≠ 34) (hescape : u ≠ 92) (hcontrol : ¬ u < 32)
    (t : Text) : readString (u :: t) = (readString t).map fun (s, rest) => (u :: s, rest) := by
  rw [readString.eq_5 u t (fun h => hquote h) (fun _ _ _ _ _ h => absurd h hescape)
    (fun _ _ h => absurd h hescape), if_neg (by simp [hcontrol, hescape])]
  cases readString t <;> rfl

theorem readString_unitEscape (u : UInt16) (t : Text) :
    readString (unitEscape u ++ t) = (readString t).map fun (s, rest) => (u :: s, rest) := by
  rw [unitEscape]
  simp only [List.cons_append, List.nil_append]
  rw [readString, hexUnit?_unitEscape]
  cases readString t <;> rfl

/-- A unit that is escaped by a letter is read as what the letter stands for. -/
theorem readString_escape {e u : UInt16} (hletter : e ≠ 117) (hescaped : escaped? e = some u)
    (t : Text) :
    readString (92 :: e :: t) = (readString t).map fun (s, rest) => (u :: s, rest) := by
  rw [readString.eq_4 e t fun _ _ _ _ _ h => absurd h hletter, hescaped]
  cases readString t <;> rfl

theorem readString_writePoint {p : Point} (h : p.Paired) (t : Text) :
    readString (writePoint p ++ t) = (readString t).map fun (s, rest) => (p.units ++ s, rest) := by
  cases p with
  | pair high low =>
    have ordinary : ∀ u : UInt16, 0xD800 ≤ u.toNat → u ≠ 34 ∧ u ≠ 92 ∧ ¬ u < 32 := by
      intro u hu
      refine ⟨?_, ?_, ?_⟩
      · rintro rfl
        simp at hu
      · rintro rfl
        simp at hu
      · rw [UInt16.lt_iff_toNat_lt]
        exact Nat.not_lt_of_le (Nat.le_trans (by decide) hu)
    have hhigh := Text.isHighSurrogate_iff.1 h.1
    have hlow := Text.isLowSurrogate_iff.1 h.2
    obtain ⟨hquote, hescape, hcontrol⟩ := ordinary high hhigh.1
    obtain ⟨hquote', hescape', hcontrol'⟩ := ordinary low (by omega)
    rw [writePoint, List.cons_append, readString_cons hquote hescape hcontrol, List.cons_append,
      readString_cons hquote' hescape' hcontrol', Option.map_map]
    rfl
  | unit u =>
    rw [writePoint]
    split
    · subst u
      exact readString_escape (by decide) rfl t
    split
    · subst u
      exact readString_escape (by decide) rfl t
    split
    · subst u
      exact readString_escape (by decide) rfl t
    split
    · subst u
      exact readString_escape (by decide) rfl t
    split
    · subst u
      exact readString_escape (by decide) rfl t
    split
    · subst u
      exact readString_escape (by decide) rfl t
    split
    · subst u
      exact readString_escape (by decide) rfl t
    split
    · exact readString_unitEscape u t
    · rename_i hquote hescape _ _ _ _ _ hplain
      exact readString_cons hquote hescape (fun hcontrol => hplain (.inl hcontrol)) t

/-- A written string is read up to its closing quote, and none of its units is lost. -/
theorem readString_flatMap {ps : List Point} (h : ∀ p ∈ ps, p.Paired) (rest : Text) :
    readString (ps.flatMap writePoint ++ 34 :: rest) = some (Text.ofPoints ps, rest) := by
  induction ps with
  | nil => rfl
  | cons p ps ih =>
    rw [List.forall_mem_cons] at h
    rw [List.flatMap_cons, List.append_assoc, readString_writePoint h.1, ih h.2]
    rfl

theorem readString_points (t rest : Text) :
    readString (t.points.flatMap writePoint ++ 34 :: rest) = some (t, rest) := by
  rw [readString_flatMap fun _ => Text.paired_of_mem_points, Text.ofPoints_points]

/-! ### Numbers -/

/-- What follows a number does not go on with it. -/
def Stops (rest : Text) : Prop :=
  ∀ u more, rest = u :: more → Text.isDigit u = false ∧ u ≠ 46 ∧ u ≠ 101 ∧ u ≠ 69

theorem stops_nil : Stops [] := fun _ _ h => by cases h

theorem Stops.takeWhile_eq {rest : Text} (h : Stops rest) {digits : Text}
    (hdigits : ∀ u ∈ digits, Text.isDigit u = true) :
    (digits ++ rest).takeWhile Text.isDigit = digits ∧
      (digits ++ rest).dropWhile Text.isDigit = rest := by
  rw [List.takeWhile_append_of_pos hdigits, List.dropWhile_append_of_pos hdigits]
  cases rest with
  | nil => simp
  | cons u more =>
    obtain ⟨hdigit, -⟩ := h u more rfl
    simp [hdigit]

theorem Stops.readExponent {rest : Text} (h : Stops rest) : readExponent rest = some (0, rest) := by
  rw [Json.readExponent.eq_def]
  split
  · exact absurd rfl (h _ _ rfl).2.2.1
  · exact absurd rfl (h _ _ rfl).2.2.2
  · rfl

theorem readNumber_ofNat {n : Nat} (hn : n < Number.exactBound) {rest : Text} (h : Stops rest) :
    readNumber (Text.ofNat n ++ rest) = some (.whole n, rest) := by
  obtain ⟨htake, hdrop⟩ := h.takeWhile_eq fun u hu => Text.isDigit_of_mem_ofNat (n := n) hu
  have hempty : (Text.ofNat n).isEmpty = false := by simpa using Text.ofNat_ne_nil n
  have hleading : ¬((Text.ofNat n).head? = some 48 ∧ 1 < (Text.ofNat n).length) := by
    rintro ⟨hzero, hlength⟩
    rw [Text.eq_zero_of_head?_ofNat hzero] at hlength
    exact absurd hlength (by decide)
  have hpoint : ∀ more, rest ≠ 46 :: more := fun more heq => absurd rfl (h _ _ heq).2.1
  rw [readNumber]
  · simp [htake, hdrop, hempty, hleading, h.readExponent, Number.ofDecimal,
      Text.digitsToNat_ofNat, hn]
  · intro more heq
    have hminus : 45 ∈ Text.ofNat n := by
      obtain ⟨u, digits, hdigits⟩ := List.exists_cons_of_ne_nil (Text.ofNat_ne_nil n)
      rw [hdigits] at heq ⊢
      exact (List.cons.inj heq).1 ▸ List.mem_cons_self
    exact absurd (Text.isDigit_of_mem_ofNat hminus) (by decide)

/-! ### Values -/

/-- Values that are written with nothing lost: numbers below the exact bound, members in their
order, and nothing missing. -/
inductive Plain : Json → Prop where
  | null : Plain .null
  | bool (b : Bool) : Plain (.bool b)
  | number {n : Nat} (h : n < Number.exactBound) : Plain (.number (.whole n))
  | text (t : Text) : Plain (.text t)
  | array {items : List Json} (h : ∀ j ∈ items, Plain j) : Plain (.array items)
  | object {ms : List (Text × Json)} (ordered : Ordered ms) (h : ∀ m ∈ ms, Plain m.2) :
    Plain (.object ms)

theorem plain_ofTexts {fields : List (Text × Text)} (ordered : Ordered fields) :
    Plain (ofTexts fields) := by
  refine .object (ordered.of_names (by simp)) fun m hm => ?_
  obtain ⟨field, -, rfl⟩ := List.mem_map.1 hm
  exact .text _

/-- A written value is read, whatever follows it, with twice its length for fuel. -/
def Reads (j : Json) : Prop :=
  ∀ fuel rest, 2 * (write j).length ≤ fuel → Stops rest →
    readValue fuel (write j ++ rest) = some (j, rest)

theorem writeNumber_whole {n : Nat} (h : n < Number.exactBound) :
    write (.number (.whole n)) = Text.ofNat n := by
  simp [write, writeNumber, Number.isFinite, Number.text, h]

theorem isGap_of_isDigit {u : UInt16} (h : Text.isDigit u = true) : isGap u = false := by
  rw [← Bool.not_eq_true]
  intro hgap
  simp only [isGap, Bool.or_eq_true, beq_iff_eq] at hgap
  rcases hgap with ((rfl | rfl) | rfl) | rfl <;> exact absurd h (by decide)

/-- A written value begins with a unit that is no gap and closes no array. -/
theorem Plain.exists_write_eq_cons {j : Json} (h : Plain j) :
    ∃ u more, write j = u :: more ∧ isGap u = false ∧ u ≠ 93 := by
  cases h with
  | null => exact ⟨_, _, rfl, by decide, by decide⟩
  | bool b => cases b <;> exact ⟨_, _, rfl, by decide, by decide⟩
  | text t => exact ⟨_, _, rfl, by decide, by decide⟩
  | array h => exact ⟨_, _, rfl, by decide, by decide⟩
  | object _ h => exact ⟨_, _, rfl, by decide, by decide⟩
  | @number n h =>
    obtain ⟨u, digits, hdigits⟩ := List.exists_cons_of_ne_nil (Text.ofNat_ne_nil n)
    have hdigit : Text.isDigit u = true := Text.isDigit_of_mem_ofNat (hdigits ▸ List.mem_cons_self)
    refine ⟨u, digits, (writeNumber_whole h).trans hdigits, ?_, ?_⟩
    · exact isGap_of_isDigit hdigit
    · rintro rfl
      exact absurd hdigit (by decide)

theorem skipGap_cons {u : UInt16} (h : isGap u = false) (t : Text) : skipGap (u :: t) = u :: t := by
  rw [skipGap, List.dropWhile_cons_of_neg (by simp [h])]

theorem stops_cons {u : UInt16} (h : u = 44 ∨ u = 93 ∨ u = 125) (t : Text) : Stops (u :: t) := by
  rintro u' more heq
  obtain ⟨rfl, rfl⟩ := List.cons.inj heq
  rcases h with rfl | rfl | rfl <;> decide

theorem readItems_writeItems {items : List Json} (hne : items ≠ []) (h : ∀ j ∈ items, Reads j)
    {fuel : Nat} (hfuel : 2 * (write.writeItems items).length + 1 ≤ fuel) (rest : Text) :
    readItems fuel (write.writeItems items ++ 93 :: rest) = some (items, rest) := by
  induction items generalizing fuel with
  | nil => exact absurd rfl hne
  | cons item items ih =>
    obtain ⟨fuel, rfl⟩ : ∃ more, fuel = more + 1 := ⟨fuel - 1, by omega⟩
    rw [List.forall_mem_cons] at h
    rw [readItems]
    cases items with
    | nil =>
      rw [write.writeItems] at hfuel ⊢
      rw [h.1 fuel _ (by omega) (stops_cons (by simp) rest)]
      rfl
    | cons next items =>
      rw [write.writeItems, List.append_assoc, List.cons_append]
      rw [write.writeItems, List.length_append, List.length_cons] at hfuel
      rw [h.1 fuel _ (by omega) (stops_cons (by simp) _)]
      change (readItems fuel (write.writeItems (next :: items) ++ 93 :: rest)).bind _ = _
      rw [ih (List.cons_ne_nil _ _) h.2 (by omega)]
      rfl

theorem writeMembers_cons {value : Json} (h : value ≠ .missing) (name : Text)
    (ms : List (Text × Json)) :
    write.writeMembers ((name, value) :: ms) = writeText name ++ 58 :: write value ++
      match write.writeMembers ms with
      | [] => []
      | more => 44 :: more := by
  cases value with
  | missing => exact absurd rfl h
  | _ => rfl

theorem Plain.ne_missing {j : Json} (h : Plain j) : j ≠ .missing := by
  rintro rfl
  cases h

/-- One member is read, and the unit behind its value tells whether more follow. -/
theorem readMembers_succ (fuel : Nat) (name : Text) {value : Json} (h : Reads value)
    (hfuel : 2 * (write value).length ≤ fuel) (rest : Text) :
    readMembers (fuel + 1) (writeText name ++ 58 :: write value ++ 125 :: rest) =
        some ([(name, value)], rest) ∧
      readMembers (fuel + 1) (writeText name ++ 58 :: write value ++ 44 :: rest) =
        (readMembers fuel rest).map fun (members, rest) => ((name, value) :: members, rest) := by
  have hname : ∀ more, writeText name ++ 58 :: write value ++ more =
      34 :: (name.points.flatMap writePoint ++ 34 :: 58 :: (write value ++ more)) := by
    intro more
    simp [writeText]
  have hclose := h fuel (125 :: rest) hfuel (stops_cons (by simp) rest)
  have hnext := h fuel (44 :: rest) hfuel (stops_cons (by simp) rest)
  constructor
  · rw [hname, readMembers, skipGap_cons (by decide)]
    simp only [readString_points, Option.bind_eq_bind, Option.bind_some]
    rw [skipGap_cons (by decide)]
    simp only [hclose, Option.bind_some]
    rfl
  · rw [hname, readMembers, skipGap_cons (by decide)]
    simp only [readString_points, Option.bind_eq_bind, Option.bind_some]
    rw [skipGap_cons (by decide)]
    simp only [hnext, Option.bind_some]
    change (readMembers fuel rest).bind _ = (readMembers fuel rest).map _
    cases readMembers fuel rest <;> rfl

theorem readMembers_writeMembers {ms : List (Text × Json)} (hne : ms ≠ [])
    (h : ∀ m ∈ ms, Plain m.2 ∧ Reads m.2) {fuel : Nat}
    (hfuel : 2 * (write.writeMembers ms).length + 1 ≤ fuel) (rest : Text) :
    readMembers fuel (write.writeMembers ms ++ 125 :: rest) = some (ms, rest) := by
  induction ms generalizing fuel with
  | nil => exact absurd rfl hne
  | cons m ms ih =>
    obtain ⟨name, value⟩ := m
    obtain ⟨fuel, rfl⟩ : ∃ more, fuel = more + 1 := ⟨fuel - 1, by omega⟩
    obtain ⟨⟨hplain, hreads⟩, hrest⟩ := List.forall_mem_cons.1 h
    simp only at hplain hreads
    rw [writeMembers_cons hplain.ne_missing] at hfuel ⊢
    cases ms with
    | nil =>
      simp only [write.writeMembers, List.append_nil, List.length_append,
        List.length_cons] at hfuel ⊢
      exact (readMembers_succ fuel name hreads (by omega) rest).1
    | cons next ms =>
      obtain ⟨name', value'⟩ := next
      have hnext : ∃ u more, write.writeMembers ((name', value') :: ms) = u :: more := by
        rw [writeMembers_cons (hrest _ List.mem_cons_self).1.ne_missing, writeText]
        exact ⟨_, _, rfl⟩
      obtain ⟨u, more, hmore⟩ := hnext
      simp only [hmore, List.length_append, List.length_cons, List.append_assoc] at hfuel ih ⊢
      rw [← List.append_assoc, List.cons_append, (readMembers_succ fuel name hreads (by omega) _).2,
        ih (List.cons_ne_nil _ _) hrest (by omega)]
      rfl

theorem reads_number {n : Nat} (h : n < Number.exactBound) : Reads (.number (.whole n)) := by
  intro fuel rest hfuel hstops
  rw [writeNumber_whole h] at hfuel ⊢
  have hread := readNumber_ofNat h hstops
  obtain ⟨u, digits, hdigits⟩ := List.exists_cons_of_ne_nil (Text.ofNat_ne_nil n)
  have hdigit : Text.isDigit u = true := Text.isDigit_of_mem_ofNat (hdigits ▸ List.mem_cons_self)
  rw [hdigits, List.length_cons] at hfuel
  rw [hdigits, List.cons_append] at hread ⊢
  obtain ⟨fuel, rfl⟩ : ∃ more, fuel = more + 1 := ⟨fuel - 1, by omega⟩
  rw [readValue, skipGap_cons (isGap_of_isDigit hdigit)]
  -- No digit begins a value of another kind.
  split
  case h_7 => rw [hread]; rfl
  all_goals
    rename_i heq
    obtain ⟨rfl, -⟩ := List.cons.inj heq
    exact absurd hdigit (by decide)

theorem reads_array {items : List Json} (h : ∀ j ∈ items, Plain j ∧ Reads j) :
    Reads (.array items) := by
  intro fuel rest hfuel _
  rw [write, List.length_cons, List.length_append, List.length_singleton] at hfuel
  obtain ⟨fuel, rfl⟩ : ∃ more, fuel = more + 1 := ⟨fuel - 1, by omega⟩
  rw [write, List.cons_append, List.append_assoc, List.singleton_append, readValue,
    skipGap_cons (by decide)]
  cases items with
  | nil => rfl
  | cons item items =>
    have hfirst : ∃ u more, write.writeItems (item :: items) = u :: more ∧
        isGap u = false ∧ u ≠ 93 := by
      obtain ⟨u, more, hwrite, hgap, hclose⟩ := (h item List.mem_cons_self).1.exists_write_eq_cons
      cases items with
      | nil => exact ⟨u, more, hwrite, hgap, hclose⟩
      | cons next items =>
        exact ⟨u, _, by rw [write.writeItems, hwrite, List.cons_append], hgap, hclose⟩
    have hread := readItems_writeItems (List.cons_ne_nil item items) (fun j hj => (h j hj).2)
      (show 2 * (write.writeItems (item :: items)).length + 1 ≤ fuel by omega) rest
    obtain ⟨u, more, hwrite, hgap, hclose⟩ := hfirst
    rw [hwrite, List.cons_append] at hread ⊢
    simp only [skipGap_cons hgap]
    split
    · rename_i heq
      exact absurd (List.cons.inj heq).1 hclose
    · rw [hread]
      rfl

theorem reads_object {ms : List (Text × Json)} (ordered : Ordered ms)
    (h : ∀ m ∈ ms, Plain m.2 ∧ Reads m.2) : Reads (.object ms) := by
  intro fuel rest hfuel _
  rw [write, List.length_cons, List.length_append, List.length_singleton] at hfuel
  obtain ⟨fuel, rfl⟩ : ∃ more, fuel = more + 1 := ⟨fuel - 1, by omega⟩
  rw [write, List.cons_append, List.append_assoc, List.singleton_append, readValue,
    skipGap_cons (by decide)]
  cases ms with
  | nil => rfl
  | cons m ms =>
    have hfirst : ∃ more, write.writeMembers (m :: ms) = 34 :: more := by
      rw [writeMembers_cons (h m List.mem_cons_self).1.ne_missing, writeText]
      exact ⟨_, rfl⟩
    have hread := readMembers_writeMembers (List.cons_ne_nil m ms) h
      (show 2 * (write.writeMembers (m :: ms)).length + 1 ≤ fuel by omega) rest
    obtain ⟨more, hwrite⟩ := hfirst
    rw [hwrite, List.cons_append] at hread ⊢
    change (readMembers fuel (34 :: (more ++ 125 :: rest))).bind _ = _
    rw [hread, Option.bind_some]
    exact congrArg (fun ms => some (object ms, rest)) (ofMembers_eq_self ordered)

/-- A plain value is read as it was written. -/
theorem Plain.reads {j : Json} (h : Plain j) : Reads j := by
  induction h with
  | number h => exact reads_number h
  | array h ih => exact reads_array fun j hj => ⟨h j hj, ih j hj⟩
  | object ordered h ih => exact reads_object ordered fun m hm => ⟨h m hm, ih m hm⟩
  | null =>
    intro fuel rest hfuel _
    obtain ⟨fuel, rfl⟩ : ∃ more, fuel = more + 1 := ⟨fuel - 1, by simp [write] at hfuel; omega⟩
    rfl
  | bool b =>
    intro fuel rest hfuel _
    cases b <;>
    · obtain ⟨fuel, rfl⟩ : ∃ more, fuel = more + 1 := ⟨fuel - 1, by simp [write] at hfuel; omega⟩
      rfl
  | text t =>
    intro fuel rest hfuel _
    obtain ⟨fuel, rfl⟩ : ∃ more, fuel = more + 1 :=
      ⟨fuel - 1, by simp [write, writeText] at hfuel; omega⟩
    have hread := readString_points t rest
    rw [write, writeText, List.cons_append, List.append_assoc, List.singleton_append, readValue,
      skipGap_cons (by decide)]
    simp only [hread]
    rfl

/-- The text of a plain value is read back as the value. -/
theorem read?_write {j : Json} (h : Plain j) : read? (write j) = some j := by
  have hread := h.reads (2 * (write j).length + 2) [] (by omega) stops_nil
  rw [List.append_nil] at hread
  rw [read?, hread]
  rfl

end Quarry.Json
