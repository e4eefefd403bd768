import Quarry.Proofs.Fallible
import Quarry.Proofs.Json.Members
import Quarry.Proofs.Number.Double
import Quarry.Schema

/-! Checks that values pass. A check reads a way of writing if it passes everything that is written
so and answers what was written; the checks of arrays, pairs and records read what their
parts read. -/

namespace Quarry.Schema

variable {α β : Type}

/-- A check reads a value as a result, whatever the place of the value. -/
def Reads (check : Check α) (j : Json) (x : α) : Prop := ∀ path, check path j = .ok x

theorem all_map_ok (items : List β) (result : β → α) {checks : β → Checked α}
    (h : ∀ x ∈ items, checks x = .ok (result x)) :
    Checked.all (items.map checks) = .ok (items.map result) := by
  induction items with
  | nil => rfl
  | cons x rest ih =>
    obtain ⟨hx, hrest⟩ := List.forall_mem_cons.1 h
    rw [List.map_cons, Checked.all, hx, ih hrest]
    rfl

/-- A check passes only if each of its parts does. -/
theorem apply_eq_ok {f : Checked (α → β)} {a : Checked α} {y : β} (h : f.apply a = .ok y) :
    ∃ g x, f = .ok g ∧ a = .ok x ∧ y = g x := by
  cases f <;> cases a <;> cases h
  exact ⟨_, _, rfl, rfl, rfl⟩

theorem apply_ok {f : Checked (α → β)} {a : Checked α} {g : α → β} {x : α} (hf : f = .ok g)
    (ha : a = .ok x) :
    f.apply a = .ok (g x) := by
  rw [hf, ha]
  rfl

theorem both_eq_ok_iff {a : Checked α} {b : Checked β} {p : α × β} :
    Checked.both a b = .ok p ↔ a = .ok p.1 ∧ b = .ok p.2 := by
  cases a <;> cases b <;> simp [Checked.both, Prod.ext_iff]

theorem ne_nil_of_nonemptyText {path : List Text} {j : Json} {t : Text}
    (h : nonemptyText path j = .ok t) : t ≠ [] := by
  rw [nonemptyText] at h
  cases htext : text path j with
  | error issues =>
    rw [htext] at h
    cases h
  | ok read =>
    rw [htext] at h
    cases read with
    | nil => cases h
    | cons u rest =>
      cases h
      exact List.cons_ne_nil u rest

theorem reads_text (t : Text) : Reads text (.text t) t := fun _ => rfl

theorem reads_nonemptyText {t : Text} (h : t ≠ []) : Reads nonemptyText (.text t) t := by
  obtain ⟨u, rest, rfl⟩ := List.exists_cons_of_ne_nil h
  exact fun _ => rfl

theorem reads_number (n : Nat) : Reads number (.number (.whole n)) (.whole n) := fun _ => rfl

theorem reads_count (n : Nat) : Reads count (.number (.whole n)) n := fun _ => rfl

theorem reads_literal (n : Nat) : Reads (literal n) (.number (.whole n)) () := fun _ => if_pos rfl

theorem reads_array {check : Check α} {write : β → Json} {result : β → α} {items : List β}
    (h : ∀ x ∈ items, Reads check (write x) (result x)) :
    Reads (array check) (.array (items.map write)) (items.map result) := by
  intro path
  have hitems : items.zipIdx.map (fun item => result item.1) = items.map result := by
    have hfirst := congrArg (List.map result) (List.zipIdx_map_fst 0 items)
    rwa [List.map_map] at hfirst
  rw [array, List.zipIdx_map, List.map_map, ← hitems]
  refine all_map_ok items.zipIdx (fun item => result item.1) fun item hitem => ?_
  exact h item.1 (List.fst_mem_of_mem_zipIdx hitem) _

theorem reads_pair {first : Check α} {second : Check β} {j j' : Json} {x : α} {y : β}
    (h : Reads first j x) (h' : Reads second j' y) :
    Reads (pair first second) (.array [j, j']) (x, y) := by
  intro path
  rw [pair, h, h']
  rfl

/-- The check of a record reads all members but the reserved one. -/
theorem reads_record {check : Check α} (write : β → Json) (result : β → α) {ms : List (Text × β)}
    (h : ∀ m ∈ ms, Reads check (write m.2) (result m.2)) :
    Reads (record check) (.object (ms.map fun (name, value) => (name, write value)))
      ((ms.filter (·.1 != Json.reservedName)).map fun (name, value) => (name, result value)) := by
  intro path
  have hall : Checked.all (ms.map fun m =>
      (check (path ++ [m.1]) (write m.2)).map fun x => (m.1, x)) =
        .ok (ms.map fun m => (m.1, result m.2)) := by
    refine all_map_ok ms _ fun m hm => ?_
    rw [h m hm]
    rfl
  simp only [record, members, bind, Except.bind, List.map_map, Function.comp_def, hall,
    List.filter_map]
  rfl

/-- Texts that are written as members are read back, but the reserved one. -/
theorem reads_ofTexts (fields : List (Text × Text)) :
    Reads (record text) (Json.ofTexts fields) (fields.filter (·.1 != Json.reservedName)) := by
  intro path
  refine (reads_record .text (fun value => value) (fun m _ => reads_text m.2) path).trans ?_
  rw [List.map_id']

theorem member_eq_ok {check : Check α} {ms : List (Text × Json)} {name : Text} {j : Json} {x : α}
    (hmember : Json.member? ms name = some j) (h : Reads check j x) (path : List Text) :
    member ms name check path = .ok x := by
  rw [member, hmember]
  exact h _

/-! ### What passes -/

theorem tested_eq_ok_iff {path : List Text} {x y : α} {tests : List (Bool × Complaint)} :
    tested path x tests = .ok y ↔ x = y ∧ ∀ t ∈ tests, t.1 = true := by
  have hnone : tests.filter (!·.1) = [] ↔ ∀ t ∈ tests, t.1 = true := by
    simp only [List.filter_eq_nil_iff, Bool.not_eq_true', Bool.not_eq_false]
  rw [← hnone, tested]
  split
  · rename_i h
    simp [h]
  · rename_i h
    constructor
    · intro heq
      cases heq
    · exact fun heq => absurd heq.2 h

theorem wrongKind_ne_ok {path : List Text} {wanted : Text} {j : Json} {x : α} :
    wrongKind path wanted j ≠ .ok x := by
  intro h
  rw [wrongKind.eq_def] at h
  split at h <;> cases h

theorem number_eq_ok_iff {path : List Text} {j : Json} {n : Number} :
    number path j = .ok n ↔ j = .number n ∧ n.isNotANumber = false := by
  rw [number.eq_def]
  split
  · rename_i n'
    split
    · rename_i hnan
      constructor
      · intro h
        cases h
      · rintro ⟨h, hnot⟩
        cases h
        rw [hnan] at hnot
        cases hnot
    · rename_i hnot
      rw [Except.ok.injEq, Json.number.injEq]
      exact ⟨fun h => ⟨h, h ▸ Bool.eq_false_iff.2 hnot⟩, And.left⟩
  · rename_i hkind
    exact ⟨fun h => absurd h wrongKind_ne_ok, fun h => absurd h.1 (hkind n)⟩

/-- What is finite is a number. -/
theorem isNotANumber_of_isFinite {n : Number} (h : n.isFinite = true) : n.isNotANumber = false := by
  cases n with
  | whole k => rfl
  | real x =>
    change x.toModel.unpack.isNaN = false
    rw [Number.isFinite, Binary.ofFloat_eq] at h
    cases hx : x.toModel.unpack with
    | notANumber =>
      rw [hx] at h
      cases h
    | zero s | infinity s | finite s m e hm => rfl

theorem amount_eq_ok_iff {path : List Text} {j : Json} {n : Number} : amount path j = .ok n ↔
    j = .number n ∧ n.isFinite = true ∧ isNonnegative n = true := by
  rw [amount, bind_eq_ok_iff]
  simp only [number_eq_ok_iff, tested_eq_ok_iff, List.forall_mem_cons, List.not_mem_nil,
    false_implies, implies_true, and_true]
  constructor
  · rintro ⟨_, ⟨hj, -⟩, rfl, hfinite, hsign⟩
    exact ⟨hj, hfinite, hsign⟩
  · rintro ⟨hj, hfinite, hsign⟩
    exact ⟨n, ⟨hj, isNotANumber_of_isFinite hfinite⟩, rfl, hfinite, hsign⟩

theorem share_eq_ok {path : List Text} {j : Json} {n : Number} (h : share path j = .ok n) :
    j = .number n ∧ isNonnegative n = true ∧ n.toFloat ≤ 1 := by
  rw [share, bind_eq_ok_iff] at h
  simp only [number_eq_ok_iff, tested_eq_ok_iff, List.forall_mem_cons, List.not_mem_nil,
    false_implies, implies_true, and_true, decide_eq_true_eq] at h
  obtain ⟨_, ⟨hj, -⟩, rfl, hsign, hle⟩ := h
  exact ⟨hj, hsign, hle⟩

theorem positive_eq_ok {path : List Text} {j : Json} {k : Nat} (h : positive path j = .ok k) :
    ∃ n, j = .number n ∧ n.isInteger = true ∧ isPositive n = true ∧ k = n.toNat?.getD 0 := by
  rw [positive, bind_eq_ok_iff] at h
  simp only [bind_eq_ok_iff, number_eq_ok_iff, tested_eq_ok_iff, List.forall_mem_cons,
    List.not_mem_nil, false_implies, implies_true, and_true] at h
  obtain ⟨n, ⟨hj, -⟩, _, ⟨rfl, hinteger, hsign⟩, hk⟩ := h
  cases hk
  exact ⟨n, hj, hinteger, hsign, rfl⟩

theorem members_eq_ok_iff {path : List Text} {j : Json} {ms : List (Text × Json)} :
    members path j = .ok ms ↔ j = .object ms := by
  rw [members.eq_def]
  split
  · rw [Except.ok.injEq, Json.object.injEq]
  · rename_i hkind
    exact ⟨fun h => absurd h wrongKind_ne_ok, fun h => absurd h (hkind ms)⟩

theorem bool_eq_ok_iff {path : List Text} {j : Json} {b : Bool} :
    bool path j = .ok b ↔ j = .bool b := by
  rw [bool.eq_def]
  split
  · rw [Except.ok.injEq, Json.bool.injEq]
  · rename_i hkind
    exact ⟨fun h => absurd h wrongKind_ne_ok, fun h => absurd h (hkind b)⟩

end Quarry.Schema
