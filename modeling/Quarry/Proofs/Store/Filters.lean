import Quarry.Proofs.Json.Whole
import Quarry.Store.Table

/-! Names in the filters of a table. A name is put into a filter as a quoted literal, with each of
its quotes doubled, and the filter reaches the table in UTF-8; what the table reads from it is the
name in UTF-8, whatever quotes stand in it. -/

namespace Quarry.TableStore

theorem escape_cons (u : UInt16) (t : Text) :
    escape (u :: t) = (if u = quote then [quote, quote] else [u]) ++ escape t := by
  rw [escape, Text.replaceUnit, List.flatMap_cons, escape, Text.replaceUnit]

/-- A literal is read as the text that it quotes. -/
theorem readLiteral?_escape (t : Text) : readLiteral? (escape t ++ [quote]) = some t := by
  induction t with
  | nil => rfl
  | cons u t ih =>
    rw [escape_cons]
    by_cases hu : u = quote
    · subst hu
      rw [if_pos rfl, List.append_assoc, List.cons_append, List.cons_append,
        readLiteral?, if_pos rfl, if_pos rfl, List.nil_append, ih, Option.map_some]
    · obtain ⟨v, rest, hrest⟩ : ∃ v rest, escape t ++ [quote] = v :: rest :=
        List.exists_cons_of_ne_nil (by simp)
      rw [hrest] at ih
      rw [if_neg hu, List.append_assoc, List.singleton_append, hrest, readLiteral?, if_neg hu, ih,
        Option.map_some]

theorem filterOf_eq (id : DocId) : filterOf id = asksId ++ (escape id ++ [quote]) := by
  rw [filterOf, Text.concat, List.flatten_cons, List.flatten_cons, List.flatten_singleton]

/-- The filter for a name asks for that name. -/
theorem asked?_filterOf (id : DocId) : asked? (filterOf id) = some id := by
  have hstarts : (filterOf id).startsWith asksId = true := by
    rw [Text.startsWith, List.isPrefixOf_iff_prefix, filterOf_eq]
    exact List.prefix_append _ _
  rw [asked?, if_pos hstarts, filterOf_eq, List.drop_left, readLiteral?_escape]

/-! ### Filters in UTF-8 -/

theorem plain_quote : Text.Plain quote := by decide

/-- Quotes are no surrogates, so that none comes to stand alone, or in a pair, by being doubled. -/
theorem points_escape (t : Text) : (escape t).points =
    t.points.flatMap fun p => if p = .unit quote then [.unit quote, .unit quote] else [p] := by
  fun_induction Text.points t with
  | case1 => rfl
  | case2 u =>
    rw [escape_cons]
    by_cases hu : u = quote
    · subst hu
      rfl
    · simp [hu, escape, Text.replaceUnit, Text.points]
  | case3 u v rest huv ih =>
    obtain ⟨hhigh, hlow⟩ := Bool.and_eq_true_iff.1 huv
    have hu : u ≠ quote := by
      rintro rfl
      cases hhigh
    have hv : v ≠ quote := by
      rintro rfl
      cases hlow
    rw [escape_cons, escape_cons, if_neg hu, if_neg hv, List.flatMap_cons, ← ih]
    simp [Text.points, huv]
  | case4 u v rest huv ih =>
    rw [List.flatMap_cons, ← ih, escape_cons u]
    by_cases hu : u = quote
    · subst hu
      simp [Text.points_cons plain_quote]
    · obtain ⟨w, more, hrest, hw⟩ : ∃ w more, escape (v :: rest) = w :: more ∧ w = v := by
        rw [escape_cons]
        split
        · exact ⟨_, _, rfl, by simp [*]⟩
        · exact ⟨_, _, rfl, rfl⟩
      subst hw
      simp [hu, hrest, Text.points, huv]

theorem replaceLone_escape (t : Text) : (escape t).replaceLone = escape t.replaceLone := by
  rw [Text.replaceLone, points_escape, Text.replaceLone, List.flatMap_assoc, escape,
    Text.replaceUnit, List.flatMap_assoc]
  refine List.flatMap_congr fun p hp => ?_
  cases p with
  | unit u =>
    by_cases hu : u = quote
    · subst hu
      rfl
    · have hunit : Point.unit u ≠ .unit quote := fun heq => hu (Point.unit.inj heq)
      rw [if_neg hunit, List.flatMap_singleton]
      split
      · rfl
      · simp [Point.units, hu]
  | pair high low =>
    obtain ⟨hhigh, hlow⟩ := Text.paired_of_mem_points hp
    have hne : high ≠ quote ∧ low ≠ quote := by
      constructor <;> rintro rfl
      · cases hhigh
      · cases hlow
    simp [Point.isLoneSurrogate, Point.units, hne.1, hne.2]

theorem replaceLone_filterOf (id : DocId) :
    (filterOf id).replaceLone = filterOf id.replaceLone := by
  have hasks : asksId.Whole := by decide +kernel
  have hclosed (t : Text) : Text.replaceLone (t ++ [quote]) = t.replaceLone ++ [quote] := by
    rw [Text.replaceLone, Text.points_append plain_quote, List.flatMap_append]
    rfl
  rw [filterOf_eq, filterOf_eq, Text.replaceLone, hasks.points_append, List.flatMap_append]
  change asksId.replaceLone ++ Text.replaceLone (escape id ++ [quote]) = _
  rw [hasks.replaceLone_eq, hclosed, replaceLone_escape]

/-- The filter for a name selects the rows that have it, in UTF-8. -/
theorem selects_filterOf (id : DocId) :
    selects (filterOf id) = fun r : Row => r.id == id.replaceLone := by
  funext r
  rw [selects, replaceLone_filterOf, asked?_filterOf, Option.some_beq_some, Bool.beq_comm]

end Quarry.TableStore
