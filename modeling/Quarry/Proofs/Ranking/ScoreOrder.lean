import Quarry.Proofs.Number.Value
import Quarry.Proofs.Ranking.RankOrder
import Quarry.Proofs.Text.Order
import Quarry.Ranking.Scalar

/-! The order of ranked items: by the values of their scores from the greatest on, and of one value
by name. Scores that are numbers are ordered so. Items of different names have one place each in
such an order, so that sorting them does not depend on where they were. -/

namespace Quarry

/-- Among the items with a property, the greater value comes first, and of one value the
smaller name. -/
structure OrdersBy {β V : Type} [LinearOrder V] (P : β → Prop) (value : β → V) (name : β → Text)
    (before : β → β → Bool) : Prop where
  before_iff : ∀ {a b}, P a → P b → (before a b = true ↔
    value b < value a ∨ value a = value b ∧ compare (name a) (name b) = .lt)

namespace OrdersBy

variable {β V : Type} [LinearOrder V] {P : β → Prop} {value : β → V} {name : β → Text}
  {before : β → β → Bool}
  (orders : OrdersBy P value name before)
include orders

theorem eq_false_iff {a b : β} (ha : P a) (hb : P b) : before b a = false ↔
    value b < value a ∨ value a = value b ∧ (compare (name a) (name b)).isLE = true := by
  have hname : (compare (name a) (name b)).isLE = true ↔ compare (name b) (name a) ≠ .lt := by
    rw [(Std.OrientedOrd.eq_swap : compare (name a) (name b) = (compare (name b) (name a)).swap)]
    cases compare (name b) (name a) <;> simp
  rw [← Bool.not_eq_true, orders.before_iff hb ha, hname]
  rcases lt_trichotomy (value a) (value b) with hlt | heq | hgt
  · simp [hlt, hlt.not_gt, hlt.ne]
  · simp [heq]
  · simp [hgt, hgt.not_gt, hgt.ne]

theorem ranksOn : RanksOn before P where
  asymm ha hb h := by
    rw [orders.before_iff ha hb] at h
    rw [orders.eq_false_iff ha hb]
    exact h.imp_right fun h => ⟨h.1, by rw [h.2]; rfl⟩
  trans hx hy hz hyx hzy := by
    rw [orders.eq_false_iff hx hy] at hyx
    rw [orders.eq_false_iff hy hz] at hzy
    rw [orders.eq_false_iff hx hz]
    rcases hyx with hyx | ⟨hxy, hname⟩
    · rcases hzy with hzy | ⟨hyz, -⟩
      · exact .inl (hzy.trans hyx)
      · exact .inl (hyz ▸ hyx)
    · rw [hxy]
      exact hzy.imp_right fun h => ⟨h.1, Std.TransCmp.isLE_trans hname h.2⟩

/-! ### Items of different names -/

variable {items : List β} (hitems : ∀ x ∈ items, P x) (nodup : (items.map name).Nodup)
include hitems nodup

/-- Sorting puts each item before those behind it. -/
theorem pairwise_rankSort : (rankSort before items).Pairwise fun a b => before a b = true := by
  have hperm := rankSort_perm before items
  have hsorted := orders.ranksOn.sortedBy_rankSort hitems
  have hne : (rankSort before items).Pairwise fun a b => name a ≠ name b :=
    List.pairwise_map.1 ((hperm.map name).nodup_iff.2 nodup)
  refine (hsorted.and hne).imp_of_mem fun {a b} ha hb h => ?_
  have hPa := hitems a (hperm.mem_iff.1 ha)
  have hPb := hitems b (hperm.mem_iff.1 hb)
  rw [orders.before_iff hPa hPb]
  exact ((orders.eq_false_iff hPa hPb).1 h.1).imp_right fun hle =>
    ⟨hle.1, Text.compare_eq_lt hle.2 h.2⟩

theorem rankSort_eq_of_perm {items' : List β} (perm : items.Perm items') :
    rankSort before items = rankSort before items' := by
  have hsame : (rankSort before items).Perm (rankSort before items') :=
    ((rankSort_perm _ _).trans perm).trans (rankSort_perm _ _).symm
  refine hsame.eq_of_pairwise (fun a b ha hb hab hba => ?_) (orders.pairwise_rankSort hitems nodup)
    (orders.pairwise_rankSort (fun x hx => hitems x (perm.mem_iff.2 hx))
      ((perm.map name).nodup_iff.1 nodup))
  have hPa := hitems a ((rankSort_perm _ _).mem_iff.1 ha)
  have hPb := hitems b (perm.mem_iff.2 ((rankSort_perm _ _).mem_iff.1 hb))
  rw [orders.ranksOn.asymm hPa hPb hab] at hba
  cases hba

end OrdersBy

/-! ### Scores that are numbers -/

namespace Scalar

variable {β : Type} {score : β → Float} {name : β → Text}

open Binary (value)

theorem ranksBefore_iff {a b : β} (ha : (score a).isNaN = false) (hb : (score b).isNaN = false) :
    ranksBefore score name a b = true ↔
      value (score b) < value (score a) ∨
        value (score a) = value (score b) ∧ compare (name a) (name b) = .lt := by
  rw [ranksBefore]
  by_cases heq : value (score a) = value (score b)
  · rw [if_pos ((Binary.beq_iff_value ha hb).2 heq), Ordering.isLT_iff_eq_lt]
    simp [heq]
  · rw [if_neg (mt (Binary.beq_iff_value ha hb).1 heq)]
    change decide (score b < score a) = true ↔ _
    simp [heq, Binary.lt_iff_value hb ha]

theorem ordersBy_ranksBefore (score : β → Float) (name : β → Text) :
    OrdersBy (fun x => (score x).isNaN = false) (fun x => value (score x)) name
      (ranksBefore score name) :=
  ⟨ranksBefore_iff⟩

theorem pairwise_rankSort {items : List β} (numbers : ∀ x ∈ items, (score x).isNaN = false)
    (nodup : (items.map name).Nodup) :
    (rankSort (ranksBefore score name) items).Pairwise fun a b =>
      ranksBefore score name a b = true :=
  (ordersBy_ranksBefore score name).pairwise_rankSort numbers nodup

end Scalar
end Quarry
