import Quarry.Proofs.Query.Parse
import Quarry.Proofs.Text.Terms

/-! The shape of the trees that query texts are parsed to. Conjunctions and disjunctions are flat
and have several children, phrases and proximity groups have several terms. -/

namespace Quarry.Query

/-- A tree in the shape that parsing gives. -/
inductive Normal : Query → Prop where
  | term (t : Term) : Normal (.term t)
  | stem (t : Text) : Normal (.stem t)
  | phrase (ts : List Term) (several : 2 ≤ ts.length) (undotted : ∀ t ∈ ts, 46 ∉ t) :
    Normal (.phrase ts)
  | near (ts : List Term) (distance : Number) (several : 2 ≤ ts.length) (distinct : ts.Nodup) :
    Normal (.near ts distance)
  | not (child : Query) (h : Normal child) : Normal (.not child)
  | and (children : List Query) (several : 2 ≤ children.length)
    (flat : ∀ q ∈ children, q.conjuncts = [q]) (h : ∀ q ∈ children, Normal q) :
    Normal (.and children)
  | or (children : List Query) (several : 2 ≤ children.length)
    (flat : ∀ q ∈ children, q.disjuncts = [q]) (h : ∀ q ∈ children, Normal q) :
    Normal (.or children)

/-- A flat conjunction is its only conjunct, or the conjunction of them. -/
theorem conj_cases (qs : List Query) : (∃ q, qs.flatMap conjuncts = [q] ∧ conj qs = q) ∨
    ((qs.flatMap conjuncts).length ≠ 1 ∧ conj qs = .and (qs.flatMap conjuncts)) := by
  rw [conj]
  split
  · rename_i q heq
    exact .inl ⟨q, heq, rfl⟩
  · rename_i hone
    refine .inr ⟨fun hlength => ?_, rfl⟩
    obtain ⟨q, hq⟩ := List.length_eq_one_iff.1 hlength
    exact hone q hq

theorem disj_cases (qs : List Query) : (∃ q, qs.flatMap disjuncts = [q] ∧ disj qs = q) ∨
    ((qs.flatMap disjuncts).length ≠ 1 ∧ disj qs = .or (qs.flatMap disjuncts)) := by
  rw [disj]
  split
  · rename_i q heq
    exact .inl ⟨q, heq, rfl⟩
  · rename_i hone
    refine .inr ⟨fun hlength => ?_, rfl⟩
    obtain ⟨q, hq⟩ := List.length_eq_one_iff.1 hlength
    exact hone q hq

theorem conj_eq_and {qs : List Query} (h : (qs.flatMap conjuncts).length ≠ 1) :
    conj qs = .and (qs.flatMap conjuncts) := by
  rcases conj_cases qs with ⟨q, hq, -⟩ | ⟨-, heq⟩
  · rw [hq] at h
    exact absurd rfl h
  · exact heq

theorem disj_eq_or {qs : List Query} (h : (qs.flatMap disjuncts).length ≠ 1) :
    disj qs = .or (qs.flatMap disjuncts) := by
  rcases disj_cases qs with ⟨q, hq, -⟩ | ⟨-, heq⟩
  · rw [hq] at h
    exact absurd rfl h
  · exact heq

/-- Normal parts of a normal query: all of them are their own only part. -/
def NormalParts (parts : Query → List Query) (q : Query) : Prop :=
  parts q ≠ [] ∧ ∀ child ∈ parts q, child.Normal ∧ parts child = [child]

theorem Normal.conjuncts {q : Query} (h : q.Normal) : NormalParts Query.conjuncts q := by
  have single : Query.conjuncts q = [q] → NormalParts Query.conjuncts q := by
    intro hq
    rw [NormalParts, hq]
    exact ⟨List.cons_ne_nil _ _, List.forall_mem_singleton.2 ⟨h, hq⟩⟩
  cases h with
  | and children several flat h =>
    refine ⟨?_, fun child hchild => ⟨h child hchild, flat child hchild⟩⟩
    rintro (hnil : children = [])
    rw [hnil] at several
    exact absurd several (by decide)
  | term | stem | phrase | near | not | or => exact single rfl

theorem Normal.disjuncts {q : Query} (h : q.Normal) : NormalParts Query.disjuncts q := by
  have single : Query.disjuncts q = [q] → NormalParts Query.disjuncts q := by
    intro hq
    rw [NormalParts, hq]
    exact ⟨List.cons_ne_nil _ _, List.forall_mem_singleton.2 ⟨h, hq⟩⟩
  cases h with
  | or children several flat h =>
    refine ⟨?_, fun child hchild => ⟨h child hchild, flat child hchild⟩⟩
    rintro (hnil : children = [])
    rw [hnil] at several
    exact absurd several (by decide)
  | term | stem | phrase | near | not | and => exact single rfl

theorem normalParts_flatMap {parts : Query → List Query} {qs : List Query} (hne : qs ≠ [])
    (h : ∀ q ∈ qs, NormalParts parts q) : qs.flatMap parts ≠ [] ∧
      ∀ child ∈ qs.flatMap parts, child.Normal ∧ parts child = [child] := by
  constructor
  · obtain ⟨q, rest, rfl⟩ := List.exists_cons_of_ne_nil hne
    rw [List.flatMap_cons]
    exact fun hnil => (h q List.mem_cons_self).1 (List.append_eq_nil_iff.1 hnil).1
  · intro child hchild
    obtain ⟨q, hq, hmem⟩ := List.mem_flatMap.1 hchild
    exact (h q hq).2 child hmem

theorem two_le_length {items : List Query} (hne : items ≠ []) (hone : items.length ≠ 1) :
    2 ≤ items.length := by
  have := List.length_pos_iff.2 hne
  omega

theorem normal_conj {qs : List Query} (hne : qs ≠ []) (h : ∀ q ∈ qs, q.Normal) :
    (conj qs).Normal := by
  obtain ⟨hflat, hparts⟩ := normalParts_flatMap hne fun q hq => (h q hq).conjuncts
  rcases conj_cases qs with ⟨q, hq, heq⟩ | ⟨hone, heq⟩
  · rw [heq]
    exact (hparts q (hq ▸ List.mem_singleton_self q)).1
  · rw [heq]
    exact .and _ (two_le_length hflat hone) (fun q hq => (hparts q hq).2) fun q hq =>
      (hparts q hq).1

theorem normal_disj {qs : List Query} (hne : qs ≠ []) (h : ∀ q ∈ qs, q.Normal) :
    (disj qs).Normal := by
  obtain ⟨hflat, hparts⟩ := normalParts_flatMap hne fun q hq => (h q hq).disjuncts
  rcases disj_cases qs with ⟨q, hq, heq⟩ | ⟨hone, heq⟩
  · rw [heq]
    exact (hparts q (hq ▸ List.mem_singleton_self q)).1
  · rw [heq]
    exact .or _ (two_le_length hflat hone) (fun q hq => (hparts q hq).2) fun q hq => (hparts q hq).1

theorem exists_cons_cons {α : Type} {items : List α} (several : 2 ≤ items.length) :
    ∃ a b rest, items = a :: b :: rest := by
  cases items with
  | nil => exact absurd several (by simp)
  | cons a items =>
    cases items with
    | nil => exact absurd several (by simp)
    | cons b rest => exact ⟨a, b, rest, rfl⟩

theorem nodup_eraseDups {α : Type} [BEq α] [LawfulBEq α] (items : List α) :
    items.eraseDups.Nodup := by
  induction hlength : items.length using Nat.strongRecOn generalizing items with
  | _ length ih =>
    cases items with
    | nil => exact List.nodup_nil
    | cons a items =>
      rw [List.eraseDups_cons, List.nodup_cons, List.mem_eraseDups]
      refine ⟨by simp, ih _ ?_ _ rfl⟩
      have := List.length_filter_le (fun b => !b == a) items
      simp only [List.length_cons] at hlength
      omega

theorem eraseDups_of_nodup {α : Type} [BEq α] [LawfulBEq α] {items : List α} (h : items.Nodup) :
    items.eraseDups = items := by
  induction items with
  | nil => rfl
  | cons a items ih =>
    rw [List.nodup_cons] at h
    rw [List.eraseDups_cons, List.filter_eq_self.2, ih h.2]
    intro b hb
    have hne : b ≠ a := fun heq => h.1 (heq ▸ hb)
    simpa using hne

/-! ### Operands -/

theorem normal_ofTerms {ts : List Term} (hne : ts ≠ [])
    (undotted : ts.length ≠ 1 → ∀ t ∈ ts, 46 ∉ t) :
    (ofTerms ts).Normal := by
  match ts with
  | [] => exact absurd rfl hne
  | [t] => exact .term t
  | t :: t' :: ts => exact .phrase _ (by simp) (undotted (by simp))

theorem normal_wordOperand {word : Text} {q : Query} (h : wordOperand word = .ok (some q)) :
    q.Normal := by
  rw [wordOperand] at h
  split at h
  · simp only at h
    split at h
    · cases h
    · cases h
      refine normal_conj (by simp) fun q hq => ?_
      rcases List.mem_append.1 hq with hq | hq
      · obtain ⟨t, -, rfl⟩ := List.mem_map.1 hq
        exact .term t
      · rw [List.mem_singleton.1 hq]
        exact .stem _
  · split at h
    · cases h
    · rename_i hne
      cases h
      refine normal_ofTerms hne fun hone => ?_
      rw [(Text.queryTerms_cases word).resolve_left hone]
      exact Text.undotted_phraseTerms word

theorem normal_operand {kind : Lexeme.Kind} {q : Query} (h : operand kind = .ok (some q)) :
    q.Normal := by
  cases kind with
  | word text => exact normal_wordOperand h
  | phrase text =>
    simp only [operand] at h
    split at h
    · cases h
    · rename_i hne
      cases h
      exact normal_ofTerms hne fun _ => Text.undotted_phraseTerms text
  | near words distance =>
    simp only [operand] at h
    split at h
    · cases h
    · cases h
      exact .term _
    · rename_i hnil hone
      cases h
      refine .near _ _ ?_ (nodup_eraseDups _)
      match hterms : (words.flatMap Text.queryTerms).eraseDups with
      | [] => exact absurd hterms hnil
      | [t] => exact absurd hterms (hone t)
      | t :: t' :: ts => simp
  | opening | closing | and | or | not => cases h

theorem Spells.normal {xs : List Lexeme} {as : List Symbol} (h : Spells xs as) :
    ∀ q, .operand q ∈ as → q.Normal := by
  induction h with
  | nil => exact fun q hq => absurd hq List.not_mem_nil
  | drop _ _ ih => exact ih
  | @take x xs a as hx _ ih =>
    intro q hq
    rcases List.mem_cons.1 hq with rfl | hq
    · have hfound : x.kind.symbol = .ok ((some q).map .operand) := hx
      exact normal_operand (ParseState.operand_of_symbol hfound).1
    · exact ih q hq

theorem Derives.normal {level : Level} {as : List Symbol} {q : Query} (h : Derives level as q)
    (operands : ∀ q, .operand q ∈ as → q.Normal) : q.Normal := by
  have pair : ∀ {left right : Query}, left.Normal → right.Normal →
      ∀ q ∈ [left, right], q.Normal := by
    intro left right hl hr
    exact List.forall_mem_cons.2 ⟨hl, List.forall_mem_singleton.2 hr⟩
  induction h with
  | operand q => exact operands q (List.mem_singleton_self _)
  | negation _ ih => exact .not _ (ih fun q hq => operands q (List.mem_cons_of_mem _ hq))
  | group _ ih =>
    exact ih fun q hq => operands q (List.mem_cons_of_mem _ (List.mem_append_left _ hq))
  | toAnd _ ih | toOr _ ih | toQuery _ ih => exact ih operands
  | and _ _ ihl ihr =>
    refine normal_conj (List.cons_ne_nil _ _) (pair (ihl fun q hq => ?_) (ihr fun q hq => ?_))
    · exact operands q (List.mem_append_left _ hq)
    · exact operands q (List.mem_append_right _ (List.mem_cons_of_mem _ hq))
  | or _ _ ihl ihr =>
    refine normal_disj (List.cons_ne_nil _ _) (pair (ihl fun q hq => ?_) (ihr fun q hq => ?_))
    · exact operands q (List.mem_append_left _ hq)
    · exact operands q (List.mem_append_right _ (List.mem_cons_of_mem _ hq))
  | juxtaposition _ _ ihl ihr =>
    refine normal_conj (List.cons_ne_nil _ _) (pair (ihl fun q hq => ?_) (ihr fun q hq => ?_))
    · exact operands q (List.mem_append_left _ hq)
    · exact operands q (List.mem_append_right _ hq)

/-- A query text is parsed to a tree in normal shape. -/
theorem normal_of_parse {text : Text} {q : Query} (h : parse text = .ok q) : q.Normal := by
  obtain ⟨xs, as, -, has, hderives⟩ := exists_derives_of_parse h
  exact hderives.normal has.normal

end Quarry.Query
