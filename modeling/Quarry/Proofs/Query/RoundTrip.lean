import Quarry.Proofs.Query.Lexing

/-! The text of a tree that parsing gave is parsed to that tree again. The printer puts conjunctions
and disjunctions into parentheses wherever they stand inside another node, so every child is printed
as what the grammar derives at its tightest level, and a conjunction or disjunction is a chain
of such. -/

namespace Quarry.Query

/-- A tree whose terms the tokenizer gives back and whose distances are natural numbers that have a
text with all their digits, those below `2 ^ 53`. -/
inductive Stable : Query → Prop where
  | term {t : Term} (h : t.Stable) : Stable (.term t)
  | stem {t : Text} (h : t.Stable) : Stable (.stem t)
  | phrase {ts : List Term} (h : ∀ t ∈ ts, t.Stable) : Stable (.phrase ts)
  | near {ts : List Term} {n : Nat} (h : ∀ t ∈ ts, t.Stable) (hn : n < Number.exactBound) :
    Stable (.near ts (.whole n))
  | not {child : Query} (h : Stable child) : Stable (.not child)
  | and {children : List Query} (h : ∀ q ∈ children, Stable q) : Stable (.and children)
  | or {children : List Query} (h : ∀ q ∈ children, Stable q) : Stable (.or children)

/-- The level at which the text of a query is derived. -/
def level : Query → Level
  | .and _ => .and
  | .or _ => .or
  | _ => .not

/-- The text is read as symbols from which the grammar derives the query at the level. -/
def Spelled (level : Level) (t : Text) (q : Query) : Prop :=
  ∃ as, Lexes t as ∧ Derives level as q

theorem Spelled.weaken {tight loose : Level} {t : Text} {q : Query} (h : Spelled tight t q)
    (hle : loose.precedence ≤ tight.precedence) : Spelled loose t q := by
  obtain ⟨as, hlexes, hderives⟩ := h
  exact ⟨as, hlexes, hderives.weaken hle⟩

theorem Spelled.operand {t : Text} {q : Query} (h : Lexes t [.operand q]) : Spelled .not t q :=
  ⟨_, h, .operand q⟩

theorem Spelled.group {level : Level} {t : Text} {q : Query} (h : Spelled level t q) :
    Spelled .not (40 :: (t ++ [41])) q := by
  obtain ⟨as, hlexes, hderives⟩ := h
  exact ⟨_, hlexes.group, .group (hderives.weaken level.le_precedence)⟩

theorem Spelled.parenthesize {t : Text} {q : Query} (h : Spelled q.level t q) :
    Spelled .not (q.parenthesize t) q := by
  cases q with
  | and children | or children => exact h.group
  | term t | phrase ts | stem t | near ts distance | not child => exact h

theorem Spelled.negation {t : Text} {q : Query} (h : Spelled .not t q) :
    Spelled .not (notWord ++ 32 :: t) (.not q) := by
  obtain ⟨as, hlexes, hderives⟩ := h
  refine ⟨.not :: as, ?_, .negation hderives⟩
  exact lexes_not.append hlexes.blank fun rest => ends_cons (.inl (by decide)) _

/-! ### Chains -/

theorem join_append_cons (separator s t : Text) (ts : List Text) :
    Text.join separator (s :: t :: ts) = Text.join separator ((s ++ separator ++ t) :: ts) := by
  cases ts with
  | nil => rw [Text.join_cons_cons, Text.join, Text.join, List.intercalate_singleton,
      List.intercalate_singleton]
  | cons t' ts => simp only [Text.join_cons_cons, List.append_assoc]

section

variable {level : Level} {word : Text} {a : Symbol} {build : Query → Query → Query}
  (hword : Lexes word [a])
  (hderives : ∀ {as bs : List Symbol} {left right : Query}, Derives level as left →
    Derives .not bs right → Derives level (as ++ a :: bs) (build left right))

include hword hderives

theorem Spelled.binary {s t : Text} {left right : Query} (hl : Spelled level s left)
    (hr : Spelled .not t right) :
    Spelled level (s ++ 32 :: (word ++ [32]) ++ t) (build left right) := by
  obtain ⟨as, hs, hleft⟩ := hl
  obtain ⟨bs, ht, hright⟩ := hr
  have hrest : Lexes (word ++ 32 :: t) (a :: bs) :=
    hword.append ht.blank fun rest => ends_cons (.inl (by decide)) _
  refine ⟨as ++ a :: bs, ?_, hderives hleft hright⟩
  have happend := hs.append hrest.blank fun rest => ends_cons (.inl (by decide)) _
  simpa using happend

/-- A chain of an operator is read from the left. -/
theorem Spelled.chain {s : Text} {q : Query} (hq : Spelled level s q) {children : List Query}
    (h : ∀ child ∈ children, Spelled .not (child.parenthesize child.format) child) :
    Spelled level (Text.join (32 :: (word ++ [32])) (s :: format.formatAll children))
      (children.foldl build q) := by
  induction children generalizing s q with
  | nil =>
    rw [format.formatAll, Text.join, List.intercalate_singleton]
    exact hq
  | cons child children ih =>
    rw [List.forall_mem_cons] at h
    -- The operator associates to the left, so the next child joins what was read before it.
    rw [format.formatAll, join_append_cons]
    exact ih (hq.binary hword hderives h.1) h.2

variable {parts : Query → List Query} {wrap : List Query → Query}
  (hwrap : ∀ qs, parts (wrap qs) = qs)
  (hbuild : ∀ left right, ([left, right].flatMap parts).length ≠ 1 →
    build left right = wrap ([left, right].flatMap parts))

omit hword hderives in
include hwrap hbuild in
/-- A chain builds the flat node of all that it joins. -/
theorem foldl_flat {q : Query} (hne : parts q ≠ []) {children : List Query}
    (hchildren : children ≠ []) (flat : ∀ child ∈ children, parts child = [child]) :
    children.foldl build q = wrap (parts q ++ children) := by
  induction children generalizing q with
  | nil => exact absurd rfl hchildren
  | cons child children ih =>
    rw [List.forall_mem_cons] at flat
    have hparts : [q, child].flatMap parts = parts q ++ [child] := by simp [flat.1]
    -- Two parts at least are joined, so no part stands for the whole.
    have hstep : build q child = wrap (parts q ++ [child]) := by
      have hlength := List.length_pos_iff.2 hne
      have hseveral : (parts q ++ [child]).length ≠ 1 := by
        rw [List.length_append, List.length_singleton]
        omega
      rw [hbuild q child (hparts ▸ hseveral), hparts]
    rw [List.foldl_cons, hstep]
    cases children with
    | nil => rfl
    | cons child' children =>
      have hne' : parts (wrap (parts q ++ [child])) ≠ [] := by simp [hwrap]
      rw [ih hne' (List.cons_ne_nil _ _) flat.2, hwrap, List.append_assoc, List.singleton_append]

include hwrap hbuild in
theorem spelled_flat {children : List Query} (several : 2 ≤ children.length)
    (flat : ∀ child ∈ children, parts child = [child])
    (h : ∀ child ∈ children, Spelled .not (child.parenthesize child.format) child) :
    Spelled level (Text.join (32 :: (word ++ [32])) (format.formatAll children))
      (wrap children) := by
  obtain ⟨q, q', rest, rfl⟩ := exists_cons_cons several
  rw [List.forall_mem_cons] at h flat
  have hne : parts q ≠ [] := by
    rw [flat.1]
    exact List.cons_ne_nil _ _
  have hchain := Spelled.chain hword hderives (h.1.weaken level.precedence_le) h.2
  rw [foldl_flat hwrap hbuild hne (List.cons_ne_nil _ _) flat.2, flat.1] at hchain
  exact hchain

end

/-! ### Trees -/

/-- The text of a tree is derived from at the level of the tree. -/
theorem Normal.spelled {q : Query} (h : q.Normal) (hstable : q.Stable) :
    Spelled q.level q.format q := by
  induction h with
  | term t =>
    cases hstable with
    | term hterm => exact .operand (lexes_term hterm)
  | stem t =>
    cases hstable with
    | stem hstem => exact .operand (lexes_stem hstem)
  | phrase ts several undotted =>
    cases hstable with
    | phrase hterms => exact .operand (lexes_phrase several undotted hterms)
  | near ts distance several distinct =>
    cases hstable with
    | @near _ n hterms hn =>
      have hlexes := lexes_near hterms n several distinct hn
      refine .operand ?_
      rw [format, Number.text, if_pos hn]
      simpa [nearBody] using hlexes
  | not child _ ih =>
    cases hstable with
    | not hchild => exact (ih hchild).parenthesize.negation
  | and children several flat _ ih =>
    cases hstable with
    | and hchildren =>
      exact spelled_flat lexes_and Derives.and (fun _ => rfl) (fun _ _ => conj_eq_and) several flat
        fun q hq => (ih q hq (hchildren q hq)).parenthesize
  | or children several flat _ ih =>
    cases hstable with
    | or hchildren =>
      exact spelled_flat lexes_or (fun hl hr => .or hl (.toAnd hr)) (fun _ => rfl)
        (fun _ _ => disj_eq_or) several flat fun q hq => (ih q hq (hchildren q hq)).parenthesize

theorem parse_format_of_normal {q : Query} (h : q.Normal) (hstable : q.Stable) :
    parse q.format = .ok q := by
  obtain ⟨as, hlexes, hderives⟩ := h.spelled hstable
  exact hlexes.parse (hderives.weaken q.level.le_precedence)

/-- Printing a tree that parsing gave and parsing the text gives the tree again. So different trees
are printed differently, and parsing a printed tree and printing it once more changes nothing. -/
theorem parse_format {text : Text} {q : Query} (h : parse text = .ok q) (hstable : q.Stable) :
    parse q.format = .ok q ∧
      (∀ text' q', parse text' = .ok q' → q'.Stable → q'.format = q.format → q' = q) ∧
      ∀ q', parse q.format = .ok q' → q'.format = q.format := by
  have hparse := parse_format_of_normal (normal_of_parse h) hstable
  refine ⟨hparse, fun text' q' h' hstable' heq => ?_, fun q' h' => ?_⟩
  · have hparse' := parse_format_of_normal (normal_of_parse h') hstable'
    rw [heq, hparse] at hparse'
    exact (Except.ok.inj hparse').symm
  · rw [hparse] at h'
    rw [Except.ok.inj h']

theorem parse_format_nested :
    parse "NOT a AND (b* OR \"c d\") AND NEAR(e f, 3)" = .ok (.and [.not (.term [97]),
      .or [.stem [98], .phrase [[99], [100]]], .near [[101], [102]] (.whole 3)]) := by
  have h : parse "NOT a (b* OR \"c d\") NEAR(e, f, 3)" = .ok (.and [.not (.term [97]),
      .or [.stem [98], .phrase [[99], [100]]], .near [[101], [102]] (.whole 3)]) := by
    with_unfolding_all rfl
  have hor : Stable (.or [.stem [98], .phrase [[99], [100]]]) := by
    refine .or ?_
    rw [List.forall_mem_cons, List.forall_mem_singleton]
    exact ⟨.stem (by decide +kernel), .phrase (by decide +kernel)⟩
  have hstable : Stable (.and [.not (.term [97]), .or [.stem [98], .phrase [[99], [100]]],
      .near [[101], [102]] (.whole 3)]) := by
    refine .and ?_
    rw [List.forall_mem_cons, List.forall_mem_cons, List.forall_mem_singleton]
    exact ⟨.not (.term (by decide +kernel)), hor, .near (by decide +kernel) (by decide)⟩
  exact (parse_format h hstable).1

end Quarry.Query
