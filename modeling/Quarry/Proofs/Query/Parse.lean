import Quarry.Proofs.Fallible
import Quarry.Proofs.Query.Pass

/-! What the grammar derives is parsed to the tree of its derivation. A derivation at a level is
read on top of any stacks whose pending operators bind less tightly: it leaves these as they are,
and on top of them operators that give its tree when they are applied. -/

namespace Quarry.Query

/-- The state stands behind a query that was read at a level on top of the given stacks. -/
def Settles (level : Level) (pending : List Pending) (output : List Query) (q : Query)
    (s : ParseState) : Prop :=
  s.expectOperand = false ∧ ∃ above, s.pending = above ++ pending ∧
    (∀ p ∈ above, ∃ op position, p = .operator op position ∧ level.precedence ≤ op.precedence) ∧
    applyAll above s.output = .ok (q :: output)

theorem applyAll_append {above : List Pending} {output output' : List Query}
    (h : applyAll above output = .ok output') (pending : List Pending) :
    applyAll (above ++ pending) output = applyAll pending output' := by
  induction above generalizing output with
  | nil =>
    cases h
    rfl
  | cons p above ih =>
    rw [applyAll] at h
    rw [List.cons_append, applyAll]
    cases happly : applyPending p output with
    | error e =>
      rw [happly] at h
      cases h
    | ok output'' =>
      rw [happly] at h
      exact ih h

theorem applyTighter_append {op : Operator} {above pending : List Pending}
    {output output' : List Query}
    (habove : ∀ p ∈ above, ∃ top position, p = .operator top position ∧
      op.precedence ≤ top.precedence)
    (hbelow : Below op.precedence pending) (h : applyAll above output = .ok output') :
    applyTighter op (above ++ pending) output = .ok (pending, output') := by
  induction above generalizing output with
  | nil =>
    cases h
    cases pending with
    | nil => rfl
    | cons p pending =>
      cases p with
      | opening position => rfl
      | operator top position =>
        rw [List.nil_append, applyTighter]
        exact if_pos hbelow
  | cons p above ih =>
    rw [List.forall_mem_cons] at habove
    obtain ⟨⟨top, position, rfl, hle⟩, habove⟩ := habove
    rw [applyAll] at h
    rw [List.cons_append, applyTighter, if_neg (Nat.not_lt.2 hle)]
    cases happly : applyPending (.operator top position) output with
    | error e =>
      rw [happly] at h
      cases h
    | ok output'' =>
      rw [happly] at h
      exact ih habove h

theorem applyGroup_append {above pending : List Pending} {output output' : List Query}
    (habove : ∀ p ∈ above, ∃ top position, p = .operator top position) (position opened : Nat)
    (h : applyAll above output = .ok output') :
    applyGroup position (above ++ .opening opened :: pending) output = .ok (pending, output') := by
  induction above generalizing output with
  | nil =>
    cases h
    rfl
  | cons p above ih =>
    rw [List.forall_mem_cons] at habove
    obtain ⟨⟨top, place, rfl⟩, habove⟩ := habove
    rw [applyAll] at h
    rw [List.cons_append, applyGroup]
    · cases happly : applyPending (.operator top place) output with
      | error e =>
        rw [happly] at h
        cases h
      | ok output'' =>
        rw [happly] at h
        exact ih habove h
    · intro position heq
      cases heq

theorem Settles.weaken {tight loose : Level} {pending : List Pending} {output : List Query}
    {q : Query} {s : ParseState} (h : Settles tight pending output q s)
    (hle : loose.precedence ≤ tight.precedence) :
    Settles loose pending output q s := by
  obtain ⟨hexpect, above, hpending, habove, happly⟩ := h
  refine ⟨hexpect, above, hpending, fun p hp => ?_, happly⟩
  obtain ⟨op, position, rfl, htight⟩ := habove p hp
  exact ⟨op, position, rfl, Nat.le_trans hle htight⟩

/-- An operator below what was read is applied last. -/
theorem Settles.apply {level : Level} {op : Operator} {position : Nat} {pending : List Pending}
    {output output' : List Query} {q q' : Query} {s : ParseState}
    (h : Settles level (.operator op position :: pending) output q s)
    (hle : op.precedence ≤ level.precedence)
    (happly : applyPending (.operator op position) (q :: output) = .ok (q' :: output')) :
    Settles op.level pending output' q' s := by
  obtain ⟨hexpect, above, hpending, habove, hall⟩ := h
  refine ⟨hexpect, above ++ [.operator op position], ?_, ?_, ?_⟩
  · rw [hpending, List.append_assoc, List.singleton_append]
  · rw [List.forall_mem_append, List.forall_mem_singleton, op.precedence_level]
    refine ⟨fun p hp => ?_, op, position, rfl, Nat.le_refl _⟩
    obtain ⟨top, place, rfl, htight⟩ := habove p hp
    exact ⟨top, place, rfl, Nat.le_trans hle htight⟩
  · rw [applyAll_append hall, applyAll, happly]
    rfl

theorem Settles.pushBinary {op : Operator} {pending : List Pending} {output : List Query}
    {q : Query} {s : ParseState} (h : Settles op.level pending output q s)
    (hbelow : Below op.precedence pending) (position : Nat) : s.pushBinary op position =
      .ok { s with pending := .operator op position :: pending, output := q :: output } := by
  obtain ⟨-, above, hpending, habove, hall⟩ := h
  rw [op.precedence_level] at habove
  rw [ParseState.pushBinary, hpending, applyTighter_append habove hbelow hall]
  rfl

/-! ### Steps -/

namespace ParseState

theorem steps_append (s : ParseState) (xs ys : List Lexeme) :
    s.steps (xs ++ ys) = (do (← s.steps xs).steps ys) := by
  induction xs generalizing s with
  | nil => rfl
  | cons x xs ih =>
    rw [List.cons_append, steps, steps]
    cases hx : s.step x with
    | error e => rfl
    | ok s' => exact ih s'

/-- A lexeme whose symbol is an operand, or that is dropped, is taken up as one. -/
theorem operand_of_symbol {x : Lexeme} {found : Option Query}
    (h : x.kind.symbol = .ok (found.map .operand)) :
    operand x.kind = .ok found ∧ ∀ s : ParseState, s.step x = s.takeOperand x := by
  have hmap : ∀ {result : Except Flaw (Option Query)},
      result.map (·.map Symbol.operand) = .ok (found.map .operand) → result = .ok found := by
    intro result hresult
    cases result with
    | error flaw => cases hresult
    | ok q => cases q <;> cases found <;> cases hresult <;> rfl
  obtain ⟨kind, start, stop⟩ := x
  cases kind with
  | opening | closing | and | or | not => cases found <;> cases h
  | word text | phrase text | near words distance => exact ⟨hmap h, fun s => rfl⟩

theorem steps_of_spells_nil {xs : List Lexeme} (h : Spells xs []) (s : ParseState) :
    ∃ opened, s.steps xs = .ok { s with justOpened := opened } := by
  generalize hnil : ([] : List Symbol) = as at h
  induction h generalizing s with
  | nil => exact ⟨s.justOpened, rfl⟩
  | @drop x xs as hx _ ih =>
    have hdrop : x.kind.symbol = .ok ((none : Option Query).map .operand) := hx
    obtain ⟨hoperand, hstep⟩ := operand_of_symbol hdrop
    obtain ⟨opened, hsteps⟩ := ih { s with justOpened := none } hnil
    refine ⟨opened, ?_⟩
    rw [steps, hstep, takeOperand, hoperand]
    exact hsteps
  | take => cases hnil

section

variable (output : List Query) (pending : List Pending) (opened : Option Nat)

theorem step_of_symbol_operand {x : Lexeme} {q : Query}
    (h : x.kind.symbol = .ok (some (.operand q))) :
    step ⟨output, pending, true, opened⟩ x = .ok ⟨q :: output, pending, false, none⟩ := by
  have hfound : x.kind.symbol = .ok ((some q).map .operand) := h
  obtain ⟨hoperand, hstep⟩ := operand_of_symbol hfound
  rw [hstep, takeOperand, hoperand]
  rfl

/-- Symbols other than operands are written by one kind of lexeme only. -/
theorem kind_eq_of_symbol {kind kind' : Lexeme.Kind} {a : Symbol} (h : kind.symbol = .ok (some a))
    (h' : kind'.symbol = .ok (some a)) (ha : ∀ q, a ≠ .operand q) : kind = kind' := by
  have hoperand : ∀ {result : Except Flaw (Option Query)},
      result.map (·.map Symbol.operand) = .ok (some a) → False := by
    intro result hresult
    cases result with
    | error flaw => cases hresult
    | ok q =>
      cases q with
      | none => cases hresult
      | some q =>
        cases hresult
        exact ha q rfl
  cases kind with
  | word text | phrase text | near words distance => exact (hoperand h).elim
  | opening | closing | and | or | not =>
    cases h
    cases kind' with
    | word text | phrase text | near words distance => exact (hoperand h').elim
    | opening | closing | and | or | not => cases h' <;> rfl

theorem step_of_symbol_opening {x : Lexeme} (h : x.kind.symbol = .ok (some .opening)) :
    step ⟨output, pending, true, opened⟩ x =
      .ok ⟨output, .opening x.start :: pending, true, some x.start⟩ := by
  have hkind : x.kind = .opening := kind_eq_of_symbol h rfl (by simp)
  simp only [step, hkind]
  rfl

theorem step_of_symbol_not {x : Lexeme} (h : x.kind.symbol = .ok (some .not)) :
    step ⟨output, pending, true, opened⟩ x =
      .ok ⟨output, .operator .not x.start :: pending, true, none⟩ := by
  have hkind : x.kind = .not := kind_eq_of_symbol h rfl (by simp)
  simp only [step, hkind]
  rfl

end

theorem step_of_symbol_closing {x : Lexeme} (h : x.kind.symbol = .ok (some .closing))
    {s : ParseState} {level : Level} {opened : Nat} {pending : List Pending} {output : List Query}
    {q : Query} (hs : Settles level (.opening opened :: pending) output q s) :
    s.step x = .ok ⟨q :: output, pending, false, none⟩ := by
  have hkind : x.kind = .closing := kind_eq_of_symbol h rfl (by simp)
  obtain ⟨hexpect, above, hpending, habove, hall⟩ := hs
  have hoperators : ∀ p ∈ above, ∃ op position, p = .operator op position := by
    intro p hp
    obtain ⟨op, position, hop, -⟩ := habove p hp
    exact ⟨op, position, hop⟩
  have hgroup : applyGroup x.start s.pending s.output = .ok (pending, q :: output) := by
    rw [hpending]
    exact applyGroup_append hoperators x.start opened hall
  simp only [step, hkind, hexpect, hgroup]
  rfl

theorem step_of_symbols {x : Lexeme} {op : Operator} {a : Symbol} (hop : op.symbols = [a])
    (hnot : op ≠ .not) (h : x.kind.symbol = .ok (some a)) {s : ParseState} {pending : List Pending}
    {output : List Query} {q : Query} (hs : Settles op.level pending output q s)
    (hbelow : Below op.precedence pending) :
    s.step x = .ok ⟨q :: output, .operator op x.start :: pending, true, none⟩ := by
  have hbinary : s.takeBinary op x =
      .ok ⟨q :: output, .operator op x.start :: pending, true, none⟩ := by
    rw [takeBinary, hs.1, hs.pushBinary hbelow]
    rfl
  cases op with
  | not => exact absurd rfl hnot
  | implicit => cases hop
  | and =>
    cases hop
    have hkind : x.kind = .and := kind_eq_of_symbol h rfl (by simp)
    simp only [step, hkind, hbinary]
  | or =>
    cases hop
    have hkind : x.kind = .or := kind_eq_of_symbol h rfl (by simp)
    simp only [step, hkind, hbinary]

end ParseState

/-- The symbols that a query begins with. -/
def Symbol.Starts : Symbol → Prop
  | .operand _ | .opening | .not => True
  | _ => False

theorem Derives.uncons {level : Level} {as : List Symbol} {q : Query} (h : Derives level as q) :
    ∃ a bs, as = a :: bs ∧ a.Starts := by
  induction h with
  | operand q => exact ⟨_, _, rfl, trivial⟩
  | negation _ _ => exact ⟨_, _, rfl, trivial⟩
  | group _ _ => exact ⟨_, _, rfl, trivial⟩
  | toAnd _ ih | toOr _ ih | toQuery _ ih => exact ih
  | and _ _ ih _ | or _ _ ih _ | juxtaposition _ _ ih _ =>
    obtain ⟨a, bs, rfl, ha⟩ := ih
    exact ⟨a, _, rfl, ha⟩

/-- A symbol that begins a query behind an operand is taken up as if juxtaposition were written. -/
theorem ParseState.step_of_starts {x : Lexeme} {a : Symbol} (ha : a.Starts)
    (h : x.kind.symbol = .ok (some a)) {s : ParseState} {pending : List Pending}
    {output : List Query} {q : Query} (hs : Settles .query pending output q s)
    (hbelow : Below 1 pending) :
    s.step x =
      (⟨q :: output, .operator .implicit x.start :: pending, true, none⟩ : ParseState).step x := by
  have himplicit : Settles Operator.implicit.level pending output q s := hs
  have hpush : s.juxtapose x.start = .ok
      { s with pending := .operator .implicit x.start :: pending, output := q :: output } := by
    rw [juxtapose, if_neg (by rw [hs.1]; decide)]
    exact himplicit.pushBinary hbelow x.start
  cases a with
  | closing | and | or => exact ha.elim
  | operand q' =>
    have hfound : x.kind.symbol = .ok ((some q').map .operand) := h
    obtain ⟨hoperand, hstep⟩ := operand_of_symbol hfound
    rw [step_of_symbol_operand _ _ _ h, hstep, takeOperand, hoperand]
    simp only [hpush]
    rfl
  | opening =>
    rw [step_of_symbol_opening _ _ _ h]
    have hkind : x.kind = .opening := kind_eq_of_symbol h rfl (by simp)
    simp only [step, hkind, hpush]
    rfl
  | not =>
    rw [step_of_symbol_not _ _ _ h]
    have hkind : x.kind = .not := kind_eq_of_symbol h rfl (by simp)
    simp only [step, hkind, hpush]
    rfl

theorem Below.mono {bound bound' : Nat} {pending : List Pending} (h : Below bound pending)
    (hle : bound ≤ bound') : Below bound' pending := by
  cases pending with
  | nil => trivial
  | cons p pending =>
    cases p with
    | opening position => trivial
    | operator op position => exact Nat.lt_of_lt_of_le h hle

theorem ParseState.steps_uncons {dropped : List Lexeme} (h : Spells dropped []) {x : Lexeme}
    {s : ParseState} {result : Except (Flaw × Nat) ParseState}
    (hstep : ∀ opened, ({ s with justOpened := opened } : ParseState).step x = result)
    (rest : List Lexeme) : s.steps (dropped ++ x :: rest) = (do (← result).steps rest) := by
  obtain ⟨opened, hsteps⟩ := steps_of_spells_nil h s
  rw [steps_append, hsteps, ← hstep opened]
  rfl

/-! ### Readings -/

/-- Lexemes that spell the symbols are read to the query at the level. -/
def Reads (level : Level) (as : List Symbol) (q : Query) : Prop :=
  ∀ {xs : List Lexeme}, Spells xs as → ∀ {s : ParseState}, s.expectOperand = true →
    (level = .not ∨ Below level.precedence s.pending) →
    ∃ s', s.steps xs = .ok s' ∧ Settles level s.pending s.output q s'

theorem Reads.weaken {tight loose : Level} {as : List Symbol} {q : Query} (h : Reads tight as q)
    (hle : loose.precedence ≤ tight.precedence) : Reads loose as q := by
  intro xs hxs s hexpect hbelow
  have htight : tight = .not ∨ Below tight.precedence s.pending := by
    rcases hbelow with rfl | hbelow
    · cases tight with
      | not => exact .inl rfl
      | query | or | and => exact absurd hle (by decide)
    · exact .inr (hbelow.mono hle)
  obtain ⟨s', hsteps, hsettles⟩ := h hxs hexpect htight
  exact ⟨s', hsteps, hsettles.weaken hle⟩

theorem reads_operand (q : Query) : Reads .not [.operand q] q := by
  intro xs hxs ⟨output, pending, expect, opened⟩ hexpect _
  cases hexpect
  obtain ⟨dropped, x, rest, rfl, hdropped, hx, hrest⟩ := hxs.uncons
  rw [ParseState.steps_uncons hdropped fun opened =>
    ParseState.step_of_symbol_operand output pending opened hx]
  obtain ⟨opened, hrest⟩ := ParseState.steps_of_spells_nil hrest
    ⟨q :: output, pending, false, none⟩
  exact ⟨_, hrest, rfl, [], rfl, by simp, rfl⟩

theorem Reads.negation {as : List Symbol} {q : Query} (h : Reads .not as q) :
    Reads .not (.not :: as) (.not q) := by
  intro xs hxs ⟨output, pending, expect, opened⟩ hexpect _
  cases hexpect
  obtain ⟨dropped, x, rest, rfl, hdropped, hx, hrest⟩ := hxs.uncons
  rw [ParseState.steps_uncons hdropped fun opened =>
    ParseState.step_of_symbol_not output pending opened hx]
  obtain ⟨s', hrest, hsettles⟩ := h hrest
    (s := ⟨output, .operator .not x.start :: pending, true, none⟩) rfl (.inl rfl)
  exact ⟨s', hrest, hsettles.apply (by decide) rfl⟩

theorem Reads.group {as : List Symbol} {q : Query} (h : Reads .query as q) :
    Reads .not (.opening :: (as ++ [.closing])) q := by
  intro xs hxs ⟨output, pending, expect, opened⟩ hexpect _
  cases hexpect
  obtain ⟨dropped, x, rest, rfl, hdropped, hx, hrest⟩ := hxs.uncons
  obtain ⟨inner, last, rfl, hinner, hlast⟩ := hrest.split
  obtain ⟨dropped', y, rest, rfl, hdropped', hy, hrest⟩ := hlast.uncons
  obtain ⟨s', hread, hsettles⟩ := h hinner
    (s := ⟨output, .opening x.start :: pending, true, some x.start⟩) rfl (.inr trivial)
  have hclose := ParseState.steps_uncons hdropped' (s := s')
    (fun opened => ParseState.step_of_symbol_closing hy hsettles) rest
  obtain ⟨opened, hrest⟩ := ParseState.steps_of_spells_nil hrest
    ⟨q :: output, pending, false, none⟩
  rw [ParseState.steps_uncons hdropped fun opened =>
    ParseState.step_of_symbol_opening output pending opened hx]
  refine ⟨⟨q :: output, pending, false, opened⟩, ?_, rfl, [], rfl, by simp, rfl⟩
  have happend := ParseState.steps_append
    ⟨output, .opening x.start :: pending, true, some x.start⟩ inner (dropped' ++ y :: rest)
  rw [hread] at happend
  exact happend.trans (hclose.trans hrest)

theorem Reads.binary (op : Operator) {a : Symbol} (hop : op.symbols = [a]) (hnot : op ≠ .not)
    {level : Level} (hlevel : op.precedence < level.precedence) {as bs : List Symbol}
    {left right : Query} (hl : Reads op.level as left) (hr : Reads level bs right) :
    Reads op.level (as ++ a :: bs)
      (if op = .or then disj [left, right] else conj [left, right]) := by
  intro xs hxs s hexpect hbelow
  have hbelow' : Below op.precedence s.pending := by
    rw [← op.precedence_level]
    refine hbelow.resolve_left fun heq => ?_
    cases op with
    | not => exact hnot rfl
    | and | or | implicit => cases heq
  obtain ⟨ys, zs, rfl, hys, hzs⟩ := hxs.split
  obtain ⟨dropped, x, rest, rfl, hdropped, hx, hrest⟩ := hzs.uncons
  obtain ⟨s', hread, hsettles⟩ := hl hys hexpect hbelow
  have hoperator := ParseState.steps_uncons hdropped (s := s')
    (fun opened => ParseState.step_of_symbols hop hnot hx hsettles hbelow') rest
  obtain ⟨s'', hread', hsettles'⟩ := hr hrest
    (s := ⟨left :: s.output, .operator op x.start :: s.pending, true, none⟩) rfl (.inr hlevel)
  refine ⟨s'', ?_, hsettles'.apply (Nat.le_of_lt hlevel)
    (applyPending_binary hnot x.start left right s.output)⟩
  rw [ParseState.steps_append, hread]
  exact hoperator.trans hread'

theorem Reads.juxtaposition {as bs : List Symbol} {left right : Query} (hl : Reads .query as left)
    (hr : Reads .or bs right) {a : Symbol} {bs' : List Symbol} (hbs : bs = a :: bs')
    (ha : a.Starts) :
    Reads .query (as ++ bs) (conj [left, right]) := by
  intro xs hxs s hexpect hbelow
  have hbelow' : Below 1 s.pending := hbelow.resolve_left nofun
  subst hbs
  obtain ⟨ys, zs, rfl, hys, hzs⟩ := hxs.split
  obtain ⟨dropped, x, rest, rfl, hdropped, hx, hrest⟩ := hzs.uncons
  obtain ⟨s', hread, hsettles⟩ := hl hys hexpect hbelow
  have hstart := ParseState.steps_uncons hdropped (s := s')
    (fun opened => ParseState.step_of_starts ha hx hsettles hbelow') rest
  obtain ⟨s'', hread', hsettles'⟩ := hr (.take hx hrest)
    (s := ⟨left :: s.output, .operator .implicit x.start :: s.pending, true, none⟩) rfl
    (.inr (by decide : 1 < 2))
  refine ⟨s'', ?_, hsettles'.apply (by decide) rfl⟩
  rw [ParseState.steps_append, hread]
  exact hstart.trans hread'

/-- What the grammar derives is read to the tree of the derivation. -/
theorem Derives.reads {level : Level} {as : List Symbol} {q : Query} (h : Derives level as q) :
    Reads level as q := by
  induction h with
  | operand q => exact reads_operand q
  | negation _ ih => exact ih.negation
  | group _ ih => exact ih.group
  | toAnd _ ih | toOr _ ih | toQuery _ ih => exact ih.weaken (by decide)
  | and _ _ ihl ihr => exact Reads.binary .and rfl (by decide) (by decide) ihl ihr
  | or _ _ ihl ihr => exact Reads.binary .or rfl (by decide) (by decide) ihl ihr
  | juxtaposition _ hr ihl ihr =>
    obtain ⟨a, bs', hbs, ha⟩ := hr.uncons
    exact ihl.juxtaposition ihr hbs ha

theorem finish_of_settles {q : Query} {s : ParseState} (h : Settles .query [] [] q s)
    (length : Nat) :
    s.finish length = .ok q := by
  obtain ⟨hexpect, above, hpending, -, hall⟩ := h
  rw [List.append_nil] at hpending
  have hempty : (s.output.isEmpty && s.pending.isEmpty) = false := by
    cases hnil : s.output.isEmpty with
    | false => rfl
    | true =>
      cases above with
      | nil =>
        rw [List.isEmpty_iff.1 hnil] at hall
        cases hall
      | cons p above => rw [hpending]; rfl
  rw [← hpending] at hall
  simp only [ParseState.finish, hempty, hexpect, hall]
  rfl

theorem parse_eq_ok_iff_steps {text : Text} {q : Query} : parse text = .ok q ↔
    ∃ xs, lexemes text = .ok xs ∧
      ∃ s, ParseState.initial.steps xs = .ok s ∧ s.finish text.length = .ok q := by
  rw [parse, mapError_eq_ok_iff, bind_eq_ok_iff]
  simp only [bind_eq_ok_iff]

theorem exists_derives_of_parse {text : Text} {q : Query} (h : parse text = .ok q) :
    ∃ xs as, lexemes text = .ok xs ∧ Spells xs as ∧ Derives .query as q := by
  obtain ⟨xs, hxs, s, hsteps, hfinish⟩ := parse_eq_ok_iff_steps.1 h
  have hinitial : ParseState.initial.Inv [] := Open.start
  obtain ⟨as, has, hinv⟩ := hinitial.steps hsteps
  exact ⟨xs, as, hxs, has, hinv.finish hfinish⟩

theorem parse_of_derives {text : Text} {xs : List Lexeme} {as : List Symbol} {q : Query}
    (hxs : lexemes text = .ok xs) (has : Spells xs as) (h : Derives .query as q) :
    parse text = .ok q := by
  obtain ⟨s, hsteps, hsettles⟩ := h.reads has (s := ParseState.initial) rfl (.inr trivial)
  exact parse_eq_ok_iff_steps.2 ⟨xs, hxs, s, hsteps, finish_of_settles hsettles text.length⟩

/-- A query text is parsed exactly if its lexemes spell what the grammar derives, and to the tree of
the derivation. -/
theorem parse_eq_ok_iff {text : Text} {q : Query} : parse text = .ok q ↔
    ∃ xs as, lexemes text = .ok xs ∧ Spells xs as ∧ Derives .query as q := by
  constructor
  · exact exists_derives_of_parse
  · rintro ⟨xs, as, hxs, has, h⟩
    exact parse_of_derives hxs has h

end Quarry.Query
