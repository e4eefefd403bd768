import Quarry.Proofs.Query.Grammar

/-! The pass over the lexemes builds what the grammar derives, and nothing else. `Open` says which
symbols the two stacks stand for while an operand has to come, `Held` the same once one has come:
the operand on top is derived at a level, and what is pending below it binds less tightly. -/

namespace Quarry.Query

/-- The symbol that writes an operator; juxtaposition is written by none. -/
def Operator.symbols : Operator → List Symbol
  | not => [.not]
  | and => [.and]
  | or => [.or]
  | implicit => []

/-- What is on top of the pending operators binds less tightly than `bound`. -/
def Below (bound : Nat) : List Pending → Prop
  | .operator op _ :: _ => op.precedence < bound
  | _ => True

/-- What the stacks stand for while an operand has to come. The left operand of a pending operator
is complete at the level of the operator. -/
inductive Open : List Symbol → List Pending → List Query → Prop where
  | start : Open [] [] []
  | opening {as : List Symbol} {pending : List Pending} {output : List Query}
    (h : Open as pending output) (position : Nat) :
    Open (as ++ [.opening]) (.opening position :: pending) output
  | not {as : List Symbol} {pending : List Pending} {output : List Query}
    (h : Open as pending output) (position : Nat) :
    Open (as ++ [.not]) (.operator .not position :: pending) output
  | binary {as bs : List Symbol} {pending : List Pending} {output : List Query} {op : Operator}
    {left : Query} (h : Open as pending output) (hop : op ≠ .not)
    (hbelow : Below op.precedence pending) (hleft : Derives op.level bs left) (position : Nat) :
    Open (as ++ bs ++ op.symbols) (.operator op position :: pending) (left :: output)

/-- What the stacks stand for once an operand has come that is complete at a level. -/
def Held (level : Level) (cs : List Symbol) (pending : List Pending) (output : List Query) : Prop :=
  ∃ as bs q rest, cs = as ++ bs ∧ output = q :: rest ∧ Open as pending rest ∧ Derives level bs q ∧
    (level = .not ∨ Below level.precedence pending)

theorem Derives.binary {op : Operator} (hop : op ≠ .not) {as bs : List Symbol} {left right : Query}
    {level : Level} (hl : Derives op.level as left) (hr : Derives level bs right)
    (hlevel : op.precedence < level.precedence) : Derives op.level (as ++ op.symbols ++ bs)
      (if op = .or then disj [left, right] else conj [left, right]) := by
  rw [List.append_assoc]
  cases op with
  | not => exact absurd rfl hop
  | and => exact .and hl (hr.weaken hlevel)
  | or => exact .or hl (hr.weaken hlevel)
  | implicit => exact .juxtaposition hl (hr.weaken hlevel)

theorem applyPending_binary {op : Operator} (hop : op ≠ .not) (position : Nat) (left right : Query)
    (rest : List Query) : applyPending (.operator op position) (right :: left :: rest) =
      .ok ((if op = .or then disj [left, right] else conj [left, right]) :: rest) := by
  cases op with
  | not => exact absurd rfl hop
  | and | or | implicit => rfl

/-- Applying the operator on top makes an operand at the level of the operator. -/
theorem Held.applyPending {level : Level} {cs : List Symbol} {op : Operator} {position : Nat}
    {pending : List Pending} {output : List Query}
    (h : Held level cs (.operator op position :: pending) output) :
    ∃ output', Query.applyPending (.operator op position) output = .ok output' ∧
      Held op.level cs pending output' := by
  obtain ⟨as, bs, q, rest, rfl, rfl, hopen, hderives, hlevel⟩ := h
  cases hopen with
  | @not as _ _ hopen =>
    have hnot : level = .not := by
      cases level with
      | not => rfl
      | query | or | and => simp [Below, Level.precedence, Operator.precedence] at hlevel
    subst hnot
    refine ⟨.not q :: rest, rfl, as, .not :: bs, .not q, rest, ?_, rfl, hopen, .negation hderives,
      .inl rfl⟩
    rw [List.append_assoc, List.singleton_append]
  | @binary as as' _ rest _ left hopen hop hbelow hleft =>
    have hlt : op.precedence < level.precedence := by
      rcases hlevel with rfl | hlt
      · cases op with
        | not => exact absurd rfl hop
        | and | or | implicit => decide
      · exact hlt
    refine ⟨_, applyPending_binary hop position left q rest, as, _, _, rest, ?_, rfl, hopen,
      hleft.binary hop hderives hlt, .inr ?_⟩
    · simp only [List.append_assoc]
    · rwa [op.precedence_level]

theorem Held.weaken {tight loose : Level} {cs : List Symbol} {pending : List Pending}
    {output : List Query} (h : Held tight cs pending output)
    (hle : loose.precedence ≤ tight.precedence) (hbelow : Below loose.precedence pending) :
    Held loose cs pending output := by
  obtain ⟨as, bs, q, rest, hcs, houtput, hopen, hderives, -⟩ := h
  exact ⟨as, bs, q, rest, hcs, houtput, hopen, hderives.weaken hle, .inr hbelow⟩

theorem Held.applyTighter {pending : List Pending} {level : Level} {cs : List Symbol}
    {output : List Query} (h : Held level cs pending output) (op : Operator)
    (hle : op.precedence ≤ level.precedence) :
    ∃ pending' output', Query.applyTighter op pending output = .ok (pending', output') ∧
      Held op.level cs pending' output' ∧ Below op.precedence pending' := by
  rw [← op.precedence_level] at hle
  induction pending generalizing level output with
  | nil => exact ⟨[], output, rfl, h.weaken hle trivial, trivial⟩
  | cons p pending ih =>
    cases p with
    | opening position => exact ⟨_, output, rfl, h.weaken hle trivial, trivial⟩
    | operator top position =>
      by_cases hlt : top.precedence < op.precedence
      · refine ⟨_, output, by rw [Query.applyTighter, if_pos hlt], h.weaken hle ?_, hlt⟩
        rwa [op.precedence_level]
      · obtain ⟨output', happly, hheld⟩ := h.applyPending
        rw [Query.applyTighter, if_neg hlt, happly]
        refine ih hheld ?_
        rw [op.precedence_level, top.precedence_level]
        exact Nat.le_of_not_lt hlt

theorem Held.applyGroup {position : Nat} {pending pending' : List Pending} {level : Level}
    {cs : List Symbol} {output output' : List Query} (h : Held level cs pending output)
    (happly : Query.applyGroup position pending output = .ok (pending', output')) :
    Held .not (cs ++ [.closing]) pending' output' := by
  induction pending generalizing level output with
  | nil => cases happly
  | cons p pending ih =>
    cases p with
    | opening position =>
      cases happly
      obtain ⟨as, bs, q, rest, rfl, rfl, hopen, hderives, -⟩ := h
      cases hopen with
      | @opening as _ _ hopen =>
        have hquery : Derives .query bs q := hderives.weaken level.le_precedence
        refine ⟨as, _, q, rest, ?_, rfl, hopen, .group hquery, .inl rfl⟩
        simp
    | operator top position =>
      obtain ⟨output'', happly', hheld⟩ := h.applyPending
      rw [Query.applyGroup, happly'] at happly
      · exact ih hheld happly
      · intro position heq
        cases heq

theorem Held.applyAll {pending : List Pending} {level : Level} {cs : List Symbol}
    {output output' : List Query} (h : Held level cs pending output)
    (happly : Query.applyAll pending output = .ok output') :
    ∃ q, output' = [q] ∧ Derives .query cs q := by
  induction pending generalizing level output with
  | nil =>
    cases happly
    obtain ⟨as, bs, q, rest, rfl, rfl, hopen, hderives, -⟩ := h
    cases hopen with
    | start => exact ⟨q, rfl, hderives.weaken level.le_precedence⟩
  | cons p pending ih =>
    cases p with
    | opening position => cases happly
    | operator top position =>
      obtain ⟨output'', happly', hheld⟩ := h.applyPending
      rw [Query.applyAll, happly'] at happly
      exact ih hheld happly

/-! ### Steps -/

/-- What a state stands for. -/
def ParseState.Inv (cs : List Symbol) (s : ParseState) : Prop :=
  if s.expectOperand then Open cs s.pending s.output else Held .not cs s.pending s.output

theorem Held.pushBinary {cs : List Symbol} {s : ParseState} (h : Held .not cs s.pending s.output)
    (op : Operator) (hop : op ≠ .not) (position : Nat) : ∃ s', s.pushBinary op position = .ok s' ∧
      Open (cs ++ op.symbols) s'.pending s'.output := by
  obtain ⟨pending, output, happly, hheld, hbelow⟩ := h.applyTighter op (by cases op <;> decide)
  obtain ⟨as, bs, q, rest, rfl, rfl, hopen, hderives, -⟩ := hheld
  refine ⟨_, by rw [ParseState.pushBinary, happly]; rfl, ?_⟩
  exact .binary hopen hop hbelow hderives position

theorem ParseState.Inv.juxtapose {cs : List Symbol} {s : ParseState} (h : s.Inv cs)
    (position : Nat) :
    ∃ s', s.juxtapose position = .ok s' ∧ Open cs s'.pending s'.output := by
  rw [Inv] at h
  rw [ParseState.juxtapose]
  split at h
  · rename_i hexpect
    exact ⟨s, if_pos hexpect, h⟩
  · rename_i hexpect
    obtain ⟨s', hpush, hopen⟩ := h.pushBinary .implicit (by decide) position
    rw [if_neg hexpect]
    rw [Operator.symbols, List.append_nil] at hopen
    exact ⟨s', hpush, hopen⟩

/-- A binary operator is taken up behind an operand only. -/
theorem ParseState.Inv.takeBinary {cs : List Symbol} {s s' : ParseState} {x : Lexeme} (h : s.Inv cs)
    (op : Operator) (hop : op ≠ .not) (hstep : s.takeBinary op x = .ok s') :
    s'.Inv (cs ++ op.symbols) := by
  rw [ParseState.takeBinary] at hstep
  split at hstep
  · cases hstep
  · rename_i hexpect
    rw [Inv, if_neg hexpect] at h
    obtain ⟨s'', hpush, hopen⟩ := h.pushBinary op hop x.start
    rw [hpush] at hstep
    cases hstep
    exact hopen

theorem ParseState.Inv.takeOperand {cs : List Symbol} {s s' : ParseState} {x : Lexeme}
    (h : s.Inv cs) (hsymbol : x.kind.symbol = (operand x.kind).map (·.map .operand))
    (hstep : s.takeOperand x = .ok s') : ∃ as, Spells [x] as ∧ s'.Inv (cs ++ as) := by
  rw [ParseState.takeOperand] at hstep
  split at hstep
  · cases hstep
  · rename_i hoperand
    cases hstep
    refine ⟨[], .drop (by rw [hsymbol, hoperand]; rfl) .nil, ?_⟩
    rw [List.append_nil]
    exact h
  · rename_i q hoperand
    obtain ⟨s'', hjuxtapose, hopen⟩ := h.juxtapose x.start
    rw [hjuxtapose] at hstep
    cases hstep
    exact ⟨[.operand q], .take (by rw [hsymbol, hoperand]; rfl) .nil, cs, [.operand q],
      q, s''.output, rfl, rfl, hopen, .operand q, .inl rfl⟩

theorem ParseState.Inv.step {cs : List Symbol} {s s' : ParseState} {x : Lexeme} (h : s.Inv cs)
    (hstep : s.step x = .ok s') : ∃ as, Spells [x] as ∧ s'.Inv (cs ++ as) := by
  have hone : ∀ {a : Symbol}, x.kind.symbol = .ok (some a) → Spells [x] [a] :=
    fun hx => .take hx .nil
  obtain ⟨kind, start, stop⟩ := x
  cases kind with
  | word text => exact h.takeOperand rfl hstep
  | phrase text => exact h.takeOperand rfl hstep
  | near words distance => exact h.takeOperand rfl hstep
  | opening =>
    obtain ⟨s'', hjuxtapose, hopen⟩ := h.juxtapose start
    simp only [ParseState.step, hjuxtapose] at hstep
    cases hstep
    exact ⟨[.opening], hone rfl, hopen.opening start⟩
  | closing =>
    simp only [ParseState.step] at hstep
    split at hstep
    · cases hstep
    · rename_i hexpect
      rw [Inv, if_neg hexpect] at h
      cases hgroup : applyGroup start s.pending s.output with
      | error e => simp [hgroup] at hstep
      | ok result =>
        simp only [hgroup] at hstep
        cases hstep
        exact ⟨[.closing], hone rfl, h.applyGroup hgroup⟩
  | and => exact ⟨[.and], hone rfl, h.takeBinary .and (by decide) hstep⟩
  | or => exact ⟨[.or], hone rfl, h.takeBinary .or (by decide) hstep⟩
  | not =>
    obtain ⟨s'', hjuxtapose, hopen⟩ := h.juxtapose start
    simp only [ParseState.step, hjuxtapose] at hstep
    cases hstep
    exact ⟨[.not], hone rfl, hopen.not start⟩

theorem ParseState.Inv.steps {cs : List Symbol} {s s' : ParseState} {xs : List Lexeme}
    (h : s.Inv cs) (hsteps : s.steps xs = .ok s') : ∃ as, Spells xs as ∧ s'.Inv (cs ++ as) := by
  induction xs generalizing cs s with
  | nil =>
    cases hsteps
    exact ⟨[], .nil, by rwa [List.append_nil]⟩
  | cons x xs ih =>
    rw [ParseState.steps] at hsteps
    cases hx : s.step x with
    | error e =>
      rw [hx] at hsteps
      cases hsteps
    | ok s'' =>
      rw [hx] at hsteps
      obtain ⟨as, has, hinv⟩ := h.step hx
      obtain ⟨bs, hbs, hinv'⟩ := ih hinv hsteps
      exact ⟨as ++ bs, has.append hbs, by rwa [← List.append_assoc]⟩

theorem ParseState.Inv.finish {cs : List Symbol} {s : ParseState} {length : Nat} {q : Query}
    (h : s.Inv cs) (hfinish : s.finish length = .ok q) : Derives .query cs q := by
  rw [ParseState.finish] at hfinish
  split at hfinish
  · cases hfinish
  · split at hfinish
    · split at hfinish <;> cases hfinish
    · rename_i hexpect
      rw [Inv, if_neg hexpect] at h
      cases hall : applyAll s.pending s.output with
      | error e =>
        rw [hall] at hfinish
        cases hfinish
      | ok output =>
        obtain ⟨q', rfl, hderives⟩ := h.applyAll hall
        rw [hall] at hfinish
        cases hfinish
        exact hderives

end Quarry.Query
