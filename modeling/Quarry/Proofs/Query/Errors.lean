import Quarry.Proofs.Query.Lexemes
import Quarry.Proofs.Query.Pass

/-! What is said of a text that is no query. The flaw is one of the text, never one of the stacks:
whenever an operator is applied its operands are there, and a single one is left in the end. Its
position is that of a lexeme or of an open parenthesis, or an end of the text. -/

namespace Quarry.Query

/-- A flaw that would lie with the stacks: by its message, an operator finds no operand or an
operand is left. -/
def Flaw.Internal (flaw : Flaw) : Prop :=
  (∃ op : Operator, flaw.message = Text.concat [op.name, " is missing an operand"]) ∨
    flaw.message = "Malformed query"

@[simp] theorem Flaw.internal_iff {flaw : Flaw} :
    flaw.Internal ↔ (∃ op, flaw = .missingOperand op) ∨ flaw = .leftoverOperands := by
  constructor
  · intro h
    cases flaw with
    | missingOperand op => exact .inl ⟨op, rfl⟩
    | leftoverOperands => exact .inr rfl
    | nearDistance found =>
      -- The head of the message tells it apart, whatever was found.
      have hhead : ∀ m, (nearDistance found).message = m → m.take 11 = "Malformed N" := by
        rintro m rfl
        rfl
      rcases h with ⟨op, h⟩ | h
      · cases op <;> exact absurd (hhead _ h) (by decide)
      · exact absurd (hhead _ h) (by decide)
    | noLeftOperand left =>
      rcases h with ⟨op, h⟩ | h
      · cases left <;> cases op <;> exact absurd h (by decide)
      · cases left <;> exact absurd h (by decide)
    | _ =>
      rcases h with ⟨op, h⟩ | h
      · cases op <;> exact absurd h (by decide)
      · exact absurd h (by decide)
  · rintro (⟨op, rfl⟩ | rfl)
    · exact .inl ⟨op, rfl⟩
    · exact .inr rfl

/-- A flaw of the text, at a position up to a bound. -/
structure Reported (bound : Nat) (e : Flaw × Nat) : Prop where
  flaw : ¬ e.1.Internal
  position : e.2 ≤ bound

/-! ### Lexemes and operands -/

theorem Lexeme.not_internal_of_ofNearBody {body : Text} {flaw : Flaw}
    (h : ofNearBody body = .error flaw) :
    ¬ flaw.Internal := by
  rw [ofNearBody] at h
  split at h
  · cases h
    simp
  · split at h
    · cases h
      simp
    · simp only at h
      split_ifs at h <;> cases h <;> simp

theorem Lexeme.not_internal_of_first {u : UInt16} {t : Text} {flaw : Flaw}
    (h : first (u :: t) = .error flaw) :
    ¬ flaw.Internal := by
  rcases cases_head u t with rfl | rfl | rfl | ⟨near, hnear⟩ | hbare
  · rw [first] at h
    split at h
    · cases h
      simp
    · cases h
  · cases h
  · cases h
  · rw [hnear, first_near_opening] at h
    cases hclose : Text.offsetOf? 41 near with
    | none =>
      rw [hclose] at h
      cases h
      simp
    | some close =>
      rw [hclose, Option.elim_some] at h
      cases hbody : ofNearBody (near.take close) with
      | error flaw' =>
        rw [hbody] at h
        cases h
        exact not_internal_of_ofNearBody hbody
      | ok kind =>
        rw [hbody] at h
        cases h
  · rw [hbare.first_eq] at h
    cases hlength : wordLength? 0 (u :: t) with
    | none =>
      rw [hlength] at h
      cases h
      simp
    | some n =>
      rw [hlength] at h
      cases h

theorem Lexeme.reported_of_scan {offset : Nat} {t : Text} {e : Flaw × Nat}
    (h : scan offset t = .error e) :
    Reported (offset + t.length) e := by
  fun_induction scan offset t with
  | case1 offset => cases h
  | case2 offset u t hu ih =>
    obtain ⟨hflaw, hposition⟩ := ih h
    exact ⟨hflaw, by rw [List.length_cons]; omega⟩
  | case3 offset u t hu flaw hfirst =>
    cases h
    exact ⟨not_internal_of_first hfirst, Nat.le_add_right _ _⟩
  | case4 offset u t hu kind n hfirst ih =>
    rcases bind_eq_error_iff.1 h with hmore | ⟨more, -, hnever⟩
    · obtain ⟨s, rest, hsplit, rfl, -⟩ := first_covers (by simpa using hu) hfirst
      obtain ⟨hflaw, hposition⟩ := ih hmore
      have hlength := congrArg List.length hsplit
      rw [List.length_cons, List.length_append] at hlength
      rw [List.length_drop] at hposition
      exact ⟨hflaw, by rw [List.length_cons]; omega⟩
    · cases hnever

theorem not_internal_of_wordOperand {word : Text} {flaw : Flaw}
    (h : wordOperand word = .error flaw) :
    ¬ flaw.Internal := by
  rw [wordOperand] at h
  split at h
  · simp only at h
    split at h <;> cases h
    simp
  · split at h <;> cases h

theorem not_internal_of_operand {kind : Lexeme.Kind} {flaw : Flaw}
    (h : operand kind = .error flaw) :
    ¬ flaw.Internal := by
  cases kind with
  | word text => exact not_internal_of_wordOperand h
  | phrase text =>
    rw [operand] at h
    split at h <;> cases h
    simp
  | near words distance =>
    rw [operand] at h
    split at h <;> cases h
    simp
  | opening | closing | and | or | not => cases h

/-! ### Stacks -/

/-- A group ends with an error only if no parenthesis is open. -/
theorem Held.eq_of_applyGroup_error {position : Nat} {pending : List Pending} {level : Level}
    {cs : List Symbol} {output : List Query} {e : Flaw × Nat} (h : Held level cs pending output)
    (happly : Query.applyGroup position pending output = .error e) :
    e = (.unbalancedParenthesis, position) := by
  induction pending generalizing level output with
  | nil =>
    cases happly
    rfl
  | cons p pending ih =>
    cases p with
    | opening opened => cases happly
    | operator top place =>
      obtain ⟨output', happly', hheld⟩ := h.applyPending
      rw [Query.applyGroup, happly'] at happly
      · exact ih hheld happly
      · intro opened heq
        cases heq

/-- The text ends with an error only at a parenthesis that is still open. -/
theorem Held.exists_of_applyAll_error {pending : List Pending} {level : Level} {cs : List Symbol}
    {output : List Query} {e : Flaw × Nat} (h : Held level cs pending output)
    (happly : Query.applyAll pending output = .error e) :
    ∃ position, .opening position ∈ pending ∧ e = (.unbalancedParenthesis, position) := by
  induction pending generalizing level output with
  | nil => cases happly
  | cons p pending ih =>
    cases p with
    | opening position =>
      cases happly
      exact ⟨position, List.mem_cons_self, rfl⟩
    | operator top place =>
      obtain ⟨output', happly', hheld⟩ := h.applyPending
      rw [Query.applyAll, happly'] at happly
      obtain ⟨position, hmem, he⟩ := ih hheld happly
      exact ⟨position, List.mem_cons_of_mem _ hmem, he⟩

theorem applyTighter_suffix {op : Operator} {pending pending' : List Pending}
    {output output' : List Query} (h : applyTighter op pending output = .ok (pending', output')) :
    pending' <:+ pending := by
  induction pending generalizing output with
  | nil =>
    cases h
    exact List.suffix_rfl
  | cons p pending ih =>
    cases p with
    | opening position =>
      cases h
      exact List.suffix_rfl
    | operator top position =>
      rw [applyTighter] at h
      split at h
      · cases h
        exact List.suffix_rfl
      · obtain ⟨output'', -, hrest⟩ := bind_eq_ok_iff.1 h
        exact (ih hrest).trans (List.suffix_cons _ _)

theorem applyGroup_suffix {position : Nat} {pending pending' : List Pending}
    {output output' : List Query}
    (h : applyGroup position pending output = .ok (pending', output')) : pending' <:+ pending := by
  induction pending generalizing output with
  | nil => cases h
  | cons p pending ih =>
    cases p with
    | opening opened =>
      cases h
      exact List.suffix_cons _ _
    | operator top place =>
      rw [applyGroup] at h
      · obtain ⟨output'', -, hrest⟩ := bind_eq_ok_iff.1 h
        exact (ih hrest).trans (List.suffix_cons _ _)
      · intro opened heq
        cases heq

/-! ### Positions -/

namespace ParseState

/-- The parentheses that a state has open stand at positions up to a bound. -/
structure Within (bound : Nat) (s : ParseState) : Prop where
  pending : ∀ position, .opening position ∈ s.pending → position ≤ bound
  justOpened : ∀ position, s.justOpened = some position → position ≤ bound

variable {bound : Nat} {s s' : ParseState} {x : Lexeme} {xs : List Lexeme} {cs : List Symbol}
    {e : Flaw × Nat}

namespace Within

theorem of_pending (h : ∀ position, .opening position ∈ s.pending → position ≤ bound)
    (hnone : s.justOpened = none) :
    s.Within bound :=
  ⟨h, fun position heq => absurd (hnone.symm.trans heq) (Option.some_ne_none position).symm⟩

theorem initial :
    ParseState.initial.Within bound := of_pending (fun _ h => absurd h List.not_mem_nil) rfl

theorem pushBinary (h : s.Within bound) {op : Operator} {position : Nat}
    (hpush : s.pushBinary op position = .ok s') :
    s'.Within bound := by
  obtain ⟨⟨pending, output⟩, happly, heq⟩ := bind_eq_ok_iff.1 hpush
  cases heq
  refine ⟨fun position hmem => ?_, h.justOpened⟩
  rcases List.mem_cons.1 hmem with heq | hmem
  · cases heq
  · exact h.pending position ((applyTighter_suffix happly).subset hmem)

theorem juxtapose (h : s.Within bound) {position : Nat}
    (hjuxtapose : s.juxtapose position = .ok s') :
    s'.Within bound := by
  rw [ParseState.juxtapose] at hjuxtapose
  split at hjuxtapose
  · cases hjuxtapose
    exact h
  · exact h.pushBinary hjuxtapose

theorem takeBinary (h : s.Within bound) {op : Operator} (hstep : s.takeBinary op x = .ok s') :
    s'.Within bound := by
  rw [ParseState.takeBinary] at hstep
  split at hstep
  · cases hstep
  · obtain ⟨s'', hpush, heq⟩ := bind_eq_ok_iff.1 hstep
    cases heq
    exact .of_pending (h.pushBinary hpush).pending rfl

theorem takeOperand (h : s.Within bound) (hstep : s.takeOperand x = .ok s') : s'.Within bound := by
  rw [ParseState.takeOperand] at hstep
  split at hstep
  · cases hstep
  · cases hstep
    exact .of_pending h.pending rfl
  · obtain ⟨s'', hjuxtapose, heq⟩ := bind_eq_ok_iff.1 hstep
    cases heq
    exact .of_pending (h.juxtapose hjuxtapose).pending rfl

theorem step (h : s.Within bound) (hx : x.start ≤ bound) (hstep : s.step x = .ok s') :
    s'.Within bound := by
  obtain ⟨kind, start, stop⟩ := x
  cases kind with
  | word text => exact h.takeOperand hstep
  | phrase text => exact h.takeOperand hstep
  | near words distance => exact h.takeOperand hstep
  | opening =>
    obtain ⟨s'', hjuxtapose, heq⟩ := bind_eq_ok_iff.1 hstep
    cases heq
    refine ⟨fun position hmem => ?_, fun position heq => ?_⟩
    · rcases List.mem_cons.1 hmem with heq | hmem
      · cases heq
        exact hx
      · exact (h.juxtapose hjuxtapose).pending position hmem
    · cases heq
      exact hx
  | closing =>
    simp only [ParseState.step] at hstep
    split at hstep
    · cases hstep
    · obtain ⟨⟨pending, output⟩, hgroup, heq⟩ := bind_eq_ok_iff.1 hstep
      cases heq
      exact .of_pending (fun position hmem =>
        h.pending position ((applyGroup_suffix hgroup).subset hmem)) rfl
  | and => exact h.takeBinary hstep
  | or => exact h.takeBinary hstep
  | not =>
    obtain ⟨s'', hjuxtapose, heq⟩ := bind_eq_ok_iff.1 hstep
    cases heq
    refine .of_pending (fun position hmem => ?_) rfl
    rcases List.mem_cons.1 hmem with heq | hmem
    · cases heq
    · exact (h.juxtapose hjuxtapose).pending position hmem

theorem steps (h : s.Within bound) (hxs : ∀ x ∈ xs, x.start ≤ bound)
    (hsteps : s.steps xs = .ok s') :
    s'.Within bound := by
  induction xs generalizing s with
  | nil =>
    cases hsteps
    exact h
  | cons x xs ih =>
    obtain ⟨hx, hxs⟩ := List.forall_mem_cons.1 hxs
    obtain ⟨s'', hstep, hrest⟩ := bind_eq_ok_iff.1 hsteps
    exact ih (h.step hx hstep) hxs hrest

end Within

/-! ### Errors -/

theorem Inv.takeBinary_error (h : s.Inv cs) {op : Operator} (hop : op ≠ .not)
    (hstep : s.takeBinary op x = .error e) :
    Reported x.start e := by
  rw [ParseState.takeBinary] at hstep
  split at hstep
  · cases hstep
    exact ⟨by simp, Nat.le_refl _⟩
  · rename_i hexpect
    rw [Inv, if_neg hexpect] at h
    obtain ⟨s'', hpush, -⟩ := h.pushBinary op hop x.start
    rw [hpush] at hstep
    cases hstep

theorem Inv.takeOperand_error (h : s.Inv cs) (hstep : s.takeOperand x = .error e) :
    Reported x.start e := by
  rw [ParseState.takeOperand] at hstep
  split at hstep
  · rename_i hoperand
    cases hstep
    exact ⟨not_internal_of_operand hoperand, Nat.le_refl _⟩
  · cases hstep
  · obtain ⟨s'', hjuxtapose, -⟩ := h.juxtapose x.start
    rw [hjuxtapose] at hstep
    cases hstep

/-- A step that fails reports a flaw of the text at its lexeme. -/
theorem Inv.step_error (h : s.Inv cs) (hstep : s.step x = .error e) : Reported x.start e := by
  obtain ⟨kind, start, stop⟩ := x
  cases kind with
  | word text => exact h.takeOperand_error hstep
  | phrase text => exact h.takeOperand_error hstep
  | near words distance => exact h.takeOperand_error hstep
  | opening | not =>
    obtain ⟨s'', hjuxtapose, -⟩ := h.juxtapose start
    simp only [ParseState.step, hjuxtapose] at hstep
    cases hstep
  | closing =>
    simp only [ParseState.step] at hstep
    split at hstep
    · cases hstep
      refine ⟨?_, Nat.le_refl _⟩
      split <;> simp
    · rename_i hexpect
      rw [Inv, if_neg hexpect] at h
      rcases bind_eq_error_iff.1 hstep with hgroup | ⟨result, -, hnever⟩
      · obtain rfl := h.eq_of_applyGroup_error hgroup
        exact ⟨by simp, Nat.le_refl _⟩
      · cases hnever
  | and => exact h.takeBinary_error (by decide) hstep
  | or => exact h.takeBinary_error (by decide) hstep

theorem Inv.steps_error (h : s.Inv cs) (hxs : ∀ x ∈ xs, x.start ≤ bound)
    (hsteps : s.steps xs = .error e) :
    Reported bound e := by
  induction xs generalizing cs s with
  | nil => cases hsteps
  | cons x xs ih =>
    obtain ⟨hx, hxs⟩ := List.forall_mem_cons.1 hxs
    rcases bind_eq_error_iff.1 hsteps with hstep | ⟨s'', hstep, hrest⟩
    · obtain ⟨hflaw, hposition⟩ := h.step_error hstep
      exact ⟨hflaw, hposition.trans hx⟩
    · obtain ⟨as, -, hinv⟩ := h.step hstep
      exact ih hinv hxs hrest

theorem Inv.finish_error (h : s.Inv cs) (hwithin : s.Within bound)
    (hfinish : s.finish bound = .error e) :
    Reported bound e := by
  rw [ParseState.finish] at hfinish
  split at hfinish
  · cases hfinish
    exact ⟨by simp, Nat.zero_le _⟩
  · split at hfinish
    · split at hfinish
      · rename_i position hopened
        cases hfinish
        exact ⟨by simp, hwithin.justOpened position hopened⟩
      · cases hfinish
        exact ⟨by simp, Nat.le_refl _⟩
    · rename_i hexpect
      rw [Inv, if_neg hexpect] at h
      rcases bind_eq_error_iff.1 hfinish with hall | ⟨output, hall, hleft⟩
      · obtain ⟨position, hmem, rfl⟩ := h.exists_of_applyAll_error hall
        exact ⟨by simp, hwithin.pending position hmem⟩
      · -- A single operand is left, so none is left over.
        obtain ⟨q, rfl, -⟩ := h.applyAll hall
        cases hleft

end ParseState

/-- A text that is no query is told what is wrong with it, at an offset in it or at its end. No
operator is ever said to miss an operand on the stack, and no operand to be left on it. -/
theorem parse_error_reported {query : Text} {e : SyntaxError} (h : parse query = .error e) :
    e.query = query ∧ ¬ e.flaw.Internal ∧ e.position ≤ query.length := by
  obtain ⟨⟨flaw, position⟩, hfails, rfl⟩ := mapError_eq_error_iff.1 h
  suffices hreported : Reported query.length
      (flaw, position) from ⟨rfl, hreported.flaw, hreported.position⟩
  rcases bind_eq_error_iff.1 hfails with hscan | ⟨xs, hlex, hrest⟩
  · have hreported := Lexeme.reported_of_scan hscan
    rwa [Nat.zero_add] at hreported
  · have hstarts : ∀ x ∈ xs, x.start ≤ query.length := fun x hx => by
      obtain ⟨-, hlt, hle⟩ := (Lexeme.tiles_scan hlex).bounds x hx
      omega
    have hinv : ParseState.initial.Inv [] := .start
    rcases bind_eq_error_iff.1 hrest with hsteps | ⟨s, hsteps, hfinish⟩
    · exact hinv.steps_error hstarts hsteps
    · obtain ⟨as, -, hinv⟩ := hinv.steps hsteps
      exact hinv.finish_error (ParseState.Within.initial.steps hstarts hsteps) hfinish

/-- Operators in front of an open group that is never closed. -/
theorem parse_error_reported_open : let query : Text := "a OR NOT (b AND NOT c d"
    parse query = .error ⟨.unbalancedParenthesis, 9, query⟩ ∧
      ¬ Flaw.Internal .unbalancedParenthesis ∧ 9 ≤ query.length := by
  intro query
  have hparse : (parse query).map (fun _ => ()) = .error ⟨.unbalancedParenthesis, 9, query⟩ := by
    decide +kernel
  rw [map_eq_error_iff] at hparse
  exact ⟨hparse, (parse_error_reported hparse).2⟩

end Quarry.Query
