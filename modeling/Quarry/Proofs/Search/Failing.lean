import Quarry.Proofs.Dispatch
import Quarry.Proofs.Fallible
import Quarry.Proofs.Search.Asked

/-! What makes a search fail. Sources that fail or take too long are reported, and so a search fails
only by its query or because its caller gives it up, as long as each source that may hang has a
deadline and each reason that is to be told has a text. -/

namespace Quarry

/-- A failure that the caller brings about: by a query that is none, or by giving the call up. -/
def Failure.Owed (call : Call) : Failure → Prop
  | .query e => Query.parse call.query = .error e
  | .cancelled _ => call.cancellation.isGivenUp = true
  | _ => False

/-- The reason for which a call is given up. -/
def Cancellation.reason? : Cancellation → Option Reason
  | never => none
  | before r | during r => some r

/-- A search that is to tell a reason which no text can be made of: that for which it is given up,
or that with which a source from outside fails its query. -/
def Hybrid.Untold (h : Hybrid) (call : Call) : Prop :=
  (∃ r, call.cancellation.reason? = some r ∧ r.hasText = false) ∨
    ∃ s b limit r, h.providers.get s = some (.backend b) ∧
      b.reply b.calls call.query limit = .fails r ∧ r.hasText = false

/-- What a search fails with that begins in a state: what its caller brings about, or what it
cannot tell. -/
def Hybrid.Due (h : Hybrid) (call : Call) (f : Failure) : Prop :=
  f.Owed call ∨ f = .textless ∧ h.Untold call

namespace Cancellation

theorem due_ofCancellation (h : Hybrid) {call : Call} {r : Reason}
    (reason : call.cancellation.reason? = some r) (context : Option Text) :
    h.Due call (.ofCancellation context r) := by
  have hgivenUp : call.cancellation.isGivenUp = true := by
    cases hcancellation : call.cancellation with
    | never =>
      rw [hcancellation] at reason
      cases reason
    | before _ | during _ => rfl
  rw [Failure.ofCancellation]
  split
  · exact .inl hgivenUp
  · rename_i htext
    exact .inr ⟨rfl, .inl ⟨r, reason, Bool.eq_false_iff.2 htext⟩⟩

theorem due_check (h : Hybrid) {call : Call} {context : Option Text} {f : Failure}
    (failed : call.cancellation.check context = .error f) : h.Due call f := by
  cases hcancellation : call.cancellation with
  | never | during r =>
    rw [hcancellation] at failed
    cases failed
  | before r =>
    rw [hcancellation] at failed
    cases failed
    exact due_ofCancellation h (by rw [hcancellation, reason?]) context

theorem due_race (h : Hybrid) {call : Call} {context : Option Text} {f : Failure}
    (failed : call.cancellation.race context (.ok ()) = .error f) : h.Due call f := by
  cases hcancellation : call.cancellation with
  | never =>
    rw [hcancellation] at failed
    cases failed
  | before r | during r =>
    rw [hcancellation] at failed
    cases failed
    exact due_ofCancellation h (by rw [hcancellation, reason?]) context

end Cancellation

/-! ### Sources that end -/

namespace Provider

/-- A provider that always settles by itself. -/
def Settles : Provider → Prop
  | .index | .names => True
  | .backend b => ∀ before query limit,
    b.reply before query limit ≠ .hangs ∧ b.reply before query limit ≠ .waits

theorem settles_unasked {p : Provider} : p.unasked.Settles ↔ p.Settles := by
  cases p <;> rfl

/-- A call stalls only if it has no deadline and never settles by itself. -/
theorem isStalled_outcomeOf {reply : Reply} {s : Source} {r : Request} {deadline : Deadline}
    {cancellation : Cancellation}
    (stalled : Hybrid.isStalled (outcomeOf reply s r deadline cancellation) = true) :
    deadline = .unlimited ∧ (reply = .hangs ∨ reply = .waits) := by
  have hdeadline : ∀ givenUp, Hybrid.isStalled (.atDeadline s deadline givenUp) = true →
      deadline = .unlimited := by
    intro givenUp h
    cases deadline with
    | unlimited => rfl
    | unset | after n => cases givenUp <;> cases h
  cases reply with
  | answers ids => cases stalled
  | fails reason =>
    rw [outcomeOf, Outcome.ofFailure] at stalled
    repeat' split at stalled
    all_goals cases stalled
  | hangs => exact ⟨hdeadline _ stalled, .inl rfl⟩
  | waits =>
    rw [outcomeOf] at stalled
    split at stalled
    · cases stalled
    · exact ⟨hdeadline _ stalled, .inr rfl⟩

/-- A call that settles, or has a deadline, ends. -/
theorem isStalled_run {p : Provider} {deadline : Deadline}
    (ends : p.Settles ∨ deadline ≠ .unlimited) (c : Catalog) (s : Source) (r : Request)
    (cancellation : Cancellation) :
    Hybrid.isStalled (p.run c s r deadline cancellation).1 = false := by
  cases p with
  | index | names =>
    rw [run]
    cases cancellation.check none <;> rfl
  | backend b =>
    refine Bool.eq_false_iff.2 fun stalled => ?_
    obtain ⟨rfl, hreply⟩ := isStalled_outcomeOf stalled
    have settles := (ends.resolve_right (not_not_intro rfl)) b.calls r.query r.candidates
    have hunlimited : b.replyBy .unlimited r.query r.candidates =
        b.reply b.calls r.query r.candidates := Backend.replyBy_of_isOver_eq_false rfl
    rw [hunlimited] at hreply
    exact hreply.elim settles.1 settles.2

/-- A call cannot be told of only if its provider fails with a reason that has no text. -/
theorem isUntold_outcomeOf {reply : Reply} {s : Source} {r : Request} {deadline : Deadline}
    {cancellation : Cancellation}
    (untold : Hybrid.isUntold (outcomeOf reply s r deadline cancellation) = true) :
    ∃ reason, reply = .fails reason ∧ reason.hasText = false := by
  cases reply with
  | answers ids => cases untold
  | fails reason =>
    refine ⟨reason, rfl, ?_⟩
    rw [outcomeOf, Outcome.ofFailure] at untold
    cases reason with
    | value v =>
      rw [Failure.asError?] at untold
      cases htext : v.hasText with
      | false => exact htext
      | true =>
        rw [htext] at untold
        split at untold <;> cases untold
    | fault f => split at untold <;> cases untold
  | hangs =>
    rw [outcomeOf, Hybrid.isUntold_atDeadline] at untold
    cases untold
  | waits =>
    rw [outcomeOf] at untold
    split at untold
    · cases untold
    · rw [Hybrid.isUntold_atDeadline] at untold
      cases untold

theorem untold_run {p : Provider} {c : Catalog} {s : Source} {r : Request} {deadline : Deadline}
    {cancellation : Cancellation}
    (untold : Hybrid.isUntold (p.run c s r deadline cancellation).1 = true) :
    ∃ b reason, p = .backend b ∧ b.reply b.calls r.query r.candidates = .fails reason ∧
      reason.hasText = false := by
  cases p with
  | index | names =>
    rw [run] at untold
    cases hcheck : cancellation.check none <;> rw [hcheck] at untold <;> cases untold
  | backend b =>
    obtain ⟨reason, hreply, htext⟩ := isUntold_outcomeOf untold
    rcases b.replyBy_eq_or deadline r.query r.candidates with hlate | hsame
    · rw [hlate] at hreply
      cases hreply
    · exact ⟨b, reason, rfl, hsame ▸ hreply, htext⟩

end Provider

namespace Hybrid

/-- Each source that may hang has a deadline. -/
def Timed (h : Hybrid) (settings : Settings) : Prop :=
  ∀ s p, h.behaviour.get s = some p → p.Settles ∨ settings.deadlines.get s ≠ .unlimited

theorem Timed.isStalled_runSource {h : Hybrid} {r : Request} (timed : h.Timed r.settings)
    (c : Catalog) (cancellation : Cancellation) (s : Source) :
    isStalled (h.runSource c r cancellation s).1 = false := by
  rw [runSource_fst]
  cases hget : h.providers.get s with
  | none => rfl
  | some p =>
    have hbehaviour : h.behaviour.get s = some p.unasked := by
      rw [get_behaviour, hget, Option.map_some]
    exact Provider.isStalled_run
      ((timed s _ hbehaviour).imp_left Provider.settles_unasked.1) c s r _

theorem untold_runSource {h : Hybrid} {c : Catalog} {r : Request} {call : Call}
    (query : r.query = call.query) {s : Source}
    (untold : isUntold (h.runSource c r call.cancellation s).1 = true) : h.Untold call := by
  rw [runSource_fst] at untold
  cases hget : h.providers.get s with
  | none =>
    rw [hget] at untold
    cases untold
  | some p =>
    rw [hget] at untold
    obtain ⟨b, reason, rfl, hreply, htext⟩ := Provider.untold_run untold
    exact .inr ⟨s, b, r.candidates, reason, hget, query ▸ hreply, htext⟩

/-- Outcomes that all come, and can be told unless the search has a reason that cannot. -/
structure Ended (h : Hybrid) (call : Call) (outcomes : List Outcome) : Prop where
  settles : ∀ outcome ∈ outcomes, isStalled outcome = false
  told : ∀ outcome ∈ outcomes, isUntold outcome = true → h.Untold call

theorem Ended.due {h : Hybrid} {call : Call} {outcomes : List Outcome}
    (ended : h.Ended call outcomes) {f : Failure} (failed : failureOf? outcomes = some f) :
    h.Due call f := by
  have hsettles : outcomes.any isStalled = false :=
    List.any_eq_false.2 fun outcome hmem => Bool.eq_false_iff.1 (ended.settles outcome hmem)
  rw [failureOf?, hsettles] at failed
  cases huntold : outcomes.any isUntold with
  | false =>
    rw [huntold] at failed
    cases failed
  | true =>
    rw [huntold] at failed
    cases failed
    obtain ⟨outcome, hmem, houtcome⟩ := List.any_eq_true.1 huntold
    exact .inr ⟨rfl, ended.told outcome hmem houtcome⟩

theorem Timed.ended_runSource {h : Hybrid} {r : Request} (timed : h.Timed r.settings) (c : Catalog)
    {call : Call} (query : r.query = call.query) (s : Source) :
    h.Ended call [(h.runSource c r call.cancellation s).1] :=
  ⟨List.forall_mem_singleton.2 (timed.isStalled_runSource c call.cancellation s),
    List.forall_mem_singleton.2 (untold_runSource query)⟩

theorem Timed.ended_runAll {h : Hybrid} {r : Request} (timed : h.Timed r.settings) (c : Catalog)
    {call : Call} (query : r.query = call.query) {sources : List Source} (nodup : sources.Nodup) :
    h.Ended call ((h.runAll c r call.cancellation sources).1.map (·.2)) := by
  rw [runAll_fst c r call.cancellation nodup, List.map_map]
  refine ⟨List.forall_mem_map.2 fun s _ => ?_, List.forall_mem_map.2 fun s _ => ?_⟩
  · exact timed.isStalled_runSource c call.cancellation s
  · exact untold_runSource query

/-! ### Hybrid searches -/

/-- A search that began in a state for a call, and waits for sources which all end. -/
structure Pending.Ends (h : Hybrid) (call : Call) (p : Pending) : Prop where
  cancellation : p.cancellation = call.cancellation
  outcomes : h.Ended call (p.outcomes.map (·.2))

structure PendingSource.Ends (h : Hybrid) (call : Call) (p : PendingSource) : Prop where
  cancellation : p.cancellation = call.cancellation
  outcome : h.Ended call [p.outcome]

/-- A search that fails at once does so duly, and one that goes on waits for what ends. -/
structure Opens {π α : Type} (h : Hybrid) (call : Call) (ends : π → Prop)
    (started : Started π α) : Prop where
  decided : ∀ f, started = .decided (.error f) → h.Due call f
  pending : ∀ p, started = .pending p → ends p

section

variable {π α : Type} {h : Hybrid} {call : Call} {ends : π → Prop}

theorem opens_ok (a : α) : Opens h call ends (.decided (.ok a)) := ⟨nofun, nofun⟩

theorem opens_error {f : Failure} (due : h.Due call f) :
    Opens (α := α) h call ends (.decided (.error f)) := by
  refine ⟨fun f' hf => ?_, nofun⟩
  cases hf
  exact due

theorem opens_pending {p : π} (hp : ends p) : Opens (α := α) h call ends (.pending p) := by
  refine ⟨nofun, fun p' hp' => ?_⟩
  cases hp'
  exact hp

end

theorem due_readCall (h : Hybrid) {call : Call} {f : Failure} (failed : readCall call = .error f) :
    h.Due call f := by
  rw [readCall] at failed
  cases hparse : Query.parse call.query with
  | error e =>
    rw [hparse] at failed
    cases failed
    exact .inl hparse
  | ok q =>
    rw [hparse] at failed
    exact Cancellation.due_check h (map_eq_error_iff.1 failed)

theorem Timed.opens_start {h : Hybrid} {settings : Settings} (timed : h.Timed settings)
    (c : Catalog) (now : Float) {call : Call} (accepted : call.filter.Accepted h.globs) :
    Opens h call (Pending.Ends h call) (h.start c settings now call).1.1 := by
  rw [start]
  cases hread : readCall call with
  | error f => exact opens_error (due_readCall h hread)
  | ok parsed =>
    simp only
    generalize h.cache.get _ _ now = looked
    obtain ⟨found, cache⟩ := looked
    cases found with
    | some response => exact opens_ok _
    | none =>
      have hended : ∀ r : Request, r.settings = settings → r.query = call.query →
          h.Ended call ((({ h with cache } : Hybrid).runAll c r call.cancellation
            (h.active settings)).1.map (·.2)) := by
        rintro r rfl query
        have hall :=
          Timed.ended_runAll (h := { h with cache }) timed c query (h.nodup_active r.settings)
        exact ⟨hall.settles, hall.told⟩
      simp only [accepted.check_normalize]
      exact opens_pending ⟨rfl, hended _ rfl rfl⟩

theorem Pending.Ends.due_finish {h h' : Hybrid} {ix : Index} {now : Float} {p : Pending}
    {call : Call} (ends : p.Ends h call) {f : Failure}
    (failed : (h'.finish ix now p).1.1 = .error f) : h.Due call f := by
  rw [finish, ends.cancellation] at failed
  cases hrace : call.cancellation.race Call.context (.ok ()) with
  | error f' =>
    rw [hrace] at failed
    cases failed
    exact Cancellation.due_race h hrace
  | ok _ =>
    rw [hrace] at failed
    cases hfailure : failureOf? (p.outcomes.map (·.2)) with
    | some f' =>
      simp only [hfailure] at failed
      cases failed
      exact ends.outcomes.due hfailure
    | none =>
      simp only [hfailure] at failed
      cases failed

/-! ### Searches of a single source -/

theorem Timed.opens_startSource {h : Hybrid} {settings : Settings} (timed : h.Timed settings)
    (c : Catalog) {s : Source} (available : h.isAvailable s = true) {call : Call}
    (accepted : call.filter.Accepted h.globs) :
    Opens h call (PendingSource.Ends h call) (h.startSource c settings s call).1 := by
  rw [startSource]
  cases hparse : Query.parse call.query with
  | error e => exact opens_error (.inl hparse)
  | ok parsed =>
    simp only [available, Bool.not_true, Bool.false_eq_true, if_false]
    cases hcheck : call.cancellation.check Call.context with
    | error f => exact opens_error (Cancellation.due_check h hcheck)
    | ok _ =>
      simp only [accepted.check_normalize]
      exact opens_pending ⟨rfl, Timed.ended_runSource timed c rfl s⟩

theorem PendingSource.Ends.due_finishSource {h h' : Hybrid} {ix : Index} {p : PendingSource}
    {call : Call} (ends : p.Ends h call) {f : Failure}
    (failed : (h'.finishSource ix p).1.1 = .error f) : h.Due call f := by
  rw [finishSource, ends.cancellation] at failed
  cases hrace : call.cancellation.race Call.context (.ok ()) with
  | error f' =>
    rw [hrace] at failed
    cases failed
    exact Cancellation.due_race h hrace
  | ok _ =>
    rw [hrace] at failed
    cases hfailure : failureOf? [p.outcome] with
    | some f' =>
      simp only [hfailure] at failed
      cases failed
      exact ends.outcome.due hfailure
    | none =>
      simp only [hfailure] at failed
      cases failed

end Hybrid

/-! ### Modes -/

namespace Dispatch

open Hybrid

def Waiting.Ends (h : Hybrid) (call : Call) : Waiting → Prop
  | .source _ _ p => PendingSource.Ends h call p
  | .hybrid _ p => Pending.Ends h call p

theorem opens_startHybrid {h : Hybrid} {settings : Settings} (timed : h.Timed settings)
    (c : Catalog) (now : Float) (mode : Mode) {call : Call}
    (accepted : call.filter.Accepted h.globs) :
    Opens h call (Waiting.Ends h call) (startHybrid h c settings now mode call).1.1 := by
  obtain ⟨hdecided, hpending⟩ := timed.opens_start c now accepted
  rw [startHybrid]
  generalize h.start c settings now call = started at hdecided hpending ⊢
  obtain ⟨⟨started, notes⟩, h'⟩ := started
  cases started with
  | decided answer =>
    cases answer with
    | error f => exact opens_error (hdecided f rfl)
    | ok r => exact opens_ok _
  | pending p => exact opens_pending (hpending p rfl)

/-- A source that has no provider is stood in for by the ranker over the index, which has one. -/
theorem opens_startSource {h : Hybrid} {settings : Settings} (timed : h.Timed settings)
    (available : h.isAvailable .bm25 = true) (c : Catalog) (mode : Mode) (wanted : Source)
    {call : Call} (accepted : call.filter.Accepted h.globs) :
    Opens h call (Waiting.Ends h call) (startSource h c settings mode wanted call).1.1 := by
  have htarget : h.isAvailable (if h.isAvailable wanted then wanted else .bm25) = true := by
    split
    · assumption
    · exact available
  obtain ⟨hdecided, hpending⟩ := timed.opens_startSource c htarget accepted
  rw [startSource]
  simp only
  generalize h.startSource c settings _ call = started at hdecided hpending ⊢
  obtain ⟨started, h'⟩ := started
  cases started with
  | decided answer =>
    cases answer with
    | error f => exact opens_error (hdecided f rfl)
    | ok r => exact opens_ok _
  | pending p => exact opens_pending (hpending p rfl)

theorem opens_start {h : Hybrid} {settings : Settings} (timed : h.Timed settings)
    (available : h.isAvailable .bm25 = true) (c : Catalog) (now : Float) (mode : Mode) {call : Call}
    (accepted : call.filter.Accepted h.globs) :
    Opens h call (Waiting.Ends h call) (start h c settings now mode call).1.1 := by
  rcases start_cases h c settings now mode call with ⟨hsymbols, -⟩ | hhybrid | ⟨wanted, hsource⟩
  · obtain ⟨symbols, hfound⟩ := exactSymbols_eq_ok c accepted
    rw [hsymbols, hfound]
    exact opens_ok _
  · rw [hhybrid]
    exact opens_startHybrid timed c now mode accepted
  · rw [hsource]
    exact opens_startSource timed available c mode wanted accepted

theorem Waiting.Ends.due_finish {h h' : Hybrid} {ix : Index} {now : Float} {waiting : Waiting}
    {call : Call} (ends : waiting.Ends h call) {f : Failure}
    (failed : (finish h' ix now waiting).1.1 = .error f) :
    h.Due call f := by
  cases waiting with
  | source mode narrowed p =>
    exact PendingSource.Ends.due_finishSource ends (map_eq_error_iff.1 failed)
  | hybrid mode p => exact Pending.Ends.due_finish ends (map_eq_error_iff.1 failed)

end Dispatch
end Quarry
