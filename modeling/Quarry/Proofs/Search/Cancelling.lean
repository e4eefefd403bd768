import Quarry.Proofs.Search.Sole

/-! Searches that are given up, before they begin or at any time while they wait. A search that has
asked its sources waits until all have settled or its caller gives up; whichever comes first, it
looks once more whether it was given up before it goes on. Sources may fail or hang, and other calls
may change the state meanwhile. A search that is given up fails, by the reason for it if that has a
text, and leaves behind at most a lookup in the cache that found nothing. -/

namespace Quarry

/-- The failure of a search that is given up. -/
def Failure.givenUp (r : Reason) : Failure :=
  .cancelled (Text.concat ["Search cancelled", ": ", r.report])

theorem Failure.ofCancellation_context (r : Reason) :
    Failure.ofCancellation Call.context r = if r.hasText then .givenUp r else .textless :=
  rfl

namespace Hybrid

/-! ### Searches that wait -/

/-- What can happen while a search waits. -/
inductive Event where
  | settles (s : Source)
  | givesUp (r : Reason)
  /-- The search goes on, if its sources have settled. -/
  | resumes (now : Float)
  /-- Other calls change the state. -/
  | others (change : Hybrid → Hybrid)

/-- What other calls make of the state in an event. -/
def Event.change : Event → Hybrid → Hybrid
  | others change => change
  | settles _ | givesUp _ | resumes _ => id

def changed (h : Hybrid) (events : List Event) : Hybrid := events.foldl (fun h e => e.change h) h

/-- A search that has asked its sources: what each comes to, which may depend on whether the search
is given up by the time it settles, and how the search goes on with their outcomes. -/
structure Wait (α : Type) where
  sources : List Source
  outcome : Cancellation → Source → Outcome
  finish : Hybrid → Float → Cancellation → (Source → Outcome) → Except Failure α × Hybrid

/-- How far a search has come, and the state that it shares with other calls. -/
structure Race (α : Type) where
  state : Hybrid
  cancellation : Cancellation
  settled : List (Source × Outcome)
  answer : Option (Except Failure α)

namespace Race

variable {α : Type}

def begun (h : Hybrid) : Race α := ⟨h, .never, [], none⟩

def outcomeOf (race : Race α) (s : Source) : Outcome := (race.settled.lookup s).getD .stalled

def isSettled (race : Race α) (w : Wait α) : Bool :=
  w.sources.all fun s => (race.settled.lookup s).isSome

/-- A source that is stalled never settles, and one that fails with what cannot be told fails the
search. Giving up decides the search while a source has not settled, if the reason has a text;
otherwise the search finds out when it goes on. -/
def step (w : Wait α) (race : Race α) : Event → Race α
  | .settles s => match w.outcome race.cancellation s with
    | .stalled => race
    | .untold => { race with answer := race.answer.or (some (.error .textless)) }
    | outcome => { race with settled := race.settled ++ [(s, outcome)] }
  | .givesUp r => match race.cancellation with
    | .never => { race with
        cancellation := .during r
        answer := race.answer.or
          (if race.isSettled w || !r.hasText then none else some (.error (.givenUp r))) }
    | .before _ | .during _ => race
  | .resumes now =>
    if race.answer.isNone && race.isSettled w then
      let (answer, state) := w.finish race.state now race.cancellation race.outcomeOf
      { race with answer := some answer, state }
    else race
  | .others change => { race with state := change race.state }

def run (w : Wait α) (race : Race α) (events : List Event) : Race α := events.foldl (step w) race

variable {w : Wait α} {race : Race α}

theorem run_append (before after : List Event) :
    race.run w (before ++ after) = (race.run w before).run w after :=
  List.foldl_append

/-! ### Before a search is decided -/

/-- A search that is decided stays so. -/
theorem answer_step_of_some {answer : Except Failure α} (h : race.answer = some answer)
    (e : Event) :
    (race.step w e).answer = some answer := by
  cases e with
  | settles s =>
    rw [step]
    split
    · exact h
    · rw [h, Option.some_or]
    · exact h
  | givesUp r =>
    rw [step]
    split
    · rw [h, Option.some_or]
    · exact h
    · exact h
  | resumes now =>
    rw [step, h]
    exact h
  | others change => exact h

theorem answer_run_of_some {answer : Except Failure α} (h : race.answer = some answer)
    (events : List Event) :
    (race.run w events).answer = some answer := by
  induction events generalizing race with
  | nil => exact h
  | cons e events ih => exact ih (answer_step_of_some h e)

/-- A step that leaves a search undecided leaves the state to the other calls. -/
theorem state_step {e : Event} (undecided : (race.step w e).answer = none) :
    (race.step w e).state = e.change race.state := by
  cases e with
  | settles s =>
    rw [step]
    split <;> rfl
  | givesUp r =>
    rw [step]
    split <;> rfl
  | resumes now =>
    rw [step] at undecided ⊢
    split
    · rename_i hgoes
      rw [if_pos hgoes] at undecided
      cases undecided
    · rfl
  | others change => rfl

theorem state_run {events : List Event} (undecided : (race.run w events).answer = none) :
    (race.run w events).state = race.state.changed events := by
  induction events generalizing race with
  | nil => rfl
  | cons e events ih =>
    have hstep : (race.step w e).answer = none := by
      cases hanswer : (race.step w e).answer with
      | none => rfl
      | some answer =>
        rw [run, List.foldl_cons, ← run, answer_run_of_some hanswer] at undecided
        cases undecided
    refine (ih undecided).trans ?_
    rw [state_step hstep, changed, changed, List.foldl_cons]

/-! ### After a search is given up -/

theorem cancellation_run {events : List Event} (keeps : ∀ r, .givesUp r ∉ events) :
    (race.run w events).cancellation = race.cancellation := by
  induction events generalizing race with
  | nil => rfl
  | cons e events ih =>
    have hstep : (race.step w e).cancellation = race.cancellation := by
      cases e with
      | settles s =>
        rw [step]
        split <;> rfl
      | givesUp r => exact absurd List.mem_cons_self (keeps r)
      | resumes now =>
        rw [step]
        split <;> rfl
      | others change => rfl
    exact (ih fun r hr => keeps r (List.mem_cons_of_mem _ hr)).trans hstep

theorem isSettled_step (settled : race.isSettled w = true) (e : Event) :
    (race.step w e).isSettled w = true := by
  cases e with
  | settles s =>
    rw [step]
    split
    · exact settled
    · exact settled
    · rw [isSettled, List.all_eq_true] at settled ⊢
      intro s' hs'
      rw [List.lookup_append, Option.isSome_or, settled s' hs', Bool.true_or]
  | givesUp r =>
    rw [step]
    split <;> exact settled
  | resumes now =>
    rw [step]
    split <;> exact settled
  | others change => exact settled

/-- A search that was given up, and has failed for that if it is decided. -/
structure Lost (race : Race α) (r : Reason) : Prop where
  cancellation : race.cancellation = .during r
  answer : race.answer = none ∨ race.answer = some (.error (.ofCancellation Call.context r))

/-- What a search makes of its sources when it is given up for a reason: it fails for that, and none
of its sources has anything to tell. -/
structure GivesWay (w : Wait α) (r : Reason) : Prop where
  finish : ∀ h now outcomeOf, w.finish h now (.during r) outcomeOf =
    (.error (.ofCancellation Call.context r), h)
  told : ∀ s, isUntold (w.outcome (.during r) s) = false

section

variable {r : Reason} (gives : GivesWay w r)
include gives

theorem Lost.step (lost : race.Lost r) (e : Event) :
    (race.step w e).Lost r ∧ (race.step w e).state = e.change race.state := by
  cases e with
  | settles s =>
    have htold := gives.told s
    rw [← lost.cancellation] at htold
    rw [Race.step]
    split
    · exact ⟨lost, rfl⟩
    · rename_i huntold
      rw [huntold] at htold
      cases htold
    · exact ⟨⟨lost.cancellation, lost.answer⟩, rfl⟩
  | givesUp r' =>
    rw [Race.step, lost.cancellation]
    exact ⟨lost, rfl⟩
  | resumes now =>
    rw [Race.step, lost.cancellation, gives.finish]
    split
    · exact ⟨⟨rfl, .inr rfl⟩, rfl⟩
    · exact ⟨lost, rfl⟩
  | others change => exact ⟨⟨lost.cancellation, lost.answer⟩, rfl⟩

theorem Lost.run (lost : race.Lost r) (events : List Event) :
    (race.run w events).Lost r ∧ (race.run w events).state = race.state.changed events := by
  induction events generalizing race with
  | nil => exact ⟨lost, rfl⟩
  | cons e events ih =>
    obtain ⟨hstep, hstate⟩ := lost.step gives e
    obtain ⟨hrun, hchanged⟩ := ih hstep
    refine ⟨hrun, hchanged.trans ?_⟩
    rw [hstate, changed, changed, List.foldl_cons]

/-- It fails when it goes on, at the latest. -/
theorem Lost.answer_resumes (lost : race.Lost r) (settled : race.isSettled w = true) (now : Float) :
    (race.step w (.resumes now)).answer = some (.error (.ofCancellation Call.context r)) := by
  rw [Race.step, settled, Bool.and_true, lost.cancellation, gives.finish]
  rcases lost.answer with hopen | hfailed
  · rw [hopen]
    rfl
  · rw [hfailed]
    exact hfailed

theorem Lost.answer_run (lost : race.Lost r) (settled : race.isSettled w = true) {now : Float}
    {events : List Event} (resumes : .resumes now ∈ events) :
    (race.run w events).answer = some (.error (.ofCancellation Call.context r)) := by
  induction events generalizing race with
  | nil => cases resumes
  | cons e events ih =>
    rcases List.mem_cons.1 resumes with rfl | hlater
    · exact answer_run_of_some (lost.answer_resumes gives settled now) events
    · exact ih (lost.step gives e).1 (isSettled_step settled e) hlater

end

/-- Giving up fails a search at once while a source has not settled, if there is a text for it. -/
theorem lost_givesUp (never : race.cancellation = .never) (undecided : race.answer = none)
    (r : Reason) :
    (race.step w (.givesUp r)).Lost r ∧ (race.step w (.givesUp r)).state = race.state ∧
      (race.isSettled w = false → r.hasText = true →
        (race.step w (.givesUp r)).answer = some (.error (.givenUp r))) := by
  rw [step, never, undecided]
  refine ⟨⟨rfl, ?_⟩, rfl, fun hsettled htext => ?_⟩
  · rw [Failure.ofCancellation_context]
    cases race.isSettled w <;> cases r.hasText <;> simp
  · simp [hsettled, htext]

end Race

/-- However the sources settle and whatever other calls do meanwhile, the state is what the other
calls make of it when a search is given up before it is decided. It fails, if the reason has a text:
at once while a source has not settled, and otherwise when it goes on. -/
def Wait.LeavesNoTrace {α : Type} (w : Wait α) (h : Hybrid) : Prop :=
  ∀ before r after, (∀ r', .givesUp r' ∉ before) → ((Race.begun h).run w before).answer = none →
    let final := (Race.begun h).run w (before ++ .givesUp r :: after)
    final.state = h.changed (before ++ after) ∧
      (r.hasText = true → final.answer = some (.error (.givenUp r)) ∨ final.answer = none ∧
        ((Race.begun h).run w before).isSettled w = true ∧ ∀ now, .resumes now ∉ after)

theorem Wait.leavesNoTrace {α : Type} {w : Wait α} (gives : ∀ r, Race.GivesWay w r) (h : Hybrid) :
    w.LeavesNoTrace h := by
  intro before r after first undecided
  have hnever : ((Race.begun h).run w before).cancellation = .never := Race.cancellation_run first
  have hbefore : ((Race.begun h).run w before).state = h.changed before := Race.state_run undecided
  rw [Race.run_append, Race.run, List.foldl_cons, ← Race.run]
  generalize (Race.begun h).run w before = race at hnever hbefore undecided ⊢
  obtain ⟨hlost, hstate, hatOnce⟩ := Race.lost_givesUp (w := w) hnever undecided r
  obtain ⟨hfinal, hchanged⟩ := hlost.run (gives r) after
  refine ⟨?_, fun htext => ?_⟩
  · rw [hchanged, hstate, hbefore, changed, changed, changed, List.foldl_append]
  · have hfailure : Failure.ofCancellation Call.context r = .givenUp r := by
      rw [Failure.ofCancellation_context, if_pos htext]
    cases hsettled : race.isSettled w with
    | false => exact .inl (Race.answer_run_of_some (hatOnce hsettled htext) after)
    | true =>
      by_cases hresumes : ∃ now, .resumes now ∈ after
      · obtain ⟨now, hnow⟩ := hresumes
        rw [← hfailure]
        exact .inl (hlost.answer_run (gives r) (Race.isSettled_step hsettled _) hnow)
      · rcases hfinal.answer with hopen | hfailed
        · exact .inr ⟨hopen, rfl, fun now hnow => hresumes ⟨now, hnow⟩⟩
        · exact .inl (hfailure ▸ hfailed)

/-! ### A search that is not given up -/

namespace Race

variable {α : Type} {w : Wait α}

theorem run_settles {race : Race α} {order : List Source}
    (usable : ∀ s ∈ order, Usable (w.outcome race.cancellation s)) :
    race.run w (order.map .settles) =
      { race with settled := race.settled ++ order.map fun s =>
        (s, w.outcome race.cancellation s) } := by
  induction order generalizing race with
  | nil =>
    rw [List.map_nil, List.map_nil, List.append_nil]
    rfl
  | cons s order ih =>
    obtain ⟨hs, horder⟩ := List.forall_mem_cons.1 usable
    have hstep : race.step w (.settles s) =
        { race with settled := race.settled ++ [(s, w.outcome race.cancellation s)] } := by
      rw [step]
      split
      · rename_i hstalled
        rw [hstalled] at hs
        cases hs.settles
      · rename_i huntold
        rw [huntold] at hs
        cases hs.told
      · rfl
    have hrest :=
      @ih { race with settled := race.settled ++ [(s, w.outcome race.cancellation s)] } horder
    rw [List.map_cons, run, List.foldl_cons, hstep, ← run, hrest, List.map_cons, List.append_assoc]
    rfl

theorem lookup_settled (outcome : Source → Outcome) {order : List Source} {s : Source}
    (hs : s ∈ order) :
    (order.map fun s => (s, outcome s)).lookup s = some (outcome s) := by
  induction order with
  | nil => cases hs
  | cons t order ih =>
    rw [List.map_cons, List.lookup_cons]
    split
    · rename_i heq
      rw [beq_iff_eq.1 heq]
    · rename_i hne
      exact ih ((List.mem_cons.1 hs).resolve_left (beq_eq_false_iff_ne.1 hne))

/-- When its sources have settled, in whatever order, a search goes on with what they have
come to. -/
theorem run_settles_resumes (h : Hybrid) {order : List Source}
    (all : ∀ s, s ∈ order ↔ s ∈ w.sources) (usable : ∀ s ∈ w.sources, Usable (w.outcome .never s))
    (now : Float) :
    ∃ outcomeOf, (∀ s ∈ w.sources, outcomeOf s = w.outcome .never s) ∧
      let final := (begun h).run w (order.map .settles ++ [.resumes now])
      final.answer = some (w.finish h now .never outcomeOf).1 ∧
        final.state = (w.finish h now .never outcomeOf).2 := by
  have hsettles : (begun h).run w (order.map .settles) = _ :=
    run_settles fun s hs => usable s ((all s).1 hs)
  have hlookup : ∀ s ∈ w.sources, ((begun h).run w (order.map .settles)).settled.lookup s =
      some (w.outcome .never s) := by
    intro s hs
    rw [hsettles]
    exact lookup_settled (w.outcome .never) ((all s).2 hs)
  have hsettled : ((begun h).run w (order.map .settles)).isSettled w = true := by
    rw [isSettled, List.all_eq_true]
    intro s hs
    rw [hlookup s hs, Option.isSome_some]
  refine ⟨((begun h).run w (order.map .settles)).outcomeOf, fun s hs => ?_, ?_⟩
  · rw [outcomeOf, hlookup s hs, Option.getD_some]
  · have hundecided : ((begun h).run w (order.map .settles)).answer.isNone = true := by
      rw [hsettles]; rfl
    have hstate : ((begun h).run w (order.map .settles)).state = h := by rw [hsettles]; rfl
    have hnever : ((begun h).run w (order.map .settles)).cancellation = .never := by
      rw [hsettles]; rfl
    rw [run_append, run, List.foldl_cons, List.foldl_nil]
    generalize (begun h).run w (order.map .settles) = race at hundecided hsettled hstate hnever
    rw [step, hundecided, hsettled, hstate, hnever]
    exact ⟨rfl, rfl⟩

end Race

/-! ### Searches of all sources and of one -/

/-- A hybrid search that waits for its sources. -/
def Pending.wait (p : Pending) (outcome : Cancellation → Source → Outcome) (ix : Index) :
    Wait Response where
  sources := p.outcomes.map (·.1)
  outcome := outcome
  finish h now cancellation outcomeOf :=
    let finished := h.finish ix now
      { p with cancellation, outcomes := p.outcomes.map fun x => (x.1, outcomeOf x.1) }
    (finished.1.1, finished.2)

def PendingSource.wait (p : PendingSource) (outcome : Cancellation → Source → Outcome)
    (ix : Index) :
    Wait SourceResponse where
  sources := [p.source]
  outcome := outcome
  finish h _ cancellation outcomeOf :=
    let finished := h.finishSource ix { p with cancellation, outcome := outcomeOf p.source }
    (finished.1.1, finished.2)

/-- What a source comes to, with regard to when it settles. -/
def settling (h : Hybrid) (c : Catalog) (r : Request) (cancellation : Cancellation)
    (s : Source) : Outcome :=
  (h.runSource c r cancellation s).1

/-- A hybrid search that can go on, and that nobody gives up, is finished on the outcomes that it
was begun with, whatever the order in which they are there. -/
theorem run_asked (h : Hybrid) (c : Catalog) (settings : Settings) {call : Call} (parsed : Query)
    (never : call.cancellation = .never) {order : List Source}
    (all : ∀ s, s ∈ order ↔ s ∈ h.active settings)
    (usable : ∀ s ∈ h.active settings,
      Usable (h.settling c (h.requestOf c settings call parsed) .never s))
    (state : Hybrid) (ix : Index) (now : Float) :
    let p := h.asked c settings call parsed
    let final :=
      (Race.begun state).run (p.wait (h.settling c (h.requestOf c settings call parsed)) ix)
        (order.map .settles ++ [.resumes now])
    final.answer = some (state.finish ix now p).1.1 ∧ final.state = (state.finish ix now p).2 := by
  intro p
  have hsources : (p.wait (h.settling c (h.requestOf c settings call parsed)) ix).sources =
      h.active settings := by
    change ((h.active settings).map _).map _ = _
    rw [List.map_map]
    exact List.map_id _
  rw [← hsources] at all usable
  obtain ⟨outcomeOf, houtcomes, hanswer, hstate⟩ := Race.run_settles_resumes state all usable now
  have hsame : p.outcomes.map (fun x => (x.1, outcomeOf x.1)) = p.outcomes := by
    change ((h.active settings).map _).map _ = (h.active settings).map _
    rw [List.map_map]
    refine List.map_congr_left fun s hs => ?_
    rw [Function.comp, houtcomes s (hsources ▸ hs), never]
    rfl
  have hnever : p.cancellation = .never := never
  rw [Pending.wait] at hanswer hstate
  simp only [hsame, ← hnever] at hanswer hstate
  exact ⟨hanswer, hstate⟩

/-- The search that a call begins when one source is asked. -/
def askedSource (h : Hybrid) (c : Catalog) (settings : Settings) (s : Source) (call : Call)
    (parsed : Query) :
    PendingSource where
  source := s
  query := call.query
  filter := call.filter.normalize
  globs := h.globs
  limit := call.bound
  cancellation := call.cancellation
  outcome := h.settling c (h.requestAlone c settings call parsed) call.cancellation s

/-- So is a search of one source. -/
theorem run_askedSource (h : Hybrid) (c : Catalog) (settings : Settings) (s : Source) {call : Call}
    (parsed : Query) (never : call.cancellation = .never)
    (usable : Usable (h.settling c (h.requestAlone c settings call parsed) .never s))
    (state : Hybrid) (ix : Index) (now : Float) :
    let p := h.askedSource c settings s call parsed
    let final :=
      (Race.begun state).run (p.wait (h.settling c (h.requestAlone c settings call parsed)) ix)
        [.settles s, .resumes now]
    final.answer = some (state.finishSource ix p).1.1 ∧
      final.state = (state.finishSource ix p).2 := by
  intro p
  have hone : ∀ s' ∈ [s], Usable (h.settling c (h.requestAlone c settings call parsed) .never s') :=
    List.forall_mem_singleton.2 usable
  obtain ⟨outcomeOf, houtcomes, hanswer, hstate⟩ :=
    Race.run_settles_resumes
      (w := p.wait (h.settling c (h.requestAlone c settings call parsed)) ix) state
      (fun _ => Iff.rfl) hone now
  have hsame : outcomeOf p.source = p.outcome := by
    refine (houtcomes s (List.mem_singleton_self s)).trans ?_
    change _ = h.settling c _ call.cancellation s
    rw [never]
    rfl
  have hnever : p.cancellation = .never := never
  rw [PendingSource.wait] at hanswer hstate
  simp only [hsame, ← hnever] at hanswer hstate
  exact ⟨hanswer, hstate⟩

/-- A call of one source, whose glob is taken, asks it and leaves all else as it was. -/
theorem startSource_asked {h : Hybrid} {s : Source} (available : h.isAvailable s = true)
    (c : Catalog) (settings : Settings) {call : Call} (accepted : call.filter.Accepted h.globs)
    {parsed : Query} (hread : readCall call = .ok parsed) :
    ∃ h', h.startSource c settings s call =
      (.pending (h.askedSource c settings s call parsed), h') ∧ h.Spares h' := by
  obtain ⟨hparse, -⟩ := readCall_eq_ok hread
  have hcheck : call.cancellation.check Call.context = .ok () := by
    rw [readCall, hparse] at hread
    cases hcheck : call.cancellation.check Call.context with
    | error f =>
      rw [hcheck] at hread
      cases hread
    | ok _ => rfl
  rw [startSource, hparse]
  simp only [available, hcheck, accepted.check_normalize]
  exact ⟨_, rfl, spares_runSource h c _ call.cancellation s⟩

/-! ### What a search that is given up leaves behind -/

/-- A source that fails after its caller has given up is not asked what it failed with. -/
theorem isUntold_settling (h : Hybrid) (c : Catalog) (r : Request) (reason : Reason) (s : Source) :
    isUntold (h.settling c r (.during reason) s) = false := by
  rw [settling, runSource_fst]
  cases h.providers.get s with
  | none => rfl
  | some p =>
    cases p with
    | index | names => rfl
    | backend b =>
      simp only [Option.map_some, Option.getD_some, Provider.run]
      cases b.replyBy (r.settings.deadlines.get s) r.query r.candidates with
      | answers ids | fails _ | waits => rfl
      | hangs => exact isUntold_atDeadline s _ true

theorem Pending.leavesNoTrace (p : Pending) (h : Hybrid) (c : Catalog) (r : Request) (ix : Index)
    (state : Hybrid) : (p.wait (h.settling c r) ix).LeavesNoTrace state :=
  Wait.leavesNoTrace (fun reason => ⟨fun _ _ _ => rfl, h.isUntold_settling c r reason⟩) state

theorem PendingSource.leavesNoTrace (p : PendingSource) (h : Hybrid) (c : Catalog) (r : Request)
    (ix : Index) (state : Hybrid) : (p.wait (h.settling c r) ix).LeavesNoTrace state :=
  Wait.leavesNoTrace (fun reason => ⟨fun _ _ _ => rfl, h.isUntold_settling c r reason⟩) state

/-- A search that is given up before it begins does not even look into the cache. -/
theorem search_givenUp (h : Hybrid) (c : Catalog) (settings : Settings) (now : Float) {call : Call}
    {parsed : Query} (hparse : Query.parse call.query = .ok parsed) (r : Reason) :
    h.search c settings now { call with cancellation := .before r } =
      ((.error (if r.hasText then .givenUp r else .textless), []), h) := by
  rw [search, start, readCall, hparse, ← Failure.ofCancellation_context]
  rfl

theorem searchSource_givenUp {h : Hybrid} {s : Source} (available : h.isAvailable s = true)
    (c : Catalog) (settings : Settings) {call : Call} {parsed : Query}
    (hparse : Query.parse call.query = .ok parsed) (r : Reason) :
    h.searchSource c settings s { call with cancellation := .before r } =
      ((.error (if r.hasText then .givenUp r else .textless), []), h) := by
  rw [searchSource, startSource, hparse, ← Failure.ofCancellation_context]
  simp only [available]
  rfl

/-- A search that is given up before it begins fails and changes nothing. One that is given up while
it waits changes nothing either, and fails as well if the reason has a text, whatever its sources
and other calls do. By then its glob was taken and its sources were asked, and a hybrid search has
looked for its key in vain; the providers, the runs that are counted and all else in the cache are
as they were. -/
theorem search_leaves_no_trace (h : Hybrid) (c : Catalog) (settings : Settings) (now : Float)
    (call : Call) {parsed : Query} (hparse : Query.parse call.query = .ok parsed) :
    (∀ r, h.search c settings now { call with cancellation := .before r } =
        ((.error (if r.hasText then .givenUp r else .textless), []), h) ∧
      ∀ s, h.isAvailable s = true →
        h.searchSource c settings s { call with cancellation := .before r } =
          ((.error (if r.hasText then .givenUp r else .textless), []), h)) ∧
    (h.Misses c settings now call → call.filter.Accepted h.globs → ∃ p notes h',
      h.start c settings now { call with cancellation := .never } = ((.pending p, notes), h') ∧
      h'.behaviour = h.behaviour ∧ h'.digest = h.digest ∧ h'.globs = h.globs ∧ h'.runs = h.runs ∧
      h.cache.Missed h'.cache p.key c.index.version now ∧
      ∀ ix, (p.wait (h.settling c (h.requestOf c settings call parsed)) ix).LeavesNoTrace h') ∧
    ∀ s, h.isAvailable s = true → call.filter.Accepted h.globs → ∃ p h',
      h.startSource c settings s { call with cancellation := .never } = (.pending p, h') ∧
        h.Spares h' ∧
        ∀ ix,
          (p.wait (h.settling c (h.requestAlone c settings call parsed)) ix).LeavesNoTrace h' := by
  have hread : readCall { call with cancellation := .never } = .ok parsed := by
    rw [readCall, hparse]
    rfl
  refine ⟨fun r => ⟨search_givenUp h c settings now hparse r, fun s available =>
    searchSource_givenUp available c settings hparse r⟩, fun misses accepted => ?_,
    fun s available accepted => ?_⟩
  · have hmisses : h.Misses c settings now { call with cancellation := .never } := misses
    obtain ⟨h', hstart, hspares⟩ := hmisses.start_asked accepted hread
    have hmissed := Cache.missed_of_get hmisses
    refine ⟨_, _, h', hstart, hspares.behaviour, hspares.digest, hspares.globs, hspares.runs, ?_,
      fun ix => Pending.leavesNoTrace _ h c _ ix h'⟩
    rw [hspares.cache]
    exact hmissed
  · obtain ⟨h', hstart, hspares⟩ := startSource_asked available c settings
      (show Filter.Accepted h.globs { call with cancellation := .never }.filter from accepted) hread
    exact ⟨_, h', hstart, hspares, fun ix => PendingSource.leavesNoTrace _ h c _ ix h'⟩

/-- One source has failed, another hangs, and the ranker settles after the caller has given up. -/
theorem search_leaves_no_trace_hanging :
    let failing : Backend := .ofFunction fun _ _ => .fails (.value (.text "down"))
    let hanging : Backend := .ofFunction fun _ _ => .hangs
    let h : Hybrid := { empty none id .literal with
      providers := ⟨some .index, some (.backend hanging), some (.backend failing)⟩ }
    let c := (Catalog.empty 0).add ⟨"a", "b", []⟩
    let call : Call := ⟨"b", .none, none, .never⟩
    let stop : Reason := .value (.text "stop")
    h.search c .default 0 { call with cancellation := .before stop } =
      ((.error (.givenUp stop), []), h) ∧
      ∃ p notes h', h.start c .default 0 call = ((.pending p, notes), h') ∧
        h'.behaviour = h.behaviour ∧ h'.runs = h.runs ∧ h'.cache.misses = 1 ∧
        let final := (Race.begun h').run
          (p.wait (h.settling c (h.requestOf c .default call (.term "b"))) c.index)
          [.settles .fuzzy, .givesUp stop, .settles .bm25, .resumes 0]
        final.answer = some (.error (.givenUp stop)) ∧ final.state = h' := by
  intro failing hanging h c call stop
  have hparse : Query.parse call.query = .ok (.term "b") := by with_unfolding_all rfl
  obtain ⟨hbefore, hwaiting, -⟩ := search_leaves_no_trace h c .default 0 call hparse
  obtain ⟨p, notes, h', hstart, hbehaviour, -, -, hruns, hmissed, htrace⟩ :=
    hwaiting rfl Filter.accepted_none
  obtain ⟨hstate, hanswer⟩ :=
    htrace c.index [.settles .fuzzy] stop [.settles .bm25, .resumes 0] (by simp) rfl
  rcases hanswer rfl with hfailed | ⟨-, -, hresumes⟩
  · exact ⟨(hbefore stop).1, p, notes, h', hstart, hbehaviour, hruns, hmissed.misses,
      hfailed, hstate⟩
  · exact absurd (List.mem_cons_of_mem _ List.mem_cons_self) (hresumes 0)

/-- A search that is given up for a reason that has no text fails, but not for having been
given up. -/
theorem search_givenUp_untold :
    let h : Hybrid := { empty none id .literal with
      providers := ⟨some .index, none, none⟩ }
    let c := (Catalog.empty 0).add ⟨"a", "b", []⟩
    let call : Call := ⟨"b", .none, none, .before (.value (.object [("toString", .number 1)]))⟩
    (h.search c .default 0 call).1.1 = .error .textless ∧
      (h.searchSource c .default .bm25 call).1.1 = .error .textless := by
  intro h c call
  have hparse : Query.parse call.query = .ok (.term "b") := by with_unfolding_all rfl
  have hsearch := search_givenUp h c .default 0 hparse (.value (.object [("toString", .number 1)]))
  have halone := searchSource_givenUp (h := h) (s := .bm25) rfl c .default hparse
    (.value (.object [("toString", .number 1)]))
  exact ⟨congrArg (·.1.1) hsearch, congrArg (·.1.1) halone⟩

end Hybrid
end Quarry
