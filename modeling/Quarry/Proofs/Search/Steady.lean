import Quarry.Proofs.Cache
import Quarry.Proofs.Filter
import Quarry.Proofs.Provider
import Quarry.Proofs.Search.Alike

/-! Hybrid searches whose sources always answer. A provider is steady if it answers by its deadline,
and its answer depends on the query and the number of results alone; how often it was asked then
plays no part, and what a search comes to without the cache is a function of the catalog, the
settings and the behaviour of the providers. -/

namespace Quarry

namespace Provider

/-- The provider as if it had not been asked yet. -/
def unasked : Provider → Provider
  | .index => .index
  | .names => .names
  | .backend b => .backend { b with calls := 0 }

/-- A provider that always answers by a deadline, and by the query and the number of
results alone. -/
def Steady (p : Provider) (deadline : Deadline) : Prop :=
  match p with
  | .index | .names => True
  | .backend b => ∃ ids : Text → Number → List DocId, ∀ before query limit,
      b.reply before query limit = .answers (ids query limit) ∧
        deadline.isOver (b.delay before query limit) = false

/-- A provider that answers at once is steady whatever its deadline. -/
theorem steady_ofFunction (ids : Text → Number → List DocId) (deadline : Deadline) :
    (backend (.ofFunction fun query limit => .answers (ids query limit))).Steady deadline :=
  ⟨ids, fun _ _ _ => ⟨rfl, deadline.isOver_zero⟩⟩

theorem unasked_unasked (p : Provider) : p.unasked.unasked = p.unasked := by
  cases p <;> rfl

theorem steady_unasked {p : Provider} {deadline : Deadline} :
    p.unasked.Steady deadline ↔ p.Steady deadline := by
  cases p <;> rfl

/-- What a provider ranks. -/
def list (p : Provider) (c : Catalog) (s : Source) (r : Request) : List Ranked :=
  Hybrid.resultsOf (p.unasked.run c s r .unlimited .never).1

theorem unasked_run (p : Provider) (c : Catalog) (s : Source) (r : Request) (deadline : Deadline)
    (cancellation : Cancellation) : (p.run c s r deadline cancellation).2.unasked = p.unasked := by
  cases p <;> cases cancellation <;> rfl

/-- A steady provider answers with what it ranks, unless its caller gave up before. -/
theorem Steady.run_eq {p : Provider} {deadline : Deadline} (h : p.Steady deadline)
    {cancellation : Cancellation} (hcheck : cancellation.check none = .ok ()) (c : Catalog)
    (s : Source) (r : Request) :
    (p.run c s r deadline cancellation).1 = .answered (p.list c s r) := by
  cases p with
  | index =>
    rw [run, hcheck]
    rfl
  | names =>
    rw [run, hcheck]
    rfl
  | backend b =>
    obtain ⟨ids, hids⟩ := h
    have hasked : ∀ (calls : Nat) (d : Deadline) (cancellation : Cancellation),
        d.isOver (b.delay calls r.query r.candidates) = false →
        ((backend { b with calls }).run c s r d cancellation).1 =
          .answered (r.candidates.select (Ranked.ofIds s (ids r.query r.candidates))) := by
      intro calls d cancellation htimely
      simp only [run, Backend.replyBy, htimely, Bool.false_eq_true, if_false,
        (hids _ _ _).1, outcomeOf]
    rw [list, unasked, hasked 0 .unlimited .never rfl, Hybrid.resultsOf]
    exact hasked b.calls deadline cancellation (hids _ _ _).2

theorem list_congr {p p' : Provider} (behaviour : p.unasked = p'.unasked) {c c' : Catalog}
    (alike : c.Alike c') (s : Source) (r : Request) : p.list c s r = p'.list c' s r := by
  rw [list, behaviour, alike.run_eq, list]

/-- Of the settings only those of the ranker count. -/
theorem list_settings (p : Provider) (c : Catalog) (s : Source) (r : Request) {settings : Settings}
    (h : r.settings.tuning = settings.tuning) : p.list c s r = p.list c s { r with settings } := by
  cases p with
  | index =>
    change rankIndex c s r = rankIndex c s { r with settings }
    rw [rankIndex, h, rankIndex]
  | names => rfl
  | backend b =>
    simp only [list, unasked, run, Backend.replyBy]
    cases b.reply 0 r.query r.candidates <;> rfl

end Provider

namespace Hybrid

/-- What the providers do, however often they were asked. -/
def behaviour (h : Hybrid) : PerSource (Option Provider) := h.providers.map (·.map Provider.unasked)

theorem get_behaviour (h : Hybrid) (s : Source) :
    h.behaviour.get s = (h.providers.get s).map Provider.unasked := by
  cases s <;> rfl

theorem isAvailable_eq_isSome (h : Hybrid) (s : Source) :
    h.isAvailable s = (h.behaviour.get s).isSome := by
  rw [get_behaviour, Option.isSome_map, isAvailable]

/-- Each provider is steady by the deadline of its source. -/
def Steady (h : Hybrid) (deadlines : PerSource Deadline) : Prop :=
  ∀ s p, h.behaviour.get s = some p → p.Steady (deadlines.get s)

/-- The state `h'` comes from `h` by searches that set nothing in the cache. -/
structure Keeps (h h' : Hybrid) : Prop where
  behaviour : h'.behaviour = h.behaviour
  digest : h'.digest = h.digest
  globs : h'.globs = h.globs
  entries : ∀ e ∈ h'.cache.entries, e ∈ h.cache.entries

theorem Keeps.refl (h : Hybrid) : h.Keeps h := ⟨rfl, rfl, rfl, fun _ he => he⟩

theorem Keeps.trans {h h' h'' : Hybrid} (k : h.Keeps h') (k' : h'.Keeps h'') : h.Keeps h'' :=
  ⟨k'.behaviour.trans k.behaviour, k'.digest.trans k.digest, k'.globs.trans k.globs,
    fun e he => k.entries e (k'.entries e he)⟩

/-- The state `h'` is `h` but for how often the providers from outside were asked. -/
structure Spares (h h' : Hybrid) : Prop where
  behaviour : h'.behaviour = h.behaviour
  digest : h'.digest = h.digest
  globs : h'.globs = h.globs
  runs : h'.runs = h.runs
  cache : h'.cache = h.cache

theorem Spares.refl (h : Hybrid) : h.Spares h := ⟨rfl, rfl, rfl, rfl, rfl⟩

theorem Spares.trans {h h' h'' : Hybrid} (k : h.Spares h') (k' : h'.Spares h'') : h.Spares h'' :=
  ⟨k'.behaviour.trans k.behaviour, k'.digest.trans k.digest, k'.globs.trans k.globs,
    k'.runs.trans k.runs, k'.cache.trans k.cache⟩

theorem Spares.keeps {h h' : Hybrid} (k : h.Spares h') : h.Keeps h' :=
  ⟨k.behaviour, k.digest, k.globs, fun _ he => k.cache ▸ he⟩

theorem isAvailable_of_behaviour {h h' : Hybrid} (behaviour : h'.behaviour = h.behaviour)
    (s : Source) :
    h'.isAvailable s = h.isAvailable s := by
  rw [isAvailable_eq_isSome, behaviour, isAvailable_eq_isSome]

theorem active_of_behaviour {h h' : Hybrid} (behaviour : h'.behaviour = h.behaviour)
    (settings : Settings) : h'.active settings = h.active settings := by
  simp only [active, isAvailable_of_behaviour behaviour]

/-! ### Asking the sources -/

/-- What a source ranks. -/
def list (h : Hybrid) (c : Catalog) (r : Request) (s : Source) : List Ranked :=
  ((h.behaviour.get s).map fun p => p.list c s r).getD []

theorem list_congr {h h' : Hybrid} (behaviour : h'.behaviour = h.behaviour) {c c' : Catalog}
    (alike : c'.Alike c) (r : Request) (s : Source) : h'.list c' r s = h.list c r s := by
  have hlist : ∀ p : Provider, p.list c' s r = p.list c s r := fun p =>
    Provider.list_congr rfl alike s r
  simp only [list, behaviour, hlist]

theorem list_settings (h : Hybrid) (c : Catalog) (r : Request) {settings : Settings}
    (hsettings : r.settings.tuning = settings.tuning) (s : Source) :
    h.list c r s = h.list c { r with settings } s := by
  have hlist : ∀ p : Provider, p.list c s r = p.list c s { r with settings } := fun p =>
    p.list_settings c s r hsettings
  simp only [list, hlist]

theorem spares_runSource (h : Hybrid) (c : Catalog) (r : Request) (cancellation : Cancellation)
    (s : Source) : h.Spares (h.runSource c r cancellation s).2 := by
  rw [runSource]
  cases hget : h.providers.get s with
  | none => exact .refl h
  | some p =>
    refine ⟨PerSource.eq_of_get fun s' => ?_, rfl, rfl, rfl, rfl⟩
    simp only [get_behaviour, PerSource.get_set]
    split
    · rename_i hs
      rw [← hs, hget, Option.map_some, Option.map_some, Provider.unasked_run]
    · rfl

theorem keeps_runSource (h : Hybrid) (c : Catalog) (r : Request) (cancellation : Cancellation)
    (s : Source) :
    h.Keeps (h.runSource c r cancellation s).2 := (spares_runSource h c r cancellation s).keeps

theorem Steady.runSource_fst {h : Hybrid} {r : Request} (steady : h.Steady r.settings.deadlines)
    {cancellation : Cancellation} (hcheck : cancellation.check none = .ok ()) (c : Catalog)
    {s : Source} (available : h.isAvailable s = true) :
    (h.runSource c r cancellation s).1 = .answered (h.list c r s) := by
  obtain ⟨p, hget⟩ := Option.isSome_iff_exists.1 available
  have hbehaviour : h.behaviour.get s = some p.unasked := by
    rw [get_behaviour, hget, Option.map_some]
  have hp : p.Steady (r.settings.deadlines.get s) :=
    Provider.steady_unasked.1 (steady s p.unasked hbehaviour)
  have hlist : p.unasked.list c s r = p.list c s r := by
    rw [Provider.list, Provider.unasked_unasked, Provider.list]
  rw [Hybrid.runSource_fst, hget, list, hbehaviour, Option.map_some, Option.map_some,
    Option.getD_some, Option.getD_some, hlist]
  exact hp.run_eq hcheck c s r

theorem spares_runAll (h : Hybrid) (c : Catalog) (r : Request) (cancellation : Cancellation)
    (sources : List Source) : h.Spares (h.runAll c r cancellation sources).2 := by
  induction sources generalizing h with
  | nil => exact .refl h
  | cons s rest ih => exact (spares_runSource h c r cancellation s).trans (ih _)

theorem keeps_runAll (h : Hybrid) (c : Catalog) (r : Request) (cancellation : Cancellation)
    (sources : List Source) : h.Keeps (h.runAll c r cancellation sources).2 :=
  (spares_runAll h c r cancellation sources).keeps

/-- Steady sources all answer with what they rank. -/
theorem Steady.runAll_fst {h : Hybrid} {r : Request} (steady : h.Steady r.settings.deadlines)
    {cancellation : Cancellation} (hcheck : cancellation.check none = .ok ()) (c : Catalog)
    {sources : List Source} (available : ∀ s ∈ sources, h.isAvailable s = true) :
    (h.runAll c r cancellation sources).1 = sources.map fun s => (s, .answered (h.list c r s)) := by
  induction sources generalizing h with
  | nil => rfl
  | cons s rest ih =>
    rw [List.forall_mem_cons] at available
    have hkeeps := keeps_runSource h c r cancellation s
    have hsteady : (h.runSource c r cancellation s).2.Steady r.settings.deadlines := by
      rw [Steady, hkeeps.behaviour]
      exact steady
    have hrest := ih hsteady fun s' hs' =>
      (isAvailable_of_behaviour hkeeps.behaviour s').trans (available.2 s' hs')
    rw [runAll, List.map_cons]
    simp only [steady.runSource_fst hcheck c available.1, hrest,
      list_congr hkeeps.behaviour (.refl c)]

/-! ### What a search comes to -/

/-- What the sources are asked for a call. -/
def requestOf (h : Hybrid) (c : Catalog) (settings : Settings) (call : Call) (parsed : Query) :
    Request where
  query := call.query
  parsed := parsed
  candidates := settings.candidates call.bound
  settings := settings
  accepts := c.index.passes h.globs call.filter.normalize

/-- The search that a call begins when all of its sources answer. -/
def pendingOf (h : Hybrid) (c : Catalog) (settings : Settings) (call : Call) (parsed : Query) :
    Pending where
  query := call.query
  filter := call.filter.normalize
  globs := h.globs
  limit := call.bound
  settings := settings
  cancellation := call.cancellation
  key := fingerprint h.digest call.query call.filter.normalize (.whole call.bound)
    (h.active settings) settings
  version := c.index.version
  narrowed := h.narrowed settings
  outcomes := (h.active settings).map fun s =>
    (s, .answered (h.list c (h.requestOf c settings call parsed) s))

/-- The response to a call without the cache. -/
def freshResponse (h : Hybrid) (c : Catalog) (settings : Settings) (call : Call) (parsed : Query) :
    Response :=
  respond (h.pendingOf c settings call parsed) c.index

theorem readCall_eq_ok {call : Call} {parsed : Query} (h : readCall call = .ok parsed) :
    Query.parse call.query = .ok parsed ∧ call.cancellation.check none = .ok () := by
  rw [readCall] at h
  cases hparse : Query.parse call.query with
  | error e =>
    rw [hparse] at h
    cases h
  | ok q =>
    rw [hparse] at h
    cases hcancellation : call.cancellation with
    | before r =>
      rw [hcancellation] at h
      cases h
    | never =>
      rw [hcancellation] at h
      cases h
      exact ⟨rfl, rfl⟩
    | during r =>
      rw [hcancellation] at h
      cases h
      exact ⟨rfl, rfl⟩

/-- A search that begins sets nothing in the cache. -/
theorem keeps_start (h : Hybrid) (c : Catalog) (settings : Settings) (now : Float) (call : Call) :
    h.Keeps (h.start c settings now call).2 := by
  rw [start]
  cases readCall call with
  | error f => exact .refl h
  | ok parsed =>
    simp only
    generalize hlooked : h.cache.get _ _ now = looked
    obtain ⟨found, cache⟩ := looked
    have hkeeps : h.Keeps { h with cache } := by
      refine ⟨rfl, rfl, rfl, fun e he => ?_⟩
      change e ∈ (found, cache).2.entries at he
      rw [← hlooked] at he
      exact Cache.mem_of_mem_get he
    cases found with
    | some response => exact hkeeps
    | none =>
      simp only
      cases call.filter.normalize.check h.globs with
      | error f => exact hkeeps
      | ok _ => exact hkeeps.trans (keeps_runAll { h with cache } c _ call.cancellation _)

/-- A search over steady sources fails at once, for its query, its caller or its glob, is answered
by an entry of the cache for its key and the version of the index, or asks its sources,
which answer. -/
theorem Steady.start_cases {h : Hybrid} (c : Catalog) {settings : Settings}
    (steady : h.Steady settings.deadlines) (now : Float) (call : Call) :
    (∃ f, (readCall call = .error f ∨ call.filter.normalize.check h.globs = .error f) ∧
        (h.start c settings now call).1.1 = .decided (.error f)) ∨
      ∃ parsed, Query.parse call.query = .ok parsed ∧
        ((∃ e ∈ h.cache.entries, e.key = (h.pendingOf c settings call parsed).key ∧
            e.version = c.index.version ∧
            (h.start c settings now call).1.1 = .decided (.ok { e.response with cached := true })) ∨
          call.filter.normalize.check h.globs = .ok () ∧
            (h.start c settings now call).1.1 = .pending (h.pendingOf c settings call parsed)) := by
  rw [start]
  cases hread : readCall call with
  | error f => exact .inl ⟨f, .inl rfl, rfl⟩
  | ok parsed =>
    obtain ⟨hparse, hcheck⟩ := readCall_eq_ok hread
    have hfound : ∀ response, (h.cache.get (h.pendingOf c settings call parsed).key c.index.version
        now).1 = some response → _ := fun _ => Cache.exists_entry_of_get
    simp only [pendingOf] at hfound ⊢
    generalize h.cache.get _ _ now = looked at hfound ⊢
    obtain ⟨found, cache⟩ := looked
    cases found with
    | some response =>
      obtain ⟨e, he, hkey, hversion, rfl⟩ := hfound response rfl
      exact .inr ⟨parsed, hparse, .inl ⟨e, he, hkey, hversion, rfl⟩⟩
    | none =>
      simp only
      cases hglob : call.filter.normalize.check h.globs with
      | error f => exact .inl ⟨f, .inr rfl, rfl⟩
      | ok _ =>
        have hsteady : Steady { h with cache } settings.deadlines := steady
        have havailable : ∀ s ∈ h.active settings, h.isAvailable s = true := fun s hs =>
          (Bool.and_eq_true_iff.1 (List.mem_filter.1 hs).2).2
        have hrun :=
          hsteady.runAll_fst (r := h.requestOf c settings call parsed) hcheck c havailable
        refine .inr ⟨parsed, hparse, .inr ⟨rfl, ?_⟩⟩
        simp only [requestOf] at hrun
        simp only [hrun]
        rfl

/-- Finishing a search sets at most its response, under its key and the version that it
began with. -/
theorem finish_cases (h : Hybrid) (ix : Index) (now : Float) (p : Pending) :
    (h.finish ix now p).2.behaviour = h.behaviour ∧ (h.finish ix now p).2.digest = h.digest ∧
      (h.finish ix now p).2.globs = h.globs ∧
        ∀ e ∈ (h.finish ix now p).2.cache.entries, e ∈ h.cache.entries ∨
          (e.key = p.key ∧ e.version = p.version ∧ e.response = respond p ix) := by
  rw [finish]
  cases p.cancellation.race Call.context (.ok ()) with
  | error f => exact ⟨rfl, rfl, rfl, fun e he => .inl he⟩
  | ok _ =>
    simp only
    split
    · exact ⟨rfl, rfl, rfl, fun e he => .inl he⟩
    · refine ⟨rfl, rfl, rfl, fun e he => ?_⟩
      rcases Cache.mem_of_mem_set he with hold | rfl
      · exact .inl hold
      · exact .inr ⟨rfl, rfl, rfl⟩

/-- An outcome that a search can go on with. -/
structure Usable (outcome : Outcome) : Prop where
  told : isUntold outcome = false
  settles : isStalled outcome = false

/-- That a source was late can always be told. -/
theorem isUntold_atDeadline (s : Source) (deadline : Deadline) (givenUp : Bool) :
    isUntold (.atDeadline s deadline givenUp) = false := by
  cases deadline <;> cases givenUp <;> rfl

theorem usable_answered (results : List Ranked) : Usable (.answered results) := ⟨rfl, rfl⟩

/-- A search goes on if it can go on with each of its outcomes. -/
theorem failureOf?_eq_none {outcomes : List Outcome}
    (usable : ∀ outcome ∈ outcomes, Usable outcome) :
    failureOf? outcomes = none := by
  have htold : outcomes.any isUntold = false :=
    List.any_eq_false.2 fun outcome hmem => Bool.eq_false_iff.1 (usable outcome hmem).told
  have hsettles : outcomes.any isStalled = false :=
    List.any_eq_false.2 fun outcome hmem => Bool.eq_false_iff.1 (usable outcome hmem).settles
  rw [failureOf?, htold, hsettles]
  rfl

/-- The state without its cache. -/
def uncached (h : Hybrid) : Hybrid := { h with cache := .empty (some 0) }

/-- Without the cache, a call that is not given up is answered afresh, if its glob is taken. -/
theorem Steady.search_uncached {h : Hybrid} (c : Catalog) {settings : Settings}
    (steady : h.Steady settings.deadlines) (now : Float) {call : Call}
    (accepted : call.filter.Accepted h.globs) {parsed : Query}
    (hparse : Query.parse call.query = .ok parsed) (never : call.cancellation = .never) :
    (h.uncached.search c settings now call).1.1 = .ok (h.freshResponse c settings call parsed) := by
  have hread : readCall call = .ok parsed := by
    rw [readCall, hparse, never]
    rfl
  have hglob : call.filter.normalize.check h.uncached.globs = .ok () := accepted.check_normalize
  have hsteady : h.uncached.Steady settings.deadlines := steady
  obtain ⟨f, hf | hf, -⟩ | ⟨parsed', hparse', ⟨e, he, -⟩ | ⟨-, hstart⟩⟩ :=
    hsteady.start_cases c now call
  · rw [hread] at hf
    cases hf
  · rw [hglob] at hf
    cases hf
  · cases he
  · obtain rfl := Except.ok.inj (hparse'.symm.trans hparse)
    have hgoes : failureOf? ((h.uncached.pendingOf c settings call parsed').outcomes.map (·.2)) =
        none := by
      refine failureOf?_eq_none fun outcome hmem => ?_
      obtain ⟨asked, hasked, rfl⟩ := List.mem_map.1 hmem
      obtain ⟨s, -, rfl⟩ := List.mem_map.1 hasked
      exact usable_answered _
    rw [search]
    simp only [hstart, finish]
    rw [show (h.uncached.pendingOf c settings call parsed').cancellation = .never from never]
    simp only [Cancellation.race, hgoes]
    rfl

end Hybrid

/-- The settings without what weights and methods set. -/
def Settings.base (s : Settings) : Settings := { s with weights := .all 0, enabled := .all false }

namespace Hybrid

/-- What a search comes to depends on the catalog as it is read, on the behaviour of the providers,
on how globs are read, on the settings and on what is asked for. -/
theorem freshResponse_congr {h h' : Hybrid} (behaviour : h'.behaviour = h.behaviour)
    (globs : h'.globs = h.globs) {c c' : Catalog}
    (alike : c'.Alike c) {settings settings' : Settings} (base : settings'.base = settings.base)
    (active : h'.active settings' = h.active settings)
    (weights : ∀ (k : Float) rankings, Fusion.fuse settings'.weights k rankings =
      Fusion.fuse settings.weights k rankings)
    {call call' : Call} (query : call'.query = call.query) (bound : call'.bound = call.bound)
    (passes : c.index.passes h.globs call'.filter.normalize =
      c.index.passes h.globs call.filter.normalize)
    (parsed : Query) :
    (h'.freshResponse c' settings' call' parsed).results =
      (h.freshResponse c settings call parsed).results ∧
      (h'.freshResponse c' settings' call' parsed).degraded =
        (h.freshResponse c settings call parsed).degraded ∧
      (h'.freshResponse c' settings' call' parsed).counts =
        (h.freshResponse c settings call parsed).counts := by
  have htuning : settings'.base.tuning = settings.base.tuning := by rw [base]
  have hconstant : settings'.base.fusionConstant = settings.base.fusionConstant := by rw [base]
  have hcandidates : settings'.base.candidates call'.bound =
      settings.base.candidates call.bound := by
    rw [base, bound]
  change settings'.tuning = settings.tuning at htuning
  change settings'.fusionConstant = settings.fusionConstant at hconstant
  change settings'.candidates call'.bound = settings.candidates call.bound at hcandidates
  have hrequest : h'.requestOf c' settings' call' parsed =
      { h.requestOf c settings call parsed with settings := settings' } := by
    rw [requestOf, requestOf, query, hcandidates, alike.passes_eq, globs, passes]
  have houtcomes : (h'.pendingOf c' settings' call' parsed).outcomes =
      (h.pendingOf c settings call parsed).outcomes := by
    have hlist : ∀ s, h'.list c' (h'.requestOf c' settings' call' parsed) s =
        h.list c (h.requestOf c settings call parsed) s := by
      intro s
      rw [hrequest, list_congr behaviour alike]
      exact (h.list_settings c (h.requestOf c settings call parsed) htuning.symm s).symm
    simp only [pendingOf, active, hlist]
  refine ⟨?_, ?_, ?_⟩
  · simp only [freshResponse, respond, houtcomes]
    simp only [pendingOf, weights, hconstant, bound, alike.passes_eq, globs, passes]
  · simp only [freshResponse, respond, houtcomes]
  · simp only [freshResponse, respond, houtcomes]

end Hybrid
end Quarry
