import Quarry.Proofs.Fallible
import Quarry.Proofs.Search.Failing
import Quarry.Proofs.Workspace.Transparency

/-! What makes a search of a workspace fail: its query, its caller, a reason that cannot be told, or
a stored document that cannot be read when an excerpt of it is wanted. Nothing else does, whatever
the sources do and whatever was asked of the workspace before. -/

namespace Quarry

/-! ### The ranker over the index -/

namespace Hybrid

/-- Of the state `h` the state `h'` has the provider of a source, and how globs are read. -/
structure Retains (h : Hybrid) (s : Source) (h' : Hybrid) : Prop where
  behaviour : h'.behaviour.get s = h.behaviour.get s
  globs : h'.globs = h.globs

theorem Retains.refl (h : Hybrid) (s : Source) : h.Retains s h := ⟨rfl, rfl⟩

theorem Retains.trans {h h' h'' : Hybrid} {s : Source} (r : h.Retains s h')
    (r' : h'.Retains s h'') :
    h.Retains s h'' :=
  ⟨r'.behaviour.trans r.behaviour, r'.globs.trans r.globs⟩

theorem Keeps.retains {h h' : Hybrid} (k : h.Keeps h') (s : Source) : h.Retains s h' :=
  ⟨congrArg (·.get s) k.behaviour, k.globs⟩

theorem retains_register (h : Hybrid) {s s' : Source} (hne : s ≠ s') (p : Provider) :
    h.Retains s' (h.register s p) :=
  ⟨by rw [get_behaviour, register, PerSource.get_set, if_neg hne, get_behaviour], rfl⟩

theorem retains_unregister (h : Hybrid) {s s' : Source} (hne : s ≠ s') :
    h.Retains s' (h.unregister s) := by
  rw [unregister]
  split
  · exact ⟨by rw [get_behaviour, PerSource.get_set, if_neg hne, get_behaviour], rfl⟩
  · exact .refl h s'

end Hybrid

namespace Dispatch

theorem keeps_start (h : Hybrid) (c : Catalog) (settings : Settings) (now : Float) (mode : Mode)
    (call : Call) : h.Keeps (start h c settings now mode call).2 := by
  rcases start_cases h c settings now mode call with ⟨hsymbols, -⟩ | hhybrid | ⟨wanted, hsource⟩
  · rw [hsymbols]
    exact .refl h
  · have hkeeps := h.keeps_start c settings now call
    rw [hhybrid, startHybrid]
    generalize h.start c settings now call = started at hkeeps ⊢
    obtain ⟨⟨started, notes⟩, h'⟩ := started
    cases started <;> exact hkeeps
  · rw [hsource, startSource]
    generalize (if h.isAvailable wanted then wanted else .bm25) = target
    have hkeeps := Hybrid.keeps_startSource h c settings target call
    generalize h.startSource c settings target call = started at hkeeps ⊢
    obtain ⟨started, h'⟩ := started
    cases started <;> exact hkeeps

theorem retains_finish (h : Hybrid) (s : Source) (ix : Index) (now : Float) (waiting : Waiting) :
    h.Retains s (finish h ix now waiting).2 := by
  cases waiting with
  | source mode narrowed p => exact (Hybrid.keeps_finishSource h ix p).retains s
  | hybrid mode p =>
    obtain ⟨hbehaviour, -, hglobs, -⟩ := Hybrid.finish_cases h ix now p
    exact ⟨congrArg (·.get s) hbehaviour, hglobs⟩

end Dispatch

/-- A task that leaves the provider of a source in its place. -/
def Task.Spares (source : Source) : Task → Prop
  | .setProvider s _ => s ≠ source
  | _ => True

/-- A task that leaves the ranker over the index in its place: only the other sources change. -/
def Task.SparesIndex : Task → Prop
  | .setProvider s _ => s ≠ .bm25
  | _ => True

theorem Task.SparesIndex.spares {task : Task} (h : task.SparesIndex) : task.Spares .bm25 := by
  cases task <;> exact h

namespace Workspace

theorem retains_setProvider {σ : Type} (w : Workspace σ) {s s' : Source} (hne : s ≠ s')
    (p : Option Provider) : w.hybrid.Retains s' (w.setProvider s p).hybrid := by
  cases p with
  | none => exact w.hybrid.retains_unregister hne
  | some p => exact w.hybrid.retains_register hne p

theorem retains_rebuild {σ : Type} [DocumentStore σ] (w : Workspace σ) (s : Source) :
    w.hybrid.Retains s w.rebuild.workspace.hybrid := by
  rcases w.rebuild_cases with ⟨f, -, heq⟩ | ⟨result, docs, -, heq⟩
  · rw [heq]
    exact .refl _ _
  · rw [heq]
    exact ⟨rfl, rfl⟩

/-- A new workspace has a ranker over its index, and reads globs as it was told to. -/
theorem hybrid_new {σ : Type} (store : σ) (settings : Settings) (semantic fuzzy : Option Provider)
    (snapshot : Option SnapshotFile) (digest : Text → Text) (globs : GlobReader) :
    let w := new store settings semantic fuzzy snapshot digest globs
    w.hybrid.behaviour.get .bm25 = some .index ∧ w.hybrid.globs = globs := by
  intro w
  let first : Workspace σ :=
    { store, catalog := .empty 0, settings := .start settings, snapshot
      hybrid := (Hybrid.empty (cacheBound settings) digest globs).register .bm25 .index }
  have hsemantic : first.hybrid.Retains .bm25 (first.setProvider .semantic semantic).hybrid :=
    retains_setProvider first (by decide) semantic
  have hboth := hsemantic.trans (retains_setProvider _ (by decide : Source.fuzzy ≠ .bm25) fuzzy)
  exact ⟨hboth.behaviour, hboth.globs⟩

end Workspace

namespace Session

variable {σ : Type} [DocumentStore σ]

theorem retains_step (s : Session σ) {source : Source} {task : Task} (spares : task.Spares source) :
    s.workspace.hybrid.Retains source (s.step task).workspace.hybrid := by
  cases task with
  | add values =>
    obtain ⟨store, docs, heq⟩ := s.workspace.exists_add_eq values
    rw [step, heq]
    exact .refl _ _
  | remove id =>
    rw [step]
    rcases s.workspace.remove_cases id with heq | ⟨store, heq⟩ <;> rw [heq] <;> exact .refl _ _
  | rebuild =>
    rw [workspace_step_rebuild]
    exact s.workspace.retains_rebuild source
  | configureWeights j | configureMethods j =>
    simp only [step, Workspace.configureWeights, Workspace.configureMethods, Workspace.configure]
    split <;> exact .refl _ _
  | setProvider other p => exact s.workspace.retains_setProvider spares p
  | begin now q => exact (Dispatch.keeps_start _ _ _ now q.mode q.call).retains source
  | finish n now =>
    rw [step]
    cases s.unfinished[n]? with
    | none => exact .refl _ _
    | some u =>
      simp only [Workspace.endSearch]
      cases u.search.started with
      | decided answer => exact .refl _ _
      | pending waiting => exact Dispatch.retains_finish _ source _ now waiting
  | readPostings term | readVocabulary => exact .refl _ _

/-- A source keeps its provider over tasks that leave it. -/
theorem retains_run (s : Session σ) {source : Source} {tasks : List Task}
    (spares : ∀ task ∈ tasks, task.Spares source) :
    s.workspace.hybrid.Retains source (s.run tasks).workspace.hybrid := by
  induction tasks generalizing s with
  | nil => exact .refl _ _
  | cons task rest ih =>
    obtain ⟨htask, hrest⟩ := List.forall_mem_cons.1 spares
    exact (s.retains_step htask).trans (ih (s.step task) hrest)

end Session

namespace Workspace

variable {σ : Type} [DocumentStore σ] {w : Workspace σ}

/-! ### Workspaces that are reached -/

/-- What a workspace becomes by any tasks that leave the ranker over the index in its place, and by
loading, saving and closing in between. Searches that are finished may have begun anywhere. -/
inductive Reaches (start : Workspace σ) : Workspace σ → Prop
  | refl : Reaches start start
  | task {w : Workspace σ} (reaches : Reaches start w) (unfinished : List Unfinished) {task : Task}
      (spares : task.SparesIndex) : Reaches start (Session.step ⟨w, unfinished⟩ task).workspace
  | load {w : Workspace σ} (reaches : Reaches start w) : Reaches start w.load.workspace
  | persist {w : Workspace σ} (reaches : Reaches start w) : Reaches start w.persist.workspace
  | close {w : Workspace σ} (reaches : Reaches start w) : Reaches start w.close.workspace

theorem retains_takeUp (w : Workspace σ) (r : Snapshot.Restored) (s : Source) :
    w.hybrid.Retains s (w.takeUp r).workspace.hybrid := by
  rw [takeUp]
  split
  · exact ⟨rfl, rfl⟩
  · cases catalogWith (catalogOf r.index) _ <;> exact ⟨rfl, rfl⟩

theorem retains_load (w : Workspace σ) (s : Source) :
    w.hybrid.Retains s w.load.workspace.hybrid := by
  rw [load]
  generalize w.loadSnapshot = loaded
  obtain ⟨restored, notes⟩ := loaded
  rcases restored with f | _ | r
  · exact .refl _ _
  · exact w.retains_rebuild s
  · exact w.retains_takeUp r s

omit [DocumentStore σ] in
theorem hybrid_persist (w : Workspace σ) : w.persist.workspace.hybrid = w.hybrid := by
  rw [persist]
  cases w.snapshot with
  | none => rfl
  | some file =>
    simp only
    cases file.state <;> rfl

theorem hybrid_close (w : Workspace σ) : w.close.workspace.hybrid = w.hybrid := by
  rw [close]
  cases hsaved : w.persist.answer with
  | error f => exact w.hybrid_persist
  | ok _ =>
    simp only
    cases DocumentStore.close w.persist.workspace.store <;> exact w.hybrid_persist

/-- Whatever is done to a workspace, the ranker over the index stays in its place. -/
theorem Reaches.retains {start : Workspace σ} (reaches : start.Reaches w) :
    start.hybrid.Retains .bm25 w.hybrid := by
  induction reaches with
  | refl => exact .refl _ _
  | task _ unfinished spares ih =>
    exact ih.trans (Session.retains_step ⟨_, unfinished⟩ spares.spares)
  | load _ ih => exact ih.trans (retains_load _ _)
  | persist _ ih =>
    rw [hybrid_persist]
    exact ih
  | close _ ih =>
    rw [hybrid_close]
    exact ih

/-! ### Excerpts -/

/-- A stored document that is ranked, and cannot be read when an excerpt of it is wanted. -/
def Unreadable (w : Workspace σ) (q : Inquiry) (f : Failure) : Prop :=
  q.excerpts = true ∧ ∃ id, DocumentStore.get w.store id = .error f

theorem get_of_excerptFor_error {settings : Settings} {parsed : Query} {id : DocId} {f : Failure}
    (h : w.excerptFor settings parsed id = .error f) : DocumentStore.get w.store id = .error f := by
  rw [excerptFor] at h
  cases hget : DocumentStore.get w.store id with
  | error f' =>
    rw [hget] at h
    cases h
    rfl
  | ok found =>
    rw [hget] at h
    cases found <;> cases h

/-- Excerpts fail by the query, or by a document that cannot be read. -/
theorem withExcerpts_error {settings : Settings} {q : Inquiry} {answer : Answer} {f : Failure}
    (h : w.withExcerpts settings q answer = .error f) : f.Owed q.call ∨ w.Unreadable q f := by
  rw [withExcerpts.eq_def] at h
  split at h
  case isFalse => cases h
  case isTrue hexcerpts =>
    split at h
    · cases h
    all_goals
      cases hparse : Query.parse q.call.query with
      | error e =>
        rw [hparse] at h
        cases h
        exact .inl hparse
      | ok parsed =>
        simp only [hparse] at h
        generalize hmap : (Answer.rankedIds _).mapM (w.excerptFor settings parsed) = excerpts at h
        cases excerpts with
        | ok es => cases h
        | error f' =>
          cases h
          obtain ⟨id, -, hid⟩ := exists_of_mapM_error hmap
          exact .inr ⟨hexcerpts, id, get_of_excerptFor_error hid⟩

/-- A search whose glob is taken, and that begins in a workspace with a ranker over the index and
with a deadline for each source that may hang, comes to an answer in any workspace that it finishes
in, unless it fails by its query, by its caller, by a reason that cannot be told, or by a document
that cannot be read. -/
theorem answer_endSearch (timed : w.hybrid.Timed w.settings.current)
    (available : w.hybrid.isAvailable .bm25 = true) (now : Float) {q : Inquiry}
    (accepted : q.call.filter.Accepted w.hybrid.globs) (w' : Workspace σ) (ix : Index)
    (now' : Float) :
    let answer := (w'.endSearch ix now' (w.beginSearch now q).1.1).answer
    (∃ found, answer = .ok found) ∨
      ∃ f, answer = .error f ∧ (w.hybrid.Due q.call f ∨ w'.Unreadable q f) := by
  have hopens := Dispatch.opens_start timed available w.catalog now q.mode accepted
  have hbind : ∀ (v : Workspace σ) (a : Except Failure Answer), v.store = w'.store →
      (∀ f, a = .error f → w.hybrid.Due q.call f) →
      (∃ found, a.bind (v.withExcerpts w.settings.current q) = .ok found) ∨
        ∃ f, a.bind (v.withExcerpts w.settings.current q) = .error f ∧
          (w.hybrid.Due q.call f ∨ w'.Unreadable q f) := by
    intro v a hstore hdue
    cases a with
    | error f => exact .inr ⟨f, rfl, .inl (hdue f rfl)⟩
    | ok answer =>
      cases hexcerpts : v.withExcerpts w.settings.current q answer with
      | ok found => exact .inl ⟨found, hexcerpts⟩
      | error f =>
        have hfails := withExcerpts_error hexcerpts
        rw [Unreadable, hstore] at hfails
        exact .inr ⟨f, hexcerpts, hfails.imp_left .inl⟩
  simp only [beginSearch, endSearch]
  cases hstarted : (Dispatch.start w.hybrid w.catalog w.settings.current now q.mode q.call).1.1 with
  | decided a =>
    refine hbind w' a rfl fun f hf => hopens.decided f ?_
    rw [hstarted, hf]
  | pending waiting =>
    have hends := hopens.pending waiting hstarted
    exact hbind _ _ rfl fun f hf => hends.due_finish hf

end Workspace

/-! ### Sessions -/

namespace Session

/-- In a workspace to which anything was done, a search in any mode whose glob is taken, over
sources that answer, fail or hang, comes to an answer, whatever becomes of the workspace until it is
finished. It fails only by its query, because its caller gives it up, by a reason of its caller or
of a source that has no text, or, when excerpts are wanted, by the failure of a read of
the store. -/
theorem search_ends {σ : Type} [DocumentStore σ] (store : σ) (settings : Settings)
    (semantic fuzzy : Option Provider) (snapshot : Option SnapshotFile) (digest : Text → Text)
    (globs : GlobReader) {w : Workspace σ}
    (reaches : (Workspace.new store settings semantic fuzzy snapshot digest globs).Reaches w)
    (timed : w.hybrid.Timed w.settings.current) (now : Float) {q : Inquiry}
    (accepted : q.call.filter.Accepted globs) (w' : Workspace σ) (ix : Index) (now' : Float) :
    let answer := (w'.endSearch ix now' (w.beginSearch now q).1.1).answer
    (∃ found, answer = .ok found) ∨ ∃ f, answer = .error f ∧
      (f.Owed q.call ∨ f = .textless ∧ w.hybrid.Untold q.call ∨
        q.excerpts = true ∧ ∃ id, DocumentStore.get w'.store id = .error f) := by
  obtain ⟨hranker, hglobs⟩ :=
    Workspace.hybrid_new store settings semantic fuzzy snapshot digest globs
  have available : w.hybrid.isAvailable .bm25 = true := by
    rw [Hybrid.isAvailable_eq_isSome, reaches.retains.behaviour, hranker]
    rfl
  rw [← hglobs, ← reaches.retains.globs] at accepted
  refine (Workspace.answer_endSearch timed available now accepted w' ix now').imp_right ?_
  rintro ⟨f, hanswer, hdue | hunreadable⟩
  · exact ⟨f, hanswer, hdue.imp_right .inl⟩
  · exact ⟨f, hanswer, .inr (.inr hunreadable)⟩

/-- A provider that never settles. -/
def mute : Provider := .backend (.ofFunction fun _ _ => .hangs)

def documentJson (id text : Text) : Json :=
  .object [("id", .text id), ("text", .text text), ("fields", .object [])]

/-- A search with excerpts ends, over a source that hangs and has a deadline, in a workspace that
was loaded. -/
theorem search_ends_mute :
    let start := Workspace.new MemoryStore.empty .default (some mute) none none id .literal
    let w := (step ⟨start, []⟩ (.add [documentJson "a" "b"])).workspace.load.workspace
    let q : Inquiry := ⟨.hybrid, ⟨"b", .none, none, .never⟩, true⟩
    let answer := (w.endSearch w.catalog.index 0 (w.beginSearch 0 q).1.1).answer
    (∃ found, answer = .ok found) ∨ ∃ f, answer = .error f ∧
      (f.Owed q.call ∨ f = .textless ∧ w.hybrid.Untold q.call ∨
        q.excerpts = true ∧ ∃ id, DocumentStore.get w.store id = .error f) := by
  intro start w q
  have hreaches : start.Reaches w := .load (.task .refl [] trivial)
  have hsettings : w.settings = start.settings := by
    obtain ⟨store, docs, heq⟩ := start.exists_add_eq [documentJson "a" "b"]
    change (start.add _).workspace.load.workspace.settings = _
    rw [heq]
    let added : Workspace MemoryStore :=
      { start with store, catalog := docs.foldl Catalog.add start.catalog }
    change added.rebuild.workspace.settings = _
    rcases added.rebuild_cases with ⟨f, -, hw⟩ | ⟨result, docs', -, hw⟩
    · rw [hw]
    · rw [hw]
      rfl
  have hbehaviour : w.hybrid.behaviour = start.hybrid.behaviour := by
    refine PerSource.eq_of_get fun s => ?_
    have hadded := Session.retains_step ⟨start, []⟩
      (show Task.Spares s (.add [documentJson "a" "b"]) from trivial)
    exact (hadded.trans (Workspace.retains_load _ s)).behaviour
  have htimed : w.hybrid.Timed w.settings.current := by
    rw [Hybrid.Timed, hsettings, hbehaviour]
    intro s p hp
    cases s with
    | bm25 =>
      cases hp
      exact .inl trivial
    | semantic =>
      refine .inr fun hunlimited => ?_
      cases hunlimited
    | fuzzy => cases hp
  exact search_ends MemoryStore.empty .default (some mute) none none id .literal hreaches htimed 0
    Filter.accepted_none w _ 0

def isForeign {α : Type} : Except Failure α → Bool
  | .error (.foreign _) => true
  | _ => false

/-- A ranked document that cannot be read fails the whole search when excerpts are wanted, although
the query is sound and nobody gives the search up. -/
theorem search_fails_of_unreadable :
    let unreadable : Access → Option Failure := fun access =>
      if access = .get "a" then some
        (.foreign (.fault ⟨"Error", "corrupt row a", none, none⟩)) else none
    let start :=
      Workspace.new (⟨∅, unreadable⟩ : MemoryStore) .default (some (always "a")) none none
        id .literal
    let w := (run ⟨start, []⟩ [.add [documentJson "a" "b"]]).workspace
    let q : Inquiry := ⟨.semantic, ⟨"b", .none, none, .never⟩, true⟩
    ∃ f, (w.search 0 q).answer = .error f ∧ ¬f.Owed q.call := by
  intro unreadable start w q
  have hforeign : isForeign (w.search 0 q).answer = true := by decide +kernel
  cases hanswer : (w.search 0 q).answer with
  | ok found =>
    rw [hanswer] at hforeign
    cases hforeign
  | error f =>
    rw [hanswer] at hforeign
    cases f with
    | foreign r => exact ⟨_, rfl, id⟩
    | _ => cases hforeign

end Session
end Quarry
