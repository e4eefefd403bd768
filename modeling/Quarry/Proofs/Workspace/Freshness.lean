import Quarry.Proofs.Query.Blanks
import Quarry.Proofs.Workspace.Failing

/-! Cached answers of a workspace whose only provider is the ranker over the index. Versions of its
index go up whenever its documents change, and a rebuild puts in an index of a later version, so
that no version is that of two catalogs that are read differently. An answer from the cache is then
what the same search comes to without it, in whatever order searches are begun and finished while
the documents change. -/

namespace Quarry

/-- The ranker over the index looks at the tree of a query and not at its text. -/
theorem Provider.list_index_query (c : Catalog) (s : Source) (r : Request) (query : Text) :
    Provider.index.list c s { r with query } = Provider.index.list c s r := by
  have hlist : ∀ r : Request, Provider.index.list c s r = rankIndex c s r := by
    intro r
    rw [list, unasked, run]
    rfl
  rw [hlist, hlist, rankIndex, rankIndex]

namespace Hybrid

/-- All sources that there are rank over the index. -/
def RanksIndex (h : Hybrid) : Prop := ∀ s p, h.behaviour.get s = some p → p = .index

theorem RanksIndex.list_eq {h : Hybrid} (ranks : h.RanksIndex) (c : Catalog) (r : Request)
    (query : Text) (s : Source) : h.list c { r with query } s = h.list c r s := by
  have hlist : ∀ p, h.behaviour.get s = some p → p.list c s { r with query } = p.list c s r := by
    intro p hp
    rw [ranks s p hp]
    exact Provider.list_index_query c s r query
  exact congrArg (·.getD []) (Option.map_congr hlist)

/-- How a query is put plays no part in the response to it but that the response tells it. -/
theorem RanksIndex.freshResponse_eq {h : Hybrid} (ranks : h.RanksIndex) (c : Catalog)
    (settings : Settings) (call : Call) (query : Text) (parsed : Query) :
    h.freshResponse c settings { call with query } parsed =
      { h.freshResponse c settings call parsed with query } := by
  have hlist : ∀ s, h.list c (h.requestOf c settings { call with query } parsed) s =
      h.list c (h.requestOf c settings call parsed) s :=
    ranks.list_eq c (h.requestOf c settings call parsed) query
  simp only [freshResponse, pendingOf, hlist]
  rfl

/-- What an entry of the cache says is what the call that it is for comes to without the cache. -/
theorem RanksIndex.uncached {h : Hybrid} (ranks : h.RanksIndex) {c : Catalog} {settings : Settings}
    {e : Cache.Entry Response} (backed : h.Backed c settings.base e)
    (steady : h.Steady settings.deadlines) (injective : Function.Injective h.digest)
    (bounded : settings.Bounded) {call : Call} (exact : call.Exact) {parsed : Query}
    (hparse : Query.parse call.query = .ok parsed)
    (key : e.key = (h.pendingOf c settings call parsed).key) (version : e.version = c.index.version)
    (now : Float) :
    ∃ fresh, (h.uncached.search c settings now { call with cancellation := .never }).1.1 =
      .ok fresh ∧ fresh.results = e.response.results ∧ fresh.degraded = e.response.degraded ∧
      fresh.counts = e.response.counts := by
  obtain ⟨hblanks, fresh, hfresh, hresults, hdegraded, hcounts⟩ :=
    backed.uncached steady injective bounded exact key version now
  -- The entry was made from a query that may have other blanks, and that is parsed to the same
  -- tree.
  have hsame : Query.parse e.response.query = .ok parsed :=
    Query.parse_of_blanks hblanks.symm hparse
  have haccepted : call.filter.Accepted h.globs := backed.accepted injective key version
  let put : Call := { call with cancellation := .never }
  have hput : put.filter.Accepted h.globs := haccepted
  have hother : { put with query := e.response.query }.filter.Accepted h.globs := haccepted
  rw [steady.search_uncached c now hother hsame rfl] at hfresh
  obtain rfl := Except.ok.inj hfresh
  rw [ranks.freshResponse_eq c settings put e.response.query parsed] at hresults hdegraded hcounts
  exact ⟨_, steady.search_uncached c now hput hparse rfl, hresults, hdegraded, hcounts⟩

end Hybrid

namespace Catalog

theorem Advances.refl (c : Catalog) : c.Advances c := .inl ⟨.refl c, rfl⟩

theorem Advances.trans {c c' c'' : Catalog} (h : c.Advances c') (h' : c'.Advances c'') :
    c.Advances c'' := by
  rcases h with ⟨alike, hversion⟩ | hlt
  · rcases h' with ⟨alike', hversion'⟩ | hlt'
    · exact .inl ⟨alike'.trans alike, hversion'.trans hversion⟩
    · exact .inr (hversion ▸ hlt')
  · exact .inr (lt_of_lt_of_le hlt h'.le)

/-- A catalog that has kept its version is read as before. -/
theorem Advances.alike {c c' : Catalog} (h : c.Advances c')
    (version : c.index.version = c'.index.version) :
    c.Alike c' := by
  rcases h with ⟨alike, -⟩ | hlt
  · exact alike.symm
  · exact absurd version hlt.ne

end Catalog

/-- The tasks of a service that is set up: documents change, and searches are limited by doubles. -/
def Task.Routine : Task → Prop
  | .configureWeights _ | .configureMethods _ | .setProvider _ _ => False
  | .begin _ q => q.call.Exact
  | _ => True

theorem Task.Routine.spares {task : Task} (h : task.Routine) (source : Source) :
    task.Spares source := by
  cases task with
  | setProvider s p => exact h.elim
  | add _ | remove _ | rebuild | configureWeights _ | configureMethods _ | begin _ _ | finish _ _
  | readPostings _ | readVocabulary => trivial

namespace Workspace

/-- A workspace over a store and a catalog with the ranker over the index alone, and an
empty cache. -/
def opened {σ : Type} (store : σ) (catalog : Catalog) (settings : Settings)
    (snapshot : Option SnapshotFile) (digest : Text → Text) (globs : GlobReader) : Workspace σ :=
  { new store settings none none snapshot digest globs with catalog }

end Workspace

namespace Session

variable {σ : Type} [DocumentStore σ]

theorem allowsAll_of_routine {tasks : List Task} (routine : ∀ task ∈ tasks, task.Routine)
    (s : Session σ) :
    s.AllowsAll tasks := by
  induction tasks generalizing s with
  | nil => trivial
  | cons task rest ih =>
    obtain ⟨htask, hrest⟩ := List.forall_mem_cons.1 routine
    refine ⟨?_, ih hrest _⟩
    cases task with
    | setProvider source p => exact htask.elim
    | begin now q => exact htask
    | add _ | remove _ | rebuild | configureWeights _ | configureMethods _ | finish _ _
    | readPostings _ | readVocabulary => trivial

/-- Each task leaves the catalog as it is read, or takes it to a later version. -/
theorem advances_step {s : Session σ} {base : Settings} (t : s.Transparent base) (task : Task) :
    s.workspace.catalog.Advances (s.step task).workspace.catalog := by
  obtain ⟨docs, hdocs⟩ := t.holds
  cases task with
  | add values =>
    obtain ⟨store, ds, heq⟩ := s.workspace.exists_add_eq values
    rw [step, heq]
    exact hdocs.advances_addAll ds
  | remove id =>
    rw [step]
    rcases s.workspace.remove_cases id with heq | ⟨store, heq⟩
    · rw [heq]
      exact .refl _
    · rw [heq]
      exact hdocs.advances_remove id
  | rebuild =>
    rw [workspace_step_rebuild]
    rcases s.workspace.rebuild_cases with ⟨f, -, heq⟩ | ⟨result, ds, -, heq⟩
    · rw [heq]
      exact .refl _
    · rw [heq]
      exact .inr (s.workspace.catalog.version_lt_rebuilt ds)
  | configureWeights j | configureMethods j =>
    simp only [step, Workspace.configureWeights, Workspace.configureMethods, Workspace.configure]
    split <;> exact .refl _
  | setProvider source p => cases p <;> exact .refl _
  | begin now q => exact .refl _
  | finish n now =>
    rw [step]
    cases s.unfinished[n]? with
    | none => exact .refl _
    | some u =>
      simp only [Workspace.endSearch]
      cases u.search.started <;> exact .refl _
  | readPostings term => exact hdocs.advances_withIndex (hdocs.index.readPostings term)
  | readVocabulary => exact hdocs.advances_withIndex hdocs.index.readVocabulary

theorem advances_run {s : Session σ} {base : Settings} (t : s.Transparent base)
    {tasks : List Task} (allowed : s.AllowsAll tasks) :
    s.workspace.catalog.Advances (s.run tasks).workspace.catalog := by
  induction tasks generalizing s with
  | nil => exact .refl _
  | cons task rest ih => exact (advances_step t task).trans (ih (t.step task allowed.1) allowed.2)

section

variable (store : σ) {catalog : Catalog} {docs : Documents} (holds : catalog.Holds docs)
  {settings : Settings}
  (bounded : settings.Bounded) (snapshot : Option SnapshotFile) {digest : Text → Text}
  (injective : Function.Injective digest) (globs : GlobReader) {tasks : List Task}
  (routine : ∀ task ∈ tasks, task.Routine)

include holds bounded injective in
theorem transparent_opened :
    Transparent ⟨Workspace.opened store catalog settings snapshot digest globs, []⟩
      settings.base := by
  have t : Transparent ⟨Workspace.new store settings none none snapshot digest globs, []⟩
      settings.base := transparent_new store bounded (by simp) (by simp) snapshot injective globs
  exact ⟨⟨docs, holds⟩, Hybrid.transparent_of_nil t.hybrid.steady t.hybrid.injective rfl _,
    t.settings, bounded, by simp⟩

include routine in
theorem ranksIndex_run : (run ⟨Workspace.opened store catalog settings snapshot digest globs, []⟩
    tasks).workspace.hybrid.RanksIndex := by
  intro s p hp
  have hretains := retains_run ⟨Workspace.opened store catalog settings snapshot digest globs, []⟩
    fun task htask => (routine task htask).spares s
  rw [hretains.behaviour] at hp
  cases s with
  | bm25 => exact (Option.some.inj hp).symm
  | semantic | fuzzy => cases hp

include holds bounded injective routine in
/-- A search that is answered from the cache as it begins, among any tasks and whenever it is
finished, gets what the same search comes to without the cache, begun and finished at that moment.
Two moments at which the index has the same version have catalogs that are read alike. -/
theorem cached_search_fresh :
    let start : Session σ := ⟨Workspace.opened store catalog settings snapshot digest globs, []⟩
    let w := (start.run tasks).workspace
    (∀ (now : Float) (q : Inquiry), q.call.Exact → ∀ (w' : Workspace σ) (ix : Index) (now' : Float)
      (found : Found) (mode : Mode) (r : Response),
      (w'.endSearch ix now' (w.beginSearch now q).1.1).answer = .ok found →
      found.answer = .hybrid mode r → r.cached = true →
      ∃ fresh, (w.hybrid.uncached.search w.catalog w.settings.current now
          { q.call with cancellation := .never }).1.1 = .ok fresh ∧
        fresh.results = r.results ∧ fresh.degraded = r.degraded ∧ fresh.counts = r.counts) ∧
    ∀ before after, tasks = before ++ after →
      (start.run before).workspace.catalog.index.version = w.catalog.index.version →
      (start.run before).workspace.catalog.Alike w.catalog := by
  intro start w
  have tstart : start.Transparent settings.base :=
    transparent_opened store holds bounded snapshot injective globs
  have t : (start.run tasks).Transparent settings.base :=
    tstart.run (allowsAll_of_routine routine start)
  refine ⟨fun now q exact w' ix now' found mode r answer hybrid cached => ?_,
    fun before after hsplit hversion => ?_⟩
  · obtain ⟨parsed, hparse, e, he, hkey, hversion, rfl⟩ :=
      w.exists_entry_of_endSearch t.steady answer hybrid cached
    have hbacked : w.hybrid.Backed w.catalog w.settings.current.base e := by
      rw [t.settings]
      exact t.hybrid.backed e he
    have hranks : w.hybrid.RanksIndex := ranksIndex_run store snapshot globs routine
    exact hranks.uncached hbacked t.steady t.hybrid.injective t.bounded exact hparse
      hkey hversion now
  · have hbefore : ∀ task ∈ before, task.Routine := fun task htask =>
      routine task (hsplit ▸ List.mem_append_left _ htask)
    have hafter : ∀ task ∈ after, task.Routine := fun task htask =>
      routine task (hsplit ▸ List.mem_append_right _ htask)
    have hmid := tstart.run (allowsAll_of_routine hbefore start)
    have hadvances := advances_run hmid (allowsAll_of_routine hafter _)
    have hrun : ((start.run before).run after) = start.run tasks := by
      rw [hsplit, run, run, run, List.foldl_append]
    rw [hrun] at hadvances
    exact hadvances.alike hversion

end

/-- A query is put, a document that is not there is removed, and the query is put again without its
blank. -/
theorem cached_search_fresh_blanks :
    let tasks :=
      [.add [documentJson "a" "b"], .begin 0 (hybridInquiry " b"), .remove "c", .finish 0 0]
    let start : Session MemoryStore :=
      ⟨Workspace.opened MemoryStore.empty (.empty 0) .default none id .literal, []⟩
    let w := (start.run tasks).workspace
    (∃ found mode r, (w.search 0 (hybridInquiry "b")).answer = .ok found ∧
      found.answer = .hybrid mode r ∧ r.cached = true ∧
      ∃ fresh, (w.hybrid.uncached.search w.catalog w.settings.current 0
        (hybridInquiry "b").call).1.1 = .ok fresh ∧
        fresh.results = r.results ∧ fresh.degraded = r.degraded ∧ fresh.counts = r.counts) ∧
    (start.run (tasks.take 2)).workspace.catalog.Alike w.catalog := by
  intro tasks start w
  have hbounded : Settings.default.Bounded := by
    intro source
    cases source <;> decide +kernel
  have hexact : ∀ query, (hybridInquiry query).call.Exact :=
    fun _ n hn => absurd hn (by simp [hybridInquiry])
  have hroutine : ∀ task ∈ tasks, task.Routine := by
    simp only [tasks, List.forall_mem_cons, List.not_mem_nil, false_implies, implies_true, and_true]
    exact ⟨trivial, hexact _, trivial, trivial⟩
  obtain ⟨hcachedFresh, hversion⟩ := cached_search_fresh MemoryStore.empty (Catalog.holds_empty 0)
    hbounded none Function.injective_id .literal hroutine
  obtain ⟨found, mode, r, hanswer, hhybrid, hcached⟩ :=
    exists_of_isCached (show isCached (w.search 0 (hybridInquiry "b")).answer =
      true by decide +kernel)
  refine ⟨⟨found, mode, r, hanswer, hhybrid, hcached,
    hcachedFresh 0 _ (hexact _) _ _ 0 found mode r hanswer hhybrid hcached⟩, ?_⟩
  exact hversion (tasks.take 2) (tasks.drop 2) rfl (by decide +kernel)

end Session
end Quarry
