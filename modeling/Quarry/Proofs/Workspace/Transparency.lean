import Quarry.Proofs.Dispatch
import Quarry.Proofs.Search.Cached
import Quarry.Proofs.Workspace.Session

/-! Sessions keep the cache of hybrid searches transparent: whatever is asked of a workspace, an
entry of its cache that is not past is what a search of its key comes to. Documents that change make
all entries past, and so does a rebuild; a provider that changes empties the cache; weights and
methods are told by the keys. -/

namespace Quarry

namespace Catalog

theorem Holds.advances_addAll {c : Catalog} {docs : Documents} (h : c.Holds docs)
    (ds : List Document) :
    c.Advances (ds.foldl Catalog.add c) := by
  cases ds with
  | nil => exact .inl ⟨.refl c, rfl⟩
  | cons d rest =>
    refine .inr ?_
    rw [version_foldl_add h, List.length_cons]
    omega

theorem Holds.advances_remove {c : Catalog} {docs : Documents} (h : c.Holds docs) (id : DocId) :
    c.Advances (c.remove id) := by
  have hversion := (h.index.remove id).2
  change (c.remove id).index.version = _ at hversion
  rw [Documents.contains_records] at hversion
  cases hcontains : docs.contains id with
  | true =>
    rw [hcontains, if_pos rfl] at hversion
    exact .inr (by omega)
  | false =>
    rw [hcontains, if_neg (by decide), Nat.add_zero] at hversion
    rw [← Std.TreeMap.isSome_getElem?_eq_contains, Option.isSome_eq_false_iff,
      Option.isNone_iff_eq_none] at hcontains
    have hsame : (c.remove id).Holds docs := (h.remove id).congr fun id' => by
      rw [Text.getElem?_erase]
      split
      · rename_i hid
        rw [← hid, hcontains]
      · rfl
    exact .inl ⟨hsame.alike h, hversion⟩

/-- A read of the index keeps its version. -/
theorem Holds.advances_withIndex {c : Catalog} {docs : Documents} (h : c.Holds docs) {ix : Index}
    (read : ix.Represents docs.records ∧ ix.version = c.index.version) :
    c.Advances { c with index := ix } :=
  .inl ⟨(h.withIndex read.1).alike h, read.2⟩

/-- The catalog that a rebuild makes is of a later version, whatever it read. -/
theorem version_lt_rebuilt (c : Catalog) (ds : List Document) :
    c.index.version < (ds.foldl Catalog.add (.empty (c.index.version + 1))).index.version := by
  rw [version_foldl_add (holds_empty _)]
  change _ < c.index.version + 1 + ds.length
  omega

/-- Documents that are all added have been added one by one. -/
theorem foldl_add_of_foldlM {ds : List Document} {c c' : Catalog}
    (h : ds.foldlM Catalog.add? c = some c') :
    c' = ds.foldl Catalog.add c := by
  induction ds generalizing c with
  | nil => exact (Option.some.inj h).symm
  | cons d rest ih =>
    rw [List.foldlM_cons, Option.bind_eq_bind, Option.bind_eq_some_iff] at h
    obtain ⟨next, hnext, hrest⟩ := h
    have hadd : next = c.add d := by
      rw [add?, Index.add?] at hnext
      split at hnext
      · cases hnext
      · exact (Option.some.inj hnext).symm
    rw [ih hrest, hadd, List.foldl_cons]

end Catalog

namespace Workspace

variable {σ : Type} [DocumentStore σ] (w : Workspace σ)

theorem exists_add_eq (values : List Json) : ∃ store, ∃ docs : List Document,
    (w.add values).workspace = { w with store, catalog := docs.foldl Catalog.add w.catalog } := by
  rw [add]
  cases values.mapM Document.read with
  | error f => exact ⟨w.store, [], rfl⟩
  | ok docs =>
    cases docs with
    | nil => exact ⟨w.store, [], rfl⟩
    | cons d rest =>
      simp only [ingest]
      cases DocumentStore.put w.store (d :: rest) with
      | error f => exact ⟨w.store, [], rfl⟩
      | ok store => exact ⟨store, d :: rest, rfl⟩

theorem remove_cases (id : DocId) : (w.remove id).workspace = w ∨
    ∃ store, (w.remove id).workspace = { w with store, catalog := w.catalog.remove id } := by
  rw [remove]
  cases DocumentStore.delete w.store id with
  | error f => exact .inl rfl
  | ok deleted => exact .inr ⟨deleted.2, rfl⟩

/-- A rebuild fails and changes nothing, or puts in place a catalog of a later version. -/
theorem rebuild_cases : (∃ f, w.rebuild.answer = .error f ∧ w.rebuild.workspace = w) ∨
    ∃ result, ∃ docs : List Document, w.rebuild.answer = .ok result ∧
      w.rebuild.workspace = w.swap
        (docs.foldl Catalog.add (.empty (w.catalog.index.version + 1))) := by
  rw [rebuild]
  cases DocumentStore.ids w.store with
  | error f => exact .inl ⟨f, rfl, rfl⟩
  | ok ids =>
    simp only
    split
    · exact .inl ⟨.noReaders, rfl, rfl⟩
    split
    · exact .inl ⟨.textless, rfl, rfl⟩
    · rw [catalogWith]
      cases hmade : (w.readAll ids).documents.foldlM Catalog.add?
        (.empty (w.catalog.index.version + 1)) with
      | none => exact .inl ⟨.unnamed, rfl, rfl⟩
      | some c =>
        obtain rfl := Catalog.foldl_add_of_foldlM hmade
        exact .inr ⟨_, _, rfl, rfl⟩

end Workspace

/-! ### Searches underway -/

theorem Hybrid.keeps_startSource (h : Hybrid) (c : Catalog) (settings : Settings) (s : Source)
    (call : Call) :
    h.Keeps (h.startSource c settings s call).2 := by
  rw [startSource]
  cases Query.parse call.query with
  | error e => exact .refl h
  | ok parsed =>
    simp only
    split
    · exact .refl h
    · cases call.cancellation.check Call.context with
      | error f => exact .refl h
      | ok _ =>
        cases call.filter.normalize.check h.globs with
        | error f => exact .refl h
        | ok _ => exact keeps_runSource h c _ _ s

namespace Dispatch

open Hybrid

/-- What a search begins with: nothing is set in the cache, a cached response is that of an entry
for the key of the call, and a hybrid search that goes on is the one that the call begins. -/
structure Begins (h : Hybrid) (c : Catalog) (settings : Settings) (call : Call)
    (begun : Noted (Started Waiting Answer) × Hybrid) : Prop where
  keeps : h.Keeps begun.2
  cached : ∀ mode r, begun.1.1 = .decided (.ok (.hybrid mode r)) →
    ∃ parsed, Query.parse call.query = .ok parsed ∧ ∃ e ∈ h.cache.entries,
      e.key = (h.pendingOf c settings call parsed).key ∧ e.version = c.index.version ∧
      r = { e.response with cached := true }
  asked : ∀ mode p, begun.1.1 = .pending (.hybrid mode p) →
    call.filter.Accepted h.globs ∧
      ∃ parsed, Query.parse call.query = .ok parsed ∧ p = h.pendingOf c settings call parsed

variable (h : Hybrid) (c : Catalog) (settings : Settings) (mode : Mode) (call : Call)

theorem begins_startSource (wanted : Source) :
    Begins h c settings call (startSource h c settings mode wanted call) := by
  rw [startSource]
  generalize (if h.isAvailable wanted then wanted else .bm25) = target
  have hkeeps := keeps_startSource h c settings target call
  generalize h.startSource c settings target call = started at hkeeps ⊢
  obtain ⟨started, h'⟩ := started
  cases started with
  | decided answer => exact ⟨hkeeps, by cases answer <;> simp [Except.map], by simp⟩
  | pending p => exact ⟨hkeeps, by simp, by simp⟩

variable {h settings} (steady : h.Steady settings.deadlines) (now : Float)
include steady

theorem begins_startHybrid : Begins h c settings call (startHybrid h c settings now mode call) := by
  have hkeeps := h.keeps_start c settings now call
  have hstart := steady.start_cases c now call
  rw [startHybrid]
  generalize h.start c settings now call = started at hkeeps hstart ⊢
  obtain ⟨⟨started, notes⟩, h'⟩ := started
  rcases hstart with ⟨f, -, rfl⟩ | ⟨parsed, hparse, ⟨e, he, hkey, hversion, rfl⟩ | ⟨hglob, rfl⟩⟩
  · exact ⟨hkeeps, by simp [Except.map], by simp⟩
  · refine ⟨hkeeps, fun mode' r hr => ⟨parsed, hparse, e, he, hkey, hversion, ?_⟩, by simp⟩
    simp only [Except.map, Started.decided.injEq, Except.ok.injEq, Answer.hybrid.injEq] at hr
    exact hr.2.symm
  · refine ⟨hkeeps, by simp, fun mode' p hp =>
      ⟨Filter.check_normalize_eq_ok_iff.1 hglob, parsed, hparse, ?_⟩⟩
    simp only [Started.pending.injEq, Waiting.hybrid.injEq] at hp
    exact hp.2.symm

theorem begins_start : Begins h c settings call (start h c settings now mode call) := by
  rcases start_cases h c settings now mode call with ⟨hsymbols, -⟩ | hhybrid | ⟨wanted, hsource⟩
  · rw [hsymbols]
    exact ⟨.refl h, by cases exactSymbols h.globs c call <;> simp [Except.map], by simp⟩
  · rw [hhybrid]
    exact begins_startHybrid c mode call steady now
  · rw [hsource]
    exact begins_startSource h c settings mode call wanted

end Dispatch

namespace Hybrid

theorem keeps_finishSource (h : Hybrid) (ix : Index) (p : PendingSource) :
    h.Keeps (h.finishSource ix p).2 := by
  rw [finishSource]
  cases p.cancellation.race Call.context (.ok ()) with
  | error f => exact .refl h
  | ok _ =>
    simp only
    split
    · exact .refl h
    · exact ⟨rfl, rfl, rfl, fun _ he => he⟩

/-- A search that is finished was not answered by the cache. -/
theorem cached_finish {h : Hybrid} {ix : Index} {now : Float} {p : Pending} {r : Response}
    (answer : (h.finish ix now p).1.1 = .ok r) : r.cached = false := by
  rw [finish] at answer
  cases hrace : p.cancellation.race Call.context (.ok ()) with
  | error f =>
    rw [hrace] at answer
    cases answer
  | ok _ =>
    simp only [hrace] at answer
    split at answer
    · cases answer
    · cases answer
      rfl

end Hybrid

theorem Dispatch.cached_finish {h : Hybrid} {ix : Index} {now : Float} {waiting : Waiting}
    {mode : Mode} {r : Response} (answer : (finish h ix now waiting).1.1 = .ok (.hybrid mode r)) :
    r.cached = false := by
  cases waiting with
  | source mode' narrowed p =>
    simp only [finish] at answer
    cases hsource : (h.finishSource ix p).1.1 <;> simp [hsource, Except.map] at answer
  | hybrid mode' p =>
    simp only [finish] at answer
    cases hhybrid : (h.finish ix now p).1.1 with
    | error f => simp [hhybrid, Except.map] at answer
    | ok r' =>
      simp only [hhybrid, Except.map, Except.ok.injEq, Answer.hybrid.injEq] at answer
      rw [← answer.2]
      exact Hybrid.cached_finish hhybrid

/-! ### Cached answers -/

namespace Workspace

variable {σ : Type} [DocumentStore σ] {w : Workspace σ}

theorem answer_withExcerpts {settings : Settings} {q : Inquiry} {answer : Answer} {found : Found}
    (h : w.withExcerpts settings q answer = .ok found) : found.answer = answer := by
  have hmap : ∀ {answer : Answer} {x : Except Failure (List (Option Excerpt))},
      x.map (fun es => ⟨answer, es⟩) = .ok found → found.answer = answer := by
    intro answer x hx
    cases x <;> cases hx
    rfl
  rw [withExcerpts.eq_def] at h
  split at h
  · split at h
    · cases h
      rfl
    all_goals
      cases hparse : Query.parse q.call.query with
      | error e =>
        rw [hparse] at h
        cases h
      | ok parsed =>
        rw [hparse] at h
        exact hmap h
  · cases h
    rfl

/-- A search that is answered from the cache is answered as it begins, by an entry for the key of
the call and the version that the index has then, whenever it is finished. -/
theorem exists_entry_of_endSearch (steady : w.hybrid.Steady w.settings.current.deadlines)
    {now now' : Float} {q : Inquiry}
    {w' : Workspace σ} {ix : Index} {found : Found}
    (answer : (w'.endSearch ix now' (w.beginSearch now q).1.1).answer = .ok found) {mode : Mode}
    {r : Response} (hybrid : found.answer = .hybrid mode r) (cached : r.cached = true) :
    ∃ parsed, Query.parse q.call.query = .ok parsed ∧ ∃ e ∈ w.hybrid.cache.entries,
      e.key = (w.hybrid.pendingOf w.catalog w.settings.current q.call parsed).key ∧
      e.version = w.catalog.index.version ∧ r = { e.response with cached := true } := by
  have hbegins := Dispatch.begins_start w.catalog q.mode q.call steady now
  simp only [beginSearch, endSearch] at answer
  cases hstarted : (Dispatch.start w.hybrid w.catalog w.settings.current now q.mode q.call).1.1 with
  | decided a =>
    simp only [hstarted] at answer
    cases a with
    | error f => cases answer
    | ok a =>
      obtain rfl := answer_withExcerpts answer
      exact hbegins.cached mode r (hstarted.trans (by rw [hybrid]))
  | pending p =>
    simp only [hstarted] at answer
    generalize hfinish : Dispatch.finish _ _ now' p = finished at answer
    obtain ⟨⟨a, notes⟩, h'⟩ := finished
    cases a with
    | error f => cases answer
    | ok a =>
      obtain rfl := answer_withExcerpts answer
      have hcached := Dispatch.cached_finish ((congrArg (·.1.1) hfinish).trans (by rw [hybrid]))
      rw [hcached] at cached
      cases cached

/-- A cached answer is that of an entry for the key of the call and the version of the index. -/
theorem exists_entry_of_search (steady : w.hybrid.Steady w.settings.current.deadlines)
    {now : Float} {q : Inquiry} {found : Found}
    (answer : (w.search now q).answer = .ok found) {mode : Mode} {r : Response}
    (hybrid : found.answer = .hybrid mode r) (cached : r.cached = true) :
    ∃ parsed, Query.parse q.call.query = .ok parsed ∧ ∃ e ∈ w.hybrid.cache.entries,
      e.key = (w.hybrid.pendingOf w.catalog w.settings.current q.call parsed).key ∧
      e.version = w.catalog.index.version ∧ r = { e.response with cached := true } :=
  exists_entry_of_endSearch steady answer hybrid cached

end Workspace

/-! ### Sessions -/

namespace Session

variable {σ : Type}

/-- A search underway is past, or goes by the index of the catalog as it was begun. -/
def Follows (w : Workspace σ) (base : Settings) (u : Unfinished) : Prop :=
  ∀ mode p, u.search.started = .pending (.hybrid mode p) → p.version ≤ w.catalog.index.version ∧
    (p.version = w.catalog.index.version → u.left = none ∧ w.hybrid.Began w.catalog base p)

structure Transparent (s : Session σ) (base : Settings) : Prop where
  holds : ∃ docs, s.workspace.catalog.Holds docs
  hybrid : s.workspace.hybrid.Transparent s.workspace.catalog base
  settings : s.workspace.settings.current.base = base
  bounded : s.workspace.settings.current.Bounded
  unfinished : ∀ u ∈ s.unfinished, Follows s.workspace base u

theorem Follows.advance {w w' : Workspace σ} {base : Settings} {u : Unfinished}
    (h : Follows w base u) (advances : w.catalog.Advances w'.catalog)
    (hybrid : w'.hybrid = w.hybrid) : Follows w' base u := by
  intro mode p hp
  obtain ⟨hpast, hcurrent⟩ := h mode p hp
  refine ⟨hpast.trans advances.le, fun hversion => ?_⟩
  rcases advances with ⟨alike, hsame⟩ | hlt
  · obtain ⟨hleft, hbegan⟩ := hcurrent (hversion.trans hsame)
    exact ⟨hleft, hbegan.congr (by rw [hybrid]) (by rw [hybrid]) (by rw [hybrid]) alike hsame⟩
  · exact absurd hpast (by omega)

theorem Follows.keeps {w w' : Workspace σ} {base : Settings} {u : Unfinished} (h : Follows w base u)
    (catalog : w'.catalog = w.catalog) (behaviour : w'.hybrid.behaviour = w.hybrid.behaviour)
    (digest : w'.hybrid.digest = w.hybrid.digest) (globs : w'.hybrid.globs = w.hybrid.globs) :
    Follows w' base u := by
  intro mode p hp
  obtain ⟨hpast, hcurrent⟩ := h mode p hp
  rw [catalog]
  refine ⟨hpast, fun hversion => ?_⟩
  obtain ⟨hleft, hbegan⟩ := hcurrent hversion
  exact ⟨hleft, hbegan.congr behaviour digest globs (.refl _) rfl⟩

variable {s : Session σ} {base : Settings}

/-- The deadlines that providers are steady by are those of the settings at any time. -/
theorem Transparent.deadlines (t : s.Transparent base) :
    base.deadlines = s.workspace.settings.current.deadlines := by
  rw [← t.settings]
  rfl

theorem Transparent.steady (t : s.Transparent base) :
    s.workspace.hybrid.Steady s.workspace.settings.current.deadlines :=
  t.deadlines ▸ t.hybrid.steady

/-- A catalog that advances keeps a session transparent. -/
theorem Transparent.advance (t : s.Transparent base) {w : Workspace σ}
    (advances : s.workspace.catalog.Advances w.catalog) (holds : ∃ docs, w.catalog.Holds docs)
    (hybrid : w.hybrid = s.workspace.hybrid) (settings : w.settings = s.workspace.settings) :
    (s.withWorkspace w).Transparent base where
  holds := holds
  hybrid := by
    change w.hybrid.Transparent w.catalog base
    rw [hybrid]
    exact t.hybrid.advance advances
  settings := by
    change w.settings.current.base = base
    rw [settings]
    exact t.settings
  bounded := by
    change w.settings.current.Bounded
    rw [settings]
    exact t.bounded
  unfinished u hu := (t.unfinished u hu).advance advances hybrid

/-- A read of the index keeps a session transparent. -/
theorem Transparent.withIndex (t : s.Transparent base) {ix : Index}
    (read : ∀ docs : Documents, s.workspace.catalog.Holds docs →
      ix.Represents docs.records ∧ ix.version = s.workspace.catalog.index.version) :
    (s.withWorkspace (s.workspace.withIndex ix)).Transparent base := by
  obtain ⟨docs, hdocs⟩ := t.holds
  exact t.advance (hdocs.advances_withIndex (read docs hdocs))
    ⟨docs, hdocs.withIndex (read docs hdocs).1⟩ rfl rfl

theorem Transparent.configure (t : s.Transparent base) {change : Settings → Except Failure Settings}
    (keeps : ∀ settings', change s.workspace.settings.current = .ok settings' →
      settings'.base = s.workspace.settings.current.base ∧ settings'.Bounded) :
    (s.withWorkspace (s.workspace.configure change).workspace).Transparent base := by
  rw [Workspace.configure, SettingsHolder.update]
  cases hchange : change s.workspace.settings.current with
  | error f => exact t
  | ok settings' =>
    obtain ⟨hbase, hbounded⟩ := keeps settings' hchange
    exact ⟨t.holds, t.hybrid, hbase.trans t.settings, hbounded, t.unfinished⟩

variable [DocumentStore σ]

/-- What the tasks of a run have to be: providers that are put in are steady by the deadline of
their source, none changes while a search is underway, and searches are limited by doubles. -/
def Allows (s : Session σ) : Task → Prop
  | .setProvider source p => s.unfinished = [] ∧
      ∀ p' ∈ p, p'.Steady (s.workspace.settings.current.deadlines.get source)
  | .begin _ q => q.call.Exact
  | _ => True

def AllowsAll (s : Session σ) : List Task → Prop
  | [] => True
  | task :: rest => s.Allows task ∧ (s.step task).AllowsAll rest

theorem Transparent.add (t : s.Transparent base) (values : List Json) :
    (s.step (.add values)).Transparent base := by
  obtain ⟨docs, hdocs⟩ := t.holds
  obtain ⟨store, ds, heq⟩ := s.workspace.exists_add_eq values
  rw [step, heq]
  exact t.advance (hdocs.advances_addAll ds) ⟨_, hdocs.addAll ds⟩ rfl rfl

theorem Transparent.remove (t : s.Transparent base) (id : DocId) :
    (s.step (.remove id)).Transparent base := by
  obtain ⟨docs, hdocs⟩ := t.holds
  rw [step]
  rcases s.workspace.remove_cases id with heq | ⟨store, heq⟩
  · rw [heq]
    exact t
  · rw [heq]
    exact t.advance (hdocs.advances_remove id) ⟨_, hdocs.remove id⟩ rfl rfl

theorem Transparent.rebuild (t : s.Transparent base) : (s.step .rebuild).Transparent base := by
  rw [step]
  rcases s.workspace.rebuild_cases with ⟨f, hanswer, heq⟩ | ⟨result, ds, hanswer, heq⟩
  · simp only [hanswer, heq]
    exact t
  · have hgrown := s.workspace.catalog.version_lt_rebuilt ds
    simp only [hanswer, heq]
    have hhybrid := fun c => Hybrid.transparent_of_nil
      (show (s.workspace.swap c).hybrid.Steady base.deadlines from t.hybrid.steady)
      t.hybrid.injective rfl c
    refine ⟨⟨_, (Catalog.holds_empty _).addAll ds⟩, hhybrid _, t.settings, t.bounded,
      fun u hu mode p hp => ?_⟩
    obtain ⟨u', hu', rfl⟩ := List.mem_map.1 hu
    have hpast := (t.unfinished u' hu' mode p hp).1
    exact ⟨hpast.trans hgrown.le, fun hversion => absurd hpast (by
      change p.version = (ds.foldl Catalog.add _).index.version at hversion
      omega)⟩

theorem Transparent.setProvider (t : s.Transparent base) (source : Source) {p : Option Provider}
    (allowed : s.Allows (.setProvider source p)) :
    (s.step (.setProvider source p)).Transparent base := by
  obtain ⟨hnone, hsteady⟩ := allowed
  have hunfinished : ∀ w : Workspace σ, ∀ u ∈ (s.withWorkspace w).unfinished, Follows w base u := by
    intro w u hu
    change u ∈ s.unfinished at hu
    rw [hnone] at hu
    cases hu
  cases p with
  | none => exact ⟨t.holds, t.hybrid.unregister source, t.settings, t.bounded, hunfinished _⟩
  | some p =>
    have hp := hsteady p rfl
    rw [← t.deadlines] at hp
    exact ⟨t.holds, t.hybrid.register hp, t.settings, t.bounded, hunfinished _⟩

theorem Transparent.begin (t : s.Transparent base) (now : Float) {q : Inquiry}
    (exact : q.call.Exact) :
    (s.step (.begin now q)).Transparent base := by
  have hbegins := Dispatch.begins_start s.workspace.catalog q.mode q.call t.steady now
  refine ⟨t.holds, t.hybrid.keeps hbegins.keeps, t.settings, t.bounded, fun u hu => ?_⟩
  rcases List.mem_append.1 hu with hold | hnew
  · exact (t.unfinished u hold).keeps rfl hbegins.keeps.behaviour hbegins.keeps.digest
      hbegins.keeps.globs
  · obtain rfl := List.mem_singleton.1 hnew
    intro mode p hp
    obtain ⟨haccepted, parsed, hparse, rfl⟩ := hbegins.asked mode p hp
    refine ⟨le_rfl, fun _ => ⟨rfl, ?_⟩⟩
    refine Hybrid.Began.congr ⟨_, _, parsed, t.settings, t.bounded, exact, haccepted, hparse, rfl⟩
      hbegins.keeps.behaviour hbegins.keeps.digest hbegins.keeps.globs (.refl _) rfl

theorem Transparent.finish (t : s.Transparent base) (n : Nat) (now : Float) :
    (s.step (.finish n now)).Transparent base := by
  rw [step]
  cases hu : s.unfinished[n]? with
  | none => exact t
  | some u =>
    have hfollows := t.unfinished u (List.mem_of_getElem? hu)
    have hothers : ∀ u' ∈ s.unfinished.eraseIdx n, Follows s.workspace base u' := fun u' hu' =>
      t.unfinished u' (List.mem_of_mem_eraseIdx hu')
    simp only [Workspace.endSearch]
    cases hstarted : u.search.started with
    | decided answer => exact ⟨t.holds, t.hybrid, t.settings, t.bounded, hothers⟩
    | pending waiting =>
      cases waiting with
      | source mode narrowed p =>
        have hkeeps := Hybrid.keeps_finishSource s.workspace.hybrid
          (u.left.getD s.workspace.catalog.index) p
        exact ⟨t.holds, t.hybrid.keeps hkeeps, t.settings, t.bounded, fun u' hu' =>
          (hothers u' hu').keeps rfl hkeeps.behaviour hkeeps.digest hkeeps.globs⟩
      | hybrid mode p =>
        obtain ⟨hpast, hcurrent⟩ := hfollows mode p hstarted
        have hbegan : p.version = s.workspace.catalog.index.version →
            u.left.getD s.workspace.catalog.index = s.workspace.catalog.index ∧
              s.workspace.hybrid.Began s.workspace.catalog base p := fun hversion => by
          rw [(hcurrent hversion).1]
          exact ⟨rfl, (hcurrent hversion).2⟩
        have hfinish := t.hybrid.finish now hpast hbegan
        obtain ⟨hbehaviour, hdigest, hglobs, -⟩ := Hybrid.finish_cases s.workspace.hybrid
          (u.left.getD s.workspace.catalog.index) now p
        exact ⟨t.holds, hfinish, t.settings, t.bounded, fun u' hu' =>
          (hothers u' hu').keeps rfl hbehaviour hdigest hglobs⟩

theorem Transparent.step (t : s.Transparent base) (task : Task) (allowed : s.Allows task) :
    (s.step task).Transparent base := by
  cases task with
  | add values => exact t.add values
  | remove id => exact t.remove id
  | rebuild => exact t.rebuild
  | configureWeights j =>
    refine t.configure fun settings' hset => ?_
    obtain ⟨w, hread, rfl⟩ := Settings.withWeights_eq_ok hset
    exact ⟨rfl, Settings.bounded_of_readWeights hread⟩
  | configureMethods j =>
    refine t.configure fun settings' hset => ?_
    obtain ⟨methods, -, rfl⟩ := Settings.withMethods_eq_ok hset
    exact ⟨rfl, t.bounded⟩
  | setProvider source p => exact t.setProvider source allowed
  | begin now q => exact t.begin now allowed
  | finish n now => exact t.finish n now
  | readPostings term => exact t.withIndex fun _ hdocs => hdocs.index.readPostings term
  | readVocabulary => exact t.withIndex fun _ hdocs => hdocs.index.readVocabulary

theorem Transparent.run {s : Session σ} {base : Settings} (t : s.Transparent base)
    {tasks : List Task} (allowed : s.AllowsAll tasks) : (s.run tasks).Transparent base := by
  induction tasks generalizing s with
  | nil => exact t
  | cons task rest ih => exact ih (t.step task allowed.1) allowed.2

/-- A workspace over any store is transparent at first. -/
theorem transparent_new (store : σ) {settings : Settings} (bounded : settings.Bounded)
    {semantic fuzzy : Option Provider}
    (hsemantic : ∀ p ∈ semantic, p.Steady (settings.deadlines.get .semantic))
    (hfuzzy : ∀ p ∈ fuzzy, p.Steady (settings.deadlines.get .fuzzy))
    (snapshot : Option SnapshotFile) {digest : Text → Text} (injective : Function.Injective digest)
    (globs : GlobReader) :
    Transparent ⟨Workspace.new store settings semantic fuzzy snapshot digest globs, []⟩
      settings.base := by
  let hybrid := (Hybrid.empty (Workspace.cacheBound settings) digest globs).register .bm25 .index
  have hindex : hybrid.Steady settings.base.deadlines := by
    refine Hybrid.Steady.register (fun s p hp => ?_) trivial
    rw [Hybrid.get_behaviour] at hp
    cases s <;> cases hp
  have hfirst : Transparent
      (⟨{ store, catalog := .empty 0, settings := .start settings, snapshot, hybrid }, []⟩ :
        Session σ)
      settings.base :=
    ⟨⟨∅, Catalog.holds_empty 0⟩, Hybrid.transparent_of_nil hindex injective rfl _, rfl, bounded,
      by simp⟩
  have hsecond := hfirst.setProvider .semantic (p := semantic) ⟨rfl, hsemantic⟩
  refine hsecond.setProvider .fuzzy ⟨rfl, fun p hp => ?_⟩
  rw [← hsecond.deadlines]
  exact hfuzzy p hp

/-- A cached response is made from a query that is the same but for blanks, and a search for that
query without the cache, by the catalog, the settings and the providers as they are now, comes to
the same results, the same failures of sources and the same counts. Documents, weights, methods and
providers may have changed in between in any way. -/
theorem cached_search_run (store : σ) {settings : Settings} (bounded : settings.Bounded)
    {semantic fuzzy : Option Provider}
    (hsemantic : ∀ p ∈ semantic, p.Steady (settings.deadlines.get .semantic))
    (hfuzzy : ∀ p ∈ fuzzy, p.Steady (settings.deadlines.get .fuzzy))
    (snapshot : Option SnapshotFile) {digest : Text → Text} (injective : Function.Injective digest)
    (globs : GlobReader) {tasks : List Task}
    (allowed : AllowsAll ⟨Workspace.new store settings semantic fuzzy snapshot digest globs, []⟩
      tasks)
    (now : Float) {q : Inquiry} (exact : q.call.Exact) {found : Found} {mode : Mode}
    {r : Response} :
    let w :=
      (run ⟨Workspace.new store settings semantic fuzzy snapshot digest globs, []⟩ tasks).workspace
    (w.search now q).answer = .ok found → found.answer = .hybrid mode r → r.cached = true →
    r.query.trim.collapseBlanks = q.call.query.trim.collapseBlanks ∧
      ∃ fresh, (w.hybrid.uncached.search w.catalog w.settings.current now
          { q.call with query := r.query, cancellation := .never }).1.1 = .ok fresh ∧
        fresh.results = r.results ∧ fresh.degraded = r.degraded ∧ fresh.counts = r.counts := by
  intro w answer hybrid cached
  have t := (transparent_new store bounded hsemantic hfuzzy snapshot injective globs).run allowed
  obtain ⟨parsed, -, e, he, hkey, hversion, rfl⟩ :=
    w.exists_entry_of_search t.steady answer hybrid cached
  have hbacked : w.hybrid.Backed w.catalog w.settings.current.base e := by
    rw [t.settings]
    exact t.hybrid.backed e he
  exact hbacked.uncached t.steady t.hybrid.injective t.bounded exact hkey hversion now

/-! What the texts of answers say, for runs that are given in full. -/

def isCached : Except Failure Found → Bool
  | .ok ⟨.hybrid _ r, _⟩ => r.cached
  | _ => false

def narrowedOf : Except Failure Found → List Source
  | .ok ⟨.hybrid _ r, _⟩ => r.narrowed
  | _ => []

def idsOf : Except Failure Found → List DocId
  | .ok found => found.answer.rankedIds
  | .error _ => []

theorem exists_of_isCached {a : Except Failure Found} (h : isCached a = true) :
    ∃ found mode r, a = .ok found ∧ found.answer = .hybrid mode r ∧ r.cached = true := by
  cases a with
  | error f => cases h
  | ok found =>
    obtain ⟨answer, excerpts⟩ := found
    cases answer with
    | hybrid mode r => exact ⟨_, mode, r, rfl, rfl, h⟩
    | symbols _ _ _ => cases h
    | source _ _ _ => cases h

/-- A provider that answers the query as a name. -/
def echo : Provider := .backend (.ofFunction fun query _ => .answers [query])

/-- A provider that always answers one name. -/
def always (id : DocId) : Provider := .backend (.ofFunction fun _ _ => .answers [id])

def hybridInquiry (query : Text) : Inquiry := ⟨.hybrid, ⟨query, .none, none, .never⟩, false⟩

/-- A document is added, and a query is put and put again without its blank. -/
theorem cached_search_run_blanks :
    let tasks := [.add [.object [("id", .text "a"), ("text", .text "d"), ("fields", .object [])]],
      .begin 0 (hybridInquiry " b"), .finish 0 0]
    let w := ((fresh .default (some echo) none none id .literal).run tasks).workspace
    ∃ found mode r, (w.search 0 (hybridInquiry "b")).answer = .ok found ∧
      found.answer = .hybrid mode r ∧ r.cached = true ∧
      r.query.trim.collapseBlanks = Text.collapseBlanks (Text.trim "b") ∧
      ∃ fresh, (w.hybrid.uncached.search w.catalog w.settings.current 0
          { (hybridInquiry "b").call with query := r.query, cancellation := .never }).1.1 =
            .ok fresh ∧
        fresh.results = r.results ∧ fresh.degraded = r.degraded ∧ fresh.counts = r.counts := by
  intro tasks w
  have hbounded : Settings.default.Bounded := by
    intro source
    cases source <;> decide +kernel
  have hexact : ∀ query, (hybridInquiry query).call.Exact :=
    fun _ n hn => absurd hn (by simp [hybridInquiry])
  have hallowed : AllowsAll (fresh .default (some echo) none none id .literal) tasks :=
    ⟨trivial, hexact _, trivial, trivial⟩
  obtain ⟨found, mode, r, hanswer, hhybrid, hcached⟩ :=
    exists_of_isCached (show isCached (w.search 0 (hybridInquiry "b")).answer =
      true by decide +kernel)
  have hsteady : ∀ p ∈ some echo, p.Steady (Settings.default.deadlines.get .semantic) := by
    rintro p ⟨⟩
    exact Provider.steady_ofFunction (fun query _ => [query]) _
  have hsame := cached_search_run MemoryStore.empty hbounded hsteady (fun p hp => by cases hp) none
    Function.injective_id .literal hallowed 0 (hexact _) hanswer hhybrid hcached
  exact ⟨found, mode, r, hanswer, hhybrid, hcached, hsame⟩

/-- A cached answer is not always what the same call comes to without the cache: a provider may tell
the blanks of a query, a method that is switched off may lack a provider, and a provider may be
changed while a search is underway. -/
theorem cached_search_differs :
    let ask (w : Workspace MemoryStore) := (w.search 0 (hybridInquiry "b c")).answer
    let uncached (w : Workspace MemoryStore) := { w with hybrid := w.hybrid.uncached }
    let blanks := ((fresh .default (some echo) none none id .literal).run
      [.begin 0 (hybridInquiry "b  c"), .finish 0 0]).workspace
    let methods := ((fresh .default none none none id .literal).run
      [.begin 0 (hybridInquiry "b c"), .finish 0 0,
        .configureMethods (.object [("semantic", .bool false)])]).workspace
    let changed := ((fresh .default (some (always "old")) none none id .literal).run
      [.begin 0 (hybridInquiry "b c"), .setProvider .semantic (some (always "new")),
        .finish 0 0]).workspace
    (isCached (ask blanks) = true ∧ idsOf (ask blanks) = ["b  c"] ∧
      idsOf (ask (uncached blanks)) = ["b c"]) ∧
    (isCached (ask methods) = true ∧ narrowedOf (ask methods) = [.semantic, .fuzzy] ∧
      narrowedOf (ask (uncached methods)) = [.fuzzy]) ∧
    (isCached (ask changed) = true ∧ idsOf (ask changed) = ["old"] ∧
      idsOf (ask (uncached changed)) = ["new"]) := by
  decide +kernel

end Session
end Quarry
