import Quarry.Proofs.Catalog
import Quarry.Workspace.Search

/-! Searches of catalogs that cannot be told apart: every source ranks the same, and a search that
asks one source, or names a symbol, answers the same, whatever the cache holds. -/

namespace Quarry

namespace Catalog.Alike

variable {c c' : Catalog} (h : c.Alike c')
include h

theorem passes_eq : c.index.passes = c'.index.passes := by
  have hdocument : c.index.document? = c'.index.document? := congrArg (·.document?) (h.index Float)
  funext globs filter id
  rw [Index.passes, Index.fields?, hdocument, Index.passes, Index.fields?]

theorem rankIndex_eq (s : Source) (r : Request) :
    Provider.rankIndex c s r = Provider.rankIndex c' s r := by
  rw [Provider.rankIndex, h.score_eq, Provider.rankIndex]

theorem rankNames_eq (s : Source) (r : Request) :
    Provider.rankNames c s r = Provider.rankNames c' s r := by
  have hsimilar : c.symbols.trigrams.search = c'.symbols.trigrams.search :=
    congrArg (·.similar) h.symbols
  rw [Provider.rankNames, hsimilar, Provider.rankNames]

theorem run_eq (p : Provider) (s : Source) (r : Request) (deadline : Deadline)
    (cancellation : Cancellation) :
    p.run c s r deadline cancellation = p.run c' s r deadline cancellation := by
  cases p with
  | index => rw [Provider.run, h.rankIndex_eq, Provider.run]
  | names => rw [Provider.run, h.rankNames_eq, Provider.run]
  | backend b => rfl

theorem exactSymbols_eq (globs : GlobReader) (call : Call) :
    Dispatch.exactSymbols globs c call = Dispatch.exactSymbols globs c' call := by
  have hlookup : c.symbols.lookup = c'.symbols.lookup := congrArg (·.lookup) h.symbols
  rw [Dispatch.exactSymbols, hlookup, h.passes_eq, Dispatch.exactSymbols]

end Catalog.Alike

/-! ### Searches of one source -/

/-- The outcome of a source is that of its provider. -/
theorem Hybrid.runSource_fst (h : Hybrid) (c : Catalog) (r : Request) (cancellation : Cancellation)
    (s : Source) : (h.runSource c r cancellation s).1 =
      ((h.providers.get s).map fun p =>
        (p.run c s r (r.settings.deadlines.get s) cancellation).1).getD
          (.degraded (.unavailable s)) := by
  rw [runSource]
  cases h.providers.get s <;> rfl

section

variable {h h' : Hybrid} (providers : h.providers = h'.providers) (globs : h.globs = h'.globs)
  {c c' : Catalog} (alike : c.Alike c')
include providers

theorem Hybrid.isAvailable_congr (s : Source) : h.isAvailable s = h'.isAvailable s := by
  rw [isAvailable, providers, isAvailable]

include alike

theorem Hybrid.runSource_congr (r : Request) (cancellation : Cancellation) (s : Source) :
    (h.runSource c r cancellation s).1 = (h'.runSource c' r cancellation s).1 := by
  simp only [runSource_fst, providers, alike.run_eq]

include globs

/-- What the search of one source begins with depends on the providers, on how globs are read and on
what is read from the catalog. -/
theorem Hybrid.startSource_congr (settings : Settings) (s : Source) (call : Call) :
    (h.startSource c settings s call).1 = (h'.startSource c' settings s call).1 := by
  rw [startSource, startSource]
  cases Query.parse call.query with
  | error e => rfl
  | ok parsed =>
    simp only [isAvailable_congr providers, alike.passes_eq, globs]
    split
    · rfl
    · cases call.cancellation.check Call.context with
      | error f => rfl
      | ok _ =>
        cases call.filter.normalize.check h'.globs with
        | error f => rfl
        | ok _ => simp only [runSource_congr providers alike]

theorem Dispatch.startSource_congr (settings : Settings) (mode : Mode) (wanted : Source)
    (call : Call) :
    (startSource h c settings mode wanted call).1 =
      (startSource h' c' settings mode wanted call).1 := by
  simp only [startSource, Hybrid.isAvailable_congr providers]
  rw [Hybrid.startSource_congr providers globs alike]
  split <;> rfl

end

section

variable (h h' : Hybrid) {c c' : Catalog} (alike : c.Alike c')
include alike

/-- What a search ends with depends on what is read from the index. -/
theorem Hybrid.finishSource_congr (p : PendingSource) :
    (h.finishSource c.index p).1 = (h'.finishSource c'.index p).1 := by
  rw [finishSource, finishSource]
  cases p.cancellation.race Call.context (.ok ()) with
  | error f => rfl
  | ok _ =>
    simp only [respondSource, alike.passes_eq]
    split <;> rfl

theorem Hybrid.finish_congr (now : Float) (p : Pending) :
    (h.finish c.index now p).1 = (h'.finish c'.index now p).1 := by
  rw [finish, finish]
  cases p.cancellation.race Call.context (.ok ()) with
  | error f => rfl
  | ok _ =>
    simp only [respond, alike.passes_eq]
    split <;> rfl

theorem Dispatch.finish_congr (now : Float) (waiting : Waiting) :
    (finish h c.index now waiting).1 = (finish h' c'.index now waiting).1 := by
  cases waiting with
  | source mode narrowed p =>
    simp only [finish, Hybrid.finishSource_congr h h' alike]
  | hybrid mode p =>
    simp only [finish, Hybrid.finish_congr h h' alike]

end

/-! ### Searches of a workspace -/

/-- The modes in which a search asks one source, or names a symbol, and leaves the cache alone. -/
def Mode.isDirect : Mode → Bool
  | .auto | .hybrid => false
  | .symbol | .fulltext | .bm25 | .semantic | .fuzzy => true

namespace Workspace

variable {σ : Type} [DocumentStore σ]

/-- Workspaces over the same store that cannot be told apart by direct searches. -/
structure Alike (w w' : Workspace σ) : Prop where
  store : w.store = w'.store
  settings : w.settings.current = w'.settings.current
  providers : w.hybrid.providers = w'.hybrid.providers
  globs : w.hybrid.globs = w'.hybrid.globs
  catalog : w.catalog.Alike w'.catalog

variable {w w' : Workspace σ} (h : w.Alike w')
include h

theorem Alike.withExcerpts_eq (s : Settings) (q : Inquiry) (answer : Answer) :
    w.withExcerpts s q answer = w'.withExcerpts s q answer := by
  have hexcerpt : w.excerptFor s = w'.excerptFor s := by
    funext parsed id
    simp only [excerptFor, h.store, Bm25.matchedTerms_congr _ (h.catalog.index Float)]
  simp only [withExcerpts, hexcerpt]

theorem Alike.answer_endSearch_eq (hybrid hybrid' : Hybrid) (now : Float) (u : Underway) :
    (endSearch { w with hybrid } w.catalog.index now u).answer =
      (endSearch { w' with hybrid := hybrid' } w'.catalog.index now u).answer := by
  have hexcerpts : w.withExcerpts u.settings u.inquiry = w'.withExcerpts u.settings u.inquiry :=
    funext fun answer => h.withExcerpts_eq u.settings u.inquiry answer
  rw [endSearch, endSearch]
  cases u.started with
  | decided answer => exact congrArg answer.bind hexcerpts
  | pending p =>
    have hfinish := Dispatch.finish_congr hybrid hybrid' h.catalog now p
    exact congrArg₂ Except.bind (congrArg (·.1) hfinish) hexcerpts

/-- Direct searches do not tell alike workspaces apart. -/
theorem Alike.answer_search_eq {q : Inquiry} (direct : q.mode.isDirect = true) (now : Float) :
    (w.search now q).answer = (w'.search now q).answer := by
  have hstart : (Dispatch.start w.hybrid w.catalog w.settings.current now q.mode q.call).1 =
      (Dispatch.start w'.hybrid w'.catalog w'.settings.current now q.mode q.call).1 := by
    simp only [Dispatch.start, h.catalog.exactSymbols_eq, h.settings, h.globs]
    cases hmode : q.mode with
    | auto => simp [hmode, Mode.isDirect] at direct
    | hybrid => simp [hmode, Mode.isDirect] at direct
    | symbol => rfl
    | fulltext => exact Dispatch.startSource_congr h.providers h.globs h.catalog _ _ _ _
    | bm25 => exact Dispatch.startSource_congr h.providers h.globs h.catalog _ _ _ _
    | semantic => exact Dispatch.startSource_congr h.providers h.globs h.catalog _ _ _ _
    | fuzzy => exact Dispatch.startSource_congr h.providers h.globs h.catalog _ _ _ _
  have hunderway : (w.beginSearch now q).1 = (w'.beginSearch now q).1 := by
    simp only [beginSearch, hstart]
    rw [h.settings]
  have hend := h.answer_endSearch_eq (w.beginSearch now q).2.hybrid (w'.beginSearch now q).2.hybrid
    now (w.beginSearch now q).1.1
  rw [search, search]
  refine hend.trans ?_
  rw [hunderway]
  rfl

end Workspace
end Quarry
