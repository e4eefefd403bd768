import Quarry.Proofs.Excerpt.Clusters
import Quarry.Proofs.Query.Excerpts
import Quarry.Proofs.Ranking.Matching
import Quarry.Proofs.Search.Ranker
import Quarry.Proofs.Workspace.Coherence
import Quarry.Proofs.Workspace.Failing

/-! Excerpts of full-text searches. A document that is found matches the query, and so holds a term
that is matched. The store has the text that the index was made from, so the term is located there,
and the excerpt shows it. -/

namespace Quarry

namespace Index

/-- A term with a posting for a document is that of a token of its text. -/
theorem Represents.exists_token {ix : Index} {docs : Documents} (h : ix.Represents docs.records)
    {id : DocId} {term : Term} (hposting : (ix.posting? term id).isSome) :
    ∃ d, docs[id]? = some d ∧ ∃ token ∈ d.text.tokens, token.term = term := by
  rw [Index.posting?_eq, Option.isSome_map, h.positions, Records.positions?,
    Documents.getElem?_records] at hposting
  cases hd : docs[id]? with
  | none =>
    rw [hd] at hposting
    cases hposting
  | some d =>
    rw [hd] at hposting
    obtain ⟨positions, hpositions⟩ := Option.isSome_iff_exists.1 hposting
    exact ⟨d, rfl, Record.exists_token_of_positions? hpositions⟩

end Index

namespace Workspace

variable {w : Workspace MemoryStore}

theorem Coherent.searchable (h : w.Coherent) : w.catalog.index.Searchable :=
  h.holds.index.searchable h.exists_document

/-- The excerpt of a document that matches a query shows what is matched. -/
theorem Coherent.excerptFor_shows (h : w.Coherent) (settings : Settings) {parsed : Query}
    {id : DocId} (hmatches : w.catalog.index.Matches settings.tuning.expansions id parsed) :
    ∃ d e, w.store.documents[id]? = some d ∧ w.excerptFor settings parsed id = .ok (some e) ∧
      e.Shows d.text (Bm25.matchedTerms settings.tuning.expansions w.catalog.index parsed) := by
  obtain ⟨term, hmatched, hposting⟩ :=
    Bm25.exists_matched_of_matches h.searchable.vocabulary hmatches
  obtain ⟨d, hd, token, htoken, rfl⟩ := h.holds.index.exists_token hposting
  have hget : DocumentStore.get w.store id = .ok (some d) :=
    (MemoryStore.guarded_eq h.faultless (.get id) _).trans (congrArg Except.ok hd)
  refine ⟨d, _, hd, ?_, Excerpt.shows_locate htoken hmatched (window settings)⟩
  rw [excerptFor, hget]
  rfl

/-- A full-text search with excerpts, which nobody gives up. -/
def fulltext (query : Text) (filter : Filter) (limit : Option Number) : Inquiry :=
  ⟨.fulltext, ⟨query, filter, limit, .never⟩, true⟩

/-- What the excerpt of a result is, as far as it shows some terms. -/
def Shown (w : Workspace MemoryStore) (terms : List Term) (r : Ranked)
    (excerpt : Option Excerpt) : Prop :=
  ∃ d e, w.store.documents[r.docId]? = some d ∧ excerpt = some e ∧ e.Shows d.text terms

theorem withExcerpts_fulltext {settings : Settings} {query : Text} {parsed : Query}
    (hparse : Query.parse query = .ok parsed) (filter : Filter) (limit : Option Number)
    {response : SourceResponse} {excerpts : List (Option Excerpt)}
    (hmap : response.results.mapM (fun r => w.excerptFor settings parsed r.docId) = .ok excerpts) :
    w.withExcerpts settings (fulltext query filter limit) (.source .fulltext [] response) =
      .ok ⟨.source .fulltext [] response, excerpts⟩ := by
  rw [withExcerpts]
  simp only [fulltext, if_true, hparse, Answer.rankedIds, List.mapM_map, Function.comp_def, hmap]
  rfl

theorem Coherent.search_fulltext (h : w.Coherent)
    (ranker : w.hybrid.behaviour.get .bm25 = some .index) (now : Float) {query : Text}
    {parsed : Query} (hparse : Query.parse query = .ok parsed) {filter : Filter}
    (accepted : filter.Accepted w.hybrid.globs) (limit : Option Number) :
    ∃ response excerpts,
      (w.search now (fulltext query filter limit)).answer =
        .ok ⟨.source .fulltext [] response, excerpts⟩ ∧
      List.Forall₂ (w.Shown (Bm25.matchedTerms w.settings.current.tuning.expansions
        w.catalog.index parsed)) response.results excerpts := by
  let q := fulltext query filter limit
  let settings := w.settings.current
  obtain ⟨waiting, hstart, hfinish⟩ :=
    Dispatch.fulltext_ends ranker w.catalog settings now
      (show q.call.cancellation = .never from rfl) accepted hparse
  let began := (Dispatch.start w.hybrid w.catalog settings now q.mode q.call).2
  obtain ⟨response, hanswer, hscored⟩ := hfinish began w.catalog.index now
  have hexcerpts : ∀ r ∈ response.results, ∃ excerpt,
      w.excerptFor settings parsed r.docId = .ok excerpt ∧
      w.Shown (Bm25.matchedTerms settings.tuning.expansions w.catalog.index parsed) r excerpt := by
    intro r hr
    have hmatches :=
      ((Bm25.names_score settings.tuning h.searchable parsed).2 r.docId).1 (hscored r hr)
    obtain ⟨d, e, hd, he, hshows⟩ := h.excerptFor_shows settings hmatches
    exact ⟨some e, he, d, e, hd, rfl, hshows⟩
  obtain ⟨excerpts, hmap, hall⟩ := exists_forall₂_of_mapM hexcerpts
  refine ⟨response, excerpts, ?_, hall⟩
  have hbegan : (w.beginSearch now q).1.1 = ⟨q, settings, .pending waiting⟩ := by
    rw [← hstart]
    rfl
  have hsearch : (w.search now q).answer = (Workspace.endSearch { w with hybrid := began }
      w.catalog.index now (w.beginSearch now q).1.1).answer := rfl
  rw [hsearch, hbegan, ← withExcerpts_fulltext hparse filter limit hmap]
  exact congrArg (Except.bind · (w.withExcerpts settings q)) hanswer

end Workspace

namespace Session

/-- After any tasks, whatever other sources there are, a full-text search that nobody gives up, and
whose glob is taken, comes to a response. Each of its results has an excerpt of the document as it
is stored, which highlights something, and what it highlights are, in lower case, terms that the
ranker matches. -/
theorem search_highlights (settings : Settings) (semantic fuzzy : Option Provider)
    (snapshot : Option SnapshotFile) (digest : Text → Text) (globs : GlobReader) {tasks : List Task}
    (spares : ∀ task ∈ tasks, task.SparesIndex) (now : Float) {query : Text} {parsed : Query}
    (hparse : Query.parse query = .ok parsed) {filter : Filter} (accepted : filter.Accepted globs)
    (limit : Option Number) :
    let w := ((fresh settings semantic fuzzy snapshot digest globs).run tasks).workspace
    ∃ response excerpts,
      (w.search now (Workspace.fulltext query filter limit)).answer =
        .ok ⟨.source .fulltext [] response, excerpts⟩ ∧
      List.Forall₂ (w.Shown (Bm25.matchedTerms w.settings.current.tuning.expansions
        w.catalog.index parsed)) response.results excerpts := by
  intro w
  have hcoherent : w.Coherent :=
    coherent_run (Workspace.coherent_new settings semantic fuzzy snapshot digest globs) tasks
  obtain ⟨hranker, hglobs⟩ :=
    Workspace.hybrid_new MemoryStore.empty settings semantic fuzzy snapshot digest globs
  have hretains := retains_run (fresh settings semantic fuzzy snapshot digest globs)
    fun task htask => (spares task htask).spares
  have haccepted : filter.Accepted w.hybrid.globs := by
    rw [hretains.globs.trans hglobs]
    exact accepted
  exact hcoherent.search_fulltext (hretains.behaviour.trans hranker) now hparse haccepted limit

/-- The text `A.b x` is found by `a.b`, also when the catalog was made anew and another document
that was there is gone. Its excerpt highlights the dotted word. -/
theorem search_highlights_dotted :
    let document : Char → Text → Json := fun id text =>
      .object [(Text.ofChars ['i', 'd'], .text (Text.ofChars [id])),
        (Text.ofChars ['t', 'e', 'x', 't'], .text text)]
    let text := Text.ofChars ['A', '.', 'b', ' ', 'x']
    let query := Text.ofChars ['a', '.', 'b']
    let w := ((fresh .default none none none id .literal).run
      [.add [document 'd' text, document 'e' query], .rebuild,
        .remove (Text.ofChars ['e'])]).workspace
    ∃ response e, (w.search 0 (Workspace.fulltext query .none none)).answer =
      .ok ⟨.source .fulltext [] response, [some e]⟩ ∧ e.Shows text [query] := by
  intro document text query w
  have hspares : ∀ task ∈ [Task.add [document 'd' text, document 'e' query], .rebuild,
      .remove (Text.ofChars ['e'])], task.SparesIndex := by
    simp [Task.SparesIndex]
  have hword : (⟨0, [[97], [98]]⟩ : Word) ∈ query.words := by decide +kernel
  obtain ⟨response, excerpts, hanswer, hall⟩ :=
    search_highlights .default none none none id .literal
      hspares 0 (Query.parse_text hword (by decide)) Filter.accepted_none none
  have hids : (w.search 0 (Workspace.fulltext query .none none)).answer.toOption.map
      (·.answer.rankedIds) = some [Text.ofChars ['d']] := by decide +kernel
  have hstored : w.store.documents[Text.ofChars ['d']]? = some ⟨Text.ofChars ['d'], text, []⟩ := by
    decide +kernel
  have hterms : Bm25.matchedTerms w.settings.current.tuning.expansions w.catalog.index
      (.term query) = [query] := by decide +kernel
  change (w.search 0 (Workspace.fulltext query .none none)).answer = _ at hanswer
  rw [hanswer] at hids
  obtain ⟨r, hresults, hid⟩ := List.map_eq_singleton_iff.1 (Option.some.inj hids)
  rw [hresults] at hall
  obtain ⟨excerpt, rest, ⟨d, e, hd, rfl, hshows⟩, hrest, rfl⟩ := List.forall₂_cons_left_iff.1 hall
  obtain rfl := List.forall₂_nil_left_iff.1 hrest
  rw [hid, hstored] at hd
  cases hd
  refine ⟨response, e, hanswer, ?_⟩
  rw [← hterms]
  exact hshows

end Session
end Quarry
