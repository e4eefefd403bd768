import Quarry.Proofs.Search.Sole

/-! Searches of the ranker over the index with a filter. Filtering and cutting are done twice, once
by the ranker, which is asked for a multiple of what is wanted, and once on its answer; together
they come to the first documents of the ranked list that pass the filter. -/

namespace Quarry

/-- A multiple by a natural number is never less than what is wanted. -/
theorem Settings.take_candidates_whole {s : Settings} {n : ℕ}
    (hfactor : s.candidateFactor = some (.whole n)) (bound : ℕ) {α : Type} (items : List α) :
    ((s.candidates bound).select items).take bound = items.take bound := by
  rw [candidates, hfactor]
  exact Number.take_take_of_le items (Nat.le_mul_of_pos_right _ (by omega))

namespace Ranked

theorem length_number (source : Source) (rank : Nat) (ordering : List (DocId × Float)) :
    (number source rank ordering).length = ordering.length := by
  have hlength := congrArg List.length (map_number source rank ordering)
  rwa [List.length_map] at hlength

/-- Ranks have no gaps. -/
theorem ranks_number (source : Source) (rank : Nat) (ordering : List (DocId × Float)) :
    (number source rank ordering).map (·.rank) =
      List.range' rank (number source rank ordering).length := by
  have hranks := congrArg (List.map Prod.snd) (map_rank_number source rank ordering)
  rw [List.map_map, List.zipIdx_map_snd, List.length_map] at hranks
  rw [length_number]
  exact hranks

/-- Ranks do not depend on what comes later. -/
theorem take_number (source : Source) (rank : Nat) (ordering : List (DocId × Float)) (n : ℕ) :
    (number source rank ordering).take n = number source rank (ordering.take n) := by
  induction ordering generalizing rank n with
  | nil => simp [number]
  | cons entry rest ih =>
    cases n with
    | zero => rfl
    | succ n => rw [number, List.take_succ_cons, List.take_succ_cons, number, ih]

end Ranked

namespace Hybrid

/-- The page of what passes the filter. -/
def page (h : Hybrid) (c : Catalog) (settings : Settings) (s : Source) (call : Call)
    (parsed : Query) : SourceResponse where
  results := Ranked.number s 1 ((h.passing c settings call parsed).take call.bound)
  query := call.query
  source := s
  degraded := none

/-- A search of the ranker over the index that nobody gives up comes to the page of what passes
the filter. -/
theorem searchSource_eq_page {h : Hybrid} {c : Catalog} (listed : c.index.Listed) {s : Source}
    (ranker : h.providers.get s = some .index) {settings : Settings} {n : ℕ}
    (hfactor : settings.candidateFactor = some (.whole n)) {call : Call} {parsed : Query}
    (hparse : Query.parse call.query = .ok parsed) (never : call.cancellation = .never)
    (accepted : call.filter.Accepted h.globs) :
    (h.searchSource c settings s call).1.1 = .ok (h.page c settings s call parsed) := by
  have hresults := h.results_askedAlone listed (Settings.take_candidates_whole hfactor call.bound)
    parsed s
  rw [searchSource_index ranker c settings hparse never accepted, page, ← hresults]
  rfl

/-- Without being given up, the search of the ranker over the index comes to the first documents of
the ranked list that pass the filter, as many as are wanted, with their scores and ranked from one
on. The multiple that is asked for makes no difference to it, and the page of a larger limit goes
on from it. -/
theorem searchSource_filters {h : Hybrid} {c : Catalog} {rs : Records}
    (represents : c.index.Represents rs) (ranker : h.providers.get .bm25 = some .index)
    {settings : Settings} {n : ℕ} (hfactor : settings.candidateFactor = some (.whole n))
    {call : Call} {parsed : Query} (hparse : Query.parse call.query = .ok parsed)
    (never : call.cancellation = .never) (accepted : call.filter.Accepted h.globs) :
    ∃ response, (h.searchSource c settings .bm25 call).1.1 = .ok response ∧
      response.degraded = none ∧
      response.results.map (fun r => (r.docId, r.score)) =
        (((Bm25.score settings.tuning c.index parsed).filter fun x =>
          c.index.passes h.globs call.filter.normalize x.docId).take call.bound).map
            (fun x => (x.docId, x.score)) ∧
      response.results.map (·.rank) = List.range' 1 response.results.length ∧
      (∀ m : ℕ, (h.searchSource c { settings with candidateFactor := some (.whole m) }
        .bm25 call).1.1 = .ok response) ∧
      ∀ limit : Option Number, call.bound ≤ { call with limit }.bound →
        ∃ more, (h.searchSource c settings .bm25 { call with limit }).1.1 = .ok more ∧
          response.results <+: more.results := by
  have listed := represents.listed
  refine ⟨h.page c settings .bm25 call parsed,
    searchSource_eq_page listed ranker hfactor hparse never accepted, rfl, ?_,
    Ranked.ranks_number _ _ _, fun m => ?_, fun limit hle => ?_⟩
  · rw [page, Ranked.map_number, passing, List.map_take]
  · have hfactor' : { settings with candidateFactor := some (.whole m) }.candidateFactor =
      some (.whole m) := rfl
    exact searchSource_eq_page listed ranker hfactor' hparse never accepted
  · have never' : { call with limit }.cancellation = .never := never
    refine ⟨_, searchSource_eq_page listed ranker hfactor hparse never' accepted, ?_⟩
    rw [page, page, ← Ranked.take_number, ← Ranked.take_number]
    exact List.take_prefix_take_left hle

/-- Both documents match, and the one that passes the filter is ranked first whatever the other one
scores. Globs are read as the one path that they spell. -/
theorem searchSource_filters_glob :
    let h : Hybrid := { empty none id .literal with
      providers := ⟨some .index, none, none⟩ }
    let c := ((Catalog.empty 0).add ⟨"a", "b d", []⟩).add ⟨"c", "b b", []⟩
    let call : Call := ⟨"b", ⟨none, some "a"⟩, some 1, .never⟩
    ((Bm25.score Settings.default.tuning c.index (.term "b")).map (·.docId)).Perm
      (["a", "c"] : List DocId) ∧
      ∃ response, (h.searchSource c .default .bm25 call).1.1 = .ok response ∧
        response.results.map (·.docId) = (["a"] : List DocId) ∧
          response.results.map (·.rank) = [1] := by
  intro h c call
  have hreachable : c.index.Reachable :=
    .add (d := ⟨"c", "b b", []⟩) (.add (d := ⟨"a", "b d", []⟩) (.empty 0) rfl) rfl
  obtain ⟨rs, hrs, -⟩ := Index.exists_records_of_reachable hreachable
  have hranker : h.providers.get .bm25 = some .index := rfl
  have hparse : Query.parse call.query = .ok (.term "b") := by with_unfolding_all rfl
  have hfactor : Settings.default.candidateFactor = some (.whole 2) := rfl
  have hnever : call.cancellation = .never := rfl
  have haccepted : call.filter.Accepted h.globs := Filter.accepted_literal _
  obtain ⟨response, hsearch, -, hpairs, hranks, -⟩ :=
    searchSource_filters hrs hranker hfactor hparse hnever haccepted
  have hscored : ((Bm25.score Settings.default.tuning c.index (.term "b")).map (·.docId)).Perm
      (["a", "c"] : List DocId) := by
    rw [Bm25.score, if_neg (by decide +kernel)]
    refine (Bm25.perm_ranked _).trans (.of_eq ?_)
    decide +kernel
  have hpassing : ((Bm25.score Settings.default.tuning c.index (.term "b")).filter fun x =>
      c.index.passes h.globs call.filter.normalize x.docId).map (·.docId) =
        (["a"] : List DocId) := by
    rw [← List.perm_singleton]
    have hfiltered := hscored.filter (c.index.passes h.globs call.filter.normalize)
    rw [List.filter_map] at hfiltered
    exact hfiltered.trans (.of_eq (by decide +kernel))
  have hresults : response.results.map (·.docId) = (["a"] : List DocId) := by
    have hfirst := congrArg (List.map Prod.fst) hpairs
    rw [List.map_map, List.map_map, List.map_take] at hfirst
    exact hfirst.trans (congrArg (List.take call.bound) hpassing)
  refine ⟨hscored, response, hsearch, hresults, ?_⟩
  have hlength := congrArg List.length hresults
  rw [List.length_map] at hlength
  rw [hranks, hlength]
  rfl

end Hybrid
end Quarry
