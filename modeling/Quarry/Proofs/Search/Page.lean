import Quarry.Proofs.Fallible
import Quarry.Proofs.Fused
import Quarry.Proofs.Search.Asked
import Quarry.Proofs.Search.Candidates
import Quarry.Proofs.Search.Ranker

/-! The page that a hybrid search comes to. Filters never starve it: sources are cut before the
lists are fused, and outside sources do not know of filters, but the ranker over the index filters
first and is asked for no fewer documents than are wanted. -/

namespace Quarry.Hybrid

/-- A page names each document once, keeps to the filter and is not longer than asked for. -/
theorem respond_page (p : Pending) (ix : Index) :
    ((respond p ix).results.map (·.docId)).Nodup ∧
      (∀ e ∈ (respond p ix).results, ix.passes p.globs p.filter e.docId = true) ∧
      (respond p ix).results.length ≤ p.limit := by
  have hids :=
    (Fusion.ids_fuse p.settings.weights p.settings.fusionConstant (rankings p.outcomes)).1
  refine ⟨hids.sublist (((List.take_sublist _ _).trans List.filter_sublist).map _),
    fun e he => ?_, ?_⟩
  · exact (List.mem_filter.1 (List.mem_of_mem_take he)).2
  · exact (List.length_take_le ..)

/-- Documents that are ranked and pass the filter fill a page, as far as they go. -/
theorem le_length_respond (p : Pending) (ix : Index) {ids : List DocId} (nodup : ids.Nodup)
    (ranked : ∀ id ∈ ids, ∃ s, id ∈ ((rankings p.outcomes).get s).map (·.1))
    (passes : ∀ id ∈ ids, ix.passes p.globs p.filter id = true) :
    min p.limit ids.length ≤ (respond p ix).results.length := by
  have hids :=
    (Fusion.ids_fuse p.settings.weights p.settings.fusionConstant (rankings p.outcomes)).2
  have hsubset : ids ⊆ ((Fusion.fuse p.settings.weights p.settings.fusionConstant
      (rankings p.outcomes)).filter fun e => ix.passes p.globs p.filter e.docId).map (·.docId) := by
    intro id hid
    obtain ⟨e, he, rfl⟩ := List.mem_map.1 ((hids id).2 (ranked id hid))
    exact List.mem_map_of_mem (List.mem_filter.2 ⟨he, passes _ hid⟩)
  have hlength := (nodup.subperm hsubset).length_le
  rw [List.length_map] at hlength
  rw [respond, List.length_take]
  exact min_le_min_left _ hlength

/-- What the ranker over the index ranks, when it takes part. -/
theorem runSource_index {h : Hybrid} {s : Source} (ranker : h.providers.get s = some .index)
    (c : Catalog) (r : Request) :
    (h.runSource c r .never s).1 = .answered (Provider.rankIndex c s r) := by
  rw [runSource_fst, ranker]
  rfl

/-- The ranker has for a call each document once, and only such as pass the filter. -/
theorem found_spec (h : Hybrid) {c : Catalog} (listed : c.index.Listed) (settings : Settings)
    (call : Call) (parsed : Query) :
    (Provider.found c (h.requestOf c settings call parsed)).Nodup ∧
      (∀ id ∈ Provider.found c (h.requestOf c settings call parsed),
        c.index.passes h.globs call.filter.normalize id = true) ∧
      (Provider.found c (h.requestOf c settings call parsed)).length ≤
        (Bm25.score settings.tuning c.index parsed).length :=
  ⟨Provider.nodup_found listed _, fun _ hid => (List.mem_filter.1 hid).2,
    (List.length_filter_le _ _).trans (List.length_map _).le⟩

/-- The ranking of the ranker over the index, when it takes part: the documents that it has, as many
as it is asked for. -/
theorem get_rankings_index {h : Hybrid} {c : Catalog} {settings : Settings} {call : Call}
    {parsed : Query} (never : call.cancellation = .never) {s : Source}
    (ranker : h.providers.get s = some .index) (enabled : settings.enabled.get s = true)
    (listed : c.index.Listed) :
    (rankings (h.asked c settings call parsed).outcomes).get s =
      (((settings.candidates call.bound).select
        (Provider.found c (h.requestOf c settings call parsed))).zipIdx 1).map
          fun x => (x.1, Float.ofNat x.2) := by
  have hactive : s ∈ h.active settings :=
    mem_active.2 ⟨enabled, by rw [isAvailable, ranker, Option.isSome_some]⟩
  have hranks := Provider.map_rank_rankIndex listed s (h.requestOf c settings call parsed)
  rw [asked, get_rankings, if_pos hactive, never, runSource_index ranker, resultsOf]
  rw [requestOf] at hranks ⊢
  rw [← hranks, List.map_map]
  rfl

/-- A hybrid search with the ranker over the index comes to a page without repetitions, of documents
that pass the filter, no longer than asked for; and as long as that, if as many documents match
and pass. -/
theorem search_page {h : Hybrid} {c : Catalog} {rs : Records} (represents : c.index.Represents rs)
    {settings : Settings} (ranker : h.providers.get .bm25 = some .index)
    (enabled : settings.enabled.get .bm25 = true) {factor : Number}
    (hfactor : settings.candidateFactor = some factor) (number : factor.isNotANumber = false)
    {call : Call} {parsed : Query} (hparse : Query.parse call.query = .ok parsed)
    (never : call.cancellation = .never) (accepted : call.filter.Accepted h.globs)
    (exact : call.Exact) {now : Float} (misses : h.Misses c settings now call)
    (usable : ∀ s ∈ h.active settings,
      Usable (h.runSource c (h.requestOf c settings call parsed) .never s).1) :
    ∃ response, (h.search c settings now call).1.1 = .ok response ∧
      (response.results.map (·.docId)).Nodup ∧
      (∀ e ∈ response.results, c.index.passes h.globs call.filter.normalize e.docId = true) ∧
      response.results.length ≤ call.bound ∧
      min call.bound (((Bm25.score settings.tuning c.index parsed).map (·.docId)).filter
        (c.index.passes h.globs call.filter.normalize)).length ≤ response.results.length := by
  obtain ⟨hnodup, hpasses, hlength⟩ := respond_page (h.asked c settings call parsed) c.index
  refine ⟨_, misses.search_eq accepted hparse never usable, hnodup, hpasses, hlength, ?_⟩
  have hranking : (rankings (h.asked c settings call parsed).outcomes).get .bm25 = _ :=
    get_rankings_index never ranker enabled represents.listed
  obtain ⟨hfoundNodup, hfoundPasses, -⟩ := found_spec h represents.listed settings call parsed
  change min call.bound (Provider.found c (h.requestOf c settings call parsed)).length ≤ _
  generalize Provider.found c (h.requestOf c settings call parsed) = found at *
  have hsublist := Number.select_sublist (settings.candidates call.bound) found
  have hsame :=
    congrArg List.length (Settings.take_candidates hfactor number exact.told_bound found)
  rw [List.length_take, List.length_take] at hsame
  have hfull := le_length_respond (h.asked c settings call parsed) c.index
    (hfoundNodup.sublist hsublist)
    (fun id hid => ⟨.bm25, by
      rw [hranking, List.map_map]
      exact (List.zipIdx_map_fst 1 _).symm ▸ hid⟩)
    (fun id hid => hfoundPasses id (hsublist.subset hid))
  have hlimit : (h.asked c settings call parsed).limit = call.bound := rfl
  rw [hlimit] at hfull
  omega

/-- An outside source fills its list with documents that are filtered out. Globs are read as the one
path that they spell. -/
theorem search_page_filtered :
    let others : Backend := .ofFunction fun _ _ => .answers ["c", "d", "e"]
    let h : Hybrid := { empty none id .literal with
      providers := ⟨some .index, some (.backend others), none⟩ }
    let c := ((Catalog.empty 0).add ⟨"a", "b", []⟩).add ⟨"c", "d", []⟩
    let call : Call := ⟨"b", ⟨none, some "a"⟩, some 1, .never⟩
    ∃ response, (h.search c .default 0 call).1.1 = .ok response ∧ response.results.length = 1 ∧
      ∀ e ∈ response.results, c.index.passes h.globs call.filter.normalize e.docId = true := by
  intro others h c call
  have hreachable : c.index.Reachable :=
    .add (d := ⟨"c", "d", []⟩) (.add (d := ⟨"a", "b", []⟩) (.empty 0) rfl) rfl
  obtain ⟨rs, hrs, -⟩ := Index.exists_records_of_reachable hreachable
  have hparse : Query.parse call.query = .ok (.term "b") := by with_unfolding_all rfl
  have hexact : call.Exact := by
    intro n hn
    obtain rfl := Option.mem_some.1 hn
    exact rfl
  have husable : ∀ s ∈ h.active .default,
      Usable (h.runSource c (h.requestOf c .default call (.term "b")) .never s).1 := by
    intro s _
    cases s <;> exact ⟨rfl, rfl⟩
  have hmisses : h.Misses c .default 0 call := by rfl
  have hfactor : Settings.default.candidateFactor = some 2 := rfl
  have haccepted : call.filter.Accepted h.globs := Filter.accepted_literal _
  obtain ⟨response, hsearch, -, hpasses, hlength, hfull⟩ := search_page hrs rfl rfl hfactor rfl
    hparse rfl haccepted hexact hmisses husable
  have hone : (((Bm25.score Settings.default.tuning c.index (.term "b")).map (·.docId)).filter
      (c.index.passes h.globs call.filter.normalize)).length = 1 := by decide +kernel
  rw [hone] at hfull
  exact ⟨response, hsearch, le_antisymm hlength hfull, hpasses⟩

/-- A factor that is named without a value leaves a page empty, although a document matches. -/
theorem search_starves :
    let h : Hybrid := { empty none id .literal with
      providers := ⟨some .index, none, none⟩ }
    let c := (Catalog.empty 0).add ⟨"a", "b", []⟩
    let call : Call := ⟨"b", .none, none, .never⟩
    ∃ settings response, Settings.resolve (.object [("candidateMultiplier", .missing)]) =
      .ok settings ∧ (h.search c settings 0 call).1.1 = .ok response ∧ response.results.length = 0 ∧
      (((Bm25.score settings.tuning c.index (.term "b")).map (·.docId)).filter
        (c.index.passes h.globs call.filter.normalize)).length = 1 := by
  intro h c call
  have hlengths : (Settings.resolve (.object [("candidateMultiplier", .missing)])).toOption.map
      (fun settings => ((h.search c settings 0 call).1.1.toOption.map (·.results.length),
        (((Bm25.score settings.tuning c.index (.term "b")).map (·.docId)).filter
          (c.index.passes h.globs call.filter.normalize)).length)) =
            some (some 0, 1) := by decide +kernel
  obtain ⟨settings, hsettings, hpair⟩ := Option.map_eq_some_iff.1 hlengths
  obtain ⟨hresults, hcount⟩ := Prod.mk.inj hpair
  obtain ⟨response, hresponse, hnone⟩ := Option.map_eq_some_iff.1 hresults
  exact ⟨settings, response, eq_ok_of_toOption hsettings, eq_ok_of_toOption hresponse,
    hnone, hcount⟩

end Quarry.Hybrid
