import Quarry.Proofs.Search.Isolation
import Quarry.Proofs.Search.Page

/-! Hybrid searches that rest on the ranker over the index, because every other source failed or
found nothing. Fusion turns the scores of the ranker into shares by rank, and as long as these fall
from rank to rank the documents and their order are those of the search that asks the
ranker alone. -/

namespace Quarry

/-- What a rank of the ranker over the index counts. -/
def Settings.share (s : Settings) (rank : ℕ) : Float :=
  s.weights.bm25 / (s.fusionConstant + Float.ofNat rank)

/-- What the first ranks count falls from each to the next. -/
def Settings.Falls (s : Settings) (count : ℕ) : Prop :=
  ∀ rank, 1 ≤ rank → rank < count → s.share (rank + 1) < s.share rank

instance (s : Settings) (count : ℕ) : Decidable (s.Falls count) :=
  decidable_of_iff (∀ rank < count, 1 ≤ rank → s.share (rank + 1) < s.share rank)
    ⟨fun h rank hone hlt => h rank hlt hone, fun h rank hlt hone => h rank hone hlt⟩

theorem Settings.Falls.mono {s : Settings} {count count' : ℕ} (falls : s.Falls count)
    (h : count' ≤ count) :
    s.Falls count' := fun rank hone hlt => falls rank hone (hlt.trans_le h)

namespace Fusion

/-- Shares that fall keep the only ranking there is in its order. -/
theorem ids_fuse_sole {settings : Settings} {rankings : PerSource (List (DocId × Float))}
    {ids : List DocId}
    (ranking : rankings.get .bm25 = (ids.zipIdx 1).map fun x => (x.1, Float.ofNat x.2))
    (others : ∀ s, s ≠ .bm25 → rankings.get s = []) (nodup : ids.Nodup)
    (falls : settings.Falls ids.length) :
    Fusion.ids (fuse settings.weights settings.fusionConstant rankings) = ids := by
  have hids : ((ids.zipIdx 1).map fun x => (x.1, Float.ofNat x.2)).map (·.1) = ids := by
    rw [List.map_map]
    exact List.zipIdx_map_fst 1 ids
  have hsums : sums settings.weights settings.fusionConstant rankings = (ids.zipIdx 1).map
      fun x => (⟨x.1, Scalar.zero + settings.share x.2, [.bm25]⟩ : Fused Float) := by
    rw [sums, Source.all, List.foldl_cons, List.foldl_cons, List.foldl_cons, List.foldl_nil,
      others .semantic (by decide), others .fuzzy (by decide), ranking, contributeAll_nil,
        contributeAll_nil]
    refine (contributeAll_of_nodup _ _ _ (by rw [hids]; exact nodup)).trans ?_
    rw [List.nil_append, List.map_map]
    rfl
  have hchain : ((ids.zipIdx 1).map fun x =>
      (⟨x.1, Scalar.zero + settings.share x.2, [.bm25]⟩ : Fused Float)).IsChain
      fun x y => Scalar.ranksBefore Fused.score Fused.docId y x = false := by
    rw [List.isChain_iff_getElem]
    intro i hi
    rw [List.length_map, List.length_zipIdx] at hi
    have hfalls : (0 : Float) + settings.share (i + 2) < 0 + settings.share (i + 1) :=
      (Binary.lt_congr (Binary.zero_add_eq _) (Binary.zero_add_eq _)).2
        (falls (i + 1) (by omega) hi)
    simp only [List.getElem_map, List.getElem_zipIdx, Scalar.ranksBefore, Nat.add_comm 1]
    change (if ((0 : Float) + settings.share (i + 2) == 0 + settings.share (i + 1)) = true then _
      else decide ((0 : Float) + settings.share (i + 1) < 0 + settings.share (i + 2))) = false
    rw [Binary.beq_eq_false_of_lt hfalls, if_neg Bool.false_ne_true, decide_eq_false]
    exact Binary.not_lt_of_lt hfalls
  rw [fuse, hsums, rankSort_eq_self _ hchain, Fusion.ids, List.map_map]
  exact List.zipIdx_map_fst 1 ids

end Fusion

namespace Hybrid

/-! ### The search that asks the ranker alone -/

/-- What the ranker alone is asked for a call. -/
def requestAlone (h : Hybrid) (c : Catalog) (settings : Settings) (call : Call)
    (parsed : Query) : Request :=
  { h.requestOf c settings call parsed with
    candidates :=
      if call.filter.normalize.isActive then settings.candidates call.bound else .whole call.bound }

/-- The search that a call begins when the ranker alone is asked. -/
def askedAlone (h : Hybrid) (c : Catalog) (settings : Settings) (s : Source) (call : Call)
    (parsed : Query) :
    PendingSource where
  source := s
  query := call.query
  filter := call.filter.normalize
  globs := h.globs
  limit := call.bound
  cancellation := .never
  outcome := .answered (Provider.rankIndex c s (h.requestAlone c settings call parsed))

theorem searchSource_index {h : Hybrid} {s : Source} (ranker : h.providers.get s = some .index)
    (c : Catalog) (settings : Settings) {call : Call} {parsed : Query}
    (hparse : Query.parse call.query = .ok parsed) (never : call.cancellation = .never)
    (accepted : call.filter.Accepted h.globs) : (h.searchSource c settings s call).1.1 =
      .ok (respondSource (h.askedAlone c settings s call parsed) c.index) := by
  have havailable : (!h.isAvailable s) = false := by rw [isAvailable, ranker]; rfl
  have hrun := runSource_index ranker c (h.requestAlone c settings call parsed)
  rw [askedAlone]
  rw [requestAlone, requestOf] at hrun ⊢
  rw [searchSource, startSource, hparse]
  simp only [havailable, never, Cancellation.check, accepted.check_normalize, hrun, finishSource,
    Cancellation.race]
  rfl

/-- A search of one source fails if its glob is refused. -/
theorem searchSource_refused {h : Hybrid} {s : Source} (available : h.isAvailable s = true)
    (c : Catalog) (settings : Settings) {call : Call} {parsed : Query}
    (hparse : Query.parse call.query = .ok parsed) (never : call.cancellation = .never)
    {f : Failure} (refused : call.filter.check h.globs = .error f) :
    (h.searchSource c settings s call).1.1 = .error f := by
  rw [searchSource, startSource, hparse]
  simp only [available, never, Cancellation.check, Filter.check_normalize, refused]
  rfl

/-- What the ranker over the index scores for a call and the filter lets through, the best first. -/
def passing (h : Hybrid) (c : Catalog) (settings : Settings) (call : Call) (parsed : Query) :
    List (DocId × Float) :=
  ((Bm25.score settings.tuning c.index parsed).filter fun x =>
    c.index.passes h.globs call.filter.normalize x.docId).map fun x => (x.docId, x.score)

theorem map_fst_passing (h : Hybrid) (c : Catalog) (settings : Settings) (call : Call)
    (parsed : Query) :
    (h.passing c settings call parsed).map (·.1) =
      Provider.found c (h.requestOf c settings call parsed) := by
  rw [passing, List.map_map, Provider.found, List.filter_map]
  rfl

/-- The page of a single source whose results all pass the filter. -/
theorem results_respondSource {p : PendingSource} {ix : Index}
    (passes : ∀ r ∈ resultsOf p.outcome, ix.passes p.globs p.filter r.docId = true) :
    (respondSource p ix).results =
      Ranked.assign p.source (((resultsOf p.outcome).map fun r => (r.docId, r.score)).take
        p.limit) := by
  rw [respondSource, List.filter_eq_self.2 passes, List.map_take]

/-- The ranker alone comes to the first of what passes the filter, ranked from one on, as long as it
is asked for no fewer than are wanted. -/
theorem results_askedAlone (h : Hybrid) {c : Catalog} (listed : c.index.Listed)
    {settings : Settings} {call : Call}
    (candidates : ∀ items : List (DocId × Float),
      ((settings.candidates call.bound).select items).take call.bound = items.take call.bound)
    (parsed : Query) (s : Source) :
    (respondSource (h.askedAlone c settings s call parsed) c.index).results =
      Ranked.number s 1 ((h.passing c settings call parsed).take call.bound) := by
  let r := h.requestAlone c settings call parsed
  obtain ⟨hnodup, hpasses, -⟩ := found_spec h listed settings call parsed
  rw [← map_fst_passing] at hnodup hpasses
  have hasked : Provider.rankIndex c s r = Ranked.number s 1 (r.candidates.select
      (h.passing c settings call parsed)) := by
    rw [Provider.rankIndex, Number.map_select]
    refine Ranked.assign_of_nodup (hnodup.sublist ?_)
    exact (Number.select_sublist r.candidates _).map _
  have hmap := Ranked.map_number s 1 (r.candidates.select (h.passing c settings call parsed))
  have htake : (r.candidates.select (h.passing c settings call parsed)).take call.bound =
      (h.passing c settings call parsed).take call.bound := by
    simp only [r, requestAlone]
    split
    · exact candidates _
    · exact Number.take_take_of_le _ le_rfl
  rw [results_respondSource]
  · simp only [askedAlone, resultsOf]
    rw [hasked, hmap, htake, Ranked.assign_of_nodup
      (hnodup.sublist ((List.take_sublist _ _).map _))]
  · intro ranked hranked
    simp only [askedAlone, resultsOf] at hranked
    rw [hasked] at hranked
    have hpair : (ranked.docId, ranked.score) ∈
        r.candidates.select (h.passing c settings call parsed) :=
      hmap ▸ List.mem_map_of_mem hranked
    exact hpasses _ (List.mem_map_of_mem ((Number.select_sublist _ _).subset hpair))

/-- A fused page of one ranking alone, of documents that pass the filter. -/
theorem ids_respond_sole {p : Pending} {ix : Index} {ids : List DocId} (nodup : ids.Nodup)
    (ranking : (rankings p.outcomes).get .bm25 = (ids.zipIdx 1).map fun x => (x.1, Float.ofNat x.2))
    (others : ∀ s, s ≠ .bm25 → (rankings p.outcomes).get s = [])
    (falls : p.settings.Falls ids.length)
    (passes : ∀ id ∈ ids, ix.passes p.globs p.filter id = true) :
    (respond p ix).results.map (·.docId) = ids.take p.limit := by
  have hfused := Fusion.ids_fuse_sole ranking others nodup falls
  have hkept : ((Fusion.fuse p.settings.weights p.settings.fusionConstant
      (rankings p.outcomes)).filter
      fun e => ix.passes p.globs p.filter e.docId) =
        Fusion.fuse p.settings.weights p.settings.fusionConstant (rankings p.outcomes) :=
    List.filter_eq_self.2 fun e he => passes _ (hfused ▸ List.mem_map_of_mem he)
  rw [respond, hkept, List.map_take]
  exact congrArg _ hfused

section

variable {h : Hybrid} {c : Catalog} (listed : c.index.Listed) {settings : Settings}
    {factor : Number}
  (hfactor : settings.candidateFactor = some factor) (number : factor.isNotANumber = false)
  {call : Call} (exact : call.Exact) (parsed : Query)

include listed hfactor number exact

/-- The ranker alone comes to its first documents that pass the filter. -/
theorem ids_askedAlone (s : Source) :
    (respondSource (h.askedAlone c settings s call parsed) c.index).results.map (·.docId) =
      (Provider.found c (h.requestOf c settings call parsed)).take call.bound := by
  have hpairs := Ranked.map_number s 1 ((h.passing c settings call parsed).take call.bound)
  have hids := congrArg (List.map Prod.fst) hpairs
  rw [List.map_map, List.map_take, map_fst_passing] at hids
  rw [h.results_askedAlone listed (Settings.take_candidates hfactor number exact.told_bound)
    parsed s, ← hids]
  rfl

/-- So does a hybrid search in which no other source ranks anything. -/
theorem ids_asked_sole (ranker : h.providers.get .bm25 = some .index)
    (enabled : settings.enabled.get .bm25 = true) (never : call.cancellation = .never)
    (falls : settings.Falls (Bm25.score settings.tuning c.index parsed).length)
    (others : ∀ s ∈ h.active settings, s ≠ .bm25 →
      resultsOf (h.runSource c (h.requestOf c settings call parsed) .never s).1 = []) :
    (respond (h.asked c settings call parsed) c.index).results.map (·.docId) =
      (Provider.found c (h.requestOf c settings call parsed)).take call.bound := by
  obtain ⟨hnodup, hpasses, hlength⟩ := found_spec h listed settings call parsed
  have hsublist := Number.select_sublist (settings.candidates call.bound)
    (Provider.found c (h.requestOf c settings call parsed))
  have hothers : ∀ s, s ≠ .bm25 →
      (rankings (h.asked c settings call parsed).outcomes).get s = [] := by
    intro s hne
    rw [asked, get_rankings, never]
    split
    · rw [others s ‹_› hne, List.map_nil]
    · rfl
  exact (ids_respond_sole (p := h.asked c settings call parsed) (hnodup.sublist hsublist)
    (get_rankings_index never ranker enabled listed) hothers
    (falls.mono (hsublist.length_le.trans hlength)) fun id hid =>
      hpasses id (hsublist.subset hid)).trans
      (Settings.take_candidates hfactor number exact.told_bound _)

end

/-! ### Sources that add nothing -/

/-- A source that adds nothing to a search: it rejects the search, its time runs out, or it
finds nothing. -/
inductive Barren (h : Hybrid) (c : Catalog) (r : Request) (s : Source) : Prop
  | rejects {b : Backend} (provider : h.providers.get s = some (.backend b)) (reason : Reason)
      (told : reason.hasText = true) (reply : b.reply b.calls r.query r.candidates = .fails reason)
  | timesOut {b : Backend} (provider : h.providers.get s = some (.backend b))
      (limited : r.settings.deadlines.get s ≠ .unlimited)
      (late : b.reply b.calls r.query r.candidates = .hangs ∨
        b.reply b.calls r.query r.candidates = .waits ∨
        (r.settings.deadlines.get s).isOver (b.delay b.calls r.query r.candidates) = true)
  | findsNothing (nothing : (h.runSource c r .never s).1 = .answered [])

theorem exists_degraded_atDeadline (s : Source) {d : Deadline} (limited : d ≠ .unlimited) :
    ∃ f, Outcome.atDeadline s d false = .degraded f := by
  cases d with
  | unlimited => exact absurd rfl limited
  | unset | after n => exact ⟨_, rfl⟩

/-- The deadline of a source from outside is over before it settles, or it comes to what it does. -/
theorem runSource_backend_cases {h : Hybrid} {r : Request} {s : Source} {b : Backend}
    (provider : h.providers.get s = some (.backend b)) (c : Catalog) :
    (∃ f, (h.runSource c r .never s).1 = .degraded f) ∨
      (r.settings.deadlines.get s).isOver (b.delay b.calls r.query r.candidates) = false ∧
        (h.runSource c r .never s).1 = Provider.outcomeOf (b.reply b.calls r.query r.candidates) s r
          (r.settings.deadlines.get s) .never := by
  rw [runSource_backend provider]
  cases hdeadline : (r.settings.deadlines.get s).isOver (b.delay b.calls r.query r.candidates) with
  | true =>
    rw [Backend.replyBy_of_isOver hdeadline]
    refine .inl (exists_degraded_atDeadline s fun unlimited => ?_)
    rw [unlimited] at hdeadline
    cases hdeadline
  | false =>
    rw [Backend.replyBy_of_isOver_eq_false hdeadline]
    exact .inr ⟨rfl, rfl⟩

/-- A source that adds nothing is reported, or answers without results. -/
theorem Barren.runSource_fst {h : Hybrid} {c : Catalog} {r : Request} {s : Source}
    (barren : h.Barren c r s) : (∃ f, (h.runSource c r .never s).1 = .degraded f) ∨
      (h.runSource c r .never s).1 = .answered [] := by
  cases barren with
  | rejects provider reason told reply =>
    obtain ⟨f, hf, -⟩ := asError?_foreign told
    refine .inl ((runSource_backend_cases provider c).elim id fun ⟨_, hrun⟩ => ⟨f, ?_⟩)
    rw [hrun, reply, Provider.outcomeOf, Outcome.ofFailure, hf]
    rfl
  | timesOut provider limited late =>
    refine .inl ((runSource_backend_cases provider c).elim id fun ⟨intime, hrun⟩ => ?_)
    rw [hrun]
    rcases late with hangs | waits | passed
    · rw [hangs]
      exact exists_degraded_atDeadline s limited
    · rw [waits]
      exact exists_degraded_atDeadline s limited
    · rw [passed] at intime
      cases intime
  | findsNothing nothing => exact .inr nothing

/-- A source that adds nothing has no results, and the search goes on. -/
theorem Barren.adds_nothing {h : Hybrid} {c : Catalog} {r : Request} {s : Source}
    (barren : h.Barren c r s) : resultsOf (h.runSource c r .never s).1 = [] ∧
      Usable (h.runSource c r .never s).1 := by
  rcases barren.runSource_fst with ⟨f, hrun⟩ | hrun
  · rw [hrun]
    exact ⟨rfl, rfl, rfl⟩
  · rw [hrun]
    exact ⟨rfl, usable_answered []⟩

/-- Where the ranker over the index alone finds something, a hybrid search names the documents that
a search of the ranker names, in the same order. If the glob is refused, both fail for that. -/
theorem search_eq_searchSource {h : Hybrid} {c : Catalog} {rs : Records}
    (represents : c.index.Represents rs) {settings : Settings}
    (ranker : h.providers.get .bm25 = some .index) (enabled : settings.enabled.get .bm25 = true)
    {factor : Number} (hfactor : settings.candidateFactor = some factor)
    (number : factor.isNotANumber = false) {call : Call} {parsed : Query}
    (hparse : Query.parse call.query = .ok parsed) (never : call.cancellation = .never)
    (exact : call.Exact) {now : Float} (misses : h.Misses c settings now call)
    (falls : settings.Falls (Bm25.score settings.tuning c.index parsed).length)
    (others : ∀ s ∈ h.active settings, s ≠ .bm25 →
      h.Barren c (h.requestOf c settings call parsed) s) :
    (call.filter.Accepted h.globs →
      ∃ response single, (h.search c settings now call).1.1 = .ok response ∧
        (h.searchSource c settings .bm25 call).1.1 = .ok single ∧
        response.results.map (·.docId) = single.results.map (·.docId)) ∧
    ∀ f, call.filter.check h.globs = .error f →
      (h.search c settings now call).1.1 = .error f ∧
        (h.searchSource c settings .bm25 call).1.1 = .error f := by
  have havailable : h.isAvailable .bm25 = true := by rw [isAvailable, ranker, Option.isSome_some]
  refine ⟨fun accepted => ?_, fun f refused => ⟨misses.search_refused refused hparse never,
    searchSource_refused havailable c settings hparse never refused⟩⟩
  have husable : ∀ s ∈ h.active settings,
      Usable (h.runSource c (h.requestOf c settings call parsed) .never s).1 := by
    intro s hs
    by_cases heq : s = .bm25
    · rw [heq, runSource_index ranker]
      exact usable_answered _
    · exact (others s hs heq).adds_nothing.2
  refine ⟨_, _, misses.search_eq accepted hparse never husable,
    searchSource_index ranker c settings hparse never accepted, ?_⟩
  rw [ids_asked_sole represents.listed hfactor number exact parsed ranker enabled never falls
      fun s hs hne => (others s hs hne).adds_nothing.1,
    ids_askedAlone represents.listed hfactor number exact parsed]

/-- One source rejects the search and another one finds nothing. -/
theorem search_eq_searchSource_rejected :
    let rejecting : Backend := .ofFunction fun _ _ => .fails (.value (.text "down"))
    let h : Hybrid := { empty none id .literal with
      providers := ⟨some .index, some (.backend rejecting), some .silent⟩ }
    let c := ((Catalog.empty 0).add ⟨"a", "b", []⟩).add ⟨"c", "b b", []⟩
    let call : Call := ⟨"b", .none, none, .never⟩
    ∃ response single, (h.search c .default 0 call).1.1 = .ok response ∧
      (h.searchSource c .default .bm25 call).1.1 = .ok single ∧
      response.results.map (·.docId) = single.results.map (·.docId) := by
  intro rejecting h c call
  have hreachable : c.index.Reachable :=
    .add (d := ⟨"c", "b b", []⟩) (.add (d := ⟨"a", "b", []⟩) (.empty 0) rfl) rfl
  obtain ⟨rs, hrs, -⟩ := Index.exists_records_of_reachable hreachable
  have hparse : Query.parse call.query = .ok (.term "b") := by with_unfolding_all rfl
  have hmisses : h.Misses c .default 0 call := by rfl
  have hlength : (Bm25.score Settings.default.tuning c.index (.term "b")).length = 2 := by
    rw [Bm25.score, if_neg (by decide +kernel), (rankSort_perm _ _).length_eq, List.length_map]
    decide +kernel
  have hfalls : Settings.default.Falls
      (Bm25.score Settings.default.tuning c.index (.term "b")).length := by
    rw [hlength]
    decide +kernel
  have hfactor : Settings.default.candidateFactor = some 2 := rfl
  have hexact : call.Exact := fun n hn => absurd hn (by simp [call])
  refine (search_eq_searchSource hrs rfl rfl hfactor rfl hparse rfl hexact hmisses hfalls ?_).1
    Filter.accepted_none
  intro s _ hne
  cases s with
  | bm25 => exact absurd rfl hne
  | semantic => exact .rejects rfl (.value (.text "down")) rfl rfl
  | fuzzy => exact .findsNothing rfl

/-- A factor that is named without a value makes the hybrid search lose what the ranker finds. -/
theorem search_loses :
    let h : Hybrid := { empty none id .literal with
      providers := ⟨some .index, none, none⟩ }
    let c := (Catalog.empty 0).add ⟨"a", "b", []⟩
    let call : Call := ⟨"b", .none, none, .never⟩
    ∃ settings response single,
      Settings.resolve (.object [("candidateMultiplier", .missing)]) = .ok settings ∧
      settings.Falls 10 ∧
      (h.search c settings 0 call).1.1 = .ok response ∧
      (h.searchSource c settings .bm25 call).1.1 = .ok single ∧
      response.results.map (·.docId) = [] ∧ single.results.map (·.docId) = ["a"] := by
  intro h c call
  have hids : (Settings.resolve (.object [("candidateMultiplier", .missing)])).toOption.map
      (fun settings => (decide (settings.Falls 10),
        (h.search c settings 0 call).1.1.toOption.map (·.results.map (·.docId)),
        (h.searchSource c settings .bm25 call).1.1.toOption.map (·.results.map (·.docId)))) =
      some (true, some [], some [[97]]) := by decide +kernel
  obtain ⟨settings, hsettings, hall⟩ := Option.map_eq_some_iff.1 hids
  obtain ⟨hfalls, hboth⟩ := Prod.mk.inj hall
  obtain ⟨hpage, halone⟩ := Prod.mk.inj hboth
  obtain ⟨response, hresponse, hnone⟩ := Option.map_eq_some_iff.1 hpage
  obtain ⟨single, hsingle, hone⟩ := Option.map_eq_some_iff.1 halone
  exact ⟨settings, response, single, eq_ok_of_toOption hsettings, of_decide_eq_true hfalls,
    eq_ok_of_toOption hresponse, eq_ok_of_toOption hsingle, hnone, hone⟩

end Hybrid
end Quarry
