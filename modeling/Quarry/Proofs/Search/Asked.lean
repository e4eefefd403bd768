import Quarry.Proofs.Search.Steady

/-! Hybrid searches that ask their sources, whatever these do. The outcome of each source that takes
part is that of its own provider, since asking one source leaves the others as they are. -/

namespace Quarry.Hybrid

/-- Asking one source leaves the providers of the others as they are. -/
theorem get_runSource_of_ne (h : Hybrid) (c : Catalog) (r : Request) (cancellation : Cancellation)
    {s t : Source} (hne : s ≠ t) :
    (h.runSource c r cancellation s).2.providers.get t = h.providers.get t := by
  rw [runSource]
  cases h.providers.get s with
  | none => rfl
  | some p => exact (PerSource.get_set _ _ _ _).trans (if_neg hne)

/-- The outcomes of distinct sources do not depend on the order in which they are asked. -/
theorem runAll_fst (c : Catalog) (r : Request) (cancellation : Cancellation) {sources : List Source}
    (nodup : sources.Nodup) (h : Hybrid) :
    (h.runAll c r cancellation sources).1 =
      sources.map fun s => (s, (h.runSource c r cancellation s).1) := by
  induction sources generalizing h with
  | nil => rfl
  | cons s rest ih =>
    obtain ⟨hs, hrest⟩ := List.nodup_cons.1 nodup
    rw [runAll, List.map_cons]
    refine congrArg (List.cons _) ((ih hrest _).trans (List.map_congr_left fun t ht => ?_))
    have hne : s ≠ t := fun heq => hs (heq ▸ ht)
    rw [runSource_fst, get_runSource_of_ne h c r cancellation hne, ← runSource_fst]

theorem nodup_active (h : Hybrid) (settings : Settings) : (h.active settings).Nodup :=
  List.Nodup.filter _ (by decide : Source.all.Nodup)

theorem mem_active {h : Hybrid} {settings : Settings} {s : Source} :
    s ∈ h.active settings ↔ settings.enabled.get s = true ∧ h.isAvailable s = true := by
  rw [active, List.mem_filter, Bool.and_eq_true, and_iff_right s.mem_all]

/-- The cache has no answer for a call. -/
def Misses (h : Hybrid) (c : Catalog) (settings : Settings) (now : Float) (call : Call) : Prop :=
  (h.cache.get (fingerprint h.digest call.query call.filter.normalize (.whole call.bound)
    (h.active settings) settings) c.index.version now).1 = none

/-- The search that a call begins when its sources are asked. -/
def asked (h : Hybrid) (c : Catalog) (settings : Settings) (call : Call)
    (parsed : Query) : Pending :=
  { h.pendingOf c settings call parsed with
    outcomes := (h.active settings).map fun s =>
      (s, (h.runSource c (h.requestOf c settings call parsed) call.cancellation s).1) }

/-- A call that the cache has no answer for, and whose glob is taken, asks its sources, and leaves
all else to the lookup. -/
theorem Misses.start_asked {h : Hybrid} {c : Catalog} {settings : Settings} {now : Float}
    {call : Call} (misses : h.Misses c settings now call) (accepted : call.filter.Accepted h.globs)
    {parsed : Query} (hread : readCall call = .ok parsed) :
    ∃ h', h.start c settings now call =
        ((.pending (h.asked c settings call parsed), (h.narrowed settings).map narrowingNote), h') ∧
      Spares { h with
        cache := (h.cache.get (h.asked c settings call parsed).key c.index.version now).2 } h' := by
  have hrun : ∀ cache : Cache Response,
      (({ h with cache } : Hybrid).runAll c (h.requestOf c settings call parsed) call.cancellation
        (h.active settings)).1 = (h.asked c settings call parsed).outcomes := by
    intro cache
    rw [runAll_fst c _ call.cancellation (h.nodup_active settings), asked]
    simp only [runSource_fst]
  rw [Misses] at misses
  rw [start, hread]
  simp only [asked, pendingOf]
  generalize h.cache.get _ _ now = looked at misses ⊢
  obtain ⟨found, cache⟩ := looked
  obtain rfl : found = none := misses
  have houtcomes := hrun cache
  have hspares := spares_runAll { h with cache } c (h.requestOf c settings call parsed)
    call.cancellation (h.active settings)
  rw [requestOf] at houtcomes hspares
  simp only [accepted.check_normalize, houtcomes]
  exact ⟨_, rfl, hspares⟩

theorem Misses.start_eq {h : Hybrid} {c : Catalog} {settings : Settings} {now : Float} {call : Call}
    (misses : h.Misses c settings now call) (accepted : call.filter.Accepted h.globs)
    {parsed : Query} (hparse : Query.parse call.query = .ok parsed)
    (never : call.cancellation = .never) :
    (h.start c settings now call).1.1 = .pending (h.asked c settings call parsed) := by
  have hread : readCall call = .ok parsed := by
    rw [readCall, hparse, never]
    rfl
  obtain ⟨h', hstart, -⟩ := misses.start_asked accepted hread
  rw [hstart]

/-- It is answered by what their outcomes come to, if it can go on with each of them. -/
theorem Misses.search_eq {h : Hybrid} {c : Catalog} {settings : Settings} {now : Float}
    {call : Call} (misses : h.Misses c settings now call) (accepted : call.filter.Accepted h.globs)
    {parsed : Query} (hparse : Query.parse call.query = .ok parsed)
    (never : call.cancellation = .never)
    (usable : ∀ s ∈ h.active settings,
      Usable (h.runSource c (h.requestOf c settings call parsed) .never s).1) :
    (h.search c settings now call).1.1 =
      .ok (respond (h.asked c settings call parsed) c.index) := by
  have hstart := misses.start_eq accepted hparse never
  have hgoes : failureOf? ((h.asked c settings call parsed).outcomes.map (·.2)) = none := by
    refine failureOf?_eq_none fun outcome hmem => ?_
    obtain ⟨asked, hasked, rfl⟩ := List.mem_map.1 hmem
    obtain ⟨s, hs, rfl⟩ := List.mem_map.1 hasked
    rw [never]
    exact usable s hs
  rw [search]
  simp only [hstart, finish]
  rw [show (h.asked c settings call parsed).cancellation = .never from never]
  simp only [Cancellation.race, hgoes]

/-- A call whose glob is refused fails for that, unless the cache has an answer for it. -/
theorem Misses.search_refused {h : Hybrid} {c : Catalog} {settings : Settings} {now : Float}
    {call : Call} (misses : h.Misses c settings now call) {f : Failure}
    (refused : call.filter.check h.globs = .error f) {parsed : Query}
    (hparse : Query.parse call.query = .ok parsed) (never : call.cancellation = .never) :
    (h.search c settings now call).1.1 = .error f := by
  have hread : readCall call = .ok parsed := by
    rw [readCall, hparse, never]
    rfl
  rw [Misses] at misses
  rw [search, start, hread]
  simp only
  generalize h.cache.get _ _ now = looked at misses ⊢
  obtain ⟨found, cache⟩ := looked
  obtain rfl : found = none := misses
  simp only [Filter.check_normalize, refused]

/-- What the sources rank, each by its own outcome. -/
theorem get_rankings (outcomeOf : Source → Outcome) (sources : List Source) (s : Source) :
    (rankings (sources.map fun s => (s, outcomeOf s))).get s =
      if s ∈ sources then (resultsOf (outcomeOf s)).map fun r => (r.docId, Float.ofNat r.rank)
      else [] := by
  have hfold : ∀ start : PerSource (List (DocId × Float)),
      ((sources.map fun s => (s, outcomeOf s)).foldl (fun rankings asked =>
        rankings.set asked.1 ((resultsOf asked.2).map fun r => (r.docId, Float.ofNat r.rank)))
          start).get s =
      if s ∈ sources then (resultsOf (outcomeOf s)).map fun r => (r.docId, Float.ofNat r.rank)
      else start.get s := by
    induction sources with
    | nil => exact fun start => rfl
    | cons t rest ih =>
      intro start
      rw [List.map_cons, List.foldl_cons, ih, PerSource.get_set]
      by_cases hrest : s ∈ rest
      · simp [hrest]
      · by_cases heq : t = s
        · simp [heq]
        · simp [hrest, heq, Ne.symm heq]
  refine (hfold (.all [])).trans ?_
  cases s <;> rfl

end Quarry.Hybrid
