import Quarry.Proofs.Search.Fingerprint
import Quarry.Proofs.Search.Steady
import Quarry.Proofs.Search.Told

/-! The cache of a hybrid search. Each entry that is not past is the response to a search that its
key tells: with the same sources and settings, and with the query as it was put then. A cached
answer is therefore what its query comes to without the cache. -/

namespace Quarry

namespace Catalog

/-- What becomes of a catalog: it is read as before, or its version has grown. -/
def Advances (c c' : Catalog) : Prop :=
  c'.Alike c ∧ c'.index.version = c.index.version ∨ c.index.version < c'.index.version

theorem Advances.le {c c' : Catalog} (h : c.Advances c') : c.index.version ≤ c'.index.version := by
  rcases h with ⟨-, hversion⟩ | hlt
  · exact hversion.ge
  · exact hlt.le

end Catalog

namespace Hybrid

/-- Nothing but the catalog as it is read, its version, the behaviour of the providers, the digest
and the reader of globs counts for what a search begins with. -/
theorem pendingOf_congr {h h' : Hybrid} (behaviour : h'.behaviour = h.behaviour)
    (digest : h'.digest = h.digest) (globs : h'.globs = h.globs) {c c' : Catalog}
    (alike : c'.Alike c) (version : c'.index.version = c.index.version) (settings : Settings)
    (call : Call) (parsed : Query) :
    h'.pendingOf c' settings call parsed = h.pendingOf c settings call parsed := by
  have hrequest : h'.requestOf c' settings call parsed = h.requestOf c settings call parsed := by
    rw [requestOf, alike.passes_eq, globs, requestOf]
  have hnarrowed : h'.narrowed settings = h.narrowed settings := by
    simp only [narrowed, isAvailable_of_behaviour behaviour]
  simp only [pendingOf, digest, globs, active_of_behaviour behaviour, version, hnarrowed, hrequest,
    list_congr behaviour alike]

/-- A search that was begun on a catalog, with settings that share their base. -/
def Began (h : Hybrid) (c : Catalog) (base : Settings) (p : Pending) : Prop :=
  ∃ settings call parsed, settings.base = base ∧ settings.Bounded ∧ call.Exact ∧
    call.filter.Accepted h.globs ∧ Query.parse call.query = .ok parsed ∧
    p = h.pendingOf c settings call parsed

theorem Began.congr {h h' : Hybrid} {c c' : Catalog} {base : Settings} {p : Pending}
    (began : h.Began c base p) (behaviour : h'.behaviour = h.behaviour)
    (digest : h'.digest = h.digest) (globs : h'.globs = h.globs) (alike : c'.Alike c)
    (version : c'.index.version = c.index.version) : h'.Began c' base p := by
  obtain ⟨settings, call, parsed, hbase, hbounded, hexact, haccepted, hparse, rfl⟩ := began
  refine ⟨settings, call, parsed, hbase, hbounded, hexact, ?_, hparse,
    (pendingOf_congr behaviour digest globs alike version settings call parsed).symm⟩
  rw [globs]
  exact haccepted

/-- An entry that is not past is the response to a search begun with its key. -/
def Backed (h : Hybrid) (c : Catalog) (base : Settings) (e : Cache.Entry Response) : Prop :=
  e.version ≤ c.index.version ∧ (e.version = c.index.version →
    ∃ p, h.Began c base p ∧ p.key = e.key ∧ respond p c.index = e.response)

/-- The providers are steady, the digest tells texts apart, and each entry of the cache
is backed. -/
structure Transparent (h : Hybrid) (c : Catalog) (base : Settings) : Prop where
  steady : h.Steady base.deadlines
  injective : Function.Injective h.digest
  backed : ∀ e ∈ h.cache.entries, h.Backed c base e

theorem Backed.congr {h h' : Hybrid} {c : Catalog} {base : Settings} {e : Cache.Entry Response}
    (backed : h.Backed c base e) (behaviour : h'.behaviour = h.behaviour)
    (digest : h'.digest = h.digest) (globs : h'.globs = h.globs) : h'.Backed c base e := by
  refine ⟨backed.1, fun hversion => ?_⟩
  obtain ⟨p, hbegan, hp⟩ := backed.2 hversion
  exact ⟨p, hbegan.congr behaviour digest globs (.refl c) rfl, hp⟩

/-- An entry stays backed while the catalog is read as before, and is past when its version
has grown. -/
theorem Backed.advance {h : Hybrid} {c c' : Catalog} {base : Settings} {e : Cache.Entry Response}
    (backed : h.Backed c base e) (advances : c.Advances c') : h.Backed c' base e := by
  refine ⟨backed.1.trans advances.le, fun hversion => ?_⟩
  rcases advances with ⟨alike, hsame⟩ | hlt
  · obtain ⟨p, hbegan, hkey, hresponse⟩ := backed.2 (hversion.trans hsame)
    refine ⟨p, hbegan.congr rfl rfl rfl alike hsame, hkey, ?_⟩
    rw [← hresponse, respond, alike.passes_eq, respond]
  · exact absurd backed.1 (by omega)

theorem Transparent.advance {h : Hybrid} {c c' : Catalog} {base : Settings}
    (t : h.Transparent c base) (advances : c.Advances c') : h.Transparent c' base :=
  ⟨t.steady, t.injective, fun e he => (t.backed e he).advance advances⟩

/-- Searches that set nothing in the cache keep it transparent. -/
theorem Transparent.keeps {h h' : Hybrid} {c : Catalog} {base : Settings} (t : h.Transparent c base)
    (k : h.Keeps h') : h'.Transparent c base where
  steady := by
    rw [Steady, k.behaviour]
    exact t.steady
  injective := by
    rw [k.digest]
    exact t.injective
  backed e he := (t.backed e (k.entries e he)).congr k.behaviour k.digest k.globs

/-- An empty cache is transparent. -/
theorem transparent_of_nil {h : Hybrid} {base : Settings} (steady : h.Steady base.deadlines)
    (injective : Function.Injective h.digest) (empty : h.cache.entries = []) (c : Catalog) :
    h.Transparent c base where
  steady := steady
  injective := injective
  backed e he := by
    rw [empty] at he
    cases he

theorem Steady.register {h : Hybrid} {deadlines : PerSource Deadline} (steady : h.Steady deadlines)
    {s : Source} {p : Provider} (hp : p.Steady (deadlines.get s)) :
    (h.register s p).Steady deadlines := by
  intro s' p' hp'
  rw [get_behaviour, Hybrid.register, PerSource.get_set] at hp'
  split at hp'
  · rename_i hs
    rw [Option.map_some] at hp'
    obtain rfl := Option.some.inj hp'
    exact Provider.steady_unasked.2 (hs ▸ hp)
  · exact steady s' p' ((get_behaviour h s').trans hp')

theorem Steady.unregister {h : Hybrid} {deadlines : PerSource Deadline}
    (steady : h.Steady deadlines) (s : Source) : (h.unregister s).Steady deadlines := by
  rw [Hybrid.unregister]
  split
  · intro s' p' hp'
    rw [get_behaviour, PerSource.get_set] at hp'
    split at hp'
    · cases hp'
    · exact steady s' p' ((get_behaviour h s').trans hp')
  · exact steady

theorem Transparent.register {h : Hybrid} {c : Catalog} {base : Settings} (t : h.Transparent c base)
    {s : Source} {p : Provider} (hp : p.Steady (base.deadlines.get s)) :
    (h.register s p).Transparent c base :=
  transparent_of_nil (t.steady.register hp) t.injective rfl c

theorem Transparent.unregister {h : Hybrid} {c : Catalog} {base : Settings}
    (t : h.Transparent c base) (s : Source) : (h.unregister s).Transparent c base := by
  cases havailable : h.isAvailable s with
  | true =>
    have hunregister : h.unregister s =
        { h with providers := h.providers.set s none, cache := h.cache.invalidate } :=
          if_pos havailable
    have hsteady := t.steady.unregister s
    rw [hunregister] at hsteady ⊢
    exact transparent_of_nil hsteady t.injective rfl c
  | false =>
    rw [Hybrid.unregister, if_neg (by simp [havailable])]
    exact t

/-- Finishing a search keeps the cache transparent, if the index is still that of the catalog or the
version that the search began with is past. -/
theorem Transparent.finish {h : Hybrid} {c : Catalog} {base : Settings} (t : h.Transparent c base)
    (now : Float) {p : Pending} {ix : Index} (past : p.version ≤ c.index.version)
    (began : p.version = c.index.version → ix = c.index ∧ h.Began c base p) :
    (h.finish ix now p).2.Transparent c base := by
  obtain ⟨hbehaviour, hdigest, hglobs, hentries⟩ := finish_cases h ix now p
  refine ⟨?_, ?_, fun e he => ?_⟩
  · rw [Steady, hbehaviour]
    exact t.steady
  · rw [hdigest]
    exact t.injective
  · rcases hentries e he with hold | ⟨hkey, hversion, hresponse⟩
    · exact (t.backed e hold).congr hbehaviour hdigest hglobs
    · refine ⟨hversion ▸ past, fun hcurrent => ?_⟩
      obtain ⟨rfl, hbegan⟩ := began (hversion ▸ hcurrent)
      exact ⟨p, hbegan.congr hbehaviour hdigest hglobs (.refl c) rfl, hkey.symm, hresponse.symm⟩

/-- The glob of a call is taken if an entry of the cache is for it. -/
theorem Backed.accepted {h : Hybrid} {c : Catalog} {settings : Settings} {e : Cache.Entry Response}
    (backed : h.Backed c settings.base e) (injective : Function.Injective h.digest) {call : Call}
    {parsed : Query} (key : e.key = (h.pendingOf c settings call parsed).key)
    (version : e.version = c.index.version) : call.filter.Accepted h.globs := by
  obtain ⟨p, ⟨settings', call', parsed', -, -, -, haccepted, -, rfl⟩, hkey, -⟩ := backed.2 version
  obtain ⟨-, hfilter, -⟩ := Fingerprint.subject_inj (injective (hkey.trans key))
  have hcheck := haccepted.check_normalize
  rw [Filter.check, hfilter] at hcheck
  exact Filter.check_normalize_eq_ok_iff.1 hcheck

/-- What a cached response says is what its own query comes to without the cache. -/
theorem Backed.uncached {h : Hybrid} {c : Catalog} {settings : Settings} {e : Cache.Entry Response}
    (backed : h.Backed c settings.base e) (steady : h.Steady settings.deadlines)
    (injective : Function.Injective h.digest) (bounded : settings.Bounded) {call : Call}
    (exact : call.Exact) {parsed : Query} (key : e.key = (h.pendingOf c settings call parsed).key)
    (version : e.version = c.index.version) (now : Float) :
    e.response.query.trim.collapseBlanks = call.query.trim.collapseBlanks ∧
      ∃ fresh, (h.uncached.search c settings now
          { call with query := e.response.query, cancellation := .never }).1.1 = .ok fresh ∧
        fresh.results = e.response.results ∧ fresh.degraded = e.response.degraded ∧
        fresh.counts = e.response.counts := by
  have haccepted := backed.accepted injective key version
  obtain ⟨p, ⟨settings', call', parsed', hbase, hbounded, hexact, -, hparse, rfl⟩, hkey,
    hresponse⟩ := backed.2 version
  have hsubject := injective (hkey.trans key)
  obtain ⟨hquery, hfilter, hlimit, hactive, hweights⟩ := Fingerprint.subject_inj hsubject
  have hputQuery : e.response.query = call'.query := by
    rw [← hresponse]
    rfl
  rw [hputQuery]
  let put : Call := { call with query := call'.query, cancellation := .never }
  have hputAccepted : put.filter.Accepted h.globs := haccepted
  refine ⟨hquery, _, steady.search_uncached c now hputAccepted hparse rfl, ?_⟩
  have hpasses : c.index.passes h.globs call'.filter.normalize =
      c.index.passes h.globs call.filter.normalize := by
    funext id
    simp only [Index.passes, Filter.accepts, Filter.isActive, hfilter]
  obtain ⟨hresults, hdegraded, hcounts⟩ := freshResponse_congr (rfl : h.behaviour = h.behaviour) rfl
    (.refl c) hbase hactive (hbounded.fuse_eq bounded hweights)
    (show call'.query = put.query from rfl)
    (Call.bound_inj hexact exact hlimit) hpasses parsed'
  rw [← hresponse]
  exact ⟨hresults.symm, hdegraded.symm, hcounts.symm⟩

end Hybrid
end Quarry
