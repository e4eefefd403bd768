import Quarry.Hybrid
import Quarry.Proofs.Fused
import Quarry.Proofs.Ranking.ScoreOrder

/-! What fusing rankings gives for each document: the sources that rank it, in their fixed order,
and the shares that it has from them added up in this order. It does not depend on the order in
which the rankings come or in which a ranking lists its documents. -/

namespace Quarry

section

variable {κ β : Type} [BEq κ] [LawfulBEq κ]

theorem lookup_eq_none_of_not_mem {pairs : List (κ × β)} {key : κ} (h : key ∉ pairs.map (·.1)) :
    pairs.lookup key = none :=
  List.lookup_eq_none_iff.2 fun _ hx =>
    bne_iff_ne.2 (ne_of_mem_of_not_mem (List.mem_map_of_mem hx) h).symm

/-- Of pairs with different keys each one is found. -/
theorem lookup_eq_some_iff {pairs : List (κ × β)} (nodup : (pairs.map (·.1)).Nodup) {key : κ}
    {value : β} :
    pairs.lookup key = some value ↔ (key, value) ∈ pairs := by
  induction pairs with
  | nil => simp
  | cons pair rest ih =>
    obtain ⟨key', value'⟩ := pair
    obtain ⟨hfirst, hrest⟩ := List.nodup_cons.1 nodup
    rw [List.lookup_cons, List.mem_cons, Prod.mk.injEq]
    by_cases hkey : key = key'
    · have hnot : (key', value) ∉ rest := fun hmem => hfirst (List.mem_map.2 ⟨_, hmem, rfl⟩)
      simp [hkey, hnot, eq_comm]
    · simp [beq_false_of_ne hkey, hkey, ih hrest]

end

namespace Fusion

variable {α : Type}

/-! ### The rankings of a map -/

/-- The rankings that a map from sources gives, by its entries in the order of their insertion. -/
def ofEntries (entries : List (Source × List (DocId × α))) : PerSource (List (DocId × α)) :=
  entries.foldl (fun rankings e => rankings.set e.1 e.2) (.all [])

/-- The rankings of a search are those of a map from its sources to their results. -/
theorem rankings_eq_ofEntries (outcomes : List (Source × Outcome)) :
    Hybrid.rankings outcomes = ofEntries (outcomes.map fun (s, outcome) =>
      (s, (Hybrid.resultsOf outcome).map fun r => (r.docId, Float.ofNat r.rank))) := by
  rw [ofEntries, List.foldl_map]
  rfl

theorem get_foldl_set {entries : List (Source × List (DocId × α))}
    (nodup : (entries.map (·.1)).Nodup) (rankings : PerSource (List (DocId × α))) (s : Source) :
    (entries.foldl (fun rankings e => rankings.set e.1 e.2) rankings).get s =
      (entries.lookup s).getD (rankings.get s) := by
  induction entries generalizing rankings with
  | nil => rfl
  | cons entry rest ih =>
    obtain ⟨s', ranking⟩ := entry
    obtain ⟨hfirst, hrest⟩ := List.nodup_cons.1 nodup
    rw [List.foldl_cons, ih hrest, PerSource.get_set, List.lookup_cons]
    by_cases hs : s' = s
    · rw [← hs, lookup_eq_none_of_not_mem hfirst]
      simp
    · rw [if_neg hs, beq_false_of_ne (Ne.symm hs)]

/-- A source has one entry, and its ranking lists a document once. -/
structure Distinct (entries : List (Source × List (DocId × α))) : Prop where
  sources : (entries.map (·.1)).Nodup
  documents : ∀ entry ∈ entries, (entry.2.map (·.1)).Nodup

/-- Another way to write down the same rankings: with the entries of the map inserted in another
order, a ranking listed in another order with the ranks kept, or an empty ranking left out. -/
inductive Rearranged : List (Source × List (DocId × α)) → List (Source × List (DocId × α)) → Prop
  | inserted {entries entries' : List (Source × List (DocId × α))} (perm : entries.Perm entries') :
      Rearranged entries entries'
  | listed (before : List (Source × List (DocId × α))) (s : Source)
      {ranking ranking' : List (DocId × α)}
      (perm : ranking.Perm ranking') (after : List (Source × List (DocId × α))) :
      Rearranged (before ++ (s, ranking) :: after) (before ++ (s, ranking') :: after)
  | dropped (before : List (Source × List (DocId × α))) (s : Source)
      (after : List (Source × List (DocId × α))) :
        Rearranged (before ++ (s, []) :: after) (before ++ after)
  | trans {entries entries' entries'' : List (Source × List (DocId × α))}
      (first : Rearranged entries entries')
      (second : Rearranged entries' entries'') : Rearranged entries entries''

section

variable {entries entries' : List (Source × List (DocId × α))}

namespace Distinct

variable (h : Distinct entries)
include h

theorem get_ofEntries (s : Source) : (ofEntries entries).get s = (entries.lookup s).getD [] := by
  rw [ofEntries, get_foldl_set h.sources]
  cases s <;> rfl

/-- What a source ranks is in its entry. -/
theorem mem_get_iff {s : Source} {x : DocId × α} :
    x ∈ (ofEntries entries).get s ↔ ∃ ranking, (s, ranking) ∈ entries ∧ x ∈ ranking := by
  rw [h.get_ofEntries]
  constructor
  · intro hx
    cases hlookup : entries.lookup s with
    | none => rw [hlookup] at hx; cases hx
    | some ranking =>
      rw [hlookup] at hx
      exact ⟨ranking, (lookup_eq_some_iff h.sources).1 hlookup, hx⟩
  · rintro ⟨ranking, hmem, hx⟩
    rwa [(lookup_eq_some_iff h.sources).2 hmem]

theorem nodup_get (s : Source) : (((ofEntries entries).get s).map (·.1)).Nodup := by
  rw [h.get_ofEntries]
  cases hlookup : entries.lookup s with
  | none => exact List.nodup_nil
  | some ranking => exact h.documents _ ((lookup_eq_some_iff h.sources).1 hlookup)

end Distinct

namespace Rearranged

/-- The sources rank the same. -/
theorem exists_mem_iff (h : Rearranged entries entries') (s : Source) (x : DocId × α) :
    (∃ ranking, (s, ranking) ∈ entries ∧ x ∈ ranking) ↔
      ∃ ranking, (s, ranking) ∈ entries' ∧ x ∈ ranking := by
  induction h with
  | inserted perm => simp only [perm.mem_iff]
  | listed before s' perm after =>
    simp only [List.mem_append, List.mem_cons, Prod.mk.injEq, or_and_right, exists_or, and_assoc,
      exists_and_left, exists_eq_left, perm.mem_iff]
  | dropped before s' after =>
    simp only [List.mem_append, List.mem_cons, Prod.mk.injEq, or_and_right, exists_or, and_assoc,
      exists_and_left, exists_eq_left, List.not_mem_nil, and_false, false_or]
  | trans _ _ ih ih' => exact ih.trans ih'

theorem distinct (h : Rearranged entries entries') (hentries : Distinct entries) :
    Distinct entries' := by
  induction h with
  | inserted perm =>
    exact ⟨(perm.map _).nodup_iff.1 hentries.sources,
      fun entry h => hentries.documents entry (perm.mem_iff.2 h)⟩
  | listed before s' perm after =>
    refine ⟨by simpa using hentries.sources, fun entry h => ?_⟩
    rcases List.mem_append.1 h with h | h
    · exact hentries.documents entry (List.mem_append_left _ h)
    · rcases List.mem_cons.1 h with rfl | h
      · exact (perm.map _).nodup_iff.1
          (hentries.documents _ (List.mem_append_right _ List.mem_cons_self))
      · exact hentries.documents entry (List.mem_append_right _ (List.mem_cons_of_mem _ h))
  | dropped before s' after =>
    have hsub : (before ++ after).Sublist (before ++ (s', []) :: after) :=
      (List.sublist_cons_self _ _).append_left before
    exact ⟨hentries.sources.sublist (hsub.map _),
      fun entry h => hentries.documents entry (hsub.subset h)⟩
  | trans _ _ ih ih' => exact ih' (ih hentries)

end Rearranged
end

variable [Scalar α]

/-! ### One document -/

/-- What entries say of a document. One that is not there has no source and nothing added up. -/
def found : List (Fused α) → DocId → Fused α
  | [], id => ⟨id, Scalar.zero, []⟩
  | e :: rest, id => if e.docId = id then e else found rest id

/-- An entry with what one more source gives to its document. -/
def grown (e : Fused α) (source : Source) (amount : α) : Fused α :=
  { e with
    score := e.score + amount
    sources := if e.sources.contains source then e.sources else e.sources ++ [source] }

theorem found_of_mem {entries : List (Fused α)} (nodup : (ids entries).Nodup) {e : Fused α}
    (h : e ∈ entries) :
    found entries e.docId = e := by
  induction entries with
  | nil => cases h
  | cons first rest ih =>
    obtain ⟨hfirst, hrest⟩ := List.nodup_cons.1 nodup
    rw [found]
    rcases List.mem_cons.1 h with rfl | h
    · rw [if_pos rfl]
    · have hid : e.docId ∈ ids rest := List.mem_map_of_mem h
      rw [if_neg (ne_of_mem_of_not_mem hid hfirst).symm, ih hrest h]

theorem found_contribute (entries : List (Fused α)) (source : Source) (id : DocId) (amount : α)
    (id' : DocId) :
    found (contribute entries source id amount) id' =
      if id = id' then grown (found entries id') source amount else found entries id' := by
  induction entries with
  | nil =>
    rw [contribute, found, found]
    by_cases hid : id = id'
    · rw [if_pos hid, if_pos hid, hid]
      rfl
    · rw [if_neg hid, if_neg hid, found]
  | cons e rest ih =>
    rw [contribute]
    by_cases he : e.docId = id
    · rw [if_pos he, found, found]
      by_cases hid : id = id'
      · rw [if_pos hid, if_pos (he.trans hid), if_pos (he.trans hid)]
        rfl
      · rw [if_neg hid, if_neg (he ▸ hid), if_neg (he ▸ hid)]
    · rw [if_neg he, found, found]
      by_cases he' : e.docId = id'
      · rw [if_pos he', if_pos he', if_neg fun hid => he (he'.trans hid.symm)]
      · rw [if_neg he', if_neg he', ih]

/-- A ranking without repetitions gives a share to each of its documents. -/
theorem found_contributeAll (weight k : α) (source : Source) {ranking : List (DocId × α)}
    (nodup : (ranking.map (·.1)).Nodup) (entries : List (Fused α)) (id : DocId) :
    found (contributeAll weight k source ranking entries) id =
      match ranking.lookup id with
      | none => found entries id
      | some rank => grown (found entries id) source (weight / (k + rank)) := by
  induction ranking generalizing entries with
  | nil => rfl
  | cons entry rest ih =>
    obtain ⟨id', rank⟩ := entry
    obtain ⟨hfirst, hrest⟩ := List.nodup_cons.1 nodup
    rw [contributeAll, List.foldl_cons, ← contributeAll, ih hrest, found_contribute,
      List.lookup_cons]
    by_cases hid : id = id'
    · simp only [hid, beq_self_eq_true, if_true, lookup_eq_none_of_not_mem hfirst]
    · rw [beq_false_of_ne hid, if_neg (Ne.symm hid)]

/-! ### All sources -/

/-- What some of the sources say of a document, in their order: those that rank it, each with the
share that it gives. -/
def shares (weights : PerSource α) (k : α) (rankings : PerSource (List (DocId × α)))
    (sources : List Source) (id : DocId) : List (Source × α) :=
  sources.filterMap fun s => ((rankings.get s).lookup id).map fun rank =>
    (s, weights.get s / (k + rank))

/-- The entry of a document with these shares. -/
def entryOf (id : DocId) (shares : List (Source × α)) : Fused α :=
  ⟨id, (shares.map (·.2)).foldl (· + ·) Scalar.zero, shares.map (·.1)⟩

theorem grown_entryOf {id : DocId} {shares : List (Source × α)} {source : Source}
    (new : source ∉ shares.map (·.1)) (amount : α) :
    grown (entryOf id shares) source amount = entryOf id (shares ++ [(source, amount)]) := by
  have hcontains : (shares.map (·.1)).contains source = false := by
    rw [← Bool.not_eq_true, List.contains_iff_mem]
    exact new
  simp only [grown, entryOf, hcontains, List.map_append, List.foldl_append]
  rfl

variable {weights : PerSource α} {k : α} {rankings : PerSource (List (DocId × α))}

theorem shares_concat (sources : List Source) (source : Source) (id : DocId) :
    shares weights k rankings (sources ++ [source]) id = shares weights k rankings sources id ++
      (((rankings.get source).lookup id).map fun rank =>
        (source, weights.get source / (k + rank))).toList := by
  rw [shares, List.filterMap_append, ← shares, List.filterMap_cons, List.filterMap_nil]
  cases (rankings.get source).lookup id <;> rfl

theorem mem_of_mem_shares {sources : List Source} {id : DocId} {source : Source}
    (h : source ∈ (shares weights k rankings sources id).map (·.1)) : source ∈ sources := by
  obtain ⟨share, hshare, rfl⟩ := List.mem_map.1 h
  obtain ⟨s, hs, heq⟩ := List.mem_filterMap.1 hshare
  obtain ⟨rank, -, rfl⟩ := Option.map_eq_some_iff.1 heq
  exact hs

/-- Each source that comes up adds its shares to those of the sources before it. -/
theorem found_foldl_contributeAll (nodup : ∀ s, ((rankings.get s).map (·.1)).Nodup)
    {done sources : List Source} (distinct : (done ++ sources).Nodup) {entries : List (Fused α)}
    (hentries : ∀ id, found entries id = entryOf id (shares weights k rankings done id))
    (id : DocId) :
    found (sources.foldl (fun entries s =>
      contributeAll (weights.get s) k s (rankings.get s) entries) entries) id =
      entryOf id (shares weights k rankings (done ++ sources) id) := by
  induction sources generalizing done entries with
  | nil => rw [List.foldl_nil, List.append_nil, hentries]
  | cons s rest ih =>
    have hnew : s ∉ done := fun hmem =>
      (List.nodup_cons.1 (List.nodup_middle.1 distinct)).1 (List.mem_append_left _ hmem)
    rw [List.append_cons] at distinct ⊢
    refine ih distinct fun id => ?_
    rw [found_contributeAll _ _ _ (nodup s), hentries, shares_concat]
    cases hrank : (rankings.get s).lookup id with
    | none => simp only [Option.map_none, Option.toList_none, List.append_nil]
    | some rank => exact grown_entryOf (fun h => hnew (mem_of_mem_shares h)) _

theorem found_sums (nodup : ∀ s, ((rankings.get s).map (·.1)).Nodup) (id : DocId) :
    found (sums weights k rankings) id = entryOf id (shares weights k rankings Source.all id) := by
  have hnone : ∀ id, found [] id = entryOf id (shares weights k rankings [] id) := fun _ => rfl
  have hall := found_foldl_contributeAll nodup (show ([] ++ Source.all).Nodup by decide) hnone id
  exact hall

theorem mem_sums_iff (nodup : ∀ s, ((rankings.get s).map (·.1)).Nodup) {e : Fused α} :
    e ∈ sums weights k rankings ↔ (∃ s, e.docId ∈ (rankings.get s).map (·.1)) ∧
      e = entryOf e.docId (shares weights k rankings Source.all e.docId) := by
  obtain ⟨hdistinct, hmem⟩ := ids_sums weights k rankings
  have hshares : ∀ e ∈ sums weights k rankings,
      e = entryOf e.docId (shares weights k rankings Source.all e.docId) := fun e he => by
    rw [← found_sums nodup, found_of_mem hdistinct he]
  rw [← hmem]
  refine ⟨fun h => ⟨List.mem_map_of_mem h, hshares e h⟩, fun ⟨hid, heq⟩ => ?_⟩
  obtain ⟨e', he', hsame⟩ := List.mem_map.1 hid
  rwa [heq, ← hsame, ← hshares e' he']

/-- The shares by the ranks that the sources give. -/
theorem shares_eq_map {rank : Source → α} {id : DocId}
    (hrank : ∀ s r, (rankings.get s).lookup id = some r → rank s = r) (sources : List Source) :
    shares weights k rankings sources id =
      (sources.filter fun s => ((rankings.get s).lookup id).isSome).map fun s =>
        (s, weights.get s / (k + rank s)) := by
  induction sources with
  | nil => rfl
  | cons s rest ih =>
    rw [shares, List.filterMap_cons, ← shares, List.filter_cons]
    cases hlookup : (rankings.get s).lookup id with
    | none => simp [ih]
    | some r => simp [ih, hrank s r hlookup]

/-- An entry names the sources that rank its document, in their fixed order, and adds up in this
order the share that each gives by its rank. -/
theorem sources_and_score_of_mem_fuse (nodup : ∀ s, ((rankings.get s).map (·.1)).Nodup)
    {e : Fused α} (h : e ∈ fuse weights k rankings) :
    e.sources.Sublist Source.all ∧ (∀ s, s ∈ e.sources ↔ e.docId ∈ (rankings.get s).map (·.1)) ∧
      ∃ rank : Source → α, (∀ s ∈ e.sources, (e.docId, rank s) ∈ rankings.get s) ∧
        e.score = e.sources.foldl (fun sum s => sum + weights.get s / (k + rank s))
          Scalar.zero := by
  obtain ⟨-, heq⟩ := (mem_sums_iff nodup).1 ((rankSort_perm _ _).mem_iff.1 h)
  let rank : Source → α := fun s => ((rankings.get s).lookup e.docId).getD k
  have hrank : ∀ s r, (rankings.get s).lookup e.docId = some r → rank s = r := fun s r hr =>
    congrArg (Option.getD · k) hr
  have hshares : shares weights k rankings Source.all e.docId = _ := shares_eq_map hrank Source.all
  have hsources : e.sources = Source.all.filter fun s =>
      ((rankings.get s).lookup e.docId).isSome := by
    refine (congrArg Fused.sources heq).trans ?_
    rw [hshares]
    exact (List.map_map ..).trans (List.map_id _)
  have hmem : ∀ s, s ∈ e.sources ↔ e.docId ∈ (rankings.get s).map (·.1) := fun s => by
    rw [hsources, List.mem_filter, Option.isSome_iff_exists]
    simp only [Source.mem_all, true_and, lookup_eq_some_iff (nodup s), List.mem_map, Prod.exists,
      exists_and_right, exists_eq_right]
  refine ⟨hsources ▸ List.filter_sublist, hmem, rank, fun s hs => ?_, ?_⟩
  · obtain ⟨⟨id, r⟩, hmem, rfl⟩ := List.mem_map.1 ((hmem s).1 hs)
    rw [hrank s r ((lookup_eq_some_iff (nodup s)).2 hmem)]
    exact hmem
  · refine (congrArg Fused.score heq).trans ?_
    rw [hsources, hshares, entryOf, List.map_map, List.foldl_map]
    rfl

/-! ### The fused order -/

section

variable {weights : PerSource Float} {k : Float}
  {rankings rankings' : PerSource (List (DocId × Float))}
  (numbers : ∀ e ∈ fuse weights k rankings, e.score.isNaN = false)
include numbers

/-- Scores that are numbers order the documents, whatever rankings of the same documents they
come from. -/
theorem fuse_eq_of_mem_iff (nodup : ∀ s, ((rankings.get s).map (·.1)).Nodup)
    (nodup' : ∀ s, ((rankings'.get s).map (·.1)).Nodup)
    (same : ∀ s x, x ∈ rankings.get s ↔ x ∈ rankings'.get s) :
    fuse weights k rankings' = fuse weights k rankings := by
  have hlookup : ∀ s id, (rankings.get s).lookup id = (rankings'.get s).lookup id := fun s id => by
    refine Option.ext fun r => ?_
    rw [lookup_eq_some_iff (nodup s), lookup_eq_some_iff (nodup' s), same]
  have hshares : ∀ id, shares weights k rankings Source.all id =
      shares weights k rankings' Source.all id :=
    fun id => by simp only [shares, hlookup]
  have hnodup : ∀ rankings : PerSource (List (DocId × Float)), (sums weights k rankings).Nodup :=
    fun rankings => (ids_sums weights k rankings).1.of_map
  have hperm : (sums weights k rankings).Perm (sums weights k rankings') := by
    refine (List.perm_ext_iff_of_nodup (hnodup _) (hnodup _)).2 fun e => ?_
    rw [mem_sums_iff nodup, mem_sums_iff nodup', hshares]
    simp only [List.mem_map, same]
  have hnumbers : ∀ e ∈ sums weights k rankings, e.score.isNaN = false :=
    fun e he => numbers e ((rankSort_perm _ _).mem_iff.2 he)
  exact ((Scalar.ordersBy_ranksBefore Fused.score Fused.docId).rankSort_eq_of_perm hnumbers
    (ids_sums weights k rankings).1 hperm).symm

theorem pairwise_fuse : (fuse weights k rankings).Pairwise fun a b =>
    b.score < a.score ∨ (a.score == b.score) = true ∧ compare a.docId b.docId = .lt := by
  have hsums : ∀ e ∈ sums weights k rankings, e.score.isNaN = false :=
    fun e he => numbers e ((rankSort_perm _ _).mem_iff.2 he)
  refine (Scalar.pairwise_rankSort hsums (ids_sums weights k rankings).1).imp_of_mem
    fun {a b} ha hb h => ?_
  rwa [Scalar.ranksBefore_iff (numbers a ha) (numbers b hb),
    ← Binary.lt_iff_value (numbers b hb) (numbers a ha),
    ← Binary.beq_iff_value (numbers a ha) (numbers b hb)] at h

end

/-- Fusing a map of rankings is exact: it gives each document of the rankings once, with the sources
that rank it in their fixed order and the sum of the shares that it has from them, added up from
zero in this order. If all sums are numbers, the documents come in the fused order, whichever way
the map is written down. -/
theorem fuse_exact (weights : PerSource Float) (k : Float)
    {entries : List (Source × List (DocId × Float))} (distinct : Distinct entries) :
    (ids (fuse weights k (ofEntries entries))).Nodup ∧
    (∀ id, id ∈ ids (fuse weights k (ofEntries entries)) ↔
      ∃ entry ∈ entries, id ∈ entry.2.map (·.1)) ∧
    (∀ e ∈ fuse weights k (ofEntries entries), e.sources.Sublist Source.all ∧
      (∀ s, s ∈ e.sources ↔ ∃ ranking, (s, ranking) ∈ entries ∧ e.docId ∈ ranking.map (·.1)) ∧
      ∃ rank : Source → Float,
        (∀ s ∈ e.sources, ∃ ranking, (s, ranking) ∈ entries ∧ (e.docId, rank s) ∈ ranking) ∧
        e.score = e.sources.foldl (fun sum s => sum + weights.get s / (k + rank s)) 0) ∧
    ((∀ e ∈ fuse weights k (ofEntries entries), e.score.isNaN = false) →
      ((fuse weights k (ofEntries entries)).Pairwise fun a b =>
        b.score < a.score ∨ (a.score == b.score) = true ∧ compare a.docId b.docId = .lt) ∧
      ∀ entries', Rearranged entries entries' →
        fuse weights k (ofEntries entries') = fuse weights k (ofEntries entries)) := by
  have hids : ∀ s id, id ∈ ((ofEntries entries).get s).map (·.1) ↔
      ∃ ranking, (s, ranking) ∈ entries ∧ id ∈ ranking.map (·.1) := fun s id => by
    simp only [List.mem_map, distinct.mem_get_iff]
    grind
  obtain ⟨honce, hall⟩ := ids_fuse weights k (ofEntries entries)
  refine ⟨honce, fun id => ?_, fun e he => ?_, fun numbers => ⟨pairwise_fuse numbers, ?_⟩⟩
  · simp only [hall, hids, Prod.exists]
  · obtain ⟨hsublist, hmem, rank, hrank, hscore⟩ :=
      sources_and_score_of_mem_fuse distinct.nodup_get he
    exact ⟨hsublist, fun s => (hmem s).trans (hids s _), rank,
      fun s hs => distinct.mem_get_iff.1 (hrank s hs), hscore⟩
  · intro entries' h
    have hdistinct := h.distinct distinct
    refine fuse_eq_of_mem_iff numbers distinct.nodup_get hdistinct.nodup_get fun s x => ?_
    rw [distinct.mem_get_iff, hdistinct.mem_get_iff, h.exists_mem_iff]

/-- Two rankings that overlap and an empty one between them. Without this one, with the others
exchanged and one of them listed in another order, the same is fused. -/
theorem fuse_exact_of_overlap :
    let entries : List (Source × List (DocId × Float)) :=
      [(.fuzzy, [(("b" : String), 1), (("a" : String), 2)]), (.semantic, []),
        (.bm25, [(("a" : String), 1), (("c" : String), 2), (("b" : String), 4)])]
    let entries' : List (Source × List (DocId × Float)) :=
      [(.bm25, [(("c" : String), 2), (("a" : String), 1), (("b" : String), 4)]),
        (.fuzzy, [(("b" : String), 1), (("a" : String), 2)])]
    Distinct entries ∧
      ids (fuse ⟨0.5, 0.3, 0.25⟩ 60 (ofEntries entries)) =
        [("a" : String), ("b" : String), ("c" : String)] ∧
      fuse ⟨0.5, 0.3, 0.25⟩ 60 (ofEntries entries') =
        fuse ⟨0.5, 0.3, 0.25⟩ 60 (ofEntries entries) :=
  ⟨⟨by decide, by decide⟩, by decide +kernel,
    ((fuse_exact ⟨0.5, 0.3, 0.25⟩ 60 ⟨by decide, by decide⟩).2.2.2 (by decide +kernel)).2 _
      ((Rearranged.dropped [_] .semantic [_]).trans
        ((Rearranged.listed [_] .bm25 (.swap ..) []).trans (.inserted (.swap ..))))⟩

end Fusion
end Quarry
