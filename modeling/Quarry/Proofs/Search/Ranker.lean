import Quarry.Dispatch
import Quarry.Proofs.Ranking.Matching
import Quarry.Proofs.Search.Steady

/-! Full-text searches. The ranker over the index answers at once, and what it answers is filtered,
cut and ranked anew: each result is a document that the ranker scores. -/

namespace Quarry

theorem Number.select_sublist {α : Type} (count : Number) (items : List α) :
    (count.select items).Sublist items := by
  have hbound : ∀ bound, (takeBound bound items).Sublist items := by
    intro bound
    cases bound with
    | none => exact .refl items
    | some n => exact List.take_sublist n items
  cases count with
  | whole n => exact List.take_sublist n items
  | real x =>
    rw [select]
    split
    · split
      · exact List.take_sublist _ items
      · exact List.nil_sublist items
    · exact hbound _

theorem Number.map_select {α β : Type} (count : Number) (f : α → β) (items : List α) :
    (count.select items).map f = count.select (items.map f) := by
  have hbound : ∀ bound, (takeBound bound items).map f = takeBound bound (items.map f) := by
    intro bound
    cases bound with
    | none => rfl
    | some n => exact List.map_take
  cases count with
  | whole n => exact List.map_take
  | real x =>
    rw [select, select]
    split
    · split
      · rw [List.map_take, List.length_map]
      · rfl
    · exact hbound _

/-! ### Ranks -/

namespace Ranked

theorem firstOfEach_sublist (seen : List DocId) (ordering : List (DocId × Float)) :
    (firstOfEach seen ordering).Sublist ordering := by
  induction ordering generalizing seen with
  | nil => exact .slnil
  | cons entry rest ih =>
    rw [firstOfEach]
    split
    · exact (ih seen).cons entry
    · exact (ih _).cons_cons entry

theorem map_number (source : Source) (rank : Nat) (ordering : List (DocId × Float)) :
    (number source rank ordering).map (fun r => (r.docId, r.score)) = ordering := by
  induction ordering generalizing rank with
  | nil => rfl
  | cons entry rest ih => rw [number, List.map_cons, ih]

/-- Ranks count from the first one on. -/
theorem map_rank_number (source : Source) (rank : Nat) (ordering : List (DocId × Float)) :
    (number source rank ordering).map (fun r => (r.docId, r.rank)) =
      (ordering.map (·.1)).zipIdx rank := by
  induction ordering generalizing rank with
  | nil => rfl
  | cons entry rest ih => rw [number, List.map_cons, ih, List.map_cons, List.zipIdx_cons]

theorem firstOfEach_of_nodup {seen : List DocId} {ordering : List (DocId × Float)}
    (nodup : (ordering.map (·.1)).Nodup) (fresh : ∀ id ∈ ordering.map (·.1), id ∉ seen) :
    firstOfEach seen ordering = ordering := by
  induction ordering generalizing seen with
  | nil => rfl
  | cons entry rest ih =>
    obtain ⟨hnew, hrest⟩ := List.nodup_cons.1 nodup
    obtain ⟨hunseen, hfresh⟩ := List.forall_mem_cons.1 fresh
    rw [firstOfEach, if_neg (by simpa using hunseen), ih hrest]
    intro id hid hseen
    rcases List.mem_cons.1 hseen with rfl | hseen
    · exact hnew hid
    · exact hfresh id hid hseen

/-- An order that names each document once is ranked as a whole. -/
theorem assign_of_nodup {source : Source} {ordering : List (DocId × Float)}
    (nodup : (ordering.map (·.1)).Nodup) : assign source ordering = number source 1 ordering := by
  rw [assign, firstOfEach_of_nodup nodup fun _ _ => List.not_mem_nil]

/-- Ranking keeps to the documents that are ranked. -/
theorem exists_of_mem_assign {source : Source} {ordering : List (DocId × Float)} {r : Ranked}
    (h : r ∈ assign source ordering) : (r.docId, r.score) ∈ ordering := by
  refine (firstOfEach_sublist [] ordering).subset ?_
  rw [← map_number source 1 (firstOfEach [] ordering)]
  exact List.mem_map_of_mem h

end Ranked

/-! ### The ranker over the index -/

namespace Provider

/-- The documents that the ranker has for a request, the best first. -/
def found (c : Catalog) (r : Request) : List DocId :=
  ((Bm25.score r.settings.tuning c.index r.parsed).map (·.docId)).filter r.accepts

theorem nodup_found {c : Catalog} (listed : c.index.Listed) (r : Request) : (found c r).Nodup :=
  (Bm25.nodup_score _ listed _).filter _

/-- The ranker ranks as many of its documents as it is asked for, in their order. -/
theorem map_rank_rankIndex {c : Catalog} (listed : c.index.Listed) (s : Source) (r : Request) :
    (rankIndex c s r).map (fun ranked => (ranked.docId, ranked.rank)) =
      (r.candidates.select (found c r)).zipIdx 1 := by
  have hids : (((r.candidates.select
      ((Bm25.score r.settings.tuning c.index r.parsed).filter fun x =>
      r.accepts x.docId)).map fun x => (x.docId, x.score)).map (·.1)) =
        r.candidates.select (found c r) := by
    rw [List.map_map, found, List.filter_map, ← Number.map_select]
    rfl
  have hnodup := (nodup_found listed r).sublist (Number.select_sublist r.candidates _)
  rw [← hids] at hnodup ⊢
  rw [rankIndex, Ranked.assign_of_nodup hnodup, Ranked.map_rank_number]

end Provider

/-- The documents that the ranker scores. -/
theorem Provider.docId_mem_of_mem_rankIndex {c : Catalog} {s : Source} {request : Request}
    {r : Ranked} (h : r ∈ rankIndex c s request) :
    r.docId ∈ (Bm25.score request.settings.tuning c.index request.parsed).map (·.docId) := by
  obtain ⟨x, hx, heq⟩ := List.mem_map.1 (Ranked.exists_of_mem_assign h)
  have hscored := (List.mem_filter.1 ((Number.select_sublist ..).subset hx)).1
  rw [← (Prod.mk.inj heq).1]
  exact List.mem_map_of_mem hscored

namespace Hybrid

variable {h : Hybrid}

theorem get_providers_of_behaviour {s : Source} (ranker : h.behaviour.get s = some .index) :
    h.providers.get s = some .index := by
  rw [get_behaviour, Option.map_eq_some_iff] at ranker
  obtain ⟨p, hp, hindex⟩ := ranker
  rw [hp]
  cases p with
  | index => rfl
  | names | backend b => cases hindex

theorem runSource_ranker {s : Source} (ranker : h.behaviour.get s = some .index) (c : Catalog)
    (r : Request) : (h.runSource c r .never s).1 = .answered (Provider.rankIndex c s r) := by
  rw [runSource_fst, get_providers_of_behaviour ranker]
  rfl

/-- A search of the ranker that nobody gives up begins with its answer. -/
theorem startSource_ranker {s : Source} (ranker : h.behaviour.get s = some .index) (c : Catalog)
    (settings : Settings) {call : Call} (never : call.cancellation = .never)
    (accepted : call.filter.Accepted h.globs) {parsed : Query}
    (hparse : Query.parse call.query = .ok parsed) :
    ∃ p r, (h.startSource c settings s call).1 = .pending p ∧ p.cancellation = .never ∧
      p.outcome = .answered (Provider.rankIndex c s r) ∧ r.settings = settings ∧
        r.parsed = parsed := by
  have havailable : (!h.isAvailable s) = false := by rw [isAvailable_eq_isSome, ranker]; rfl
  rw [startSource, hparse]
  simp only [havailable, never, Cancellation.check, accepted.check_normalize]
  exact ⟨_, _, rfl, rfl, runSource_ranker ranker c _, rfl, rfl⟩

/-- The results of a search are among those of its source. -/
theorem exists_of_mem_respondSource {p : PendingSource} {ix : Index} {r : Ranked}
    (hmem : r ∈ (respondSource p ix).results) : ∃ r' ∈ resultsOf p.outcome, r'.docId = r.docId := by
  obtain ⟨r', hr', heq⟩ := List.mem_map.1 (Ranked.exists_of_mem_assign hmem)
  exact ⟨r', (List.mem_filter.1 (List.mem_of_mem_take hr')).1, (Prod.mk.inj heq).1⟩

end Hybrid

namespace Dispatch

/-- A full-text search that nobody gives up comes to a response, and its results are documents that
the ranker scores. -/
theorem fulltext_ends {h : Hybrid} (ranker : h.behaviour.get .bm25 = some .index) (c : Catalog)
    (settings : Settings) (now : Float) {call : Call} (never : call.cancellation = .never)
    (accepted : call.filter.Accepted h.globs) {parsed : Query}
    (hparse : Query.parse call.query = .ok parsed) :
    ∃ waiting, (start h c settings now .fulltext call).1.1 = .pending waiting ∧
      ∀ (h' : Hybrid) (ix : Index) (now' : Float), ∃ response,
        (finish h' ix now' waiting).1.1 = .ok (.source .fulltext [] response) ∧
          ∀ r ∈ response.results,
            r.docId ∈ (Bm25.score settings.tuning c.index parsed).map (·.docId) := by
  obtain ⟨p, r, hstart, hnever, houtcome, rfl, rfl⟩ :=
    Hybrid.startSource_ranker ranker c settings never accepted hparse
  have havailable : h.isAvailable .bm25 = true := by rw [Hybrid.isAvailable_eq_isSome, ranker]; rfl
  refine ⟨.source .fulltext [] p, ?_,
    fun h' ix now' => ⟨Hybrid.respondSource p ix, ?_, fun x hx => ?_⟩⟩
  · simp only [start, startSource, havailable, if_true]
    generalize h.startSource c r.settings .bm25 call = started at hstart ⊢
    obtain ⟨started, h'⟩ := started
    cases hstart
    rfl
  · simp only [finish, Hybrid.finishSource, hnever, houtcome, Cancellation.race]
    rfl
  · obtain ⟨x', hx', heq⟩ := Hybrid.exists_of_mem_respondSource hx
    rw [houtcome] at hx'
    exact heq ▸ Provider.docId_mem_of_mem_rankIndex hx'

end Dispatch
end Quarry
