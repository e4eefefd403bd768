import Mathlib.Data.List.Count
import Quarry.Proofs.Number.Quotients
import Quarry.Proofs.Query.Normal
import Quarry.Proofs.Ranking.ScoreOrder
import Quarry.Proofs.Symbol.Trigrams

/-! Searching an index of names by their trigrams finds what comparing the query with each name
would find. The index counts, for each key, the trigrams of the query under which the key is listed;
after any changes these are the trigrams that the current name of the key has in common with
the query. -/

namespace Quarry

/-! ### Trigrams -/

namespace Text

theorem length_of_mem_triples {t trigram : Text} (h : trigram ∈ triples t) :
    trigram.length = 3 := by
  fun_induction triples t with
  | case1 a b c rest ih =>
    rcases List.mem_cons.1 h with rfl | h
    · rfl
    · exact ih h
  | case2 => cases h

theorem nodup_trigrams (name : Text) : name.trigrams.Nodup := by
  rw [trigrams]
  split
  · exact List.nodup_nil
  · exact Query.nodup_eraseDups _

theorem length_of_mem_trigrams {name trigram : Text} (h : trigram ∈ name.trigrams) :
    trigram.length = 3 := by
  rw [trigrams] at h
  split at h
  · cases h
  · exact length_of_mem_triples (List.mem_eraseDups.1 h)

/-- There are no more trigrams than ways to write three units. -/
theorem length_trigrams_le (name : Text) : name.trigrams.length ≤ 2 ^ 48 := by
  let code : Text → ℕ := fun trigram => trigram.foldl (fun n u => n * 2 ^ 16 + u.toNat) 0
  have hcode : ∀ {trigram : Text}, trigram.length = 3 → ∃ a b c : UInt16, trigram = [a, b, c] ∧
      code trigram = (a.toNat * 2 ^ 16 + b.toNat) * 2 ^ 16 + c.toNat := by
    intro trigram h
    obtain ⟨a, b, c, rfl⟩ := List.length_eq_three.1 h
    exact ⟨a, b, c, rfl, by simp [code]⟩
  have hnodup : (name.trigrams.map code).Nodup := by
    refine List.Nodup.map_on (fun s hs t ht heq => ?_) name.nodup_trigrams
    obtain ⟨a, b, c, rfl, hs⟩ := hcode (length_of_mem_trigrams hs)
    obtain ⟨a', b', c', rfl, ht⟩ := hcode (length_of_mem_trigrams ht)
    have := b.toNat_lt
    have := c.toNat_lt
    have := b'.toNat_lt
    have := c'.toNat_lt
    obtain rfl : a = a' := UInt16.toNat_inj.1 (by omega)
    obtain rfl : b = b' := UInt16.toNat_inj.1 (by omega)
    obtain rfl : c = c' := UInt16.toNat_inj.1 (by omega)
    rfl
  have hrange : name.trigrams.map code ⊆ List.range (2 ^ 48) := by
    intro n hn
    obtain ⟨t, ht, rfl⟩ := List.mem_map.1 hn
    obtain ⟨a, b, c, -, heq⟩ := hcode (length_of_mem_trigrams ht)
    have := a.toNat_lt
    have := b.toNat_lt
    have := c.toNat_lt
    rw [List.mem_range]
    omega
  have hle := (List.subperm_of_subset hnodup hrange).length_le
  rwa [List.length_map, List.length_range] at hle

/-- The trigrams of a query that a name has too. -/
def common (query name : Text) : List Text := query.trigrams.filter (· ∈ name.trigrams)

/-- The share of the trigrams of a query that a name has. -/
def similarity (query name : Text) : Float :=
  Float.ofNat (common query name).length / Float.ofNat query.trigrams.length

theorem length_common_le (query name : Text) : (common query name).length ≤ query.trigrams.length :=
  List.length_filter_le ..

theorem isNaN_similarity {query name : Text} (h : common query name ≠ []) :
    (similarity query name).isNaN = false := by
  have hpos := List.length_pos_of_ne_nil h
  have hle := length_common_le query name
  exact (Binary.exists_value_share (hpos.trans_le hle) hle
    (query.length_trigrams_le.trans_lt (by decide))).1

/-- Of two names the one that has the greater share of the trigrams of a query is more similar to
it: rounding makes no two shares equal. -/
theorem value_similarity_lt_iff (query name name' : Text) :
    Binary.value (similarity query name) < Binary.value (similarity query name') ↔
      ((common query name).length : ℚ) / query.trigrams.length <
        (common query name').length / query.trigrams.length := by
  rcases Nat.eq_zero_or_pos query.trigrams.length with hzero | hpos
  · have hcommon : ∀ name, (common query name).length = 0 := fun name => by
      have := length_common_le query name
      omega
    rw [similarity, similarity, hcommon, hcommon]
    exact iff_of_false (lt_irrefl _) (lt_irrefl _)
  · rw [similarity, similarity,
      Binary.value_share_lt_iff hpos (length_common_le ..) (length_common_le ..)
      query.length_trigrams_le, div_lt_div_iff_of_pos_right (by exact_mod_cast hpos), Nat.cast_lt]

end Text

namespace TrigramIndex

/-! ### Names after changes -/

/-- A change of an index: a name is put under a key, or a key is taken out. -/
inductive Change where
  | set (key name : Text)
  | delete (key : Text)

def apply (ix : TrigramIndex) : Change → TrigramIndex
  | .set key name => ix.set key name
  | .delete key => ix.delete key

/-- The index after several changes. -/
def applyAll (ix : TrigramIndex) (changes : List Change) : TrigramIndex := changes.foldl apply ix

/-- The current names of keys. -/
abbrev Names := Text → Option Text

def Names.apply (names : Names) : Change → Names
  | .set key name => fun key' => if key = key' then some name else names key'
  | .delete key => fun key' => if key = key' then none else names key'

def Names.applyAll (names : Names) (changes : List Change) : Names :=
  changes.foldl Names.apply names

/-- Keys are listed under the trigrams of their names, and those of blank names nowhere. -/
structure Lists (ix : TrigramIndex) (names : Names) : Prop where
  sound : ix.Sound
  trigrams : ∀ key trigram, (∃ trigrams, ix.byKey[key]? = some trigrams ∧ trigram ∈ trigrams) ↔
    ∃ name, names key = some name ∧ trigram ∈ name.trigrams

theorem lists_empty : Lists .empty fun _ => none where
  sound := sound_empty
  trigrams := by simp [empty]

theorem Lists.apply {ix : TrigramIndex} {names : Names} (h : ix.Lists names) (change : Change) :
    (ix.apply change).Lists (names.apply change) := by
  cases change with
  | set key name =>
    refine ⟨h.sound.set key name, fun key' trigram => ?_⟩
    simp only [TrigramIndex.apply, Names.apply, getElem?_byKey_set]
    by_cases hkey : key = key'
    · by_cases hblank : name.trigrams = [] <;> simp [hkey, hblank]
    · simpa [hkey] using h.trigrams key' trigram
  | delete key =>
    refine ⟨h.sound.delete key, fun key' trigram => ?_⟩
    simp only [TrigramIndex.apply, Names.apply, getElem?_byKey_delete]
    by_cases hkey : key = key'
    · simp [hkey]
    · simpa [hkey] using h.trigrams key' trigram

theorem Lists.applyAll {ix : TrigramIndex} {names : Names} (h : ix.Lists names)
    (changes : List Change) :
    (ix.applyAll changes).Lists (names.applyAll changes) := by
  induction changes generalizing ix names with
  | nil => exact h
  | cons change rest ih => exact ih (h.apply change)

/-! ### Hits -/

/-- What a map of counts holds for a key that was counted so often. -/
def tally (count : ℕ) : Option ℕ := if count = 0 then none else some count

theorem getElem?_foldl_count {keys : List Text} (nodup : keys.Nodup) (hits : Std.TreeMap Text ℕ)
    (key : Text) :
    (keys.foldl (fun hits key => hits.insert key (hits.getD key 0 + 1)) hits)[key]? =
      if key ∈ keys then some (hits.getD key 0 + 1) else hits[key]? := by
  induction keys generalizing hits with
  | nil => simp
  | cons first rest ih =>
    obtain ⟨hfirst, hrest⟩ := List.nodup_cons.1 nodup
    rw [List.foldl_cons, ih hrest, Std.TreeMap.getD_eq_getD_getElem?, Text.getElem?_insert]
    by_cases hkey : first = key
    · simp [← hkey, hfirst]
    · simp [hkey, Ne.symm hkey, Std.TreeMap.getD_eq_getD_getElem?]

/-- A key is hit once by each trigram that it is listed under. -/
theorem getElem?_hits (ix : TrigramIndex) (wanted : List Text) (key : Text) :
    (ix.hits wanted)[key]? = tally
      (wanted.countP fun trigram => (Buckets.at? ix.byTrigram trigram key).isSome) := by
  have hfold : ∀ (hits : Std.TreeMap Text ℕ) (count : ℕ), hits[key]? = tally count →
      (wanted.foldl (fun hits trigram => (ix.byTrigram.getD trigram ∅).foldl
        (fun hits key _ => hits.insert key (hits.getD key 0 + 1)) hits) hits)[key]? =
        tally (count + wanted.countP fun trigram =>
          (Buckets.at? ix.byTrigram trigram key).isSome) := by
    induction wanted with
    | nil => exact fun hits count h => h
    | cons trigram rest ih =>
      intro hits count h
      have hcount : hits.getD key 0 = count := by
        rw [Std.TreeMap.getD_eq_getD_getElem?, h, tally]
        split
        · exact (‹count = 0›).symm
        · rfl
      have hlisted : key ∈ (ix.byTrigram.getD trigram ∅).keys ↔
          (Buckets.at? ix.byTrigram trigram key).isSome = true := by
        rw [Std.TreeMap.mem_keys, Std.TreeMap.mem_iff_isSome_getElem?, Buckets.getElem?_getD]
      rw [List.foldl_cons, List.countP_cons, Nat.add_comm (rest.countP _), ← Nat.add_assoc]
      refine ih _ _ ?_
      rw [Std.TreeMap.foldl_eq_foldl_keys, getElem?_foldl_count Std.TreeMap.nodup_keys, hcount]
      by_cases hhit : key ∈ (ix.byTrigram.getD trigram ∅).keys
      · rw [if_pos hhit, if_pos (hlisted.1 hhit), tally, if_neg (Nat.succ_ne_zero _)]
      · rw [if_neg hhit, if_neg (mt hlisted.2 hhit), h, Nat.add_zero]
  have hempty : (∅ : Std.TreeMap Text ℕ)[key]? = tally 0 := Std.TreeMap.getElem?_emptyc
  rw [hits, hfold ∅ 0 hempty, Nat.zero_add]

/-! ### Searches -/

variable {ix : TrigramIndex} {names : Names}

/-- The trigrams of a query that a key is listed under are those that its name has. -/
theorem Lists.countP_eq (h : ix.Lists names) {key name : Text} (hname : names key = some name)
    (query : Text) :
    (query.trigrams.countP fun trigram => (Buckets.at? ix.byTrigram trigram key).isSome) =
      (Text.common query name).length := by
  rw [List.countP_eq_length_filter, Text.common]
  congr 1
  refine List.filter_congr fun trigram _ => ?_
  rw [Bool.eq_iff_iff, h.sound.listed, h.trigrams, hname, decide_eq_true_eq]
  simp

theorem Lists.countP_eq_zero (h : ix.Lists names) {key : Text} (hname : names key = none)
    (query : Text) :
    (query.trigrams.countP fun trigram => (Buckets.at? ix.byTrigram trigram key).isSome) = 0 := by
  rw [List.countP_eq_zero]
  intro trigram _ hlisted
  rw [h.sound.listed, h.trigrams, hname] at hlisted
  obtain ⟨name, hnone, -⟩ := hlisted
  cases hnone

/-- A search counts, for each key, the trigrams that its name has in common with the query. -/
theorem Lists.getElem?_hits_eq_some_iff (h : ix.Lists names) {query key : Text} {count : ℕ} :
    (ix.hits query.trigrams)[key]? = some count ↔
      ∃ name, names key = some name ∧ Text.common query name ≠ [] ∧
        count = (Text.common query name).length := by
  rw [getElem?_hits, tally]
  cases hname : names key with
  | none => simp [h.countP_eq_zero hname]
  | some name =>
    rw [h.countP_eq hname, Option.ite_none_left_eq_some, Option.some_inj, List.length_eq_zero_iff]
    simp only [Option.some_inj, exists_eq_left', Ne, eq_comm (a := count)]

/-- The names that are similar enough, in no order. -/
def found (ix : TrigramIndex) (query : Text) (threshold : Float) : List TrigramMatch :=
  (ix.hits query.trigrams).toList.filterMap fun (key, count) =>
    let score := Float.ofNat count / Float.ofNat query.trigrams.length
    if threshold ≤ score then some ⟨key, score⟩ else none

theorem nodup_found (ix : TrigramIndex) (query : Text) (threshold : Float) :
    ((ix.found query threshold).map (·.key)).Nodup := by
  have hkeys := Std.TreeMap.distinct_keys_toList (t := ix.hits query.trigrams)
  refine List.pairwise_map.2 (hkeys.filterMap _ fun hit hit' hne m hm m' hm' => ?_)
  obtain rfl := Option.some.inj (Option.ite_none_right_eq_some.1 hm).2
  obtain rfl := Option.some.inj (Option.ite_none_right_eq_some.1 hm').2
  exact mt Std.LawfulEqCmp.compare_eq_iff_eq.2 hne

theorem Lists.mem_found_iff (h : ix.Lists names) {query : Text} {threshold : Float}
    {m : TrigramMatch} :
    m ∈ ix.found query threshold ↔ ∃ name, names m.key = some name ∧ Text.common query name ≠ [] ∧
      m.score = Text.similarity query name ∧ threshold ≤ m.score := by
  obtain ⟨key, score⟩ := m
  simp only [found, List.mem_filterMap, Prod.exists, Std.TreeMap.mem_toList_iff_getElem?_eq_some,
    Option.ite_none_right_eq_some, h.getElem?_hits_eq_some_iff, Option.some_inj,
      TrigramMatch.mk.injEq]
  constructor
  · rintro ⟨_, _, ⟨name, hname, hcommon, rfl⟩, hthreshold, rfl, rfl⟩
    exact ⟨name, hname, hcommon, rfl, hthreshold⟩
  · rintro ⟨name, hname, hcommon, rfl, hthreshold⟩
    exact ⟨key, _, ⟨name, hname, hcommon, rfl⟩, hthreshold, rfl, rfl⟩

/-- A search of an index finds what comparing the query with every current name finds: the keys of
the names that have a trigram of it and are similar enough, each once, the more similar ones first
and of equally similar ones the smaller key. The scores are in the order of the exact shares. -/
theorem search_applyAll (changes : List Change) (query : Text) (limit : ℕ) (threshold : Float) :
    ∃ ms : List TrigramMatch,
      (empty.applyAll changes).search query (some limit) threshold = ms.take limit ∧
      (∀ m, m ∈ ms ↔ ∃ name, Names.applyAll (fun _ => none) changes m.key = some name ∧
        Text.common query name ≠ [] ∧ m.score = Text.similarity query name ∧
        threshold.isNaN = false ∧ Binary.value threshold ≤ Binary.value m.score) ∧
      (ms.map (·.key)).Nodup ∧
      (ms.Pairwise fun a b => Binary.value b.score < Binary.value a.score ∨
        Binary.value a.score = Binary.value b.score ∧ compare a.key b.key = .lt) ∧
      ∀ name name',
        Binary.value (Text.similarity query name) < Binary.value (Text.similarity query name') ↔
        ((Text.common query name).length : ℚ) / query.trigrams.length <
          (Text.common query name').length / query.trigrams.length := by
  have hlists := lists_empty.applyAll changes
  have hperm := rankSort_perm (Scalar.ranksBefore TrigramMatch.score TrigramMatch.key)
    ((empty.applyAll changes).found query threshold)
  have hnumbers : ∀ m ∈ (empty.applyAll changes).found query threshold, m.score.isNaN =
      false := fun m hm => by
    obtain ⟨name, -, hcommon, hscore, -⟩ := hlists.mem_found_iff.1 hm
    exact hscore ▸ Text.isNaN_similarity hcommon
  have hnodup := (empty.applyAll changes).nodup_found query threshold
  refine ⟨rankSort (Scalar.ranksBefore TrigramMatch.score TrigramMatch.key)
    ((empty.applyAll changes).found query threshold), rfl, fun m => ?_,
      (hperm.map _).nodup_iff.2 hnodup, ?_, Text.value_similarity_lt_iff query⟩
  · rw [hperm.mem_iff, hlists.mem_found_iff]
    refine exists_congr fun name => and_congr_right fun _ => and_congr_right fun hcommon =>
      and_congr_right fun hscore => ?_
    exact Binary.le_iff_isNaN_value (hscore ▸ Text.isNaN_similarity hcommon)
  · refine (Scalar.pairwise_rankSort hnumbers hnodup).imp_of_mem fun {a b} ha hb h => ?_
    exact (Scalar.ranksBefore_iff (hnumbers a (hperm.mem_iff.1 ha))
      (hnumbers b (hperm.mem_iff.1 hb))).1 h

end TrigramIndex
end Quarry
