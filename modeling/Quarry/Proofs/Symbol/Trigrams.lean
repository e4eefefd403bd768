import Quarry.Proofs.Symbol.Buckets
import Quarry.Symbol.Trigram

/-! The index of names by their trigrams: each key is listed under exactly the trigrams of its name.
What a search finds depends on the keys and their trigrams alone, whatever led to them. -/

namespace Quarry.TrigramIndex

/-- Every trigram that is there has keys, and lists those whose names have it. -/
structure Sound (ix : TrigramIndex) : Prop where
  full : Buckets.Full ix.byTrigram
  listed : ∀ trigram key, (Buckets.at? ix.byTrigram trigram key).isSome = true ↔
    ∃ trigrams, ix.byKey[key]? = some trigrams ∧ trigram ∈ trigrams

theorem sound_empty : Sound empty where
  full := Buckets.full_empty
  listed := by simp [empty, Buckets.at?]

theorem dropKey_eq (m : Std.TreeMap Text (Std.TreeMap Text Unit)) (key trigram : Text) :
    dropKey m key trigram = Buckets.drop m trigram key := by
  rw [dropKey, Buckets.drop]
  cases m[trigram]? <;> rfl

theorem addKey_eq (m : Std.TreeMap Text (Std.TreeMap Text Unit)) (key trigram : Text) :
    addKey m key trigram = Buckets.add m trigram key () := rfl

/-! ### The trigrams of one name -/

theorem full_foldl_dropKey {m : Buckets Unit} (h : m.Full) (key : Text) (trigrams : List Text) :
    Buckets.Full (trigrams.foldl (fun m t => dropKey m key t) m) := by
  induction trigrams generalizing m with
  | nil => exact h
  | cons trigram rest ih =>
    rw [List.foldl_cons, dropKey_eq]
    exact ih (h.drop trigram key)

theorem at?_foldl_dropKey (m : Buckets Unit) (key : Text) (trigrams : List Text)
    (trigram key' : Text) :
    Buckets.at? (trigrams.foldl (fun m t => dropKey m key t) m) trigram key' =
      if trigram ∈ trigrams ∧ key = key' then none else m.at? trigram key' := by
  induction trigrams generalizing m with
  | nil => simp
  | cons first rest ih =>
    rw [List.foldl_cons, ih, dropKey_eq, Buckets.at?_drop]
    grind

theorem full_foldl_addKey {m : Buckets Unit} (h : m.Full) (key : Text) (trigrams : List Text) :
    Buckets.Full (trigrams.foldl (fun m t => addKey m key t) m) := by
  induction trigrams generalizing m with
  | nil => exact h
  | cons trigram rest ih => exact ih (h.add trigram key ())

theorem at?_foldl_addKey (m : Buckets Unit) (key : Text) (trigrams : List Text)
    (trigram key' : Text) :
    Buckets.at? (trigrams.foldl (fun m t => addKey m key t) m) trigram key' =
      if trigram ∈ trigrams ∧ key = key' then some () else m.at? trigram key' := by
  induction trigrams generalizing m with
  | nil => simp
  | cons first rest ih =>
    rw [List.foldl_cons, ih, addKey_eq, Buckets.at?_add]
    grind

/-! ### Deleting and setting keys -/

theorem getElem?_byKey_delete (ix : TrigramIndex) (key key' : Text) :
    (ix.delete key).byKey[key']? = if key = key' then none else ix.byKey[key']? := by
  rw [delete]
  cases hkey : ix.byKey[key]? with
  | none =>
    simp only
    split
    · rename_i heq
      rw [← heq, hkey]
    · rfl
  | some trigrams => exact Text.getElem?_erase ..

theorem Sound.delete {ix : TrigramIndex} (h : ix.Sound) (key : Text) : (ix.delete key).Sound := by
  rw [TrigramIndex.delete]
  cases hkey : ix.byKey[key]? with
  | none => exact h
  | some trigrams =>
    refine ⟨full_foldl_dropKey h.full key trigrams, fun trigram key' => ?_⟩
    simp only [at?_foldl_dropKey, Text.getElem?_erase]
    have hlisted := h.listed trigram key'
    grind

/-- A deleted key is listed nowhere. -/
theorem Sound.at?_delete {ix : TrigramIndex} (h : ix.Sound) (trigram key : Text) :
    Buckets.at? (ix.delete key).byTrigram trigram key = none := by
  have hlisted := (h.delete key).listed trigram key
  rw [getElem?_byKey_delete, if_pos rfl] at hlisted
  cases hat : Buckets.at? (ix.delete key).byTrigram trigram key with
  | none => rfl
  | some _ => simp [hat] at hlisted

theorem getElem?_byKey_set (ix : TrigramIndex) (key name key' : Text) :
    (ix.set key name).byKey[key']? =
      if key = key' then (if name.trigrams = [] then none else some name.trigrams)
      else ix.byKey[key']? := by
  rw [set]
  cases htrigrams : name.trigrams with
  | nil => simp only [getElem?_byKey_delete, if_true]
  | cons first rest =>
    simp only [reduceCtorEq, if_false, Text.getElem?_insert, getElem?_byKey_delete]
    grind

theorem Sound.set {ix : TrigramIndex} (h : ix.Sound) (key name : Text) :
    (ix.set key name).Sound := by
  have hdeleted := h.delete key
  rw [TrigramIndex.set]
  cases htrigrams : name.trigrams with
  | nil => exact hdeleted
  | cons first rest =>
    refine ⟨full_foldl_addKey hdeleted.full key _, fun trigram key' => ?_⟩
    simp only [at?_foldl_addKey, Text.getElem?_insert]
    have hlisted := hdeleted.listed trigram key'
    have habsent := h.at?_delete trigram key
    grind

/-! ### Searches -/

theorem Sound.at?_congr {ix ix' : TrigramIndex} (h : ix.Sound) (h' : ix'.Sound)
    (same : ∀ key : Text, ix.byKey[key]? = ix'.byKey[key]?) (trigram key : Text) :
    Buckets.at? ix.byTrigram trigram key = Buckets.at? ix'.byTrigram trigram key := by
  have hlisted := h.listed trigram key
  rw [same, ← h'.listed trigram key] at hlisted
  generalize Buckets.at? ix.byTrigram trigram key = found at *
  generalize Buckets.at? ix'.byTrigram trigram key = found' at *
  cases found <;> cases found' <;> simp_all

theorem Sound.hits_congr {ix ix' : TrigramIndex} (h : ix.Sound) (h' : ix'.Sound)
    (same : ∀ key : Text, ix.byKey[key]? = ix'.byKey[key]?) (wanted : List Text) :
    ix.hits wanted = ix'.hits wanted := by
  rw [hits, hits]
  congr 1
  funext hits trigram
  rw [Std.TreeMap.foldl_eq_foldl_toList, Std.TreeMap.foldl_eq_foldl_toList,
    (Buckets.equiv_getD (h.at?_congr h' same trigram)).toList_eq]

/-- Indexes with the same keys under the same trigrams find the same. -/
theorem Sound.search_congr {ix ix' : TrigramIndex} (h : ix.Sound) (h' : ix'.Sound)
    (same : ∀ key : Text, ix.byKey[key]? = ix'.byKey[key]?) (query : Text) (bound : Option Nat)
    (threshold : Float) : ix.search query bound threshold = ix'.search query bound threshold := by
  rw [search, search, h.hits_congr h' same]

theorem size_congr {ix ix' : TrigramIndex} (same : ∀ key : Text, ix.byKey[key]? = ix'.byKey[key]?) :
    ix.size = ix'.size :=
  (Std.TreeMap.Equiv.of_forall_constGet?_eq same).size_eq

theorem contains_congr {ix ix' : TrigramIndex}
    (same : ∀ key : Text, ix.byKey[key]? = ix'.byKey[key]?) (key : Text) :
    ix.contains key = ix'.contains key := by
  rw [contains, contains, ← Std.TreeMap.isSome_getElem?_eq_contains,
    ← Std.TreeMap.isSome_getElem?_eq_contains, same]

end Quarry.TrigramIndex
