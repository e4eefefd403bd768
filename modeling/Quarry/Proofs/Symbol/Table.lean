import Quarry.Proofs.Symbol.Trigrams
import Quarry.Proofs.Text.Units
import Quarry.Symbol.Table

/-! The table of symbols as a map from documents to their definitions: the definitions by name and
the trigrams of the names are kept to it. Whatever can be read from a table depends on that
map alone. -/

namespace Quarry

theorem Text.triples_ne_nil {t : Text} (h : 3 ≤ t.length) : t.triples ≠ [] := by
  rcases t with _ | ⟨a, _ | ⟨b, _ | ⟨c, rest⟩⟩⟩
  · simp at h
  · simp at h
  · simp at h
  · exact List.cons_ne_nil _ _

/-- A name that is more than blanks has trigrams. -/
theorem Text.trigrams_ne_nil {name : Text} (h : name.trim ≠ []) : name.trigrams ≠ [] := by
  have htriples : triples ([32, 32] ++ name.trim.lower ++ [32, 32]) ≠ [] :=
    triples_ne_nil (by simp only [List.length_append, List.length_cons, List.length_nil]; omega)
  obtain ⟨first, rest, hcons⟩ := List.exists_cons_of_ne_nil htriples
  rw [trigrams]
  simp only [List.isEmpty_iff, h, if_false, hcons, List.eraseDups_cons]
  exact List.cons_ne_nil _ _

/-- The name of a symbol is trimmed, and it has trigrams. -/
theorem Definition.trigrams_ne_nil {id : DocId} {fields : Fields} {d : Definition}
    (h : ofFields? id fields = some d) : d.name.trigrams ≠ [] := by
  rw [ofFields?] at h
  split at h
  · cases h
  · rename_i hname
    cases h
    refine Text.trigrams_ne_nil ?_
    rw [Text.trim_trim]
    simpa using hname

namespace SymbolTable

/-- Everything that can be read from a table. -/
structure Answers where
  size : Nat
  definition? : DocId → Option Definition
  has : Text → Bool
  lookup : Text → List Definition
  nameCount : Nat
  isListed : DocId → Bool
  similar : Text → Option Nat → Float → List TrigramMatch

/-- What a table answers. -/
def answers (t : SymbolTable) : Answers where
  size := t.size
  definition? := t.definition?
  has := t.has
  lookup := t.lookup
  nameCount := t.trigrams.size
  isListed := t.trigrams.contains
  similar := t.trigrams.search

/-- Each definition is under its name, and its name under its trigrams. -/
structure Sound (t : SymbolTable) : Prop where
  full : Buckets.Full t.byName
  listed : ∀ name id, Buckets.at? t.byName name id = (t.definition? id).filter (·.name == name)
  trigrams : t.trigrams.Sound
  keyed : ∀ id : DocId, t.trigrams.byKey[id]? = (t.definition? id).map (·.name.trigrams)

theorem sound_empty : Sound empty where
  full := Buckets.full_empty
  listed := by simp [empty, definition?, Buckets.at?]
  trigrams := TrigramIndex.sound_empty
  keyed := by simp [empty, definition?, TrigramIndex.empty]

theorem definition?_empty (id : DocId) : empty.definition? id = none := by simp [empty, definition?]

/-! ### Deleting and setting symbols -/

theorem delete_of_none {t : SymbolTable} {id : DocId} (h : t.definition? id = none) :
    t.delete id = t := by
  rw [definition?] at h
  rw [delete, h]

theorem delete_of_some {t : SymbolTable} {id : DocId} {d : Definition}
    (h : t.definition? id = some d) : t.delete id =
      ⟨Buckets.drop t.byName d.name id, t.byDocument.erase id, t.trigrams.delete id⟩ := by
  rw [definition?] at h
  rw [delete, Buckets.drop]
  simp only [h]
  cases t.byName[d.name]? <;> rfl

theorem definition?_delete (t : SymbolTable) (id id' : DocId) :
    (t.delete id).definition? id' = if id = id' then none else t.definition? id' := by
  cases h : t.definition? id with
  | none =>
    rw [delete_of_none h]
    split
    · rename_i heq
      rw [← heq, h]
    · rfl
  | some d =>
    rw [delete_of_some h]
    exact Text.getElem?_erase ..

theorem Sound.delete {t : SymbolTable} (h : t.Sound) (id : DocId) : (t.delete id).Sound := by
  cases hdefinition : t.definition? id with
  | none => rwa [delete_of_none hdefinition]
  | some d =>
    refine ⟨?_, fun name id' => ?_, ?_, fun id' => ?_⟩
    · rw [delete_of_some hdefinition]
      exact h.full.drop d.name id
    · rw [definition?_delete, delete_of_some hdefinition, Buckets.at?_drop, h.listed]
      by_cases hid : id = id'
      · rw [← hid, hdefinition]
        simp only [and_true, if_true, Option.filter_none]
        split
        · rfl
        · rename_i hname
          simpa using hname
      · simp [hid]
    · rw [delete_of_some hdefinition]
      exact h.trigrams.delete id
    · rw [definition?_delete, delete_of_some hdefinition,
        TrigramIndex.getElem?_byKey_delete, h.keyed]
      split <;> rfl

theorem set_of_none {t : SymbolTable} {id : DocId} {fields : Fields}
    (h : Definition.ofFields? id fields = none) : t.set id fields = t.delete id := by
  rw [set, h]

theorem set_of_some {t : SymbolTable} {id : DocId} {fields : Fields} {d : Definition}
    (h : Definition.ofFields? id fields = some d) : t.set id fields =
      ⟨Buckets.add (t.delete id).byName d.name id d, (t.delete id).byDocument.insert id d,
        (t.delete id).trigrams.set id d.name⟩ := by
  rw [set, h, Buckets.add]

theorem definition?_set (t : SymbolTable) (id : DocId) (fields : Fields) (id' : DocId) :
    (t.set id fields).definition? id' =
      if id = id' then Definition.ofFields? id fields else t.definition? id' := by
  cases h : Definition.ofFields? id fields with
  | none => rw [set_of_none h, definition?_delete]
  | some d =>
    rw [set_of_some h, definition?, Text.getElem?_insert, ← definition?, definition?_delete]
    split <;> rfl

theorem Sound.set {t : SymbolTable} (h : t.Sound) (id : DocId) (fields : Fields) :
    (t.set id fields).Sound := by
  have hdeleted := h.delete id
  cases hdefinition : Definition.ofFields? id fields with
  | none => rwa [set_of_none hdefinition]
  | some d =>
    refine ⟨?_, fun name id' => ?_, ?_, fun id' => ?_⟩
    · rw [set_of_some hdefinition]
      exact hdeleted.full.add d.name id d
    · rw [definition?_set, hdefinition, set_of_some hdefinition, Buckets.at?_add, hdeleted.listed,
        definition?_delete]
      by_cases hid : id = id'
      · by_cases hname : d.name = name <;> simp [hid, hname, Option.filter]
      · simp [hid]
    · rw [set_of_some hdefinition]
      exact hdeleted.trigrams.set id d.name
    · rw [definition?_set, hdefinition, set_of_some hdefinition, TrigramIndex.getElem?_byKey_set,
        hdeleted.keyed, definition?_delete, if_neg (Definition.trigrams_ne_nil hdefinition)]
      split <;> rfl

/-! ### What is read -/

variable {t t' : SymbolTable} (h : t.Sound) (h' : t'.Sound)
  (same : ∀ id, t.definition? id = t'.definition? id)
include h h' same

theorem Sound.at?_byName_congr (name id : Text) :
    Buckets.at? t.byName name id = Buckets.at? t'.byName name id := by
  rw [h.listed, h'.listed, same]

theorem Sound.has_congr (name : Text) : t.has name = t'.has name := by
  have hiff := h.full.contains_iff name.trim
  simp only [h.at?_byName_congr h' same, ← h'.full.contains_iff] at hiff
  exact Bool.eq_iff_iff.2 hiff

theorem Sound.lookup_congr (name : Text) : t.lookup name = t'.lookup name := by
  rw [lookup, lookup, (Buckets.equiv_getD (h.at?_byName_congr h' same _)).values_eq]

/-- Tables with the same definitions answer the same. -/
theorem Sound.answers_congr : t.answers = t'.answers := by
  have hkeyed : ∀ id : DocId, t.trigrams.byKey[id]? = t'.trigrams.byKey[id]? := by
    intro id
    rw [h.keyed, h'.keyed, same]
  simp only [answers, Answers.mk.injEq]
  exact ⟨(Std.TreeMap.Equiv.of_forall_constGet?_eq same).size_eq, funext same,
    funext (h.has_congr h' same), funext (h.lookup_congr h' same), TrigramIndex.size_congr hkeyed,
    funext (TrigramIndex.contains_congr hkeyed), funext fun query => funext fun bound => funext fun
      threshold => h.trigrams.search_congr h'.trigrams hkeyed query bound threshold⟩

end SymbolTable
end Quarry
