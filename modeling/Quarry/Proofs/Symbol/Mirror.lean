import Quarry.Proofs.Symbol.Table

/-! The table of symbols after any changes. A plain map from documents to the definitions of their
last changes tells all that the table holds: what it answers for a document or a name, and the
trigrams that a document is listed under. No change leaves an empty bucket behind. -/

namespace Quarry

theorem Text.values_eq {β : Type} (t : Std.TreeMap Text β) : t.values = t.toList.map (·.2) := by
  change t.foldr (fun _ value values => value :: values) [] = _
  rw [Std.TreeMap.foldr_eq_foldr_toList, ← List.foldr_map (f := Prod.snd) (g := List.cons)]
  exact List.foldr_cons_nil

namespace Definition

/-- The definition of a name in a document: what else its fields tell goes along with the name. -/
def named (id : DocId) (fields : Fields) (name : Text) : Definition where
  docId := id
  name := name
  kind := Json.member? fields Fields.kind
  path := Json.member? fields Fields.path
  line := (Json.member? fields Fields.line).bind lineOf?

/-- Fields give a definition if and only if they have a symbol that is not blank. -/
theorem ofFields?_eq (id : DocId) (fields : Fields) : ofFields? id fields =
    match Json.member? fields Fields.symbol with
    | none => none
    | some symbol => if symbol.trim = [] then none else some (named id fields symbol.trim) := by
  rw [ofFields?]
  cases Json.member? fields Fields.symbol with
  | none => rfl
  | some symbol =>
    simp only [Option.getD_some, List.isEmpty_iff]
    split <;> rfl

theorem docId_of_ofFields? {id : DocId} {fields : Fields} {d : Definition}
    (h : ofFields? id fields = some d) : d.docId = id := by
  rw [ofFields?] at h
  split at h
  · cases h
  · cases h
    rfl

end Definition

namespace SymbolTable

/-- A change of a table: the fields of a document are recorded, or its symbol is taken out. -/
inductive Change where
  | set (id : DocId) (fields : Fields)
  | delete (id : DocId)

def apply (t : SymbolTable) : Change → SymbolTable
  | .set id fields => t.set id fields
  | .delete id => t.delete id

/-- The table after several changes. -/
def applyAll (t : SymbolTable) (changes : List Change) : SymbolTable := changes.foldl apply t

end SymbolTable

/-- Definitions under the documents that they are from. -/
abbrev Definitions := Std.TreeMap DocId Definition

namespace Definitions

/-- Each definition is one that some fields of its document give. -/
def Given (m : Definitions) : Prop :=
  ∀ (id : DocId) d, m[id]? = some d → ∃ fields, Definition.ofFields? id fields = some d

/-- A document whose fields have a symbol gets the definition of it, without the blanks around it.
One whose fields have none, or a blank one, has no definition any more. -/
def apply (m : Definitions) : SymbolTable.Change → Definitions
  | .set id fields =>
    match Json.member? fields Fields.symbol with
    | none => m.erase id
    | some symbol =>
      if symbol.trim = [] then m.erase id else m.insert id (.named id fields symbol.trim)
  | .delete id => m.erase id

def applyAll (m : Definitions) (changes : List SymbolTable.Change) : Definitions :=
  changes.foldl apply m

theorem getElem?_apply_set (m : Definitions) (id : DocId) (fields : Fields) (id' : DocId) :
    (m.apply (.set id fields))[id']? =
      if id = id' then Definition.ofFields? id fields else m[id']? := by
  rw [apply, Definition.ofFields?_eq]
  cases Json.member? fields Fields.symbol with
  | none => exact Text.getElem?_erase m id id'
  | some symbol =>
    simp only
    split
    · exact Text.getElem?_erase m id id'
    · exact Text.getElem?_insert m id _ id'

theorem getElem?_apply_delete (m : Definitions) (id id' : DocId) :
    (m.apply (.delete id))[id']? = if id = id' then none else m[id']? :=
      Text.getElem?_erase m id id'

theorem Given.docId_eq {m : Definitions} (h : m.Given) {id : DocId} {d : Definition}
    (hd : m[id]? = some d) : d.docId = id := by
  obtain ⟨fields, hfields⟩ := h id d hd
  exact Definition.docId_of_ofFields? hfields

theorem Given.apply {m : Definitions} (h : m.Given) (change : SymbolTable.Change) :
    (m.apply change).Given := by
  intro id' d hd
  cases change with
  | set id fields =>
    rw [getElem?_apply_set] at hd
    split at hd
    · rename_i hid
      exact ⟨fields, hid ▸ hd⟩
    · exact h id' d hd
  | delete id =>
    rw [getElem?_apply_delete] at hd
    split at hd
    · cases hd
    · exact h id' d hd

end Definitions

namespace SymbolTable

/-- A sound table with the definitions of a plain map. -/
structure Holds (t : SymbolTable) (m : Definitions) : Prop where
  sound : t.Sound
  same : ∀ id, t.definition? id = m[id]?
  given : m.Given

theorem holds_empty : Holds empty ∅ where
  sound := sound_empty
  same id := by simp [definition?_empty]
  given id d hd := by simp at hd

theorem Holds.apply {t : SymbolTable} {m : Definitions} (h : t.Holds m) (change : Change) :
    (t.apply change).Holds (m.apply change) := by
  cases change with
  | set id fields =>
    refine ⟨h.sound.set id fields, fun id' => ?_, h.given.apply _⟩
    rw [Definitions.getElem?_apply_set, SymbolTable.apply, definition?_set, h.same]
  | delete id =>
    refine ⟨h.sound.delete id, fun id' => ?_, h.given.apply _⟩
    rw [Definitions.getElem?_apply_delete, SymbolTable.apply, definition?_delete, h.same]

theorem Holds.applyAll {t : SymbolTable} {m : Definitions} (h : t.Holds m) (changes : List Change) :
    (t.applyAll changes).Holds (m.applyAll changes) := by
  induction changes generalizing t m with
  | nil => exact h
  | cons change rest ih => exact ih (h.apply change)

section

variable {t : SymbolTable} {m : Definitions} (h : t.Holds m)
include h

/-- A bucket of a name holds the definitions that have it. -/
theorem Holds.at?_byName_iff (name id : Text) (d : Definition) :
    Buckets.at? t.byName name id = some d ↔ m[id]? = some d ∧ d.name = name := by
  rw [h.sound.listed, h.same, Option.filter_eq_some_iff, beq_iff_eq]

theorem Holds.mem_lookup (name : Text) (d : Definition) :
    d ∈ t.lookup name ↔ m[d.docId]? = some d ∧ d.name = name.trim := by
  rw [lookup, Text.values_eq]
  simp only [List.mem_map, Prod.exists, exists_eq_right,
    Std.TreeMap.mem_toList_iff_getElem?_eq_some, Buckets.getElem?_getD, h.at?_byName_iff]
  constructor
  · rintro ⟨id, hd, hname⟩
    exact ⟨by rwa [h.given.docId_eq hd], hname⟩
  · exact fun hd => ⟨d.docId, hd⟩

theorem Holds.ascending_lookup (name : Text) :
    (t.lookup name).Pairwise fun d d' => Text.before d.docId d'.docId = true := by
  have hkeys : ∀ {id : DocId} {d : Definition}, (id, d) ∈ (t.byName.getD name.trim ∅).toList →
      d.docId = id := by
    intro id d hmem
    rw [Std.TreeMap.mem_toList_iff_getElem?_eq_some, Buckets.getElem?_getD,
      h.at?_byName_iff] at hmem
    exact h.given.docId_eq hmem.1
  rw [lookup, Text.values_eq, List.pairwise_map]
  refine Std.TreeMap.ordered_keys_toList.imp_of_mem fun {entry entry'} hentry hentry' hlt => ?_
  rw [Text.before_iff, hkeys hentry, hkeys hentry']
  exact hlt

theorem Holds.has_iff (name : Text) : t.has name = true ↔ t.lookup name ≠ [] := by
  rw [has, h.sound.full.contains_iff, ← List.isEmpty_eq_false_iff,
    List.isEmpty_eq_false_iff_exists_mem]
  simp only [h.at?_byName_iff, h.mem_lookup]
  constructor
  · rintro ⟨id, d, hd, hname⟩
    exact ⟨d, by rwa [h.given.docId_eq hd], hname⟩
  · rintro ⟨d, hd⟩
    exact ⟨d.docId, d, hd⟩

theorem Holds.byKey_eq (id : DocId) : t.trigrams.byKey[id]? = m[id]?.map (·.name.trigrams) := by
  rw [h.sound.keyed, h.same]

theorem Holds.at?_byTrigram_iff (trigram id : Text) :
    (Buckets.at? t.trigrams.byTrigram trigram id).isSome = true ↔
      ∃ d, m[id]? = some d ∧ trigram ∈ d.name.trigrams := by
  rw [h.sound.trigrams.listed, h.byKey_eq]
  simp only [Option.map_eq_some_iff]
  constructor
  · rintro ⟨trigrams, ⟨d, hd, rfl⟩, hmem⟩
    exact ⟨d, hd, hmem⟩
  · rintro ⟨d, hd, hmem⟩
    exact ⟨_, ⟨d, hd, rfl⟩, hmem⟩

/-- No document is under an empty list of trigrams. -/
theorem Holds.byKey_ne_nil {id : DocId} {trigrams : List Text}
    (listed : t.trigrams.byKey[id]? = some trigrams) : trigrams ≠ [] := by
  rw [h.byKey_eq, Option.map_eq_some_iff] at listed
  obtain ⟨d, hd, rfl⟩ := listed
  obtain ⟨fields, hfields⟩ := h.given id d hd
  exact Definition.trigrams_ne_nil hfields

end

/-- All that is seen of a table, and of the trigrams that it keeps, is what a plain map tells. -/
structure Mirrors (t : SymbolTable) (m : Definitions) : Prop where
  definition?_eq : ∀ id, t.definition? id = m[id]?
  size_eq : t.size = m.size
  mem_lookup_iff : ∀ name d, d ∈ t.lookup name ↔ m[d.docId]? = some d ∧ d.name = name.trim
  pairwise_lookup : ∀ name, (t.lookup name).Pairwise fun d d' => Text.before d.docId d'.docId = true
  has_iff : ∀ name, t.has name = true ↔ t.lookup name ≠ []
  /-- The trigrams of a document are those of the name that it has now. -/
  trigrams_eq : ∀ id : DocId, t.trigrams.byKey[id]? = m[id]?.map (·.name.trigrams)
  listed_iff : ∀ trigram id, (Buckets.at? t.trigrams.byTrigram trigram id).isSome = true ↔
    ∃ d, m[id]? = some d ∧ trigram ∈ d.name.trigrams
  full_byName : Buckets.Full t.byName
  full_byTrigram : Buckets.Full t.trigrams.byTrigram
  full_byKey : ∀ (id : DocId) trigrams, t.trigrams.byKey[id]? = some trigrams → trigrams ≠ []

/-- After any changes, the table answers as the plain map of the definitions that they leave, its
trigrams are those of the same documents and names, and none of its buckets is empty. -/
theorem mirrors_applyAll (changes : List Change) :
    (empty.applyAll changes).Mirrors (Definitions.applyAll ∅ changes) := by
  have h := holds_empty.applyAll changes
  exact
    { definition?_eq := h.same
      size_eq := (Std.TreeMap.Equiv.of_forall_constGet?_eq h.same).size_eq
      mem_lookup_iff := h.mem_lookup
      pairwise_lookup := h.ascending_lookup
      has_iff := h.has_iff
      trigrams_eq := h.byKey_eq
      listed_iff := h.at?_byTrigram_iff
      full_byName := h.sound.full
      full_byTrigram := h.sound.trigrams.full
      full_byKey := fun _ _ => h.byKey_ne_nil }

end SymbolTable
end Quarry
