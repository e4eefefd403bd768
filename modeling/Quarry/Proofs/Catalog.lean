import Quarry.Catalog
import Quarry.Proofs.Index.Answers
import Quarry.Proofs.Ranking.Evaluation
import Quarry.Proofs.Symbol.Table

/-! Catalogs that are kept for documents: the index holds their records, and the table the symbols
that their fields give. Catalogs that are kept for the same documents cannot be told apart by what
is read from them, however they came about. -/

namespace Quarry

/-- Documents under their names. -/
abbrev Documents := Std.TreeMap DocId Document

namespace Documents

/-- Puts documents in, each in place of one with the same name. -/
def putAll (docs : Documents) (ds : List Document) : Documents :=
  ds.foldl (fun docs d => docs.insert d.id d) docs

/-- The documents in ascending order of their names. -/
def listed (docs : Documents) : List Document := docs.toList.map (·.2)

def records (docs : Documents) : Records := docs.map fun _ d => .ofDocument d

theorem getElem?_records (docs : Documents) (id : DocId) :
    docs.records[id]? = docs[id]?.map .ofDocument :=
  Std.TreeMap.getElem?_map ..

theorem contains_records (docs : Documents) (id : DocId) :
    docs.records.contains id = docs.contains id := by
  rw [← Std.TreeMap.isSome_getElem?_eq_contains, ← Std.TreeMap.isSome_getElem?_eq_contains,
    getElem?_records, Option.isSome_map]

theorem size_records (docs : Documents) : docs.records.size = docs.size := Std.TreeMap.size_map

theorem getElem?_records_insert (docs : Documents) (d : Document) (id : DocId) :
    (records (docs.insert d.id d))[id]? =
      (docs.records.insert (Record.ofDocument d).document.id (.ofDocument d))[id]? := by
  rw [getElem?_records, Text.getElem?_insert, Text.getElem?_insert, getElem?_records]
  change _ = if d.id = id then _ else _
  split <;> rfl

theorem getElem?_records_erase (docs : Documents) (id id' : DocId) :
    (records (docs.erase id))[id']? = (docs.records.erase id)[id']? := by
  rw [getElem?_records, Text.getElem?_erase, Text.getElem?_erase, getElem?_records]
  split <;> rfl

/-- Each document is under its own name. -/
def Named (docs : Documents) : Prop := ∀ (id : DocId) d, docs[id]? = some d → d.id = id

theorem mem_listed {docs : Documents} (h : docs.Named) {d : Document} :
    d ∈ docs.listed ↔ docs[d.id]? = some d := by
  simp only [listed, List.mem_map, Prod.exists, exists_eq_right]
  constructor
  · rintro ⟨id, hmem⟩
    have hd := Std.TreeMap.mem_toList_iff_getElem?_eq_some.1 hmem
    rwa [h id d hd]
  · exact fun hd => ⟨d.id, Std.TreeMap.mem_toList_iff_getElem?_eq_some.2 hd⟩

/-- Putting in documents that are already there, after anything, leads to them wherever one was put
in or they were met already. -/
theorem getElem?_putAll {docs : Documents} {ds : List Document} (h : ∀ d ∈ ds, docs[d.id]? = some d)
    (start : Documents) (id : DocId) (hid : start[id]? = docs[id]? ∨ ∃ d ∈ ds, d.id = id) :
    (start.putAll ds)[id]? = docs[id]? := by
  induction ds generalizing start with
  | nil => exact hid.resolve_right (by simp)
  | cons d rest ih =>
    rw [List.forall_mem_cons] at h
    refine ih h.2 _ ?_
    rw [Text.getElem?_insert]
    by_cases hd : d.id = id
    · rw [if_pos hd, ← hd, h.1]
      exact .inl rfl
    · rw [if_neg hd]
      rcases hid with hstart | ⟨d', hmem, heq⟩
      · exact .inl hstart
      · rcases List.mem_cons.1 hmem with rfl | hrest
        · exact absurd heq hd
        · exact .inr ⟨d', hrest, heq⟩

/-- All documents that there are, put in anew in any order, are there. -/
theorem getElem?_putAll_of_perm {docs : Documents} (h : docs.Named) {ds : List Document}
    (hperm : ds.Perm docs.listed) (id : DocId) : (putAll ∅ ds)[id]? = docs[id]? := by
  have hmem : ∀ d, d ∈ ds ↔ docs[d.id]? = some d := fun d => hperm.mem_iff.trans (mem_listed h)
  refine getElem?_putAll (fun d hd => (hmem d).1 hd) ∅ id ?_
  cases hd : docs[id]? with
  | none => exact .inl (by simp)
  | some d =>
    have hname := h id d hd
    exact .inr ⟨d, (hmem d).2 (hname ▸ hd), hname⟩

end Documents

namespace Catalog

/-- Catalogs that cannot be told apart by what is read from them. -/
structure Alike (c c' : Catalog) : Prop where
  index : ∀ (α : Type) [Scalar α], c.index.answers α = c'.index.answers α
  symbols : c.symbols.answers = c'.symbols.answers

theorem Alike.refl (c : Catalog) : c.Alike c := ⟨fun _ _ => rfl, rfl⟩

theorem Alike.symm {c c' : Catalog} (h : c.Alike c') : c'.Alike c :=
  ⟨fun α _ => (h.index α).symm, h.symbols.symm⟩

theorem Alike.trans {c c' c'' : Catalog} (h : c.Alike c') (h' : c'.Alike c'') : c.Alike c'' :=
  ⟨fun α _ => (h.index α).trans (h'.index α), h.symbols.trans h'.symbols⟩

/-- Catalogs that are read alike rank alike. -/
theorem Alike.score_eq {c c' : Catalog} (h : c.Alike c') {α : Type} [Scalar α] (tuning : Tuning α)
    (q : Query) : Bm25.score tuning c.index q = Bm25.score tuning c'.index q :=
  Bm25.score_congr tuning (h.index α) q

/-- What a catalog has to hold of which documents. -/
structure Holds (c : Catalog) (docs : Documents) : Prop where
  named : docs.Named
  index : c.index.Represents docs.records
  table : c.symbols.Sound
  definitions : ∀ id, c.symbols.definition? id =
    docs[id]?.bind fun d => Definition.ofFields? id d.fields

theorem holds_empty (version : Nat) : (empty version).Holds ∅ where
  named := by simp [Documents.Named]
  index := (Index.represents_empty version).congr fun id => by simp [Documents.getElem?_records]
  table := SymbolTable.sound_empty
  definitions id := by simp [empty, SymbolTable.definition?_empty]

theorem Holds.congr {c : Catalog} {docs docs' : Documents} (h : c.Holds docs)
    (same : ∀ id : DocId, docs[id]? = docs'[id]?) : c.Holds docs' where
  named id d hd := h.named id d ((same id).trans hd)
  index := h.index.congr fun id => by
    rw [Documents.getElem?_records, same, Documents.getElem?_records]
  table := h.table
  definitions id := by rw [h.definitions, same]

theorem Holds.add {c : Catalog} {docs : Documents} (h : c.Holds docs) (d : Document) :
    (c.add d).Holds (docs.insert d.id d) where
  named := Text.forall_insert h.named rfl
  index := (h.index.insert (Record.distinct_ofDocument d)).1.congr fun id =>
    (Documents.getElem?_records_insert docs d id).symm
  table := h.table.set d.id d.fields
  definitions id := by
    rw [Catalog.add, SymbolTable.definition?_set, Text.getElem?_insert, h.definitions]
    split
    · rename_i hid
      rw [hid, Option.bind_some]
    · rfl

theorem Holds.addAll {c : Catalog} {docs : Documents} (h : c.Holds docs) (ds : List Document) :
    (ds.foldl Catalog.add c).Holds (docs.putAll ds) := by
  induction ds generalizing c docs with
  | nil => exact h
  | cons d rest ih => exact ih (h.add d)

theorem Holds.remove {c : Catalog} {docs : Documents} (h : c.Holds docs) (id : DocId) :
    (c.remove id).Holds (docs.erase id) where
  named := Text.forall_erase h.named id
  index :=
    (h.index.remove id).1.congr fun id' => (Documents.getElem?_records_erase docs id id').symm
  table := h.table.delete id
  definitions id' := by
    rw [Catalog.remove, SymbolTable.definition?_delete, Text.getElem?_erase, h.definitions]
    split <;> rfl

/-- A read of the index leaves a catalog for the same documents. -/
theorem Holds.withIndex {c : Catalog} {docs : Documents} (h : c.Holds docs) {ix : Index}
    (represents : ix.Represents docs.records) : Catalog.Holds { c with index := ix } docs :=
  ⟨h.named, represents, h.table, h.definitions⟩

/-- Catalogs that are kept for the same documents are read alike. -/
theorem Holds.alike {c c' : Catalog} {docs : Documents} (h : c.Holds docs) (h' : c'.Holds docs) :
    c.Alike c' where
  index α _ := (h.index.answers_eq α).trans (h'.index.answers_eq α).symm
  symbols :=
    h.table.answers_congr h'.table fun id => (h.definitions id).trans (h'.definitions id).symm

/-- A fresh catalog to which the documents were added in any order is kept for them. -/
theorem Holds.fresh {c : Catalog} {docs : Documents} (h : c.Holds docs) {ds : List Document}
    (hperm : ds.Perm docs.listed) (version : Nat) :
    (ds.foldl Catalog.add (empty version)).Holds docs :=
  ((holds_empty version).addAll ds).congr (Documents.getElem?_putAll_of_perm h.named hperm)

/-! ### Parts of a catalog -/

theorem index_foldl_add (ds : List Document) (c : Catalog) :
    (ds.foldl Catalog.add c).index = ds.foldl Index.add c.index := by
  induction ds generalizing c with
  | nil => rfl
  | cons d rest ih => exact ih (c.add d)

theorem symbols_foldl_add (ds : List Document) (c : Catalog) :
    (ds.foldl Catalog.add c).symbols = ds.foldl (fun t d => t.set d.id d.fields) c.symbols := by
  induction ds generalizing c with
  | nil => rfl
  | cons d rest ih => exact ih (c.add d)

theorem version_foldl_add {c : Catalog} {docs : Documents} (h : c.Holds docs) (ds : List Document) :
    (ds.foldl Catalog.add c).index.version = c.index.version + ds.length := by
  induction ds generalizing c docs with
  | nil => rfl
  | cons d rest ih =>
    rw [List.foldl_cons, ih (h.add d), List.length_cons]
    change (c.index.insert _).version + _ = _
    rw [(h.index.insert (Record.distinct_ofDocument d)).2]
    omega

/-- Documents that all have names are added one like the other. -/
theorem foldlM_add?_eq {ds : List Document} (h : ∀ d ∈ ds, d.id ≠ []) (c : Catalog) :
    ds.foldlM Catalog.add? c = some (ds.foldl Catalog.add c) := by
  induction ds generalizing c with
  | nil => rfl
  | cons d rest ih =>
    rw [List.forall_mem_cons] at h
    have hadd : c.add? d = some (c.add d) := by
      rw [Catalog.add?, Index.add?, if_neg (by simpa using h.1)]
      rfl
    rw [List.foldlM_cons, hadd]
    exact ih h.2 (c.add d)

end Catalog
end Quarry
