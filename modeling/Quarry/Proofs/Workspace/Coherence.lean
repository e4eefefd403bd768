import Quarry.Proofs.Document
import Quarry.Proofs.Filter
import Quarry.Proofs.Search.Alike
import Quarry.Proofs.Workspace.Session

/-! A workspace keeps its catalog for the documents of its store. Adding, removing, rebuilding and
searching, in any order, lead to the catalog that a fresh one would be if each stored document were
added to it once; a rebuild makes just that. -/

namespace Quarry

/-- What holds of documents and of those that are put in holds of all that are there then. -/
theorem Documents.forall_putAll {P : DocId → Document → Prop} {docs : Documents}
    (h : ∀ (id : DocId) d, docs[id]? = some d → P id d) {ds : List Document}
    (hds : ∀ d ∈ ds, P d.id d) :
    ∀ (id : DocId) d, (docs.putAll ds)[id]? = some d → P id d := by
  induction ds generalizing docs with
  | nil => exact h
  | cons d rest ih =>
    rw [List.forall_mem_cons] at hds
    exact ih (Text.forall_insert h hds.1) hds.2

/-- The stored documents in ascending order of their names. -/
def MemoryStore.listed (s : MemoryStore) : List Document := Documents.listed s.documents

namespace Workspace

/-- The store never fails, its documents have names, and the catalog is kept for them. -/
structure Coherent (w : Workspace MemoryStore) : Prop where
  faultless : ∀ access, w.store.faults access = none
  holds : w.catalog.Holds w.store.documents
  nonempty : ∀ (id : DocId) d, w.store.documents[id]? = some d → id ≠ []

variable {w : Workspace MemoryStore}

/-- What leaves the store and the catalog alone keeps them coherent. -/
theorem Coherent.congr (h : w.Coherent) {w' : Workspace MemoryStore} (store : w'.store = w.store)
    (catalog : w'.catalog = w.catalog) : w'.Coherent where
  faultless := by rw [store]; exact h.faultless
  holds := by rw [catalog, store]; exact h.holds
  nonempty := by rw [store]; exact h.nonempty

theorem Coherent.exists_document (h : w.Coherent) (id : DocId) (r : Record)
    (hr : (Documents.records w.store.documents)[id]? = some r) :
    ∃ d, d.id ≠ [] ∧ r = .ofDocument d := by
  rw [Documents.getElem?_records, Option.map_eq_some_iff] at hr
  obtain ⟨d, hd, rfl⟩ := hr
  exact ⟨d, h.holds.named id d hd ▸ h.nonempty id d hd, rfl⟩

theorem coherent_new (settings : Settings) (semantic fuzzy : Option Provider)
    (snapshot : Option SnapshotFile) (digest : Text → Text) (globs : GlobReader) :
    (new MemoryStore.empty settings semantic fuzzy snapshot digest globs).Coherent := by
  have hempty : Coherent { store := MemoryStore.empty, catalog := .empty 0,
                           settings := .start settings,
                           snapshot, hybrid := .empty none digest globs } :=
    ⟨fun _ => rfl, Catalog.holds_empty 0, by simp [MemoryStore.empty]⟩
  refine hempty.congr ?_ ?_ <;> cases semantic <;> cases fuzzy <;> rfl

/-! ### Documents -/

/-- Adding values adds the documents that they are, or none. -/
theorem add_cases (h : ∀ access, w.store.faults access = none) (values : List Json) :
    (w.add values).workspace = w ∨ ∃ docs, values.mapM Document.read = .ok docs ∧
      (w.add values).workspace =
        { w with
          store := w.store.insertAll docs
          catalog := docs.foldl Catalog.add w.catalog } := by
  rw [add]
  cases hread : values.mapM Document.read with
  | error f => exact .inl rfl
  | ok docs =>
    cases docs with
    | nil => exact .inl rfl
    | cons d rest =>
      refine .inr ⟨d :: rest, rfl, ?_⟩
      have hput : DocumentStore.put w.store (d :: rest) = .ok (w.store.insertAll (d :: rest)) :=
        MemoryStore.guarded_eq h .put _
      simp only [ingest, hput]
      rfl

theorem Coherent.add (h : w.Coherent) (values : List Json) : (w.add values).workspace.Coherent := by
  rcases add_cases h.faultless values with heq | ⟨docs, hread, heq⟩
  · rwa [heq]
  · rw [heq]
    exact ⟨h.faultless, h.holds.addAll docs,
      Documents.forall_putAll h.nonempty (Document.id_ne_nil_of_mapM_read hread)⟩

theorem remove_workspace (h : ∀ access, w.store.faults access = none) (id : DocId) :
    (w.remove id).workspace = { w with
      store := { w.store with documents := w.store.documents.erase id }
      catalog := w.catalog.remove id } := by
  have hdelete : DocumentStore.delete w.store id = .ok (w.store.documents.contains id,
      { w.store with documents := w.store.documents.erase id }) :=
    MemoryStore.guarded_eq h (.delete id) _
  simp only [remove, hdelete]
  rfl

theorem Coherent.remove (h : w.Coherent) (id : DocId) : (w.remove id).workspace.Coherent := by
  rw [remove_workspace h.faultless]
  exact ⟨h.faultless, h.holds.remove id, Text.forall_erase h.nonempty id⟩

/-! ### Rebuilding -/

/-- A store that never fails gives all documents that are asked for and there. -/
theorem readAll_eq (h : ∀ access, w.store.faults access = none) {ids : List DocId}
    (hids : ∀ id ∈ ids, w.store.documents.contains id = true) :
    w.readAll ids = ⟨ids.filterMap fun id => w.store.documents[id]?, [], [], false⟩ := by
  induction ids with
  | nil => rfl
  | cons id rest ih =>
    rw [List.forall_mem_cons] at hids
    obtain ⟨d, hd⟩ := Option.isSome_iff_exists.1
      ((Std.TreeMap.isSome_getElem?_eq_contains ..).trans hids.1)
    have hget : DocumentStore.get w.store id = .ok (some d) :=
      (MemoryStore.guarded_eq h (.get id) _).trans (congrArg Except.ok hd)
    rw [readAll, hget, ih hids.2, List.filterMap_cons, hd]

theorem readAll_keys (h : ∀ access, w.store.faults access = none) :
    w.readAll w.store.documents.keys = ⟨w.store.listed, [], [], false⟩ := by
  rw [readAll_eq h fun id hid => by simpa using hid]
  congr 1
  rw [MemoryStore.listed, Documents.listed, ← Std.TreeMap.map_fst_toList_eq_keys,
    List.filterMap_map, ← List.filterMap_eq_map]
  refine List.filterMap_congr fun entry hentry => ?_
  exact Std.TreeMap.mem_toList_iff_getElem?_eq_some.1 hentry

/-- The catalog that a rebuild makes. -/
def remade (w : Workspace MemoryStore) : Catalog :=
  w.store.listed.foldl Catalog.add (.empty (w.catalog.index.version + 1))

/-- The catalog that a rebuild makes is kept for the documents of the store, whatever the catalog
was before. -/
theorem holds_remade (named : Documents.Named w.store.documents) :
    w.remade.Holds w.store.documents :=
  ((Catalog.holds_empty _).addAll _).congr (Documents.getElem?_putAll_of_perm named (.refl _))

theorem Coherent.holds_remade (h : w.Coherent) : w.remade.Holds w.store.documents :=
  Workspace.holds_remade h.holds.named

/-- A rebuild goes by the store alone. It skips no document, and fails only without a number of
readers. -/
theorem rebuild_eq (faultless : ∀ access, w.store.faults access = none)
    (named : Documents.Named w.store.documents)
    (nonempty : ∀ (id : DocId) d, w.store.documents[id]? = some d → id ≠ []) : w.rebuild =
    if w.settings.current.readers.isNone then w.failed .noReaders
    else ⟨.ok ⟨w.store.documents.size, []⟩, [rebuiltNote ⟨w.store.documents.size, []⟩],
      w.swap w.remade⟩ := by
  have hids : DocumentStore.ids w.store = .ok w.store.documents.keys :=
    MemoryStore.guarded_eq faultless .ids _
  have hnames : ∀ d ∈ w.store.listed, d.id ≠ [] := fun d hd =>
    nonempty d.id d ((Documents.mem_listed named).1 hd)
  have hmade : catalogWith (.empty (w.catalog.index.version + 1)) w.store.listed =
      .ok w.remade := by
    rw [catalogWith, Catalog.foldlM_add?_eq hnames]
    rfl
  have hcount : w.remade.index.documentCount = w.store.documents.size :=
    (Workspace.holds_remade named).index.documentCount_eq.trans (Documents.size_records _)
  rw [rebuild, hids]
  simp only [readAll_keys faultless, hmade, hcount]
  rfl

theorem Coherent.rebuild_eq (h : w.Coherent) : w.rebuild =
    if w.settings.current.readers.isNone then w.failed .noReaders
    else ⟨.ok ⟨w.store.documents.size, []⟩, [rebuiltNote ⟨w.store.documents.size, []⟩],
      w.swap w.remade⟩ := Workspace.rebuild_eq h.faultless h.holds.named h.nonempty

theorem Coherent.rebuild (h : w.Coherent) : w.rebuild.workspace.Coherent := by
  rw [h.rebuild_eq]
  split
  · exact h
  · exact ⟨h.faultless, h.holds_remade, h.nonempty⟩

/-- A rebuilt workspace is told from what it was by its version alone. -/
theorem Coherent.alike_rebuild (h : w.Coherent) : w.rebuild.workspace.Alike w := by
  rw [h.rebuild_eq]
  split
  · exact ⟨rfl, rfl, rfl, rfl, .refl _⟩
  · exact ⟨rfl, rfl, rfl, rfl, h.holds_remade.alike h.holds⟩

theorem version_remade (w : Workspace MemoryStore) :
    w.remade.index.version = w.catalog.index.version + 1 + w.store.documents.size := by
  rw [remade, Catalog.version_foldl_add (Catalog.holds_empty _), MemoryStore.listed,
    Documents.listed, List.length_map, Std.TreeMap.length_toList]
  rfl

/-! ### Sessions -/

theorem Coherent.configure (h : w.Coherent) (change : Settings → Except Failure Settings) :
    (w.configure change).workspace.Coherent := by
  rw [Workspace.configure]
  split <;> exact h.congr rfl rfl

theorem Coherent.setProvider (h : w.Coherent) (s : Source) (p : Option Provider) :
    (w.setProvider s p).Coherent := by
  cases p <;> exact h.congr rfl rfl

theorem Coherent.endSearch (h : w.Coherent) (ix : Index) (now : Float) (u : Underway) :
    (w.endSearch ix now u).workspace.Coherent := by
  rw [Workspace.endSearch]
  split <;> exact h.congr rfl rfl

theorem Coherent.withIndex (h : w.Coherent) {ix : Index}
    (represents : ix.Represents (Documents.records w.store.documents)) :
    (w.withIndex ix).Coherent :=
  ⟨h.faultless, h.holds.withIndex represents, h.nonempty⟩

end Workspace

namespace Session

theorem coherent_step {s : Session MemoryStore} (h : s.workspace.Coherent) (task : Task) :
    (s.step task).workspace.Coherent := by
  cases task with
  | add values => exact h.add values
  | remove id => exact h.remove id
  | rebuild =>
    rw [workspace_step_rebuild]
    exact h.rebuild
  | configureWeights j => exact h.configure _
  | configureMethods j => exact h.configure _
  | setProvider source p => exact h.setProvider source p
  | begin now q => exact h.congr rfl rfl
  | finish n now =>
    rw [step]
    split
    · exact h
    · exact h.endSearch _ now _
  | readPostings term => exact h.withIndex (h.holds.index.readPostings term).1
  | readVocabulary => exact h.withIndex h.holds.index.readVocabulary.1

theorem coherent_run {s : Session MemoryStore} (h : s.workspace.Coherent) (tasks : List Task) :
    (s.run tasks).workspace.Coherent := by
  induction tasks generalizing s with
  | nil => exact h
  | cons task rest ih => exact ih (coherent_step h task)

/-- After any tasks the index answers, and ranks, as a fresh one to which each stored document was
added once, in any order, and the table of symbols as a fresh one of their fields. A rebuild then
skips no document and changes nothing that is read but the version, which grows. -/
theorem coherent_fresh_run (settings : Settings) (semantic fuzzy : Option Provider)
    (snapshot : Option SnapshotFile) (digest : Text → Text) (globs : GlobReader) (tasks : List Task)
    (docs : List Document) (stored : docs.Perm
      ((fresh settings semantic fuzzy snapshot digest globs).run tasks).workspace.store.listed) :
    let w := ((fresh settings semantic fuzzy snapshot digest globs).run tasks).workspace
    (∀ (α : Type) [Scalar α] (version : Nat),
      w.catalog.index.answers α = (docs.foldl Index.add (.empty version)).answers α ∧
      ∀ (tuning : Tuning α) (q : Query), Bm25.score tuning w.catalog.index q =
        Bm25.score tuning (docs.foldl Index.add (.empty version)) q) ∧
    w.catalog.symbols.answers =
      (docs.foldl (fun t d => t.set d.id d.fields) SymbolTable.empty).answers ∧
    w.rebuild.answer = (if w.settings.current.readers.isNone then .error .noReaders
      else .ok ⟨docs.length, []⟩) ∧
    w.rebuild.workspace.catalog.index.version = w.catalog.index.version +
      (if w.settings.current.readers.isNone then 0 else 1 + docs.length) ∧
    w.rebuild.workspace.store = w.store ∧
    w.rebuild.workspace.catalog.Alike w.catalog ∧
    ∀ (now : Float) (q : Inquiry), q.mode.isDirect = true →
      (w.rebuild.workspace.search now q).answer = (w.search now q).answer := by
  intro w
  have hcoherent : w.Coherent :=
    coherent_run (Workspace.coherent_new settings semantic fuzzy snapshot digest globs) tasks
  have hfresh : ∀ version,
      w.catalog.Alike (docs.foldl Catalog.add (.empty version)) := fun version =>
    hcoherent.holds.alike (hcoherent.holds.fresh stored version)
  have hcount : w.store.documents.size = docs.length := by
    rw [stored.length_eq, MemoryStore.listed, Documents.listed, List.length_map,
      Std.TreeMap.length_toList]
  have halike := hcoherent.alike_rebuild
  refine ⟨fun α _ version => ?_, ?_, ?_, ?_, halike.store, halike.catalog,
    fun now q direct => halike.answer_search_eq direct now⟩
  · have hindex := Catalog.index_foldl_add docs (.empty version)
    change _ = docs.foldl Index.add (.empty version) at hindex
    rw [← hindex]
    exact ⟨(hfresh version).index α, fun tuning q => (hfresh version).score_eq tuning q⟩
  · have hsymbols := Catalog.symbols_foldl_add docs (.empty 0)
    change _ = docs.foldl (fun t d => t.set d.id d.fields) SymbolTable.empty at hsymbols
    rw [← hsymbols]
    exact (hfresh 0).symbols
  · rw [hcoherent.rebuild_eq, ← hcount]
    split <;> rfl
  · rw [hcoherent.rebuild_eq, ← hcount]
    split
    · rfl
    · exact (Workspace.version_remade w).trans (Nat.add_assoc ..)

/-- A batch that names a document twice, and a removal. -/
theorem coherent_fresh_run_repeated :
    let document : Text → Text → Json := fun id text =>
      .object [(Text.ofChars ['i', 'd'], .text id), (Text.ofChars ['t', 'e', 'x', 't'], .text text)]
    let a := Text.ofChars ['a']
    let b := Text.ofChars ['b']
    let w := ((fresh .default none none none id .literal).run
      [.add [document a b, document b b, document a a], .rebuild, .remove b]).workspace
    w.catalog.index.answers Float = ((Index.empty 7).add ⟨a, a, []⟩).answers Float ∧
      w.rebuild.answer = .ok ⟨1, []⟩ := by
  intro document a b w
  obtain ⟨hanswers, -, hrebuild, -⟩ := coherent_fresh_run .default none none none id .literal
    [.add [document a b, document b b, document a a], .rebuild, .remove b] [⟨a, a, []⟩]
    (by decide +kernel)
  exact ⟨(hanswers Float 7).1, hrebuild⟩

end Session
end Quarry
