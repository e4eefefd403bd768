import Quarry.Proofs.Json.Whole
import Quarry.Proofs.Snapshot.RoundTrip
import Quarry.Proofs.Workspace.Coherence

/-! Workspaces that are opened again on the store and the snapshot that another left. The index
comes from the snapshot if there is one. It is then as old as the snapshot: the documents are those
that were stored when it was last written, whatever was added or removed since, and the postings of
the reserved name are lost. Without a snapshot the index comes from the store. -/

namespace Quarry

namespace Workspace

/-- A coherent workspace whose documents are such as are read: no field of theirs has the reserved
name. -/
structure Restorable (w : Workspace MemoryStore) : Prop extends w.Coherent where
  unreserved : ∀ (id : DocId) d, w.store.documents[id]? = some d →
    ∀ m ∈ d.fields, m.1 ≠ Json.reservedName

variable {w : Workspace MemoryStore}

theorem restorable_new (settings : Settings) (semantic fuzzy : Option Provider)
    (snapshot : Option SnapshotFile) (digest : Text → Text) (globs : GlobReader) :
    (new MemoryStore.empty settings semantic fuzzy snapshot digest globs).Restorable where
  toCoherent := coherent_new settings semantic fuzzy snapshot digest globs
  unreserved := by cases semantic <;> cases fuzzy <;> simp [new, setProvider, MemoryStore.empty]

theorem Restorable.congr (h : w.Restorable) {w' : Workspace MemoryStore}
    (store : w'.store = w.store) (catalog : w'.catalog = w.catalog) : w'.Restorable where
  toCoherent := h.toCoherent.congr store catalog
  unreserved := by rw [store]; exact h.unreserved

theorem Restorable.add (h : w.Restorable) (values : List Json) :
    (w.add values).workspace.Restorable where
  toCoherent := h.toCoherent.add values
  unreserved := by
    rcases add_cases h.faultless values with heq | ⟨docs, hread, heq⟩
    · rw [heq]
      exact h.unreserved
    · rw [heq]
      refine Documents.forall_putAll h.unreserved fun d hd => ?_
      obtain ⟨_, -, hd⟩ := exists_of_mapM_ok hread d hd
      exact Document.unreserved_of_read hd

theorem Restorable.remove (h : w.Restorable) (id : DocId) : (w.remove id).workspace.Restorable where
  toCoherent := h.toCoherent.remove id
  unreserved := by
    rw [remove_workspace h.faultless]
    exact Text.forall_erase h.unreserved id

theorem Restorable.rebuild (h : w.Restorable) : w.rebuild.workspace.Restorable where
  toCoherent := h.toCoherent.rebuild
  unreserved := by
    rw [h.alike_rebuild.store]
    exact h.unreserved

/-! ### What a snapshot gives back -/

/-- A snapshot can hold the index if it can hold its version and each of the documents. -/
theorem Coherent.writable (h : w.Coherent) (version : w.catalog.index.version < Number.exactBound)
    (documents : ∀ d ∈ w.store.listed, (Record.ofDocument d).document.length < Number.exactBound ∧
      (∀ field ∈ (Record.ofDocument d).document.fieldLengths, field.2 < Number.exactBound) ∧
      Json.Ordered d.fields) : w.catalog.index.Writable := by
  have hstored : ∀ id found, w.catalog.index.document? id = some found →
      ∃ d ∈ w.store.listed, found = (Record.ofDocument d).document := by
    intro id found hfound
    rw [h.holds.index.document?_eq, Option.map_eq_some_iff] at hfound
    obtain ⟨r, hr, rfl⟩ := hfound
    rw [Documents.getElem?_records, Option.map_eq_some_iff] at hr
    obtain ⟨d, hd, rfl⟩ := hr
    exact ⟨d, (Documents.mem_listed h.holds.named).2 (h.holds.named id d hd ▸ hd), rfl⟩
  refine ⟨version, fun id found hfound => ?_, fun id found hfound => ?_, fun id found hfound => ?_⟩
  all_goals obtain ⟨d, hd, rfl⟩ := hstored id found hfound
  · exact (documents d hd).1
  · exact (documents d hd).2.1
  · exact (documents d hd).2.2

/-- What a snapshot of the index of a workspace is read as. -/
def restored (w : Workspace MemoryStore) : Snapshot.Restored :=
  Snapshot.restore (.image w.catalog.index)

/-- What is written of an index is read back from its file. -/
theorem Coherent.readSnapshot_eq (h : w.Coherent) (hwritable : w.catalog.index.Writable) :
    readSnapshot (Snapshot.ofIndex w.catalog.index).write.replaceLone = .ok w.restored := by
  have hplain := Snapshot.plain_ofIndex h.holds.index h.exists_document hwritable
  rw [hplain.whole_write.replaceLone_eq, readSnapshot, Json.read?_write hplain]
  simp only [Snapshot.restore?, Snapshot.check_ofIndex h.holds.index h.exists_document]
  rfl

theorem Coherent.dropped_restored (h : w.Coherent) : w.restored.dropped = [] :=
  Snapshot.dropped_restore_image h.holds.index h.exists_document

theorem Restorable.document?_restored (h : w.Restorable) (id : DocId) :
    w.restored.index.document? id = w.remade.index.document? id := by
  rw [restored, Snapshot.document?_restore_image h.holds.index h.exists_document,
    h.holds.index.document?_eq, h.holds_remade.index.document?_eq, Documents.getElem?_records]
  cases hd : w.store.documents[id]? with
  | none => rfl
  | some d =>
    have hfields : d.fields.filter (·.1 != Json.reservedName) = d.fields :=
      List.filter_eq_self.2 fun m hm => by simpa using h.unreserved id d hd m hm
    simp only [Option.map_some]
    rw [show (Record.ofDocument d).document.fields = d.fields from rfl, hfields]
    rfl

theorem Coherent.postingsOf_restored (h : w.Coherent) (term : Term) :
    w.restored.index.postingsOf term =
    if term = Json.reservedName then [] else w.remade.index.postingsOf term := by
  rw [restored, Snapshot.postingsOf_restore_image h.holds.index h.exists_document,
    h.holds.index.postingsOf_eq, h.holds_remade.index.postingsOf_eq]

theorem documentIds_of_holds {c : Catalog} {docs : Documents} (h : c.Holds docs) :
    c.index.documentIds = docs.keys := by
  rw [Index.documentIds, h.index.keys_documents, Documents.records, Std.TreeMap.keys_map]

theorem Restorable.documentIds_restored (h : w.Restorable) :
    w.restored.index.documentIds = w.store.documents.keys := by
  rw [← documentIds_of_holds h.holds_remade]
  exact Index.documentIds_congr fun id => by rw [h.document?_restored]

/-- The symbols that are made from the index of a snapshot are those that a rebuild makes. -/
theorem Restorable.symbols_restored (h : w.Restorable) :
    (catalogOf w.restored.index).symbols = w.remade.symbols := by
  have hdocuments : Snapshot.documentsOf w.restored.index =
      w.store.listed.map fun d => (Record.ofDocument d).document := by
    have hsame : Snapshot.documentsOf w.restored.index = Snapshot.documentsOf w.remade.index := by
      rw [Snapshot.documentsOf, Snapshot.documentsOf, h.documentIds_restored,
        documentIds_of_holds h.holds_remade]
      exact List.filterMap_congr fun id _ => h.document?_restored id
    rw [hsame, Snapshot.documentsOf_eq h.holds_remade.index, Documents.records,
      Std.TreeMap.toList_map, List.map_map, MemoryStore.listed, Documents.listed, List.map_map]
    rfl
  rw [catalogOf, remade, Catalog.symbols_foldl_add]
  change (Snapshot.documentsOf w.restored.index).foldl _ _ = _
  rw [hdocuments, List.foldl_map]
  rfl

/-- Taking up a snapshot from which no document was left out. -/
theorem takeUp_eq (w : Workspace MemoryStore) {r : Snapshot.Restored} (h : r.dropped = []) :
    w.takeUp r = ⟨.ok ⟨.snapshot, r.index.documentCount, []⟩,
      [loadedNote r.index.documentCount 0 0], w.swap (catalogOf r.index)⟩ := by
  rw [takeUp, h]
  rfl

/-- A workspace opened on a store and the file of a snapshot. -/
def reopen (store : MemoryStore) (file : SnapshotFile) (settings : Settings)
    (semantic fuzzy : Option Provider) (digest : Text → Text) (globs : GlobReader) :
    Done MemoryStore Loaded :=
  (new store settings semantic fuzzy (some file) digest globs).load

section

variable (path : Text) (settings : Settings) (semantic fuzzy : Option Provider)
    (digest : Text → Text) (globs : GlobReader)

/-- On a snapshot the catalog is that of the workspace whose index it is, whatever the
store holds. -/
theorem Restorable.reopen_eq (h : w.Restorable) (hwritable : w.catalog.index.Writable)
    (store : MemoryStore) :
    let reopened :=
      reopen store ⟨path, .content (Snapshot.ofIndex w.catalog.index).write.replaceLone⟩
        settings semantic fuzzy digest globs
    reopened.answer = .ok ⟨.snapshot, w.store.documents.size, []⟩ ∧
      reopened.workspace.catalog = catalogOf w.restored.index := by
  intro reopened
  have hsnapshot : ∀ file, (new store settings semantic fuzzy (some file) digest globs).snapshot =
      some file := by
    intro file
    cases semantic <;> cases fuzzy <;> rfl
  have hcount : w.restored.index.documentCount = w.store.documents.size := by
    have hkeys := congrArg List.length h.documentIds_restored
    rwa [Index.documentIds, Std.TreeMap.length_keys, Std.TreeMap.length_keys] at hkeys
  have hloaded : reopened.answer = .ok ⟨.snapshot, w.restored.index.documentCount, []⟩ ∧
      reopened.workspace.catalog = catalogOf w.restored.index := by
    simp only [reopened, reopen, load, loadSnapshot, hsnapshot, h.readSnapshot_eq hwritable,
      takeUp_eq _ h.dropped_restored]
    exact ⟨rfl, rfl⟩
  rwa [hcount] at hloaded

/-- Without a snapshot the catalog is made from the store. -/
theorem Coherent.reopen_absent (h : w.Coherent) :
    let reopened := reopen w.store ⟨path, .absent⟩ settings semantic fuzzy digest globs
    if settings.readers.isNone then reopened.answer = .error .noReaders
    else reopened.answer = .ok ⟨.store, w.store.documents.size, []⟩ ∧
      reopened.workspace.catalog.Holds w.store.documents := by
  intro reopened
  let opened := new w.store settings semantic fuzzy (some ⟨path, .absent⟩) digest globs
  obtain ⟨hstore, hsettings, hsnapshot⟩ :
    opened.store = w.store ∧ opened.settings.current = settings ∧
      opened.snapshot = some ⟨path, .absent⟩ := by
    cases semantic <;> cases fuzzy <;> exact ⟨rfl, rfl, rfl⟩
  have hrebuilt :=
    Workspace.rebuild_eq (w := opened) (hstore ▸ h.faultless) (hstore ▸ h.holds.named)
      (hstore ▸ h.nonempty)
  have hholds := Workspace.holds_remade (w := opened) (hstore ▸ h.holds.named)
  rw [hsettings, hstore] at hrebuilt
  rw [hstore] at hholds
  have hload : reopened = ⟨opened.rebuild.answer.map fun r => ⟨.store, r.documents, []⟩,
      opened.rebuild.notes, opened.rebuild.workspace⟩ := by
    change opened.load = _
    simp only [load, loadSnapshot, hsnapshot, List.nil_append]
  rw [hload, hrebuilt]
  split
  · rfl
  · exact ⟨rfl, hholds⟩

end

end Workspace

/-! ### Runs -/

/-- One of the things that are done to a workspace that leaves a snapshot. -/
inductive Chore where
  | add (values : List Json)
  | remove (id : DocId)
  | rebuild
  | persist

/-- A workspace, and what it was when its snapshot was last written. -/
structure Kept where
  workspace : Workspace MemoryStore
  saved : Option (Workspace MemoryStore)

namespace Kept

def step (k : Kept) : Chore → Kept
  | .add values => { k with workspace := (k.workspace.add values).workspace }
  | .remove id => { k with workspace := (k.workspace.remove id).workspace }
  | .rebuild => { k with workspace := k.workspace.rebuild.workspace }
  | .persist => ⟨k.workspace.persist.workspace, some k.workspace⟩

/-- The workspace after several chores. -/
def run (k : Kept) (chores : List Chore) : Kept := chores.foldl step k

/-- A workspace over an empty store in memory, with a place for its snapshot. -/
def fresh (path : Text) (settings : Settings) (semantic fuzzy : Option Provider)
    (digest : Text → Text) (globs : GlobReader) : Kept :=
  ⟨.new MemoryStore.empty settings semantic fuzzy (some ⟨path, .absent⟩) digest globs, none⟩

/-- What stands at the place of the snapshot. -/
def file (k : Kept) : FileState :=
  match k.saved with
  | none => .absent
  | some s => .content (Snapshot.ofIndex s.catalog.index).write.replaceLone

/-- The workspace that one opened later takes its documents from. -/
def source (k : Kept) : Workspace MemoryStore := k.saved.getD k.workspace

/-- What chores keep: the workspaces are restorable, and the snapshot is what was saved. -/
structure Sound (path : Text) (k : Kept) : Prop where
  workspace : k.workspace.Restorable
  saved : ∀ s, k.saved = some s → s.Restorable
  snapshot : k.workspace.snapshot = some ⟨path, k.file⟩

theorem sound_fresh (path : Text) (settings : Settings) (semantic fuzzy : Option Provider)
    (digest : Text → Text) (globs : GlobReader) :
    Sound path (fresh path settings semantic fuzzy digest globs) where
  workspace := Workspace.restorable_new settings semantic fuzzy _ digest globs
  saved _ h := nomatch h
  snapshot := by cases semantic <;> cases fuzzy <;> rfl

theorem Sound.step {path : Text} {k : Kept} (h : Sound path k) (chore : Chore) :
    Sound path (k.step chore) := by
  cases chore with
  | add values =>
    refine ⟨h.workspace.add values, h.saved, ?_⟩
    rcases Workspace.add_cases h.workspace.faultless values with heq | ⟨docs, -, heq⟩
    · simp only [Kept.step, heq]
      exact h.snapshot
    · simp only [Kept.step, heq]
      exact h.snapshot
  | remove id =>
    refine ⟨h.workspace.remove id, h.saved, ?_⟩
    simp only [Kept.step, Workspace.remove_workspace h.workspace.faultless]
    exact h.snapshot
  | rebuild =>
    refine ⟨h.workspace.rebuild, h.saved, ?_⟩
    simp only [Kept.step, h.workspace.rebuild_eq]
    split <;> exact h.snapshot
  | persist =>
    have hpersist : k.workspace.persist.workspace = { k.workspace with
        snapshot := some ⟨path, .content
          (Snapshot.ofIndex k.workspace.catalog.index).write.replaceLone⟩ } := by
      cases hfile : k.file <;> simp only [Workspace.persist, h.snapshot, hfile]
      unfold file at hfile
      split at hfile <;> cases hfile
    refine ⟨?_, fun s hs => Option.some.inj hs ▸ h.workspace, ?_⟩
    · simp only [Kept.step, hpersist]
      exact h.workspace.congr rfl rfl
    · simp only [Kept.step, hpersist]
      rfl

theorem Sound.run {path : Text} {k : Kept} (h : Sound path k) (chores : List Chore) :
    Sound path (k.run chores) := by
  induction chores generalizing k with
  | nil => exact h
  | cons chore rest ih => exact ih (h.step chore)

/-- A workspace that is opened after any chores is as one rebuilt when the snapshot was last
written, but for the postings of the reserved name, and as one rebuilt now if none was ever written.
It opens unless it has to rebuild without a number of readers. -/
theorem reopen_run (path : Text) (settings : Settings) (semantic fuzzy : Option Provider)
    (digest : Text → Text) (globs : GlobReader) (chores : List Chore) (settings' : Settings)
    (semantic' fuzzy' : Option Provider) (digest' : Text → Text) (globs' : GlobReader)
    (writable : ∀ s, ((fresh path settings semantic fuzzy digest globs).run chores).saved = some s →
      s.catalog.index.Writable) :
    let k := (fresh path settings semantic fuzzy digest globs).run chores
    let reopened :=
      Workspace.reopen k.workspace.store ⟨path, k.file⟩ settings' semantic' fuzzy' digest' globs'
    let c := reopened.workspace.catalog
    k.workspace.snapshot = some ⟨path, k.file⟩ ∧
    (reopened.answer = if k.saved.isNone ∧ settings'.readers.isNone then .error .noReaders
      else .ok ⟨if k.saved.isSome then .snapshot else .store, k.source.store.documents.size, []⟩) ∧
    ∀ loaded, reopened.answer = .ok loaded →
      c.index.documentIds = k.source.store.documents.keys ∧
      (∀ id, c.index.document? id = k.source.remade.index.document? id) ∧
      (∀ term, c.index.postingsOf term =
        if k.saved.isSome ∧ term = Json.reservedName then []
          else k.source.remade.index.postingsOf term) ∧
      c.symbols.answers = k.source.remade.symbols.answers := by
  intro k reopened c
  have hsound : Sound path k := (sound_fresh path settings semantic fuzzy digest globs).run chores
  refine ⟨hsound.snapshot, ?_⟩
  cases hsaved : k.saved with
  | none =>
    have hopened := hsound.workspace.reopen_absent path settings' semantic' fuzzy' digest' globs'
    have hfile : k.file = .absent := by rw [file, hsaved]
    have hsource : k.source = k.workspace := by rw [source, hsaved]; rfl
    rw [← hfile] at hopened
    rw [hsource]
    split at hopened
    · rename_i hreaders
      refine ⟨hopened.trans (if_pos ⟨rfl, hreaders⟩).symm, fun loaded hloaded => ?_⟩
      rw [hopened] at hloaded
      cases hloaded
    · rename_i hreaders
      obtain ⟨hanswer, hholds⟩ := hopened
      refine ⟨hanswer.trans (if_neg fun h => hreaders h.2).symm, fun _ _ => ?_⟩
      have hremade := hsound.workspace.holds_remade
      refine ⟨Workspace.documentIds_of_holds hholds, fun id => ?_, fun term => ?_,
        (hholds.alike hremade).symbols⟩
      · rw [hholds.index.document?_eq, hremade.index.document?_eq]
      · rw [hholds.index.postingsOf_eq, hremade.index.postingsOf_eq]
        simp
  | some s =>
    have hrestorable := hsound.saved s hsaved
    obtain ⟨hanswer, hcatalog⟩ :=
      hrestorable.reopen_eq path settings' semantic' fuzzy' digest' globs'
        (writable s hsaved) k.workspace.store
    have hfile : k.file = .content (Snapshot.ofIndex s.catalog.index).write.replaceLone := by
      rw [file, hsaved]
    have hsource : k.source = s := by rw [source, hsaved]; rfl
    rw [← hfile] at hanswer hcatalog
    rw [hsource]
    refine ⟨hanswer.trans (by simp), fun _ _ => ?_⟩
    have hindex : c.index = s.restored.index := congrArg Catalog.index hcatalog
    refine ⟨?_, fun id => ?_, fun term => ?_, ?_⟩
    · rw [hindex, hrestorable.documentIds_restored]
    · rw [hindex, hrestorable.document?_restored]
    · rw [hindex, hrestorable.postingsOf_restored]
      simp
    · rw [show c.symbols = _ from congrArg Catalog.symbols hcatalog, hrestorable.symbols_restored]

/-- A document that is added behind the snapshot is in the store and not in the index. -/
theorem reopen_stale :
    let document : Char → Json := fun c =>
      .object [(Text.ofChars ['i', 'd'], .text (Text.ofChars [c])),
        (Text.ofChars ['t', 'e', 'x', 't'], .text (Text.ofChars [c]))]
    let k := (fresh [] .default none none id .literal).run
      [.add [document 'a'], .persist, .add [document 'b']]
    let reopened := Workspace.reopen k.workspace.store ⟨[], k.file⟩ .default none none id .literal
    reopened.answer.toOption.isSome ∧
      k.workspace.store.documents.keys = [Text.ofChars ['a'], Text.ofChars ['b']] ∧
      reopened.workspace.catalog.index.documentIds = [Text.ofChars ['a']] := by
  decide +kernel

/-- A document that is removed behind the snapshot is in the index and no longer in the store. -/
theorem reopen_run_removed :
    let document : Char → Json := fun c =>
      .object [(Text.ofChars ['i', 'd'], .text (Text.ofChars [c])),
        (Text.ofChars ['t', 'e', 'x', 't'], .text (Text.ofChars [c]))]
    let a := Text.ofChars ['a']
    let k :=
      (fresh [] .default none none id .literal).run [.add [document 'a'], .persist, .remove a]
    let reopened := Workspace.reopen k.workspace.store ⟨[], k.file⟩ .default none none id .literal
    (∀ s, k.saved = some s → s.catalog.index.Writable) ∧
      k.workspace.store.documents.keys = [] ∧
      reopened.answer = .ok ⟨.snapshot, 1, []⟩ ∧
      reopened.workspace.catalog.index.postingsOf a = [⟨a, [0]⟩] := by
  intro document a k reopened
  have hwritable : ∀ s, k.saved = some s → s.catalog.index.Writable := by
    rintro s ⟨⟩
    have hcoherent := ((sound_fresh [] .default none none id .literal).run
      [.add [document 'a']]).workspace.toCoherent
    exact hcoherent.writable (by decide +kernel) (by decide +kernel)
  obtain ⟨-, hanswer, hcatalog⟩ := reopen_run [] .default none none id .literal
    [.add [document 'a'], .persist, .remove a] .default none none id .literal hwritable
  refine ⟨hwritable, by decide +kernel, hanswer, ?_⟩
  obtain ⟨-, -, hpostings, -⟩ := hcatalog _ hanswer
  refine (hpostings a).trans ?_
  decide +kernel

end Kept
end Quarry
