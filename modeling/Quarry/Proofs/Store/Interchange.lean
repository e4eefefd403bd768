import Mathlib.Data.List.Perm.Subperm
import Quarry.Proofs.Catalog
import Quarry.Proofs.Document
import Quarry.Proofs.Json.Whole
import Quarry.Proofs.Ranking.RankOrder
import Quarry.Proofs.Store.Filters

/-! A table of rows in place of documents in memory. Whatever the two are asked, in whatever order,
they answer alike as long as no batch names a document twice that is not stored yet: a table has no
keys, and both rows are added to it. A batch that names a stored document twice leaves it to the
table what becomes of its row. The texts of a table are in UTF-8, so that it answers as if
surrogates that stand alone had been replaced in all that it was asked. -/

namespace Quarry

/-! ### Items under different keys -/

section

variable {α κ : Type} [BEq κ] [LawfulBEq κ] {key : α → κ} {items : List α}

/-- Among items with different keys each is found by its own. -/
theorem find?_key_eq_some_iff (nodup : (items.map key).Nodup) {k : κ} {x : α} :
    items.find? (fun x => key x == k) = some x ↔ x ∈ items ∧ key x = k := by
  constructor
  · exact fun h => ⟨List.mem_of_find?_eq_some h, by simpa using List.find?_some h⟩
  · rintro ⟨hx, rfl⟩
    obtain ⟨y, hy⟩ : ∃ y, items.find? (fun y => key y == key x) = some y :=
      Option.isSome_iff_exists.1 (List.find?_isSome.2 ⟨x, hx, beq_self_eq_true _⟩)
    have hkey : key y = key x := by simpa using List.find?_some hy
    rw [hy, List.inj_on_of_nodup_map nodup (List.mem_of_find?_eq_some hy) hx hkey]

/-- It does not matter from which end an item is searched by its key. -/
theorem find?_key_reverse (nodup : (items.map key).Nodup) (k : κ) :
    items.reverse.find? (fun x => key x == k) = items.find? (fun x => key x == k) := by
  have hnodup : (items.reverse.map key).Nodup := by
    rwa [List.map_reverse, List.nodup_reverse]
  refine Option.ext fun x => ?_
  rw [find?_key_eq_some_iff hnodup, find?_key_eq_some_iff nodup, List.mem_reverse]

end

theorem Documents.getElem?_putAll_eq (docs : Documents) (ds : List Document) (id : DocId) :
    (docs.putAll ds)[id]? = (ds.reverse.find? (·.id == id)).or docs[id]? := by
  induction ds generalizing docs with
  | nil => rfl
  | cons d rest ih =>
    rw [List.reverse_cons, List.find?_append, Option.or_assoc]
    refine (ih _).trans (congrArg _ ?_)
    rw [Text.getElem?_insert, List.find?_singleton]
    by_cases hid : d.id = id <;> simp [hid]

theorem Text.ranksOn_before : RanksOn Text.before fun _ => True where
  asymm _ _ h := by
    rw [before_iff] at h
    rw [before_eq_false_iff, h]
    rfl
  trans _ _ _ hyx hzy := by
    rw [before_eq_false_iff] at *
    exact Std.TransCmp.isLE_trans hyx hzy

/-- Different texts are put in ascending order. -/
theorem Text.ascending_rankSort {l : List Text} (nodup : l.Nodup) :
    (rankSort Text.before l).Pairwise fun a b => compare a b = .lt := by
  have hsorted : SortedBy Text.before (rankSort Text.before l) :=
    Text.ranksOn_before.sortedBy_rankSort fun _ _ => trivial
  have hne : (rankSort Text.before l).Pairwise (· ≠ ·) := (rankSort_perm _ l).nodup_iff.2 nodup
  exact (hsorted.and hne).imp fun h => compare_eq_lt (before_eq_false_iff.1 h.1) h.2

namespace Store

/-! ### Calls -/

/-- What a store is asked. -/
inductive Call where
  | put (docs : List Document)
  | delete (id : DocId)
  | get (id : DocId)
  | ids
  | count
  | clear

inductive Answer where
  | done
  | told (found : Bool)
  | document (d : Option Document)
  | ids (ids : List DocId)
  | count (n : Nat)
deriving DecidableEq

namespace Call

variable {σ : Type} [DocumentStore σ]

/-- The answer of a store to a call, and the store after it. -/
def perform (s : σ) : Call → Except Failure (Answer × σ)
  | put docs => (DocumentStore.put s docs).map fun s => (.done, s)
  | delete id => (DocumentStore.delete s id).map fun (found, s) => (.told found, s)
  | get id => (DocumentStore.get s id).map fun d => (.document d, s)
  | ids => (DocumentStore.ids s).map fun ids => (.ids ids, s)
  | count => (DocumentStore.count s).map fun n => (.count n, s)
  | clear => (DocumentStore.clear s).map fun s => (.done, s)

/-- The store after a call. One that fails changes nothing. -/
def after (s : σ) (c : Call) : σ :=
  match c.perform s with
  | .ok (_, s) => s
  | .error _ => s

end Call

/-- The answers of a store to calls one after the other. -/
def answers {σ : Type} [DocumentStore σ] (s : σ) : List Call → List (Except Failure Answer)
  | [] => []
  | c :: rest => (c.perform s).map (·.1) :: answers (c.after s) rest

/-! ### What a table keeps -/

/-- A document as a table keeps it: its texts in UTF-8, and its fields without one of the
reserved name. -/
def keptDocument (d : Document) : Document :=
  ⟨d.id.replaceLone, d.text.replaceLone, d.fields.filter (·.1 != Json.reservedName)⟩

namespace Call

def kept : Call → Call
  | put docs => put (docs.map keptDocument)
  | delete id => delete id.replaceLone
  | get id => get id.replaceLone
  | ids => ids
  | count => count
  | clear => clear

/-- Documents that are put in have names, and their fields are the members of an object. -/
def Valid : Call → Prop
  | put docs => ∀ d ∈ docs, d.id ≠ [] ∧ Json.Ordered d.fields
  | _ => True

/-- No surrogate stands alone in a name or a text, and no field has the reserved name. -/
def Whole : Call → Prop
  | put docs => ∀ d ∈ docs, d.id.Whole ∧ d.text.Whole ∧ ∀ m ∈ d.fields, m.1 ≠ Json.reservedName
  | delete id | get id => id.Whole
  | _ => True

instance : (c : Call) → Decidable c.Valid
  | put docs => inferInstanceAs (Decidable (∀ d ∈ docs, _))
  | delete _ | get _ | ids | count | clear => .isTrue trivial

instance : (c : Call) → Decidable c.Whole
  | put docs => inferInstanceAs (Decidable (∀ d ∈ docs, _))
  | delete id | get id => inferInstanceAs (Decidable id.Whole)
  | ids | count | clear => .isTrue trivial

theorem Whole.kept_eq {c : Call} (h : c.Whole) : c.kept = c := by
  cases c with
  | put docs =>
    have hkept : ∀ d ∈ docs, keptDocument d = d := by
      intro d hd
      obtain ⟨hid, htext, hfields⟩ := h d hd
      rw [keptDocument, hid.replaceLone_eq, htext.replaceLone_eq, List.filter_eq_self.2]
      simpa using fun name value hm => hfields (name, value) hm
    exact congrArg put ((List.map_congr_left hkept).trans (List.map_id docs))
  | delete id => exact congrArg delete (Text.Whole.replaceLone_eq h)
  | get id => exact congrArg get (Text.Whole.replaceLone_eq h)
  | ids => rfl
  | count => rfl
  | clear => rfl

/-- A batch names a document more than once only if it is stored already. -/
def Fits (m : MemoryStore) : Call → Prop
  | put docs => docs.Pairwise fun d d' => d.id = d'.id → d.id ∈ m.documents
  | _ => True

/-- A batch names a document that is stored already more than once only if the last one counts. -/
def Settles (last : Bool) (m : MemoryStore) : Call → Prop
  | put docs => docs.Pairwise fun d d' => d.id = d'.id → d.id ∈ m.documents → last = true
  | _ => True

instance (m : MemoryStore) : (c : Call) → Decidable (c.Fits m)
  | put docs => inferInstanceAs (Decidable (docs.Pairwise _))
  | delete _ | get _ | ids | count | clear => .isTrue trivial

instance (last : Bool) (m : MemoryStore) : (c : Call) → Decidable (c.Settles last m)
  | put docs => inferInstanceAs (Decidable (docs.Pairwise _))
  | delete _ | get _ | ids | count | clear => .isTrue trivial

end Call

/-- Each batch fits what the calls in front of it have stored, and settles what becomes of it. -/
def Fit (last : Bool) (m : MemoryStore) : List Call → Prop
  | [] => True
  | c :: rest => c.Fits m ∧ c.Settles last m ∧ Fit last (c.after m) rest

instance (last : Bool) : (m : MemoryStore) → (calls : List Call) → Decidable (Fit last m calls)
  | _, [] => .isTrue trivial
  | m, c :: rest =>
    @instDecidableAnd _ _ _ (@instDecidableAnd _ _ _ (instDecidableFit last (c.after m) rest))

/-! ### Rows -/

/-- The row of a document is read as the document that the table keeps. -/
theorem read_keptRow {d : Document} (named : d.id ≠ []) (ordered : Json.Ordered d.fields) :
    Row.read (TableStore.keptRow d).toJson = .ok (keptDocument d) := by
  have hplain := Json.plain_ofTexts ordered
  have hfields : (TableStore.keptRow d).fieldsJson = (Json.ofTexts d.fields).write :=
    hplain.whole_write.replaceLone_eq
  have hcheck : Row.check [] (TableStore.keptRow d).toJson = .ok (TableStore.keptRow d) := by
    have hid := Schema.reads_nonemptyText (Text.replaceLone_ne_nil named)
    simp only [Row.check, Row.toJson, Schema.members, bind, Except.bind]
    rw [Schema.member_eq_ok rfl hid, Schema.member_eq_ok rfl (Schema.reads_text _),
      Schema.member_eq_ok rfl (Schema.reads_text _)]
    rfl
  rw [Row.read, hcheck]
  simp only [Row.document]
  rw [hfields, Json.read?_write hplain]
  simp only [Fields.check]
  rw [Schema.reads_ofTexts]
  rfl

variable {rows source : List Row}

/-- The last row of a name. -/
def lastOf? (source : List Row) (id : DocId) : Option Row := source.reverse.find? (·.id == id)

theorem lastOf?_eq_getLast? (source : List Row) (id : DocId) :
    lastOf? source id = (source.filter (·.id == id)).getLast? := by
  rw [lastOf?, List.getLast?_eq_head?_reverse, ← List.filter_reverse, List.head?_filter]

theorem id_getD_lastOf? (source : List Row) (r : Row) :
    ((lastOf? source r.id).getD r).id = r.id := by
  cases hlast : lastOf? source r.id with
  | none => rfl
  | some r' => simpa using List.find?_some hlast

/-- Rows merged into others so that the last one of a name counts. -/
def mergeLast (rows source : List Row) : List Row :=
  rows.map (fun r => (lastOf? source r.id).getD r) ++
    source.filter fun r => !rows.any (·.id == r.id)

/-- A row that no others match, or one, or several of which the last counts, is changed to
the last. -/
theorem updated_eq {settle : Row → List Row → List Row} {r : Row}
    (settles : ∀ a b more, source.filter (·.id == r.id) = a :: b :: more →
      settle = TableStore.takeLast) :
    TableStore.updated settle source r = [(lastOf? source r.id).getD r] := by
  rw [TableStore.updated, lastOf?_eq_getLast?]
  cases hmatches : source.filter (·.id == r.id) with
  | nil => rfl
  | cons a more =>
    cases more with
    | nil => rfl
    | cons b more =>
      simp only
      rw [settles a b more hmatches, TableStore.takeLast, List.getLast?_cons_cons,
        List.getLast?_eq_some_getLast (List.cons_ne_nil b more)]
      rfl

theorem merge_eq {settle : Row → List Row → List Row} {last : Bool}
    (takes : last = true → settle = TableStore.takeLast)
    (settles : source.Pairwise fun r r' => r.id = r'.id → r.id ∈ rows.map (·.id) → last = true) :
    TableStore.merge settle rows source = mergeLast rows source := by
  rw [TableStore.merge, mergeLast, ← List.flatMap_pure_eq_map]
  refine congrArg (· ++ _) (List.flatMap_congr fun r hr => updated_eq fun a b more hmatches => ?_)
  have hpair := settles.sublist (List.filter_sublist (p := (·.id == r.id)))
  have hids : ∀ x ∈ source.filter (·.id == r.id), x.id = r.id := fun x hx => by
    simpa using (List.mem_filter.1 hx).2
  rw [hmatches] at hpair hids
  have ha : a.id = r.id := hids a List.mem_cons_self
  have hb : b.id = r.id := hids b (List.mem_cons_of_mem _ List.mem_cons_self)
  refine takes ((List.pairwise_cons.1 hpair).1 b List.mem_cons_self (ha.trans hb.symm) ?_)
  rw [ha]
  exact List.mem_map_of_mem hr

theorem any_key_eq (rows : List Row) (r : Row) :
    rows.any (·.id == r.id) = decide (r.id ∈ rows.map (·.id)) := by
  rw [Bool.eq_iff_iff, List.any_eq_true, decide_eq_true_iff, List.mem_map]
  simp only [beq_iff_eq]

theorem map_id_merge (rows source : List Row) : (mergeLast rows source).map (·.id) =
    rows.map (·.id) ++ (source.filter fun r => !rows.any (·.id == r.id)).map (·.id) := by
  rw [mergeLast, List.map_append, List.map_map]
  exact congrArg (· ++ _) (List.map_congr_left fun r _ => id_getD_lastOf? source r)

theorem mem_map_id_merge {id : DocId} : id ∈ (mergeLast rows source).map (·.id) ↔
    id ∈ source.map (·.id) ∨ id ∈ rows.map (·.id) := by
  rw [map_id_merge, List.mem_append]
  by_cases hid : id ∈ rows.map (·.id)
  · simp only [hid, true_or, or_true]
  · simp only [hid, false_or, or_false]
    constructor
    · exact fun h => (List.filter_sublist.map _).subset h
    · intro h
      obtain ⟨r, hr, rfl⟩ := List.mem_map.1 h
      exact List.mem_map_of_mem (List.mem_filter.2 ⟨hr, by simp [any_key_eq, hid]⟩)

/-- Merging leaves the rows with different names exactly if it adds no two of the same name. -/
theorem nodup_merge_iff (nodup : (rows.map (·.id)).Nodup) :
    ((mergeLast rows source).map (·.id)).Nodup ↔
      source.Pairwise fun r r' => r.id = r'.id → r.id ∈ rows.map (·.id) := by
  have hadded : ((source.filter fun r => !rows.any (·.id == r.id)).map (·.id)).Nodup ↔
      source.Pairwise fun r r' => r.id = r'.id → r.id ∈ rows.map (·.id) := by
    rw [List.Nodup, List.pairwise_map, List.pairwise_filter]
    refine List.Pairwise.iff fun r r' => ?_
    simp only [any_key_eq, Bool.not_eq_true', decide_eq_false_iff_not]
    grind
  have hapart : ∀ id ∈ rows.map (·.id),
      ∀ id' ∈ (source.filter fun r => !rows.any (·.id == r.id)).map (·.id), id ≠ id' := by
    rintro id hid _ hid' rfl
    obtain ⟨r, hr, rfl⟩ := List.mem_map.1 hid'
    have hnew := (List.mem_filter.1 hr).2
    rw [any_key_eq, decide_eq_true hid] at hnew
    cases hnew
  rw [map_id_merge, List.nodup_append, hadded]
  exact ⟨fun h => h.2.1, fun h => ⟨nodup, h, hapart⟩⟩

/-- In merged rows the last of the source counts, or else what was there. -/
theorem find?_merge (nodup : ((mergeLast rows source).map (·.id)).Nodup) (id : DocId) :
    (mergeLast rows source).find? (·.id == id) =
      (lastOf? source id).or (rows.find? (·.id == id)) := by
  have hsame : ((·.id == id) ∘ fun r => (lastOf? source r.id).getD r) = fun r : Row =>
      r.id == id := by
    funext r
    rw [Function.comp_apply, id_getD_lastOf?]
  rw [map_id_merge, List.nodup_append] at nodup
  rw [mergeLast, List.find?_append, List.find?_map, hsame]
  cases hfind : rows.find? (·.id == id) with
  | some r =>
    obtain rfl : r.id = id := by simpa using List.find?_some hfind
    rw [Option.map_some, Option.some_or]
    cases lastOf? source r.id <;> rfl
  | none =>
    have hfresh : (fun r : Row =>
        decide ((!rows.any (·.id == r.id)) = true ∧ (r.id == id) = true)) =
        fun r => r.id == id := by
      funext r
      by_cases hid : r.id = id
      · subst hid
        simpa using hfind
      · simp [hid]
    rw [Option.map_none, Option.none_or, Option.or_none, lastOf?, ← find?_key_reverse nodup.2.1,
      ← List.filter_reverse, List.find?_filter, hfresh]

/-! ### Steps -/

/-- A table stands for documents in memory: no two of its rows have one name, and the row of a name
is read as the document under that name. -/
structure Mirrors (last : Bool) (t : TableStore) (m : MemoryStore) : Prop where
  connected : t.connected = true
  takes : last = true → t.settle = TableStore.takeLast
  faultless : ∀ access, m.faults access = none
  nodup : (t.rows.map (·.id)).Nodup
  reads : ∀ id, (t.rows.find? (·.id == id)).map (fun r => Row.read r.toJson) =
    m.documents[id]?.map .ok

namespace Mirrors

variable {last : Bool} {t : TableStore} {m : MemoryStore} (mirrors : Mirrors last t m)
include mirrors

theorem isSome_find? (id : DocId) :
    (t.rows.find? (·.id == id)).isSome = m.documents.contains id := by
  have hsome := congrArg Option.isSome (mirrors.reads id)
  rwa [Option.isSome_map, Option.isSome_map, Std.TreeMap.isSome_getElem?_eq_contains] at hsome

theorem any_selects (id : DocId) :
    t.rows.any (TableStore.selects (TableStore.filterOf id)) =
      m.documents.contains id.replaceLone := by
  rw [← mirrors.isSome_find?, TableStore.selects_filterOf, Bool.eq_iff_iff, List.find?_isSome,
    List.any_eq_true]

theorem mem_ids_iff (id : DocId) : id ∈ t.rows.map (·.id) ↔ id ∈ m.documents := by
  rw [← Std.TreeMap.contains_iff_mem, ← mirrors.isSome_find?, List.find?_isSome, List.mem_map]
  simp only [beq_iff_eq]

/-- The names of the rows in ascending order are those of the documents. -/
theorem rankSort_ids : rankSort Text.before (t.rows.map (·.id)) = m.documents.keys := by
  refine Text.eq_of_ascending (fun id => id) ?_ Std.TreeMap.ordered_keys fun id => ?_
  · exact Text.ascending_rankSort mirrors.nodup
  · rw [(rankSort_perm _ _).mem_iff, mirrors.mem_ids_iff, Std.TreeMap.mem_keys]

theorem length_rows : t.rows.length = m.documents.size := by
  rw [← Std.TreeMap.length_keys, ← mirrors.rankSort_ids, (rankSort_perm _ _).length_eq,
    List.length_map]

theorem find_eq (id : DocId) : t.find id = .ok m.documents[id.replaceLone]? := by
  have hread := mirrors.reads id.replaceLone
  rw [TableStore.find, TableStore.selects_filterOf]
  cases hrow : t.rows.find? (·.id == id.replaceLone) with
  | none =>
    rw [hrow, Option.map_none, eq_comm, Option.map_eq_none_iff] at hread
    rw [hread]
  | some r =>
    rw [hrow, Option.map_some, eq_comm, Option.map_eq_some_iff] at hread
    obtain ⟨d, hdoc, hd⟩ := hread
    rw [hdoc]
    exact congrArg (Except.map some) hd.symm

/-! ### Batches -/

variable {docs : List Document}

/-- A batch fits the documents exactly if its rows and those of the table have different names. -/
theorem fits_put_iff : (Call.put docs).kept.Fits m ↔
    ((mergeLast t.rows (docs.map TableStore.keptRow)).map (·.id)).Nodup := by
  rw [nodup_merge_iff mirrors.nodup, Call.kept, Call.Fits, List.pairwise_map, List.pairwise_map]
  refine List.Pairwise.iff fun d d' => ?_
  rw [mirrors.mem_ids_iff]
  rfl

/-- What becomes of the rows of a table when a batch is put in that settles it. -/
theorem merge_eq_mergeLast (settles : (Call.put docs).kept.Settles last m) :
    TableStore.merge t.settle t.rows (docs.map TableStore.keptRow) =
      mergeLast t.rows (docs.map TableStore.keptRow) := by
  refine merge_eq mirrors.takes ?_
  rw [Call.kept, Call.Settles, List.pairwise_map] at settles
  rw [List.pairwise_map]
  refine settles.imp fun hdocs hid hmem => hdocs hid ?_
  exact (mirrors.mem_ids_iff _).1 hmem

theorem mem_ids_put_iff (id : DocId) :
    id ∈ (mergeLast t.rows (docs.map TableStore.keptRow)).map (·.id) ↔
      id ∈ (m.insertAll (docs.map keptDocument)).documents := by
  have hputAll : (m.insertAll (docs.map keptDocument)).documents =
      Documents.putAll m.documents (docs.map keptDocument) := rfl
  rw [mem_map_id_merge, mirrors.mem_ids_iff, Std.TreeMap.mem_iff_isSome_getElem?,
    Std.TreeMap.mem_iff_isSome_getElem?, hputAll, Documents.getElem?_putAll_eq, Option.isSome_or,
    Bool.or_eq_true, List.find?_isSome]
  simp [TableStore.keptRow, keptDocument, Row.ofDocument]

theorem put (valid : (Call.put docs).Valid) (fits : (Call.put docs).kept.Fits m) :
    Mirrors last { t with rows := mergeLast t.rows (docs.map TableStore.keptRow) }
      (m.insertAll (docs.map keptDocument)) where
  connected := mirrors.connected
  takes := mirrors.takes
  faultless := mirrors.faultless
  nodup := mirrors.fits_put_iff.1 fits
  reads id := by
    have hlast : (lastOf? (docs.map TableStore.keptRow) id).map (fun r => Row.read r.toJson) =
        ((docs.map keptDocument).reverse.find? (·.id == id)).map .ok := by
      rw [lastOf?, ← List.map_reverse, ← List.map_reverse, List.find?_map, List.find?_map,
        Option.map_map, Option.map_map]
      refine Option.map_congr fun d hd => ?_
      obtain ⟨named, ordered⟩ := valid d (List.mem_reverse.1 (List.mem_of_find?_eq_some hd))
      exact read_keptRow named ordered
    rw [find?_merge (mirrors.fits_put_iff.1 fits), Option.map_or, hlast, mirrors.reads,
      ← Option.map_or]
    exact congrArg _ (Documents.getElem?_putAll_eq m.documents _ id).symm

/-- After a batch that does not fit there are not as many rows as documents. -/
theorem length_put (unfit : ¬(Call.put docs).kept.Fits m) :
    (mergeLast t.rows (docs.map TableStore.keptRow)).length ≠
      (m.insertAll (docs.map keptDocument)).documents.size := by
  intro hlength
  refine unfit (mirrors.fits_put_iff.2 ?_)
  have hkeys : (m.insertAll (docs.map keptDocument)).documents.keys.Nodup :=
    Std.TreeMap.ordered_keys.imp fun hlt heq => by simp [heq, Std.ReflOrd.compare_self] at hlt
  have hsub : (m.insertAll (docs.map keptDocument)).documents.keys ⊆
      (mergeLast t.rows (docs.map TableStore.keptRow)).map (·.id) := fun id hid =>
    (mirrors.mem_ids_put_iff id).2 (Std.TreeMap.mem_keys.1 hid)
  have hperm := (hkeys.subperm hsub).perm_of_length_le (by
    rw [List.length_map, hlength, Std.TreeMap.length_keys])
  exact hperm.nodup_iff.1 hkeys

theorem delete (id : DocId) :
    Mirrors last { t with rows := t.rows.filter fun r => !(r.id == id.replaceLone) }
      { m with documents := m.documents.erase id.replaceLone } where
  connected := mirrors.connected
  takes := mirrors.takes
  faultless := mirrors.faultless
  nodup := mirrors.nodup.sublist (List.filter_sublist.map _)
  reads id' := by
    rw [List.find?_filter, Text.getElem?_erase]
    split
    · rename_i hid
      subst hid
      rw [List.find?_eq_none.2 fun r _ => by simp]
      rfl
    · rename_i hid
      have hother : (fun r : Row =>
          decide ((!(r.id == id.replaceLone)) = true ∧ (r.id == id') = true)) =
          fun r => r.id == id' := by
        funext r
        grind
      rw [hother, mirrors.reads]

theorem clear : Mirrors last { t with rows := [] } { m with documents := ∅ } :=
  ⟨mirrors.connected, mirrors.takes, mirrors.faultless, .nil, fun id => by simp⟩

/-- A call that fits, and settles what becomes of its batch, is answered alike by both. -/
theorem perform {c : Call} (valid : c.Valid) (fits : c.kept.Fits m)
    (settles : c.kept.Settles last m) : ∃ answer t' m', c.perform t = .ok (answer, t') ∧
      c.kept.perform m = .ok (answer, m') ∧ Mirrors last t' m' := by
  have htable {α : Type} (result : Except Failure α) : t.guarded result = result :=
    TableStore.guarded_eq mirrors.connected result
  have hmemory {α : Type} (access : Access) (result : α) : m.guarded access result = .ok result :=
    MemoryStore.guarded_eq mirrors.faultless access result
  cases c with
  | put docs =>
    refine ⟨.done, _, _, ?_, ?_, mirrors.put valid fits⟩
    · rw [← mirrors.merge_eq_mergeLast settles]
      exact congrArg (Except.map _) (htable _)
    · exact congrArg (Except.map _) (hmemory _ _)
  | delete id =>
    refine ⟨.told (m.documents.contains id.replaceLone), _, _, ?_, ?_, mirrors.delete id⟩
    · refine (congrArg (Except.map _) (htable _)).trans ?_
      rw [mirrors.any_selects, TableStore.selects_filterOf]
      rfl
    · exact congrArg (Except.map _) (hmemory _ _)
  | get id =>
    refine ⟨.document m.documents[id.replaceLone]?, t, m, ?_, ?_, mirrors⟩
    · exact congrArg (Except.map _) ((htable _).trans (mirrors.find_eq id))
    · exact congrArg (Except.map _) (hmemory _ _)
  | ids =>
    refine ⟨.ids m.documents.keys, t, m, ?_, ?_, mirrors⟩
    · refine (congrArg (Except.map _) (htable _)).trans ?_
      rw [mirrors.rankSort_ids]
      rfl
    · exact congrArg (Except.map _) (hmemory _ _)
  | count =>
    refine ⟨.count m.documents.size, t, m, ?_, ?_, mirrors⟩
    · refine (congrArg (Except.map _) (htable _)).trans ?_
      rw [mirrors.length_rows]
      rfl
    · exact congrArg (Except.map _) (hmemory _ _)
  | clear =>
    refine ⟨.done, _, _, ?_, ?_, mirrors.clear⟩
    · exact congrArg (Except.map _) (htable _)
    · exact congrArg (Except.map _) (hmemory _ _)

end Mirrors

/-! ### Runs -/

theorem mirrors_empty {settle : Row → List Row → List Row} {last : Bool}
    (takes : last = true → settle = TableStore.takeLast) :
    Mirrors last (TableStore.empty settle).connect MemoryStore.empty where
  connected := rfl
  takes := takes
  faultless _ := rfl
  nodup := .nil
  reads id := by
    rw [MemoryStore.empty, Std.TreeMap.getElem?_emptyc]
    rfl

/-- Calls that fit are answered alike, and leave both alike. -/
theorem Mirrors.answers_eq {last : Bool} {t : TableStore} {m : MemoryStore}
    (mirrors : Mirrors last t m) {calls : List Call} (valid : ∀ c ∈ calls, c.Valid)
    (fit : Fit last m (calls.map Call.kept)) :
    answers t calls = answers m (calls.map Call.kept) ∧
      Mirrors last (calls.foldl Call.after t) ((calls.map Call.kept).foldl Call.after m) := by
  induction calls generalizing t m with
  | nil => exact ⟨rfl, mirrors⟩
  | cons c rest ih =>
    obtain ⟨hvalid, hrest⟩ := List.forall_mem_cons.1 valid
    obtain ⟨answer, t', m', htable, hmemory, hafter⟩ := mirrors.perform hvalid fit.1 fit.2.1
    have htable' : c.after t = t' := by rw [Call.after, htable]
    have hmemory' : c.kept.after m = m' := by rw [Call.after, hmemory]
    have hfit := fit.2.2
    rw [hmemory'] at hfit
    obtain ⟨hanswers, hmirrors⟩ := ih hafter hrest hfit
    rw [List.map_cons, Store.answers, Store.answers, htable, hmemory, htable', hmemory', hanswers,
      List.foldl_cons, List.foldl_cons, htable', hmemory']
    exact ⟨rfl, hmirrors⟩

theorem answers_append {σ : Type} [DocumentStore σ] (s : σ) (calls more : List Call) :
    answers s (calls ++ more) = answers s calls ++ answers (calls.foldl Call.after s) more := by
  induction calls generalizing s with
  | nil => rfl
  | cons c rest ih => rw [List.cons_append, answers, ih, answers, List.cons_append, List.foldl_cons]

/-- A batch that does not fit is told by the number of documents after it, if what becomes of the
documents that were stored before is settled. -/
theorem Mirrors.answers_unfit {last : Bool} {t : TableStore} {m : MemoryStore}
    (mirrors : Mirrors last t m) {docs : List Document}
    (settles : (Call.put docs).kept.Settles last m) (unfit : ¬(Call.put docs).kept.Fits m) :
    answers t [.put docs, .count] ≠ answers m [(Call.put docs).kept, .count] := by
  let t' : TableStore := { t with rows := mergeLast t.rows (docs.map TableStore.keptRow) }
  let m' := m.insertAll (docs.map keptDocument)
  have htable : (Call.put docs).perform t = .ok (.done, t') := by
    refine (congrArg (Except.map _) (TableStore.guarded_eq mirrors.connected _)).trans ?_
    rw [mirrors.merge_eq_mergeLast settles]
    rfl
  have htable' : Call.count.perform t' = .ok (.count t'.rows.length, t') :=
    congrArg (Except.map _) (TableStore.guarded_eq (s := t') mirrors.connected _)
  have hmemory : (Call.put docs).kept.perform m = .ok (.done, m') :=
    congrArg (Except.map _) (MemoryStore.guarded_eq mirrors.faultless .put _)
  have hmemory' : Call.count.perform m' = .ok (.count m'.documents.size, m') :=
    congrArg (Except.map _) (MemoryStore.guarded_eq (s := m') mirrors.faultless .count _)
  intro heq
  simp only [answers, Call.after, htable, htable', hmemory, hmemory', Except.map, List.cons.injEq,
    Except.ok.injEq, Answer.count.injEq] at heq
  exact mirrors.length_put unfit heq.2.1

/-- Asked the same, a table that is connected answers what a store in memory answers, with
surrogates that stand alone replaced and without fields of the reserved name, if no batch names a
document twice that is not stored yet, nor one that is stored unless the table takes up the last of
several rows. A batch that names a document twice that is not stored yet is told by the count of
documents. -/
theorem answers_interchange (settle : Row → List Row → List Row) {last : Bool}
    (takes : last = true → settle = TableStore.takeLast) (calls : List Call)
    (valid : ∀ c ∈ calls, c.Valid) (fit : Fit last MemoryStore.empty (calls.map Call.kept)) :
    let table := (TableStore.empty settle).connect
    answers table calls = answers MemoryStore.empty (calls.map Call.kept) ∧
      ((∀ c ∈ calls, c.Whole) → answers table calls = answers MemoryStore.empty calls) ∧
      ∀ docs,
        (Call.put docs).kept.Settles last
          ((calls.map Call.kept).foldl Call.after MemoryStore.empty) →
        ¬(Call.put docs).kept.Fits ((calls.map Call.kept).foldl Call.after MemoryStore.empty) →
        answers table (calls ++ [Call.put docs, .count]) ≠
          answers MemoryStore.empty ((calls ++ [Call.put docs, .count]).map Call.kept) := by
  obtain ⟨hanswers, hmirrors⟩ := (mirrors_empty takes).answers_eq valid fit
  refine ⟨hanswers, fun whole => ?_, fun docs settles unfit => ?_⟩
  · have hkept : calls.map Call.kept = calls :=
      (List.map_congr_left fun c hc => (whole c hc).kept_eq).trans (List.map_id calls)
    rw [hanswers, hkept]
  · rw [List.map_append, answers_append, answers_append, hanswers]
    exact fun heq => hmirrors.answers_unfit settles unfit (List.append_cancel_left heq)

/-- Documents are stored, changed and taken out, some of them under names with apostrophes, in a
table that takes up all of several rows; and a stored one is named twice in a batch, in a table that
takes up the last. -/
theorem answers_interchange_quoted :
    let quoted : Document :=
      ⟨Text.ofChars ['i', 't', '\'', 's'], Text.ofChars ['x'], [(Text.ofChars ['k'], [])]⟩
    let quotes : Document := ⟨Text.ofChars ['\'', '\''], [], []⟩
    let calls : List Call := [.put [quoted, quotes], .put [{ quotes with text := [34] }],
      .get quoted.id, .get quotes.id, .delete quoted.id, .get quoted.id, .ids]
    let repeated : List Call :=
      calls ++ [.put [{ quotes with text := [35] }, quotes], .get quotes.id]
    answers (TableStore.empty fun _ several => several).connect calls =
        answers MemoryStore.empty calls ∧
      answers (TableStore.empty TableStore.takeLast).connect repeated =
        answers MemoryStore.empty repeated := by
  intro quoted quotes calls repeated
  have hvalid : ∀ c ∈ calls, c.Valid := by decide
  have hfit : Fit false MemoryStore.empty (calls.map Call.kept) := by decide +kernel
  have hwhole : ∀ c ∈ calls, c.Whole := by decide
  have hvalid' : ∀ c ∈ repeated, c.Valid := by decide
  have hfit' : Fit true MemoryStore.empty (repeated.map Call.kept) := by decide +kernel
  have hwhole' : ∀ c ∈ repeated, c.Whole := by decide
  constructor
  · exact (answers_interchange _ (fun h => absurd h Bool.false_ne_true) calls hvalid hfit).2.1
      hwhole
  · exact (answers_interchange _ (fun _ => rfl) repeated hvalid' hfit').2.1 hwhole'

/-- A table counts both documents of a batch that have one name. -/
theorem answers_differ_of_repeated :
    let calls : List Call := [.put [⟨[97], [120], []⟩, ⟨[97], [121], []⟩], .count]
    (∀ c ∈ calls, c.Valid ∧ c.Whole) ∧
      answers (TableStore.empty TableStore.takeLast).connect calls ≠
        answers MemoryStore.empty calls := by
  intro calls
  refine ⟨by decide, fun heq => ?_⟩
  have hcount := congrArg List.getLast? heq
  cases hcount

end Store
end Quarry
