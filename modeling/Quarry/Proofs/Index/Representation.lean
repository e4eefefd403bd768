import Quarry.Proofs.Index.Record
import Quarry.Proofs.Index.Records

/-! An index represents a map of records. `Index.Sound` says that its lists of holders are not empty
and that what it keeps is not stale, and `Index.Represents` adds what it holds for which records.
Taking a posting in or out keeps the index sound and changes one place; a call does to the map what
`Records.call` says, and so does a run. -/

namespace Quarry.Index

/-- The positions of a term in a document of the index. -/
def positions? (ix : Index) (term : Term) (id : DocId) : Option (List Nat) :=
  ix.postings[term]?.bind fun holders => holders[id]?

/-- The postings of a term, as they are listed when none are kept. -/
def freshPostings (ix : Index) (term : Term) : List Posting :=
  match ix.postings[term]? with
  | none => []
  | some holders => holders.toList.map fun (id, positions) => ⟨id, positions⟩

/-- Every term has a holder, and the lists that are kept are not stale. -/
structure Sound (ix : Index) : Prop where
  held : ∀ (term : Term) holders, ix.postings[term]? = some holders → holders.isEmpty = false
  keptPostings : ∀ (term : Term) list, ix.keptPostings[term]? = some list →
    list = ix.freshPostings term
  keptTerms : ∀ terms, ix.keptTerms = some terms → terms = ix.postings.keys

/-- What the index holds of documents, and its sum of lengths and its version. -/
def SameDocuments (ix ix' : Index) : Prop :=
  ix'.documents = ix.documents ∧ ix'.totalLength = ix.totalLength ∧ ix'.version = ix.version

theorem SameDocuments.trans {ix ix' ix'' : Index} (h : ix.SameDocuments ix')
    (h' : ix'.SameDocuments ix'') : ix.SameDocuments ix'' :=
  ⟨h'.1.trans h.1, h'.2.1.trans h.2.1, h'.2.2.trans h.2.2⟩

/-! ### One posting -/

theorem freshPostings_congr {ix ix' : Index} {term : Term}
    (h : ix'.postings[term]? = ix.postings[term]?) :
    ix'.freshPostings term = ix.freshPostings term := by
  rw [freshPostings, h, freshPostings]

theorem getElem?_postings_addPosting (ix : Index) (id : DocId) (term : Term) (positions : List Nat)
    (term' : Term) : (ix.addPosting id term positions).postings[term']? =
      if term = term' then some ((ix.postings.getD term ∅).insert id positions)
      else ix.postings[term']? :=
  Text.getElem?_insert ..

theorem positions?_addPosting (ix : Index) (id : DocId) (term : Term) (positions : List Nat)
    (term' : Term) (id' : DocId) : (ix.addPosting id term positions).positions? term' id' =
      if term = term' ∧ id = id' then some positions else ix.positions? term' id' := by
  rw [positions?, getElem?_postings_addPosting]
  by_cases ht : term = term'
  · subst ht
    simp only [if_true, true_and, Option.bind_some, Text.getElem?_insert]
    split
    · rfl
    · rw [positions?, Std.TreeMap.getD_eq_getD_getElem?]
      cases ix.postings[term]? <;> simp
  · simp only [ht, if_false, false_and, positions?]

theorem postingCount_addPosting (ix : Index) (id : DocId) (term : Term) (positions : List Nat) :
    (ix.addPosting id term positions).postingCount = ix.postingCount + 1 := rfl

theorem Sound.addPosting {ix : Index} (h : ix.Sound) (id : DocId) (term : Term)
    (positions : List Nat) : (ix.addPosting id term positions).Sound where
  held := Text.forall_insert h.held Std.TreeMap.isEmpty_insert
  keptPostings term' list hl := by
    have hkept : (ix.keptPostings.erase term)[term']? = some list := hl
    rw [Text.getElem?_erase] at hkept
    split at hkept
    · cases hkept
    · rename_i hne
      rw [freshPostings_congr ((getElem?_postings_addPosting ..).trans (if_neg hne))]
      exact h.keptPostings term' list hkept
  keptTerms terms ht := by
    have hkept : (if ix.postings.contains term then ix.keptTerms else none) = some terms := ht
    split at hkept
    · rename_i hcontains
      rw [h.keptTerms terms hkept]
      exact (Text.keys_insert_of_mem hcontains _).symm
    · cases hkept

/-- Taking a document out of the postings of a term does nothing if it is not there. Otherwise it
leaves the rest of the holders, or takes the term out with the last of them. -/
theorem dropPosting_cases (ix : Index) (id : DocId) (term : Term) :
    (ix.positions? term id = none ∧ ix.dropPosting id term = ix) ∨
      ∃ holders positions, ix.postings[term]? = some holders ∧ holders[id]? = some positions ∧
        (((holders.erase id).isEmpty = true ∧ ix.dropPosting id term =
            { ix with
              postings := ix.postings.erase term
              keptPostings := ix.keptPostings.erase term
              keptTerms := none
              postingCount := ix.postingCount - 1 }) ∨
          ((holders.erase id).isEmpty = false ∧ ix.dropPosting id term =
            { ix with
              postings := ix.postings.insert term (holders.erase id)
              keptPostings := ix.keptPostings.erase term
              postingCount := ix.postingCount - 1 })) := by
  unfold dropPosting positions?
  cases hholders : ix.postings[term]? with
  | none => exact .inl ⟨rfl, rfl⟩
  | some holders =>
    simp only [Option.bind_some]
    cases hpositions : holders[id]? with
    | none =>
      have hcontains : holders.contains id = false := by
        rw [← Std.TreeMap.isSome_getElem?_eq_contains, hpositions]
        rfl
      exact .inl ⟨rfl, by simp [hcontains]⟩
    | some positions =>
      have hcontains : holders.contains id = true := by
        rw [← Std.TreeMap.isSome_getElem?_eq_contains, hpositions]
        rfl
      refine .inr ⟨holders, positions, rfl, hpositions, ?_⟩
      cases hempty : (holders.erase id).isEmpty
      · exact .inr ⟨rfl, by simp [hcontains]⟩
      · exact .inl ⟨rfl, by simp [hcontains]⟩

theorem positions?_dropPosting (ix : Index) (id : DocId) (term : Term) (term' : Term)
    (id' : DocId) :
    (ix.dropPosting id term).positions? term' id' =
      if term = term' ∧ id = id' then none else ix.positions? term' id' := by
  rcases ix.dropPosting_cases id term with
    ⟨hnone, heq⟩ | ⟨holders, positions, hholders, -, ⟨hempty, heq⟩ | ⟨-, heq⟩⟩
  · rw [heq]
    split
    · rename_i h
      rw [← h.1, ← h.2, hnone]
    · rfl
  · rw [heq, positions?, positions?, Text.getElem?_erase]
    by_cases ht : term = term'
    · subst ht
      have hdrop := Text.getElem?_erase holders id id'
      rw [Std.TreeMap.getElem?_of_isEmpty hempty] at hdrop
      simpa [hholders] using hdrop
    · simp only [ht, if_false, false_and]
  · rw [heq, positions?, positions?, Text.getElem?_insert]
    by_cases ht : term = term'
    · subst ht
      simp only [if_true, true_and, hholders, Option.bind_some, Text.getElem?_erase]
    · simp only [ht, if_false, false_and]

theorem Sound.dropPosting {ix : Index} (h : ix.Sound) (id : DocId) (term : Term) :
    (ix.dropPosting id term).Sound := by
  rcases ix.dropPosting_cases id term with
    ⟨-, heq⟩ | ⟨holders, positions, hholders, -, ⟨hempty, heq⟩ | ⟨hempty, heq⟩⟩
  · rwa [heq]
  · rw [heq]
    refine ⟨Text.forall_erase h.held term, fun term' list hl => ?_, fun terms ht => nomatch ht⟩
    rw [Text.getElem?_erase] at hl
    split at hl
    · cases hl
    · rename_i hne
      rw [h.keptPostings term' list hl]
      exact (freshPostings_congr ((Text.getElem?_erase ..).trans (if_neg hne))).symm
  · rw [heq]
    refine ⟨Text.forall_insert h.held hempty, fun term' list hl => ?_, fun terms ht => ?_⟩
    · rw [Text.getElem?_erase] at hl
      split at hl
      · cases hl
      · rename_i hne
        rw [h.keptPostings term' list hl]
        exact (freshPostings_congr ((Text.getElem?_insert ..).trans (if_neg hne))).symm
    · rw [h.keptTerms terms ht]
      exact (Text.keys_insert_of_mem
        (Std.TreeMap.mem_iff_isSome_getElem?.2 (by simp [hholders])) _).symm

theorem postingCount_dropPosting {ix : Index} {id : DocId} {term : Term} {positions : List Nat}
    (h : ix.positions? term id = some positions) :
    (ix.dropPosting id term).postingCount = ix.postingCount - 1 := by
  rcases ix.dropPosting_cases id term with ⟨hnone, -⟩ | ⟨_, _, -, -, ⟨-, heq⟩ | ⟨-, heq⟩⟩
  · rw [h] at hnone
    cases hnone
  all_goals rw [heq]

theorem SameDocuments.dropPosting (ix : Index) (id : DocId) (term : Term) :
    ix.SameDocuments (ix.dropPosting id term) := by
  rcases ix.dropPosting_cases id term with ⟨-, heq⟩ | ⟨_, _, -, -, ⟨-, heq⟩ | ⟨-, heq⟩⟩
  all_goals
    rw [heq]
    exact ⟨rfl, rfl, rfl⟩

/-! ### All postings of a document -/

theorem foldl_dropPosting {ix : Index} (hsound : ix.Sound) (id : DocId) {terms : List Term}
    (hnodup : terms.Nodup)
    (hheld : ∀ term ∈ terms, ∃ positions, ix.positions? term id = some positions) :
    let ix' := terms.foldl (fun ix term => ix.dropPosting id term) ix
    ix'.Sound ∧ ix.SameDocuments ix' ∧ ix'.postingCount = ix.postingCount - terms.length ∧
      ∀ term' id', ix'.positions? term' id' =
        if term' ∈ terms ∧ id = id' then none else ix.positions? term' id' := by
  induction terms generalizing ix with
  | nil => exact ⟨hsound, ⟨rfl, rfl, rfl⟩, rfl, by simp⟩
  | cons term terms ih =>
    obtain ⟨hterm, hnodup⟩ := List.nodup_cons.1 hnodup
    obtain ⟨positions, hpositions⟩ := hheld term List.mem_cons_self
    have hheld' : ∀ term' ∈ terms, ∃ positions,
        (ix.dropPosting id term).positions? term' id = some positions := by
      intro term' hterm'
      have hne : ¬(term = term' ∧ id = id) := fun h => hterm (h.1 ▸ hterm')
      rw [positions?_dropPosting, if_neg hne]
      exact hheld term' (List.mem_cons_of_mem _ hterm')
    obtain ⟨hs, hd, hc, hp⟩ := ih (hsound.dropPosting id term) hnodup hheld'
    refine ⟨hs, (SameDocuments.dropPosting ix id term).trans hd, ?_, fun term' id' => ?_⟩
    · rw [List.foldl_cons, hc, postingCount_dropPosting hpositions, List.length_cons]
      omega
    · rw [List.foldl_cons, hp, positions?_dropPosting]
      grind

theorem foldl_addPosting {ix : Index} (hsound : ix.Sound) (id : DocId)
    {held : List (Term × List Nat)} (hnodup : (held.map (·.1)).Nodup) :
    let ix' := held.foldl (fun ix (term, positions) => ix.addPosting id term positions) ix
    ix'.Sound ∧ ix.SameDocuments ix' ∧ ix'.postingCount = ix.postingCount + held.length ∧
      ∀ term' id', ix'.positions? term' id' =
        if id = id' then (held.lookup term').or (ix.positions? term' id') else
          ix.positions? term' id' := by
  induction held generalizing ix with
  | nil => exact ⟨hsound, ⟨rfl, rfl, rfl⟩, rfl, by simp⟩
  | cons pair held ih =>
    obtain ⟨term, positions⟩ := pair
    obtain ⟨hterm, hnodup⟩ := List.nodup_cons.1 hnodup
    obtain ⟨hs, hd, hc, hp⟩ := ih (hsound.addPosting id term positions) hnodup
    refine ⟨hs, SameDocuments.trans ⟨rfl, rfl, rfl⟩ hd, ?_, fun term' id' => ?_⟩
    · rw [List.foldl_cons, hc, List.length_cons, postingCount_addPosting]
      omega
    · rw [List.foldl_cons, hp, positions?_addPosting, List.lookup_cons]
      by_cases hid : id = id'
      · by_cases ht : term = term'
        · subst ht
          have hnone : held.lookup term = none := Record.lookup_eq_none hterm
          simp [hid, hnone]
        · have hbeq : (term' == term) = false := by simpa using Ne.symm ht
          simp [ht, hbeq]
      · simp [hid]

/-! ### Documents -/

/-- What an index holds of which records. -/
structure Represents (ix : Index) (rs : Records) : Prop extends Sound ix where
  documents : ∀ id : DocId, ix.documents[id]? = rs[id]?.map fun r => ⟨r.document, r.held.map (·.1)⟩
  positions : ∀ term id, ix.positions? term id = Records.positions? rs term id
  totalLength : ix.totalLength = Records.total (·.document.length) rs
  postingCount : ix.postingCount = Records.total (·.held.length) rs
  named : ∀ (id : DocId) r, rs[id]? = some r → r.document.id = id ∧ r.Distinct

theorem represents_empty (version : Nat) : (empty version).Represents ∅ where
  held := by simp [empty]
  keptPostings := by simp [empty]
  keptTerms := by simp [empty]
  documents := by simp [empty]
  positions := by simp [empty, positions?, Records.positions?]
  totalLength := rfl
  postingCount := rfl
  named := by simp

theorem Represents.congr {ix : Index} {rs rs' : Records} (h : ix.Represents rs)
    (heq : ∀ id : DocId, rs[id]? = rs'[id]?) : ix.Represents rs' where
  toSound := h.toSound
  documents id := by rw [h.documents, heq]
  positions term id := (h.positions term id).trans (Records.positions?_congr (heq id) term)
  totalLength := h.totalLength.trans (Records.total_congr heq)
  postingCount := h.postingCount.trans (Records.total_congr heq)
  named id r hr := h.named id r ((heq id).trans hr)

/-- Detaching a document leaves the records of the others. -/
theorem Represents.detach {ix : Index} {rs : Records} (h : ix.Represents rs) (id : DocId) :
    (ix.detach id).Represents (rs.erase id) ∧ (ix.detach id).version = ix.version := by
  have hdocument := h.documents id
  unfold Index.detach
  cases hr : rs[id]? with
  | none =>
    simp only [hr, Option.map_none] at hdocument
    simp only [hdocument, and_true]
    refine h.congr fun id' => ?_
    rw [Text.getElem?_erase]
    split
    · rename_i heq
      rw [← heq, hr]
    · rfl
  | some r =>
    simp only [hr, Option.map_some] at hdocument
    simp only [hdocument]
    obtain ⟨hs, ⟨hdocuments, hlength, hversion⟩, hcount, hpositions⟩ :=
      foldl_dropPosting h.toSound id (Record.nodup_held (h.named id r hr).2) fun term hterm => by
        rw [h.positions, Records.positions?, hr]
        exact Record.exists_positions?_of_mem hterm
    refine ⟨⟨⟨hs.held, hs.keptPostings, hs.keptTerms⟩, fun id' => ?_, fun term id' => ?_, ?_, ?_,
      Text.forall_erase h.named id⟩, hversion⟩
    · rw [hdocuments, Text.getElem?_erase, Text.getElem?_erase, h.documents]
      split <;> rfl
    · refine (hpositions term id').trans ?_
      rw [Records.positions?_erase, h.positions]
      by_cases hid : id = id'
      · subst hid
        simp only [and_true, if_true, Records.positions?, hr, Option.bind_some]
        split
        · rfl
        · exact Record.lookup_eq_none ‹_›
      · simp [hid]
    · simp only [hlength, h.totalLength, Records.total_of_getElem? hr]
      omega
    · simp only [hcount, h.postingCount, Records.total_of_getElem? hr, List.length_map]
      omega

/-- Inserting a record puts it in place of any earlier one of the same document. -/
theorem Represents.insert {ix : Index} {rs : Records} (h : ix.Represents rs) {r : Record}
    (hr : r.Distinct) :
    (ix.insert r).Represents (rs.insert r.document.id r) ∧
      (ix.insert r).version = ix.version + 1 := by
  obtain ⟨hdetached, hversion⟩ := h.detach r.document.id
  obtain ⟨hs, ⟨hdocuments, hlength, hversion'⟩, hcount, hpositions⟩ :=
    foldl_addPosting hdetached.toSound r.document.id (Record.nodup_held hr)
  refine ⟨⟨⟨hs.held, hs.keptPostings, hs.keptTerms⟩, fun id' => ?_, fun term id' => ?_, ?_, ?_,
    Text.forall_insert h.named ⟨rfl, hr⟩⟩, ?_⟩
  · refine (Text.getElem?_insert ..).trans ?_
    rw [hdocuments, hdetached.documents, Text.getElem?_insert, Text.getElem?_erase]
    split <;> rfl
  · refine (hpositions term id').trans ?_
    rw [hdetached.positions, Records.positions?_insert, Records.positions?_erase]
    split
    · simp [Record.positions?]
    · rfl
  · refine (congrArg (· + _) (hlength.trans hdetached.totalLength)).trans ?_
    rw [Records.total_insert, Nat.add_comm]
  · refine (hcount.trans (congrArg (· + _) hdetached.postingCount)).trans ?_
    rw [Records.total_insert, Nat.add_comm]
  · exact congrArg (· + 1) (hversion'.trans hversion)

theorem Represents.contains {ix : Index} {rs : Records} (h : ix.Represents rs) (id : DocId) :
    ix.documents.contains id = rs.contains id := by
  rw [← Std.TreeMap.isSome_getElem?_eq_contains, ← Std.TreeMap.isSome_getElem?_eq_contains,
    h.documents, Option.isSome_map]

theorem Represents.remove {ix : Index} {rs : Records} (h : ix.Represents rs) (id : DocId) :
    (ix.remove id).Represents (rs.erase id) ∧
      (ix.remove id).version = ix.version + if rs.contains id then 1 else 0 := by
  obtain ⟨hdetached, -⟩ := h.detach id
  rw [Index.remove, h.contains]
  split
  · exact ⟨⟨⟨hdetached.held, hdetached.keptPostings, hdetached.keptTerms⟩, hdetached.documents,
      hdetached.positions, hdetached.totalLength, hdetached.postingCount, hdetached.named⟩, rfl⟩
  · rename_i habsent
    refine ⟨h.congr fun id' => ?_, rfl⟩
    rw [Text.getElem?_erase]
    split
    · rename_i heq
      rw [← heq]
      exact Std.TreeMap.getElem?_eq_none habsent
    · rfl

/-! ### Reads -/

theorem Sound.postingsOf_eq {ix : Index} (h : ix.Sound) (term : Term) :
    ix.postingsOf term = ix.freshPostings term := by
  rw [postingsOf, readPostings]
  cases hkept : ix.keptPostings[term]? with
  | some list => exact h.keptPostings term list hkept
  | none =>
    rw [freshPostings]
    cases ix.postings[term]? <;> rfl

theorem Sound.vocabulary_eq {ix : Index} (h : ix.Sound) : ix.vocabulary = ix.postings.keys := by
  rw [vocabulary, readVocabulary]
  cases hkept : ix.keptTerms with
  | some terms => exact h.keptTerms terms hkept
  | none => rfl

/-- Reading postings changes nothing but what is kept, and that is not stale. -/
theorem Represents.readPostings {ix : Index} {rs : Records} (h : ix.Represents rs) (term : Term) :
    (ix.readPostings term).2.Represents rs ∧ (ix.readPostings term).2.version = ix.version := by
  rw [Index.readPostings]
  split
  · exact ⟨h, rfl⟩
  · split
    · exact ⟨h, rfl⟩
    · rename_i holders hholders
      refine ⟨⟨⟨h.held, fun term' list hl => ?_, h.keptTerms⟩, h.documents, h.positions,
        h.totalLength, h.postingCount, h.named⟩, rfl⟩
      rw [Text.getElem?_insert] at hl
      split at hl
      · rename_i heq
        obtain rfl := Option.some.inj hl
        simp [freshPostings, ← heq, hholders]
      · exact h.keptPostings term' list hl

theorem Represents.readVocabulary {ix : Index} {rs : Records} (h : ix.Represents rs) :
    ix.readVocabulary.2.Represents rs ∧ ix.readVocabulary.2.version = ix.version := by
  rw [Index.readVocabulary]
  split
  · exact ⟨h, rfl⟩
  · refine ⟨⟨⟨h.held, h.keptPostings, fun terms ht => ?_⟩, h.documents, h.positions,
      h.totalLength, h.postingCount, h.named⟩, rfl⟩
    exact (Option.some.inj ht).symm

/-! ### Runs -/

/-- A call does to the index what it does to the records that the index represents. -/
theorem Represents.call {ix : Index} {rs : Records} (h : ix.Represents rs) (c : Call) :
    (ix.call c).Represents (Records.call rs c) ∧
      (ix.call c).version = ix.version + if Records.changes rs c then 1 else 0 := by
  cases c with
  | add d =>
    by_cases hname : d.id.isEmpty = true
    · simp only [Index.call, Index.add?, hname, Records.call, Records.changes]
      exact ⟨h, rfl⟩
    · simp only [Index.call, Index.add?, hname, Records.call, Records.changes]
      exact h.insert (Record.distinct_ofDocument d)
  | insert r hr => exact h.insert hr
  | remove id => exact h.remove id
  | readPostings term => exact h.readPostings term
  | readVocabulary => exact h.readVocabulary

/-- A run of calls does to the index what it does to the records that the index represents. -/
theorem Represents.run {ix : Index} {rs : Records} (h : ix.Represents rs) (calls : List Call) :
    (ix.run calls).Represents (Records.run rs calls) ∧
      (ix.run calls).version = ix.version + Records.changeCount rs calls := by
  induction calls generalizing ix rs with
  | nil => exact ⟨h, rfl⟩
  | cons c rest ih =>
    obtain ⟨hcall, hversion⟩ := h.call c
    obtain ⟨hrun, hversion'⟩ := ih hcall
    refine ⟨hrun, hversion'.trans ?_⟩
    rw [hversion, Records.changeCount, Nat.add_assoc]

end Quarry.Index
