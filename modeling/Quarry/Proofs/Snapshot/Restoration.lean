import Quarry.Proofs.Index.Representation
import Quarry.Proofs.Index.Answers
import Quarry.Proofs.Snapshot.Sifting

/-! Restoring keeps exactly the documents that a snapshot holds soundly, with exactly their
postings, and reports every other document that the snapshot mentions once. What becomes of a
document depends on its own entries and postings alone, so that no corruption reaches another
document. -/

namespace Quarry

theorem Index.Represents.foldl_insert {β : Type} {ix : Index} {rs : Records} (h : ix.Represents rs)
    {record : β → Record} {items : List β} (hdistinct : ∀ x ∈ items, (record x).Distinct) :
    (items.foldl (fun ix x => ix.insert (record x)) ix).Represents
        (items.foldl (fun rs x => rs.insert (record x).document.id (record x)) rs) ∧
      (items.foldl (fun ix x => ix.insert (record x)) ix).version = ix.version + items.length := by
  induction items generalizing ix rs with
  | nil => exact ⟨h, rfl⟩
  | cons x rest ih =>
    obtain ⟨hx, hrest⟩ := List.forall_mem_cons.1 hdistinct
    obtain ⟨hinsert, hversion⟩ := h.insert hx
    obtain ⟨hrun, hversion'⟩ := ih hinsert hrest
    refine ⟨hrun, hversion'.trans ?_⟩
    rw [hversion, List.length_cons]
    omega

/-- Of several records of one document the last counts. -/
theorem Records.getElem?_foldl_insert {β : Type} (record : β → Record) (items : List β)
    (rs : Records) (id : DocId) :
    (items.foldl (fun rs x => rs.insert (record x).document.id (record x)) rs)[id]? =
      ((items.filter fun x => (record x).document.id == id).getLast?.map record).or rs[id]? := by
  induction items generalizing rs with
  | nil => simp
  | cons x rest ih =>
    rw [List.foldl_cons, ih, Text.getElem?_insert, List.filter_cons]
    by_cases hid : (record x).document.id = id
    · cases hrest : (rest.filter fun x => (record x).document.id == id).getLast? <;>
        simp [hid, hrest, List.getLast?_cons]
    · simp [hid]

namespace Snapshot

/-! ### Positions -/

/-- Positions in a text of a given length: there are some, they ascend, and all are below the
length. -/
def ArePositions (length : Nat) (positions : List Number) : Prop :=
  ∃ ns : List Nat, positions = ns.map .whole ∧ ns ≠ [] ∧ ns.Pairwise (· < ·) ∧ ∀ n ∈ ns, n < length

theorem checkPositions_cons_eq_ok_iff {term : Term} {length : Nat} {previous : Option Nat}
    {p : Number} {rest : List Number} {ns : List Nat} :
    checkPositions term (.whole length) previous (p :: rest) = .ok ns ↔
      ∃ n ns', p = .whole n ∧ ns = n :: ns' ∧ n < length ∧ (∀ q, previous = some q → q < n) ∧
        checkPositions term (.whole length) (some n) rest = .ok ns' := by
  cases p with
  | real x => simp [checkPositions, Number.toNat?]
  | whole n =>
    have hprevious : previous.any (n ≤ ·) = false ↔ ∀ q, previous = some q → q < n := by
      cases previous <;> simp
    simp only [checkPositions, Number.toNat?, isBeyond, decide_eq_true_eq, Number.whole.injEq]
    split
    · grind
    · rename_i hbelow
      split
      · grind
      · rename_i habove
        rw [Bool.not_eq_true, hprevious] at habove
        cases hrest : checkPositions term (.whole length) (some n) rest with
        | error reason =>
          refine ⟨(by intro h; cases h), ?_⟩
          rintro ⟨_, _, rfl, -, -, -, h⟩
          rw [hrest] at h
          cases h
        | ok ns' =>
          constructor
          · intro h
            cases h
            exact ⟨n, ns', rfl, rfl, Nat.lt_of_not_le hbelow, habove, hrest⟩
          · rintro ⟨_, _, rfl, rfl, -, -, h⟩
            rw [hrest] at h
            cases h
            rfl

theorem checkPositions_eq_ok_iff {term : Term} {length : Nat} {previous : Option Nat}
    {positions : List Number} {ns : List Nat} :
    checkPositions term (.whole length) previous positions = .ok ns ↔ positions = ns.map .whole ∧
      ns.Pairwise (· < ·) ∧ (∀ n ∈ ns, n < length) ∧ ∀ q, previous = some q → ∀ n ∈ ns, q < n := by
  induction positions generalizing previous ns with
  | nil => cases ns <;> simp [checkPositions]
  | cons p rest ih =>
    rw [checkPositions_cons_eq_ok_iff]
    constructor
    · rintro ⟨n, ns', rfl, rfl, hbelow, hprevious, hrest⟩
      obtain ⟨rfl, hascending, hbelow', habove⟩ := ih.1 hrest
      refine ⟨rfl, List.pairwise_cons.2 ⟨habove n rfl, hascending⟩,
        List.forall_mem_cons.2 ⟨hbelow, hbelow'⟩, fun q hq => List.forall_mem_cons.2
          ⟨hprevious q hq, fun m hm => ?_⟩⟩
      exact (hprevious q hq).trans (habove n rfl m hm)
    · rintro ⟨heq, hascending, hbelow, hprevious⟩
      cases ns with
      | nil => cases heq
      | cons n ns' =>
        obtain ⟨rfl, rfl⟩ := List.cons.inj heq
        obtain ⟨habove, hascending⟩ := List.pairwise_cons.1 hascending
        obtain ⟨hn, hbelow⟩ := List.forall_mem_cons.1 hbelow
        refine ⟨n, ns', rfl, rfl, hn, fun q hq => hprevious q hq n List.mem_cons_self, ih.2 ?_⟩
        refine ⟨rfl, hascending, hbelow, ?_⟩
        rintro q ⟨⟩
        exact habove

/-- A posting of a document of known length passes if it is the first of its term and holds
positions in that length. -/
theorem checkPosting_eq_ok_iff {length : Nat} {passed : List (Term × List Nat)} {term : Term}
    {positions : List Number} {ns : List Nat} :
    checkPosting (some (.whole length)) passed term positions = .ok ns ↔ positions = ns.map .whole ∧
      ns ≠ [] ∧ ns.Pairwise (· < ·) ∧ (∀ n ∈ ns, n < length) ∧ term ∉ passed.map (·.1) := by
  have hterm : passed.any (·.1 == term) = true ↔ term ∈ passed.map (·.1) := by simp
  simp only [checkPosting]
  split
  · rename_i hempty
    rw [List.isEmpty_iff] at hempty
    subst hempty
    cases ns <;> simp
  · rename_i hne
    split
    · rename_i reason hreason
      refine ⟨(by intro h; cases h), ?_⟩
      rintro ⟨heq, -, hascending, hbelow, -⟩
      have hok : checkPositions term (.whole length) none positions = .ok ns :=
        checkPositions_eq_ok_iff.2 ⟨heq, hascending, hbelow, fun q hq => by cases hq⟩
      rw [hreason] at hok
      cases hok
    · rename_i ms hms
      obtain ⟨heq, hascending, hbelow, -⟩ := checkPositions_eq_ok_iff.1 hms
      subst heq
      split
      · rename_i hany
        exact ⟨(by intro h; cases h), fun h => absurd (hterm.1 hany) h.2.2.2.2⟩
      · rename_i hany
        constructor
        · rintro ⟨⟩
          refine ⟨rfl, fun hnil => hne ?_, hascending, hbelow, fun hmem => hany (hterm.2 hmem)⟩
          rw [hnil]
          rfl
        · rintro ⟨heq, -⟩
          rw [List.map_injective_iff.2 (fun _ _ => Number.whole.inj) heq]

/-! ### Verdicts -/

/-- Numbers that are whole, as natural numbers. -/
def wholes (positions : List Number) : List Nat := positions.filterMap Number.toNat?

@[simp] theorem wholes_map_whole (ns : List Nat) : wholes (ns.map .whole) = ns := by
  induction ns with
  | nil => rfl
  | cons n ns ih =>
    rw [wholes, List.map_cons, List.filterMap_cons]
    exact congrArg (n :: ·) ih

theorem ArePositions.map_wholes {length : Nat} {positions : List Number}
    (h : ArePositions length positions) : (wholes positions).map .whole = positions := by
  obtain ⟨ns, rfl, -⟩ := h
  rw [wholes_map_whole]

/-- A posting of a document of known length passes if it holds positions in that length and none of
its term has passed. -/
theorem exists_checkPosting_iff {length : Nat} {passed : List (Term × List Nat)} {term : Term}
    {positions : List Number} :
    (∃ ns, checkPosting (some (.whole length)) passed term positions = .ok ns) ↔
      ArePositions length positions ∧ term ∉ passed.map (·.1) := by
  simp only [checkPosting_eq_ok_iff, ArePositions, exists_and_right.symm, and_assoc]

theorem not_mem_of_checkPosting {length : Option Number} {passed : List (Term × List Nat)}
    {term : Term} {positions : List Number} {ns : List Nat}
    (h : checkPosting length passed term positions = .ok ns) : term ∉ passed.map (·.1) := by
  intro hmem
  have hany : passed.any (·.1 == term) = true := by simpa using hmem
  simp only [checkPosting, hany, if_true] at h
  split at h
  · cases h
  · split at h
    · cases h
    · split at h <;> cases h

theorem Verdict.nodup_add {length : Option Number} {v : Verdict} (h : (v.passed.map (·.1)).Nodup)
    (posting : Term × List Number) : ((v.add length posting).passed.map (·.1)).Nodup := by
  rw [Verdict.add]
  cases hchecked : checkPosting length v.passed posting.1 posting.2 with
  | error reason => exact h
  | ok ns =>
    have hfresh := not_mem_of_checkPosting hchecked
    simp only [List.map_append, List.map_cons, List.map_nil, List.nodup_append]
    refine ⟨h, List.nodup_singleton _, ?_⟩
    rintro term hterm other hother rfl
    exact hfresh (List.mem_singleton.1 hother ▸ hterm)

theorem Verdict.nodup_foldl_add {length : Option Number} (postings : List (Term × List Number))
    {v : Verdict} (h : (v.passed.map (·.1)).Nodup) :
    ((postings.foldl (Verdict.add length) v).passed.map (·.1)).Nodup := by
  induction postings generalizing v with
  | nil => exact h
  | cons posting postings ih => exact ih (Verdict.nodup_add h posting)

theorem Verdict.reason_add_eq_none_iff {length : Option Number} {v : Verdict}
    {posting : Term × List Number} : (v.add length posting).reason = none ↔
      v.reason = none ∧ ∃ ns, checkPosting length v.passed posting.1 posting.2 = .ok ns := by
  rw [Verdict.add]
  cases checkPosting length v.passed posting.1 posting.2 <;> simp

theorem Verdict.passed_add {length : Nat} {v : Verdict} {posting : Term × List Number}
    (h : ArePositions length posting.2) (hterm : posting.1 ∉ v.passed.map (·.1)) :
    (v.add (some (.whole length)) posting).passed =
      v.passed ++ [(posting.1, wholes posting.2)] := by
  obtain ⟨ns, hchecked⟩ := exists_checkPosting_iff.2 ⟨h, hterm⟩
  rw [Verdict.add, hchecked, (checkPosting_eq_ok_iff.1 hchecked).1, wholes_map_whole]

/-- Nothing is wrong with the postings of a document of known length if all of them hold positions
in that length, each under a term of its own. -/
theorem Verdict.reason_foldl_add {length : Nat} (postings : List (Term × List Number))
    (v : Verdict) :
    (postings.foldl (Verdict.add (some (.whole length))) v).reason = none ↔ v.reason = none ∧
      (∀ posting ∈ postings, ArePositions length posting.2) ∧ (postings.map (·.1)).Nodup ∧
        ∀ posting ∈ postings, posting.1 ∉ v.passed.map (·.1) := by
  induction postings generalizing v with
  | nil => simp
  | cons posting postings ih =>
    rw [List.foldl_cons, ih, Verdict.reason_add_eq_none_iff, exists_checkPosting_iff]
    simp only [List.forall_mem_cons, List.map_cons, List.nodup_cons]
    constructor
    · rintro ⟨⟨hv, hposting, hterm⟩, hpositions, hnodup, hfresh⟩
      rw [Verdict.passed_add hposting hterm] at hfresh
      simp only [List.map_append, List.mem_append, List.map_cons, List.map_nil, List.mem_singleton,
        not_or] at hfresh
      refine ⟨hv, ⟨hposting, hpositions⟩, ⟨fun hmem => ?_, hnodup⟩, hterm,
        fun p hp => (hfresh p hp).1⟩
      obtain ⟨p, hp, heq⟩ := List.mem_map.1 hmem
      exact (hfresh p hp).2 heq
    · rintro ⟨hv, ⟨hposting, hpositions⟩, ⟨hfirst, hnodup⟩, hterm, hfresh⟩
      refine ⟨⟨hv, hposting, hterm⟩, hpositions, hnodup, fun p hp => ?_⟩
      rw [Verdict.passed_add hposting hterm]
      simp only [List.map_append, List.mem_append, List.map_cons, List.map_nil, List.mem_singleton,
        not_or]
      exact ⟨hfresh p hp, fun heq => hfirst (List.mem_map.2 ⟨p, hp, heq⟩)⟩

theorem Verdict.passed_foldl_add {length : Nat} (postings : List (Term × List Number)) (v : Verdict)
    (h : (postings.foldl (Verdict.add (some (.whole length))) v).reason = none) :
    (postings.foldl (Verdict.add (some (.whole length))) v).passed =
      v.passed ++ postings.map fun posting => (posting.1, wholes posting.2) := by
  induction postings generalizing v with
  | nil => simp
  | cons posting postings ih =>
    obtain ⟨-, hpositions, -, hfresh⟩ := (Verdict.reason_foldl_add _ _).1 h
    rw [List.foldl_cons, ih _ h, Verdict.passed_add (hpositions _ List.mem_cons_self)
      (hfresh _ List.mem_cons_self)]
    simp

theorem Verdict.reason_foldl_add_none (postings : List (Term × List Number)) (v : Verdict) :
    (postings.foldl (Verdict.add none) v).reason = none ↔ v.reason = none ∧ postings = [] := by
  induction postings generalizing v with
  | nil => simp
  | cons posting postings ih =>
    rw [List.foldl_cons, ih, Verdict.reason_add_eq_none_iff]
    simp [checkPosting]

/-- Nothing is wrong with an entry by itself if its length and the lengths of its fields
are whole. -/
theorem Entry.problem?_eq_none_iff {d : Entry} : d.problem? = none ↔
    (∃ n, d.length = .whole n) ∧ ∀ field ∈ d.fieldLengths, ∃ n, field.2 = .whole n := by
  have hwhole : ∀ n : Number, n.toNat?.isSome = true ↔ ∃ k, n = .whole k := by
    intro n
    cases n <;> simp [Number.toNat?]
  rw [problem?, ← hwhole]
  split
  · rename_i hlength
    simp only [Option.map_eq_none_iff, List.find?_eq_none, Bool.not_eq_true', Bool.not_eq_false,
      hlength, true_and, hwhole]
  · rename_i hlength
    simp [hlength]

/-! ### What is kept -/

/-- A snapshot holds a document soundly: it has one entry with whole lengths, and all its postings
hold positions in that length, each under a term of its own. -/
def Sound (s : Snapshot) (id : DocId) : Prop :=
  ∃ d length, s.entriesOf id = [d] ∧ d.length = .whole length ∧
    (∀ field ∈ d.fieldLengths, ∃ n, field.2 = .whole n) ∧
    (∀ posting ∈ s.tuplesOf id, ArePositions length posting.2) ∧ ((s.tuplesOf id).map (·.1)).Nodup

/-- A snapshot has an entry or a posting of a document. -/
def Mentions (s : Snapshot) (id : DocId) : Prop := s.entriesOf id ≠ [] ∨ s.tuplesOf id ≠ []

/-- A reason once found stays. -/
theorem Verdict.reason_of_foldl_add {length : Option Number} {postings : List (Term × List Number)}
    {v : Verdict} (h : (postings.foldl (Verdict.add length) v).reason = none) :
    v.reason = none := by
  induction postings generalizing v with
  | nil => exact h
  | cons posting postings ih => exact (Verdict.reason_add_eq_none_iff.1 (ih h)).1

theorem reason_verdict_eq_none_iff (s : Snapshot) (id : DocId) :
    (verdict (s.entriesOf id) (s.tuplesOf id)).reason = none ↔ s.Sound id ∨ ¬ s.Mentions id := by
  rw [Sound, Mentions, verdict]
  generalize s.entriesOf id = entries
  generalize s.tuplesOf id = postings
  match entries with
  | [] => simp [entryVerdict, Verdict.reason_foldl_add_none]
  | d :: other :: others =>
    simp only [List.cons.injEq, reduceCtorEq, and_false, false_and, exists_false, ne_eq,
      not_false_eq_true, true_or, not_true_eq_false, or_false, iff_false]
    intro h
    simpa [entryVerdict] using Verdict.reason_of_foldl_add h
  | [d] =>
    constructor
    · intro h
      have hproblem : d.problem? = none := by
        simpa [entryVerdict] using Verdict.reason_of_foldl_add h
      obtain ⟨⟨length, hlength⟩, hfields⟩ := Entry.problem?_eq_none_iff.1 hproblem
      simp only [entryVerdict, hlength] at h
      obtain ⟨-, hpositions, hnodup, -⟩ := (Verdict.reason_foldl_add _ _).1 h
      exact .inl ⟨d, length, rfl, hlength, hfields, hpositions, hnodup⟩
    · rintro (⟨d, length, ⟨⟩, hlength, hfields, hpositions, hnodup⟩ | hmentions)
      · have hproblem := Entry.problem?_eq_none_iff.2 ⟨⟨length, hlength⟩, hfields⟩
        simp only [entryVerdict, hlength]
        refine (Verdict.reason_foldl_add _ _).2 ⟨by simp [hproblem], hpositions, hnodup, by simp⟩
      · simp at hmentions

theorem passed_verdict {s : Snapshot} {id : DocId} (h : s.Sound id) :
    (verdict (s.entriesOf id) (s.tuplesOf id)).passed =
      (s.tuplesOf id).map fun posting => (posting.1, wholes posting.2) := by
  have hreason := (reason_verdict_eq_none_iff s id).2 (.inl h)
  obtain ⟨d, length, hentries, hlength, -⟩ := h
  simp only [verdict, hentries, entryVerdict, hlength] at hreason ⊢
  rw [Verdict.passed_foldl_add _ _ hreason, List.nil_append]

/-- The entries of the documents that nothing is wrong with. -/
def kept (s : Snapshot) : List Entry :=
  s.documents.filter fun d => !s.sifted.corrupt.any (·.docId == d.id)

theorem restore_eq (s : Snapshot) : restore s =
    ⟨s.kept.foldl (fun ix d => ix.insert (record s.sifted.postings d)) (.empty s.indexVersion),
      s.sifted.corrupt⟩ := rfl

theorem reasonOf?_sifted (s : Snapshot) (id : DocId) :
    reasonOf? s.sifted.corrupt id = (verdict (s.entriesOf id) (s.tuplesOf id)).reason :=
  congrArg Verdict.reason (s.verdict_sifted id)

theorem filter_kept (s : Snapshot) (id : DocId) : s.kept.filter (·.id == id) =
    if (verdict (s.entriesOf id) (s.tuplesOf id)).reason.isSome then [] else s.entriesOf id := by
  rw [kept, List.filter_filter, ← reasonOf?_sifted, ← any_eq_isSome_reasonOf?]
  split
  · rename_i hcorrupt
    rw [List.filter_eq_nil_iff]
    intro d _ hd
    rw [Bool.and_eq_true, beq_iff_eq] at hd
    rw [hd.1, hcorrupt] at hd
    simp at hd
  · rename_i hclean
    rw [entriesOf]
    refine List.filter_congr fun d _ => ?_
    by_cases hd : d.id = id <;> simp [hd, hclean]

theorem terms_record (s : Snapshot) (d : Entry) :
    (record s.sifted.postings d).terms = (verdict (s.entriesOf d.id) (s.tuplesOf d.id)).passed := by
  rw [← verdict_sifted, record, Sifted.verdict]
  simp only
  induction s.sifted.postings with
  | nil => rfl
  | cons posting postings ih =>
    by_cases hid : posting.1 = d.id <;> simp [hid, ih]

theorem distinct_record (s : Snapshot) (d : Entry) : (record s.sifted.postings d).Distinct := by
  rw [Record.Distinct, terms_record]
  exact Verdict.nodup_foldl_add _ List.nodup_nil

/-- The records that a restored index holds. -/
def records (s : Snapshot) : Records :=
  s.kept.foldl (fun rs d => rs.insert (record s.sifted.postings d).document.id
    (record s.sifted.postings d)) ∅

theorem represents_restore (s : Snapshot) : (restore s).index.Represents s.records ∧
    (restore s).index.version = s.indexVersion + s.kept.length := by
  rw [restore_eq]
  exact (Index.represents_empty s.indexVersion).foldl_insert fun d _ => distinct_record s d

/-- The record of a document that a snapshot holds soundly. -/
theorem getElem?_records_of_sound {s : Snapshot} {id : DocId} (h : s.Sound id) : ∃ d length,
    s.entriesOf id = [d] ∧ d.length = .whole length ∧ s.records[id]? = some
      ⟨⟨id, length, d.fieldLengths.map fun (name, n) => (name, n.toNat?.getD 0), d.fields⟩,
        (s.tuplesOf id).map fun posting => (posting.1, wholes posting.2)⟩ := by
  have hreason := (reason_verdict_eq_none_iff s id).2 (.inl h)
  have hpassed := passed_verdict h
  obtain ⟨d, length, hentries, hlength, -⟩ := h
  have hid : d.id = id := by
    have hmem : d ∈ s.entriesOf id := hentries ▸ List.mem_singleton_self d
    simpa using (List.mem_filter.1 hmem).2
  refine ⟨d, length, hentries, hlength, ?_⟩
  have hterms := s.terms_record d
  rw [hid, hpassed] at hterms
  rw [records, Records.getElem?_foldl_insert]
  have hkept := s.filter_kept id
  rw [hreason] at hkept
  have hrecord : (record s.sifted.postings d) = ⟨⟨id, length, d.fieldLengths.map fun (name, n) =>
      (name, n.toNat?.getD 0), d.fields⟩,
        (s.tuplesOf id).map fun posting => (posting.1, wholes posting.2)⟩ := by
    rw [← hterms, record]
    simp [hid, hlength, Number.toNat?]
  change ((s.kept.filter (·.id == id)).getLast?.map _).or _ = _
  rw [hkept, hentries]
  simp [hrecord]

theorem getElem?_records_of_not_sound {s : Snapshot} {id : DocId} (h : ¬ s.Sound id) :
    s.records[id]? = none := by
  rw [records, Records.getElem?_foldl_insert]
  change ((s.kept.filter (·.id == id)).getLast?.map _).or _ = _
  rw [filter_kept]
  split
  · simp
  · rename_i hclean
    have hreason := (reason_verdict_eq_none_iff s id).1 (by simpa using hclean)
    have hentries : s.entriesOf id = [] := by
      rw [Mentions] at hreason
      tauto
    simp [hentries]

theorem records_congr {s s' : Snapshot} {id : DocId} (hentries : s.entriesOf id = s'.entriesOf id)
    (htuples : s.tuplesOf id = s'.tuplesOf id) : s.records[id]? = s'.records[id]? := by
  have hsound : s.Sound id ↔ s'.Sound id := by rw [Sound, Sound, hentries, htuples]
  by_cases h : s.Sound id
  · obtain ⟨d, length, hd, hlength, hrecord⟩ := getElem?_records_of_sound h
    obtain ⟨d', length', hd', hlength', hrecord'⟩ := getElem?_records_of_sound (hsound.1 h)
    obtain rfl : d = d' := List.singleton_inj.1 (hd.symm.trans (hentries.trans hd'))
    obtain rfl : length = length' := Number.whole.inj (hlength.symm.trans hlength')
    rw [hrecord, hrecord', htuples]
  · rw [getElem?_records_of_not_sound h, getElem?_records_of_not_sound (mt hsound.2 h)]

/-! ### What is dropped -/

theorem nodup_checkEntry {found : List Corruption × List (DocId × Number)}
    (h : (found.1.map (·.docId)).Nodup) (d : Entry) :
    ((checkEntry found d).1.map (·.docId)).Nodup := by
  have hfields : ∀ (fields : List (Text × Number)) (corrupt : List Corruption),
      (corrupt.map (·.docId)).Nodup → ((fields.foldl (fun corrupt (field, n) =>
        if n.toNat?.isSome then corrupt else mark corrupt d.id (.fieldLength n field)) corrupt).map
          (·.docId)).Nodup := by
    intro fields
    induction fields with
    | nil => exact fun corrupt h => h
    | cons field fields ih =>
      intro corrupt h
      refine ih _ ?_
      simp only
      split
      · exact h
      · exact nodup_mark h _ _
  rw [checkEntry]
  split
  · exact nodup_mark h _ _
  · refine hfields _ _ ?_
    split
    · exact h
    · exact nodup_mark h _ _

theorem nodup_sift {lengths : List (DocId × Number)} {term : Term} {s : Sifted}
    (h : (s.corrupt.map (·.docId)).Nodup) (posting : DocId × List Number) :
    ((sift lengths term s posting).corrupt.map (·.docId)).Nodup := by
  rw [sift_eq]
  split
  · exact nodup_mark h _ _
  · exact h

theorem nodup_dropped (s : Snapshot) : ((restore s).dropped.map (·.docId)).Nodup := by
  have hentries : ((checkDocuments s.documents).1.map (·.docId)).Nodup := by
    rw [checkDocuments_eq]
    exact List.foldlRecOn (motive := fun found => (found.1.map (·.docId)).Nodup)
      s.documents checkEntry (b := ([], [])) List.nodup_nil fun found h d _ => nodup_checkEntry h d
  rw [restore_eq, sifted_eq]
  exact List.foldlRecOn (motive := fun s : Sifted => (s.corrupt.map (·.docId)).Nodup) s.tuples _
    (b := ⟨_, []⟩) hentries fun sifted h tuple _ => nodup_sift h _

theorem mem_dropped_iff (s : Snapshot) (id : DocId) :
    id ∈ (restore s).dropped.map (·.docId) ↔ s.Mentions id ∧ ¬ s.Sound id := by
  rw [restore_eq, ← isSome_reasonOf?_iff, reasonOf?_sifted, ← Option.not_isNone, Bool.not_eq_true',
    ← Bool.not_eq_true, Option.isNone_iff_eq_none, reason_verdict_eq_none_iff, not_or, not_not,
    and_comm]

/-! ### What becomes of a document -/

/-- What becomes of a document when a snapshot is restored: how the index knows it and its postings,
or why it was dropped. -/
structure Restored.Fate where
  document? : Option IndexedDocument
  posting? : Term → Option Posting
  reason? : Option Corruption.Reason

def Restored.fate (r : Restored) (id : DocId) : Restored.Fate where
  document? := r.index.document? id
  posting? term := r.index.posting? term id
  reason? := reasonOf? r.dropped id

theorem ArePositions.ne_nil {length : Nat} {positions : List Number}
    (h : ArePositions length positions) :
    wholes positions ≠ [] := by
  obtain ⟨ns, rfl, hne, -⟩ := h
  rwa [wholes_map_whole]

/-- The postings of a document that is kept are exactly those that the snapshot holds of it. -/
theorem posting?_restore_iff (s : Snapshot) (id : DocId) (term : Term) (p : Posting) :
    (restore s).index.posting? term id = some p ↔
      s.Sound id ∧ p.docId = id ∧ (term, p.positions.map .whole) ∈ s.tuplesOf id := by
  rw [(represents_restore s).1.posting?_eq, Records.positions?]
  by_cases h : s.Sound id
  · obtain ⟨d, length, -, -, hrecord⟩ := getElem?_records_of_sound h
    have hdistinct := ((represents_restore s).1.named id _ hrecord).2
    have hpositions : ∃ length, ∀ posting ∈ s.tuplesOf id, ArePositions length posting.2 := by
      obtain ⟨_, length, -, -, -, hpositions, -⟩ := h
      exact ⟨length, hpositions⟩
    obtain ⟨_, hpositions⟩ := hpositions
    rw [hrecord, Option.bind_some, Option.map_eq_some_iff]
    simp only [Record.positions?_eq_some_iff hdistinct, List.mem_map]
    constructor
    · rintro ⟨positions, ⟨⟨posting, hmem, heq⟩, -⟩, rfl⟩
      obtain ⟨rfl, rfl⟩ := Prod.mk.inj heq
      refine ⟨h, rfl, ?_⟩
      rwa [(hpositions posting hmem).map_wholes]
    · rintro ⟨-, rfl, hmem⟩
      have hne := (hpositions _ hmem).ne_nil
      rw [wholes_map_whole] at hne
      exact ⟨p.positions, ⟨⟨_, hmem, by rw [wholes_map_whole]⟩, hne⟩, rfl⟩
  · simp [getElem?_records_of_not_sound h, h]

theorem hasDocument_restore_iff (s : Snapshot) (id : DocId) :
    (restore s).index.hasDocument id = true ↔ s.Sound id := by
  rw [Index.hasDocument, (represents_restore s).1.contains,
    ← Std.TreeMap.isSome_getElem?_eq_contains]
  by_cases h : s.Sound id
  · obtain ⟨d, length, -, -, hrecord⟩ := getElem?_records_of_sound h
    simp [hrecord, h]
  · simp [getElem?_records_of_not_sound h, h]

/-- What becomes of a document depends on its own entries and postings alone. -/
theorem fate_congr {s s' : Snapshot} {id : DocId} (hentries : s'.entriesOf id = s.entriesOf id)
    (htuples : s'.tuplesOf id = s.tuplesOf id) : (restore s').fate id = (restore s).fate id := by
  have hrecords := records_congr hentries htuples
  have hdocument : (restore s').index.document? id = (restore s).index.document? id := by
    rw [(represents_restore s').1.document?_eq, (represents_restore s).1.document?_eq, hrecords]
  have hposting : ∀ term, (restore s').index.posting? term id =
      (restore s).index.posting? term id := by
    intro term
    rw [(represents_restore s').1.posting?_eq, (represents_restore s).1.posting?_eq,
      Records.positions?_congr hrecords]
  have hreason : reasonOf? (restore s').dropped id = reasonOf? (restore s).dropped id := by
    rw [restore_eq, restore_eq, reasonOf?_sifted, reasonOf?_sifted, hentries, htuples]
  rw [Restored.fate, Restored.fate, hdocument, funext hposting, hreason]

/-- Restoring keeps exactly the documents that a snapshot holds soundly, with exactly their
postings, and drops every other document that the snapshot mentions once. What becomes of a document
is the same for all snapshots with the same entries and postings of it. -/
theorem restore_keeps_sound (s : Snapshot) :
    (∀ id, (restore s).index.hasDocument id = true ↔ s.Sound id) ∧
      (∀ id, s.Sound id → ∃ d length, s.entriesOf id = [d] ∧ d.length = .whole length ∧
        (restore s).index.document? id = some ⟨id, length,
          d.fieldLengths.map fun (name, n) => (name, n.toNat?.getD 0), d.fields⟩) ∧
      (∀ id term p, (restore s).index.posting? term id = some p ↔
        s.Sound id ∧ p.docId = id ∧ (term, p.positions.map .whole) ∈ s.tuplesOf id) ∧
      ((restore s).dropped.map (·.docId)).Nodup ∧
      (∀ id, id ∈ (restore s).dropped.map (·.docId) ↔ s.Mentions id ∧ ¬ s.Sound id) ∧
      ∀ s' id, s'.entriesOf id = s.entriesOf id → s'.tuplesOf id = s.tuplesOf id →
        (restore s').fate id = (restore s).fate id := by
  refine ⟨s.hasDocument_restore_iff, fun id h => ?_, s.posting?_restore_iff, s.nodup_dropped,
    s.mem_dropped_iff, fun s' id => fate_congr⟩
  obtain ⟨d, length, hentries, hlength, hrecord⟩ := getElem?_records_of_sound h
  refine ⟨d, length, hentries, hlength, ?_⟩
  rw [(represents_restore s).1.document?_eq, hrecord]
  rfl

/-- A document whose only posting lies beyond its text is dropped, and its neighbour is kept as if
it were alone. -/
theorem restore_beside_corrupt :
    let a : Snapshot.Entry := ⟨Text.ofChars ['a'], .whole 1, [], []⟩
    let b : Snapshot.Entry := ⟨Text.ofChars ['b'], .whole 1, [], []⟩
    let x := Text.ofChars ['x']
    let s : Snapshot := ⟨0, [b, a], [(x, [(a.id, [.whole 0]), (b.id, [.whole 1])])]⟩
    let alone : Snapshot := ⟨0, [a], [(x, [(a.id, [.whole 0])])]⟩
    (restore s).index.hasDocument a.id = true ∧
      (restore s).index.posting? x a.id = some ⟨a.id, [0]⟩ ∧
      b.id ∈ (restore s).dropped.map (·.docId) ∧
      (restore alone).fate a.id = (restore s).fate a.id := by
  intro a b x s alone
  obtain ⟨hkept, -, hpostings, -, hdropped, hfate⟩ := restore_keeps_sound s
  have ha : s.Sound a.id := by
    refine ⟨a, 1, rfl, rfl, by simp [a], ?_, by decide⟩
    rintro posting hposting
    obtain rfl : posting = (x, [.whole 0]) := List.mem_singleton.1 hposting
    exact ⟨[0], rfl, by simp, by simp, by simp⟩
  have hb : ¬ s.Sound b.id := by
    rintro ⟨d, length, hentry, hlength, -, hpositions, -⟩
    obtain rfl : b = d := List.singleton_inj.1 hentry
    obtain rfl : 1 = length := Number.whole.inj hlength
    obtain ⟨ns, hns, -, -, hbelow⟩ := hpositions (x, [.whole 1]) (List.mem_singleton.2 rfl)
    cases ns with
    | nil => cases hns
    | cons n ns =>
      obtain ⟨⟨⟩, -⟩ := List.cons.inj hns
      exact absurd (hbelow 1 List.mem_cons_self) (by decide)
  refine ⟨(hkept a.id).2 ha, (hpostings a.id x _).2 ⟨ha, rfl, List.mem_singleton.2 rfl⟩,
    (hdropped b.id).2 ⟨.inl ?_, hb⟩, hfate alone a.id rfl rfl⟩
  exact List.cons_ne_nil b []

end Snapshot
end Quarry
