import Quarry.Document.Reader
import Quarry.Proofs.Fallible
import Quarry.Proofs.Json.RoundTrip
import Quarry.Proofs.Json.Schema

/-! Documents that are read from values. They have names, and no field of theirs has the
reserved name. -/

namespace Quarry

theorem Fields.unreserved_of_checkOptional {path : List Text} {j : Json} {fields : Fields}
    (h : checkOptional path j = .ok fields) : ∀ m ∈ fields, m.1 ≠ Json.reservedName := by
  rw [checkOptional, Schema.optional.eq_def] at h
  split at h
  · cases h
    simp
  · rw [check, Schema.record] at h
    cases hmembers : Schema.members path j with
    | error issues =>
      rw [hmembers] at h
      cases h
    | ok ms =>
      rw [hmembers] at h
      simp only [bind, Except.bind] at h
      split at h
      · cases h
      · cases h
        intro m hm
        simpa using (List.mem_filter.1 hm).2

namespace Document

/-- A value that is read has passed the check of its name and that of its fields. -/
theorem checks_of_read {j : Json} {d : Document} (h : read j = .ok d) :
    (∃ path name, Schema.nonemptyText path name = .ok d.id) ∧
      ∃ path fields, Fields.checkOptional path fields = .ok d.fields := by
  rw [read] at h
  cases hcheck : check [] j with
  | error issues =>
    rw [hcheck] at h
    cases h
  | ok d' =>
    rw [hcheck] at h
    cases h
    rw [check] at hcheck
    cases hmembers : Schema.members [] j with
    | error issues =>
      rw [hmembers] at hcheck
      cases hcheck
    | ok ms =>
      rw [hmembers] at hcheck
      obtain ⟨_, _, hpair, hfields, rfl⟩ := Schema.apply_eq_ok hcheck
      obtain ⟨_, _, hfirst, -, rfl⟩ := Schema.apply_eq_ok hpair
      obtain ⟨_, id, hmk, hid, rfl⟩ := Schema.apply_eq_ok hfirst
      cases hmk
      exact ⟨⟨_, _, hid⟩, _, _, hfields⟩

theorem id_ne_nil_of_read {j : Json} {d : Document} (h : read j = .ok d) : d.id ≠ [] := by
  obtain ⟨⟨_, _, hid⟩, -⟩ := checks_of_read h
  exact Schema.ne_nil_of_nonemptyText hid

theorem unreserved_of_read {j : Json} {d : Document} (h : read j = .ok d) :
    ∀ m ∈ d.fields, m.1 ≠ Json.reservedName := by
  obtain ⟨-, _, _, hfields⟩ := checks_of_read h
  exact Fields.unreserved_of_checkOptional hfields

theorem id_ne_nil_of_mapM_read {values : List Json} {docs : List Document}
    (h : values.mapM read = .ok docs) : ∀ d ∈ docs, d.id ≠ [] := by
  intro d hd
  obtain ⟨_, -, hread⟩ := exists_of_mapM_ok h d hd
  exact id_ne_nil_of_read hread

/-! ### Documents that are written -/

/-- A document as it can be handed in: it has a name, and its fields are the members of an object,
none of them under the reserved name. -/
structure Valid (d : Document) : Prop where
  named : d.id ≠ []
  ordered : Json.Ordered d.fields
  unreserved : ∀ m ∈ d.fields, m.1 ≠ Json.reservedName

/-- The members of the object that a document is. -/
def members (d : Document) : List (Text × Json) :=
  [("id", .text d.id), ("text", .text d.text), ("fields", .ofTexts d.fields)]

variable {d : Document} {ms : List (Text × Json)} (perm : ms.Perm d.members)
include perm

theorem nodup_of_perm : (ms.map (·.1)).Nodup := by
  have hnames : ["id", "text", "fields"].Nodup (α := Text) := by decide
  exact (perm.map _).nodup_iff.2 hnames

theorem plain_of_perm (ordered : Json.Ordered d.fields) : (Json.object ms).Plain := by
  have hnames : ∀ m ∈ d.members, Json.indexOf? m.1 = none ∧ m.2.Plain := by
    simp only [members, List.forall_mem_cons, List.not_mem_nil, false_implies,
      implies_true, and_true]
    exact ⟨⟨by decide, .text _⟩, ⟨by decide, .text _⟩, by decide, Json.plain_ofTexts ordered⟩
  exact .object (Json.ordered_of_indexOf?_eq_none (nodup_of_perm perm) fun m hm =>
    (hnames m (perm.mem_iff.1 hm)).1) fun m hm => (hnames m (perm.mem_iff.1 hm)).2

/-- The parts of a document are read in any order. -/
theorem check_of_perm (named : d.id ≠ []) (path : List Text) : check path (.object ms) =
    .ok { d with fields := d.fields.filter (·.1 != Json.reservedName) } := by
  have hmember : ∀ m ∈ d.members, Json.member? ms m.1 = some m.2 := fun m hm =>
    Json.member?_eq_of_mem (nodup_of_perm perm) (perm.mem_iff.2 hm)
  simp only [members, List.forall_mem_cons, List.not_mem_nil, false_implies, implies_true,
    and_true] at hmember
  obtain ⟨hid, htext, hfields⟩ := hmember
  have hchecked : Schema.member ms "fields" Fields.checkOptional path =
      .ok (d.fields.filter (·.1 != Json.reservedName)) := by
    rw [Schema.member, hfields]
    change ((Fields.check _ (Json.ofTexts d.fields)).map some).map _ = _
    rw [Fields.check, Schema.reads_ofTexts]
    rfl
  simp only [check, Schema.members, bind, Except.bind,
    Schema.member_eq_ok hid (Schema.reads_nonemptyText named),
    Schema.member_eq_ok htext (Schema.reads_text d.text),
    hchecked]
  rfl

end Document
end Quarry
