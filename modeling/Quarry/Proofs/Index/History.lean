import Quarry.Proofs.Index.Answers
import Quarry.Proofs.Ranking.Evaluation

/-! Histories of calls on an index. Whatever the calls were and in whatever order, reads among them
included, the index answers as the records that are left do, so that two histories that leave the
same records cannot be told apart. -/

namespace Quarry.Index

theorem Represents.answers_congr {ix ix' : Index} {rs rs' : Records} (h : ix.Represents rs)
    (h' : ix'.Represents rs') (same : ∀ id : DocId, rs[id]? = rs'[id]?) (α : Type) [Scalar α] :
    ix.answers α = ix'.answers α := by
  rw [h.answers_eq, (h'.congr fun id => (same id).symm).answers_eq]

/-- After any history, every answer of the index is computed from the records that are left, and so
is every ranked list; the version tells how many calls changed the records. -/
theorem answers_run (α : Type) [Scalar α] (version : Nat) (calls : List Call) :
    ((empty version).run calls).answers α = Records.answers (Records.run ∅ calls) α ∧
      ((empty version).run calls).version = version + Records.changeCount ∅ calls ∧
      ∀ (version' : Nat) (calls' : List Call),
        (∀ id : DocId, (Records.run ∅ calls)[id]? = (Records.run ∅ calls')[id]?) →
        ((empty version).run calls).answers α = ((empty version').run calls').answers α ∧
          ∀ (tuning : Tuning α) (q : Query), Bm25.score tuning ((empty version).run calls) q =
            Bm25.score tuning ((empty version').run calls') q := by
  obtain ⟨hrun, hversion⟩ := (represents_empty version).run calls
  refine ⟨hrun.answers_eq α, hversion, fun version' calls' same => ?_⟩
  obtain ⟨hrun', -⟩ := (represents_empty version').run calls'
  have hanswers := hrun.answers_congr hrun' same α
  exact ⟨hanswers, fun tuning q => Bm25.score_congr tuning hanswers q⟩

/-- A document that was added, read and removed leaves no trace but the version. -/
theorem answers_after_removal :
    let d : Document := ⟨Text.ofChars ['a'], Text.ofChars ['x'], []⟩
    ((empty 3).run [.add d, .readPostings d.text, .remove d.id]).answers Float =
        ((empty 7).run []).answers Float ∧
      ((empty 3).run [.add d, .readPostings d.text, .remove d.id]).version = 5 := by
  intro d
  obtain ⟨-, hversion, hsame⟩ :=
    answers_run Float 3 [.add d, .readPostings d.text, .remove d.id]
  have hname : d.id.isEmpty = false := rfl
  have same : ∀ id : DocId, (Records.run ∅ [.add d, .readPostings d.text, .remove d.id])[id]? =
      (Records.run ∅ [])[id]? := by
    intro id
    simp only [Records.run, List.foldl_cons, List.foldl_nil, Records.call, hname]
    rw [Text.getElem?_erase]
    split
    · simp
    · rename_i hne
      simp [hne]
  refine ⟨(hsame 7 [] same).1, hversion.trans ?_⟩
  simp [Records.changeCount, Records.changes, Records.call, hname]

end Quarry.Index
