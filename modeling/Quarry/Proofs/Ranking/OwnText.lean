import Quarry.Proofs.Query.Excerpts
import Quarry.Proofs.Ranking.Matching

/-! Documents are found by their own texts. What the index holds of a document are the tokens of its
text, and a stretch of the text in double quotes, or a word of it typed bare, asks for tokens that
stand there. Other documents of the index make no difference. -/

namespace Quarry

namespace Index

/-- The call leaves the document of a name as it is. -/
def Call.Spares (id : DocId) : Call → Prop
  | .add d => d.id ≠ id
  | .insert r _ => r.document.id ≠ id
  | .remove id' => id' ≠ id
  | .readPostings _ | .readVocabulary => True

end Index

namespace Records

theorem getElem?_call {rs : Records} {c : Index.Call} {id : DocId} (h : c.Spares id) :
    (rs.call c)[id]? = rs[id]? := by
  cases c with
  | add d =>
    rw [call]
    split
    · rfl
    · exact (Text.getElem?_insert ..).trans (if_neg h)
  | insert r _ => exact (Text.getElem?_insert ..).trans (if_neg h)
  | remove id' => exact (Text.getElem?_erase ..).trans (if_neg h)
  | readPostings term => rfl
  | readVocabulary => rfl

theorem getElem?_run {rs : Records} {calls : List Index.Call} {id : DocId}
    (h : ∀ c ∈ calls, c.Spares id) : (rs.run calls)[id]? = rs[id]? := by
  induction calls generalizing rs with
  | nil => rfl
  | cons c rest ih =>
    rw [List.forall_mem_cons] at h
    exact (ih h.2).trans (getElem?_call h.1)

end Records

namespace Index

/-- A document that was added, and not added again or removed since, is held as it was added. -/
theorem exists_represents_run {d : Document} (named : d.id ≠ []) {after : List Call}
    (spared : ∀ c ∈ after, c.Spares d.id) (version : Nat) (before : List Call) :
    ∃ rs, ((empty version).run (before ++ .add d :: after)).Represents rs ∧
      rs[d.id]? = some (.ofDocument d) := by
  refine ⟨_, ((represents_empty version).run _).1, ?_⟩
  have hadded : ∀ rs : Records, (rs.call (.add d))[d.id]? = some (.ofDocument d) := by
    intro rs
    rw [Records.call, if_neg (by simpa using named), Text.getElem?_insert, if_pos rfl]
  rw [Records.run, List.foldl_append, List.foldl_cons]
  exact (Records.getElem?_run spared).trans (hadded _)

section

variable {ix : Index} {rs : Records} (h : ix.Represents rs) {d : Document}
  (hd : rs[d.id]? = some (.ofDocument d))
include h hd

theorem Represents.positions?_document (term : Term) :
    ix.positions? term d.id = (Record.ofDocument d).positions? term := by
  rw [h.positions, Records.positions?, hd, Option.bind_some]

theorem Represents.ascending_document : ix.Ascending d.id := by
  intro term positions hpositions
  rw [h.positions?_document hd] at hpositions
  exact ⟨Record.positions?_ne_nil hpositions, Record.pairwise_positions? hpositions⟩

/-- The tokens of a document's text occur where they stand. -/
theorem Represents.occurs_token {token : Token} (htoken : token ∈ d.text.tokens) :
    ix.Occurs d.id token.term token.position := by
  obtain ⟨positions, hpositions, hposition⟩ := Record.exists_positions?_of_mem_tokens htoken
  refine ⟨⟨d.id, positions⟩, ?_, hposition⟩
  rw [Index.posting?_eq, h.positions?_document hd, hpositions, Option.map_some]

/-- Runs of a document's text occur side by side. -/
theorem Represents.occurs_runs (i n : Nat) {m : Nat} {term : Term}
    (hterm : (((d.text.runs.drop i).take n).map (·.text.lower))[m]? = some term) :
    ix.Occurs d.id term (i + m) := by
  rw [List.getElem?_map, Option.map_eq_some_iff] at hterm
  obtain ⟨r, hr, rfl⟩ := hterm
  have hrun : d.text.runs[i + m]? = some r := by
    rw [List.getElem?_take] at hr
    split at hr
    · rwa [List.getElem?_drop] at hr
    · cases hr
  have hmem : r.token (0 + (i + m)) ∈ d.text.tokens.filter (!·.compound) := by
    rw [Text.filter_tokens]
    exact List.mem_of_getElem? ((Run.getElem?_tokens 0 _ _).trans (by rw [hrun]; rfl))
  rw [Nat.zero_add] at hmem
  exact h.occurs_token hd (List.mem_filter.1 hmem).1

end

end Index

namespace Word

/-- The tokens of each word are among those of all words. -/
theorem exists_tokens_of_mem {w : Word} {ws : List Word} (h : w ∈ ws) (position : Nat) :
    ∃ first, ∀ token ∈ w.tokens first, token ∈ tokensFrom position ws := by
  induction ws generalizing position with
  | nil => cases h
  | cons w' ws ih =>
    rw [tokensFrom]
    rcases List.mem_cons.1 h with rfl | h
    · exact ⟨position, fun token => List.mem_append_left _⟩
    · obtain ⟨first, hfirst⟩ := ih h (position + w'.parts.length)
      exact ⟨first, fun token ht => List.mem_append_right _ (hfirst token ht)⟩

/-- One of the tokens of a word is for all of it: the compound, or the token of its only run. -/
theorem exists_token_text {w : Word} (hne : w.parts ≠ []) (position : Nat) :
    ∃ token ∈ w.tokens position, token.term = w.text.lower := by
  rw [tokens]
  by_cases hsingle : w.parts.length ≤ 1
  · rw [parts_eq_singleton hne hsingle]
    exact ⟨_, List.mem_append_left _ List.mem_cons_self, rfl⟩
  · rw [if_neg hsingle]
    exact ⟨_, List.mem_append_right _ (List.mem_singleton_self _), rfl⟩

end Word

namespace Bm25

variable {α : Type} [Scalar α] (tuning : Tuning α)

/-- A document that holds terms side by side is found by them. -/
theorem mem_score_ofTerms {ix : Index} {rs : Records} (h : ix.Represents rs) {d : Document}
    (hd : rs[d.id]? = some (.ofDocument d)) {terms : List Term} (hne : terms ≠ []) (start : Nat)
    (hoccurs : ∀ i term, terms[i]? = some term → ix.Occurs d.id term (start + i)) :
    d.id ∈ (score tuning ix (.ofTerms terms)).map (·.docId) := by
  have hcount : ix.documentCount ≠ 0 := by
    rw [h.documentCount_eq]
    intro hsize
    have hempty : rs.isEmpty = true := by simp [Std.TreeMap.isEmpty_eq_size_eq_zero, hsize]
    rw [Std.TreeMap.getElem?_of_isEmpty hempty] at hd
    cases hd
  rw [score, if_neg hcount, (perm_ranked _).mem_iff]
  obtain ⟨term, rest, rfl⟩ := List.exists_cons_of_ne_nil hne
  cases rest with
  | nil =>
    obtain ⟨p, hp, -⟩ := hoccurs 0 term rfl
    rw [Query.ofTerms, evaluate]
    exact ((names_termScores tuning h.listed term).2 d.id).2 (Option.isSome_of_eq_some hp)
  | cons term' rest =>
    rw [Query.ofTerms, evaluate]
    · refine ((names_structural tuning h.listed _ _).2 d.id).2 ⟨hne, ?_⟩
      exact (accepts_phrase_iff (h.ascending_document hd) hne).2 ⟨start, hoccurs⟩
    · exact fun t heq => absurd heq (by simp)

/-- A document is found by its own text when it is in the index with it, whatever else is there: by
any stretch from the start of one run to the end of another in double quotes, as long as there is no
double quote in it, and by any word typed bare that is not a keyword. -/
theorem found_by_own_text (version : Nat) (before after : List Index.Call) (d : Document)
    (named : d.id ≠ []) (spared : ∀ c ∈ after, c.Spares d.id) :
    let ix := (Index.empty version).run (before ++ .add d :: after)
    let parts := d.text.tokens.filter (!·.compound)
    (∀ (i j : Nat) (first last : Token), i ≤ j → parts[i]? = some first → parts[j]? = some last →
      34 ∉ d.text.slice first.start last.stop →
      ∃ q, Query.parse (34 :: (d.text.slice first.start last.stop ++ [34])) = .ok q ∧
        d.id ∈ (score tuning ix q).map (·.docId)) ∧
    ∀ w ∈ d.text.words, w.text ∉ [Query.andWord, Query.orWord, Query.notWord] →
      ∃ q, Query.parse w.text = .ok q ∧ d.id ∈ (score tuning ix q).map (·.docId) := by
  intro ix parts
  obtain ⟨rs, hrs, hd⟩ := Index.exists_represents_run named spared version before
  refine ⟨fun i j first last hij hfirst hlast hquote => ?_, fun w hw hkeyword => ?_⟩
  · simp only [parts, Text.filter_tokens, Run.getElem?_tokens,
      Option.map_eq_some_iff] at hfirst hlast
    obtain ⟨r, hr, rfl⟩ := hfirst
    obtain ⟨r', hr', rfl⟩ := hlast
    refine ⟨_, Query.parse_slice hij hr hr' hquote, mem_score_ofTerms tuning hrs hd ?_ i ?_⟩
    · obtain ⟨hi, -⟩ := List.getElem?_eq_some_iff.1 hr
      rw [List.drop_eq_getElem_cons hi]
      exact List.cons_ne_nil _ _
    · exact fun m term hterm => hrs.occurs_runs hd i _ hterm
  · obtain ⟨position, htokens⟩ := Word.exists_tokens_of_mem hw 0
    obtain ⟨token, htoken, hterm⟩ := Word.exists_token_text (Text.isRun_of_mem_words hw).1 position
    have hoccurs := hrs.occurs_token hd (htokens token htoken)
    rw [hterm] at hoccurs
    refine ⟨_, Query.parse_text hw hkeyword, ?_⟩
    refine mem_score_ofTerms tuning hrs hd (List.cons_ne_nil w.text.lower []) token.position
      fun i term hi => ?_
    match i, hi with
    | 0, rfl => exact hoccurs

/-- The text `a.b c` is found by `"b c"`, which begins inside an identifier, and by `a.b`, also when
another document was there before and came anew. -/
theorem found_by_own_text_dotted :
    let d : Document := ⟨[100], [97, 46, 98, 32, 99], []⟩
    let other : Document := ⟨[101], [97], []⟩
    let ix := Index.empty.run [.add other, .add d, .remove other.id, .add other]
    (∃ q, Query.parse [34, 98, 32, 99, 34] = .ok q ∧
      d.id ∈ (score (⟨1.2, 0.75, some 50⟩ : Tuning Float) ix q).map (·.docId)) ∧
    ∃ q, Query.parse [97, 46, 98] = .ok q ∧
      d.id ∈ (score (⟨1.2, 0.75, some 50⟩ : Tuning Float) ix q).map (·.docId) := by
  intro d other ix
  have hspared : ∀ c ∈ [Index.Call.remove other.id, .add other], c.Spares d.id := by
    simp [Index.Call.Spares, d, other]
  obtain ⟨hstretch, hword⟩ := found_by_own_text (⟨1.2, 0.75, some 50⟩ : Tuning Float) 0 [.add other]
    [.remove other.id, .add other] d (by decide) hspared
  exact ⟨hstretch 1 2 ⟨[98], 1, 2, 3, false⟩ ⟨[99], 2, 4, 5, false⟩ (by decide) (by decide +kernel)
    (by decide +kernel) (by decide), hword ⟨0, [[97], [98]]⟩ (by decide +kernel) (by decide)⟩

end Bm25
end Quarry
