import Quarry.Proofs.Text.Runs

/-! Where words and tokens stand in their text. A token is that of what stands between its offsets.
Tokens come in the order of the text, but for a compound, which comes after the parts that
it holds. -/

namespace Quarry

namespace Text

/-- A piece stands in a text at an offset. -/
def StandsAt (t piece : Text) (offset : Nat) : Prop :=
  ∃ before after, t = before ++ piece ++ after ∧ before.length = offset

namespace StandsAt

variable {t piece : Text} {offset : Nat}

theorem slice_eq (h : t.StandsAt piece offset) :
    t.slice offset (offset + piece.length) = piece := by
  obtain ⟨before, after, rfl, rfl⟩ := h
  exact slice_append before piece after

theorem le_length (h : t.StandsAt piece offset) : offset + piece.length ≤ t.length := by
  obtain ⟨before, after, rfl, rfl⟩ := h
  rw [List.length_append, List.length_append]
  exact Nat.le_add_right ..

theorem head (piece after : Text) : (piece ++ after).StandsAt piece 0 := ⟨[], after, rfl, rfl⟩

theorem behind (before piece : Text) : (before ++ piece).StandsAt piece before.length :=
  ⟨before, [], (List.append_nil _).symm, rfl⟩

/-- What stands in a piece stands in the text of the piece. -/
theorem trans (h : t.StandsAt piece offset) {part : Text} {i : Nat}
    (hpart : piece.StandsAt part i) :
    t.StandsAt part (offset + i) := by
  obtain ⟨before, after, rfl, rfl⟩ := h
  obtain ⟨inner, rest, rfl, rfl⟩ := hpart
  exact ⟨before ++ inner, rest ++ after, by simp only [List.append_assoc], List.length_append⟩

end StandsAt
end Text

/-! ### Words -/

namespace Word

/-- The end of a word: the offset behind its last unit. -/
def stop (w : Word) : Nat := w.start + w.text.length

theorem afterDot?_chain (ps : List Point) : afterDot? (chain ps).2 = none := by
  fun_induction chain ps with
  | case1 ps next h ih => exact ih
  | case2 ps h => exact h

/-- A word parts the points that it is found in, and no further run is joined to it behind. -/
theorem exists_split_of_mem_scan {offset : Nat} {ps : List Point} {w : Word}
    (h : w ∈ scan offset ps) :
    ∃ before inside after : List Point, ps = before ++ inside ++ after ∧
      w.start = offset + (Text.ofPoints before).length ∧ w.text = Text.ofPoints inside ∧
      afterDot? after = none := by
  fun_induction scan offset ps with
  | case1 => cases h
  | case2 offset p rest hp first ih =>
    have hsplit := intercalate_chain (p :: rest)
    have hfirst : first.text = Text.ofPoints (List.intercalate [.unit dot] (chain (p :: rest)).1) :=
      (Text.ofPoints_intercalate _).symm
    rcases List.mem_cons.1 h with rfl | h
    · exact ⟨[], _, _, hsplit.symm, rfl, hfirst, afterDot?_chain _⟩
    · obtain ⟨before, inside, after, hrest, hstart, htext, hafter⟩ := ih h
      refine ⟨List.intercalate [.unit dot] (chain (p :: rest)).1 ++ before, inside, after, ?_, ?_,
        htext, hafter⟩
      · rw [List.append_assoc, List.append_assoc, ← List.append_assoc before, ← hrest, hsplit]
      · rw [hstart, Text.ofPoints_append, List.length_append, ← hfirst, Nat.add_assoc]
  | case3 offset p rest hp ih =>
    obtain ⟨before, inside, after, rfl, hstart, htext, hafter⟩ := ih h
    refine ⟨p :: before, inside, after, rfl, ?_, htext, hafter⟩
    rw [hstart, show Text.ofPoints (p :: before) = p.units ++ Text.ofPoints before from rfl,
      List.length_append, p.length_units, Nat.add_assoc]

theorem stands_of_mem_scan {offset : Nat} {ps : List Point} {w : Word} (h : w ∈ scan offset ps) :
    ∃ i, w.start = offset + i ∧ (Text.ofPoints ps).StandsAt w.text i := by
  obtain ⟨before, inside, after, rfl, hstart, htext, -⟩ := exists_split_of_mem_scan h
  refine ⟨_, hstart, Text.ofPoints before, Text.ofPoints after, ?_, rfl⟩
  rw [Text.ofPoints_append, Text.ofPoints_append, htext]

/-- Words come one behind the other. -/
theorem pairwise_scan (offset : Nat) (ps : List Point) :
    (scan offset ps).Pairwise fun w w' => w.stop ≤ w'.start := by
  fun_induction scan offset ps with
  | case1 => exact .nil
  | case2 offset p rest hp first ih =>
    refine .cons (fun w hw => ?_) ih
    obtain ⟨i, hstart, -⟩ := stands_of_mem_scan hw
    rw [hstart]
    exact Nat.le_add_right _ i
  | case3 offset p rest hp ih => exact ih

end Word

namespace Run

/-- Runs with a full stop between neighbours stand where they begin. -/
theorem stands_of_mem_spaced {offset : Nat} {parts : List Text} {r : Run}
    (h : r ∈ spaced offset parts) :
    r.text ∈ parts ∧ ∃ i, r.start = offset + i ∧
      (Text.join [Word.dot] parts).StandsAt r.text i := by
  induction parts generalizing offset with
  | nil => cases h
  | cons part rest ih =>
    rcases List.mem_cons.1 h with rfl | h
    · refine ⟨List.mem_cons_self, 0, rfl, ?_⟩
      cases rest with
      | nil => exact ⟨[], [], by simp [Text.join], rfl⟩
      | cons part' rest =>
        rw [Text.join_cons_cons, List.append_assoc]
        exact .head _ _
    · obtain ⟨hmem, i, hstart, hstands⟩ := ih h
      refine ⟨List.mem_cons_of_mem _ hmem, part.length + 1 + i, by omega, ?_⟩
      cases rest with
      | nil => cases h
      | cons part' rest =>
        have hlength : (part ++ [Word.dot]).length = part.length + 1 := List.length_append
        rw [Text.join_cons_cons, ← hlength]
        exact (Text.StandsAt.behind (part ++ [Word.dot]) _).trans hstands

theorem pairwise_spaced (offset : Nat) (parts : List Text) :
    (spaced offset parts).Pairwise fun r r' => r.stop ≤ r'.start := by
  induction parts generalizing offset with
  | nil => exact .nil
  | cons part rest ih =>
    refine .cons (fun r hr => ?_) (ih _)
    obtain ⟨-, i, hstart, -⟩ := stands_of_mem_spaced hr
    change offset + part.length ≤ r.start
    omega

theorem pairwise_tokens {R : Token → Token → Prop} {S : Run → Run → Prop}
    (hR : ∀ m n r r', S r r' → R (r.token m) (r'.token n)) {rs : List Run} (h : rs.Pairwise S)
    (position : Nat) : (tokens position rs).Pairwise R := by
  induction h generalizing position with
  | nil => exact .nil
  | cons hfirst _ ih =>
    refine .cons (fun token htoken => ?_) (ih _)
    obtain ⟨i, r, hr, rfl⟩ := exists_of_mem_tokens htoken
    exact hR _ _ _ _ (hfirst r hr)

end Run

/-! ### Tokens -/

namespace Token

/-- A token is that of what stands between its offsets. -/
structure Marks (token : Token) (t : Text) : Prop where
  lt : token.start < token.stop
  le : token.stop ≤ t.length
  term : token.term = (t.slice token.start token.stop).lower

/-- A part of a dotted identifier: it is no compound, and stands within the span of the whole. -/
def IsPartOf (part whole : Token) : Prop :=
  part.compound = false ∧ whole.start ≤ part.start ∧ part.stop ≤ whole.stop

instance (part whole : Token) : Decidable (part.IsPartOf whole) :=
  inferInstanceAs (Decidable (_ ∧ _))

/-- A token comes before another one: it ends before that begins, or it is a part of it. -/
def Precedes (a b : Token) : Prop := a.stop ≤ b.start ∨ b.compound = true ∧ a.IsPartOf b

/-- A token comes after another one: it begins behind it, or it is a compound that ends behind where
the other one begins. -/
def Follows (a b : Token) : Prop := a.stop ≤ b.start ∨ b.compound = true ∧ a.start < b.stop

theorem marks_of_standsAt {t piece : Text} {offset : Nat} (h : t.StandsAt piece offset)
    (hne : piece ≠ []) {token : Token} (hstart : token.start = offset)
    (hstop : token.stop = offset + piece.length) (hterm : token.term = piece.lower) :
    token.Marks t where
  lt := by rw [hstart, hstop]; exact Nat.lt_add_of_pos_right (List.length_pos_iff.2 hne)
  le := by rw [hstop]; exact h.le_length
  term := by rw [hstart, hstop, h.slice_eq, hterm]

end Token

namespace Word

variable {w : Word} (hne : w.parts ≠ []) (hruns : ∀ part ∈ w.parts, IsRun part)
include hne hruns

theorem text_ne_nil : w.text ≠ [] := by
  obtain ⟨part, parts, hparts⟩ := List.exists_cons_of_ne_nil hne
  have hmem : part ∈ w.parts := hparts ▸ List.mem_cons_self
  intro hnil
  have hinside : part <:+: Text.join [dot] w.parts := Text.infix_join hmem
  rw [show Text.join [dot] w.parts = [] from hnil, List.infix_nil] at hinside
  exact (hruns part hmem).1 hinside

/-- The tokens of a word are those of pieces of it. -/
theorem stands_of_mem_tokens {position : Nat} {token : Token} (h : token ∈ w.tokens position) :
    ∃ (piece : Text) (i : Nat), piece ≠ [] ∧ w.text.StandsAt piece i ∧ token.start = w.start + i ∧
      token.stop = w.start + i + piece.length ∧ token.term = piece.lower := by
  rw [tokens, Run.partTokens_eq] at h
  rcases List.mem_append.1 h with h | h
  · obtain ⟨n, r, hr, rfl⟩ := Run.exists_of_mem_tokens h
    obtain ⟨hmem, i, hstart, hstands⟩ := Run.stands_of_mem_spaced hr
    exact ⟨r.text, i, (hruns r.text hmem).1, hstands, hstart,
      congrArg (· + r.text.length) hstart, rfl⟩
  · split at h
    · cases h
    · rw [List.mem_singleton.1 h]
      exact ⟨w.text, 0, text_ne_nil hne hruns, by simpa using Text.StandsAt.head w.text [],
        rfl, rfl, rfl⟩

/-- The tokens of a word stand within it. -/
theorem within_of_mem_tokens {position : Nat} {token : Token} (h : token ∈ w.tokens position) :
    w.start ≤ token.start ∧ token.start < token.stop ∧ token.stop ≤ w.stop := by
  obtain ⟨piece, i, hpiece, hstands, hstart, hstop, -⟩ := stands_of_mem_tokens hne hruns h
  have hlength := List.length_pos_iff.2 hpiece
  have hle := hstands.le_length
  rw [stop]
  omega

theorem pairwise_precedes_tokens (position : Nat) :
    (w.tokens position).Pairwise Token.Precedes := by
  have hwithin : ∀ token ∈ w.tokens position, _ := fun _ => within_of_mem_tokens hne hruns
  rw [tokens] at hwithin ⊢
  refine List.pairwise_append.2 ⟨?_, ?_, fun a ha b hb => ?_⟩
  · rw [Run.partTokens_eq]
    exact Run.pairwise_tokens (fun _ _ _ _ => .inl) (Run.pairwise_spaced w.start w.parts) position
  · split
    · exact .nil
    · exact List.pairwise_singleton _ _
  · obtain ⟨hstart, -, hstop⟩ := hwithin a (List.mem_append_left _ ha)
    split at hb
    · cases hb
    · rw [List.mem_singleton.1 hb]
      exact .inr ⟨rfl, (mem_partTokens ha).1, hstart, hstop⟩

end Word

theorem Word.pairwise_precedes_tokensFrom (position : Nat) {ws : List Word}
    (h : ∀ w ∈ ws, w.parts ≠ [] ∧ ∀ part ∈ w.parts, IsRun part)
    (hbehind : ws.Pairwise fun w w' => w.stop ≤ w'.start) :
    (tokensFrom position ws).Pairwise Token.Precedes := by
  induction hbehind generalizing position with
  | nil => exact .nil
  | @cons w ws hw _ ih =>
    obtain ⟨⟨hne, hruns⟩, hrest⟩ := List.forall_mem_cons.1 h
    refine List.pairwise_append.2
      ⟨pairwise_precedes_tokens hne hruns position, ih _ hrest, fun a ha b hb => ?_⟩
    obtain ⟨w', hw', first, hb⟩ := mem_tokensFrom hb
    obtain ⟨hne', hruns'⟩ := hrest w' hw'
    have hstop := (within_of_mem_tokens hne hruns ha).2.2
    have hstart := (within_of_mem_tokens hne' hruns' hb).1
    exact .inl ((hstop.trans (hw w' hw')).trans hstart)

namespace Text

theorem stands_of_mem_words {t : Text} {w : Word} (h : w ∈ t.words) :
    t.StandsAt w.text w.start := by
  obtain ⟨i, hstart, hstands⟩ := Word.stands_of_mem_scan h
  rw [hstart, Nat.zero_add]
  rwa [ofPoints_points] at hstands

theorem marks_of_mem_tokens {t : Text} {token : Token} (h : token ∈ t.tokens) : token.Marks t := by
  obtain ⟨w, hw, first, htoken⟩ := Word.mem_tokensFrom h
  obtain ⟨hne, hruns⟩ := isRun_of_mem_words hw
  obtain ⟨piece, i, hpiece, hstands, hstart, hstop, hterm⟩ :=
    Word.stands_of_mem_tokens hne hruns htoken
  exact Token.marks_of_standsAt ((stands_of_mem_words hw).trans hstands) hpiece hstart hstop hterm

/-- In the order that tokens have, each comes before the next. -/
theorem pairwise_precedes (t : Text) : t.tokens.Pairwise Token.Precedes :=
  Word.pairwise_precedes_tokensFrom 0 (fun _ => isRun_of_mem_words) (Word.pairwise_scan 0 t.points)

/-- Tokens follow one another in the order that they have. -/
theorem pairwise_follows (t : Text) : t.tokens.Pairwise Token.Follows := by
  refine List.Pairwise.imp_of_mem (fun {a b} ha _ hprecedes => ?_) t.pairwise_precedes
  exact hprecedes.imp_right fun ⟨hcompound, hpart⟩ =>
    ⟨hcompound, Nat.lt_of_lt_of_le (marks_of_mem_tokens ha).lt hpart.2.2⟩

end Text
end Quarry
