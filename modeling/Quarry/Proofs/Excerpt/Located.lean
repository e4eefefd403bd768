import Mathlib.Data.List.Pairwise
import Quarry.Proofs.Excerpt.Spans

/-! Which tokens of a text are located. All of the wanted ones are, but for a compound that has a
wanted part. A compound is told from its parts by its place among the tokens: only its own parts
come before it and reach into its span. -/

namespace Quarry

namespace Token

/-- A token counts among some tokens when its term is wanted and, if it is a compound, that of none
of its parts is. -/
def Counts (wanted : List Term) (tokens : List Token) (token : Token) : Prop :=
  token.term ∈ wanted ∧ (token.compound = true → ∀ part ∈ tokens, part.IsPartOf token →
    part.term ∉ wanted)

variable {a b : Token}

theorem Precedes.not_isPartOf (h : a.Precedes b) (hlt : b.start < b.stop) : ¬b.IsPartOf a := by
  rintro ⟨hpart, -, hstop⟩
  rcases h with hbehind | ⟨hcompound, -⟩
  · omega
  · exact absurd (hpart.symm.trans hcompound) Bool.false_ne_true

/-- Of the tokens before it, a token overlaps its parts and no others. -/
theorem Precedes.overlaps_iff (h : a.Precedes b) (hlt : a.start < a.stop) :
    (Span.ofToken a).overlaps (Span.ofToken b) = true ↔ a.IsPartOf b := by
  rw [Span.overlaps_iff, Span.ofToken, Span.ofToken, Int.ofNat_lt, Int.ofNat_lt]
  constructor
  · rintro ⟨-, hbehind⟩
    exact (h.resolve_left (by omega)).2
  · rintro ⟨-, hstart, hstop⟩
    omega

end Token

namespace Span

variable {wanted : List Term} {done rest : List Token} {found : List Span}

/-- What is found of the tokens that were gone through are the spans of those that count
among them. -/
def Finds (wanted : List Term) (done : List Token) (found : List Span) : Prop :=
  ∀ s, s ∈ found ↔ ∃ token ∈ done, token.Counts wanted done ∧ s = ofToken token

section

variable {token : Token} (precedes : ∀ earlier ∈ done, earlier.Precedes token)
  (lt : ∀ earlier ∈ done, earlier.start < earlier.stop)
include precedes lt

/-- A span that was found overlaps a token exactly if a part of it is wanted. -/
theorem Finds.any_overlaps_iff (finds : Finds wanted done found) :
    (found.any (overlaps · (ofToken token))) = true ↔
      ∃ part ∈ done, part.IsPartOf token ∧ part.term ∈ wanted := by
  rw [List.any_eq_true]
  constructor
  · rintro ⟨_, hs, hoverlaps⟩
    obtain ⟨part, hpart, hcounts, rfl⟩ := (finds _).1 hs
    exact ⟨part, hpart, ((precedes part hpart).overlaps_iff (lt part hpart)).1 hoverlaps, hcounts.1⟩
  · rintro ⟨part, hpart, hpartOf, hwanted⟩
    have hcounts : part.Counts wanted done :=
      ⟨hwanted, fun hcompound => absurd (hpartOf.1.symm.trans hcompound) Bool.false_ne_true⟩
    exact ⟨_, (finds _).2 ⟨part, hpart, hcounts, rfl⟩,
      ((precedes part hpart).overlaps_iff (lt part hpart)).2 hpartOf⟩

/-- One more token: its span is found if it counts, and those before it count as they did. -/
theorem Finds.step (finds : Finds wanted done found) (hlt : token.start < token.stop) :
    Finds wanted (done ++ [token])
      (if !wanted.contains token.term ||
        token.compound && found.any (overlaps · (ofToken token)) then found
      else ofToken token :: found) := by
  have hself : ¬(token.compound = true ∧ token.IsPartOf token) :=
    fun h => absurd (h.2.1.symm.trans h.1) Bool.false_ne_true
  have hskip : (!wanted.contains token.term ||
      token.compound && found.any (overlaps · (ofToken token))) = true ↔
        ¬token.Counts wanted (done ++ [token]) := by
    rw [Bool.or_eq_true, Bool.and_eq_true, finds.any_overlaps_iff precedes lt, Token.Counts]
    simp only [Bool.not_eq_true', List.contains_eq_mem, decide_eq_false_iff_not, List.mem_append,
      List.mem_singleton]
    grind
  have hearlier : ∀ earlier ∈ done,
      (earlier.Counts wanted (done ++ [token]) ↔ earlier.Counts wanted done) := by
    intro earlier hmem
    have hnot := (precedes earlier hmem).not_isPartOf hlt
    simp only [Token.Counts, List.mem_append, List.mem_singleton]
    grind
  intro s
  have hall :
      (∃ token' ∈ done ++ [token], token'.Counts wanted (done ++ [token]) ∧ s = ofToken token') ↔
      s ∈ found ∨ token.Counts wanted (done ++ [token]) ∧ s = ofToken token := by
    rw [finds s]
    simp only [List.mem_append, List.mem_singleton, or_and_right, exists_or, exists_eq_left]
    exact or_congr_left (exists_congr fun earlier => and_congr_right fun hmem =>
      and_congr_left' (hearlier earlier hmem))
  rw [hall]
  split
  · rename_i hcondition
    rw [or_iff_left fun h => hskip.1 hcondition h.1]
  · rename_i hcondition
    rw [and_iff_right (not_not.1 (mt hskip.2 hcondition)), List.mem_cons, or_comm]

end

/-- Going through tokens, each of which comes before the next, finds those that count among all
of them. -/
theorem Finds.ofTokens (finds : Finds wanted done found)
    (precedes : (done ++ rest).Pairwise Token.Precedes)
    (lt : ∀ token ∈ done ++ rest, token.start < token.stop) :
    Finds wanted (done ++ rest) (ofTokens wanted.contains found rest) := by
  induction rest generalizing done found with
  | nil =>
    rw [List.append_nil]
    exact fun s => List.mem_reverse.trans (finds s)
  | cons token rest ih =>
    have hbefore : ∀ earlier ∈ done, earlier.Precedes token := fun earlier hmem =>
      (List.pairwise_append.1 precedes).2.2 earlier hmem token List.mem_cons_self
    have hstep := finds.step hbefore (fun earlier hmem => lt earlier (List.mem_append_left _ hmem))
      (lt token (List.mem_append_right _ List.mem_cons_self))
    rw [List.append_cons] at precedes lt ⊢
    have hfinds := ih hstep precedes lt
    rw [Span.ofTokens]
    split
    · rwa [if_pos ‹_›] at hfinds
    · rwa [if_neg ‹_›] at hfinds

end Span

namespace Text

variable (t : Text) (wanted : List Term)

/-- What is located are the spans of the tokens that count. -/
theorem finds_locate : Span.Finds wanted t.tokens (t.locate wanted) := by
  have hempty : Span.Finds wanted [] [] := by simp [Span.Finds]
  rw [locate_eq]
  exact hempty.ofTokens t.pairwise_precedes fun _ htoken => (marks_of_mem_tokens htoken).lt

variable {t wanted}

/-- Tokens are told apart by their spans. -/
theorem eq_of_ofToken_eq {a b : Token} (ha : a ∈ t.tokens) (hb : b ∈ t.tokens)
    (heq : Span.ofToken a = Span.ofToken b) : a = b := by
  have hstart : a.start = b.start := Int.ofNat_inj.1 (congrArg Span.start heq)
  have hstop : a.stop = b.stop := Int.ofNat_inj.1 (congrArg Span.stop heq)
  have hcompound : a.compound = true ↔ b.compound = true := by
    rw [compound_iff ha, compound_iff hb, (marks_of_mem_tokens ha).term,
      (marks_of_mem_tokens hb).term, hstart, hstop]
  have hlt := (marks_of_mem_tokens ha).lt
  have heither : t.tokens.Pairwise fun a b => a.Precedes b ∨ b.Precedes a :=
    t.pairwise_precedes.imp .inl
  have : Std.Symm fun a b : Token => a.Precedes b ∨ b.Precedes a := ⟨fun _ _ => Or.symm⟩
  by_contra hne
  rcases heither.forall ha hb hne with
    (hbehind | ⟨hwhole, hpart, -⟩) | (hbehind | ⟨hwhole, hpart, -⟩)
  · omega
  · exact absurd (hpart.symm.trans (hcompound.2 hwhole)) Bool.false_ne_true
  · omega
  · exact absurd (hpart.symm.trans (hcompound.1 hwhole)) Bool.false_ne_true

theorem mem_locate_iff {token : Token} (htoken : token ∈ t.tokens) :
    Span.ofToken token ∈ t.locate wanted ↔ token.Counts wanted t.tokens := by
  rw [finds_locate t wanted]
  constructor
  · rintro ⟨token', htoken', hcounts, heq⟩
    rwa [eq_of_ofToken_eq htoken htoken' heq]
  · exact fun hcounts => ⟨token, htoken, hcounts, rfl⟩

/-- What is located in a text are spans in order, none of them empty and none reaching into the
next. Each is that of a token whose term is wanted; every run whose term is wanted is there, and a
compound whose term is wanted is there exactly if none of its parts is wanted. Nothing is merged to
come to this. -/
theorem locate_exact (t : Text) (wanted : List Term) :
    Span.Apart (t.locate wanted) ∧ (∀ s ∈ t.locate wanted, s.start < s.stop) ∧
      (∀ s ∈ t.locate wanted, ∃ token ∈ t.tokens, token.term ∈ wanted ∧ s = Span.ofToken token) ∧
      (∀ token ∈ t.tokens, token.compound = false → token.term ∈ wanted →
        Span.ofToken token ∈ t.locate wanted) ∧
      (∀ token ∈ t.tokens, token.compound = true → token.term ∈ wanted →
        (Span.ofToken token ∈ t.locate wanted ↔
          ∀ part ∈ t.tokens, part.IsPartOf token → part.term ∉ wanted)) ∧
      t.locate wanted = Span.ofTokens wanted.contains [] t.tokens := by
  refine ⟨?_, fun s hs => ?_, fun s hs => ?_, fun token htoken hrun hwanted => ?_,
    fun token htoken hcompound hwanted => ?_, t.locate_eq wanted⟩
  · rw [locate_eq]
    exact t.apart_ofTokens wanted
  · rw [locate_eq] at hs
    exact (t.within_ofTokens wanted s hs).lt
  · obtain ⟨token, htoken, hcounts, rfl⟩ := (finds_locate t wanted s).1 hs
    exact ⟨token, htoken, hcounts.1, rfl⟩
  · rw [mem_locate_iff htoken]
    exact ⟨hwanted, fun hcompound => absurd (hrun.symm.trans hcompound) Bool.false_ne_true⟩
  · rw [mem_locate_iff htoken, Token.Counts, and_iff_right hwanted, imp_iff_right hcompound]

/-- In `a.b c.d` the term `a` stands for the first compound, which is wanted too, and the second
compound stands for itself. -/
theorem locate_exact_dotted :
    let t : Text := "a.b c.d"
    let wanted : List Term := ["c.d", "a.b", "a"]
    ⟨0, 1⟩ ∈ t.locate wanted ∧ ⟨0, 3⟩ ∉ t.locate wanted ∧ ⟨4, 7⟩ ∈ t.locate wanted := by
  intro t wanted
  obtain ⟨-, -, -, runs, compounds, -⟩ := locate_exact t wanted
  have hsecond : ∀ part ∈ t.tokens, part.IsPartOf ⟨"c.d", 2, 4, 7, true⟩ → part.term ∉ wanted := by
    decide +kernel
  have hfirst := compounds ⟨"a.b", 0, 0, 3, true⟩ (by decide +kernel) rfl (by decide +kernel)
  refine ⟨runs ⟨"a", 0, 0, 1, false⟩ (by decide +kernel) rfl (by decide +kernel), fun hmem => ?_,
    (compounds ⟨"c.d", 2, 4, 7, true⟩ (by decide +kernel) rfl (by decide +kernel)).2 hsecond⟩
  exact hfirst.1 hmem ⟨"a", 0, 0, 1, false⟩ (by decide +kernel) ⟨rfl, by decide, by decide⟩
    (by decide +kernel)

end Text
end Quarry
