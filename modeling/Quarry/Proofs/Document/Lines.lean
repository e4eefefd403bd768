import Quarry.Proofs.Document
import Quarry.Proofs.Json.Written
import Quarry.Proofs.Text.Blanks

/-! Documents on lines. A text has its lines in exactly one way, and each of them is taken by
itself: a blank one holds nothing, and any other a document or an error, which are listed in the
order of the lines. A document that is written stands on one line, from which it is read back
as it was. -/

namespace Quarry

namespace Lines

/-! ### The lines of a text -/

/-- The lines of a text, in order. Each but the last is ended by a line feed, or by a carriage
return and a line feed, and what ends it is not part of it. -/
inductive Parted : List Text → Text → Prop where
  | last {line : Text} (whole : 10 ∉ line) : Parted [line] line
  | fed {line : Text} {lines : List Text} {rest : Text} (whole : 10 ∉ line)
      (bare : line.getLast? ≠ some 13)
      (next : Parted lines rest) : Parted (line :: lines) (line ++ 10 :: rest)
  | returned {line : Text} {lines : List Text} {rest : Text} (whole : 10 ∉ line)
      (next : Parted lines rest) :
      Parted (line :: lines) (line ++ 13 :: 10 :: rest)

/-- A unit in front of the first line belongs to it, unless it ends a line of its own. -/
theorem Parted.cons {line : Text} {lines : List Text} {t : Text} (h : Parted (line :: lines) t)
    {u : UInt16} (hfeed : u ≠ 10) (hreturn : ∀ rest, u = 13 → t ≠ 10 :: rest) :
    Parted ((u :: line) :: lines) (u :: t) := by
  have hwhole : 10 ∉ line → 10 ∉ u :: line :=
    fun h hmem => (List.mem_cons.1 hmem).elim (hfeed ·.symm) h
  cases h with
  | last whole => exact .last (hwhole whole)
  | fed whole bare next =>
    refine .fed (hwhole whole) (fun hlast => ?_) next
    cases line with
    | nil => exact hreturn _ (by simpa using hlast) rfl
    | cons v line => exact bare (by rwa [List.getLast?_cons_cons] at hlast)
  | returned whole next => exact .returned (hwhole whole) next

theorem parted_split (t : Text) : Parted (split t) t := by
  fun_induction split t with
  | case1 => exact .last (by simp)
  | case2 rest ih => exact .returned (by simp) ih
  | case3 rest ih => exact .fed (by simp) (by simp) ih
  | case4 u rest hreturn hfeed line lines hsplit ih =>
    rw [hsplit] at ih
    exact ih.cons hfeed fun more hu hrest => hreturn more hu hrest
  | case5 u rest _ _ hsplit ih =>
    rw [hsplit] at ih
    cases ih

/-- What holds no line feed stands in front of the first line of what follows. -/
theorem split_append {line t first : Text} {more : List Text} (whole : 10 ∉ line)
    (bare : ∀ rest, t = 10 :: rest → line.getLast? ≠ some 13) (h : split t = first :: more) :
    split (line ++ t) = (line ++ first) :: more := by
  induction line with
  | nil => exact h
  | cons u line ih =>
    have hu : u ≠ 10 := fun heq => whole (heq ▸ List.mem_cons_self)
    have hwhole : 10 ∉ line := fun hmem => whole (List.mem_cons_of_mem u hmem)
    have hreturn : ∀ rest, u = 13 → line ++ t = 10 :: rest → False := by
      intro rest hu heq
      cases line with
      | nil => exact bare rest heq (by rw [hu]; rfl)
      | cons v line => exact hwhole ((List.cons.inj heq).1 ▸ List.mem_cons_self)
    have hbare : ∀ rest, t = 10 :: rest → line.getLast? ≠ some 13 := by
      intro rest heq hlast
      cases line with
      | nil => cases hlast
      | cons v line => exact bare rest heq (by rwa [List.getLast?_cons_cons])
    rw [List.cons_append, split.eq_4 u _ hreturn hu, ih hwhole hbare, List.cons_append]

/-- A text has its lines in one way only. -/
theorem split_eq_iff {t : Text} {lines : List Text} : split t = lines ↔ Parted lines t := by
  refine ⟨fun h => h ▸ parted_split t, fun h => ?_⟩
  induction h with
  | @last line whole =>
    have hsplit := split_append whole (t := []) (by simp) rfl
    rwa [List.append_nil] at hsplit
  | @fed line lines rest whole bare next ih =>
    have hsplit := split_append whole (fun _ _ => bare) (split.eq_3 rest)
    rwa [List.append_nil, ih] at hsplit
  | @returned line lines rest whole next ih =>
    have hsplit := split_append whole (by simp) (split.eq_2 rest)
    rwa [List.append_nil, ih] at hsplit

/-! ### What lines hold -/

/-- The document that a line holds. -/
def document? (line : Text) : Option Document :=
  if line.trim.isEmpty then none else (Document.ofLine line).toOption

/-- What is wrong with a line. -/
def fault? (line : Text) : Option LineFault :=
  if line.trim.isEmpty then none
  else match Document.ofLine line with
    | .ok _ => none
    | .error fault => some fault

def Blank (line : Text) : Prop := ∀ u ∈ line, Text.isBlank u = true

instance (line : Text) : Decidable (Blank line) :=
  decidable_of_iff (line.all Text.isBlank = true) List.all_eq_true

theorem isEmpty_trim_iff {line : Text} : line.trim.isEmpty = true ↔ Blank line := by
  rw [List.isEmpty_iff, Text.trim_eq_nil_iff, Blank]

/-- A blank line holds nothing, and any other either a document or an error. -/
theorem holds_cases (line : Text) : Blank line ∧ document? line = none ∧ fault? line = none ∨
    ¬Blank line ∧ ((∃ d, document? line = some d ∧ fault? line = none) ∨
      ∃ fault, document? line = none ∧ fault? line = some fault) := by
  rw [document?, fault?, ← isEmpty_trim_iff]
  cases line.trim.isEmpty with
  | true => exact .inl ⟨rfl, rfl, rfl⟩
  | false =>
    refine .inr ⟨by decide, ?_⟩
    cases Document.ofLine line with
    | ok d => exact .inl ⟨d, rfl, rfl⟩
    | error fault => exact .inr ⟨fault, rfl, rfl⟩

theorem addLine_eq (number : Nat) (line : Text) (lines : Lines) : addLine number line lines =
    ⟨(document? line).toList ++ lines.documents,
      ((fault? line).map (LineError.mk number)).toList ++ lines.errors⟩ := by
  rw [addLine, document?, fault?]
  split
  · rfl
  · cases Document.ofLine line <;> rfl

/-- Lines hold what each of them holds, in their order, and errors have the numbers of
their lines. -/
theorem ofLines_eq (number : Nat) (lines : List Text) : ofLines number lines =
    ⟨lines.filterMap document?,
      (lines.zipIdx number).filterMap fun (line, n) => (fault? line).map (LineError.mk n)⟩ := by
  induction lines generalizing number with
  | nil => rfl
  | cons line rest ih =>
    rw [ofLines, addLine_eq, ih, List.zipIdx_cons]
    simp only [List.filterMap_cons]
    cases document? line <;> cases fault? line <;> rfl

/-- There are as many documents and errors as there are lines that are not blank. -/
theorem length_ofLines (number : Nat) (lines : List Text) :
    (ofLines number lines).documents.length + (ofLines number lines).errors.length =
      lines.countP fun line => !decide (Blank line) := by
  induction lines generalizing number with
  | nil => rfl
  | cons line rest ih =>
    rw [ofLines, addLine_eq, List.countP_cons, ← ih (number + 1)]
    rcases holds_cases line with ⟨hblank, hd, hf⟩ | ⟨hblank, ⟨d, hd, hf⟩ | ⟨fault, hd, hf⟩⟩ <;>
      simp [hblank, hd, hf] <;> omega

/-! ### Lines with documents on them -/

/-- A document stands on a line as an object of its parts, in any order. -/
def StandsOn (d : Document) (line : Text) : Prop :=
  ∃ ms : List (Text × Json), ms.Perm d.members ∧ line = (Json.object ms).write

/-- Documents on lines of their own, in their order, among any number of blank lines. -/
inductive Listing : List Document → List Text → Prop where
  | nil : Listing [] []
  | blank {line : Text} {docs : List Document} {lines : List Text} (blank : Blank line)
    (whole : 10 ∉ line) (rest : Listing docs lines) : Listing docs (line :: lines)
  | document {d : Document} {line : Text} {docs : List Document} {lines : List Text}
    (valid : d.Valid)
    (stands : StandsOn d line) (rest : Listing docs lines) : Listing (d :: docs) (line :: lines)

/-- Lines put together, a line feed between neighbours, with or without a carriage return
before it. -/
inductive Joined : List Text → Text → Prop where
  | last (line : Text) : Joined [line] line
  | fed (line : Text) {lines : List Text} {rest : Text} (next : Joined lines rest) :
    Joined (line :: lines) (line ++ 10 :: rest)
  | returned (line : Text) {lines : List Text} {rest : Text} (next : Joined lines rest) :
    Joined (line :: lines) (line ++ 13 :: 10 :: rest)

/-- What a line that is listed has that splitting asks for. -/
theorem Listing.whole {docs : List Document} {lines : List Text} (h : Listing docs lines) :
    ∀ line ∈ lines, 10 ∉ line := by
  induction h with
  | nil => simp
  | blank _ whole _ ih => exact List.forall_mem_cons.2 ⟨whole, ih⟩
  | document valid stands _ ih =>
    obtain ⟨ms, perm, rfl⟩ := stands
    refine List.forall_mem_cons.2 ⟨fun hmem => ?_, ih⟩
    exact absurd ((Document.plain_of_perm perm valid.ordered).ge_write 10 hmem) (by decide)

/-- A document is read from the line that it stands on. -/
theorem StandsOn.holds {d : Document} {line : Text} (h : StandsOn d line) (valid : d.Valid) :
    document? line = some d ∧ fault? line = none := by
  obtain ⟨ms, perm, rfl⟩ := h
  have hread := Json.read?_write (Document.plain_of_perm perm valid.ordered)
  have hfields : d.fields.filter (·.1 != Json.reservedName) = d.fields :=
    List.filter_eq_self.2 fun m hm => by simpa using valid.unreserved m hm
  have hline : Document.ofLine (Json.object ms).write = .ok d := by
    simp only [Document.ofLine, hread, Document.check_of_perm perm valid.named, hfields]
  have hblank : (Json.object ms).write.trim.isEmpty = false := by
    rw [Bool.eq_false_iff, Ne, isEmpty_trim_iff]
    exact fun h => absurd (h 123 List.mem_cons_self) (by decide)
  rw [document?, fault?, hblank, hline]
  exact ⟨rfl, rfl⟩

/-- Lines that are joined are split again, up to a carriage return in front of a line feed. -/
theorem split_fed {line : Text} (whole : 10 ∉ line) (rest : Text) :
    split (line ++ 10 :: rest) = line :: split rest ∨
      ∃ kept, line = kept ++ [13] ∧ split (line ++ 10 :: rest) = kept :: split rest := by
  by_cases hlast : line.getLast? = some 13
  · obtain ⟨kept, rfl⟩ := List.getLast?_eq_some_iff.1 hlast
    refine .inr ⟨kept, rfl, ?_⟩
    rw [List.append_assoc]
    exact split_eq_iff.2 (.returned (fun hmem => whole (List.mem_append_left _ hmem))
      (parted_split rest))
  · exact .inl (split_eq_iff.2 (.fed whole hlast (parted_split rest)))

/-- Documents on lines that were joined are found on the lines of the text. -/
theorem Listing.split {docs : List Document} {lines : List Text} (h : Listing docs lines) {t : Text}
    (joined : Joined lines t) : Listing docs (split t) := by
  induction joined generalizing docs with
  | last line =>
    rwa [split_eq_iff.2 (.last (h.whole line List.mem_cons_self))]
  | @fed line lines rest next ih =>
    rcases split_fed (h.whole line List.mem_cons_self) rest with hsplit | ⟨kept, hline, hsplit⟩
    · rw [hsplit]
      cases h with
      | blank blank whole listed => exact .blank blank whole (ih listed)
      | document valid stands listed => exact .document valid stands (ih listed)
    · rw [hsplit]
      cases h with
      | blank blank whole listed =>
        subst hline
        exact .blank (fun u hu => blank u (List.mem_append_left _ hu))
          (fun hmem => whole (List.mem_append_left _ hmem)) (ih listed)
      | document valid stands listed =>
        -- The last unit of an object is its closing bracket.
        obtain ⟨ms, -, rfl⟩ := stands
        rw [Json.write, ← List.cons_append] at hline
        exact absurd (List.append_inj_right' hline rfl) (by decide)
  | @returned line lines rest next ih =>
    rw [split_eq_iff.2 (.returned (h.whole line List.mem_cons_self) (parted_split rest))]
    cases h with
    | blank blank whole listed => exact .blank blank whole (ih listed)
    | document valid stands listed => exact .document valid stands (ih listed)

theorem Listing.ofLines_eq {docs : List Document} {lines : List Text} (h : Listing docs lines)
    (number : Nat) :
    ofLines number lines = ⟨docs, []⟩ := by
  induction h generalizing number with
  | nil => rfl
  | @blank line docs lines blank _ _ ih =>
    rw [ofLines, ih, addLine, if_pos (isEmpty_trim_iff.2 blank)]
  | @document d line docs lines valid stands _ ih =>
    obtain ⟨hdocument, hfault⟩ := stands.holds valid
    rw [ofLines, ih, addLine_eq, hdocument, hfault]
    rfl

/-- Documents that are written on lines are all read back, in order and without errors. A text of
any kind has its lines in one way, and each of them gives by itself, in order, nothing if it is
blank, and else either a document or an error with its number. -/
theorem ofText_lossless (content : Text) :
    (∀ docs lines, Listing docs lines → Joined lines content → ofText content = ⟨docs, []⟩) ∧
    ∃ lines, (∀ lines', Parted lines' content ↔ lines' = lines) ∧
      ofText content = ⟨lines.filterMap document?,
        (lines.zipIdx 1).filterMap fun (line, n) => (fault? line).map (LineError.mk n)⟩ ∧
      (ofText content).documents.length + (ofText content).errors.length =
        lines.countP (fun line => !decide (Blank line)) ∧
      ∀ line ∈ lines, Blank line ∧ document? line = none ∧ fault? line = none ∨
        ¬Blank line ∧ ((∃ d, document? line = some d ∧ fault? line = none) ∨
          ∃ fault, document? line = none ∧ fault? line = some fault) := by
  refine ⟨fun docs lines listing joined => (listing.split joined).ofLines_eq 1, split content,
    fun lines' => ?_, Lines.ofLines_eq 1 (split content), length_ofLines 1 (split content),
      fun line _ => holds_cases line⟩
  rw [← split_eq_iff, eq_comm]

/-- Two documents are read from lines that are ended in both ways, with a line of blanks
between them. -/
theorem ofText_lossless_surrogate :
    let d : Document := ⟨Text.ofChars ['a'], [0xD800, 10, 13, 34], []⟩
    let d' : Document :=
      ⟨Text.ofChars ['b'], [], [(Text.ofChars ['1'], [0x2028]), (Text.ofChars ['k'], [])]⟩
    ofText (d.toJson.write ++ 13 :: 10 :: ([9, 32, 13] ++ 10 :: d'.toJson.write)) =
      ⟨[d, d'], []⟩ := by
  intro d d'
  have hd : d.Valid := ⟨by decide, by decide, by decide⟩
  have hd' : d'.Valid := ⟨by decide, by decide, by decide⟩
  have hlisting : Listing [d, d'] [d.toJson.write, [9, 32, 13], d'.toJson.write] :=
    .document hd ⟨_, .refl _, rfl⟩
      (.blank (by decide) (by decide) (.document hd' ⟨_, .refl _, rfl⟩ .nil))
  exact (ofText_lossless _).1 _ _ hlisting (.returned _ (.fed _ (.last _)))

end Lines
end Quarry
