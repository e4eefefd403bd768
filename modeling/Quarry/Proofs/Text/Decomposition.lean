import Mathlib.Data.List.Chain
import Mathlib.Data.List.Nodup
import Quarry.Proofs.Text.Places

/-! The tokens of a text, told from what stands in it. The tokens that are no compounds are those of
the maximal runs of word characters, and there is a compound for each sequence of two or more runs
that single full stops join and that goes no further on either side. Both are said without a scan of
the text, so that they hold whatever way it is scanned. -/

namespace Quarry

/-! ### Maximal runs -/

namespace Text

theorem ofPoints_eq_nil_iff {ps : List Point} : ofPoints ps = [] ↔ ps = [] := by
  cases ps with
  | nil => simp [ofPoints]
  | cons p ps => cases p <;> simp [ofPoints, Point.units]

/-- The points up to an offset are told by the offset. -/
theorem eq_of_length_ofPoints {ps qs rs ss : List Point} (h : ps ++ rs = qs ++ ss)
    (hlength : (ofPoints ps).length = (ofPoints qs).length) : ps = qs := by
  rcases List.append_eq_append_iff.1 h with ⟨more, rfl, -⟩ | ⟨more, rfl, -⟩
  all_goals
    have hmore : ofPoints more = [] := by
      rw [ofPoints_append, List.length_append] at hlength
      exact List.length_eq_zero_iff.1 (by omega)
    rw [ofPoints_eq_nil_iff.1 hmore, List.append_nil]

end Text

namespace Run

/-- A maximal run among the points of a text from `offset` on: it holds word characters only, and
there is none right before it or right behind it. -/
def Maximal (offset : Nat) (ps : List Point) (r : Run) : Prop :=
  ∃ before inside after : List Point, ps = before ++ inside ++ after ∧
    r = ⟨offset + (Text.ofPoints before).length, Text.ofPoints inside⟩ ∧ inside ≠ [] ∧
    (∀ p ∈ inside, p.isWord = true) ∧ (∀ p ∈ before.getLast?, p.isWord = false) ∧
    ∀ p ∈ after.head?, p.isWord = false

/-- A character that belongs to no word is passed over. -/
theorem maximal_cons_iff {p : Point} (hp : p.isWord = false) {offset : Nat} {rest : List Point}
    {r : Run} :
    Maximal offset (p :: rest) r ↔ Maximal (offset + p.width) rest r := by
  have hstart : ∀ before : List Point, offset + (Text.ofPoints (p :: before)).length =
      offset + p.width + (Text.ofPoints before).length := by
    intro before
    rw [show Text.ofPoints (p :: before) = p.units ++ Text.ofPoints before from rfl,
      List.length_append, p.length_units, Nat.add_assoc]
  constructor
  · rintro ⟨before, inside, after, hsplit, rfl, hne, hinside, hbefore, hafter⟩
    cases before with
    | nil =>
      obtain ⟨q, inside, rfl⟩ := List.exists_cons_of_ne_nil hne
      obtain ⟨rfl, -⟩ := List.cons.inj hsplit
      exact absurd (hp.symm.trans (hinside p List.mem_cons_self)) Bool.false_ne_true
    | cons q before =>
      obtain ⟨rfl, hrest⟩ := List.cons.inj hsplit
      refine ⟨before, inside, after, hrest, by rw [hstart], hne, hinside, fun x hx => ?_, hafter⟩
      refine hbefore x ?_
      rw [List.getLast?_cons, Option.mem_def.1 hx]
      rfl
  · rintro ⟨before, inside, after, rfl, rfl, hne, hinside, hbefore, hafter⟩
    refine ⟨p :: before, inside, after, rfl, by rw [hstart], hne, hinside, fun x hx => ?_, hafter⟩
    rw [List.getLast?_cons, Option.mem_def, Option.some.injEq] at hx
    cases hlast : before.getLast? with
    | none =>
      rw [hlast] at hx
      exact hx ▸ hp
    | some y =>
      rw [hlast] at hx
      exact hx ▸ hbefore y hlast

theorem takeWhile_append_eq {run tail : List Point} (hrun : ∀ p ∈ run, p.isWord = true)
    (htail : ∀ p ∈ tail.head?, p.isWord = false) : (run ++ tail).takeWhile Point.isWord = run := by
  rw [List.takeWhile_append_of_pos hrun]
  cases tail with
  | nil => rw [List.takeWhile_nil, List.append_nil]
  | cons p tail => rw [List.takeWhile_cons_of_neg (by simp [htail p rfl]), List.append_nil]

/-- Word characters up to one that belongs to no word are a run, and the only one that
begins there. -/
theorem maximal_append_iff {run tail : List Point} (hne : run ≠ [])
    (hrun : ∀ p ∈ run, p.isWord = true) (htail : ∀ p ∈ tail.head?, p.isWord = false) {offset : Nat}
    {r : Run} :
    Maximal offset (run ++ tail) r ↔
      r = ⟨offset, Text.ofPoints run⟩ ∨ Maximal (offset + (Text.ofPoints run).length) tail r := by
  have hlength : ∀ before : List Point, offset + (Text.ofPoints (run ++ before)).length =
      offset + (Text.ofPoints run).length + (Text.ofPoints before).length := by
    intro before
    rw [Text.ofPoints_append, List.length_append, Nat.add_assoc]
  constructor
  · rintro ⟨before, inside, after, hsplit, rfl, hinsideNe, hinside, hbefore, hafter⟩
    rw [List.append_assoc] at hsplit
    rcases List.append_eq_append_iff.1 hsplit with ⟨more, rfl, rfl⟩ | ⟨more, rfl, hrest⟩
    · refine .inr ⟨more, inside, after, (List.append_assoc ..).symm, by rw [hlength],
        hinsideNe, hinside, fun x hx => hbefore x ?_, hafter⟩
      rw [List.getLast?_append, Option.mem_def.1 hx]
      rfl
    · -- Nothing of the run stands before what is inside, and so the two end together.
      obtain rfl : before = [] := by
        rw [← List.getLast?_eq_none_iff]
        cases hlast : before.getLast? with
        | none => rfl
        | some x =>
          have hword := hrun x (List.mem_append_left _ (List.mem_of_getLast? hlast))
          exact absurd ((hbefore x hlast).symm.trans hword) Bool.false_ne_true
      rw [List.nil_append] at hrun ⊢
      have hsame : inside = more := by
        rw [← takeWhile_append_eq hinside hafter, hrest, takeWhile_append_eq hrun htail]
      exact .inl (by rw [hsame]; rfl)
  · rintro (rfl | ⟨before, inside, after, rfl, rfl, hinsideNe, hinside, hbefore, hafter⟩)
    · exact ⟨[], run, tail, rfl, rfl, hne, hrun, by simp, htail⟩
    · refine ⟨run ++ before, inside, after, by simp only [List.append_assoc],
        by rw [hlength], hinsideNe, hinside, fun x hx => ?_, hafter⟩
      cases before with
      | nil =>
        obtain ⟨q, inside, rfl⟩ := List.exists_cons_of_ne_nil hinsideNe
        exact absurd ((htail q rfl).symm.trans (hinside q List.mem_cons_self)) Bool.false_ne_true
      | cons q before =>
        refine hbefore x ?_
        rwa [List.getLast?_append_of_ne_nil _ (List.cons_ne_nil _ _)] at hx

theorem isWord_head_dropWhile (ps : List Point) :
    ∀ p ∈ (ps.dropWhile Point.isWord).head?, p.isWord = false := by
  intro p hp
  have hhead := List.head?_dropWhile_not Point.isWord ps
  rw [Option.mem_def.1 hp] at hhead
  simpa using hhead

/-- The runs that are found are the maximal ones. -/
theorem mem_scan_iff {offset : Nat} {ps : List Point} {r : Run} :
    r ∈ scan offset ps ↔ Maximal offset ps r := by
  fun_induction scan offset ps with
  | case1 offset =>
    refine iff_of_false List.not_mem_nil ?_
    rintro ⟨before, inside, after, hsplit, -, hne, -⟩
    have hnil := (List.append_eq_nil_iff.1 hsplit.symm).1
    exact hne (List.append_eq_nil_iff.1 hnil).2
  | case2 offset p rest hp first =>
    rename_i ih
    have hfirst : (p :: rest).takeWhile Point.isWord ≠ [] := by
      rw [List.takeWhile_cons_of_pos hp]
      exact List.cons_ne_nil _ _
    rw [List.mem_cons, ih]
    conv_rhs => rw [← List.takeWhile_append_dropWhile (p := Point.isWord) (l := p :: rest)]
    exact (maximal_append_iff hfirst (fun _ => List.mem_takeWhile_imp)
      (isWord_head_dropWhile _)).symm
  | case3 offset p rest hp ih => rw [ih, maximal_cons_iff (by simpa using hp)]

/-- No run begins where a character stands that belongs to no word. -/
theorem Maximal.lt_start {offset : Nat} {ps : List Point} {r : Run} (h : Maximal offset ps r)
    (hhead : ∀ p ∈ ps.head?, p.isWord = false) : offset < r.start := by
  obtain ⟨before, inside, after, rfl, rfl, hne, hinside, -⟩ := h
  have hbefore : before ≠ [] := by
    rintro rfl
    obtain ⟨q, inside, rfl⟩ := List.exists_cons_of_ne_nil hne
    exact absurd ((hhead q rfl).symm.trans (hinside q List.mem_cons_self)) Bool.false_ne_true
  exact Nat.lt_add_of_pos_right (List.length_pos_iff.2 (mt Text.ofPoints_eq_nil_iff.1 hbefore))

/-- Runs come one behind the other, and do not touch. -/
theorem pairwise_scan (offset : Nat) (ps : List Point) :
    (scan offset ps).Pairwise fun r r' => r.stop < r'.start := by
  fun_induction scan offset ps with
  | case1 => exact .nil
  | case2 offset p rest hp first =>
    rename_i ih
    exact .cons (fun r hr => (mem_scan_iff.1 hr).lt_start (isWord_head_dropWhile _)) ih
  | case3 offset p rest hp ih => exact ih

end Run

namespace Text

/-- A maximal run of word characters stands in a text. -/
def HasRun (t : Text) (r : Run) : Prop := Run.Maximal 0 t.points r

theorem mem_runs_iff {t : Text} {r : Run} : r ∈ t.runs ↔ t.HasRun r := Run.mem_scan_iff

theorem pairwise_runs (t : Text) :
    t.runs.Pairwise fun r r' => r.stop < r'.start := Run.pairwise_scan 0 t.points

/-- Runs are told apart by where they begin. -/
theorem HasRun.eq {t : Text} {r r' : Run} (h : t.HasRun r) (h' : t.HasRun r')
    (heq : r.start = r'.start) :
    r = r' := by
  have hstarts : (t.runs.map (·.start)).Nodup := by
    rw [List.nodup_iff_pairwise_ne, List.pairwise_map]
    refine t.pairwise_runs.imp fun {a b} hlt => ?_
    rw [Run.stop] at hlt
    omega
  exact List.inj_on_of_nodup_map hstarts (mem_runs_iff.2 h) (mem_runs_iff.2 h') heq

/-- A full stop, and nothing else, stands between two runs. -/
def Joins (t : Text) (r r' : Run) : Prop := t[r.stop]? = some Word.dot ∧ r'.start = r.stop + 1

/-- Two or more runs that are joined one to the next, the first of them to none before it and the
last of them to none behind it. -/
structure Dotted (t : Text) (rs : List Run) : Prop where
  several : 2 ≤ rs.length
  runs : ∀ r ∈ rs, t.HasRun r
  joined : rs.IsChain t.Joins
  first : ∀ r, t.HasRun r → ∀ s ∈ rs.head?, ¬t.Joins r s
  last : ∀ r, t.HasRun r → ∀ s ∈ rs.getLast?, ¬t.Joins s r

end Text

/-! ### The runs of a word -/

namespace Run

variable {t : Text} {offset : Nat} {parts : List Text}

/-- Runs that stand in a text with full stops between them are joined. -/
theorem isChain_spaced (h : t.StandsAt (Text.join [Word.dot] parts) offset) :
    (spaced offset parts).IsChain t.Joins := by
  induction parts generalizing offset with
  | nil => exact .nil
  | cons part rest ih =>
    cases rest with
    | nil => exact .singleton _
    | cons part' rest =>
      rw [Text.join_cons_cons] at h
      refine .cons_cons ⟨?_, rfl⟩ (ih ?_)
      · obtain ⟨before, after, rfl, rfl⟩ := h
        simp [stop]
      · have hrest := h.trans (.behind (part ++ [Word.dot]) _)
        rwa [List.length_append, List.length_singleton, ← Nat.add_assoc] at hrest

/-- The last of them ends where the whole ends. -/
theorem stop_of_mem_getLast? : ∀ r ∈ (spaced offset parts).getLast?,
    r.stop = offset + (Text.join [Word.dot] parts).length := by
  induction parts generalizing offset with
  | nil => simp [spaced]
  | cons part rest ih =>
    intro r hr
    cases rest with
    | nil =>
      rw [Option.mem_def.1 hr |> Option.some.inj |>.symm]
      simp [stop, Text.join, spaced]
    | cons part' rest =>
      rw [spaced, spaced, List.getLast?_cons_cons] at hr
      rw [ih r hr, Text.join_cons_cons]
      simp only [List.length_append, List.length_singleton]
      omega

end Run

namespace Word

/-- The runs of a word. -/
def runs (w : Word) : List Run := Run.spaced w.start w.parts

end Word

namespace Text

variable {t : Text} {w : Word}

theorem flatten_runs_words (t : Text) : (t.words.map Word.runs).flatten = t.runs := by
  rw [runs, Run.scan_eq, List.flatMap_def]
  rfl

/-- No run is joined to the last one of a word. -/
theorem not_joins_of_mem_words (hw : w ∈ t.words) {r r' : Run} (hstop : r.stop = w.stop)
    (hrun : t.HasRun r') :
    ¬t.Joins r r' := by
  rintro ⟨hdot, hstart⟩
  obtain ⟨before, inside, after, hsplit, hword, htext, hlast⟩ := Word.exists_split_of_mem_scan hw
  have hend : r.stop = (ofPoints (before ++ inside)).length := by
    rw [hstop, Word.stop, hword, htext, ofPoints_append, List.length_append, Nat.zero_add]
  -- The full stop is the first point behind the word.
  obtain ⟨rest, rfl⟩ : ∃ rest, after = .unit Word.dot :: rest := by
    have hunits : t = ofPoints (before ++ inside) ++ ofPoints after := by
      rw [← ofPoints_append, ← hsplit, ofPoints_points]
    rw [hend, hunits, List.getElem?_append_right (Nat.le_refl _), Nat.sub_self] at hdot
    cases after with
    | nil => cases hdot
    | cons p rest =>
      have hpaired : p.Paired := by
        refine paired_of_mem_points (t := t) ?_
        rw [hsplit]
        exact List.mem_append_right _ List.mem_cons_self
      have hmem : Word.dot ∈ p.units := by
        cases p <;> exact Option.some.inj hdot ▸ List.mem_cons_self
      exact ⟨rest, by rw [(Point.mem_units_iff hpaired (by decide)).1 hmem]⟩
  obtain ⟨before', inside', after', hsplit', rfl, hne, hinside, -⟩ := hrun
  have hsame : before ++ inside ++ [.unit Word.dot] ++ rest = before' ++ (inside' ++ after') := by
    rw [← List.append_assoc, ← hsplit', hsplit, List.append_assoc _ [_], List.singleton_append]
  have hbefore : before ++ inside ++ [.unit Word.dot] = before' := by
    refine eq_of_length_ofPoints hsame ?_
    simp only [Nat.zero_add] at hstart
    rw [hstart, hend, ofPoints_append, List.length_append]
    rfl
  rw [hbefore] at hsame
  obtain ⟨p, inside', rfl⟩ := List.exists_cons_of_ne_nil hne
  obtain rfl := List.append_cancel_left hsame
  simp [Word.afterDot?, Word.dot, hinside p List.mem_cons_self] at hlast

theorem hasRun_of_mem_runs (hw : w ∈ t.words) : ∀ r ∈ w.runs, t.HasRun r := by
  intro r hr
  rw [← mem_runs_iff, ← flatten_runs_words]
  exact List.mem_flatten_of_mem (List.mem_map_of_mem hw) hr

/-- Joined runs are told by the first of them, if they go as far as they can. -/
theorem eq_of_isChain {s : Run} {rs rs' : List Run} (joined : (s :: rs).IsChain t.Joins)
    (joined' : (s :: rs').IsChain t.Joins) (runs : ∀ r ∈ rs, t.HasRun r)
    (runs' : ∀ r ∈ rs', t.HasRun r)
    (last : ∀ r, t.HasRun r → ∀ x ∈ (s :: rs).getLast?, ¬t.Joins x r)
    (last' : ∀ r, t.HasRun r → ∀ x ∈ (s :: rs').getLast?, ¬t.Joins x r) : rs = rs' := by
  induction rs generalizing s rs' with
  | nil =>
    cases rs' with
    | nil => rfl
    | cons r' rs' =>
      exact absurd (List.isChain_cons_cons.1 joined').1
        (last r' (runs' r' List.mem_cons_self) s rfl)
  | cons r rs ih =>
    obtain ⟨hr, hrs⟩ := List.forall_mem_cons.1 runs
    obtain ⟨hjoins, hjoined⟩ := List.isChain_cons_cons.1 joined
    cases rs' with
    | nil => exact absurd hjoins (last' r hr s rfl)
    | cons r' rs' =>
      obtain ⟨hr', hrs'⟩ := List.forall_mem_cons.1 runs'
      obtain ⟨hjoins', hjoined'⟩ := List.isChain_cons_cons.1 joined'
      obtain rfl : r = r' := hr.eq hr' (hjoins.2.trans hjoins'.2.symm)
      rw [List.getLast?_cons_cons] at last last'
      rw [ih hjoined hjoined' hrs hrs' last last']

theorem nodup_runs (t : Text) : t.runs.Nodup := by
  rw [List.nodup_iff_pairwise_ne]
  refine t.pairwise_runs.imp fun {a b} hlt heq => ?_
  rw [heq, Run.stop] at hlt
  omega

/-- A run is in one word only. -/
theorem runs_eq_of_mem_runs {w' : Word} (hw : w ∈ t.words) (hw' : w' ∈ t.words) {r : Run}
    (hr : r ∈ w.runs) (hr' : r ∈ w'.runs) : w.runs = w'.runs := by
  have hdisjoint := (List.nodup_flatten.1 (t.flatten_runs_words.symm ▸ t.nodup_runs)).2
  have : Std.Symm (List.Disjoint (α := Run)) := ⟨fun _ _ h _ hl hr => h hr hl⟩
  by_contra hne
  exact hdisjoint.forall (List.mem_map_of_mem hw) (List.mem_map_of_mem hw') hne hr hr'

theorem exists_word_of_hasRun {r : Run} (h : t.HasRun r) : ∃ w ∈ t.words, r ∈ w.runs := by
  rw [← mem_runs_iff, ← flatten_runs_words] at h
  obtain ⟨_, hruns, hr⟩ := List.mem_flatten.1 h
  obtain ⟨w, hw, rfl⟩ := List.mem_map.1 hruns
  exact ⟨w, hw, hr⟩

theorem isChain_runs (hw : w ∈ t.words) :
    w.runs.IsChain t.Joins := Run.isChain_spaced (stands_of_mem_words hw)

theorem not_joins_last (hw : w ∈ t.words) : ∀ r, t.HasRun r → ∀ s ∈ w.runs.getLast?, ¬t.Joins s r :=
  fun _ hr s hs => not_joins_of_mem_words hw (Run.stop_of_mem_getLast? s hs) hr

/-- What comes behind something in a list without repetitions does not come first. -/
theorem not_mem_head? {α : Type} {before after : List α} {x y : α}
    (h : (before ++ x :: y :: after).Nodup) :
    y ∉ (before ++ x :: y :: after).head? := by
  intro hfirst
  cases before with
  | nil =>
    obtain rfl := Option.some.inj hfirst
    exact (List.nodup_cons.1 h).1 List.mem_cons_self
  | cons z before =>
    obtain rfl := Option.some.inj hfirst
    exact (List.nodup_cons.1 h).1 (by simp)

/-- The first run of a word is joined to none before it. -/
theorem not_joins_first (hw : w ∈ t.words) :
    ∀ r, t.HasRun r → ∀ s ∈ w.runs.head?, ¬t.Joins r s := by
  intro r hr s hs hjoins
  have hmem : s ∈ w.runs := List.mem_of_mem_head? hs
  have hrun : t.HasRun s := hasRun_of_mem_runs hw s hmem
  obtain ⟨w', hw', hr'⟩ := exists_word_of_hasRun hr
  obtain ⟨before, after, hsplit⟩ := List.append_of_mem hr'
  cases after with
  | nil => exact not_joins_last hw' s hrun r (by rw [hsplit]; simp) hjoins
  | cons s' after =>
    -- The run behind it in its word begins where `s` begins, and so the two words are one.
    have hs' : s' ∈ w'.runs := by rw [hsplit]; simp
    have hjoins' : t.Joins r s' := by
      have hchain := isChain_runs hw'
      rw [hsplit, List.isChain_append] at hchain
      exact (List.isChain_cons_cons.1 hchain.2.1).1
    obtain rfl : s' = s := (hasRun_of_mem_runs hw' s' hs').eq hrun (hjoins'.2.trans hjoins.2.symm)
    have hnodup : w'.runs.Nodup :=
      (List.nodup_flatten.1 (t.flatten_runs_words.symm ▸ t.nodup_runs)).1 _
        (List.mem_map_of_mem hw')
    rw [runs_eq_of_mem_runs hw hw' hmem hs', hsplit] at hs
    rw [hsplit] at hnodup
    exact not_mem_head? hnodup hs

/-- Joined runs that go as far as they can are those of a word with several parts. -/
theorem dotted_iff {rs : List Run} : t.Dotted rs ↔ rs ∈ t.words.map Word.runs ∧ 2 ≤ rs.length := by
  constructor
  · rintro ⟨several, runs, joined, first, last⟩
    refine ⟨?_, several⟩
    obtain ⟨s, rs, rfl⟩ : ∃ s rest, rs = s :: rest := List.exists_cons_of_length_pos (by omega)
    obtain ⟨hs, hrs⟩ := List.forall_mem_cons.1 runs
    obtain ⟨w, hw, hmem⟩ := exists_word_of_hasRun hs
    obtain ⟨before, after, hsplit⟩ := List.append_of_mem hmem
    have hruns := hasRun_of_mem_runs hw
    have hchain := isChain_runs hw
    have hlast := not_joins_last hw
    rw [hsplit] at hruns hchain hlast
    obtain ⟨-, hchain, hacross⟩ := List.isChain_append.1 hchain
    obtain rfl : before = [] := by
      rw [← List.getLast?_eq_none_iff]
      cases hx : before.getLast? with
      | none => rfl
      | some x =>
        have hmem := List.mem_append_left (s :: after) (List.mem_of_getLast? hx)
        exact absurd (hacross x hx s rfl) (first x (hruns x hmem) s rfl)
    have hafter :=
      eq_of_isChain hchain joined (fun r hr => hruns r (List.mem_cons_of_mem _ hr)) hrs hlast last
    exact List.mem_map.2 ⟨w, hw, by rw [hsplit, hafter, List.nil_append]⟩
  · rintro ⟨hrs, several⟩
    obtain ⟨w, hw, rfl⟩ := List.mem_map.1 hrs
    exact ⟨several, hasRun_of_mem_runs hw, isChain_runs hw, not_joins_first hw, not_joins_last hw⟩

/-! ### Tokens -/

/-- The token of all that stands from one run to another. -/
def compound (t : Text) (position : Nat) (first last : Run) : Token :=
  ⟨(t.slice first.start last.stop).lower, position, first.start, last.stop, true⟩

/-- The tokens of runs at consecutive positions, and behind them the compound when there
are several. -/
def groupTokens (t : Text) (position : Nat) (rs : List Run) : List Token :=
  Run.tokens position rs ++ match rs with
    | first :: second :: rest =>
      [t.compound position first ((second :: rest).getLast (List.cons_ne_nil _ _))]
    | _ => []

/-- The tokens of groups of runs, positions running on from one group to the next. -/
def tokensOfGroups (t : Text) (position : Nat) : List (List Run) → List Token
  | [] => []
  | rs :: rest => t.groupTokens position rs ++ tokensOfGroups t (position + rs.length) rest

theorem tokens_eq_groupTokens (h : t.StandsAt w.text w.start) (position : Nat) :
    w.tokens position = t.groupTokens position w.runs := by
  rw [Word.tokens, Run.partTokens_eq]
  obtain ⟨start, parts⟩ := w
  cases parts with
  | nil => rfl
  | cons part parts =>
    cases parts with
    | nil => rfl
    | cons part' rest =>
      let last :=
        (Run.spaced (start + part.length + 1) (part' :: rest)).getLast (List.cons_ne_nil _ _)
      have hlast : last.stop = start + (join [Word.dot] (part :: part' :: rest)).length :=
        Run.stop_of_mem_getLast? last
          (List.getLast?_cons_cons.trans (List.getLast?_eq_some_getLast _))
      have hslice : t.slice start last.stop = join [Word.dot] (part :: part' :: rest) :=
        hlast ▸ h.slice_eq
      change _ ++ [_] = _ ++ [t.compound position ⟨start, part⟩ last]
      rw [compound, hslice, hlast]
      rfl

theorem tokensFrom_eq_tokensOfGroups {ws : List Word} (h : ∀ w ∈ ws, t.StandsAt w.text w.start)
    (position : Nat) :
    Word.tokensFrom position ws = t.tokensOfGroups position (ws.map Word.runs) := by
  induction ws generalizing position with
  | nil => rfl
  | cons w ws ih =>
    obtain ⟨hw, hws⟩ := List.forall_mem_cons.1 h
    rw [Word.tokensFrom, List.map_cons, tokensOfGroups, tokens_eq_groupTokens hw, ih hws, Word.runs,
      Run.length_spaced]

/-- How the tokens of a text come from its maximal runs, put into groups. -/
structure Decomposes (t : Text) (groups : List (List Run)) : Prop where
  /-- The groups hold the maximal runs of the text. -/
  runs : ∀ r, r ∈ groups.flatten ↔ t.HasRun r
  /-- They hold them in the order of the text. -/
  ordered : groups.flatten.Pairwise fun r r' => r.stop < r'.start
  /-- The groups of several runs are those that single full stops join and that go no further. -/
  dotted : ∀ rs, t.Dotted rs ↔ rs ∈ groups ∧ 2 ≤ rs.length
  /-- The tokens that are no compounds are those of the runs, numbered from zero on. -/
  parts : t.tokens.filter (!·.compound) = Run.tokens 0 groups.flatten
  /-- A compound comes right behind the tokens of its group. -/
  tokens : t.tokens = t.tokensOfGroups 0 groups
  /-- The term of a token is what stands at its span, in lower case. -/
  terms : ∀ token ∈ t.tokens, token.term = (t.slice token.start token.stop).lower

/-- A text has the tokens of its maximal runs, and a compound for each dotted sequence of them. -/
theorem tokens_decompose (t : Text) : ∃ groups, t.Decomposes groups := by
  refine ⟨t.words.map Word.runs, ?_, ?_, fun rs => dotted_iff, ?_, ?_, ?_⟩
  · intro r
    rw [flatten_runs_words, mem_runs_iff]
  · rw [flatten_runs_words]
    exact t.pairwise_runs
  · rw [flatten_runs_words, filter_tokens]
  · exact tokensFrom_eq_tokensOfGroups (fun _ => stands_of_mem_words) 0
  · exact fun token htoken => (marks_of_mem_tokens htoken).term

/-- Two full stops in a row join nothing. -/
example : ("A.b..c" : Text).tokens =
    [⟨"a", 0, 0, 1, false⟩, ⟨"b", 1, 2, 3, false⟩, ⟨"a.b", 0, 0, 3, true⟩,
      ⟨"c", 2, 5, 6, false⟩] := by decide +kernel

end Text
end Quarry
