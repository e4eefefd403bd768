import Quarry.Hybrid.Fingerprint
import Quarry.Proofs.Json.RoundTrip

/-! What fingerprints are made of. The text of a fingerprint is taken apart from its beginning: each
part is told from what follows it, so that searches with the same fingerprint are alike in
everything that a fingerprint covers. -/

namespace Quarry

/-! ### Numbers in texts -/

namespace Json

/-- A unit that ends a number in an array or an object. -/
def closes (u : UInt16) : Bool := u == 44 || u == 93 || u == 125

theorem closes_of_isDigit {u : UInt16} (h : Text.isDigit u = true) : closes u = false := by
  rw [← Bool.not_eq_true]
  intro hcloses
  simp only [closes, Bool.or_eq_true, beq_iff_eq] at hcloses
  rcases hcloses with (rfl | rfl) | rfl <;> exact absurd h (by decide)

/-- Texts within which nothing closes. -/
def Open (t : Text) : Prop := ∀ u ∈ t, closes u = false

instance (t : Text) : Decidable (Open t) := List.decidableBAll (fun u => closes u = false) t

theorem open_ofNat (n : Nat) : Open (Text.ofNat n) :=
  fun _ hu => closes_of_isDigit (Text.isDigit_of_mem_ofNat hu)

theorem open_append {t t' : Text} : Open (t ++ t') ↔ Open t ∧ Open t' := List.forall_mem_append

theorem open_cons {u : UInt16} {t : Text} :
    Open (u :: t) ↔ closes u = false ∧ Open t := List.forall_mem_cons

theorem Open.of_subset {t t' : Text} (h : Open t) (sub : t' ⊆ t) :
    Open t' := fun u hu => h u (sub hu)

theorem open_text (d : Decimal) : Open d.text := by
  have hzeros : ∀ n, Open (List.replicate n (48 : UInt16)) := by
    intro n u hu
    rw [List.eq_of_mem_replicate hu]
    decide
  have hdigits : Open d.normalForm.1 := by
    rw [Decimal.normalForm]
    exact (open_ofNat d.digits).of_subset fun u hu =>
      List.mem_reverse.1 ((List.dropWhile_suffix _).subset (List.mem_reverse.1 hu))
  rw [Decimal.text]
  generalize d.normalForm = form at hdigits
  obtain ⟨ds, point⟩ := form
  have htake : ∀ n, Open (ds.take n) := fun n => hdigits.of_subset (List.take_subset n _)
  have hdrop : ∀ n, Open (ds.drop n) := fun n => hdigits.of_subset (List.drop_subset n _)
  dsimp only
  split_ifs
  · exact open_append.2 ⟨hdigits, hzeros _⟩
  · exact open_append.2 ⟨open_append.2 ⟨htake _, by decide⟩, hdrop _⟩
  · exact open_append.2 ⟨open_append.2 ⟨by decide, hzeros _⟩, hdigits⟩
  all_goals
    refine open_append.2 ⟨open_append.2
      ⟨open_append.2 ⟨open_append.2 ⟨htake 1, ?_⟩, by decide⟩, by decide⟩, open_ofNat _⟩
    first
      | decide
      | exact open_cons.2 ⟨by decide, hdrop 1⟩

theorem open_shortestText (x : Float) : Open (shortestText x) := by
  rw [shortestText]
  split
  · decide
  · decide
  · decide
  · split
    · decide
    · refine open_append.2 ⟨?_, open_text _⟩
      split <;> decide

theorem open_writeNumber (n : Number) : Open (writeNumber n) := by
  rw [writeNumber]
  split
  · cases n with
    | whole n =>
      rw [Number.text]
      split
      · exact open_ofNat n
      · exact open_shortestText _
    | real x => exact open_shortestText x
  · decide

/-- A number is told from what follows it. -/
theorem Open.append_inj {t t' rest rest' : Text} {u u' : UInt16} (h : Open t) (h' : Open t')
    (hu : closes u = true) (hu' : closes u' = true) (heq : t ++ u :: rest = t' ++ u' :: rest') :
    t = t' ∧ u :: rest = u' :: rest' := by
  have htake : ∀ {s more : Text} {v : UInt16}, Open s → closes v = true →
      (s ++ v :: more).takeWhile (fun w => !closes w) = s := by
    intro s more v hs hv
    rw [List.takeWhile_append_of_pos fun w hw => by rw [hs w hw]; rfl,
      List.takeWhile_cons_of_neg (by rw [hv]; decide), List.append_nil]
  have hequal : t = t' := (htake h hu).symm.trans ((congrArg _ heq).trans (htake h' hu'))
  exact ⟨hequal, List.append_cancel_left (hequal ▸ heq)⟩

/-- Two values that are written alike before something that closes have a property in common, and
what follows them is the same. -/
def Told (j j' : Json) (P : Prop) : Prop :=
  ∀ u u' rest rest', closes u = true → closes u' = true →
    write j ++ u :: rest = write j' ++ u' :: rest' → P ∧ u :: rest = u' :: rest'

theorem stops_of_closes {u : UInt16} (h : closes u = true) (rest : Text) : Stops (u :: rest) := by
  simp only [closes, Bool.or_eq_true, beq_iff_eq, or_assoc] at h
  exact stops_cons h rest

theorem told_number (n n' : Number) :
    Told (.number n) (.number n') (writeNumber n = writeNumber n') :=
  fun _ _ _ _ hu hu' heq => (open_writeNumber n).append_inj (open_writeNumber n') hu hu' heq

theorem Plain.told {j j' : Json} (h : Plain j) (h' : Plain j') : Told j j' (j = j') := by
  intro u u' rest rest' hu hu' heq
  have hread := h.reads (2 * (write j).length + 2 * (write j').length) (u :: rest) (by omega)
    (stops_of_closes hu rest)
  rw [heq, h'.reads _ (u' :: rest') (by omega) (stops_of_closes hu' rest')] at hread
  injection hread with hread
  injection hread with hj hrest
  exact ⟨hj.symm, hrest.symm⟩

theorem writeItems_cons (j : Json) (js : List Json) : write.writeItems (j :: js) =
    write j ++ if js = [] then [] else 44 :: write.writeItems js := by
  cases js with
  | nil => rw [if_pos rfl, List.append_nil, write.writeItems]
  | cons next js => rw [write.writeItems, if_neg (List.cons_ne_nil next js)]

/-- As many numbers, written alike, are each written alike. -/
theorem told_numbers {ns ns' : List Number} (length : ns.length = ns'.length) :
    Told (.array (ns.map number)) (.array (ns'.map number))
      (ns.map writeNumber = ns'.map writeNumber) := by
  have hitems : ∀ rest rest' : Text, write.writeItems (ns.map number) ++ 93 :: rest =
      write.writeItems (ns'.map number) ++ 93 :: rest' →
      ns.map writeNumber = ns'.map writeNumber ∧ rest = rest' := by
    intro rest rest' heq
    induction ns generalizing ns' with
    | nil =>
      obtain rfl : ns' = [] := List.eq_nil_of_length_eq_zero length.symm
      exact ⟨rfl, (List.cons.inj heq).2⟩
    | cons n ns ih =>
      obtain ⟨n', ns', rfl⟩ := List.exists_cons_of_length_eq_add_one length.symm
      rw [List.length_cons, List.length_cons, Nat.add_right_cancel_iff] at length
      rw [List.map_cons, List.map_cons, writeItems_cons, writeItems_cons] at heq
      rw [List.map_cons, List.map_cons]
      cases ns with
      | nil =>
        obtain rfl : ns' = [] := List.eq_nil_of_length_eq_zero length.symm
        rw [List.map_nil, if_pos rfl, List.append_nil, List.append_nil] at heq
        obtain ⟨hn, hrest⟩ := told_number n n' 93 93 rest rest' (by decide) (by decide) heq
        exact ⟨by rw [hn], (List.cons.inj hrest).2⟩
      | cons next ns =>
        obtain ⟨next', ns', rfl⟩ := List.exists_cons_of_length_eq_add_one length.symm
        rw [List.map_cons, List.map_cons, if_neg (List.cons_ne_nil _ _),
          if_neg (List.cons_ne_nil _ _), List.append_assoc, List.append_assoc, List.cons_append,
          List.cons_append, ← List.map_cons, ← List.map_cons] at heq
        obtain ⟨hn, hmore⟩ := told_number n n' 44 44 _ _ (by decide) (by decide) heq
        obtain ⟨hns, hrest⟩ := ih length (List.cons.inj hmore).2
        exact ⟨by rw [hn, hns], hrest⟩
  intro u u' rest rest' _ _ heq
  rw [write, write, List.cons_append, List.cons_append, List.append_assoc, List.append_assoc,
    List.singleton_append, List.singleton_append] at heq
  exact hitems _ _ (List.cons.inj heq).2

/-- What the first members of two objects tell, and the others are written alike. -/
theorem Told.member {v v' : Json} {P : Prop} (told : Told v v' P) (hv : v ≠ .missing)
    (hv' : v' ≠ .missing) {name : Text} {ms ms' : List (Text × Json)}
    (h : write.writeMembers ((name, v) :: ms) ++ [125] =
      write.writeMembers ((name, v') :: ms') ++ [125]) :
    P ∧ write.writeMembers ms ++ [125] = write.writeMembers ms' ++ [125] := by
  have hclose : closes 125 = true := by decide
  have hcomma : closes 44 = true := by decide
  rw [writeMembers_cons hv, writeMembers_cons hv'] at h
  generalize write.writeMembers ms = more at h ⊢
  generalize write.writeMembers ms' = more' at h ⊢
  cases more with
  | nil =>
    cases more' with
    | nil =>
      simp only [List.append_assoc, List.cons_append, List.nil_append, List.append_cancel_left_eq,
        List.cons.injEq, true_and] at h
      exact ⟨(told 125 125 [] [] hclose hclose h).1, rfl⟩
    | cons u' more' =>
      simp only [List.append_assoc, List.cons_append, List.nil_append, List.append_cancel_left_eq,
        List.cons.injEq, true_and] at h
      exact absurd (told 125 44 _ _ hclose hcomma h).2 (by simp)
  | cons u more =>
    cases more' with
    | nil =>
      simp only [List.append_assoc, List.cons_append, List.nil_append, List.append_cancel_left_eq,
        List.cons.injEq, true_and] at h
      exact absurd (told 44 125 _ _ hcomma hclose h).2 (by simp)
    | cons u' more' =>
      simp only [List.append_assoc, List.cons_append, List.append_cancel_left_eq, List.cons.injEq,
        true_and] at h
      obtain ⟨hP, hmore⟩ := told 44 44 _ _ hcomma hcomma h
      exact ⟨hP, (List.cons.inj hmore).2⟩

end Json

namespace Fingerprint

open Json (Plain)

/-- The members that a filter is written with. -/
def members (language glob : Option Text) : List (Text × Json) :=
  Json.optionalMember "language" (language.map Json.text) ++
    Json.optionalMember "pathGlob" (glob.map Json.text)

theorem filterJson_eq (f : Filter) :
    filterJson f = .object (members f.normalize.language f.normalize.glob) :=
  rfl

theorem member?_members (language glob : Option Text) :
    Json.member? (members language glob) "language" = language.map Json.text ∧
      Json.member? (members language glob) "pathGlob" = glob.map Json.text := by
  cases language <;> cases glob <;> exact ⟨rfl, rfl⟩

theorem plain_filterJson (f : Filter) : Plain (filterJson f) := by
  rw [filterJson_eq]
  cases f.normalize.language with
  | none =>
    cases f.normalize.glob with
    | none => exact .object (by decide) fun m hm => absurd hm List.not_mem_nil
    | some glob =>
      have hordered : Json.Ordered [(("pathGlob" : Text), ())] := by decide
      refine .object (hordered.of_names rfl) fun m hm => ?_
      rw [List.mem_singleton.1 hm]
      exact .text glob
  | some language =>
    cases f.normalize.glob with
    | none =>
      have hordered : Json.Ordered [(("language" : Text), ())] := by decide
      refine .object (hordered.of_names rfl) fun m hm => ?_
      rw [List.mem_singleton.1 hm]
      exact .text language
    | some glob =>
      have hordered : Json.Ordered [(("language" : Text), ()), ("pathGlob", ())] := by decide
      refine .object (hordered.of_names rfl) fun m hm => ?_
      rcases List.mem_cons.1 hm with rfl | hm
      · exact .text language
      · rw [List.mem_singleton.1 hm]
        exact .text glob

/-- Filters that are written alike ask for the same. -/
theorem normalize_of_filterJson {f f' : Filter} (h : filterJson f = filterJson f') :
    f.normalize = f'.normalize := by
  have htext : Function.Injective Json.text := fun _ _ => Json.text.inj
  rw [filterJson_eq, filterJson_eq] at h
  have hmembers := Json.object.inj h
  obtain ⟨hlanguage, hglob⟩ := member?_members f.normalize.language f.normalize.glob
  obtain ⟨hlanguage', hglob'⟩ := member?_members f'.normalize.language f'.normalize.glob
  have hlanguages := Option.map_injective htext (hlanguage.symm.trans (hmembers ▸ hlanguage'))
  have hglobs := Option.map_injective htext (hglob.symm.trans (hmembers ▸ hglob'))
  generalize f.normalize = g at hlanguages hglobs ⊢
  generalize f'.normalize = g' at hlanguages hglobs ⊢
  cases g
  cases g'
  exact congr (congrArg Filter.mk hlanguages) hglobs

theorem plain_names (sources : List Source) :
    Plain (.array (sources.map fun s => .text s.name)) := by
  refine .array fun j hj => ?_
  obtain ⟨s, -, rfl⟩ := List.mem_map.1 hj
  exact .text s.name

/-- Searches whose subjects are written alike are alike in all that they cover. -/
theorem subject_inj {query query' : Text} {filter filter' : Filter} {limit limit' : Number}
    {sources sources' : List Source} {settings settings' : Settings}
    (h : (subject query filter limit sources settings).write =
      (subject query' filter' limit' sources' settings').write) :
    query.trim.collapseBlanks = query'.trim.collapseBlanks ∧ filter.normalize = filter'.normalize ∧
      Json.writeNumber limit = Json.writeNumber limit' ∧ sources = sources' ∧
      ∀ s, Json.writeNumber (.ofFloat (settings.weights.get s)) =
        Json.writeNumber (.ofFloat (settings'.weights.get s)) := by
  have hname : Function.Injective fun s : Source => Json.text s.name := by
    intro s s' hs
    have hsame := Json.text.inj hs
    revert hsame
    cases s <;> cases s' <;> decide
  have hweights : ∀ s : Settings, (Json.array (Source.all.map fun source =>
      .number (.ofFloat (s.weights.get source)))) =
        .array ((Source.all.map fun source => Number.ofFloat (s.weights.get source)).map .number) :=
    fun s => by rw [List.map_map]; rfl
  rw [subject, subject, Json.write, Json.write] at h
  obtain ⟨hquery, h⟩ :=
    (Plain.told (.text _) (.text _)).member (by simp) (by simp) (List.cons.inj h).2
  obtain ⟨hfilter, h⟩ := ((plain_filterJson filter).told (plain_filterJson filter')).member
    (plain_filterJson filter).ne_missing (plain_filterJson filter').ne_missing h
  obtain ⟨hlimit, h⟩ := (Json.told_number limit limit').member (by simp) (by simp) h
  obtain ⟨hsources, h⟩ :=
    ((plain_names sources).told (plain_names sources')).member (by simp) (by simp) h
  rw [hweights, hweights] at h
  obtain ⟨hnumbers, -⟩ := (Json.told_numbers (by simp)).member (by simp) (by simp) h
  refine ⟨Json.text.inj hquery, normalize_of_filterJson hfilter, hlimit,
    hname.list_map (Json.array.inj hsources), fun s => ?_⟩
  simp only [Source.all, List.map_cons, List.map_nil, List.cons.injEq, and_true] at hnumbers
  cases s with
  | bm25 => exact hnumbers.1
  | semantic => exact hnumbers.2.1
  | fuzzy => exact hnumbers.2.2

end Fingerprint
end Quarry
