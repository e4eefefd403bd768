import Quarry.Proofs.Fallible
import Quarry.Proofs.Workspace.Transparency
import Quarry.Workspace.Together

/-! What an operation that is refused leaves behind: nothing. A change of the documents or of the
settings that fails, for whatever cause, leaves the workspace as it was, and so does a search whose
query is malformed. Changes are queued, and those behind a refused one are made as if it had not
been there. -/

namespace Quarry

/-! ### The queue -/

namespace Job

variable {σ β : Type} [DocumentStore σ]

theorem advance_append (ix : Index) (now : Float) (turn : Turn) (before after : List (Begun σ β))
    (w : Workspace σ) :
    (advance ix now turn (before ++ after) w).1 =
        (advance ix now turn before w).1 ++
          (advance ix now turn after (advance ix now turn before w).2.2).1 ∧
      (advance ix now turn (before ++ after) w).2.2 =
        (advance ix now turn after (advance ix now turn before w).2.2).2.2 := by
  induction before generalizing w with
  | nil => exact ⟨rfl, rfl⟩
  | cons job before ih =>
    simp only [List.cons_append, advance, ih, and_self]

theorem length_advance (ix : Index) (now : Float) (turn : Turn) (jobs : List (Begun σ β))
    (w : Workspace σ) : (advance ix now turn jobs w).1.length = jobs.length := by
  induction jobs generalizing w with
  | nil => rfl
  | cons job jobs ih => rw [advance, List.length_cons, List.length_cons, ih]

theorem turn?_step (ix : Index) (now : Float) (job : Begun σ β) (w : Workspace σ) :
    (job.step ix now w).1.turn? = none := by
  cases job <;> rfl

/-- No job is left behind whose turn it was. -/
theorem turn?_of_mem_advance {ix : Index} {now : Float} {turn : Turn} {jobs : List (Begun σ β)}
    {w : Workspace σ} {job : Begun σ β} (h : job ∈ (advance ix now turn jobs w).1) :
    job.turn? ≠ some turn := by
  induction jobs generalizing w with
  | nil => cases h
  | cons first jobs ih =>
    rw [advance] at h
    rcases List.mem_cons.1 h with rfl | hrest
    · split
      · rw [turn?_step]
        exact nofun
      · assumption
    · exact ih hrest

end Job

namespace Dispatch

/-- A search with a malformed query changes nothing. If symbols do not answer it, it fails for the
query, or for its glob when symbols are looked for first. -/
theorem start_of_malformed {call : Call} {e : Query.SyntaxError}
    (malformed : Query.parse call.query = .error e) (h : Hybrid) (c : Catalog) (settings : Settings)
    (now : Float) (mode : Mode) :
    (start h c settings now mode call).2 = h ∧ (Ranks h.globs c mode call →
      ∃ f, (f = .query e ∨ exactSymbols h.globs c call = .error f) ∧
        (start h c settings now mode call).1.1 = .decided (.error f)) := by
  rcases start_cases h c settings now mode call with
    ⟨hsymbols, hranks⟩ | hhybrid | ⟨wanted, hsource⟩
  · rw [hsymbols]
    refine ⟨rfl, fun ranks => ?_⟩
    obtain ⟨f, hf⟩ := hranks ranks
    exact ⟨f, .inr hf, by rw [hf]; rfl⟩
  · rw [hhybrid, startHybrid, Hybrid.start, Hybrid.readCall, malformed]
    exact ⟨rfl, fun _ => ⟨.query e, .inl rfl, rfl⟩⟩
  · rw [hsource, startSource, Hybrid.startSource, malformed]
    exact ⟨rfl, fun _ => ⟨.query e, .inl rfl, rfl⟩⟩

end Dispatch

/-- What one call asks of a workspace. -/
inductive Operation where
  | add (values : List Json)
  | remove (id : DocId)
  | rebuild
  | configureWeights (j : Json)
  | configureMethods (j : Json)
  | search (now : Float) (q : Inquiry)

/-- Whether an operation changes documents or settings. A search does not. -/
def Operation.isChange : Operation → Bool
  | .add _ | .remove _ | .rebuild | .configureWeights _ | .configureMethods _ => true
  | .search _ _ => false

inductive Operation.Result where
  | added
  | removed (known : Bool)
  | rebuilt (r : Rebuilt)
  | configured (s : Settings)
  | found (f : Found)

namespace Done

variable {σ α β : Type}

def map (f : α → β) (d : Done σ α) : Done σ β := ⟨d.answer.map f, d.notes, d.workspace⟩

theorem answer_of_map_error {d : Done σ α} {f : α → β} {e : Failure}
    (h : (d.map f).answer = .error e) :
    d.answer = .error e := by
  rw [map] at h
  cases hanswer : d.answer with
  | error e' =>
    rw [hanswer] at h
    cases h
    rfl
  | ok a =>
    rw [hanswer] at h
    cases h

theorem answer_map_of_error {d : Done σ α} {e : Failure} (h : d.answer = .error e) (f : α → β) :
    (d.map f).answer = .error e := by
  rw [map, h]
  rfl

end Done

namespace Workspace

section

variable {σ : Type} {w : Workspace σ} {change : Settings → Except Failure Settings} {f : Failure}

theorem configure_of_error (h : (w.configure change).answer = .error f) :
    (w.configure change).workspace = w := by
  rw [configure] at h ⊢
  cases hupdate : w.settings.update change with
  | error f' => rfl
  | ok holder =>
    rw [hupdate] at h
    cases h

theorem configure_rejected (h : change w.settings.current = .error f) :
    (w.configure change).answer = .error f := by
  rw [configure, SettingsHolder.update, h]
  rfl

end

variable {σ : Type} [DocumentStore σ] {w : Workspace σ}

def perform (w : Workspace σ) : Operation → Done σ Operation.Result
  | .add values => (w.add values).map fun _ => .added
  | .remove id => (w.remove id).map .removed
  | .rebuild => w.rebuild.map .rebuilt
  | .configureWeights j => (w.configureWeights j).map .configured
  | .configureMethods j => (w.configureMethods j).map .configured
  | .search now q => (w.search now q).map .found

/-! ### Changes that fail -/

theorem add_of_error {values : List Json} {f : Failure} (h : (w.add values).answer = .error f) :
    (w.add values).workspace = w := by
  rw [add] at h ⊢
  cases hread : values.mapM Document.read with
  | error f' => rfl
  | ok docs =>
    cases docs with
    | nil => rfl
    | cons d rest =>
      simp only [hread, ingest] at h ⊢
      cases hput : DocumentStore.put w.store (d :: rest) with
      | error f' => rfl
      | ok store =>
        rw [hput] at h
        cases h

theorem remove_of_error {id : DocId} {f : Failure} (h : (w.remove id).answer = .error f) :
    (w.remove id).workspace = w := by
  rw [remove] at h ⊢
  cases hdelete : DocumentStore.delete w.store id with
  | error f' => rfl
  | ok deleted =>
    rw [hdelete] at h
    cases h

theorem rebuild_of_error {f : Failure} (h : w.rebuild.answer = .error f) :
    w.rebuild.workspace = w := by
  rcases w.rebuild_cases with ⟨-, -, hworkspace⟩ | ⟨result, -, hanswer, -⟩
  · exact hworkspace
  · rw [hanswer] at h
    cases h

/-- A change that fails, for whatever cause, leaves the workspace as it was. -/
theorem perform_of_error {op : Operation} {f : Failure} (change : op.isChange = true)
    (h : (w.perform op).answer = .error f) : (w.perform op).workspace = w := by
  cases op with
  | add values => exact add_of_error (Done.answer_of_map_error h)
  | remove id => exact remove_of_error (Done.answer_of_map_error h)
  | rebuild => exact rebuild_of_error (Done.answer_of_map_error h)
  | configureWeights j => exact configure_of_error (Done.answer_of_map_error h)
  | configureMethods j => exact configure_of_error (Done.answer_of_map_error h)
  | search now q => cases change

/-! ### What an operation is refused for -/

/-- A value among others that is no document, an access that fails in the store, a value that the
settings do not take, and a query that cannot be read. -/
inductive Refused (w : Workspace σ) : Operation → Prop where
  | malformedDocument {values : List Json} {value : Json} {f : Failure} (among : value ∈ values)
    (malformed : Document.read value = .error f) : Refused w (.add values)
  | put {values : List Json} {docs : List Document} {f : Failure}
    (read : values.mapM Document.read = .ok docs)
    (nonempty : docs ≠ []) (fails : DocumentStore.put w.store docs = .error f) :
      Refused w (.add values)
  | delete {id : DocId} {f : Failure} (fails : DocumentStore.delete w.store id = .error f) :
    Refused w (.remove id)
  | ids {f : Failure} (fails : DocumentStore.ids w.store = .error f) : Refused w .rebuild
  | weights {j : Json} {f : Failure} (rejected : w.settings.current.withWeights
      (overlay (Settings.weightsJson w.settings.current.weights) j) = .error f) :
        Refused w (.configureWeights j)
  | methods {j : Json} {f : Failure} (rejected : w.settings.current.withMethods
      (overlay (Settings.methodsJson w.settings.current.enabled) j) = .error f) :
        Refused w (.configureMethods j)
  | malformedQuery {now : Float} {q : Inquiry} {e : Query.SyntaxError}
    (malformed : Query.parse q.call.query = .error e)
    (ranks : Dispatch.Ranks w.hybrid.globs w.catalog q.mode q.call) : Refused w (.search now q)

theorem search_malformed {q : Inquiry} {e : Query.SyntaxError}
    (malformed : Query.parse q.call.query = .error e) (now : Float)
    (ranks : Dispatch.Ranks w.hybrid.globs w.catalog q.mode q.call) :
    ∃ f, (w.search now q).answer = .error f ∧ (w.search now q).workspace = w := by
  obtain ⟨hhybrid, hdecided⟩ :=
    Dispatch.start_of_malformed malformed w.hybrid w.catalog w.settings.current now q.mode
  obtain ⟨f, -, hstarted⟩ := hdecided ranks
  refine ⟨f, ?_⟩
  rw [search, beginSearch]
  generalize Dispatch.start w.hybrid w.catalog w.settings.current now q.mode q.call =
    started at hhybrid hstarted ⊢
  obtain ⟨⟨started, notes⟩, hybrid⟩ := started
  subst hhybrid hstarted
  exact ⟨rfl, rfl⟩

theorem Refused.exists_error {op : Operation} (h : w.Refused op) :
    ∃ f, (w.perform op).answer = .error f := by
  cases h with
  | malformedDocument among malformed =>
    obtain ⟨f, hread⟩ := exists_error_of_mapM among malformed
    exact ⟨f, by rw [perform, add, hread]; rfl⟩
  | @put values docs f read nonempty fails =>
    obtain ⟨d, rest, rfl⟩ := List.exists_cons_of_ne_nil nonempty
    exact ⟨f, by simp only [perform, add, read, ingest, fails]; rfl⟩
  | @delete id f fails => exact ⟨f, by rw [perform, remove, fails]; rfl⟩
  | @ids f fails => exact ⟨f, by rw [perform, rebuild, fails]; rfl⟩
  | @weights j f rejected => exact ⟨f, Done.answer_map_of_error (configure_rejected rejected) _⟩
  | @methods j f rejected => exact ⟨f, Done.answer_map_of_error (configure_rejected rejected) _⟩
  | @malformedQuery now q e malformed ranks =>
    obtain ⟨f, hanswer, -⟩ := search_malformed malformed now ranks
    exact ⟨f, Done.answer_map_of_error hanswer _⟩

theorem Refused.workspace_eq {op : Operation} (h : w.Refused op) :
    (w.perform op).workspace = w := by
  obtain ⟨f, hfails⟩ := h.exists_error
  cases h with
  | malformedQuery malformed ranks =>
    obtain ⟨-, -, hworkspace⟩ := search_malformed malformed _ ranks
    exact hworkspace
  | malformedDocument | put | delete | ids | weights | methods => exact perform_of_error rfl hfails

end Workspace

/-- An operation that waits in the queue of changes, and how its answer is told. -/
def Operation.queued {σ β : Type} [DocumentStore σ] (op : Operation)
    (reply : Except Failure Result → β) :
    Job.Begun σ β :=
  .queued fun w => (reply (w.perform op).answer, (w.perform op).notes, (w.perform op).workspace)

namespace Workspace

variable {σ : Type} [DocumentStore σ]

/-- A refused operation fails and leaves the whole workspace as it was. If it waited in the queue,
all others in the queue are answered, and the workspace becomes what it becomes, as if it had not
been there. -/
theorem refused_atomic {w : Workspace σ} {op : Operation} (h : w.Refused op) :
    ∃ f, (w.perform op).answer = .error f ∧ (w.perform op).workspace = w ∧
      ∀ (β : Type) (reply : Except Failure Operation.Result → β) (ix : Index) (now : Float)
        (before after : List (Job.Begun σ β)) (start : Workspace σ),
        (Job.advance ix now .change before start).2.2 = w →
        ∃ done rest, done.length = before.length ∧
          (Job.advance ix now .change (before ++ op.queued reply :: after) start).1 =
            done ++ .answered (reply (.error f)) :: rest ∧
          (Job.advance ix now .change (before ++ after) start).1 = done ++ rest ∧
          (∀ job ∈ done ++ rest, job.turn? ≠ some .change) ∧
          (Job.advance ix now .change (before ++ op.queued reply :: after) start).2.2 =
            (Job.advance ix now .change (before ++ after) start).2.2 := by
  obtain ⟨f, hfails⟩ := h.exists_error
  refine ⟨f, hfails, h.workspace_eq, fun β reply ix now before after start hbefore => ?_⟩
  have hqueued : Job.advance ix now .change (op.queued reply :: after) w =
      (.answered (reply (.error f)) :: (Job.advance ix now .change after w).1,
        (w.perform op).notes ++ (Job.advance ix now .change after w).2.1,
        (Job.advance ix now .change after w).2.2) := by
    rw [Job.advance, Operation.queued, Job.Begun.turn?, if_pos rfl, Job.Begun.step, hfails,
      h.workspace_eq]
  obtain ⟨hjobs, hworkspace⟩ :=
    Job.advance_append ix now .change before (op.queued reply :: after) start
  obtain ⟨hjobs', hworkspace'⟩ := Job.advance_append ix now .change before after start
  rw [hbefore] at hjobs hworkspace hjobs' hworkspace'
  rw [hqueued] at hjobs hworkspace
  refine ⟨_, _, Job.length_advance .., hjobs, hjobs', fun job hjob => ?_,
    hworkspace.trans hworkspace'.symm⟩
  rw [← hjobs'] at hjob
  exact Job.turn?_of_mem_advance hjob

/-- The store refuses to put a document in, and the removal that is queued behind is made. -/
theorem refused_atomic_put :
    let store : MemoryStore := ⟨∅, fun access => if access = .put then some .notConnected else none⟩
    let w := new store .default none none none id .literal
    let documents : Operation :=
      .add [.object [("id", .text "a"), ("text", .text "b"), ("fields", .object [])]]
    let reply : Except Failure Operation.Result → Bool := Except.isOk
    let removal : List (Job.Begun MemoryStore Bool) := [Operation.queued (.remove "a") reply]
    (w.perform documents).workspace = w ∧
      ∃ rest, (Job.advance w.catalog.index 0 .change (documents.queued reply :: removal) w).1 =
          .answered false :: rest ∧
        (Job.advance w.catalog.index 0 .change removal w).1 = rest ∧
        rest.filterMap Job.Begun.answer? = [true] := by
  intro store w documents reply removal
  have hread : [Json.object [("id", .text "a"), ("text", .text "b"), ("fields", .object [])]].mapM
      Document.read = .ok [⟨"a", "b", []⟩] := rfl
  have hfails : DocumentStore.put w.store [⟨"a", "b", []⟩] = .error .notConnected := rfl
  have hrefused : w.Refused documents := .put hread nofun hfails
  obtain ⟨f, -, hworkspace, hqueue⟩ := refused_atomic hrefused
  obtain ⟨done, rest, hlength, hjobs, hothers, -, -⟩ :=
    hqueue Bool reply w.catalog.index 0 [] removal w rfl
  obtain rfl := List.eq_nil_of_length_eq_zero hlength
  refine ⟨hworkspace, rest, hjobs, hothers, ?_⟩
  rw [← List.nil_append rest, ← hothers]
  decide +kernel

end Workspace
end Quarry
