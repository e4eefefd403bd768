import Quarry.Proofs.Search.Asked
import Quarry.Proofs.Search.Ranker

/-! Sources that fail. A source from outside may reject a search or be late with its answer; the
search reports it, and apart from that comes to what it would come to had the source
found nothing. -/

namespace Quarry

/-- A provider that never finds anything. -/
def Provider.silent : Provider := .backend (.ofFunction fun _ _ => .answers [])

namespace Hybrid

/-- A provider from outside that a request has to stop waiting for: it does not settle by itself, or
not before the deadline is past. -/
def Late (b : Backend) (r : Request) (deadline : Deadline) : Prop :=
  b.reply b.calls r.query r.candidates = .hangs ∨ b.reply b.calls r.query r.candidates = .waits ∨
    deadline.Passed (b.delay b.calls r.query r.candidates)

/-- A provider from outside that settles by itself while the deadline of its source allows. -/
structure Settled (h : Hybrid) (r : Request) (s : Source) (b : Backend) (reply : Reply) : Prop where
  provider : h.providers.get s = some (.backend b)
  reply : b.reply b.calls r.query r.candidates = reply
  inTime : (r.settings.deadlines.get s).Allows (b.delay b.calls r.query r.candidates)

/-- How a source fails a request, and how that is reported. -/
inductive Fails (h : Hybrid) (r : Request) (s : Source) : Degraded → Prop
  | rejects {b : Backend} (reason : Reason) (told : reason.hasText = true)
      (settled : h.Settled r s b (.fails reason)) : Fails h r s ⟨s, .error, reason.display⟩
  | late {b : Backend} {n : Number} (provider : h.providers.get s = some (.backend b))
      (deadline : r.settings.deadlines.get s = .after n) (late : Late b r (.after n)) :
      Fails h r s ⟨s, .timeout, (Failure.timeout s (some n)).message⟩
  /-- A deadline that is not set is over at once. -/
  | unset {b : Backend} (provider : h.providers.get s = some (.backend b))
      (deadline : r.settings.deadlines.get s = .unset) (late : Late b r .unset) :
      Fails h r s ⟨s, .timeout, (Failure.timeout s none).message⟩

/-- How a source answers a request that is not given up. What is built in always does. -/
inductive Answers (h : Hybrid) (r : Request) (s : Source) : Prop
  | ranker (provider : h.providers.get s = some .index)
  | names (provider : h.providers.get s = some .names)
  | backend {b : Backend} (ids : List DocId) (settled : h.Settled r s b (.answers ids))

/-- What a source does with a request: it fails as the report says, or without one it answers. -/
def Reports (h : Hybrid) (r : Request) (report : Source → Option Degraded) (s : Source) : Prop :=
  match report s with
  | some d => h.Fails r s d
  | none => h.Answers r s

/-- A reason that has a text is reported by it. -/
theorem asError?_foreign {reason : Reason} (told : reason.hasText = true) :
    ∃ f, (Failure.foreign reason).asError? = some f ∧ reasonOf f = .error ∧
      f.message = reason.display := by
  cases reason with
  | value v => exact ⟨_, if_pos told, rfl, rfl⟩
  | fault f => exact ⟨_, rfl, rfl, rfl⟩

theorem runSource_backend {h : Hybrid} {s : Source} {b : Backend}
    (provider : h.providers.get s = some (.backend b)) (c : Catalog) (r : Request) :
    (h.runSource c r .never s).1 =
      Provider.outcomeOf (b.replyBy (r.settings.deadlines.get s) r.query r.candidates) s r
        (r.settings.deadlines.get s) .never := by
  rw [Hybrid.runSource_fst, provider]
  rfl

/-- A provider that settles in time comes to what it settles with. -/
theorem Settled.runSource_fst {h : Hybrid} {r : Request} {s : Source} {b : Backend} {reply : Reply}
    (settled : h.Settled r s b reply) (c : Catalog) : (h.runSource c r .never s).1 =
      Provider.outcomeOf reply s r (r.settings.deadlines.get s) .never := by
  rw [runSource_backend settled.provider, ← settled.reply,
    Backend.replyBy_of_isOver_eq_false settled.inTime.isOver_eq_false]

/-- One that is late comes to what its deadline makes of it. -/
theorem Late.runSource_fst {h : Hybrid} {r : Request} {s : Source} {b : Backend}
    (provider : h.providers.get s = some (.backend b))
    (late : Late b r (r.settings.deadlines.get s)) (c : Catalog) :
    (h.runSource c r .never s).1 =
      .atDeadline s (r.settings.deadlines.get s) false := by
  have hreply : b.replyBy (r.settings.deadlines.get s) r.query r.candidates = .hangs ∨
      b.replyBy (r.settings.deadlines.get s) r.query r.candidates = .waits := by
    rcases late with hangs | waits | passed
    · exact .inl ((b.replyBy_eq_or _ _ _).elim id fun same => same.trans hangs)
    · exact (b.replyBy_eq_or _ _ _).imp_right fun same => same.trans waits
    · exact .inl (Backend.replyBy_of_isOver passed.isOver)
  rw [runSource_backend provider]
  rcases hreply with hangs | waits
  · rw [hangs]
    rfl
  · rw [waits]
    rfl

theorem Fails.runSource_fst {h : Hybrid} {r : Request} {s : Source} {d : Degraded}
    (fails : h.Fails r s d) (c : Catalog) : ∃ f, (h.runSource c r .never s).1 = .degraded f ∧
      d = ⟨s, reasonOf f, f.message⟩ := by
  cases fails with
  | rejects reason told settled =>
    obtain ⟨f, hf, hreason, hmessage⟩ := asError?_foreign told
    refine ⟨f, ?_, by rw [hreason, hmessage]⟩
    rw [settled.runSource_fst, Provider.outcomeOf, Outcome.ofFailure, hf]
    rfl
  | @late b n provider deadline late =>
    rw [← deadline] at late
    refine ⟨.timeout s (some n), ?_, rfl⟩
    rw [late.runSource_fst provider, deadline]
    rfl
  | unset provider deadline late =>
    rw [← deadline] at late
    refine ⟨.timeout s none, ?_, rfl⟩
    rw [late.runSource_fst provider, deadline]
    rfl

theorem Answers.runSource_fst {h : Hybrid} {r : Request} {s : Source} (answers : h.Answers r s)
    (c : Catalog) : ∃ results, (h.runSource c r .never s).1 = .answered results := by
  cases answers with
  | ranker provider | names provider =>
    rw [Hybrid.runSource_fst, provider]
    exact ⟨_, rfl⟩
  | backend ids settled => exact ⟨_, settled.runSource_fst c⟩

/-- The report is what the search says of the source. -/
theorem Reports.degradedOf? {h : Hybrid} {r : Request} {report : Source → Option Degraded}
    {s : Source} (reports : h.Reports r report s) (c : Catalog) :
    degradedOf? s (h.runSource c r .never s).1 = report s ∧
      Usable (h.runSource c r .never s).1 := by
  rw [Reports] at reports
  cases hreport : report s with
  | some d =>
    rw [hreport] at reports
    obtain ⟨f, hrun, rfl⟩ := Fails.runSource_fst reports c
    rw [hrun]
    exact ⟨rfl, rfl, rfl⟩
  | none =>
    rw [hreport] at reports
    obtain ⟨results, hrun⟩ := Answers.runSource_fst reports c
    rw [hrun]
    exact ⟨rfl, usable_answered results⟩

/-! ### Sources that find nothing instead -/

/-- The state in which some of the sources find nothing. -/
def silence (h : Hybrid) (silent : Source → Bool) : Hybrid :=
  let part (s : Source) := (h.providers.get s).map fun p => if silent s then .silent else p
  { h with providers := ⟨part .bm25, part .semantic, part .fuzzy⟩ }

theorem get_silence (h : Hybrid) (silent : Source → Bool) (s : Source) :
    (h.silence silent).providers.get s =
      (h.providers.get s).map fun p => if silent s then .silent else p := by
  cases s <;> rfl

theorem isAvailable_silence (h : Hybrid) (silent : Source → Bool) :
    (h.silence silent).isAvailable = h.isAvailable := by
  funext s
  rw [isAvailable, get_silence, Option.isSome_map, isAvailable]

theorem active_silence (h : Hybrid) (silent : Source → Bool) (settings : Settings) :
    (h.silence silent).active settings = h.active settings := by
  rw [active, isAvailable_silence, active]

theorem Misses.silence {h : Hybrid} {c : Catalog} {settings : Settings} {now : Float} {call : Call}
    (misses : h.Misses c settings now call) (silent : Source → Bool) :
    (h.silence silent).Misses c settings now call := by
  rw [Misses, active_silence]
  exact misses

end Hybrid
end Quarry
