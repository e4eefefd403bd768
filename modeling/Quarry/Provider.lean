import Quarry.Catalog
import Quarry.Failure
import Quarry.Fusion
import Quarry.Ranking.Bm25
import Quarry.Settings

/-!
Providers of ranked lists, and what one call of a provider comes to. Two providers are built in: the
ranker over the index and the search for similar symbol names. Others come from outside and may fail
or hang; each call has a deadline, so that a provider that fails or hangs only drops out
of the call.
-/

namespace Quarry

inductive Reply where
  | answers (ids : List DocId)
  | fails (r : Reason)
  | hangs
  /-- It settles only when it is told to give up, and then fails. -/
  | waits

/-- A provider from outside. What it does may depend on how often it was asked before. -/
structure Backend where
  reply : (before : Nat) → (query : Text) → (limit : Number) → Reply
  /-- After how many milliseconds it answers or fails, where it does so by itself. -/
  delay : (before : Nat) → (query : Text) → (limit : Number) → Nat
  calls : Nat

namespace Backend

/-- A provider that does the same each time, and at once. -/
def ofFunction (reply : Text → Number → Reply) : Backend := ⟨fun _ => reply, fun _ _ _ => 0, 0⟩

/-- What a provider has done when a deadline is over. One that would answer or fail later has not
done anything by then. -/
def replyBy (b : Backend) (deadline : Deadline) (query : Text) (limit : Number) : Reply :=
  if deadline.isOver (b.delay b.calls query limit) then .hangs else b.reply b.calls query limit

def asked (b : Backend) : Backend := { b with calls := b.calls + 1 }

end Backend

inductive Provider where
  | index
  /-- Similar names in the table of symbols. -/
  | names
  | backend (b : Backend)

def Settings.tuning (s : Settings) : Tuning Float where
  k1 := (s.k1.map Number.toFloat).getD 1.2
  b := (s.b.map Number.toFloat).getD 0.75
  expansions := (s.expansions.getD 64).ceilBound

structure Request where
  query : Text
  parsed : Query
  candidates : Number
  settings : Settings
  /-- Which documents may be results. Providers from outside do not know of it. -/
  accepts : DocId → Bool

inductive Outcome where
  | answered (results : List Ranked)
  | degraded (f : Failure)
  | cancelled
  /-- It failed, and what it failed with cannot be reported. -/
  | untold
  | stalled

namespace Outcome

/-- The outcome of a call that cannot end by itself: it ends when its time is over, and then it
counts as given up if its caller has given it up. -/
def atDeadline (source : Source) (deadline : Deadline) (givenUp : Bool) : Outcome :=
  match deadline with
  | .unlimited => stalled
  | .unset => if givenUp then cancelled else degraded (.timeout source none)
  | .after n => if givenUp then cancelled else degraded (.timeout source (some n))

def ofFailure (f : Failure) (givenUp : Bool) : Outcome :=
  if givenUp then cancelled
  else match f.asError? with
    | some f => degraded f
    | none => untold

end Outcome

def Cancellation.isGivenUp : Cancellation → Bool
  | never => false
  | before _ | during _ => true

namespace Provider

/-- The ranked list of the ranker over the index: the best documents that may be results. -/
def rankIndex (catalog : Catalog) (source : Source) (r : Request) : List Ranked :=
  let scored := (Bm25.score r.settings.tuning catalog.index r.parsed).filter fun x =>
    r.accepts x.docId
  Ranked.assign source ((r.candidates.select scored).map fun x => (x.docId, x.score))

def rankNames (catalog : Catalog) (source : Source) (r : Request) : List Ranked :=
  let found := catalog.symbols.trigrams.search r.query r.candidates.floorBound
    TrigramIndex.defaultThreshold
  r.candidates.select (Ranked.ofIds source (found.map (·.key)))

/-- What a provider from outside comes to by what it has done when its deadline is over. -/
def outcomeOf (reply : Reply) (source : Source) (r : Request) (deadline : Deadline)
    (c : Cancellation) : Outcome :=
  match reply with
  | .answers ids => .answered (r.candidates.select (Ranked.ofIds source ids))
  | .fails reason => .ofFailure (.foreign reason) c.isGivenUp
  | .hangs => .atDeadline source deadline c.isGivenUp
  | .waits => if c.isGivenUp then .cancelled else .atDeadline source deadline false

/-- Calls a provider. A built-in one does its work at once and is given up only before it begins. -/
def run (p : Provider) (catalog : Catalog) (source : Source) (r : Request) (deadline : Deadline)
    (c : Cancellation) : Outcome × Provider :=
  match p with
  | index =>
    match c.check none with
    | .error _ => (.cancelled, p)
    | .ok _ => (.answered (rankIndex catalog source r), p)
  | names =>
    match c.check none with
    | .error _ => (.cancelled, p)
    | .ok _ => (.answered (rankNames catalog source r), p)
  | backend b =>
    (outcomeOf (b.replyBy deadline r.query r.candidates) source r deadline c, backend b.asked)

end Provider
end Quarry
