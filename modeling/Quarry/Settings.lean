import Quarry.Failure
import Quarry.Json.Reader
import Quarry.Json.Writer

/-!
Settings of a search. Settings come from a value of any shape that is laid over other settings: what
it does not name stays as it was. A setting that is named without a value is left unset, and where
it is used the built-in value stands in for it if there is one. Weights are kept in proportion,
adding up to one, and at least one source takes part.
-/

namespace Quarry

inductive Deadline where
  | unset
  | unlimited
  | after (milliseconds : Number)

namespace Deadline

/-- The most milliseconds that a timer waits. -/
def longest : Nat := 2147483647

/-- When the timer of a deadline goes off, if it has one: after a single millisecond if it is not
set, or set for a time that timers do not wait. -/
def timer? : Deadline → Option Nat
  | unset => some 1
  | unlimited => none
  | after n => some ((n.floorBound.filter fun k => 1 ≤ k && k ≤ longest).getD 1)

/-- Whether a deadline is over when so many milliseconds have passed. -/
def isOver (d : Deadline) (elapsed : Nat) : Bool := d.timer?.any (· ≤ elapsed)

end Deadline

/-- The settings of a search. Times are in milliseconds. -/
structure Settings where
  /-- What the ranks of each source count. -/
  weights : PerSource Float
  /-- Which sources take part in hybrid searches. -/
  enabled : PerSource Bool
  /-- The constant that is added to ranks. -/
  rankConstant : Option Number
  k1 : Option Number
  b : Option Number
  deadlines : PerSource Deadline
  /-- How long a response is good for, by the sources that it comes from. -/
  lifetimes : PerSource (Option Number)
  /-- How long a response is good for at most when a source failed. -/
  degradedLifetime : Option Number
  /-- How many responses the cache holds. -/
  cacheBound : Option Number
  /-- How many times the results asked for each source is asked for. -/
  candidateFactor : Option Number
  /-- How many terms a stem stands for at most. -/
  expansions : Option Number
  /-- How much text an excerpt shows around matches. -/
  window : Option Number
  /-- How many documents are read at a time. -/
  readers : Option Number

namespace Settings

def default : Settings where
  weights := ⟨0.5, 0.3, 0.2⟩
  enabled := .all true
  rankConstant := some 60
  k1 := some (.real 1.2)
  b := some (.real 0.75)
  deadlines := ⟨.unlimited, .after 2000, .after 2000⟩
  lifetimes := ⟨some 300000, some 900000, some 180000⟩
  degradedLifetime := some 10000
  cacheBound := some 1000
  candidateFactor := some 2
  expansions := some 64
  window := some 80
  readers := some 8

/-! ### Weights and methods -/

def invalid (summary : Text) (issues : List Issue) : Failure :=
  .settings summary (issues.map Issue.text)

def perSource (check : Schema.Check α) : Schema.Check (PerSource α) := fun path j => do
  let ms ← Schema.members path j
  let part (s : Source) := Schema.member ms s.name check path
  (((Checked.apply (.ok PerSource.mk) (part .bm25)).apply (part .semantic)).apply (part .fuzzy) :
    Checked (PerSource α))

/-- Weights in proportion, so that they add up to one. Weights that are all zero are refused. -/
def proportion (w : PerSource Float) : Except Failure (PerSource Float) :=
  let sum := w.bm25 + w.semantic + w.fuzzy
  if sum ≤ 0 then .error (.settings "Invalid weights" ["at least one weight must be > 0"])
  else .ok (w.map (· / sum))

def readWeights (j : Json) : Except Failure (PerSource Float) :=
  match perSource Schema.amount [] j with
  | .error issues => .error (invalid "Invalid weights" issues)
  | .ok w => proportion (w.map Number.toFloat)

/-- Which sources take part, from a value of any shape. At least one has to. -/
def readMethods (j : Json) : Except Failure (PerSource Bool) :=
  match perSource Schema.bool [] j with
  | .error issues => .error (invalid "Invalid methods" issues)
  | .ok methods =>
    if Source.all.any methods.get then .ok methods
    else .error (.settings "Invalid methods" ["at least one search method must stay enabled"])

def weightsJson (w : PerSource Float) : List (Text × Json) :=
  Source.all.map fun s => (s.name, .number (.ofFloat (w.get s)))

def methodsJson (m : PerSource Bool) : List (Text × Json) :=
  Source.all.map fun s => (s.name, .bool (m.get s))

def withWeights (s : Settings) (j : Json) : Except Failure Settings := do
  return { s with weights := ← readWeights j }

def withMethods (s : Settings) (j : Json) : Except Failure Settings := do
  return { s with enabled := ← readMethods j }

/-! ### Laying a value over settings -/

def positive : Schema.Check Number := fun path j => (Schema.positive path j).map Number.whole

def deadline : Schema.Check Deadline := fun path j =>
  (Schema.nullable positive path j).map fun
    | some n => .after n
    | none => .unlimited

/-- A setting among members: what it was if it is not named, unset if it is named without
a value. -/
def setting (ms : List (Text × Json)) (path : List Text) (name : Text) (unset : α) (was : α)
    (check : Schema.Check α) : Checked α :=
  match Json.member? ms name with
  | none => .ok was
  | some .missing => .ok unset
  | some j => check (path ++ [name]) j

def given (check : Schema.Check α) : Schema.Check (Option α) := fun path j =>
  (check path j).map some

def optionalSetting (ms : List (Text × Json)) (path : List Text) (name : Text) (was : Option α)
    (check : Schema.Check α) : Checked (Option α) :=
  setting ms path name none was (given check)

/-- A group of settings: their members, none if the group is not named or has no value. -/
def group (ms : List (Text × Json)) (name : Text) : Checked (List (Text × Json)) :=
  match Json.member? ms name with
  | none | some .missing => .ok []
  | some j => Schema.members [name] j

def sourceGroup (ms : List (Text × Json)) (name : Text) (unset : α) (was : PerSource α)
    (check : Schema.Check α) : Checked (PerSource α) := do
  let parts ← group ms name
  let part (s : Source) := setting parts [name] s.name unset (was.get s) check
  (((Checked.apply (.ok PerSource.mk) (part .bm25)).apply (part .semantic)).apply (part .fuzzy) :
    Checked (PerSource α))

def scoringGroup (ms : List (Text × Json)) (k1 b : Option Number) :
    Checked (Option Number × Option Number) := do
  let parts ← group ms "bm25"
  Checked.both (optionalSetting parts ["bm25"] "k1" k1 Schema.amount)
    (optionalSetting parts ["bm25"] "b" b Schema.share)

/-- Settings before their weights and methods are checked as a whole. -/
structure Draft where
  weights : PerSource (Option Number)
  enabled : PerSource (Option Bool)
  rankConstant : Option Number
  scoring : Option Number × Option Number
  deadlines : PerSource Deadline
  lifetimes : PerSource (Option Number)
  degradedLifetime : Option Number
  cacheBound : Option Number
  candidateFactor : Option Number
  expansions : Option Number
  window : Option Number
  readers : Option Number

def orMissing (f : α → Json) : Option α → Json
  | some a => f a
  | none => .missing

def draft (base : Settings) (j : Json) : Checked Draft := do
  let ms ← Schema.members [] j
  let d : Checked _ := .ok Draft.mk
  let d : Checked _ := d.apply (sourceGroup ms "weights" none
    (base.weights.map fun w => some (.ofFloat w)) (given Schema.amount))
  let d : Checked _ := d.apply (sourceGroup ms "enabled" none (base.enabled.map some)
    (given Schema.bool))
  let d : Checked _ := d.apply (optionalSetting ms [] "rrfK" base.rankConstant Schema.amount)
  let d : Checked _ := d.apply (scoringGroup ms base.k1 base.b)
  let d : Checked _ := d.apply (sourceGroup ms "sourceTimeoutMs" .unset base.deadlines deadline)
  let d : Checked _ := d.apply (sourceGroup ms "cacheTtlMs" none base.lifetimes
    (given Schema.amount))
  let d : Checked _ := d.apply
    (optionalSetting ms [] "degradedCacheTtlMs" base.degradedLifetime Schema.amount)
  let d : Checked _ := d.apply (optionalSetting ms [] "cacheMaxEntries" base.cacheBound positive)
  let d : Checked _ := d.apply
    (optionalSetting ms [] "candidateMultiplier" base.candidateFactor positive)
  let d : Checked _ := d.apply
    (optionalSetting ms [] "maxPrefixExpansions" base.expansions positive)
  let d : Checked _ := d.apply (optionalSetting ms [] "snippetWindow" base.window positive)
  d.apply (optionalSetting ms [] "rebuildConcurrency" base.readers positive)

/-- Settings from a value of any shape, laid over others. No value at all leaves them as
they are. -/
def resolve (j : Json) (base : Settings := default) : Except Failure Settings := do
  let j := match j with
    | .null | .missing => .object []
    | j => j
  match draft base j with
  | .error issues => throw (invalid "Invalid configuration" issues)
  | .ok d =>
    let weights ← readWeights (.object (Source.all.map fun s =>
      (s.name, orMissing Json.number (d.weights.get s))))
    let enabled ← readMethods (.object (Source.all.map fun s =>
      (s.name, orMissing Json.bool (d.enabled.get s))))
    return { weights, enabled
             rankConstant := d.rankConstant
             k1 := d.scoring.1
             b := d.scoring.2
             deadlines := d.deadlines
             lifetimes := d.lifetimes
             degradedLifetime := d.degradedLifetime
             cacheBound := d.cacheBound
             candidateFactor := d.candidateFactor
             expansions := d.expansions
             window := d.window
             readers := d.readers }

/-! ### Settings as a value -/

def deadlineJson : Deadline → Json
  | .unset => .missing
  | .unlimited => .null
  | .after n => .number n

def toJson (s : Settings) : Json :=
  let number := orMissing Json.number
  .object
    [("weights", .object (weightsJson s.weights)),
      ("enabled", .object (methodsJson s.enabled)),
      ("rrfK", number s.rankConstant),
      ("bm25", .object [("k1", number s.k1), ("b", number s.b)]),
      ("sourceTimeoutMs", .object (Source.all.map fun source =>
        (source.name, deadlineJson (s.deadlines.get source)))),
      ("cacheTtlMs", .object (Source.all.map fun source =>
        (source.name, number (s.lifetimes.get source)))),
      ("degradedCacheTtlMs", number s.degradedLifetime),
      ("cacheMaxEntries", number s.cacheBound),
      ("candidateMultiplier", number s.candidateFactor),
      ("maxPrefixExpansions", number s.expansions),
      ("snippetWindow", number s.window),
      ("rebuildConcurrency", number s.readers)]

def fileText (s : Settings) : Text := s.toJson.writeIndented 0 ++ [10]

/-- Settings from the text of a file that is found at a path. -/
def ofFileText (path content : Text) : Except Failure Settings :=
  match Json.read? content with
  | some j => resolve j
  | none => .error (.settingsFile path)

end Settings

/-- Settings that are in use, and how often they were replaced. -/
structure SettingsHolder where
  current : Settings
  revision : Nat

namespace SettingsHolder

def start (s : Settings) : SettingsHolder := ⟨s, 0⟩

/-- Replaces the settings by what a change makes of them, unless the change is refused. -/
def update (h : SettingsHolder) (change : Settings → Except Failure Settings) :
    Except Failure SettingsHolder := do
  return ⟨← change h.current, h.revision + 1⟩

end SettingsHolder
end Quarry
