import Quarry.Proofs.Json.Members
import Quarry.Proofs.Number.Whole
import Quarry.Settings

/-! The places of settings: where a value has them, what settings have there, and what is
admitted there. -/

namespace Quarry

namespace Json

/-- What a value has at a path of members, if it names it. -/
def named? (j : Json) : List Text → Option Json
  | [] => some j
  | name :: rest => match j with
    | .object ms => (member? ms name).bind (named? · rest)
    | _ => none

@[simp] theorem named?_object (ms : List (Text × Json)) (name : Text) :
    (object ms).named? [name] = member? ms name := by
  cases hmember : member? ms name <;> simp [named?, hmember]

/-- A value that is laid over settings, which no value at all changes nothing of. -/
def orEmpty : Json → Json
  | null | missing => object []
  | j => j

theorem named?_orEmpty (j : Json) (name : Text) (rest : List Text) :
    j.orEmpty.named? (name :: rest) = j.named? (name :: rest) := by
  cases j <;> rfl

end Json

namespace Settings

/-! ### Places -/

/-- What is admitted at a place. -/
inductive Kind where
  | amount
  | share
  | positive
  | flag
  | deadline

/-- A positive whole number. -/
def IsCount (n : Number) : Prop := ∃ k, 0 < k ∧ n = .whole k

def Kind.Meets : Kind → Json → Prop
  | amount, .number n => n.isFinite = true ∧ Schema.isNonnegative n = true
  | share, .number n => Schema.isNonnegative n = true ∧ n.toFloat ≤ 1
  | positive, .number n | deadline, .number n => IsCount n
  | flag, .bool _ | deadline, .null => True
  | _, _ => False

theorem Kind.not_meets_missing (kind : Kind) : ¬kind.Meets .missing := by cases kind <;> exact id

/-- The places of settings. -/
inductive Place where
  | weight (source : Source)
  | enabled (source : Source)
  | rankConstant
  | k1
  | b
  | deadline (source : Source)
  | lifetime (source : Source)
  | degradedLifetime
  | cacheBound
  | candidateFactor
  | expansions
  | window
  | readers

namespace Place

/-- Where the value of a place is found. -/
def path : Place → List Text
  | weight source => ["weights", source.name]
  | enabled source => ["enabled", source.name]
  | rankConstant => ["rrfK"]
  | k1 => ["bm25", "k1"]
  | b => ["bm25", "b"]
  | deadline source => ["sourceTimeoutMs", source.name]
  | lifetime source => ["cacheTtlMs", source.name]
  | degradedLifetime => ["degradedCacheTtlMs"]
  | cacheBound => ["cacheMaxEntries"]
  | candidateFactor => ["candidateMultiplier"]
  | expansions => ["maxPrefixExpansions"]
  | window => ["snippetWindow"]
  | readers => ["rebuildConcurrency"]

def kind : Place → Kind
  | weight _ | rankConstant | k1 | lifetime _ | degradedLifetime => .amount
  | b => .share
  | enabled _ => .flag
  | deadline _ => .deadline
  | cacheBound | candidateFactor | expansions | window | readers => .positive

end Place

/-- What a draft has at a place, as a value. -/
def Draft.value (d : Draft) : Place → Json
  | .weight source => orMissing .number (d.weights.get source)
  | .enabled source => orMissing .bool (d.enabled.get source)
  | .rankConstant => orMissing .number d.rankConstant
  | .k1 => orMissing .number d.scoring.1
  | .b => orMissing .number d.scoring.2
  | .deadline source => deadlineJson (d.deadlines.get source)
  | .lifetime source => orMissing .number (d.lifetimes.get source)
  | .degradedLifetime => orMissing .number d.degradedLifetime
  | .cacheBound => orMissing .number d.cacheBound
  | .candidateFactor => orMissing .number d.candidateFactor
  | .expansions => orMissing .number d.expansions
  | .window => orMissing .number d.window
  | .readers => orMissing .number d.readers

/-- Settings that nothing is laid over yet. -/
def toDraft (s : Settings) : Draft where
  weights := s.weights.map fun w => some (.ofFloat w)
  enabled := s.enabled.map some
  rankConstant := s.rankConstant
  scoring := (s.k1, s.b)
  deadlines := s.deadlines
  lifetimes := s.lifetimes
  degradedLifetime := s.degradedLifetime
  cacheBound := s.cacheBound
  candidateFactor := s.candidateFactor
  expansions := s.expansions
  window := s.window
  readers := s.readers

/-- What settings have at a place, as a value. -/
def value (s : Settings) (p : Place) : Json := s.toDraft.value p

theorem value_weight (s : Settings) (source : Source) :
    s.value (.weight source) = .number (.ofFloat (s.weights.get source)) :=
  congrArg (orMissing Json.number) (PerSource.get_map _ _ source)

theorem Draft.value_weight {d : Draft} {source : Source} {n : Number}
    (h : d.weights.get source = some n) :
    d.value (.weight source) = .number n :=
  congrArg (orMissing Json.number) h

/-- All settings have a value, which is one that is admitted. -/
def Valid (s : Settings) : Prop := ∀ p : Place, p.kind.Meets (s.value p)

/-- The settings that are built in are valid. -/
theorem default_valid : default.Valid := by
  intro p
  cases p with
  | weight source =>
    rw [value_weight]
    cases source <;> exact ⟨by decide +kernel, by decide +kernel⟩
  | k1 | b => exact ⟨by decide +kernel, by decide +kernel⟩
  | enabled source => cases source <;> exact trivial
  | deadline source =>
    cases source with
    | bm25 => exact trivial
    | semantic | fuzzy => exact ⟨_, Nat.succ_pos _, rfl⟩
  | lifetime source => cases source <;> exact ⟨rfl, rfl⟩
  | rankConstant | degradedLifetime => exact ⟨rfl, rfl⟩
  | cacheBound | candidateFactor | expansions | window | readers => exact ⟨_, Nat.succ_pos _, rfl⟩

end Settings
end Quarry
