import Quarry.Json.Access
import Quarry.Settings

/-!
Settings put in place as they are, for callers that make settings themselves: nothing is checked,
and a whole group of settings is replaced at once.
-/

namespace Quarry.Settings

/-- A double; what is not a number if a value is none. -/
def floatOf (j : Json) : Float := (j.number?.map Number.toFloat).getD (0.0 / 0.0)

def deadlineOf : Json → Deadline
  | .null => .unlimited
  | .number n => .after n
  | _ => .unset

def perSourceOf (f : Json → α) (j : Json) : PerSource α :=
  ⟨f (j.get Source.bm25.name), f (j.get Source.semantic.name), f (j.get Source.fuzzy.name)⟩

def replaceSetting (s : Settings) (setting : Text × Json) : Settings :=
  let (name, j) := setting
  let number := j.number?
  if name = ("weights" : Text) then { s with weights := perSourceOf floatOf j }
  else if name = ("enabled" : Text) then { s with enabled := perSourceOf Json.isTrue j }
  else if name = ("rrfK" : Text) then { s with rankConstant := number }
  else if name = ("bm25" : Text) then
    { s with k1 := j.num? "k1", b := j.num? "b" }
  else if name = ("sourceTimeoutMs" : Text) then { s with deadlines := perSourceOf deadlineOf j }
  else if name = ("cacheTtlMs" : Text) then { s with lifetimes := perSourceOf Json.number? j }
  else if name = ("degradedCacheTtlMs" : Text) then { s with degradedLifetime := number }
  else if name = ("cacheMaxEntries" : Text) then { s with cacheBound := number }
  else if name = ("candidateMultiplier" : Text) then { s with candidateFactor := number }
  else if name = ("maxPrefixExpansions" : Text) then { s with expansions := number }
  else if name = ("snippetWindow" : Text) then { s with window := number }
  else if name = ("rebuildConcurrency" : Text) then { s with readers := number }
  else s

def replace (s : Settings) (settings : List (Text × Json)) : Settings :=
  settings.foldl replaceSetting s

end Quarry.Settings
