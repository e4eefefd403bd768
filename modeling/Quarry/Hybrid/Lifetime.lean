import Quarry.Number.Binary
import Quarry.Settings

/-!
How long responses are good for. The lifetimes of the sources that a response comes from are mixed
in the proportion of their weights, and a response with a failed source ends early.
-/

namespace Quarry.Lifetime

/-- What stands for a lifetime that is not set. A response with it is never good. -/
def unset : Float := 0.0 / 0.0

/-- The lesser of two numbers, and what is not a number if one of them is not. -/
def lesser (a b : Float) : Float :=
  if a.isNaN then a else if b.isNaN then b else if b < a then b else a

def ofSource (s : Settings) (source : Source) : Float :=
  ((s.lifetimes.get source).map Number.toFloat).getD unset

def least (s : Settings) (sources : List Source) : Float :=
  sources.foldl (fun least source => lesser least (ofSource s source)) (1.0 / 0.0)

/-- Lifetimes mixed by weights that add up to `total`, to the nearest millisecond. -/
def weighted (s : Settings) (sources : List Source) (total : Float) : Float :=
  roundHalfUp (sources.foldl (fun sum source =>
    sum + s.weights.get source / total * ofSource s source) 0)

/-- The lifetime of a response: mixed over the sources that found anything, or over all that ran if
none did. Without sources it is that of the first source, which may be unset. -/
def mixed (s : Settings) (productive ran : List Source) : Option Float :=
  let pool := if productive.isEmpty then ran else productive
  let total := pool.foldl (fun sum source => sum + s.weights.get source) 0
  if pool.isEmpty then s.lifetimes.bm25.map Number.toFloat
  else if total ≤ 0 then some (least s pool)
  else some (weighted s pool total)

/-- The lifetime of a response, at most that of degraded ones if a source failed. -/
def ofResponse (s : Settings) (productive ran : List Source) (failed : Bool) : Float :=
  let lifetime := (mixed s productive ran).getD unset
  if failed then lesser lifetime ((s.degradedLifetime.map Number.toFloat).getD unset)
  else lifetime

end Quarry.Lifetime
