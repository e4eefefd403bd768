import Quarry.Bisect

/-!
Sorting by a relation "comes before". The items are taken as a run that is already in order, to
which the others are added one by one, each behind all that do not come after it as far as search by
halving finds; items of which neither comes before the other keep their order. Scores that are not
numbers are before and behind nothing, and this rule also says where those go.
-/

namespace Quarry

variable {α : Type u}

/-- Puts an item into a list in which `before` holds in order, behind the items that it does not
come before. -/
def insertByHalving (before : α → α → Bool) (sorted : List α) (x : α) : List α :=
  let items := sorted.toArray
  let place := bisect (fun i => match items[i]? with
    | some y => !before x y
    | none => false) 0 items.size
  sorted.take place ++ x :: sorted.drop place

/-- The longest part at the head, after `last`, in which no item comes before its neighbour, and the
rest. -/
def ascendingRun (before : α → α → Bool) (last : α) : List α → List α × List α
  | [] => ([], [])
  | x :: rest =>
    if before x last then ([], x :: rest)
    else
      let (run, rest) := ascendingRun before x rest
      (x :: run, rest)

/-- The longest part at the head, after `last`, in which each item comes before its neighbour, and
the rest. -/
def descendingRun (before : α → α → Bool) (last : α) : List α → List α × List α
  | [] => ([], [])
  | x :: rest =>
    if before x last then
      let (run, rest) := descendingRun before x rest
      (x :: run, rest)
    else ([], x :: rest)

def rankSort (before : α → α → Bool) : List α → List α
  | [] => []
  | [x] => [x]
  | x :: y :: rest =>
    let (run, rest) :=
      if before y x then
        let (run, rest) := descendingRun before x (y :: rest)
        (run.reverse ++ [x], rest)
      else
        let (run, rest) := ascendingRun before x (y :: rest)
        (x :: run, rest)
    rest.foldl (insertByHalving before) run

end Quarry
