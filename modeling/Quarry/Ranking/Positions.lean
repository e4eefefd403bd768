import Quarry.Bisect

/-!
Conditions on the positions of several terms in one document: that they stand side by side, and how
narrow a window holds one of each. Positions may be any ordered numbers.
-/

namespace Quarry.Positions

variable {α : Type} [LT α] [DecidableLT α] [BEq α]

/-- Whether a position is in an ascending list, found by halving. -/
def holds (positions : List α) (target : α) : Bool :=
  let values := positions.toArray
  let place := bisect (fun i => match values[i]? with
    | some value => decide (value < target)
    | none => false) 0 values.size
  values[place]? == some target

variable [Add α] [OfNat α 1]

/-- Whether each of the lists holds the position after the one before it, from `start` on. -/
def followFrom (start : α) : List (List α) → Bool
  | [] => true
  | positions :: rest => holds positions (start + 1) && followFrom (start + 1) rest

/-- Whether positions can be chosen from the lists, one from each, that follow one another. -/
def consecutive : List (List α) → Bool
  | [] => false
  | first :: rest => first.any fun start => followFrom start rest

omit [Add α] [OfNat α 1]

/-- A position, and the number of the list that it is from. -/
structure Event (α : Type) where
  position : α
  label : Nat

/-- The order of events: by position, and at one position by list. -/
def Event.le (a b : Event α) : Bool :=
  if a.position < b.position then true
  else if b.position < a.position then false
  else a.label ≤ b.label

def events (lists : List (List α)) : List (Event α) :=
  ((lists.zipIdx).flatMap fun (positions, label) => positions.map (⟨·, label⟩)).mergeSort Event.le

/-- A window over the events: how often it holds each list, how many lists it holds, the events from
its left end on, and the narrowest window so far that held all lists. -/
structure Window (α : Type) where
  counts : Array Nat
  covered : Nat
  left : List (Event α)
  best : Option α

variable [Sub α]

/-- The lesser of two widths, of which the first may be missing. -/
def narrower (best : Option α) (width : α) : α :=
  match best with
  | some b => if width < b then width else b
  | none => width

/-- Drops events on the left for as long as all `need` lists are held, taking note of the width up
to `position` before each. -/
def shrink (need : Nat) (position : α) (counts : Array Nat) (covered : Nat) (best : Option α) :
    List (Event α) → Window α
  | [] => ⟨counts, covered, [], best⟩
  | head :: left =>
    if covered = need then
      let best := narrower best (position - head.position)
      let count := counts.getD head.label 0 - 1
      shrink need position (counts.setIfInBounds head.label count)
        (if count = 0 then covered - 1 else covered) (some best) left
    else ⟨counts, covered, head :: left, best⟩

def Window.extend (need : Nat) (w : Window α) (event : Event α) : Window α :=
  let count := w.counts.getD event.label 0
  shrink need event.position (w.counts.setIfInBounds event.label (count + 1))
    (if count = 0 then w.covered + 1 else w.covered) w.best w.left

/-- The width of the narrowest window that holds a position from every list: the greatest less the
least of them. There is none if a list is empty. -/
def coverSpan (lists : List (List α)) : Option α :=
  let all := events lists
  let start : Window α := ⟨Array.replicate lists.length 0, 0, all, none⟩
  (all.foldl (Window.extend lists.length) start).best

end Quarry.Positions
