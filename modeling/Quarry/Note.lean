import Quarry.Failure

/-!
Notes that the parts of a search leave about what they did.
-/

namespace Quarry

inductive Level where
  | debug
  | info
  | warn
  | error
deriving DecidableEq

inductive Note.Detail where
  | none
  | data (j : Json)
  | failure (f : Failure)

structure Note where
  level : Level
  /-- The part that leaves the note. -/
  component : Text
  message : Text
  detail : Note.Detail

end Quarry
