import Quarry.Number
import Quarry.Token

/-!
Query trees. Conjunctions and disjunctions are built flat: a conjunction among the children of a
conjunction gives way to its own children, and one child alone stands for itself.
-/

namespace Quarry

inductive Query where
  | term (term : Term)
  /-- Documents that hold the terms one right after the other. -/
  | phrase (terms : List Term)
  /-- Documents that hold a term beginning with the stem. -/
  | stem (stem : Text)
  /-- Documents that hold all terms within a distance, counted in positions. -/
  | near (terms : List Term) (distance : Number)
  /-- Takes documents away from the conjunction it stands in. -/
  | not (child : Query)
  | and (children : List Query)
  | or (children : List Query)
deriving Inhabited

namespace Query

/-- The children of a conjunction, and any other query by itself. -/
def conjuncts : Query → List Query
  | .and children => children
  | q => [q]

/-- The children of a disjunction, and any other query by itself. -/
def disjuncts : Query → List Query
  | .or children => children
  | q => [q]

def conj (qs : List Query) : Query :=
  match qs.flatMap conjuncts with
  | [q] => q
  | flat => .and flat

def disj (qs : List Query) : Query :=
  match qs.flatMap disjuncts with
  | [q] => q
  | flat => .or flat

def isNegation : Query → Bool
  | .not _ => true
  | _ => false

def ofTerms : List Term → Query
  | [t] => .term t
  | ts => .phrase ts

end Query
end Quarry
