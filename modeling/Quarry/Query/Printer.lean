import Quarry.Query

/-!
Query trees written in query notation. Conjunctions and disjunctions are put into parentheses
wherever they stand inside another node.
-/

namespace Quarry.Query

def andWord : Text := Text.ofChars ['A', 'N', 'D']

def orWord : Text := Text.ofChars ['O', 'R']

def notWord : Text := Text.ofChars ['N', 'O', 'T']

def nearOpening : Text := Text.ofChars ['N', 'E', 'A', 'R', '(']

def parenthesize (q : Query) (text : Text) : Text :=
  match q with
  | .and _ | .or _ => 40 :: (text ++ [41])
  | _ => text

def format : Query → Text
  | .term t => t
  | .phrase ts => 34 :: (Text.join [32] ts ++ [34])
  | .stem t => t ++ [42]
  | .near ts distance => nearOpening ++ Text.join [32] ts ++ [44, 32] ++ distance.text ++ [41]
  | .not child => notWord ++ 32 :: parenthesize child (format child)
  | .and children => Text.join (32 :: (andWord ++ [32])) (formatAll children)
  | .or children => Text.join (32 :: (orWord ++ [32])) (formatAll children)
where
  /-- The texts of child queries, in parentheses where they need them. -/
  formatAll : List Query → List Text
    | [] => []
    | q :: rest => parenthesize q (format q) :: formatAll rest

end Quarry.Query
