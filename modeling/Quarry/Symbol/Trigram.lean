import Std.Data.TreeMap
import Quarry.Number
import Quarry.RankOrder
import Quarry.Ranking.Scalar
import Quarry.Text.Blank
import Quarry.Text.Lowercase

/-!
Trigrams of names and an index of names by their trigrams. A name is trimmed, lower-cased and padded
with two spaces on each side, so that its first and last characters have trigrams of their own. A
name scores the share of the trigrams of the query that it has.
-/

namespace Quarry

namespace Text

def triples : Text → List Text
  | a :: b :: c :: rest => [a, b, c] :: triples (b :: c :: rest)
  | _ => []

/-- The distinct trigrams of a name, in the order of their first occurrence. -/
def trigrams (name : Text) : List Text :=
  let trimmed := name.trim
  if trimmed.isEmpty then []
  else (triples ([32, 32] ++ trimmed.lower ++ [32, 32])).eraseDups

end Text

/-- A key with the share of trigrams that its name has. -/
structure TrigramMatch where
  key : Text
  score : Float

/-- Names under keys, one name to a key, found by their trigrams. -/
structure TrigramIndex where
  byTrigram : Std.TreeMap Text (Std.TreeMap Text Unit)
  byKey : Std.TreeMap Text (List Text)

namespace TrigramIndex

def empty : TrigramIndex := ⟨∅, ∅⟩

def size (ix : TrigramIndex) : Nat := ix.byKey.size

/-- Takes a key out from under one trigram; a trigram without keys goes too. -/
def dropKey (byTrigram : Std.TreeMap Text (Std.TreeMap Text Unit)) (key trigram : Text) :
    Std.TreeMap Text (Std.TreeMap Text Unit) :=
  match byTrigram[trigram]? with
  | none => byTrigram
  | some keys =>
    let keys := keys.erase key
    if keys.isEmpty then byTrigram.erase trigram else byTrigram.insert trigram keys

def addKey (byTrigram : Std.TreeMap Text (Std.TreeMap Text Unit)) (key trigram : Text) :
    Std.TreeMap Text (Std.TreeMap Text Unit) :=
  byTrigram.insert trigram ((byTrigram.getD trigram ∅).insert key ())

def contains (ix : TrigramIndex) (key : Text) : Bool := ix.byKey.contains key

def delete (ix : TrigramIndex) (key : Text) : TrigramIndex :=
  match ix.byKey[key]? with
  | none => ix
  | some trigrams =>
    ⟨trigrams.foldl (fun byTrigram t => dropKey byTrigram key t) ix.byTrigram, ix.byKey.erase key⟩

/-- Puts a name under a key, in place of any earlier one. A blank name leaves the key out. -/
def set (ix : TrigramIndex) (key name : Text) : TrigramIndex :=
  let ix := ix.delete key
  match name.trigrams with
  | [] => ix
  | trigrams =>
    ⟨trigrams.foldl (fun byTrigram t => addKey byTrigram key t) ix.byTrigram,
      ix.byKey.insert key trigrams⟩

def defaultThreshold : Float := 0.3

def hits (ix : TrigramIndex) (wanted : List Text) : Std.TreeMap Text Nat :=
  wanted.foldl (fun hits trigram => (ix.byTrigram.getD trigram ∅).foldl
    (fun hits key _ => hits.insert key (hits.getD key 0 + 1)) hits) ∅

/-- The keys whose names score at least the threshold, best first, at most as many as the bound
says. -/
def search (ix : TrigramIndex) (query : Text) (bound : Option Nat) (threshold : Float) :
    List TrigramMatch :=
  let wanted := query.trigrams
  let found := (ix.hits wanted).toList.filterMap fun (key, count) =>
    let score := Float.ofNat count / Float.ofNat wanted.length
    if threshold ≤ score then some (TrigramMatch.mk key score) else none
  takeBound bound (rankSort (Scalar.ranksBefore TrigramMatch.score TrigramMatch.key) found)

end TrigramIndex
end Quarry
