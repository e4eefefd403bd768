import Quarry.Index.Document
import Quarry.RankOrder
import Quarry.Ranking.Scalar
import Quarry.Source

/-!
Weighted reciprocal rank fusion. Each source ranks documents from one on, and a document gets
`weight / (k + rank)` from every source that ranks it, summed in the fixed order of the sources.
-/

namespace Quarry

structure Ranked where
  docId : DocId
  score : Float
  source : Source
  /-- The place in the order of the source, from one on. -/
  rank : Nat

namespace Ranked

def number (source : Source) (rank : Nat) : List (DocId × Float) → List Ranked
  | [] => []
  | (id, score) :: rest => ⟨id, score, source, rank⟩ :: number source (rank + 1) rest

/-- The entries of a list without those whose document occurs earlier in it. -/
def firstOfEach (seen : List DocId) : List (DocId × Float) → List (DocId × Float)
  | [] => []
  | (id, score) :: rest =>
    if seen.contains id then firstOfEach seen rest
    else (id, score) :: firstOfEach (id :: seen) rest

/-- Ranks an order of scored documents; of a repeated document the first place counts. -/
def assign (source : Source) (ordering : List (DocId × Float)) : List Ranked :=
  number source 1 (firstOfEach [] ordering)

/-- Ranks plain names, the score of a place being its reciprocal. -/
def ofIds (source : Source) (ids : List DocId) : List Ranked :=
  (ids.eraseDups.zipIdx 1).map fun (id, rank) => ⟨id, 1 / Float.ofNat rank, source, rank⟩

end Ranked

structure Fused (α : Type) where
  docId : DocId
  score : α
  /-- The sources that rank the document, in their fixed order. -/
  sources : List Source

namespace Fusion

variable {α : Type} [Scalar α]

def contribute (entries : List (Fused α)) (source : Source) (id : DocId) (amount : α) :
    List (Fused α) :=
  match entries with
  | [] => [⟨id, Scalar.zero + amount, [source]⟩]
  | e :: rest =>
    if e.docId = id then
      { e with
        score := e.score + amount
        sources := if e.sources.contains source then e.sources else e.sources ++ [source] } :: rest
    else e :: contribute rest source id amount

/-- Adds the ranking of one source, given as documents with their ranks. -/
def contributeAll (weight k : α) (source : Source) (ranking : List (DocId × α))
    (entries : List (Fused α)) : List (Fused α) :=
  ranking.foldl (fun entries (id, rank) => contribute entries source id (weight / (k + rank)))
    entries

/-- The sums of all sources, in the order in which the documents come up. -/
def sums (weights : PerSource α) (k : α) (rankings : PerSource (List (DocId × α))) :
    List (Fused α) :=
  Source.all.foldl (fun entries s => contributeAll (weights.get s) k s (rankings.get s) entries) []

/-- The fused order: the greatest sum first, and of equal sums the smaller name. A source that takes
no part ranks nothing. -/
def fuse (weights : PerSource α) (k : α) (rankings : PerSource (List (DocId × α))) :
    List (Fused α) :=
  rankSort (Scalar.ranksBefore Fused.score Fused.docId) (sums weights k rankings)

end Fusion
end Quarry
