import Quarry.Index
import Quarry.Query
import Quarry.RankOrder
import Quarry.Ranking.Positions
import Quarry.Ranking.Scalar

/-!
BM25 ranking. A term scores `idf · tf · (k1 + 1) / (tf + k1 · (1 - b + b · length / average))` in a
document, where `idf = log (1 + (N - df + 1/2) / (df + 1/2))`. Only documents that match are scored:
candidates come from postings, so that the work follows the number of matches and not of documents.
-/

namespace Quarry

/-- The constants of the scoring formula, and the bound on the terms that a stem stands for. -/
structure Tuning (α : Type) where
  k1 : α
  b : α
  expansions : Option Nat

structure Scored (α : Type) where
  docId : DocId
  score : α
deriving Repr

abbrev Scores (α : Type) := List (DocId × α)

namespace Bm25

variable {α : Type} [Scalar α]

/-- The weight of a term that `frequency` of `total` documents hold. -/
def inverseDocumentFrequency (total frequency : α) : α :=
  Scalar.log (Scalar.one + (total - frequency + Scalar.half) / (frequency + Scalar.half))

/-- The score of one posting: `idf` is the weight of its term, `average` the average length. -/
def contribution (tuning : Tuning α) (idf frequency length average : α) : α :=
  let norm :=
    if Scalar.lt Scalar.zero average then
      Scalar.one - tuning.b + tuning.b * (length / average)
    else Scalar.one
  (idf * (frequency * (tuning.k1 + Scalar.one))) / (frequency + tuning.k1 * norm)

/-- The average length of the documents of an index, zero without documents. -/
def averageLength (ix : Index) : α :=
  if ix.documentCount = 0 then Scalar.zero
  else Scalar.ofNat ix.totalLength / Scalar.ofNat ix.documentCount

def weight (ix : Index) (count : Nat) : α :=
  inverseDocumentFrequency (Scalar.ofNat ix.documentCount) (Scalar.ofNat count)

def postingScore (tuning : Tuning α) (ix : Index) (idf : α) (p : Posting) : α :=
  contribution tuning idf (Scalar.ofNat p.frequency) (Scalar.ofNat (ix.documentLength p.docId))
    (averageLength ix)

def scoreOf? (scores : Scores α) (id : DocId) : Option α :=
  (scores.find? (·.1 == id)).map (·.2)

/-- Adds to the score of a document, which counts as zero where it is missing. -/
def addScore (scores : Scores α) (id : DocId) (score : α) : Scores α :=
  match scores with
  | [] => [(id, Scalar.zero + score)]
  | (other, total) :: rest =>
    if other = id then (other, total + score) :: rest else (other, total) :: addScore rest id score

/-- The documents of several parts with the sums of their scores. -/
def union (parts : List (Scores α)) : Scores α :=
  parts.flatten.foldl (fun scores (id, score) => addScore scores id score) []

def termScores (tuning : Tuning α) (ix : Index) (term : Term) : Scores α :=
  let postings := ix.postingsOf term
  let idf := weight ix postings.length
  postings.map fun p => (p.docId, postingScore tuning ix idf p)

/-- The shortest of the lists, the first of several equally short ones. -/
def shortest (first : List β) (others : List (List β)) : List β :=
  others.foldl (fun best list => if list.length < best.length then list else best) first

/-- The documents that hold all the terms, at positions that `accept` lets through. Candidates come
from the shortest list of postings, and a score is the sum over the terms in order. -/
def structural (tuning : Tuning α) (ix : Index) (terms : List Term)
    (accept : List (List Nat) → Bool) : Scores α :=
  match terms.map ix.postingsOf with
  | [] => []
  | first :: others =>
    if (first :: others).any (·.isEmpty) then []
    else (shortest first others).filterMap fun candidate => do
      let postings ← terms.mapM fun term => ix.posting? term candidate.docId
      if accept (postings.map (·.positions)) then
        let weights := (first :: others).map fun list => weight ix list.length
        some (candidate.docId, (weights.zip postings).foldl
          (fun total (idf, p) => total + postingScore tuning ix idf p) Scalar.zero)
      else none

/-- The sum of the scores that a document has in several parts, if it is in all of them. -/
def addAll (total : α) (id : DocId) : List (Scores α) → Option α
  | [] => some total
  | part :: rest => do
    let score ← scoreOf? part id
    addAll (total + score) id rest

/-- Takes out the documents of several parts, one part after the other until nothing is left. -/
def subtract (kept : Scores α) : List (Scores α) → Scores α
  | [] => kept
  | part :: rest =>
    if kept.isEmpty then []
    else subtract (kept.filter fun (id, _) => (scoreOf? part id).isNone) rest

/-- The documents that are in all of the positive parts and in none of the negative ones. The
smallest positive part gives the candidates, and scores are summed from the smallest part to
the largest. -/
def conjunction (positives negatives : List (Scores α)) : Scores α :=
  match positives.mergeSort (fun a b => a.length ≤ b.length) with
  | [] => []
  | smallest :: others =>
    let matching := smallest.filterMap fun (id, score) =>
      (addAll score id others).map fun total => (id, total)
    subtract matching negatives

/-- Whether a width is within the distance of a proximity query. Nothing is as wide as a window that
does not exist, unless the distance is infinite. -/
def withinDistance (distance : Number) (span : Option Nat) : Bool :=
  match span, distance with
  | some width, distance => distance.admits width
  | none, .whole _ => false
  | none, .real x => x == 1.0 / 0.0

def evaluate (tuning : Tuning α) (ix : Index) : Query → Scores α
  | .term t => termScores tuning ix t
  | .stem stem => union ((ix.expand stem tuning.expansions).map (termScores tuning ix))
  | .phrase terms => structural tuning ix terms Positions.consecutive
  | .near terms distance =>
    structural tuning ix terms fun lists => withinDistance distance (Positions.coverSpan lists)
  | .and children =>
    conjunction (evaluatePositives children) (evaluateNegatives children)
  | .or children => union (evaluatePositives children)
  | .not _ => []
where
  /-- The scores of the children that are no negations. -/
  evaluatePositives : List Query → List (Scores α)
    | [] => []
    | .not _ :: rest => evaluatePositives rest
    | q :: rest => evaluate tuning ix q :: evaluatePositives rest
  /-- The scores of what the negations among the children negate. -/
  evaluateNegatives : List Query → List (Scores α)
    | [] => []
    | .not q :: rest => evaluate tuning ix q :: evaluateNegatives rest
    | _ :: rest => evaluateNegatives rest

def score (tuning : Tuning α) (ix : Index) (q : Query) : List (Scored α) :=
  if ix.documentCount = 0 then []
  else rankSort (Scalar.ranksBefore Scored.score Scored.docId)
    ((evaluate tuning ix q).map fun (id, score) => ⟨id, score⟩)

/-- The terms that a query names outside negations, stems expanded, in the order of the query. -/
def namedTerms (expansions : Option Nat) (ix : Index) : Query → List Term
  | .term t => [t]
  | .stem stem => ix.expand stem expansions
  | .phrase terms => terms
  | .near terms _ => terms
  | .and children => namedTermsOfAll children
  | .or children => namedTermsOfAll children
  | .not _ => []
where
  /-- The terms that the children name, one child after the other. -/
  namedTermsOfAll : List Query → List Term
    | [] => []
    | q :: rest => namedTerms expansions ix q ++ namedTermsOfAll rest

/-- The indexed terms that a query can match outside negations, each once. -/
def matchedTerms (expansions : Option Nat) (ix : Index) (q : Query) : List Term :=
  (namedTerms expansions ix q).eraseDups.filter ix.hasTerm

end Bm25
end Quarry
