import Quarry.Text.Lowercase
import Quarry.Text.WordCharacter

/-!
Tokens of code and prose. A word is a maximal run of word characters; runs joined by single dots
form a dotted identifier. Every run gives one token, and a dotted identifier one more, its compound,
after the tokens of its parts. Parts take consecutive positions and the compound shares the position
of its first part, so that adjacency is the same whether or not a query names the compound.
-/

namespace Quarry

abbrev Term := Text

structure Token where
  term : Term
  /-- The place of the token among the words of the text, from zero. -/
  position : Nat
  /-- The offset of its first unit. -/
  start : Nat
  /-- The offset behind its last unit. -/
  stop : Nat
  /-- Whether it is the whole of a dotted identifier. -/
  compound : Bool
deriving DecidableEq, Repr

/-- A dotted identifier, or a single run, in a text: its offset and its runs. -/
structure Word where
  start : Nat
  parts : List Text
deriving DecidableEq, Repr

namespace Word

def dot : UInt16 := 46

/-- What follows a dot at the head that joins two runs: a word character comes right after it. -/
def afterDot? : List Point → Option (List Point)
  | .unit 46 :: next :: rest => if next.isWord then some (next :: rest) else none
  | _ => none

theorem eq_cons_of_afterDot? {ps qs : List Point} (h : afterDot? ps = some qs) :
    ps = .unit dot :: qs := by
  unfold afterDot? at h
  split at h
  · split at h
    · simp_all [dot]
    · simp at h
  · simp at h

theorem length_dropWhile_le (p : Point → Bool) (ps : List Point) :
    (ps.dropWhile p).length ≤ ps.length := (List.dropWhile_sublist p).length_le

/-- The runs at the head of a list of points that are joined by single dots, and what follows. -/
def chain (ps : List Point) : List (List Point) × List Point :=
  match _h : afterDot? (ps.dropWhile Point.isWord) with
  | some next => (ps.takeWhile Point.isWord :: (chain next).1, (chain next).2)
  | none => ([ps.takeWhile Point.isWord], ps.dropWhile Point.isWord)
termination_by ps.length
decreasing_by
  all_goals
    have := length_dropWhile_le Point.isWord ps
    rw [eq_cons_of_afterDot? _h] at this
    simp only [List.length_cons] at this
    omega

theorem length_chain_le (ps : List Point) :
    (chain ps).2.length ≤ (ps.dropWhile Point.isWord).length := by
  fun_induction chain ps with
  | case1 ps next h ih =>
    have := length_dropWhile_le Point.isWord next
    rw [eq_cons_of_afterDot? h, List.length_cons]
    show (chain next).2.length ≤ _
    omega
  | case2 ps h => exact Nat.le_refl _

/-- A word character at the head belongs to the first run, so that less than all follows. -/
theorem length_chain_lt {p : Point} {ps : List Point} (h : p.isWord = true) :
    (chain (p :: ps)).2.length < (p :: ps).length := by
  have := length_chain_le (p :: ps)
  rw [List.dropWhile_cons_of_pos h] at this
  have := length_dropWhile_le Point.isWord ps
  rw [List.length_cons]
  omega

def text (w : Word) : Text := Text.join [dot] w.parts

/-- The words of a list of points that begins at `offset` of its text. -/
def scan (offset : Nat) : List Point → List Word
  | [] => []
  | p :: rest =>
    if _h : p.isWord then
      let w : Word := ⟨offset, (chain (p :: rest)).1.map Text.ofPoints⟩
      w :: scan (offset + w.text.length) (chain (p :: rest)).2
    else scan (offset + p.width) rest
termination_by ps => ps.length
decreasing_by
  · exact length_chain_lt _h
  · simp

/-- One token for each run, from the given position and offset on. -/
def partTokens (position offset : Nat) : List Text → List Token
  | [] => []
  | part :: rest =>
    ⟨part.lower, position, offset, offset + part.length, false⟩ ::
      partTokens (position + 1) (offset + part.length + 1) rest

/-- The tokens of a word whose first run has the given position: those of its runs, and the compound
when there are several. -/
def tokens (w : Word) (position : Nat) : List Token :=
  partTokens position w.start w.parts ++
    if w.parts.length ≤ 1 then []
    else [⟨w.text.lower, position, w.start, w.start + w.text.length, true⟩]

/-- The tokens of words, positions running on from one to the next. -/
def tokensFrom (position : Nat) : List Word → List Token
  | [] => []
  | w :: rest => w.tokens position ++ tokensFrom (position + w.parts.length) rest

end Word

namespace Text

def words (t : Text) : List Word := Word.scan 0 t.points

/-- The tokens of a text, the compound of an identifier after its parts. -/
def tokens (t : Text) : List Token := Word.tokensFrom 0 t.words

def phraseTerms (t : Text) : List Term :=
  (t.tokens.filter (!·.compound)).map (·.term)

def positionCount (t : Text) : Nat := t.tokens.countP (!·.compound)

/-- The terms that a bare word of a query stands for: the compound if the word holds one dotted
identifier and no other run, and otherwise its runs. -/
def queryTerms (t : Text) : List Term :=
  let parts := t.tokens.filter (!·.compound)
  match t.tokens.filter (·.compound) with
  | [whole] =>
    if parts.all fun part => whole.start ≤ part.start && part.stop ≤ whole.stop then [whole.term]
    else parts.map (·.term)
  | _ => parts.map (·.term)

end Text
end Quarry
