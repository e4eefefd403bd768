import Mathlib.Data.List.Basic
import Quarry.Query.Parser

/-! The grammar of queries:

    query := or+
    or    := and (OR and)*
    and   := not (AND not)*
    not   := NOT not | operand | '(' query ')'

Repetition is left recursion, since binary operators and juxtaposition associate to the left. A
derivation builds the tree along the way. -/

namespace Quarry.Query

/-- A lexeme as the grammar sees it: an operand comes with the tree that it stands for. -/
inductive Symbol where
  | operand (q : Query)
  | opening
  | closing
  | and
  | or
  | not

/-- The symbol of a lexeme; a word without any term has none. Words, phrases and proximity groups
that yield no operand are in error. -/
def Lexeme.Kind.symbol : Lexeme.Kind → Except Flaw (Option Symbol)
  | .opening => .ok (some .opening)
  | .closing => .ok (some .closing)
  | .and => .ok (some .and)
  | .or => .ok (some .or)
  | .not => .ok (some .not)
  | kind => (Query.operand kind).map (·.map .operand)

theorem symbol_of_operand {kind : Lexeme.Kind} {q : Query} (h : operand kind = .ok (some q)) :
    kind.symbol = .ok (some (.operand q)) := by
  have hmap : (operand kind).map (·.map Symbol.operand) = .ok (some (.operand q)) := by
    rw [h]
    rfl
  cases kind with
  | word text | phrase text | near words distance => exact hmap
  | opening | closing | and | or | not => cases h

/-- The lexemes spell the symbols once the words without terms are dropped. Every other word, phrase
and proximity group has to yield an operand. -/
inductive Spells : List Lexeme → List Symbol → Prop where
  | nil : Spells [] []
  | drop {x : Lexeme} {xs : List Lexeme} {as : List Symbol} (hx : x.kind.symbol = .ok none)
    (h : Spells xs as) : Spells (x :: xs) as
  | take {x : Lexeme} {xs : List Lexeme} {a : Symbol} {as : List Symbol}
    (hx : x.kind.symbol = .ok (some a)) (h : Spells xs as) : Spells (x :: xs) (a :: as)

/-- The levels of the grammar. -/
inductive Level where
  | query
  | or
  | and
  | not
deriving DecidableEq

/-- The symbols are derived at the level and build the tree. -/
inductive Derives : Level → List Symbol → Query → Prop where
  | operand (q : Query) : Derives .not [.operand q] q
  | negation {as : List Symbol} {q : Query} (h : Derives .not as q) :
    Derives .not (.not :: as) (.not q)
  | group {as : List Symbol} {q : Query} (h : Derives .query as q) :
    Derives .not (.opening :: (as ++ [.closing])) q
  | toAnd {as : List Symbol} {q : Query} (h : Derives .not as q) : Derives .and as q
  | and {as bs : List Symbol} {left right : Query} (hl : Derives .and as left)
    (hr : Derives .not bs right) : Derives .and (as ++ .and :: bs) (conj [left, right])
  | toOr {as : List Symbol} {q : Query} (h : Derives .and as q) : Derives .or as q
  | or {as bs : List Symbol} {left right : Query} (hl : Derives .or as left)
    (hr : Derives .and bs right) : Derives .or (as ++ .or :: bs) (disj [left, right])
  | toQuery {as : List Symbol} {q : Query} (h : Derives .or as q) : Derives .query as q
  | juxtaposition {as bs : List Symbol} {left right : Query} (hl : Derives .query as left)
    (hr : Derives .or bs right) : Derives .query (as ++ bs) (conj [left, right])

namespace Level

/-- How tightly what is derived at a level holds together. -/
def precedence : Level → Nat
  | query => 1
  | or => 2
  | and => 3
  | not => 4

theorem le_precedence (level : Level) : query.precedence ≤ level.precedence := by
  cases level <;> decide

theorem precedence_le (level : Level) : level.precedence ≤ not.precedence := by
  cases level <;> decide

end Level

/-- The level of what an operator builds. -/
def Operator.level : Operator → Level
  | not => .not
  | and => .and
  | or => .or
  | implicit => .query

theorem Operator.precedence_level (op : Operator) : op.level.precedence = op.precedence := by
  cases op <;> rfl

/-- What is derived at a level is derived at every looser one. -/
theorem Derives.weaken {tight loose : Level} {as : List Symbol} {q : Query} (h : Derives tight as q)
    (hle : loose.precedence ≤ tight.precedence) : Derives loose as q := by
  cases tight with
  | query =>
    cases loose with
    | query => exact h
    | or | and | not => exact absurd hle (by decide)
  | or =>
    cases loose with
    | query => exact .toQuery h
    | or => exact h
    | and | not => exact absurd hle (by decide)
  | and =>
    cases loose with
    | query => exact .toQuery (.toOr h)
    | or => exact .toOr h
    | and => exact h
    | not => exact absurd hle (by decide)
  | not =>
    cases loose with
    | query => exact .toQuery (.toOr (.toAnd h))
    | or => exact .toOr (.toAnd h)
    | and => exact .toAnd h
    | not => exact h

/-! ### Spelling -/

theorem Spells.append {xs ys : List Lexeme} {as bs : List Symbol} (hx : Spells xs as)
    (hy : Spells ys bs) : Spells (xs ++ ys) (as ++ bs) := by
  induction hx with
  | nil => exact hy
  | drop hx _ ih => exact .drop hx ih
  | take hx _ ih => exact .take hx ih

theorem Spells.split {xs : List Lexeme} {as bs : List Symbol} (h : Spells xs (as ++ bs)) :
    ∃ ys zs, xs = ys ++ zs ∧ Spells ys as ∧ Spells zs bs := by
  generalize hcs : as ++ bs = cs at h
  induction h generalizing as with
  | nil =>
    obtain ⟨rfl, rfl⟩ := List.append_eq_nil_iff.1 hcs
    exact ⟨[], [], rfl, .nil, .nil⟩
  | drop hx _ ih =>
    obtain ⟨ys, zs, rfl, hys, hzs⟩ := ih hcs
    exact ⟨_ :: ys, zs, rfl, .drop hx hys, hzs⟩
  | @take x xs a cs hx h ih =>
    cases as with
    | nil =>
      subst hcs
      exact ⟨[], x :: xs, rfl, .nil, .take hx h⟩
    | cons b as =>
      cases hcs
      obtain ⟨ys, zs, rfl, hys, hzs⟩ := ih rfl
      exact ⟨x :: ys, zs, rfl, .take hx hys, hzs⟩

/-- The first symbol is spelled by a lexeme behind some that are dropped. -/
theorem Spells.uncons {xs : List Lexeme} {a : Symbol} {as : List Symbol} (h : Spells xs (a :: as)) :
    ∃ dropped x rest, xs = dropped ++ x :: rest ∧ Spells dropped [] ∧
      x.kind.symbol = .ok (some a) ∧ Spells rest as := by
  generalize hcs : a :: as = cs at h
  induction h with
  | nil => cases hcs
  | drop hx _ ih =>
    obtain ⟨dropped, x, rest, rfl, hdropped, hsymbol, hrest⟩ := ih hcs
    exact ⟨_ :: dropped, x, rest, rfl, .drop hx hdropped, hsymbol, hrest⟩
  | take hx h _ =>
    cases hcs
    exact ⟨[], _, _, rfl, .nil, hx, h⟩

end Quarry.Query
