import Quarry.Text

/-!
The ranked sources that take part in a hybrid search, and values that there is one of for each.
Wherever sources are listed they come in one fixed order.
-/

namespace Quarry

inductive Source where
  | bm25
  | semantic
  | fuzzy
deriving DecidableEq, Repr

namespace Source

def all : List Source := [bm25, semantic, fuzzy]

def name : Source → Text
  | bm25 => "bm25"
  | semantic => "semantic"
  | fuzzy => "fuzzy"

def ofName? (t : Text) : Option Source := all.find? (·.name == t)

theorem mem_all (s : Source) : s ∈ all := by cases s <;> decide

end Source

structure PerSource (α : Type u) where
  bm25 : α
  semantic : α
  fuzzy : α
deriving DecidableEq, Repr

namespace PerSource

def get (p : PerSource α) : Source → α
  | .bm25 => p.bm25
  | .semantic => p.semantic
  | .fuzzy => p.fuzzy

def set (p : PerSource α) (s : Source) (a : α) : PerSource α :=
  match s with
  | .bm25 => { p with bm25 := a }
  | .semantic => { p with semantic := a }
  | .fuzzy => { p with fuzzy := a }

def map (f : α → β) (p : PerSource α) : PerSource β := ⟨f p.bm25, f p.semantic, f p.fuzzy⟩

theorem eq_of_get {p q : PerSource α} (h : ∀ s, p.get s = q.get s) : p = q := by
  obtain ⟨_, _, _⟩ := p
  obtain ⟨_, _, _⟩ := q
  obtain rfl := h .bm25
  obtain rfl := h .semantic
  obtain rfl := h .fuzzy
  rfl

theorem get_map (f : α → β) (p : PerSource α) (s : Source) : (p.map f).get s = f (p.get s) := by
  cases s <;> rfl

def all (a : α) : PerSource α := ⟨a, a, a⟩

theorem get_set (p : PerSource α) (s t : Source) (a : α) :
    (p.set s a).get t = if s = t then a else p.get t := by
  cases s <;> cases t <;> rfl

end PerSource

end Quarry
