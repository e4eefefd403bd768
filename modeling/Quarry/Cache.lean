import Quarry.Number

/-!
A cache of responses. An entry remembers the version that it was made for, and when; it is good for
that version alone and until its time has run out. Entries are kept in the order of their last
setting, and the oldest go first when there are more than the bound allows.
-/

namespace Quarry

structure Cache.Entry (β : Type) where
  key : Text
  response : β
  createdAt : Float
  lifetime : Float
  version : Nat

/-- A cache. A missing bound allows any number of entries. -/
structure Cache (β : Type) where
  entries : List (Cache.Entry β)
  bound : Option Nat
  hits : Nat
  misses : Nat

namespace Cache

variable {β : Type}

def empty (bound : Option Nat) : Cache β := ⟨[], bound, 0, 0⟩

def defaultBound : Nat := 1000

/-- The bound that a number stands for. What is not a number is no bound, for no number of entries
is above it. -/
def boundOf (n : Number) : Option Nat := if n.isNotANumber then none else n.floorBound

def size (c : Cache β) : Nat := c.entries.length

def entry? (c : Cache β) (key : Text) : Option (Entry β) := c.entries.find? (·.key == key)

def erase (c : Cache β) (key : Text) : Cache β :=
  { c with entries := c.entries.filter (·.key != key) }

/-- Whether an entry is good for a version at a time. -/
def Entry.isFresh (e : Entry β) (version : Nat) (now : Float) : Bool :=
  e.version == version && now - e.createdAt < e.lifetime

/-- The response of a key for a version, if there is a good one. Counts a hit or a miss, and drops
an entry that is no longer good. -/
def get (c : Cache β) (key : Text) (version : Nat) (now : Float) : Option β × Cache β :=
  match c.entry? key with
  | some e =>
    if e.isFresh version now then (some e.response, { c with hits := c.hits + 1 })
    else (none, { c.erase key with misses := c.misses + 1 })
  | none => (none, { c with misses := c.misses + 1 })

def evict (c : Cache β) : Cache β :=
  match c.bound with
  | some n => { c with entries := c.entries.drop (c.entries.length - n) }
  | none => c

/-- Whether a setting is taken up: the cache holds entries at all, and the lifetime is not over
before it begins. -/
def accepts (c : Cache β) (lifetime : Float) : Bool := c.bound != some 0 && !(lifetime ≤ 0)

/-- Sets the response of a key, which makes it the youngest. -/
def set (c : Cache β) (key : Text) (response : β) (lifetime : Float) (version : Nat) (now : Float) :
    Cache β :=
  if c.accepts lifetime then
    let c := c.erase key
    evict { c with entries := c.entries ++ [⟨key, response, now, lifetime, version⟩] }
  else c

/-- Drops all entries. The counts of hits and misses are kept. -/
def invalidate (c : Cache β) : Cache β := { c with entries := [] }

def resize (c : Cache β) (bound : Option Nat) : Cache β := evict { c with bound }

/-- The share of hits among the lookups, zero before the first. -/
def hitRate (c : Cache β) : Float :=
  if c.hits + c.misses = 0 then 0 else Float.ofNat c.hits / Float.ofNat (c.hits + c.misses)

end Cache
end Quarry
