import AccessPolicy.Error
import AccessPolicy.Number.Binary64

/-!
# Recency cache — a bounded store that forgets what was least recently used

Entries are kept with the most recently used one in front.  A successful look-up and a store move
their key to the front; a store of a new key in a full cache drops the last entry.
-/

namespace AccessPolicy

/-- What a cache counts, and how full it is. -/
structure CacheStats where
  hits : Nat
  misses : Nat
  evictions : Nat
  entries : Nat
  capacity : Nat
deriving DecidableEq, Repr

namespace CacheStats

/-- The share of look-ups that were hits; `0.0` before the first one. -/
def hitRate (s : CacheStats) : Binary64 :=
  let total := s.hits + s.misses
  if total = 0 then .zero else (Binary64.ofInt s.hits).div (Binary64.ofInt total)

end CacheStats

/-- The bounded maps that entries are kept in, which come from elsewhere: how one is made, if memory
can be set aside for it, how many entries it holds at most, and which ones, the most recently used
first. -/
structure RecencyMaps (α : Type) where
  Map : Type
  make? : (capacity : Nat) → Option Map
  capacity : Map → Nat
  entries : Map → List (String × α)

structure Cache (α : Type) where
  capacity : Nat
  /-- Most recently used first; no key occurs twice. -/
  entries : List (String × α)
  hits : Nat
  misses : Nat
  evictions : Nat
deriving Repr

namespace Cache

variable {α : Type}

/-- A cache on a map that is made for it; it must have room for an entry.  If the map cannot be made,
there is no cache and no error either. -/
def create (maps : RecencyMaps α) (capacity : Nat) : Except PolicyError (Option (Cache α)) :=
  if capacity = 0 then .error (.configuration .zeroCapacity)
  else .ok ((maps.make? capacity).map fun m => ⟨maps.capacity m, maps.entries m, 0, 0, 0⟩)

/-- An empty cache; it must have room for an entry.  This is `create` where the map can be made. -/
def new (capacity : Nat) : Except PolicyError (Cache α) :=
  if capacity = 0 then .error (.configuration .zeroCapacity) else .ok ⟨capacity, [], 0, 0, 0⟩

def find? (c : Cache α) (key : String) : Option α := c.entries.lookup key

/-- Is the key cached?  This changes nothing. -/
def has (c : Cache α) (key : String) : Bool := (c.find? key).isSome

def size (c : Cache α) : Nat := c.entries.length

def isEmpty (c : Cache α) : Bool := c.entries.isEmpty

def stats (c : Cache α) : CacheStats := ⟨c.hits, c.misses, c.evictions, c.size, c.capacity⟩

/-- The entries of all other keys, in their order. -/
def others (c : Cache α) (key : String) : List (String × α) := c.entries.filter (·.1 ≠ key)

/-- Look a key up and count the look-up. -/
def get (c : Cache α) (key : String) : Option α × Cache α :=
  match c.find? key with
  | some entry =>
    (some entry, { c with entries := (key, entry) :: c.others key, hits := c.hits + 1 })
  | none => (none, { c with misses := c.misses + 1 })

/-- Store an entry; replacing one of the same key is no eviction. -/
def set (c : Cache α) (key : String) (entry : α) : Cache α :=
  let rest := c.others key
  if c.has key ∨ c.size < c.capacity then { c with entries := (key, entry) :: rest }
  else { c with entries := (key, entry) :: rest.dropLast, evictions := c.evictions + 1 }

/-- The cached entry, or the given one stored under the key. -/
def getOrInsert (c : Cache α) (key : String) (create : Unit → α) : α × Cache α :=
  match c.get key with
  | (some entry, c) => (entry, c)
  | (none, c) =>
    let entry := create ()
    (entry, c.set key entry)

/-- Put another entry in the place of a cached one, without counting this as a use. -/
def refresh (c : Cache α) (key : String) (entry : α) : Cache α :=
  { c with entries := c.entries.map fun (k, old) => (k, if k = key then entry else old) }

/-- Forget every entry and every count. -/
def clear (c : Cache α) : Cache α := ⟨c.capacity, [], 0, 0, 0⟩

end Cache

end AccessPolicy
