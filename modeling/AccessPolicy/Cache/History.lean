import AccessPolicy.Cache.Recency

/-!
# Cache histories — what has been asked of a cache

A run applies operations one after another.  Its history keeps every operation with the cache that
it was asked of, so that it can be told afterwards which look-ups were hits and which keys were new.
-/

namespace AccessPolicy.Cache

variable {α : Type}

inductive Operation (α : Type) where
  | get (key : String)
  | set (key : String) (entry : α)
  | has (key : String)
  | getOrInsert (key : String) (create : Unit → α)
  | stats
  | clear

namespace Operation

/-- The cache after the operation. -/
def apply (c : Cache α) : Operation α → Cache α
  | .get key => (c.get key).2
  | .set key entry => c.set key entry
  | .has _ | .stats => c
  | .getOrInsert key create => (c.getOrInsert key create).2
  | .clear => c.clear

def isClear : Operation α → Bool
  | .clear => true
  | _ => false

/-- Does the operation count as a hit or a miss? -/
def isLookUp : Operation α → Bool
  | .get _ | .getOrInsert .. => true
  | _ => false

/-- The key that is used: stored, or looked up and found. -/
def touched? (c : Cache α) : Operation α → Option String
  | .get key => if c.has key then some key else none
  | .set key _ | .getOrInsert key _ => some key
  | .has _ | .stats | .clear => none

/-- What is stored, and under which key. -/
def stored? (c : Cache α) : Operation α → Option (String × α)
  | .set key entry => some (key, entry)
  | .getOrInsert key create => if c.has key then none else some (key, create ())
  | .get _ | .has _ | .stats | .clear => none

/-- Is something stored under a key that is not cached? -/
def storesNew (c : Cache α) (op : Operation α) : Bool :=
  (op.stored? c).any fun (key, _) => !c.has key

end Operation

/-- The cache after all operations. -/
def run (c : Cache α) (ops : List (Operation α)) : Cache α := ops.foldl Operation.apply c

/-- An operation and the cache that it is asked of. -/
structure Moment (α : Type) where
  cache : Cache α
  operation : Operation α

/-- The moments of a run, in order. -/
def moments (c : Cache α) : List (Operation α) → List (Moment α)
  | [] => []
  | op :: rest => ⟨c, op⟩ :: moments (op.apply c) rest

/-- The moments of a run after the last `clear`, the latest first. -/
def sinceClear (c : Cache α) (ops : List (Operation α)) : List (Moment α) :=
  (moments c ops).reverse.takeWhile (!·.operation.isClear)

/-- The keys that were used, the latest use first. -/
def touches (past : List (Moment α)) : List String :=
  past.filterMap fun m => m.operation.touched? m.cache

/-- What was stored, the latest store first. -/
def stores (past : List (Moment α)) : List (String × α) :=
  past.filterMap fun m => m.operation.stored? m.cache

/-- The keys that were used after the last use of `key`; it is not among them itself. -/
def touchesAfter (past : List (Moment α)) (key : String) : List String :=
  (touches past).takeWhile (· ≠ key)

end AccessPolicy.Cache
