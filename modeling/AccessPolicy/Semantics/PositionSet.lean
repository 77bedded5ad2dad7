import AccessPolicy.Bitmask
import Mathlib.Data.Finset.Basic
import Mathlib.Data.Finset.Filter

/-!
# Position sets — what masks stand for

A mask stands for a finite set of positions and for a size, which bounds the positions that can be
set.  Programs over numbered masks are run through a record of operations, so that one program is
run on masks and on the sets that they stand for.
-/

namespace AccessPolicy

/-- A set of positions within so many bytes. -/
@[ext] structure PositionSet where
  size : Nat
  members : Finset Nat
  lt_limit : ∀ i ∈ members, i < 8 * size

namespace PositionSet

/-- No bytes and no positions. -/
def empty : PositionSet := ⟨0, ∅, fun _ hi => absurd hi (Finset.notMem_empty _)⟩

/-- No positions, within as many bytes as `count` items fill. -/
def withItems (count : Nat) : PositionSet :=
  ⟨(count + 7) / 8, ∅, fun _ hi => absurd hi (Finset.notMem_empty _)⟩

/-- Those of the positions that are within as many bytes as `count` items fill. -/
def ofIndices (count : Nat) (indices : List Nat) : PositionSet :=
  ⟨(count + 7) / 8, indices.toFinset.filter (· < 8 * ((count + 7) / 8)),
    fun _ hi => (Finset.mem_filter.mp hi).2⟩

/-- Add a position within the bytes; any other changes nothing. -/
def set (s : PositionSet) (index : Nat) : PositionSet :=
  if h : index < 8 * s.size then
    ⟨s.size, insert index s.members, fun i hi => by
      rcases Finset.mem_insert.mp hi with rfl | hi
      · exact h
      · exact s.lt_limit i hi⟩
  else s

/-- Take a position away; one that is not there changes nothing. -/
def unset (s : PositionSet) (index : Nat) : PositionSet :=
  ⟨s.size, s.members.erase index, fun i hi => s.lt_limit i (Finset.mem_of_mem_erase hi)⟩

/-- The positions of both, within the bytes of the longer one. -/
def union (s t : PositionSet) : PositionSet :=
  ⟨max s.size t.size, s.members ∪ t.members, fun i hi => by
    rcases Finset.mem_union.mp hi with hi | hi
    · have := s.lt_limit i hi
      omega
    · have := t.lt_limit i hi
      omega⟩

def unionAll (sets : List PositionSet) : PositionSet := sets.foldr union empty

end PositionSet

/-! ## Programs -/

/-- An operation on numbered masks; what it makes takes the place of the target. -/
inductive MaskCommand where
  | empty (target : Nat)
  | withItems (target count : Nat)
  | ofIndices (target count : Nat) (indices : List Nat)
  | set (target index : Nat)
  | unset (target index : Nat)
  | union (target source : Nat)
  | unionAll (target : Nat) (sources : List Nat)
deriving Repr

def MaskCommand.target : MaskCommand → Nat
  | .empty target | .withItems target _ | .ofIndices target _ _ | .set target _ | .unset target _
  | .union target _ | .unionAll target _ => target

/-- The operations that commands stand for, on masks of some kind. -/
structure MaskOperations (Mask : Type) where
  empty : Mask
  withItems : Nat → Mask
  ofIndices : Nat → List Nat → Mask
  set : Mask → Nat → Mask
  unset : Mask → Nat → Mask
  union : Mask → Mask → Mask
  unionAll : List Mask → Mask

namespace MaskOperations

variable {Mask : Type} (ops : MaskOperations Mask)

/-- What a command makes. -/
def result (masks : Nat → Mask) : MaskCommand → Mask
  | .empty _ => ops.empty
  | .withItems _ count => ops.withItems count
  | .ofIndices _ count indices => ops.ofIndices count indices
  | .set target index => ops.set (masks target) index
  | .unset target index => ops.unset (masks target) index
  | .union target source => ops.union (masks target) (masks source)
  | .unionAll _ sources => ops.unionAll (sources.map masks)

def apply (masks : Nat → Mask) (command : MaskCommand) : Nat → Mask :=
  Function.update masks command.target (ops.result masks command)

/-- The masks after a program that starts with empty ones. -/
def run (program : List MaskCommand) : Nat → Mask :=
  program.foldl ops.apply fun _ => ops.empty

end MaskOperations

def Bitmask.operations : MaskOperations Bitmask :=
  { empty, withItems, ofIndices, set, unset, union, unionAll }

def PositionSet.operations : MaskOperations PositionSet :=
  { empty, withItems, ofIndices, set, unset, union, unionAll }

/-! ## Grouping -/

/-- Masks to be joined, in groups of groups. -/
inductive MaskGroup where
  | mask (m : Bitmask)
  | group (parts : List MaskGroup)

namespace MaskGroup

mutual

/-- Join each group before the groups that it is a part of. -/
def join : MaskGroup → Bitmask
  | .mask m => m
  | .group parts => Bitmask.unionAll (joinParts parts)

def joinParts : List MaskGroup → List Bitmask
  | [] => []
  | part :: rest => part.join :: joinParts rest

end

mutual

/-- The masks of all groups, from left to right. -/
def masks : MaskGroup → List Bitmask
  | .mask m => [m]
  | .group parts => masksOf parts

def masksOf : List MaskGroup → List Bitmask
  | [] => []
  | part :: rest => part.masks ++ masksOf rest

end

end MaskGroup

end AccessPolicy
