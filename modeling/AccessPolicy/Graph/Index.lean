/-!
# Indices — where a node of the condition graph is stored

Nodes live in two tables.  The common table holds what depends on the user and the environment
alone, and its slots are numbered from `0` upwards; the table of a subject holds what depends on
the subject instance, and its slots are `-1`, `-2` and so on.
-/

namespace AccessPolicy

/-- A signed index into one of the two tables. -/
structure NodeIndex where
  raw : Int32
deriving DecidableEq, Repr, Inhabited

/-- The place that an index stands for. -/
inductive Slot where
  | common (position : Nat)
  | subject (position : Nat)
deriving DecidableEq, Repr

namespace NodeIndex

def common (position : Nat) : NodeIndex := ⟨Int32.ofNat position⟩

def subject (position : Nat) : NodeIndex := ⟨-Int32.ofNat position - 1⟩

/-- The literal `null`, which every graph starts with. -/
def nullLiteral : NodeIndex := common 0

/-- The literal `true`, which follows `null`. -/
def trueLiteral : NodeIndex := common 1

/-- The literal `false`, which follows `true`. -/
def falseLiteral : NodeIndex := common 2

def isSubject (i : NodeIndex) : Bool := i.raw.toInt < 0

def isCommon (i : NodeIndex) : Bool := 0 ≤ i.raw.toInt

def slot (i : NodeIndex) : Slot :=
  match i.raw.toInt with
  | .ofNat n => .common n
  | .negSucc n => .subject n

/-- The index as it is named in messages. -/
def text (i : NodeIndex) : String := "#" ++ toString i.raw.toInt

end NodeIndex

end AccessPolicy
