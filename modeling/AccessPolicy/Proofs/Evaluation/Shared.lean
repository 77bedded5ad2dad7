import AccessPolicy.Proofs.Evaluation.Reading
import Mathlib.Data.Option.Basic
import Mathlib.Logic.Function.Basic
import Mathlib.Logic.Relation

/-!
# Shared values — instances on top of the same common values

Any number of subject instances share the values of one common table.  A slot is then a place in the
common table or in the table of an instance, its value does not depend on any cell, and computing
it asks for the slots that its node reads.
-/

namespace AccessPolicy

/-! ## Shared values -/

/-- What the values of a subject instance have of their own. -/
@[ext]
structure OwnValues where
  program : Program
  resource : Json
  cells : List Cell

def OwnValues.mark (q : Nat) (c : Cell) (v : OwnValues) : OwnValues :=
  { v with cells := v.cells.set q c }

/-- The values of `n` subject instances over the same common values. -/
@[ext]
structure SharedValues (n : Nat) where
  common : CommonValues
  own : Fin n → OwnValues

/-- The table of an instance by its number, or the common one. -/
abbrev Layer (n : Nat) := Option (Fin n)

/-- A slot in one of the layers. -/
structure Place (n : Nat) where
  layer : Layer n
  position : Nat
deriving DecidableEq

/-- A read of an index, through the values of an instance or of the common ones alone. -/
structure Access (n : Nat) where
  layer : Layer n
  index : NodeIndex
deriving DecidableEq

namespace Layer

variable {n : Nat}

def kind : Layer n → TableKind
  | none => .common
  | some _ => .subject

/-- Where a slot is, as seen from the layer; the common table knows nothing of a subject. -/
def place? (l : Layer n) : Slot → Option (Place n)
  | .common q => some ⟨none, q⟩
  | .subject q => l.map fun k => ⟨some k, q⟩

theorem place?_own (l : Layer n) (q : Nat) : l.place? (l.kind.slotAt q) = some ⟨l, q⟩ := by
  cases l <;> rfl

end Layer

/-- The place that a read is about. -/
def Access.place? {n : Nat} (a : Access n) : Option (Place n) := a.layer.place? a.index.slot

namespace SharedValues

variable {n : Nat}

/-- Nothing computed yet. -/
def new (common : CommonValues) (own : Fin n → Program × Json) : SharedValues n where
  common
  own k := ⟨(own k).1, (own k).2, (own k).1.nodes.map fun _ => .empty⟩

/-- The values of an instance as they stand. -/
def view (v : SharedValues n) (k : Fin n) : SubjectValues :=
  ⟨(v.own k).program, v.common, (v.own k).resource, (v.own k).cells⟩

def read (a : Access n) : StateT (SharedValues n) Option Json := fun v =>
  match a.layer with
  | none => do
    let (x, common) ← CommonValues.read a.index v.common
    some (x, { v with common })
  | some k => do
    let (x, w) ← SubjectValues.read a.index (v.view k)
    some (x, ⟨w.common, Function.update v.own k ⟨w.program, w.resource, w.cells⟩⟩)

def readAll : List (Access n) → StateT (SharedValues n) Option (List Json)
  | [] => pure []
  | a :: rest => do
    let x ← read a
    return x :: (← readAll rest)

/-! ## Layers -/

def program (v : SharedValues n) : Layer n → Program
  | none => v.common.program
  | some k => (v.own k).program

def root (v : SharedValues n) : Layer n → Root → Json
  | none => v.common.root
  | some k => (v.view k).root

def cells (v : SharedValues n) : Layer n → List Cell
  | none => v.common.cells
  | some k => (v.own k).cells

def mark (v : SharedValues n) (l : Layer n) (q : Nat) (c : Cell) : SharedValues n :=
  match l with
  | none => { v with common := v.common.mark q c }
  | some k => { v with own := Function.update v.own k ((v.own k).mark q c) }

def node? (v : SharedValues n) (x : Place n) : Option Node :=
  (v.program x.layer).nodes[x.position]?

def cell? (v : SharedValues n) (x : Place n) : Option Cell := (v.cells x.layer)[x.position]?

def Filled (v : SharedValues n) (x : Place n) : Prop := ∃ c, v.cell? x = some (.filled c)

/-! ## Values without cells -/

def otherValue (v : SharedValues n) : Layer n → Nat → Json
  | none => fun _ => .null
  | some _ => v.common.value

/-- The value of each slot of a layer, whatever the cells hold. -/
def slotValue (v : SharedValues n) (l : Layer n) : Nat → Json :=
  (v.program l).value l.kind (v.root l) (v.otherValue l)

/-- The value of each index as seen from a layer, whatever the cells hold. -/
def value (v : SharedValues n) (l : Layer n) : NodeIndex → Json :=
  l.kind.operand (v.slotValue l) (v.otherValue l)

/-- The value that a read is for. -/
def answer (v : SharedValues n) (a : Access n) : Json := v.value a.layer a.index

/-! ## Demand -/

/-- Computing the first slot asks for the second. -/
def AsksFor (v : SharedValues n) (x y : Place n) : Prop :=
  ∃ node o, v.node? x = some node ∧ o ∈ node.demanded (v.value x.layer) ∧
    x.layer.place? o.slot = some y

/-- Computing the first slot asks for the second, directly or not. -/
def Demands (v : SharedValues n) : Place n → Place n → Prop := Relation.ReflTransGen v.AsksFor

end SharedValues

/-! ## The same data -/

namespace SharedValues

variable {n : Nat} {v w u : SharedValues n}

/-- The same tables and the same data; cells may differ. -/
structure SameData (v w : SharedValues n) : Prop where
  common : v.common.SameData w.common
  program : ∀ k, (w.own k).program = (v.own k).program
  resource : ∀ k, (w.own k).resource = (v.own k).resource

namespace SameData

theorem refl (v : SharedValues n) : v.SameData v := ⟨.refl _, fun _ => rfl, fun _ => rfl⟩

theorem trans (h : v.SameData w) (h' : w.SameData u) : v.SameData u where
  common := h.common.trans h'.common
  program k := (h'.program k).trans (h.program k)
  resource k := (h'.resource k).trans (h.resource k)

theorem view (h : v.SameData w) (k : Fin n) : (v.view k).SameData (w.view k) :=
  ⟨h.program k, h.common, h.resource k⟩

theorem program_eq (h : v.SameData w) (l : Layer n) : w.program l = v.program l := by
  cases l with
  | none => exact h.common.program
  | some k => exact h.program k

theorem root_eq (h : v.SameData w) (l : Layer n) : w.root l = v.root l := by
  cases l with
  | none => exact h.common.root
  | some k => exact (h.view k).root

end SameData

/-! ## Cells -/

theorem own_mark_self (v : SharedValues n) (k : Fin n) (q : Nat) (c : Cell) :
    (v.mark (some k) q c).own k = (v.own k).mark q c :=
  Function.update_self ..

theorem own_mark_of_ne {l : Layer n} {k : Fin n} (h : l ≠ some k) (v : SharedValues n) (q : Nat)
    (c : Cell) : (v.mark l q c).own k = v.own k := by
  cases l with
  | none => rfl
  | some j => exact Function.update_of_ne (fun hk => h (congrArg some hk.symm)) ..

theorem sameData_mark (v : SharedValues n) (l : Layer n) (q : Nat) (c : Cell) :
    v.SameData (v.mark l q c) := by
  have hown (k : Fin n) : (v.mark l q c).own k = v.own k ∨
      (v.mark l q c).own k = (v.own k).mark q c := by
    by_cases h : l = some k
    · rw [h, own_mark_self]
      exact .inr rfl
    · exact .inl (own_mark_of_ne h v q c)
  refine ⟨?_, fun k => ?_, fun k => ?_⟩
  · cases l with
    | none => exact ⟨rfl, rfl, rfl⟩
    | some k => exact .refl _
  · rcases hown k with h | h
    · rw [h]
    · rw [h]
      rfl
  · rcases hown k with h | h
    · rw [h]
    · rw [h]
      rfl

theorem view_mark_self (v : SharedValues n) (k : Fin n) (q : Nat) (c : Cell) :
    (v.mark (some k) q c).view k = (v.view k).mark q c := by
  rw [view, own_mark_self]
  rfl

theorem cells_mark_self (v : SharedValues n) (l : Layer n) (q : Nat) (c : Cell) :
    (v.mark l q c).cells l = (v.cells l).set q c := by
  cases l with
  | none => rfl
  | some k =>
    rw [cells, own_mark_self]
    rfl

theorem cells_mark_of_ne {l l' : Layer n} (h : l' ≠ l) (v : SharedValues n) (q : Nat) (c : Cell) :
    (v.mark l q c).cells l' = v.cells l' := by
  cases l' with
  | some k =>
    rw [cells, own_mark_of_ne (Ne.symm h)]
    rfl
  | none =>
    cases l with
    | none => exact absurd rfl h
    | some k => rfl

theorem length_cells_mark (v : SharedValues n) (l l' : Layer n) (q : Nat) (c : Cell) :
    ((v.mark l q c).cells l').length = (v.cells l').length := by
  by_cases h : l' = l
  · rw [h, cells_mark_self, List.length_set]
  · rw [cells_mark_of_ne h]

/-- Setting a cell changes no other. -/
theorem cell?_mark {l : Layer n} {q : Nat} {old : Cell} (h : v.cell? ⟨l, q⟩ = some old) (c : Cell)
    (x : Place n) : (v.mark l q c).cell? x = if x = ⟨l, q⟩ then some c else v.cell? x := by
  have hlt : q < (v.cells l).length := (List.getElem?_eq_some_iff.mp h).1
  split
  · rename_i hx
    rw [hx, cell?, cells_mark_self, List.getElem?_set_self hlt]
  · rename_i hx
    rw [cell?, cell?]
    by_cases hl : x.layer = l
    · have hq : q ≠ x.position := fun hq => hx (by rw [← hl, hq])
      rw [hl, cells_mark_self, List.getElem?_set_ne hq]
    · rw [cells_mark_of_ne hl]

theorem filled_mark_running {l : Layer n} {q : Nat} (h : v.cell? ⟨l, q⟩ = some .empty)
    (x : Place n) : (v.mark l q .running).Filled x ↔ v.Filled x := by
  unfold Filled
  rw [cell?_mark h]
  split
  · rename_i hx
    rw [hx, h]
    simp
  · rfl

theorem filled_mark_filled {l : Layer n} {q : Nat} (h : v.cell? ⟨l, q⟩ = some .running) (y : Json)
    (x : Place n) : (v.mark l q (.filled y)).Filled x ↔ x = ⟨l, q⟩ ∨ v.Filled x := by
  unfold Filled
  rw [cell?_mark h]
  split
  · rename_i hx
    simp [hx]
  · rename_i hx
    simp [hx]

/-! ## Values and demand -/

/-- An index has the value of its place, and is `null` where it has none. -/
theorem value_eq (v : SharedValues n) (l : Layer n) (i : NodeIndex) :
    v.value l i = match l.place? i.slot with
      | some x => v.slotValue x.layer x.position
      | none => .null := by
  rw [value, TableKind.operand.eq_def]
  cases l <;> cases i.slot <;> rfl

/-- Where the filled slots include what each of them asks for, they include what is demanded. -/
theorem filled_of_demands {x y : Place n} (h : v.Demands x y)
    (hclosed : ∀ {x y}, w.Filled x → v.AsksFor x y → (v.node? y).isSome → w.Filled y)
    (hx : (v.node? x).isSome → w.Filled x) (hy : (v.node? y).isSome) : w.Filled y := by
  induction h with
  | refl => exact hx hy
  | tail _ hask ih =>
    -- only slots that there are ask for others
    obtain ⟨node, o, hnode, ho, hplace⟩ := hask
    exact hclosed (ih (by rw [hnode]; rfl)) ⟨node, o, hnode, ho, hplace⟩ hy

end SharedValues

end AccessPolicy
