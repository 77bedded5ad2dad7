import AccessPolicy.Evaluation.Values
import AccessPolicy.Proofs.Graph.Placement

/-!
# Memo — a slot holds what computing it from scratch gives

The value of a slot is defined without cells, by computing its node from the values of its operands.
Whatever was read before, reading a slot of an ordered table has a result, which is this value, and
leaves only such values behind.
-/

namespace AccessPolicy

/-! ## Nodes -/

namespace Node

/-- The value of a node, given the value of each operand. -/
def value (cs : Concepts) (root : Root → Json) (operand : NodeIndex → Json) (n : Node) : Json :=
  n.evaluate (m := Id) cs root operand

/-- Reading the right operand of `&&` and `||` only if it is needed makes no difference. -/
theorem value_binary (cs : Concepts) (root : Root → Json) (operand : NodeIndex → Json)
    (op : BinaryOp) (l r : NodeIndex) :
    (binary op l r).value cs root operand = op.apply (operand l) (operand r) := by
  cases op <;> rfl

/-- A node looks at its operands and, if it is one, at its root. -/
theorem value_congr {cs : Concepts} {root root' : Root → Json} {f g : NodeIndex → Json}
    {n : Node} (hroot : ∀ r, n = .root r → root r = root' r)
    (hops : ∀ o ∈ n.operands, f o = g o) : n.value cs root f = n.value cs root' g := by
  cases n with
  | binary op l r =>
    rw [value_binary, value_binary, hops l (by simp [operands]), hops r (by simp [operands])]
  | root r => exact hroot r rfl
  | _ => simp_all [value, evaluate, operands]

theorem bind_run {σ α β : Type} {m : StateT σ Option α} {f : α → StateT σ Option β} {s s' : σ}
    {a : α} (h : m s = some (a, s')) : (m >>= f) s = f a s' := by
  simp [bind, StateT.bind, h]

/-- The operands that evaluating the node reads, given the value of each: the right one of `&&` and
`||` only if the left one does not decide. -/
def demanded (values : NodeIndex → Json) : Node → List NodeIndex
  | .binary .and l r => if (values l).truthy then [l, r] else [l]
  | .binary .or l r => if (values l).truthy then [l] else [l, r]
  | n => n.operands

theorem mem_operands_of_demanded {values : NodeIndex → Json} {n : Node} {o : NodeIndex}
    (h : o ∈ n.demanded values) : o ∈ n.operands := by
  unfold demanded at h
  split at h
  · split at h <;> simp_all [operands]
  · split at h <;> simp_all [operands]
  · exact h

end Node

/-- A step that keeps the invariant `I`, and after which everything is done that was done before. -/
structure Advances {σ : Type} (I : σ → Prop) (Done : Slot → σ → Prop) (s s' : σ) : Prop where
  holds : I s'
  stays : ∀ {x : Slot}, Done x s → Done x s'

theorem Advances.trans {σ : Type} {I : σ → Prop} {Done : Slot → σ → Prop} {s s' s'' : σ}
    (h : Advances I Done s s') (h' : Advances I Done s' s'') : Advances I Done s s'' :=
  ⟨h'.holds, fun hx => h'.stays (h.stays hx)⟩

namespace Node

/-- Reads that give the values of the operands, whatever was read before, make the node give its
own value, and what each of them gets done is done afterwards. -/
theorem evaluate_run {σ : Type} {I : σ → Prop} {Done : Slot → σ → Prop}
    {read : NodeIndex → StateT σ Option Json} {values : NodeIndex → Json} (cs : Concepts)
    (root : Root → Json) {n : Node}
    (hread : ∀ o ∈ n.demanded values, ∀ s, I s →
      ∃ s', read o s = some (values o, s') ∧ Advances I Done s s' ∧ Done o.slot s')
    {s : σ} (hs : I s) :
    ∃ s', n.evaluate cs root read s = some (n.value cs root values, s') ∧ Advances I Done s s' ∧
      ∀ o ∈ n.demanded values, Done o.slot s' := by
  have hone {o : NodeIndex} {f : Json → Json} (ho : o ∈ n.demanded values) :
      ∃ s', (do return f (← read o) : StateT σ Option Json) s = some (f (values o), s') ∧
        Advances I Done s s' ∧ ∀ o' ∈ [o], Done o'.slot s' := by
    obtain ⟨s₁, h₁, hs₁, hdone⟩ := hread o ho s hs
    exact ⟨s₁, by rw [bind_run h₁]; rfl, hs₁, by simpa using hdone⟩
  have hpair {l r : NodeIndex} {f : Json → Json → Json} (hl : l ∈ n.demanded values)
      (hr : r ∈ n.demanded values) :
      ∃ s', (do let x ← read l; let y ← read r; return f x y : StateT σ Option Json) s =
        some (f (values l) (values r), s') ∧ Advances I Done s s' ∧ ∀ o ∈ [l, r], Done o.slot s' := by
    obtain ⟨s₁, h₁, hs₁, hdone₁⟩ := hread l hl s hs
    obtain ⟨s₂, h₂, hs₂, hdone₂⟩ := hread r hr s₁ hs₁.holds
    refine ⟨s₂, by rw [bind_run h₁, bind_run h₂]; rfl, hs₁.trans hs₂, ?_⟩
    simpa using ⟨hs₂.stays hdone₁, hdone₂⟩
  cases n with
  | null | boolean | number | string | root =>
    exact ⟨s, rfl, ⟨hs, id⟩, by simp [demanded, operands]⟩
  | property receiver member => exact hone (by simp [demanded, operands])
  | arrayItem receiver index =>
    exact hpair (by simp [demanded, operands]) (by simp [demanded, operands])
  | unary op operand => exact hone (by simp [demanded, operands])
  | is concept operand => exact hone (by simp [demanded, operands])
  | binary op l r =>
    rw [value_binary]
    -- where the right operand is not read, the state is the one after the left
    cases op with
    | and =>
      obtain ⟨s₁, h₁, hs₁, hdone₁⟩ := hread l (by rw [demanded]; split <;> simp) s hs
      rw [evaluate, bind_run h₁, BinaryOp.apply, demanded]
      by_cases hl : (values l).truthy = true
      · obtain ⟨s₂, h₂, hs₂, hdone₂⟩ := hread r (by simp [demanded, hl]) s₁ hs₁.holds
        rw [if_pos hl, if_pos hl, if_pos hl]
        exact ⟨s₂, h₂, hs₁.trans hs₂, by simpa using ⟨hs₂.stays hdone₁, hdone₂⟩⟩
      · rw [if_neg hl, if_neg hl, if_neg hl]
        exact ⟨s₁, rfl, hs₁, by simpa using hdone₁⟩
    | or =>
      obtain ⟨s₁, h₁, hs₁, hdone₁⟩ := hread l (by rw [demanded]; split <;> simp) s hs
      rw [evaluate, bind_run h₁, BinaryOp.apply, demanded]
      by_cases hl : (values l).truthy = true
      · rw [if_pos hl, if_pos hl, if_pos hl]
        exact ⟨s₁, rfl, hs₁, by simpa using hdone₁⟩
      · obtain ⟨s₂, h₂, hs₂, hdone₂⟩ := hread r (by simp [demanded, hl]) s₁ hs₁.holds
        rw [if_neg hl, if_neg hl, if_neg hl]
        exact ⟨s₂, h₂, hs₁.trans hs₂, by simpa using ⟨hs₂.stays hdone₁, hdone₂⟩⟩
    | _ => exact hpair (by simp [demanded, operands]) (by simp [demanded, operands])

end Node

/-! ## Values without cells -/

/-- Look an operand up in the table itself or in the other one. -/
def TableKind.operand {α : Type} (kind : TableKind) (own other : Nat → α) (i : NodeIndex) : α :=
  match kind, i.slot with
  | .common, .common p | .subject, .subject p => own p
  | .common, .subject p | .subject, .common p => other p

/-- The kind of the other table. -/
def TableKind.opposite : TableKind → TableKind
  | .common => .subject
  | .subject => .common

theorem TableKind.operand_cases (kind : TableKind) (i : NodeIndex) :
    (∃ q, i.slot = kind.slotAt q ∧
      ∀ {α : Type} (own other : Nat → α), kind.operand own other i = own q) ∨
    ∃ q, i.slot = kind.opposite.slotAt q ∧
      ∀ {α : Type} (own other : Nat → α), kind.operand own other i = other q := by
  cases hi : i.slot with
  | common q =>
    cases kind with
    | common => exact .inl ⟨q, rfl, by simp [operand, hi]⟩
    | subject => exact .inr ⟨q, rfl, by simp [operand, hi]⟩
  | subject q =>
    cases kind with
    | common => exact .inr ⟨q, rfl, by simp [operand, hi]⟩
    | subject => exact .inl ⟨q, rfl, by simp [operand, hi]⟩

namespace Program

variable {p : Program} {kind : TableKind} {root : Root → Json} {other : Nat → Json}

/-- The value of a slot, at most `fuel` slots below one another being computed; `other` has the
values of the other table. -/
def valueFrom (p : Program) (kind : TableKind) (root : Root → Json) (other : Nat → Json) :
    (fuel position : Nat) → Json
  | 0, _ => .null
  | fuel + 1, position =>
    match p.nodes[position]? with
    | some n => n.value p.concepts root (kind.operand (valueFrom p kind root other fuel) other)
    | none => .null

def value (p : Program) (kind : TableKind) (root : Root → Json) (other : Nat → Json)
    (position : Nat) : Json :=
  p.valueFrom kind root other p.size position

/-- Operands in the same table come before the node. -/
def Ordered (p : Program) (kind : TableKind) : Prop :=
  ∀ {position : Nat} {n : Node}, p.nodes[position]? = some n →
    ∀ o ∈ n.operands, ∀ {q : Nat}, o.slot = kind.slotAt q → q < position

/-- Operands that a node may refer to come before it, if they are in the same table. -/
theorem ordered_ofTable {c : Nat} {t : NodeTable} (h : ∀ {q : Nat} {n : TypedNode},
    t[q]? = some n → ∀ o ∈ n.node.operands, NodeTable.mayRefer kind c q o = true) (cs : Concepts) :
    (ofTable cs t).Ordered kind := by
  intro position n hn o ho q hq
  rw [ofTable, List.getElem?_map, Option.map_eq_some_iff] at hn
  obtain ⟨m, hm, rfl⟩ := hn
  have hrefer := h hm o ho
  cases kind <;> simpa [NodeTable.mayRefer, hq, TableKind.slotAt] using hrefer

theorem operand_congr {α : Type} {own own' other : Nat → α} {i : NodeIndex}
    (h : ∀ q, i.slot = kind.slotAt q → own q = own' q) :
    kind.operand own other i = kind.operand own' other i := by
  rw [TableKind.operand.eq_def, TableKind.operand.eq_def]
  cases kind <;> cases hi : i.slot <;> first | rfl | exact h _ hi

theorem valueFrom_eq_of_lt (hord : p.Ordered kind) {fuel fuel' position : Nat}
    (h : position < fuel) (h' : position < fuel') :
    p.valueFrom kind root other fuel position = p.valueFrom kind root other fuel' position := by
  induction position using Nat.strongRecOn generalizing fuel fuel' with
  | ind position ih =>
    -- operands of the table come first, so less fuel does for them
    obtain ⟨fuel, rfl⟩ := Nat.exists_eq_succ_of_ne_zero (Nat.ne_zero_of_lt h)
    obtain ⟨fuel', rfl⟩ := Nat.exists_eq_succ_of_ne_zero (Nat.ne_zero_of_lt h')
    rw [valueFrom, valueFrom]
    cases hn : p.nodes[position]? with
    | none => rfl
    | some n =>
      refine Node.value_congr (fun _ _ => rfl) fun o ho => operand_congr fun q hq => ?_
      have hlt := hord hn o ho hq
      exact ih q hlt (by omega) (by omega)

theorem value_of_none {position : Nat} (h : p.nodes[position]? = none) :
    p.value kind root other position = .null := by
  unfold value
  cases p.size with
  | zero => rfl
  | succ fuel => rw [valueFrom, h]

/-- The value of a slot is the value of its node on the values of its operands. -/
theorem value_of_some (hord : p.Ordered kind) {position : Nat} {n : Node}
    (h : p.nodes[position]? = some n) : p.value kind root other position =
      n.value p.concepts root (kind.operand (p.value kind root other) other) := by
  have hlt : position < p.size := (List.getElem?_eq_some_iff.mp h).1
  obtain ⟨fuel, hfuel⟩ := Nat.exists_eq_succ_of_ne_zero (Nat.ne_zero_of_lt hlt)
  rw [value, hfuel, valueFrom, h]
  refine Node.value_congr (fun _ _ => rfl) fun o ho => operand_congr fun q hq => ?_
  have hq := hord h o ho hq
  exact valueFrom_eq_of_lt hord (by omega) (by omega)

end Program

/-! ## Cells -/

/-- The cells before `bound` are empty or hold the value of their slot. -/
def CellsHold (value : Nat → Json) (bound : Nat) (cells : List Cell) : Prop :=
  ∀ {q : Nat} {c : Cell}, q < bound → cells[q]? = some c → c = .empty ∨ c = .filled (value q)

/-- How a state keeps the cells of one table.  `Good` says that the data and the other table are as
they should be, whatever the cells are. -/
structure Memo (σ : Type) (p : Program) (kind : TableKind) (root : Root → Json)
    (otherValue : Nat → Json) where
  Good : σ → Prop
  cells : σ → List Cell
  mark : Nat → Cell → σ → σ
  other : Nat → StateT σ Option Json
  slot : (fuel position : Nat) → StateT σ Option Json
  length_cells : ∀ {s}, Good s → (cells s).length = p.nodes.length
  cells_mark : ∀ {q c s}, cells (mark q c s) = (cells s).set q c
  good_mark : ∀ {q c s}, Good s → Good (mark q c s)
  other_run : ∀ {q s}, Good s →
    ∃ s', other q s = some (otherValue q, s') ∧ Good s' ∧ cells s' = cells s
  slot_filled : ∀ {fuel position s x n}, Good s → p.nodes[position]? = some n →
    (cells s)[position]? = some (.filled x) → slot fuel position s = some (x, s)
  slot_missing : ∀ {fuel position s}, Good s → p.nodes[position]? = none →
    slot fuel position s = some (.null, s)
  slot_running : ∀ {fuel position s n}, Good s → p.nodes[position]? = some n →
    (cells s)[position]? = some .running → slot fuel position s = none
  slot_exhausted : ∀ {position s n}, Good s → p.nodes[position]? = some n →
    (cells s)[position]? = some .empty → slot 0 position s = none
  slot_empty : ∀ {fuel position s n}, Good s → p.nodes[position]? = some n →
    (cells s)[position]? = some .empty → slot (fuel + 1) position s =
      (n.evaluate p.concepts root (kind.operand (slot fuel) other) (mark position .running s)).map
        fun r => (r.1, mark position (.filled r.1) r.2)

namespace Memo

variable {σ : Type} {p : Program} {kind : TableKind} {root : Root → Json} {otherValue : Nat → Json}
  (m : Memo σ p kind root otherValue)

/-- Only cells before `bound` were touched, and they hold what they should. -/
structure Fills (bound : Nat) (s s' : σ) : Prop where
  good : m.Good s'
  above : ∀ {q : Nat}, bound ≤ q → (m.cells s')[q]? = (m.cells s)[q]?
  below : CellsHold (p.value kind root otherValue) bound (m.cells s')

variable {m}

theorem Fills.here {bound bound' : Nat} {s s' : σ} (h : m.Fills bound s s')
    (hle : bound' ≤ bound) : m.Fills bound' s' s' where
  good := h.good
  above _ := rfl
  below hq hc := h.below (Nat.lt_of_lt_of_le hq hle) hc

theorem Fills.trans {bound bound' : Nat} {s s' s'' : σ} (h : m.Fills bound s s')
    (h' : m.Fills bound' s' s'') (hle : bound' ≤ bound) : m.Fills bound s s'' where
  good := h'.good
  above hq := by rw [h'.above (Nat.le_trans hle hq), h.above hq]
  below {q c} hq hc := by
    by_cases hq' : q < bound'
    · exact h'.below hq' hc
    · rw [h'.above (Nat.le_of_not_lt hq')] at hc
      exact h.below hq hc

/-- While a slot is computed, only the cells before it count. -/
theorem Fills.mark_running {position : Nat} {s : σ} (h : m.Fills (position + 1) s s) :
    m.Fills position (m.mark position .running s) (m.mark position .running s) where
  good := m.good_mark h.good
  above _ := rfl
  below hq hc := by
    rw [m.cells_mark, List.getElem?_set_ne (by omega)] at hc
    exact h.below (by omega) hc

/-- Storing the value of a slot completes the cells up to it. -/
theorem Fills.mark_filled {position : Nat} {s s' : σ}
    (h : m.Fills position (m.mark position .running s) s') : m.Fills (position + 1) s
      (m.mark position (.filled (p.value kind root otherValue position)) s') where
  good := m.good_mark h.good
  above hq := by
    rw [m.cells_mark, List.getElem?_set_ne (by omega), h.above (by omega), m.cells_mark,
      List.getElem?_set_ne (by omega)]
  below hq hc := by
    rw [m.cells_mark, List.getElem?_set] at hc
    split at hc
    · rename_i hq'
      split at hc
      · rw [← hq']
        exact .inr (Option.some.inj hc).symm
      · exact absurd hc (by simp)
    · exact h.below (by omega) hc

/-! ## What computing looks after -/

/-- What is kept besides the cells: an invariant `I`, and the slots that are done.  Only `Wanted`
slots are asked for. -/
structure Upkeep (m : Memo σ p kind root otherValue) (Wanted : Slot → Prop) (I : σ → Prop)
    (Done : Slot → σ → Prop) : Prop where
  wanted : ∀ {q n o}, p.nodes[q]? = some n → Wanted (kind.slotAt q) →
    o ∈ n.demanded (kind.operand (p.value kind root otherValue) otherValue) → Wanted o.slot
  start : ∀ {q s}, m.Good s → I s → (m.cells s)[q]? = some .empty →
    Advances I Done s (m.mark q .running s)
  finish : ∀ {q n s}, m.Good s → I s → Wanted (kind.slotAt q) → p.nodes[q]? = some n →
    (m.cells s)[q]? = some .running →
    (∀ o ∈ n.demanded (kind.operand (p.value kind root otherValue) otherValue), Done o.slot s) →
    Advances I Done s (m.mark q (.filled (p.value kind root otherValue q)) s) ∧
      Done (kind.slotAt q) (m.mark q (.filled (p.value kind root otherValue q)) s)
  filled : ∀ {q x s}, m.Good s → I s → (m.cells s)[q]? = some (.filled x) → Done (kind.slotAt q) s
  missing : ∀ {q s}, m.Good s → p.nodes[q]? = none → Done (kind.slotAt q) s
  other : ∀ {q s s'}, m.Good s → I s → Wanted (kind.opposite.slotAt q) →
    m.other q s = some (otherValue q, s') →
    Advances I Done s s' ∧ Done (kind.opposite.slotAt q) s'

/-- Nothing need be looked after. -/
theorem upkeep_trivial (m : Memo σ p kind root otherValue) :
    m.Upkeep (fun _ => True) (fun _ => True) fun _ _ => True where
  wanted _ _ _ := trivial
  start _ _ _ := ⟨trivial, id⟩
  finish _ _ _ _ _ _ := ⟨⟨trivial, id⟩, trivial⟩
  filled _ _ _ := trivial
  missing _ _ := trivial
  other _ _ _ _ := ⟨⟨trivial, id⟩, trivial⟩

variable {Wanted : Slot → Prop} {I : σ → Prop} {Done : Slot → σ → Prop}

/-- If the slots before a node can be read, its operands can. -/
theorem operand_run (hup : m.Upkeep Wanted I Done) (hord : p.Ordered kind) {fuel position : Nat}
    {n : Node} (hn : p.nodes[position]? = some n) (hw : Wanted (kind.slotAt position))
    (hslot : ∀ {q s}, q < position → m.Fills (q + 1) s s → I s → Wanted (kind.slotAt q) →
      ∃ s', m.slot fuel q s = some (p.value kind root otherValue q, s') ∧ m.Fills (q + 1) s s' ∧
        Advances I Done s s' ∧ Done (kind.slotAt q) s')
    {o : NodeIndex}
    (ho : o ∈ n.demanded (kind.operand (p.value kind root otherValue) otherValue)) {s₀ s : σ}
    (hs : m.Fills position s₀ s) (hI : I s) :
    ∃ s', kind.operand (m.slot fuel) m.other o s =
      some (kind.operand (p.value kind root otherValue) otherValue o, s') ∧
      m.Fills position s₀ s' ∧ Advances I Done s s' ∧ Done o.slot s' := by
  have hwanted := hup.wanted hn hw ho
  rcases kind.operand_cases o with ⟨q, hq, hown⟩ | ⟨q, hq, hother⟩
  · have hlt := hord hn o (Node.mem_operands_of_demanded ho) hq
    rw [hq] at hwanted
    rw [hown, hown, hq]
    obtain ⟨s', hrun, hs', hadv⟩ := hslot hlt (hs.here hlt) hI hwanted
    exact ⟨s', hrun, hs.trans hs' hlt, hadv⟩
  · -- the other table has its own cells, so these stay as they are
    rw [hq] at hwanted
    rw [hother, hother, hq]
    obtain ⟨s', hrun, hgood, hcells⟩ := m.other_run (q := q) hs.good
    refine ⟨s', hrun, ⟨hgood, fun hq => ?_, ?_⟩, hup.other hs.good hI hwanted hrun⟩
    · rw [hcells, hs.above hq]
    · rw [hcells]
      exact hs.below

/-- Computing a slot nests no deeper than its position, and touches nothing behind it. -/
theorem slot_run (hup : m.Upkeep Wanted I Done) (hord : p.Ordered kind) {fuel position : Nat}
    (hfuel : position < fuel) {s : σ} (hs : m.Fills (position + 1) s s) (hI : I s)
    (hw : Wanted (kind.slotAt position)) : ∃ s', m.slot fuel position s =
      some (p.value kind root otherValue position, s') ∧ m.Fills (position + 1) s s' ∧
      Advances I Done s s' ∧ Done (kind.slotAt position) s' := by
  induction fuel generalizing position s with
  | zero => exact absurd hfuel (Nat.not_lt_zero _)
  | succ fuel ih =>
    cases hn : p.nodes[position]? with
    | none =>
      rw [Program.value_of_none hn]
      exact ⟨s, m.slot_missing hs.good hn, hs, ⟨hI, id⟩, hup.missing hs.good hn⟩
    | some n =>
      have hlt : position < (m.cells s).length := by
        rw [m.length_cells hs.good]
        exact (List.getElem?_eq_some_iff.mp hn).1
      have hcell := List.getElem?_eq_getElem hlt
      rcases hs.below (Nat.lt_succ_self _) hcell with hempty | hfilled
      · rw [hempty] at hcell
        have hstart := hup.start hs.good hI hcell
        -- the invariant of the reads: only cells before the node have changed since its start
        have hread : ∀ o ∈ n.demanded (kind.operand (p.value kind root otherValue) otherValue),
            ∀ s₂, m.Fills position (m.mark position .running s) s₂ ∧ I s₂ →
            ∃ s₃, kind.operand (m.slot fuel) m.other o s₂ =
              some (kind.operand (p.value kind root otherValue) otherValue o, s₃) ∧
              Advances (fun t => m.Fills position (m.mark position .running s) t ∧ I t) Done
                s₂ s₃ ∧ Done o.slot s₃ := by
          intro o ho s₂ hs₂
          obtain ⟨s₃, hrun, hfills, hadv, hdone⟩ :=
            operand_run hup hord hn hw (fun hlt => ih (by omega)) ho hs₂.1 hs₂.2
          exact ⟨s₃, hrun, ⟨⟨hfills, hadv.holds⟩, hadv.stays⟩, hdone⟩
        obtain ⟨s₁, hrun, hadv, hdone⟩ :=
          Node.evaluate_run p.concepts root hread ⟨hs.mark_running, hstart.holds⟩
        obtain ⟨hfills, hI₁⟩ := hadv.holds
        have hrunning : (m.cells s₁)[position]? = some .running := by
          rw [hfills.above (Nat.le_refl _), m.cells_mark, List.getElem?_set_self hlt]
        have hfinish := hup.finish hfills.good hI₁ hw hn hrunning hdone
        rw [← Program.value_of_some hord hn] at hrun
        refine ⟨m.mark position (.filled (p.value kind root otherValue position)) s₁, ?_,
          hfills.mark_filled, ?_, hfinish.2⟩
        · rw [m.slot_empty hs.good hn hcell, hrun]
          rfl
        · exact hstart.trans (.trans ⟨hI₁, hadv.stays⟩ hfinish.1)
      · -- the value was stored by an earlier read
        rw [hfilled] at hcell
        exact ⟨s, m.slot_filled hs.good hn hcell, hs, ⟨hI, id⟩, hup.filled hs.good hI hcell⟩

/-- As much fuel as there are slots is enough for every position. -/
theorem position_upkeep (hup : m.Upkeep Wanted I Done) (hord : p.Ordered kind) {s : σ}
    (hs : m.Good s)
    (hcells : ∀ bound, CellsHold (p.value kind root otherValue) bound (m.cells s)) (hI : I s)
    (position : Nat) (hw : Wanted (kind.slotAt position)) :
    ∃ s', m.slot (m.cells s).length position s =
      some (p.value kind root otherValue position, s') ∧ m.Good s' ∧
      (∀ bound, CellsHold (p.value kind root otherValue) bound (m.cells s')) ∧
      Advances I Done s s' ∧ Done (kind.slotAt position) s' := by
  by_cases hp : position < (m.cells s).length
  · obtain ⟨s', hrun, hs', hadv⟩ :=
      slot_run hup hord hp ⟨hs, fun _ => rfl, hcells (position + 1)⟩ hI hw
    refine ⟨s', hrun, hs'.good, fun bound q c hq hc => ?_, hadv⟩
    by_cases hqp : q < position + 1
    · exact hs'.below hqp hc
    · exact hcells bound hq ((hs'.above (Nat.le_of_not_lt hqp)).symm.trans hc)
  · -- a position without a slot reads as `null`
    have hn : p.nodes[position]? = none :=
      List.getElem?_eq_none (by rw [← m.length_cells hs]; exact Nat.le_of_not_lt hp)
    rw [Program.value_of_none hn]
    exact ⟨s, m.slot_missing hs hn, hs, hcells, ⟨hI, id⟩, hup.missing hs hn⟩

theorem position_run (hord : p.Ordered kind) {s : σ} (hs : m.Good s)
    (hcells : ∀ bound, CellsHold (p.value kind root otherValue) bound (m.cells s))
    (position : Nat) :
    ∃ s', m.slot (m.cells s).length position s =
      some (p.value kind root otherValue position, s') ∧ m.Good s' ∧
      ∀ bound, CellsHold (p.value kind root otherValue) bound (m.cells s') := by
  obtain ⟨s', hrun, hgood, hcells', -⟩ := position_upkeep m.upkeep_trivial hord hs hcells trivial
    position trivial
  exact ⟨s', hrun, hgood, hcells'⟩

end Memo

end AccessPolicy
