import AccessPolicy.Proofs.Evaluation.Memo

/-!
# Reading — values do not depend on what was read before

Values are sound when their tables are ordered and every cell is empty or holds the value of its
slot.  New values are sound, and a read answers the value of its index and keeps them sound.
-/

namespace AccessPolicy

/-! ## The common table -/

namespace CommonValues

/-- The value of each slot, whatever the cells hold. -/
def value (v : CommonValues) : Nat → Json := v.program.value .common v.root fun _ => .null

/-- The same table and the same data; cells may differ. -/
structure SameData (v w : CommonValues) : Prop where
  program : w.program = v.program
  user : w.user = v.user
  environment : w.environment = v.environment

structure Sound (v : CommonValues) : Prop where
  ordered : v.program.Ordered .common
  length : v.cells.length = v.program.nodes.length
  cells : ∀ bound, CellsHold v.value bound v.cells

variable {v w u : CommonValues}

theorem SameData.refl (v : CommonValues) : v.SameData v := ⟨rfl, rfl, rfl⟩

theorem SameData.symm (h : v.SameData w) : w.SameData v :=
  ⟨h.program.symm, h.user.symm, h.environment.symm⟩

theorem SameData.trans (h : v.SameData w) (h' : w.SameData u) : v.SameData u :=
  ⟨h'.program.trans h.program, h'.user.trans h.user, h'.environment.trans h.environment⟩

theorem SameData.root (h : v.SameData w) : w.root = v.root := by
  funext r
  cases r with
  | user => exact h.user
  | environment => exact h.environment
  | subject => rfl

theorem SameData.value (h : v.SameData w) : w.value = v.value := by
  rw [CommonValues.value, CommonValues.value, h.program, h.root]

theorem cellsHold_empty (value : Nat → Json) (nodes : List Node) (bound : Nat) :
    CellsHold value bound (nodes.map fun _ => .empty) := by
  intro q c _ hc
  rw [List.getElem?_map, Option.map_eq_some_iff] at hc
  obtain ⟨_, _, rfl⟩ := hc
  exact .inl rfl

theorem sound_new {p : Program} (h : p.Ordered .common) (user environment : Json) :
    (new p user environment).Sound where
  ordered := h
  length := List.length_map _
  cells _ := cellsHold_empty _ _ _

/-- The cells of the common table; operands of the other table read as `null`. -/
def memo (v : CommonValues) : Memo CommonValues v.program .common v.root fun _ => .null where
  Good s := v.SameData s ∧ s.cells.length = v.program.nodes.length
  cells s := s.cells
  mark := mark
  other _ := pure .null
  slot := slot
  length_cells h := h.2
  cells_mark := rfl
  good_mark h := ⟨⟨h.1.program, h.1.user, h.1.environment⟩, (List.length_set ..).trans h.2⟩
  other_run h := ⟨_, rfl, h, rfl⟩
  slot_filled h hn hc := by rw [slot.eq_def]; simp only [hc, h.1.program, hn]
  slot_missing {fuel position s} h hn := by
    rw [slot.eq_def]
    simp only [h.1.program, hn]
    rcases s.cells[position]? with _ | _ | _ | _ <;> rfl
  slot_running h hn hc := by rw [slot.eq_def]; simp only [hc, h.1.program, hn]
  slot_exhausted h hn hc := by rw [slot.eq_def]; simp only [hc, h.1.program, hn]
  slot_empty {fuel position s n} h hn hc := by
    -- operands are told apart by their slot, as in the general form
    have hoperand : TableKind.common.operand (slot fuel) (fun _ => pure .null) = fun i =>
        match i.slot with
        | .common p => slot fuel p
        | .subject _ => pure .null := by
      funext i
      rw [TableKind.operand.eq_def]
      cases i.slot <;> rfl
    rw [slot.eq_def, hoperand, ← h.1.root]
    simp only [hc, h.1.program, hn]
    exact Option.map_eq_bind.symm

/-- Reading a position of sound values answers its value. -/
theorem position_run (h : v.Sound) (p : Nat) :
    ∃ w, position p v = some (v.value p, w) ∧ w.Sound ∧ v.SameData w := by
  obtain ⟨w, hrun, ⟨hsame, hlength⟩, hcells⟩ :=
    v.memo.position_run h.ordered ⟨.refl v, h.length⟩ h.cells p
  refine ⟨w, hrun, ⟨?_, ?_, ?_⟩, hsame⟩
  · rw [hsame.program]
    exact h.ordered
  · rw [hsame.program]
    exact hlength
  · rw [hsame.value]
    exact hcells

end CommonValues

/-! ## The table of a subject -/

namespace SubjectValues

/-- The value of each index, whatever the cells hold. -/
def value (v : SubjectValues) : NodeIndex → Json :=
  TableKind.subject.operand (v.program.value .subject v.root v.common.value) v.common.value

/-- The same tables and the same data; cells may differ. -/
structure SameData (v w : SubjectValues) : Prop where
  program : w.program = v.program
  common : v.common.SameData w.common
  resource : w.resource = v.resource

structure Sound (v : SubjectValues) : Prop where
  ordered : v.program.Ordered .subject
  length : v.cells.length = v.program.nodes.length
  common : v.common.Sound
  cells : ∀ bound, CellsHold (v.program.value .subject v.root v.common.value) bound v.cells

variable {v w u : SubjectValues}

theorem SameData.refl (v : SubjectValues) : v.SameData v := ⟨rfl, .refl _, rfl⟩

theorem SameData.symm (h : v.SameData w) : w.SameData v :=
  ⟨h.program.symm, h.common.symm, h.resource.symm⟩

theorem SameData.trans (h : v.SameData w) (h' : w.SameData u) : v.SameData u :=
  ⟨h'.program.trans h.program, h.common.trans h'.common, h'.resource.trans h.resource⟩

theorem SameData.root (h : v.SameData w) : w.root = v.root := by
  funext r
  cases r with
  | user => exact h.common.user
  | environment => exact h.common.environment
  | subject => exact h.resource

theorem SameData.value (h : v.SameData w) : w.value = v.value := by
  rw [SubjectValues.value, SubjectValues.value, h.program, h.root, h.common.value]

theorem sound_new {p : Program} (h : p.Ordered .subject) {common : CommonValues}
    (hcommon : common.Sound) (resource : Json) : (new p common resource).Sound where
  ordered := h
  length := List.length_map _
  common := hcommon
  cells _ := CommonValues.cellsHold_empty _ _ _

theorem commonPosition_run (h : v.common.Sound) (p : Nat) :
    ∃ w, commonPosition p v = some (v.common.value p, w) ∧ w.common.Sound ∧ v.SameData w ∧
      w.cells = v.cells := by
  obtain ⟨common, hrun, hsound, hsame⟩ := CommonValues.position_run h p
  exact ⟨{ v with common }, by rw [commonPosition, hrun]; rfl, hsound, ⟨rfl, hsame, rfl⟩, rfl⟩

/-- The cells of the subject's own table; the common table is read through its own cells. -/
def memo (v : SubjectValues) : Memo SubjectValues v.program .subject v.root v.common.value where
  Good s := v.SameData s ∧ s.common.Sound ∧ s.cells.length = v.program.nodes.length
  cells s := s.cells
  mark := mark
  other := commonPosition
  slot := slot
  length_cells h := h.2.2
  cells_mark := rfl
  good_mark h :=
    ⟨⟨h.1.program, h.1.common, h.1.resource⟩, h.2.1, (List.length_set ..).trans h.2.2⟩
  other_run {q s} h := by
    obtain ⟨w, hrun, hsound, hsame, hcells⟩ := commonPosition_run h.2.1 q
    rw [← h.1.common.value]
    exact ⟨w, hrun, ⟨h.1.trans hsame, hsound, by rw [hcells, h.2.2]⟩, hcells⟩
  slot_filled h hn hc := by rw [slot.eq_def]; simp only [hc, h.1.program, hn]
  slot_missing {fuel position s} h hn := by
    rw [slot.eq_def]
    simp only [h.1.program, hn]
    rcases s.cells[position]? with _ | _ | _ | _ <;> rfl
  slot_running h hn hc := by rw [slot.eq_def]; simp only [hc, h.1.program, hn]
  slot_exhausted h hn hc := by rw [slot.eq_def]; simp only [hc, h.1.program, hn]
  slot_empty {fuel position s n} h hn hc := by
    have hoperand : TableKind.subject.operand (slot fuel) commonPosition = fun i =>
        match i.slot with
        | .common p => commonPosition p
        | .subject p => slot fuel p := by
      funext i
      rw [TableKind.operand.eq_def]
      cases i.slot <;> rfl
    rw [slot.eq_def, hoperand, ← h.1.root]
    simp only [hc, h.1.program, hn]
    exact Option.map_eq_bind.symm

theorem position_run (h : v.Sound) (p : Nat) : ∃ w, position p v =
    some (v.program.value .subject v.root v.common.value p, w) ∧ w.Sound ∧ v.SameData w := by
  obtain ⟨w, hrun, ⟨hsame, hcommon, hlength⟩, hcells⟩ :=
    v.memo.position_run h.ordered ⟨.refl v, h.common, h.length⟩ h.cells p
  refine ⟨w, hrun, ⟨?_, ?_, hcommon, ?_⟩, hsame⟩
  · rw [hsame.program]
    exact h.ordered
  · rw [hsame.program]
    exact hlength
  · rw [hsame.program, hsame.root, hsame.common.value]
    exact hcells

/-- Reading an index of sound values answers its value. -/
theorem read_run (h : v.Sound) (i : NodeIndex) :
    ∃ w, read i v = some (v.value i, w) ∧ w.Sound ∧ v.SameData w := by
  rw [read, SubjectValues.value, TableKind.operand.eq_def]
  cases i.slot with
  | common p =>
    -- only cells of the common table change
    obtain ⟨w, hrun, hcommon, hsame, hcells⟩ := commonPosition_run h.common p
    refine ⟨w, hrun, ⟨?_, ?_, hcommon, fun bound => ?_⟩, hsame⟩
    · rw [hsame.program]
      exact h.ordered
    · rw [hsame.program, hcells, h.length]
    · rw [hsame.program, hsame.root, hsame.common.value, hcells]
      exact h.cells bound
  | subject p => exact position_run h p

end SubjectValues

end AccessPolicy
