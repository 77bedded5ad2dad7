import AccessPolicy.Proofs.Evaluation.Shared
import Mathlib.Data.List.Nodup

/-!
# Demand — which slots are computed, and how often

Computing is followed with a log of the slots that are started.  A read of shared values over ordered
tables computes the slots that are demanded and no others, each of them once, and a slot that is
being computed is never asked for.
-/

namespace AccessPolicy

/-! ## Computing with a log -/

/-- Compute a slot on demand in a state that has the cells among other things; `mark` is told
whenever a slot is started and whenever it is stored. -/
def Program.compute {σ : Type} (p : Program) (kind : TableKind) (root : Root → Json)
    (cells : σ → List Cell) (mark : Nat → Cell → σ → σ) (other : Nat → StateT σ Option Json)
    (fuel position : Nat) : StateT σ Option Json := fun s =>
  match (cells s)[position]?, p.nodes[position]? with
  | some (.filled x), some _ => some (x, s)
  | some .running, some _ => none
  | some .empty, some n =>
    match fuel with
    | 0 => none
    | fuel + 1 => do
      let operand := kind.operand (compute p kind root cells mark other fuel) other
      let (x, s) ← n.evaluate p.concepts root operand (mark position .running s)
      some (x, mark position (.filled x) s)
  | _, _ => some (.null, s)

/-- Shared values and the slots that were started, in this order. -/
structure Logged (n : Nat) where
  values : SharedValues n
  log : List (Place n) := []

namespace Logged

variable {n : Nat}

def mark (l : Layer n) (q : Nat) (c : Cell) (s : Logged n) : Logged n where
  values := s.values.mark l q c
  log := match c with
    | .running => s.log ++ [⟨l, q⟩]
    | _ => s.log

/-- Compute a slot of a layer, given a way to read the other table. -/
def positionWith (l : Layer n) (other : Nat → StateT (Logged n) Option Json) (q : Nat) :
    StateT (Logged n) Option Json := fun s =>
  (s.values.program l).compute l.kind (s.values.root l) (·.values.cells l) (mark l) other
    (s.values.cells l).length q s

/-- Read the table that is not the layer's own. -/
def other : Layer n → Nat → StateT (Logged n) Option Json
  | none => fun _ => pure .null
  | some _ => positionWith none fun _ => pure .null

def position (l : Layer n) : Nat → StateT (Logged n) Option Json := positionWith l (other l)

/-- Read an index as the values themselves do, and log what is computed. -/
def read (a : Access n) : StateT (Logged n) Option Json :=
  match a.place? with
  | some x => position x.layer x.position
  | none => pure .null

def readAll : List (Access n) → StateT (Logged n) Option (List Json)
  | [] => pure []
  | a :: rest => do
    let x ← read a
    return x :: (← readAll rest)

end Logged

/-! ## Reading with a log -/

namespace Logged

variable {n : Nat} {base : SharedValues n} {own : Fin n → OwnValues} {A W : Place n → Prop}
  {l : Layer n} {s s' : Logged n}

@[simp] theorem values_mark (s : Logged n) (l : Layer n) (q : Nat) (c : Cell) :
    (s.mark l q c).values = s.values.mark l q c := rfl

theorem log_mark_running (s : Logged n) (l : Layer n) (q : Nat) :
    (s.mark l q .running).log = s.log ++ [⟨l, q⟩] := rfl

theorem log_mark_filled (s : Logged n) (l : Layer n) (q : Nat) (value : Json) :
    (s.mark l q (.filled value)).log = s.log := rfl

/-- The data are those of `base`; while a slot of the layer is computed, the values of the other
instances stay what they are, and the common values can be read. -/
structure Ready (base : SharedValues n) (own : Fin n → OwnValues) (l : Layer n) (s : Logged n) :
    Prop where
  same : base.SameData s.values
  length : ∀ l', (s.values.cells l').length = (base.program l').nodes.length
  common : l ≠ none → ∀ bound, CellsHold base.common.value bound s.values.common.cells
  frame : ∀ k, l ≠ some k → s.values.own k = own k

theorem Ready.mark (h : Ready base own l s) (q : Nat) (c : Cell) :
    Ready base own l (s.mark l q c) where
  same := h.same.trans (s.values.sameData_mark l q c)
  length l' := by
    rw [values_mark, SharedValues.length_cells_mark]
    exact h.length l'
  common hl := by
    cases l with
    | none => exact absurd rfl hl
    | some k => exact h.common hl
  frame k hk := by
    rw [values_mark, SharedValues.own_mark_of_ne hk]
    exact h.frame k hk

/-- Reading the other table answers its values and leaves the layer alone. -/
def ReadsOther (base : SharedValues n) (own : Fin n → OwnValues) (l : Layer n)
    (other : Nat → StateT (Logged n) Option Json) : Prop :=
  ∀ {q s}, Ready base own l s → ∃ s', other q s = some (base.otherValue l q, s') ∧
    Ready base own l s' ∧ s'.values.cells l = s.values.cells l

/-- The cells of a layer, and the log. -/
def memoWith {other : Nat → StateT (Logged n) Option Json} (hother : ReadsOther base own l other) :
    Memo (Logged n) (base.program l) l.kind (base.root l) (base.otherValue l) where
  Good := Ready base own l
  cells s := s.values.cells l
  mark := mark l
  other := other
  slot := (base.program l).compute l.kind (base.root l) (·.values.cells l) (mark l) other
  length_cells h := h.length l
  cells_mark := SharedValues.cells_mark_self ..
  good_mark h := h.mark _ _
  other_run := hother
  slot_filled h hn hc := by rw [Program.compute.eq_def]; simp only [hc, hn]
  slot_missing {fuel q s} h hn := by
    rw [Program.compute.eq_def]
    simp only [hn]
    rcases (s.values.cells l)[q]? with _ | _ | _ | _ <;> rfl
  slot_running h hn hc := by rw [Program.compute.eq_def]; simp only [hc, hn]
  slot_exhausted h hn hc := by rw [Program.compute.eq_def]; simp only [hc, hn]
  slot_empty h hn hc := by
    rw [Program.compute.eq_def]
    simp only [hc, hn]
    exact Option.map_eq_bind.symm

/-- The log lists the slots that are not empty, each once.  The slots of `A` are filled, whatever a
filled slot asks for is, and only slots of `W` are. -/
structure Tracks (base : SharedValues n) (A W : Place n → Prop) (s : Logged n) : Prop where
  nodup : s.log.Nodup
  mem_log : ∀ x, x ∈ s.log ↔ ∃ c, s.values.cell? x = some c ∧ c ≠ .empty
  closed : ∀ {x y}, s.values.Filled x → base.AsksFor x y → (base.node? y).isSome →
    s.values.Filled y
  covers : ∀ {x}, A x → s.values.Filled x
  within : ∀ {x}, s.values.Filled x → W x

/-- The slot is filled, if there is one. -/
def Done (base : SharedValues n) (l : Layer n) (x : Slot) (s : Logged n) : Prop :=
  ∀ y, l.place? x = some y → (base.node? y).isSome → s.values.Filled y

theorem Tracks.start (h : Tracks base A W s) {q : Nat} (hq : s.values.cell? ⟨l, q⟩ = some .empty) :
    Tracks base A W (s.mark l q .running) where
  nodup := by
    refine h.nodup.append (List.nodup_singleton _) ?_
    rw [List.disjoint_singleton, h.mem_log]
    rintro ⟨c, hc, hne⟩
    exact hne (Option.some.inj (hc.symm.trans hq))
  mem_log x := by
    rw [values_mark, log_mark_running, List.mem_append, List.mem_singleton, h.mem_log,
      SharedValues.cell?_mark hq]
    split
    · rename_i hx
      simp [hx]
    · rename_i hx
      simp [hx]
  closed {x y} hx hxy hy := by
    rw [values_mark, SharedValues.filled_mark_running hq] at hx ⊢
    exact h.closed hx hxy hy
  covers hx := by
    rw [values_mark, SharedValues.filled_mark_running hq]
    exact h.covers hx
  within hx := by
    rw [values_mark, SharedValues.filled_mark_running hq] at hx
    exact h.within hx

theorem Tracks.finish (h : Tracks base A W s) {q : Nat} (hq : s.values.cell? ⟨l, q⟩ = some .running)
    (hw : W ⟨l, q⟩) (hdone : ∀ y, base.AsksFor ⟨l, q⟩ y → (base.node? y).isSome → s.values.Filled y)
    (value : Json) : Tracks base A W (s.mark l q (.filled value)) where
  nodup := h.nodup
  mem_log x := by
    rw [values_mark, log_mark_filled, h.mem_log, SharedValues.cell?_mark hq]
    split
    · rename_i hx
      simp [hx, hq]
    · rfl
  closed {x y} hx hxy hy := by
    rw [values_mark, SharedValues.filled_mark_filled hq] at hx ⊢
    rcases hx with rfl | hx
    · exact .inr (hdone y hxy hy)
    · exact .inr (h.closed hx hxy hy)
  covers hx := by
    rw [values_mark, SharedValues.filled_mark_filled hq]
    exact .inr (h.covers hx)
  within hx := by
    rw [values_mark, SharedValues.filled_mark_filled hq] at hx
    rcases hx with rfl | hx
    · exact hw
    · exact h.within hx

/-- The log and the filled slots are looked after, if those of the other table are. -/
theorem upkeepWith {other : Nat → StateT (Logged n) Option Json}
    (hother : ReadsOther base own l other)
    (hW : ∀ {x y}, W x → base.AsksFor x y → W y)
    (hup : ∀ {q s s'}, Ready base own l s → Tracks base A W s →
      (∀ y, l.place? (l.kind.opposite.slotAt q) = some y → W y) →
      other q s = some (base.otherValue l q, s') →
      Advances (Tracks base A W) (Done base l) s s' ∧ Done base l (l.kind.opposite.slotAt q) s') :
    (memoWith hother).Upkeep (fun x => ∀ y, l.place? x = some y → W y)
      (Tracks base A W) (Done base l) where
  wanted hn hw ho y hy := hW (hw _ (l.place?_own _)) ⟨_, _, hn, ho, hy⟩
  start _ hI hq := by
    refine ⟨hI.start hq, fun hx y hy hsome => ?_⟩
    exact (SharedValues.filled_mark_running hq y).mpr (hx y hy hsome)
  finish {q node s} _ hI hw hn hq hops := by
    refine ⟨⟨hI.finish hq (hw _ (l.place?_own q)) ?_ _, fun hx y hy hsome => ?_⟩,
      fun y hy _ => ?_⟩
    · rintro y ⟨node', o, hn', ho, hy⟩
      obtain rfl := Option.some.inj (hn.symm.trans hn')
      exact hops o ho y hy
    · exact (SharedValues.filled_mark_filled hq _ y).mpr (.inr (hx y hy hsome))
    · rw [l.place?_own] at hy
      exact (SharedValues.filled_mark_filled hq _ y).mpr (.inl (Option.some.inj hy).symm)
  filled {q x s} _ _ hc y hy _ := by
    rw [l.place?_own] at hy
    exact ⟨x, by rw [← Option.some.inj hy]; exact hc⟩
  missing {q s} _ hn y hy hsome := by
    rw [l.place?_own] at hy
    rw [← Option.some.inj hy, SharedValues.node?, hn] at hsome
    exact absurd hsome (by simp)
  other := hup

/-- Every cell of the layer is empty or holds the value of its slot. -/
def Holds (base : SharedValues n) (l : Layer n) (s : Logged n) : Prop :=
  ∀ bound, CellsHold (base.slotValue l) bound (s.values.cells l)

theorem positionWith_eq {other : Nat → StateT (Logged n) Option Json}
    (hother : ReadsOther base own l other) (h : Ready base own l s) (q : Nat) :
    positionWith l other q s = (memoWith hother).slot (s.values.cells l).length q s := by
  rw [positionWith, h.same.program_eq, h.same.root_eq]
  rfl

/-! ## The common table -/

theorem readsOther_none (base : SharedValues n) (own : Fin n → OwnValues) :
    ReadsOther base own none (other none) := fun h => ⟨_, rfl, h, rfl⟩

theorem upkeep_none (hW : ∀ {x y}, W x → base.AsksFor x y → W y) :
    (memoWith (readsOther_none base own)).Upkeep (fun x => ∀ y, Layer.place? none x = some y → W y)
      (Tracks base A W) (Done base none) := by
  refine upkeepWith _ hW fun {q s s'} _ hI _ hrun => ?_
  -- an index of a subject is no place of the common table
  obtain ⟨-, rfl⟩ := Prod.mk.inj (Option.some.inj hrun)
  exact ⟨⟨hI, id⟩, fun y hy => nomatch hy⟩

/-- Reading a common position of values that hold answers its value and fills what it demands. -/
theorem position_none_run (hord : base.common.program.Ordered .common)
    (hW : ∀ {x y}, W x → base.AsksFor x y → W y) (hs : Ready base own none s)
    (hcells : Holds base none s) (hI : Tracks base A W s) {q : Nat} (hw : W ⟨none, q⟩) :
    ∃ s', position none q s = some (base.slotValue none q, s') ∧ Ready base own none s' ∧
      Holds base none s' ∧ Advances (Tracks base A W) (Done base none) s s' ∧
      Done base none (.common q) s' := by
  obtain ⟨s', hrun, hs'⟩ := Memo.position_upkeep (upkeep_none hW) hord hs hcells hI q
    fun y hy => by rw [← Option.some.inj hy]; exact hw
  exact ⟨s', (positionWith_eq (readsOther_none base own) hs q).trans hrun, hs'⟩

/-! ## The table of an instance -/

/-- While a slot of an instance is computed, the common values can be read as ever. -/
theorem Ready.common_read {k : Fin n} (h : Ready base own (some k) s) :
    Ready base s.values.own none s ∧ Holds base none s :=
  ⟨⟨h.same, h.length, fun hl => absurd rfl hl, fun _ _ => rfl⟩, h.common (by simp)⟩

theorem Ready.of_common_read {k : Fin n} (h : Ready base own (some k) s)
    (h' : Ready base s.values.own none s') (hcells : Holds base none s') :
    Ready base own (some k) s' where
  same := h'.same
  length := h'.length
  common _ := hcells
  frame j hj := (h'.frame j (by simp)).trans (h.frame j hj)

theorem readsOther_some (hord : base.common.program.Ordered .common) (own : Fin n → OwnValues)
    (k : Fin n) : ReadsOther base own (some k) (other (some k)) := by
  intro q s h
  obtain ⟨hready, hcells⟩ := h.common_read
  obtain ⟨s', hrun, hs', hcells'⟩ :=
    (memoWith (readsOther_none base s.values.own)).position_run hord hready hcells q
  refine ⟨s', (positionWith_eq (readsOther_none base _) hready q).trans hrun,
    h.of_common_read hs' hcells', ?_⟩
  rw [SharedValues.cells, SharedValues.cells, hs'.frame k (by simp)]

theorem upkeep_some (hord : base.common.program.Ordered .common)
    (hW : ∀ {x y}, W x → base.AsksFor x y → W y) (k : Fin n) :
    (memoWith (readsOther_some hord own k)).Upkeep
      (fun x => ∀ y, Layer.place? (some k) x = some y → W y) (Tracks base A W)
      (Done base (some k)) := by
  refine upkeepWith _ hW fun {q s s'} h hI hw hrun => ?_
  obtain ⟨hready, hcells⟩ := h.common_read
  obtain ⟨s₁, hrun₁, hs₁, -, hadv, hdone⟩ := position_none_run hord hW hready hcells hI (hw _ rfl)
  obtain ⟨-, rfl⟩ := Prod.mk.inj (Option.some.inj (hrun.symm.trans hrun₁))
  refine ⟨⟨hadv.holds, fun {x} hx => ?_⟩, hdone⟩
  cases x with
  | common p => exact hadv.stays (x := .common p) hx
  | subject p =>
    -- the cells of the instance stay as they are
    intro y hy hsome
    obtain ⟨c, hc⟩ := hx y hy hsome
    refine ⟨c, ?_⟩
    rw [← Option.some.inj hy] at hc ⊢
    rw [← hc, SharedValues.cell?, SharedValues.cell?, SharedValues.cells, SharedValues.cells,
      hs₁.frame k (by simp)]

theorem position_some_run (hord : base.common.program.Ordered .common) {k : Fin n}
    (hown : (base.own k).program.Ordered .subject)
    (hW : ∀ {x y}, W x → base.AsksFor x y → W y) (hs : Ready base own (some k) s)
    (hcells : Holds base (some k) s) (hI : Tracks base A W s) {q : Nat} (hw : W ⟨some k, q⟩) :
    ∃ s', position (some k) q s = some (base.slotValue (some k) q, s') ∧
      Ready base own (some k) s' ∧ Holds base (some k) s' ∧
      Advances (Tracks base A W) (Done base (some k)) s s' ∧
      Done base (some k) (.subject q) s' := by
  obtain ⟨s', hrun, hs'⟩ := Memo.position_upkeep (upkeep_some hord hW k) hown hs hcells hI q
    fun y hy => by rw [← Option.some.inj hy]; exact hw
  exact ⟨s', (positionWith_eq (readsOther_some hord own k) hs q).trans hrun, hs'⟩

/-! ## Reads -/

/-- Nothing is being computed, and the log is exact. -/
structure Settled (base : SharedValues n) (W : Place n → Prop) (s : Logged n) : Prop where
  same : base.SameData s.values
  length : ∀ l, (s.values.cells l).length = (base.program l).nodes.length
  holds : ∀ l, Holds base l s
  nodup : s.log.Nodup
  mem_log : ∀ x, x ∈ s.log ↔ s.values.Filled x
  closed : ∀ {x y}, s.values.Filled x → base.AsksFor x y → (base.node? y).isSome →
    s.values.Filled y
  within : ∀ {x}, s.values.Filled x → W x

/-- A cell that holds what it should is empty or filled. -/
theorem filled_iff_of_holds (h : ∀ l, Holds base l s) (x : Place n) :
    s.values.Filled x ↔ ∃ c, s.values.cell? x = some c ∧ c ≠ .empty := by
  constructor
  · rintro ⟨y, hy⟩
    exact ⟨_, hy, by simp⟩
  · rintro ⟨c, hc, hne⟩
    rcases h x.layer _ (Nat.lt_succ_self _) hc with rfl | rfl
    · exact absurd rfl hne
    · exact ⟨_, hc⟩

theorem Settled.ready (h : Settled base W s) (l : Layer n) : Ready base s.values.own l s :=
  ⟨h.same, h.length, fun _ => h.holds none, fun _ _ => rfl⟩

theorem Settled.tracks (h : Settled base W s) : Tracks base s.values.Filled W s where
  nodup := h.nodup
  mem_log x := (h.mem_log x).trans (filled_iff_of_holds h.holds x)
  closed := h.closed
  covers := id
  within := h.within

theorem Settled.of_tracks (hs : Ready base own l s) (hholds : ∀ l, Holds base l s)
    (h : Tracks base A W s) : Settled base W s where
  same := hs.same
  length := hs.length
  holds := hholds
  nodup := h.nodup
  mem_log x := (h.mem_log x).trans (filled_iff_of_holds hholds x).symm
  closed := h.closed
  within := h.within

/-- After a slot of one layer was read, the others hold what they should. -/
theorem Settled.holds_other (h : Settled base W s) (hs : Ready base s.values.own l s')
    {l' : Layer n} (hne : l' ≠ l) : Holds base l' s' := by
  cases l' with
  | none => exact hs.common hne.symm
  | some k =>
    intro bound
    rw [SharedValues.cells, hs.frame k hne.symm]
    exact h.holds (some k) bound

theorem position_run (hord : ∀ l, (base.program l).Ordered l.kind)
    (hW : ∀ {x y}, W x → base.AsksFor x y → W y) (h : Settled base W s) {x : Place n} (hx : W x) :
    ∃ s', position x.layer x.position s = some (base.slotValue x.layer x.position, s') ∧
      Settled base W s' ∧ (∀ y, s.values.Filled y → s'.values.Filled y) ∧
      ((base.node? x).isSome → s'.values.Filled x) := by
  obtain ⟨l, q⟩ := x
  obtain ⟨s', hrun, hs', hholds, hadv, hdone⟩ :
      ∃ s', position l q s = some (base.slotValue l q, s') ∧ Ready base s.values.own l s' ∧
        Holds base l s' ∧ Advances (Tracks base s.values.Filled W) (Done base l) s s' ∧
        Done base l (l.kind.slotAt q) s' := by
    cases l with
    | none => exact position_none_run (hord none) hW (h.ready none) (h.holds none) h.tracks hx
    | some k =>
      exact position_some_run (hord none) (hord (some k)) hW (h.ready _) (h.holds _) h.tracks hx
  refine ⟨s', hrun, .of_tracks hs' (fun l' => ?_) hadv.holds, fun _ => hadv.holds.covers,
    hdone _ (l.place?_own q)⟩
  by_cases hl : l' = l
  · rw [hl]
    exact hholds
  · exact h.holds_other hs' hl

theorem read_run (hord : ∀ l, (base.program l).Ordered l.kind)
    (hW : ∀ {x y}, W x → base.AsksFor x y → W y) (h : Settled base W s) {a : Access n}
    (ha : ∀ x, a.place? = some x → W x) :
    ∃ s', read a s = some (base.answer a, s') ∧ Settled base W s' ∧
      (∀ y, s.values.Filled y → s'.values.Filled y) ∧
      ∀ x, a.place? = some x → (base.node? x).isSome → s'.values.Filled x := by
  rw [read, SharedValues.answer, SharedValues.value_eq, ← Access.place?]
  cases hplace : a.place? with
  | none => exact ⟨s, rfl, h, fun _ => id, by simp⟩
  | some x =>
    obtain ⟨s', hrun, hs', hstay, hfilled⟩ := position_run hord hW h (ha x hplace)
    exact ⟨s', hrun, hs', hstay, by simpa using hfilled⟩

/-- Any reads in any order: each answers its value, and its place is filled from then on. -/
theorem readAll_run (hord : ∀ l, (base.program l).Ordered l.kind)
    (hW : ∀ {x y}, W x → base.AsksFor x y → W y) (h : Settled base W s) {reads : List (Access n)}
    (hreads : ∀ a ∈ reads, ∀ x, a.place? = some x → W x) :
    ∃ s', readAll reads s = some (reads.map base.answer, s') ∧ Settled base W s' ∧
      (∀ y, s.values.Filled y → s'.values.Filled y) ∧
      ∀ a ∈ reads, ∀ x, a.place? = some x → (base.node? x).isSome → s'.values.Filled x := by
  induction reads generalizing s with
  | nil => exact ⟨s, rfl, h, fun _ => id, by simp⟩
  | cons a rest ih =>
    obtain ⟨ha, hrest⟩ := List.forall_mem_cons.mp hreads
    obtain ⟨s₁, hrun₁, hs₁, hstay₁, hfilled₁⟩ := read_run hord hW h ha
    obtain ⟨s₂, hrun₂, hs₂, hstay₂, hfilled₂⟩ := ih hs₁ hrest
    refine ⟨s₂, ?_, hs₂, fun y hy => hstay₂ y (hstay₁ y hy), ?_⟩
    · rw [readAll, Node.bind_run hrun₁, Node.bind_run hrun₂]
      rfl
    · exact List.forall_mem_cons.mpr
        ⟨fun x hx hsome => hstay₂ x (hfilled₁ x hx hsome), hfilled₂⟩

end Logged

end AccessPolicy
