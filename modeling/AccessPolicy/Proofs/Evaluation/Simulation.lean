import AccessPolicy.Proofs.Evaluation.Demand
import Mathlib.Data.Option.Basic

/-!
# Simulation — the log does not matter

Computing on related states gives the same answer and related states again, if the cells are the
same and the tables are.  So following a computation with a log changes nothing about it: without
the log, what is left is a plain read of the values.
-/

namespace AccessPolicy

/-- Started in related states, both computations answer alike and end in related states, or neither
has a result. -/
structure Simulates {σ τ α : Type} (R : σ → τ → Prop) (m : StateT σ Option α)
    (m' : StateT τ Option α) : Prop where
  run : ∀ {s t}, R s t → Option.Rel (fun r r' => r.1 = r'.1 ∧ R r.2 r'.2) (m s) (m' t)

section

variable {σ τ α β : Type} {R : σ → τ → Prop}

theorem Simulates.pure (a : α) : Simulates R (pure a) (pure a) := ⟨fun h => .some ⟨rfl, h⟩⟩

theorem Simulates.bind {m : StateT σ Option α} {m' : StateT τ Option α}
    {f : α → StateT σ Option β} {f' : α → StateT τ Option β} (hm : Simulates R m m')
    (hf : ∀ a, Simulates R (f a) (f' a)) : Simulates R (m >>= f) (m' >>= f') := by
  refine ⟨fun {s t} h => ?_⟩
  have hrun := hm.run h
  show Option.Rel _ ((m s).bind fun r => f r.1 r.2) ((m' t).bind fun r => f' r.1 r.2)
  generalize m s = r at hrun
  generalize m' t = r' at hrun
  cases hrun with
  | none => exact .none
  | some hr =>
    rw [Option.bind_some, Option.bind_some, hr.1]
    exact (hf _).run hr.2

/-- A node is computed alike if its operands are read alike. -/
theorem Simulates.evaluate {read : NodeIndex → StateT σ Option Json}
    {read' : NodeIndex → StateT τ Option Json} (h : ∀ o, Simulates R (read o) (read' o))
    (cs : Concepts) (root : Root → Json) (node : Node) :
    Simulates R (node.evaluate cs root read) (node.evaluate cs root read') := by
  cases node with
  | null | boolean | number | string | root => exact .pure _
  | property | unary | is => exact (h _).bind fun _ => .pure _
  | arrayItem => exact (h _).bind fun _ => (h _).bind fun _ => .pure _
  | binary op l r =>
    cases op with
    | and =>
      refine (h l).bind fun x => ?_
      cases hx : x.truthy
      · exact .pure x
      · exact h r
    | or =>
      refine (h l).bind fun x => ?_
      cases hx : x.truthy
      · exact h r
      · exact .pure x
    | _ => exact (h l).bind fun _ => (h r).bind fun _ => .pure _

/-- What related states have in common is the same after both computations. -/
theorem Simulates.map_eq {m : StateT σ Option α} {m' : StateT τ Option α} (h : Simulates R m m')
    {s : σ} {t : τ} (hst : R s t) {f : σ → β} {g : τ → β}
    (hfg : ∀ {s' t'}, R s' t' → g t' = f s') :
    (m' t).map (fun r => (r.1, g r.2)) = (m s).map fun r => (r.1, f r.2) := by
  have hrun := h.run hst
  generalize m s = r at hrun
  generalize m' t = r' at hrun
  cases hrun with
  | none => rfl
  | some hr => rw [Option.map_some, Option.map_some, hr.1, hfg hr.2]

end

/-- Two states with the same cells of the same table have their slots computed alike, if this is so
of the other tables. -/
theorem Memo.slot_simulates {σ τ : Type} {p : Program} {kind : TableKind} {root : Root → Json}
    {otherValue : Nat → Json} {m : Memo σ p kind root otherValue}
    {m' : Memo τ p kind root otherValue} {R : σ → τ → Prop}
    (hgood : ∀ {s t}, R s t → m.Good s ∧ m'.Good t)
    (hcells : ∀ {s t}, R s t → m'.cells t = m.cells s)
    (hmark : ∀ {s t} q c, R s t → R (m.mark q c s) (m'.mark q c t))
    (hother : ∀ q, Simulates R (m.other q) (m'.other q)) (fuel position : Nat) :
    Simulates R (m.slot fuel position) (m'.slot fuel position) := by
  -- fuel only counts where the slot has to be computed
  have hslot {fuel position : Nat} (hempty : ∀ {s t n}, R s t → p.nodes[position]? = some n →
      (m.cells s)[position]? = some .empty → Option.Rel (fun r r' => r.1 = r'.1 ∧ R r.2 r'.2)
        (m.slot fuel position s) (m'.slot fuel position t)) :
      Simulates R (m.slot fuel position) (m'.slot fuel position) := by
    refine ⟨fun {s t} h => ?_⟩
    obtain ⟨hs, ht⟩ := hgood h
    cases hn : p.nodes[position]? with
    | none =>
      rw [m.slot_missing hs hn, m'.slot_missing ht hn]
      exact .some ⟨rfl, h⟩
    | some n =>
      have hlt : position < (m.cells s).length := by
        rw [m.length_cells hs]
        exact (List.getElem?_eq_some_iff.mp hn).1
      obtain ⟨c, hc⟩ : ∃ c, (m.cells s)[position]? = some c := ⟨_, List.getElem?_eq_getElem hlt⟩
      have hc' : (m'.cells t)[position]? = some c := by rw [hcells h, hc]
      cases c with
      | empty => exact hempty h hn hc
      | running =>
        rw [m.slot_running hs hn hc, m'.slot_running ht hn hc']
        exact .none
      | filled x =>
        rw [m.slot_filled hs hn hc, m'.slot_filled ht hn hc']
        exact .some ⟨rfl, h⟩
  induction fuel generalizing position with
  | zero =>
    refine hslot fun {s t n} h hn hc => ?_
    obtain ⟨hs, ht⟩ := hgood h
    rw [m.slot_exhausted hs hn hc, m'.slot_exhausted ht hn (by rw [hcells h, hc])]
    exact .none
  | succ fuel ih =>
    refine hslot fun {s t n} h hn hc => ?_
    obtain ⟨hs, ht⟩ := hgood h
    have hoperand (o : NodeIndex) :
        Simulates R (kind.operand (m.slot fuel) m.other o) (kind.operand (m'.slot fuel) m'.other o) := by
      rcases kind.operand_cases o with ⟨q, -, hown⟩ | ⟨q, -, hforeign⟩
      · rw [hown, hown]
        exact ih q
      · rw [hforeign, hforeign]
        exact hother q
    have hrun := (Simulates.evaluate hoperand p.concepts root n).run (hmark position .running h)
    rw [m.slot_empty hs hn hc, m'.slot_empty ht hn (by rw [hcells h, hc])]
    generalize n.evaluate p.concepts root (kind.operand (m.slot fuel) m.other) _ = r at hrun
    generalize n.evaluate p.concepts root (kind.operand (m'.slot fuel) m'.other) _ = r' at hrun
    cases hrun with
    | none => exact .none
    | @some r r' hr =>
      refine .some ⟨hr.1, ?_⟩
      show R (m.mark position (.filled r.1) r.2) (m'.mark position (.filled r'.1) r'.2)
      rw [hr.1]
      exact hmark position (.filled r'.1) hr.2

namespace Logged

variable {n : Nat} {base : SharedValues n} {own : Fin n → OwnValues} {W : Place n → Prop}
  {s : Logged n}

/-! ## The common values -/

/-- The common values as the log's state has them. -/
def SeesCommon (base : SharedValues n) (own : Fin n → OwnValues) (s : Logged n)
    (v : CommonValues) : Prop := Ready base own none s ∧ v = s.values.common

theorem position_none_simulates (base : SharedValues n) (own : Fin n → OwnValues) (q : Nat) :
    Simulates (SeesCommon base own) (position none q) (CommonValues.position q) := by
  have hslot (fuel : Nat) : Simulates (SeesCommon base own)
      ((memoWith (readsOther_none base own)).slot fuel q) (base.common.memo.slot fuel q) := by
    refine Memo.slot_simulates (fun h => ⟨h.1, ?_⟩) (fun h => by rw [h.2]; rfl)
      (fun _ _ h => ⟨h.1.mark _ _, by rw [h.2]; rfl⟩) (fun _ => .pure _) fuel q
    rw [h.2]
    exact ⟨h.1.same.common, h.1.length none⟩
  refine ⟨fun {s v} h => ?_⟩
  rw [position, positionWith_eq (readsOther_none base own) h.1 q]
  have hrun := (hslot (s.values.cells none).length).run h
  rw [h.2] at hrun ⊢
  exact hrun

/-! ## The values of an instance -/

/-- The values of an instance as the log's state has them. -/
def SeesInstance (base : SharedValues n) (own : Fin n → OwnValues) (k : Fin n) (s : Logged n)
    (w : SubjectValues) : Prop := Ready base own (some k) s ∧ w = s.values.view k

theorem Ready.sound_common (hord : base.common.program.Ordered .common) {k : Fin n}
    (h : Ready base own (some k) s) : s.values.common.Sound where
  ordered := by
    rw [h.same.common.program]
    exact hord
  length := by
    rw [h.same.common.program]
    exact h.length none
  cells := by
    rw [h.same.common.value]
    exact h.common (by simp)

theorem commonPosition_simulates (hord : base.common.program.Ordered .common)
    (own : Fin n → OwnValues) (k : Fin n) (q : Nat) :
    Simulates (SeesInstance base own k) (position none q) (SubjectValues.commonPosition q) := by
  refine ⟨fun {s w} h => ?_⟩
  obtain ⟨hs, rfl⟩ := h
  obtain ⟨s', hlogged, hs', -⟩ := readsOther_some hord own k hs (q := q)
  have hrun := (position_none_simulates base s.values.own q).run ⟨hs.common_read.1, rfl⟩
  change position none q s = some (base.otherValue (some k) q, s') at hlogged
  rw [hlogged] at hrun ⊢
  show Option.Rel _ _ ((CommonValues.position q s.values.common).bind _)
  generalize CommonValues.position q s.values.common = r at hrun
  cases hrun with
  | @some _ r hr =>
    -- the values of the instance itself have not changed
    obtain ⟨x, common⟩ := r
    obtain ⟨hvalue, hready, hcommon⟩ : base.otherValue (some k) q = x ∧
      Ready base s.values.own none s' ∧ common = s'.values.common := hr
    refine .some ⟨hvalue, hs', ?_⟩
    show { s.values.view k with common } = s'.values.view k
    rw [hcommon, SharedValues.view, SharedValues.view, hready.frame k (by simp)]

theorem position_some_simulates (hord : base.common.program.Ordered .common)
    (own : Fin n → OwnValues) (k : Fin n) (q : Nat) :
    Simulates (SeesInstance base own k) (position (some k) q) (SubjectValues.position q) := by
  have hslot (fuel : Nat) : Simulates (SeesInstance base own k)
      ((memoWith (readsOther_some hord own k)).slot fuel q) ((base.view k).memo.slot fuel q) := by
    refine Memo.slot_simulates (fun h => ⟨h.1, ?_⟩) (fun h => by rw [h.2]; rfl)
      (fun q c h => ⟨h.1.mark _ _, ?_⟩) (commonPosition_simulates hord own k) fuel q
    · rw [h.2]
      exact ⟨h.1.same.view k, h.1.sound_common hord, h.1.length (some k)⟩
    · rw [h.2]
      exact (SharedValues.view_mark_self ..).symm
  refine ⟨fun {s w} h => ?_⟩
  rw [position, positionWith_eq (readsOther_some hord own k) h.1 q]
  have hrun := (hslot (s.values.cells (some k)).length).run h
  rw [h.2] at hrun ⊢
  exact hrun

/-! ## Reads without the log -/

/-- A read with the log is a plain read and something beside it. -/
theorem read_values (hord : base.common.program.Ordered .common) (h : Settled base W s)
    (a : Access n) :
    SharedValues.read a s.values = (read a s).map fun r => (r.1, r.2.values) := by
  obtain ⟨l, i⟩ := a
  cases l with
  | none =>
    have hsees {s' : Logged n} {v : CommonValues} (h' : SeesCommon base s.values.own s' v) :
        SharedValues.mk v s.values.own = s'.values := by
      have hown : s'.values.own = s.values.own := funext fun k => h'.1.frame k (by simp)
      rw [h'.2, ← hown]
    rw [SharedValues.read, CommonValues.read, read, Access.place?, Layer.place?.eq_def]
    cases i.slot with
    | common q =>
      exact Option.map_eq_bind.symm.trans
        ((position_none_simulates base s.values.own q).map_eq ⟨h.ready none, rfl⟩ hsees)
    | subject q => rfl
  | some k =>
    have hsees {s' : Logged n} {w : SubjectValues} (h' : SeesInstance base s.values.own k s' w) :
        SharedValues.mk w.common
          (Function.update s.values.own k ⟨w.program, w.resource, w.cells⟩) = s'.values := by
      have hown : Function.update s.values.own k (s'.values.own k) = s'.values.own := by
        funext j
        by_cases hj : j = k
        · rw [hj, Function.update_self]
        · rw [Function.update_of_ne hj, h'.1.frame j (by simpa using Ne.symm hj)]
      rw [h'.2]
      exact congrArg _ hown
    rw [SharedValues.read, SubjectValues.read, read, Access.place?, Layer.place?.eq_def]
    cases i.slot with
    | common q =>
      exact Option.map_eq_bind.symm.trans
        ((commonPosition_simulates hord s.values.own k q).map_eq ⟨h.ready _, rfl⟩ hsees)
    | subject q =>
      exact Option.map_eq_bind.symm.trans
        ((position_some_simulates hord s.values.own k q).map_eq ⟨h.ready _, rfl⟩ hsees)

theorem readAll_values (hord : ∀ l, (base.program l).Ordered l.kind)
    (hW : ∀ {x y}, W x → base.AsksFor x y → W y) (h : Settled base W s) {reads : List (Access n)}
    (hreads : ∀ a ∈ reads, ∀ x, a.place? = some x → W x) :
    SharedValues.readAll reads s.values = (readAll reads s).map fun r => (r.1, r.2.values) := by
  induction reads generalizing s with
  | nil => rfl
  | cons a rest ih =>
    obtain ⟨ha, hrest⟩ := List.forall_mem_cons.mp hreads
    obtain ⟨s₁, hrun, hs₁, -⟩ := read_run hord hW h ha
    have hplain := read_values (hord none) h a
    rw [hrun] at hplain
    rw [SharedValues.readAll, readAll, Node.bind_run hplain, Node.bind_run hrun]
    have hrest := ih hs₁ hrest
    change ((SharedValues.readAll rest s₁.values).bind _) = ((readAll rest s₁).bind _).map _
    rw [hrest]
    cases readAll rest s₁ <;> rfl

end Logged

end AccessPolicy
