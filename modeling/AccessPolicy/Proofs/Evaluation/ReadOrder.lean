import AccessPolicy.Proofs.Evaluation.Simulation
import AccessPolicy.Proofs.Verification

/-!
# Read order — verified tables can be read in any order

Tables that pass the verification are ordered.  New values over them can therefore be read any number
of times and in any order: every read has a result that no other read changes, no slot is computed
twice, and what is computed in the end depends only on what was read.
-/

namespace AccessPolicy

/-! ## Verified tables -/

theorem NodeTable.ordered_of_verifyFrom {kind : TableKind} {commonSize : Nat} {t : NodeTable}
    (h : verifyFrom kind commonSize 0 t = .ok ()) (cs : Concepts) :
    (Program.ofTable cs t).Ordered kind := by
  have hnode {q : Nat} {n : TypedNode} (hn : t[q]? = some n) :
      ∀ o ∈ n.node.operands, mayRefer kind commonSize q o = true := by
    have hq := verifyFrom_eq_ok_iff.mp h q n hn
    rw [Nat.zero_add] at hq
    exact (verifyNode_eq_ok_iff.mp hq).2
  intro position m hm
  exact Program.ordered_ofTable hnode cs hm

namespace GraphTables

variable {n : Nat}

/-- New values for a user, an environment and any instances of the subjects. -/
def values (ts : GraphTables) (cs : Concepts) (user environment : Json)
    (instances : Fin n → NodeTable × Json) : SharedValues n :=
  .new (.new (.ofTable cs ts.common) user environment) fun k =>
    (.ofTable cs (instances k).1, (instances k).2)

theorem ordered_values {ts : GraphTables} (h : ts.verify = .ok ()) (cs : Concepts)
    (user environment : Json) {instances : Fin n → NodeTable × Json}
    (hinstances : ∀ k, (instances k).1 ∈ ts.subjects) (l : Layer n) :
    ((ts.values cs user environment instances).program l).Ordered l.kind := by
  obtain ⟨hcommon, hsubjects⟩ := verify_eq_ok_iff.mp h
  cases l with
  | none => exact NodeTable.ordered_of_verifyFrom hcommon cs
  | some k => exact NodeTable.ordered_of_verifyFrom (hsubjects _ (hinstances k)) cs

end GraphTables

/-! ## New values -/

namespace SharedValues

variable {n : Nat}

theorem cells_new (p : Program) (user environment : Json) (own : Fin n → Program × Json)
    (l : Layer n) : (new (.new p user environment) own).cells l =
      ((new (.new p user environment) own).program l).nodes.map fun _ => .empty := by
  cases l <;> rfl

theorem not_filled_new (p : Program) (user environment : Json) (own : Fin n → Program × Json)
    (x : Place n) : ¬(new (.new p user environment) own).Filled x := by
  rintro ⟨c, hc⟩
  rw [cell?, cells_new, List.getElem?_map, Option.map_eq_some_iff] at hc
  obtain ⟨_, _, hempty⟩ := hc
  exact absurd hempty (by simp)

/-- The value of an index is that of its node, computed on the values of the operands. -/
theorem value_eq_node (v : SharedValues n) (hord : ∀ l, (v.program l).Ordered l.kind) (l : Layer n)
    (i : NodeIndex) : v.value l i =
      match l.place? i.slot with
      | some x =>
        match v.node? x with
        | some node => node.value (v.program x.layer).concepts (v.root x.layer) (v.value x.layer)
        | none => .null
      | none => .null := by
  rw [value_eq]
  cases l.place? i.slot with
  | none => rfl
  | some x =>
    cases hnode : v.node? x with
    | none =>
      simp only [hnode]
      exact Program.value_of_none hnode
    | some node =>
      simp only [hnode]
      exact Program.value_of_some (hord x.layer) hnode

end SharedValues

namespace Logged

variable {n : Nat} {base : SharedValues n} {W W' : Place n → Prop} {s s' : Logged n}

theorem settled_new (p : Program) (user environment : Json) (own : Fin n → Program × Json)
    (W : Place n → Prop) : Settled (.new (.new p user environment) own) W
      ⟨.new (.new p user environment) own, []⟩ where
  same := .refl _
  length l := by rw [SharedValues.cells_new, List.length_map]
  holds l bound := by
    rw [SharedValues.cells_new]
    exact CommonValues.cellsHold_empty _ _ _
  nodup := .nil
  mem_log x := by simp [SharedValues.not_filled_new]
  closed hx := (SharedValues.not_filled_new _ _ _ _ _ hx).elim
  within hx := (SharedValues.not_filled_new _ _ _ _ _ hx).elim

/-! ## What is computed in the end -/

theorem Settled.cells_eq (h : Settled base W s) (h' : Settled base W' s')
    (hfilled : ∀ x, s.values.Filled x ↔ s'.values.Filled x) (l : Layer n) :
    s.values.cells l = s'.values.cells l := by
  apply List.ext_getElem?
  intro q
  have hlength : (s.values.cells l).length = (s'.values.cells l).length := by
    rw [h.length, h'.length]
  by_cases hq : q < (s.values.cells l).length
  · have hc := List.getElem?_eq_getElem hq
    have hc' := List.getElem?_eq_getElem (hlength ▸ hq)
    have hfill : (∃ x, (s.values.cells l)[q]? = some (.filled x)) ↔
        ∃ x, (s'.values.cells l)[q]? = some (.filled x) := hfilled ⟨l, q⟩
    rcases h.holds l _ (Nat.lt_succ_self q) hc with hv | hv <;>
      rcases h'.holds l _ (Nat.lt_succ_self q) hc' with hv' | hv'
    all_goals
      rw [hv] at hc
      rw [hv'] at hc'
      rw [hc, hc'] at hfill ⊢
    -- filled on one side only
    · simp at hfill
    · simp at hfill
  · rw [List.getElem?_eq_none (Nat.le_of_not_lt hq),
      List.getElem?_eq_none (hlength ▸ Nat.le_of_not_lt hq)]

/-- Values are the same where the same slots are filled. -/
theorem Settled.values_eq (h : Settled base W s) (h' : Settled base W' s')
    (hfilled : ∀ x, s.values.Filled x ↔ s'.values.Filled x) : s.values = s'.values := by
  have hcells := h.cells_eq h' hfilled
  refine SharedValues.ext ?_ (funext fun k => ?_)
  · exact CommonValues.ext (by rw [h.same.common.program, h'.same.common.program])
      (by rw [h.same.common.user, h'.same.common.user])
      (by rw [h.same.common.environment, h'.same.common.environment]) (hcells none)
  · exact OwnValues.ext (by rw [h.same.program, h'.same.program])
      (by rw [h.same.resource, h'.same.resource]) (hcells (some k))

/-- What is filled after reads of new values is what they demand, directly or not. -/
theorem Settled.filled_iff {reads : List (Access n)}
    (h : Settled base (fun x => ∃ a ∈ reads, ∃ y, a.place? = some y ∧ base.Demands y x) s)
    (hreads : ∀ a ∈ reads, ∀ x, a.place? = some x → (base.node? x).isSome → s.values.Filled x)
    (x : Place n) : s.values.Filled x ↔ (base.node? x).isSome ∧
      ∃ a ∈ reads, ∃ y, a.place? = some y ∧ base.Demands y x := by
  constructor
  · intro hx
    obtain ⟨c, hc⟩ := hx
    have hlt : x.position < (s.values.cells x.layer).length := (List.getElem?_eq_some_iff.mp hc).1
    rw [h.length] at hlt
    refine ⟨?_, h.within ⟨c, hc⟩⟩
    rw [SharedValues.node?, List.getElem?_eq_getElem hlt]
    rfl
  · rintro ⟨hnode, a, ha, y, hy, hdemands⟩
    exact SharedValues.filled_of_demands hdemands h.closed (hreads a ha y hy) hnode

end Logged

namespace GraphTables

open SharedValues

/-- Verified tables evaluate safely in any order.  Reads of new values, of any indices and as often as
one likes, have a result: each answers the value of its index, which follows from the values of the
operands of its node alone.  With a log of the slots that are started the reads run just the same,
and the log shows that none is started twice; those that are filled in the end are the ones which
the reads demand, so that the values in the end do not depend on order or repetition. -/
theorem readAll_verified {ts : GraphTables} (h : ts.verify = .ok ()) (cs : Concepts)
    (user environment : Json) {n : Nat} (instances : Fin n → NodeTable × Json)
    (hinstances : ∀ k, (instances k).1 ∈ ts.subjects) :
    let start := ts.values cs user environment instances
    (∀ reads : List (Access n), ∃ final log,
      SharedValues.readAll reads start = some (reads.map start.answer, final) ∧
      Logged.readAll reads ⟨start, []⟩ = some (reads.map start.answer, ⟨final, log⟩) ∧
      log.Nodup ∧ (∀ x, x ∈ log ↔ final.Filled x) ∧
      ∀ x, final.Filled x ↔ (start.node? x).isSome ∧
        ∃ a ∈ reads, ∃ y, a.place? = some y ∧ start.Demands y x) ∧
    (∀ reads reads' : List (Access n), (∀ a, a ∈ reads ↔ a ∈ reads') →
      (SharedValues.readAll reads start).map (·.2) =
        (SharedValues.readAll reads' start).map (·.2)) ∧
    ∀ l i, start.value l i =
      match l.place? i.slot with
      | some x =>
        match start.node? x with
        | some node => node.value cs (start.root x.layer) (start.value x.layer)
        | none => .null
      | none => .null := by
  intro start
  have hord := ordered_values h cs user environment hinstances
  let demanded (reads : List (Access n)) (x : Place n) : Prop :=
    ∃ a ∈ reads, ∃ y, a.place? = some y ∧ start.Demands y x
  have hrun (reads : List (Access n)) : ∃ s,
      Logged.readAll reads ⟨start, []⟩ = some (reads.map start.answer, s) ∧
      SharedValues.readAll reads start = some (reads.map start.answer, s.values) ∧
      Logged.Settled start (demanded reads) s ∧
      ∀ x, s.values.Filled x ↔ (start.node? x).isSome ∧ demanded reads x := by
    have hstart := Logged.settled_new (.ofTable cs ts.common) user environment
      (fun k => (.ofTable cs (instances k).1, (instances k).2)) (demanded reads)
    have hclosed {x y : Place n} : demanded reads x → start.AsksFor x y → demanded reads y := by
      rintro ⟨a, ha, z, hz, hdemands⟩ hask
      exact ⟨a, ha, z, hz, hdemands.tail hask⟩
    have hwanted (a) (ha : a ∈ reads) (x) (hx : a.place? = some x) : demanded reads x :=
      ⟨a, ha, x, hx, .refl⟩
    obtain ⟨s, hlogged, hs, -, hfilled⟩ := Logged.readAll_run hord hclosed hstart hwanted
    refine ⟨s, hlogged, ?_, hs, hs.filled_iff hfilled⟩
    have hplain := Logged.readAll_values hord hclosed hstart hwanted
    rw [hlogged] at hplain
    exact hplain
  refine ⟨fun reads => ?_, fun reads reads' hsame => ?_, fun l i => ?_⟩
  · obtain ⟨s, hlogged, hplain, hs, hfilled⟩ := hrun reads
    exact ⟨s.values, s.log, hplain, hlogged, hs.nodup, hs.mem_log, hfilled⟩
  · obtain ⟨s, -, hplain, hs, hfilled⟩ := hrun reads
    obtain ⟨s', -, hplain', hs', hfilled'⟩ := hrun reads'
    rw [hplain, hplain', Option.map_some, Option.map_some]
    refine congrArg some (hs.values_eq hs' fun x => ?_)
    rw [hfilled, hfilled']
    simp only [demanded, hsame]
  · have hconcepts (l : Layer n) : (start.program l).concepts = cs := by cases l <;> rfl
    rw [start.value_eq_node hord]
    simp only [hconcepts]

/-- A user who is no administrator is refused at both doors, and whether they are open is never
computed. -/
theorem readAll_verified_refused :
    let table : NodeTable := [⟨.subject 0, .root .subject, .concept "Door"⟩,
      ⟨.subject 1, .property (.subject 0) "open", .boolean⟩,
      ⟨.subject 2, .binary .and (.common 1) (.subject 1), .boolean⟩]
    let ts : GraphTables := ⟨[⟨.common 0, .root .user, .concept "Person"⟩,
      ⟨.common 1, .property (.common 0) "admin", .boolean⟩], [table]⟩
    let start := ts.values ⟨⟨[], []⟩, []⟩ (.obj [("admin", .bool false)]) .null
      fun _ : Fin 2 => (table, .obj [("open", .bool true)])
    let reads : List (Access 2) :=
      [⟨some 0, .subject 2⟩, ⟨none, .common 1⟩, ⟨some 1, .subject 2⟩, ⟨some 0, .subject 2⟩]
    ts.verify = .ok () ∧
      ∃ (final : SharedValues 2) (log : List (Place 2)), SharedValues.readAll reads start =
          some ([.bool false, .bool false, .bool false, .bool false], final) ∧
        log.Nodup ∧ (∀ x, x ∈ log ↔ final.Filled x) ∧
        (SharedValues.readAll reads start).map
          (fun r => [r.2.common.filled, (r.2.view 0).filled, (r.2.view 1).filled]) =
            some [2, 1, 1] := by
  intro table ts start reads
  have hverify : ts.verify = .ok () := by rfl
  obtain ⟨hreads, -⟩ := readAll_verified hverify ⟨⟨[], []⟩, []⟩ (.obj [("admin", .bool false)])
    .null (fun _ : Fin 2 => (table, .obj [("open", .bool true)])) fun _ => by simp [ts]
  obtain ⟨final, log, hrun, -, hnodup, hlog, -⟩ := hreads reads
  exact ⟨hverify, final, log, hrun, hnodup, hlog, by decide +kernel⟩

end GraphTables

end AccessPolicy
