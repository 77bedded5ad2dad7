import AccessPolicy.Proofs.Compile

/-!
# Verification — what is built always passes

The verifier accepts a table exactly when every node stands at its own index, after its operands.
Graphs are built that way whatever they are asked, so the check at the end of a compilation never
fails, and no node ends up where nodes of a subject without a table would go.
-/

namespace AccessPolicy

/-! ## What the verifier accepts -/

namespace NodeTable

variable {kind : TableKind} {commonSize : Nat}

theorem verifyNode_eq_ok_iff {position : Nat} {n : TypedNode} :
    verifyNode kind commonSize position n = .ok () ↔ n.index = kind.indexAt position ∧
      ∀ o ∈ n.node.operands, mayRefer kind commonSize position o = true := by
  unfold verifyNode
  by_cases hindex : n.index = kind.indexAt position
  · rw [if_neg (not_not.mpr hindex)]
    split
    · -- an operand that may not be referred to is reported
      rename_i o ho
      have hmem : o ∈ n.node.operands := List.mem_of_find?_eq_some ho
      have hbad : mayRefer kind commonSize position o = false := by
        simpa using List.find?_some ho
      simp only [reduceCtorEq, false_iff, not_and, not_forall]
      exact fun _ => ⟨o, hmem, by simp [hbad]⟩
    · rename_i hnone
      have hall : ∀ o ∈ n.node.operands, mayRefer kind commonSize position o = true := by
        simpa using List.find?_eq_none.mp hnone
      exact iff_of_true rfl ⟨hindex, hall⟩
  · rw [if_pos hindex]
    simp [hindex]

theorem verifyFrom_eq_ok_iff {start : Nat} {t : NodeTable} :
    verifyFrom kind commonSize start t = .ok () ↔
      ∀ p n, t[p]? = some n → verifyNode kind commonSize (start + p) n = .ok () := by
  induction t generalizing start with
  | nil => simp [verifyFrom]
  | cons first rest ih =>
    rw [verifyFrom]
    constructor
    · intro h p n hn
      split at h
      · exact absurd h (by simp)
      · rename_i hfirst
        cases p with
        | zero =>
          obtain rfl : first = n := by simpa using hn
          exact hfirst
        | succ p =>
          rw [show start + (p + 1) = start + 1 + p by omega]
          exact ih.mp h p n (by simpa using hn)
    · intro h
      rw [show verifyNode kind commonSize start first = .ok () from h 0 first rfl]
      apply ih.mpr
      intro p n hn
      rw [show start + 1 + p = start + (p + 1) by omega]
      exact h (p + 1) n (by simpa using hn)

/-- The verifier asks for no more than that nodes are well placed. -/
theorem WellPlaced.verifyFrom {t : NodeTable} (h : WellPlaced kind commonSize t) :
    verifyFrom kind commonSize 0 t = .ok () := by
  apply verifyFrom_eq_ok_iff.mpr
  intro p n hn
  rw [Nat.zero_add]
  exact verifyNode_eq_ok_iff.mpr ⟨h.index hn, h.operands hn⟩

end NodeTable

namespace GraphTables

theorem verifySubjects_eq_ok_iff {commonSize : Nat} {ts : List NodeTable} :
    verifySubjects commonSize ts = .ok () ↔
      ∀ t ∈ ts, NodeTable.verifyFrom .subject commonSize 0 t = .ok () := by
  induction ts with
  | nil => simp [verifySubjects]
  | cons t rest ih =>
    rw [verifySubjects, List.forall_mem_cons, ← ih]
    cases NodeTable.verifyFrom .subject commonSize 0 t <;> simp

theorem verify_eq_ok_iff {ts : GraphTables} :
    ts.verify = .ok () ↔
      NodeTable.verifyFrom .common ts.common.length 0 ts.common = .ok () ∧
        ∀ t ∈ ts.subjects, NodeTable.verifyFrom .subject ts.common.length 0 t = .ok () := by
  rw [verify, ← verifySubjects_eq_ok_iff]
  cases NodeTable.verifyFrom .common ts.common.length 0 ts.common <;> simp

end GraphTables

/-! ## Graphs that are built -/

namespace Graph

theorem WellPlaced.verify {g : Graph} (h : g.WellPlaced) : g.tables.verify = .ok () := by
  apply GraphTables.verify_eq_ok_iff.mpr
  refine ⟨h.common.verifyFrom, fun t ht => ?_⟩
  obtain ⟨s, hs, rfl⟩ := List.mem_map.mp ht
  exact (h.own s hs).verifyFrom

theorem WellPlaced.dependsOnSubject_common {g : Graph} (h : g.WellPlaced) {n : TypedNode}
    (hn : n ∈ g.common) : n.node.dependsOnSubject = false :=
  h.common.dependsOnSubject n hn

/-- Type-check a node and store it, where `fallback` decides what becomes of a node that depends on
a subject without a table. -/
def addOr (fallback : Graph → Node → DataType → NodeIndex × Graph) (scope : Nat) (n : Node) :
    GraphM NodeIndex := fun g =>
  match g.nodeType scope n with
  | .error e => (.error e, g)
  | .ok type =>
    let (index, g) :=
      if n.dependsOnSubject ∧ g.subjects[scope]? = none then fallback g n type
      else g.insert scope n type
    (.ok index, g)

/-- The fallback is never asked for: without a table a node of the subject does not type-check. -/
theorem addOr_eq_add (fallback : Graph → Node → DataType → NodeIndex × Graph) (scope : Nat)
    (n : Node) : addOr fallback scope n = add scope n := by
  funext g
  unfold addOr add
  cases ht : g.nodeType scope n with
  | error e => rfl
  | ok type =>
    have hregistered : ¬(n.dependsOnSubject ∧ g.subjects[scope]? = none) := by
      rintro ⟨hn, hnone⟩
      obtain ⟨s, hs⟩ := registered_of_nodeType_eq_ok ht hn
      rw [hs] at hnone
      exact absurd hnone (by simp)
    simp only [if_neg hregistered]

end Graph

/-! ## Compiled models -/

namespace Model

/-- The graph that a compilation verifies, or the fault that keeps it from getting there. -/
def builtGraph (m : Model) : Except PolicyError Graph := do
  let concepts ← Concepts.build m.concepts
  concepts.require "user" m.user
  m.requireEnvironment concepts
  let subjects ← encodeSubjects concepts [] m.subjects
  let (result, graph) := compileRoles subjects [] m.roles (m.initialGraph concepts)
  let _ ← result
  return graph

theorem wellPlaced_of_builtGraph {m : Model} {g : Graph} (h : m.builtGraph = .ok g) :
    g.WellPlaced := by
  unfold builtGraph at h
  obtain ⟨concepts, -, h⟩ := Steps.check_bind_eq_ok.mp h
  obtain ⟨_, -, h⟩ := Steps.check_bind_eq_ok.mp h
  obtain ⟨_, -, h⟩ := Steps.check_bind_eq_ok.mp h
  obtain ⟨subjects, hsubjects, h⟩ := Steps.check_bind_eq_ok.mp h
  obtain ⟨hdecls, -, hnames, -⟩ := encodeSubjects_eq_ok hsubjects
  rw [← hdecls, List.map_map] at hnames
  have hstart := (foldl_addSubject m.subjects
    (Graph.wellPlaced_new concepts m.user m.environment)).1
  cases hrun : compileRoles subjects [] m.roles (m.initialGraph concepts) with
  | mk result graph =>
    rw [hrun] at h
    obtain ⟨roles, rfl, h⟩ := Steps.check_bind_eq_ok.mp h
    obtain rfl := Except.ok.inj h
    exact (compileRoles_eq_ok hnames hstart hrun).2.1

/-- A compilation fails only for the fault of a step before the verification. -/
theorem compile_eq_error_iff {m : Model} {sourceId : String} {e : PolicyError} :
    m.compile sourceId = .error e ↔ m.builtGraph = .error e := by
  unfold compile
  -- both go through the same steps, up to the verification of the graph
  apply Steps.check_bind_error_congr
  intro concepts hconcepts
  apply Steps.check_bind_error_congr
  intro _ huser
  apply Steps.check_bind_error_congr
  intro _ henvironment
  apply Steps.check_bind_error_congr
  intro subjects hsubjects
  have hbuilt {roles : List Role} {g : Graph}
      (hrun : compileRoles subjects [] m.roles (m.initialGraph concepts) = (.ok roles, g)) :
      m.builtGraph = .ok g := by
    apply Steps.check_bind_eq_ok.mpr
    refine ⟨concepts, hconcepts, Steps.check_bind_eq_ok.mpr ⟨_, huser, ?_⟩⟩
    refine Steps.check_bind_eq_ok.mpr ⟨_, henvironment, Steps.check_bind_eq_ok.mpr ?_⟩
    refine ⟨subjects, hsubjects, ?_⟩
    rw [hrun]
    rfl
  cases hrun : compileRoles subjects [] m.roles (m.initialGraph concepts) with
  | mk result g =>
    apply Steps.check_bind_error_congr
    rintro roles rfl
    have hg : g.tables.verify = .ok () := (wellPlaced_of_builtGraph (hbuilt hrun)).verify
    show (g.tables.verify >>= _) = _ ↔ _
    rw [hg]
    exact iff_of_false nofun nofun

end Model

namespace Graph

/-- Whatever a graph is asked, in whatever order and with whatever indices, its tables pass the
verification: nothing that depends on a subject is in the common table, no node needs the place of
last resort, and a compilation fails only in a step before the verification. -/
theorem verify_run (cs : Concepts) (user : String) (environment : Option String)
    (calls : List Call) :
    ((new cs user environment).run calls).tables.verify = .ok () ∧
      (∀ n ∈ ((new cs user environment).run calls).common, n.node.dependsOnSubject = false) ∧
      (∀ fallback scope n, addOr fallback scope n = add scope n) ∧
      ∀ (m : Model) (sourceId : String) (e : PolicyError),
        m.compile sourceId = .error e ↔ m.builtGraph = .error e := by
  have hrun := wellPlaced_run cs user environment calls
  exact ⟨hrun.verify, fun _ hn => hrun.dependsOnSubject_common hn, addOr_eq_add,
    fun _ _ _ => Model.compile_eq_error_iff⟩

/-- Of these requests the last four fail, for a subject without a table, for an index that only
another subject has, for an index that no table has, and for a right operand after a left one that
was stored. -/
theorem verify_run_dangling :
    let cs : Concepts :=
      ⟨⟨["Person"], [⟨0, 1⟩]⟩, [{ name := "Person", members := [("age", .number)] }]⟩
    let g := (new cs "Person" none).run
      [.addSubject "Person", .addSubject "Person", .add 0 (.root .subject),
        .add 0 (.property (.subject 0) "age"), .conjoin 0 (.subject 1) .falseLiteral,
        .add 2 (.root .subject), .add 1 (.unary .not (.subject 1)),
        .add 0 (.binary .or (.subject 0) (.common 7)),
        .lower 1 (.and .subject (Expression.subject.get "name"))]
    g.common.length = 3 ∧ g.subjects.map (·.nodes.length) = [3, 1] ∧ g.tables.verify = .ok () := by
  intro cs g
  exact ⟨by decide +kernel, by decide +kernel, (verify_run cs "Person" none _).1⟩

end Graph

end AccessPolicy
