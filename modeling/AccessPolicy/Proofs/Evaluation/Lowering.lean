import AccessPolicy.Proofs.Concepts
import AccessPolicy.Proofs.Evaluation.Reading
import AccessPolicy.Proofs.Graph.Trees
import AccessPolicy.Semantics.Condition

/-!
# Lowering — a stored condition means what its tree means

An index has the value of the tree that it stands for.  As later steps change neither the tree of an
index nor what reading a table answers, lowering a condition and reading it back is evaluating it.
-/

namespace AccessPolicy

/-! ## Type tests -/

namespace Concepts

variable {decls : List ConceptDecl} {cs : Concepts}

theorem namesBelow_iff (h : build decls = .ok cs) {concept : String} {value : Json} :
    cs.namesBelow concept value = true ↔ ∃ tag, value.typeTag? = some tag ∧
      HierarchyNode.Reaches (decls.map ConceptDecl.node) tag concept := by
  obtain ⟨hencode, rfl⟩ := build_eq_ok h
  unfold namesBelow
  cases value.typeTag? with
  | none => simp
  | some tag => simp [HierarchyNode.isBelow_iff_reaches hencode]

/-- The encoded hierarchy answers type tests as the parent links do. -/
theorem isInstance_eq (h : build decls = .ok cs) (hsize : decls.length ≤ 2 ^ 31)
    (concept : String) (value : Json) :
    cs.isInstance concept value = cs.namesBelow concept value := by
  rw [Bool.eq_iff_iff, namesBelow_iff h, isInstance]
  cases value.typeTag? with
  | none => simp
  | some tag =>
    -- a tag that is no concept has no answer, which counts as no
    simp only [Option.bind_some, Option.some.injEq, exists_eq_left',
      ← isSubType?_eq_true_iff h hsize]
    cases cs.isSubType? tag concept <;> simp

end Concepts

/-! ## Trees -/

namespace Expression

@[simp] theorem evaluate_erase (cs : Concepts) (data : Root → Json) (e : Expression) :
    e.erase.evaluate cs data = e.evaluate cs data := by
  induction e <;> simp_all [erase, evaluate]

end Expression

/-- A node computes with values as its tree does. -/
theorem Node.evaluate_tree {cs : Concepts} (hcs : ∀ c x, cs.isInstance c x = cs.namesBelow c x)
    {data : Root → Json} {trees : NodeIndex → Expression} (n : Node) :
    (n.tree trees).evaluate cs data = n.value cs data fun o => (trees o).evaluate cs data := by
  cases n with
  | binary op l r => rw [value_binary]; rfl
  | is concept operand =>
    show Json.bool (cs.namesBelow concept _) = Json.bool (cs.isInstance concept _)
    rw [hcs]
  | _ => rfl

theorem NodeTable.WellPlaced.ordered {kind : TableKind} {c : Nat} {t : NodeTable}
    (h : NodeTable.WellPlaced kind c t) (cs : Concepts) : (Program.ofTable cs t).Ordered kind :=
  Program.ordered_ofTable h.operands cs

/-- In the program of a well-placed table a node has the value of its operands' values. -/
theorem NodeTable.WellPlaced.value_eq {kind : TableKind} {c p : Nat} {t : NodeTable}
    (h : NodeTable.WellPlaced kind c t) {cs : Concepts} {program : Program}
    (hprogram : program = .ofTable cs t) {n : TypedNode} (hn : t[p]? = some n)
    (root : Root → Json) (other : Nat → Json) : program.value kind root other p =
      n.node.value cs root (kind.operand (program.value kind root other) other) := by
  subst hprogram
  have hnode : (Program.ofTable cs t).nodes[p]? = some n.node := by
    rw [Program.ofTable, List.getElem?_map, hn, Option.map_some]
  exact Program.value_of_some (h.ordered cs) hnode

namespace GraphView

variable {v : GraphView} {values : SubjectValues} {cs : Concepts}

/-- In values over the tables of a view, an index has the value of its node. -/
theorem WellPlaced.value_eq (h : v.WellPlaced) (hown : values.program = .ofTable cs v.own)
    (hcommon : values.common.program = .ofTable cs v.common) {i : NodeIndex} {n : TypedNode}
    (hn : v.nodeAt? i = some n) : values.value i = n.node.value cs values.root values.value := by
  have hkind := h.dependsOnSubject hn
  obtain ⟨kind, p, hp, hget⟩ := nodeAt?_eq_some_iff.mp hn
  rw [SubjectValues.value, TableKind.operand.eq_def, hp]
  cases kind with
  | subject =>
    show values.program.value .subject values.root values.common.value p = _
    exact (h .subject).value_eq hown hget _ _
  | common =>
    show values.common.program.value .common values.common.root (fun _ => .null) p = _
    rw [(h .common).value_eq hcommon hget]
    rw [NodeIndex.isSubject_of_slot hp] at hkind
    -- the common table knows no subject instance, and none of its nodes looks at one
    refine Node.value_congr (fun r hr => ?_) fun o ho => ?_
    · cases r with
      | subject => rw [hr] at hkind; exact absurd hkind (by decide)
      | _ => rfl
    · have ho' := (h .common).operands hget o ho
      rw [TableKind.operand.eq_def, TableKind.operand.eq_def]
      cases hslot : o.slot with
      | common q => rfl
      | subject q => simp [NodeTable.mayRefer, hslot] at ho'

/-- In values over the tables of a view, an index has the value of its tree. -/
theorem Spells.value (h : v.WellPlaced) (hcs : ∀ c x, cs.isInstance c x = cs.namesBelow c x)
    (hown : values.program = .ofTable cs v.own)
    (hcommon : values.common.program = .ofTable cs v.common)
    {i : NodeIndex} {t : Expression} (hspells : v.Spells i t) :
    values.value i = t.evaluate cs values.root := by
  induction hspells with
  | node trees hn _ ih =>
    rw [h.value_eq hown hcommon hn, Node.evaluate_tree hcs]
    exact Node.value_congr (fun _ _ => rfl) ih

end GraphView

/-! ## Lowering -/

namespace Graph

variable {cs : Concepts} {g : Graph}

theorem WellPlaced.sound_values (h : g.WellPlaced) (scope : Nat)
    (user environment resource : Json) :
    (SubjectValues.new (.ofTable cs (g.view scope).own)
      (.new (.ofTable cs g.common) user environment) resource).Sound :=
  SubjectValues.sound_new ((h.own_view scope).ordered cs)
    (CommonValues.sound_new (h.common.ordered cs) user environment) resource

/-- Reading an index of new values evaluates its tree. -/
theorem WellPlaced.read_spells (h : g.WellPlaced)
    (hcs : ∀ c x, cs.isInstance c x = cs.namesBelow c x) {scope : Nat} {i : NodeIndex}
    {t : Expression} (hi : (g.view scope).Spells i t) (user environment resource : Json) :
    (SubjectValues.read i (.new (.ofTable cs (g.view scope).own)
      (.new (.ofTable cs g.common) user environment) resource)).map (·.1) =
      some (t.evaluate cs fun
        | .user => user
        | .environment => environment
        | .subject => resource) := by
  obtain ⟨w, hread, -, -⟩ :=
    SubjectValues.read_run (h.sound_values scope user environment resource) i
  have hroot : (SubjectValues.new (.ofTable cs (g.view scope).own)
      (.new (.ofTable cs g.common) user environment) resource).root = fun
        | .user => user
        | .environment => environment
        | .subject => resource := by
    funext r
    cases r <;> rfl
  rw [hread, Option.map_some, hi.value (h.view scope) hcs rfl rfl, hroot]

/-- Lowering preserves meaning: whatever the graph was asked before and afterwards, reading the
index of a condition in its finished tables gives what the condition evaluates to as a tree. -/
theorem lower_evaluates {decls : List ConceptDecl} (hcs : Concepts.build decls = .ok cs)
    (hsize : decls.length ≤ 2 ^ 31) {user : String} {environment : Option String}
    (before after : List Call) {scope : Nat}
    (hscope : scope < ((new cs user environment).run before).subjects.length) {e : Expression}
    {i : NodeIndex} (hlower : lower scope e ((new cs user environment).run before) = (.ok i, g))
    (hfits : (g.run after).Fits scope) (userData environmentData resource : Json) :
    (∃ own, (g.run after).tables.subjects[scope]? = some own ∧
      (SubjectValues.read i (.new (.ofTable cs own)
        (.new (.ofTable cs (g.run after).tables.common) userData environmentData) resource)).map
          (·.1) =
        some (e.evaluate cs fun
          | .user => userData
          | .environment => environmentData
          | .subject => resource)) ∧
    ∀ concept value, cs.namesBelow concept value = true ↔
      ∃ tag, value.typeTag? = some tag ∧
        HierarchyNode.Reaches (decls.map ConceptDecl.node) tag concept := by
  refine ⟨?_, fun _ _ => Concepts.namesBelow_iff hcs⟩
  have hbefore := wellPlaced_run cs user environment before
  have hext := (keeps_lower scope e).extends hlower
  have hrun := run_keeps g after
  -- the tree of the index is fixed when it is answered, and later steps leave it alone
  have hspells := (lower_spells hbefore hlower (hfits.of_extends hrun.1)).mono (hrun.1.view scope)
  have hwell := hrun.2 ((keeps_lower scope e).wellPlaced hlower hbefore)
  obtain ⟨s, hs⟩ : ∃ s, (g.run after).subjects[scope]? = some s :=
    ⟨_, List.getElem?_eq_getElem (Nat.lt_of_lt_of_le hscope (hext.trans hrun.1).length_subjects)⟩
  have hown : ((g.run after).view scope).own = s.nodes := by simp [view, hs]
  refine ⟨s.nodes, by simp [tables, hs], ?_⟩
  have hread := hwell.read_spells (Concepts.isInstance_eq hcs hsize) hspells userData
    environmentData resource
  rw [hown, Expression.evaluate_erase] at hread
  exact hread

/-- Of an employee, who is a person, the test for a person holds, also after more was lowered. -/
theorem lower_evaluates_employee :
    let decls : List ConceptDecl :=
      [{ name := "Person", members := [("age", .number)] },
        { name := "Employee", parent := "Person" }]
    let cs : Concepts := ⟨⟨["Person", "Employee"], [⟨0, 3⟩, ⟨1, 2⟩]⟩, decls⟩
    let test := Expression.subject.get "age" |>.equals (.number .zero none) |>.not
      |>.and (.is .subject "Person" none)
    let g := (lower 0 test ((new cs "Person" none).addSubject "Employee")).2
    let final := g.run [.addSubject "Person", .lower 0 .user]
    ∃ own, final.tables.subjects[0]? = some own ∧
      (SubjectValues.read (.subject 5) (.new (.ofTable cs own)
        (.new (.ofTable cs final.tables.common) .null .null)
        (.obj [("$type", .str "Employee"), ("age", .int 40)]))).map (·.1) = some (.bool true) := by
  intro decls cs test g final
  have hcs : Concepts.build decls = .ok cs := by rfl
  have hlower : lower 0 test ((new cs "Person" none).run [.addSubject "Employee"]) =
      (.ok (.subject 5), g) := Steps.eq_ok_of_toOption (by decide +kernel)
  obtain ⟨⟨own, hown, hread⟩, -⟩ := lower_evaluates hcs (by decide) [.addSubject "Employee"]
    [.addSubject "Person", .lower 0 .user] (by decide) hlower
    ⟨by decide +kernel, by decide +kernel⟩ .null .null
    (.obj [("$type", .str "Employee"), ("age", .int 40)])
  exact ⟨own, hown, hread⟩

end Graph

end AccessPolicy
