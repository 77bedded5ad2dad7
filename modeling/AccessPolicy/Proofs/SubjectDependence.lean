import AccessPolicy.Proofs.Evaluation.ReadOrder
import AccessPolicy.Proofs.Graph.Sharing
import AccessPolicy.Proofs.Interpretation

/-!
# Subject dependence — what the subject instance can change

The sign of an index tells whether its condition speaks about the subject.  What does not is read
from the common table, whose values are shared: they are the same through every instance of every
subject, and so is every rule whose condition is stored there.
-/

namespace AccessPolicy

/-! ## Conditions -/

namespace Expression

/-- The subject root occurs somewhere in the condition. -/
def HasSubjectRoot (e : Expression) : Prop := ∃ type?, .root .subject type? ∈ e.parts

theorem mentionsSubject_iff (e : Expression) : e.mentionsSubject = true ↔ e.HasSubjectRoot := by
  unfold HasSubjectRoot
  induction e with
  | null | boolean | number | string => simp [mentionsSubject, parts]
  | root r t =>
    simp only [mentionsSubject, parts, List.mem_singleton, root.injEq, beq_iff_eq]
    constructor
    · exact fun h => ⟨t, h.symm, rfl⟩
    · rintro ⟨-, h, -⟩
      exact h.symm
  | property _ _ _ ih | unary _ _ _ ih | is _ _ _ ih => simp [mentionsSubject, parts, ih]
  | arrayIndex _ _ _ ih ih' | binary _ _ _ _ ih ih' =>
    simp [mentionsSubject, parts, ih, ih', exists_or]

end Expression

namespace Graph

/-- A condition is answered with an index of the subject's table exactly if it mentions the
subject. -/
theorem isSubject_of_lower {g g' : Graph} {scope : Nat} {e : Expression} {i : NodeIndex}
    (hg : g.WellPlaced) (h : lower scope e g = (.ok i, g')) (hfits : g'.Fits scope) :
    i.isSubject = true ↔ e.HasSubjectRoot := by
  have hg' := (keeps_lower scope e).wellPlaced h hg
  rw [← (lower_spells hg h hfits).mentionsSubject (hg'.view scope), Expression.mentionsSubject_erase,
    Expression.mentionsSubject_iff]

end Graph

/-! ## Shared values -/

theorem NodeIndex.exists_common {i : NodeIndex} (h : i.isSubject = false) :
    ∃ p, i.slot = .common p := by
  cases hslot : i.slot with
  | common p => exact ⟨p, rfl⟩
  | subject p =>
    rw [isSubject_of_slot_subject hslot] at h
    exact absurd h (by decide)

namespace SharedValues

/-- An index of the common table has the same value as seen from every layer. -/
theorem value_common {n : Nat} (v : SharedValues n) (l : Layer n) {i : NodeIndex} {p : Nat}
    (hi : i.slot = .common p) : v.value l i = v.common.value p := by
  rw [value_eq, hi]
  rfl

end SharedValues

namespace CommonValues

theorem read_run {v : CommonValues} (h : v.Sound) {i : NodeIndex} {p : Nat}
    (hi : i.slot = .common p) : (read i v).map (·.1) = some (v.value p) := by
  obtain ⟨w, hrun, -⟩ := position_run h p
  rw [read, hi]
  show (position p v).map (·.1) = _
  rw [hrun, Option.map_some]

end CommonValues

namespace GraphTables

/-- Reads of new values over verified tables answer the values of their indices. -/
theorem exists_readAll {ts : GraphTables} (h : ts.verify = .ok ()) (cs : Concepts)
    (user environment : Json) {n : Nat} {instances : Fin n → NodeTable × Json}
    (hinstances : ∀ k, (instances k).1 ∈ ts.subjects) (reads : List (Access n)) :
    ∃ final, SharedValues.readAll reads (ts.values cs user environment instances) =
      some (reads.map (ts.values cs user environment instances).answer, final) := by
  have hord := ordered_values h cs user environment hinstances
  -- nothing is said here of which slots are filled
  have hstart := Logged.settled_new (.ofTable cs ts.common) user environment
    (fun k => (.ofTable cs (instances k).1, (instances k).2)) fun _ => True
  have hwanted (a) (_ : a ∈ reads) (x) (_ : a.place? = some x) : True := trivial
  obtain ⟨s, hlogged, -⟩ := Logged.readAll_run hord (fun _ _ => trivial) hstart hwanted
  have hplain := Logged.readAll_values hord (fun _ _ => trivial) hstart hwanted
  rw [hlogged] at hplain
  exact ⟨s.values, hplain⟩

/-- An index of the common table has one value for a user and an environment: the one read from the
common values alone.  No instance of any subject and no read before changes it. -/
theorem exists_common_value {ts : GraphTables} (h : ts.verify = .ok ()) (cs : Concepts)
    (user environment : Json) {i : NodeIndex} (hi : i.isSubject = false) :
    ∃ x, (CommonValues.read i (.new (.ofTable cs ts.common) user environment)).map (·.1) = some x ∧
      ∀ (n : Nat) (instances : Fin n → NodeTable × Json), (∀ k, (instances k).1 ∈ ts.subjects) →
        ∀ reads : List (Access n), ∃ answers final,
          SharedValues.readAll reads (ts.values cs user environment instances) =
            some (answers, final) ∧
          answers.length = reads.length ∧
          ∀ (k : Nat) (a : Access n), reads[k]? = some a → a.index = i → answers[k]? = some x := by
  obtain ⟨p, hp⟩ := NodeIndex.exists_common hi
  have hord : (Program.ofTable cs ts.common).Ordered .common :=
    NodeTable.ordered_of_verifyFrom (verify_eq_ok_iff.mp h).1 cs
  refine ⟨_, CommonValues.read_run (CommonValues.sound_new hord user environment) hp, ?_⟩
  intro n instances hinstances reads
  obtain ⟨final, hrun⟩ := exists_readAll h cs user environment hinstances reads
  refine ⟨_, final, hrun, List.length_map _, fun k a ha hai => ?_⟩
  rw [List.getElem?_map, ha, Option.map_some]
  subst hai
  exact congrArg some (SharedValues.value_common _ a.layer hp)

end GraphTables

/-! ## Rules -/

namespace Evaluator

theorem mem_matchedRoles_iff {values : NodeIndex → Json} {subject : String} {x : MatchedRule}
    {roles : List Role} :
    x ∈ (matchedRoles values subject roles).map (·.1) ↔
      ∃ role ∈ roles, ∃ k rule, (role.rulesFor subject)[k]? = some rule ∧
        x = ⟨role.name, k, rule.mode⟩ ∧ (values rule.condition).truthy = true := by
  rw [matchedRoles, List.map_flatMap, List.mem_flatMap]
  refine exists_congr fun role => and_congr_right fun _ => ?_
  simp only [List.mem_map, mem_matchedRules_iff, Nat.zero_add]
  constructor
  · rintro ⟨_, ⟨k, rule, hrule, rfl, hholds⟩, rfl⟩
    exact ⟨k, rule, hrule, rfl, hholds⟩
  · rintro ⟨k, rule, hrule, rfl, hholds⟩
    exact ⟨_, ⟨k, rule, hrule, rfl, hholds⟩, rfl⟩

theorem mem_roles_of_activeRoles {e : Evaluator} {names : List String} {roles : List Role}
    (h : e.activeRoles names = .ok roles) : ∀ role ∈ roles, role ∈ e.policy.roles := by
  obtain ⟨-, rfl⟩ := activeRoles_eq_ok_iff.mp h
  intro role hrole
  obtain ⟨name, -, hname⟩ := List.mem_filterMap.mp hrole
  exact List.mem_of_find?_eq_some hname

/-- The value of an index of the common table does not follow from the subject instance. -/
theorem freshValues_common (e : Evaluator) (r : AccessRequest) (s : PolicySubject) {i : NodeIndex}
    (hi : i.isSubject = false) (resource : Json) :
    (e.freshValues { r with resource } s).value i = (e.freshValues r s).value i := by
  obtain ⟨p, hp⟩ := NodeIndex.exists_common hi
  rw [SubjectValues.value, SubjectValues.value, TableKind.operand.eq_def, TableKind.operand.eq_def,
    hp]
  rfl

/-- A rule with a condition in the common table matches all instances or none. -/
theorem contains_matchedRoles_common {e : Evaluator} (hnames : (e.policy.roles.map (·.name)).Nodup)
    {s : PolicySubject} {role : Role} (hrole : role ∈ e.policy.roles) {k : Nat} {rule : Rule}
    (hrule : (role.rulesFor s.name)[k]? = some rule) (hcommon : rule.condition.isSubject = false)
    {roles : List Role} (hroles : ∀ role ∈ roles, role ∈ e.policy.roles) (r : AccessRequest)
    (resource : Json) :
    ((matchedRoles (e.freshValues { r with resource } s).value s.name roles).map (·.1)).contains
        ⟨role.name, k, rule.mode⟩ =
      ((matchedRoles (e.freshValues r s).value s.name roles).map (·.1)).contains
        ⟨role.name, k, rule.mode⟩ := by
  rw [Bool.eq_iff_iff, List.contains_iff_mem, List.contains_iff_mem, mem_matchedRoles_iff,
    mem_matchedRoles_iff]
  refine exists_congr fun role' => and_congr_right fun hrole' => exists_congr fun k' =>
    exists_congr fun rule' => and_congr_right fun hrule' => and_congr_right fun hx => ?_
  -- under the name and the number there is no other rule
  obtain ⟨hname, rfl, -⟩ := MatchedRule.mk.inj hx
  obtain rfl := List.inj_on_of_nodup_map hnames hrole (hroles role' hrole') hname
  obtain rfl := Option.some.inj (hrule.symm.trans hrule')
  rw [freshValues_common e r s hcommon]

/-- Whatever action is asked for, a request about another instance is refused alike, or the rule
matches it alike. -/
theorem plainDecide_contains_common {e : Evaluator}
    (hnames : (e.policy.roles.map (·.name)).Nodup) {role : Role} (hrole : role ∈ e.policy.roles)
    {k : Nat} {rule : Rule} {r : AccessRequest}
    (hrule : ∀ s, e.policy.subject? r.subject = some s → (role.rulesFor s.name)[k]? = some rule)
    (hcommon : rule.condition.isSubject = false) (action : String) (resource : Json) :
    (e.plainDecide { r with resource } action).map (·.matched.contains ⟨role.name, k, rule.mode⟩) =
      (e.plainDecide r action).map (·.matched.contains ⟨role.name, k, rule.mode⟩) := by
  cases hs : e.requireSubject r.subject with
  | error err =>
    rw [plainDecide_eq_error hs, plainDecide_eq_error (r := { r with resource }) hs]
  | ok s =>
    simp only [plainDecide, plainMerge, hs, bind, Except.bind]
    cases requireAction s action with
    | error err => rfl
    | ok coord =>
      cases hroles : e.activeRoles r.roles with
      | error err => rfl
      | ok roles =>
        have hrule' := hrule s (requireSubject_eq_ok hs)
        exact congrArg Except.ok (contains_matchedRoles_common hnames hrole hrule' hcommon
          (mem_roles_of_activeRoles hroles) r resource)

end Evaluator

/-- What stands somewhere on the right is related to what stands there on the left. -/
theorem exists_left_of_forall₂ {α β : Type} {R : α → β → Prop} {as : List α} {bs : List β}
    (h : List.Forall₂ R as bs) {k : Nat} {b : β} (hb : bs[k]? = some b) :
    ∃ a, as[k]? = some a ∧ R a b := by
  induction h generalizing k with
  | nil => exact absurd hb (by simp)
  | cons hR _ ih =>
    cases k with
    | zero =>
      obtain rfl := Option.some.inj hb
      exact ⟨_, rfl, hR⟩
    | succ k => exact ih hb

namespace Model.Compiled

variable {m : Model} {sourceId : String} {p : Policy} {subjects : List EncodedSubject} {g : Graph}

/-- The condition of every rule can be read back as a tree. -/
theorem exists_spells_condition (h : Compiled m sourceId p subjects g) (hfits : m.Fits p)
    {s : PolicySubject} (hs : s ∈ p.subjects) {role : Role} (hrole : role ∈ p.roles) {k : Nat}
    {rule : Rule} (hrule : (role.rulesFor s.name)[k]? = some rule) :
    ∃ t, GraphView.Spells ⟨p.common, s.nodes⟩ rule.condition t ∧
      (rule.condition.isSubject = true ↔ t.HasSubjectRoot) := by
  obtain ⟨id, d, t, hid, rfl⟩ := h.exists_number hs
  have hview : g.Fits id := ⟨by rw [← h.common]; exact hfits.common, hfits.nodes _ hs⟩
  obtain ⟨i, hi⟩ := List.getElem?_of_mem hrole
  obtain ⟨decl, -, hcompiled⟩ := exists_left_of_forall₂ h.roles hi
  obtain ⟨q, -, hrendered⟩ := exists_left_of_forall₂ (hcompiled.rules hid) hrule
  obtain ⟨tree, hspells, -⟩ := hrendered.condition hview
  refine ⟨tree, ?_, ?_⟩
  · rw [h.common]
    exact hspells
  · rw [← hspells.mentionsSubject (h.wellPlaced.view id), Expression.mentionsSubject_iff]

end Model.Compiled

/-! ## Main statement -/

/-- Dependence on the subject is exact, and common values know nothing of an instance.  In every
graph that can be reached, a condition that is lowered is answered with a negative index exactly if
the subject root occurs in it.  Read from tables that were built, an index that is not negative has
one value for a user and an environment: through any instances of any subjects, which share the
common values, however they were read before, and from the common values alone.  In a compiled
policy the condition of every rule can be read back, its index is negative exactly if the subject
root occurs in it, and if not, the rule matches for all instances of the subject or for none. -/
theorem subject_dependence_exact :
    (∀ (cs : Concepts) (user : String) (environment : Option String) (before : List Graph.Call)
      (scope : Nat) (e : Expression) (i : NodeIndex) (g : Graph),
      Graph.lower scope e ((Graph.new cs user environment).run before) = (.ok i, g) →
      g.Fits scope → (i.isSubject = true ↔ e.HasSubjectRoot)) ∧
    (∀ (cs : Concepts) (user : String) (environment : Option String) (calls : List Graph.Call)
      (userData environmentData : Json) (i : NodeIndex), i.isSubject = false →
      let ts := ((Graph.new cs user environment).run calls).tables
      ∃ x, (CommonValues.read i
          (.new (.ofTable cs ts.common) userData environmentData)).map (·.1) = some x ∧
        ∀ (n : Nat) (instances : Fin n → NodeTable × Json), (∀ k, (instances k).1 ∈ ts.subjects) →
          ∀ reads : List (Access n), ∃ answers final,
            SharedValues.readAll reads (ts.values cs userData environmentData instances) =
              some (answers, final) ∧
            answers.length = reads.length ∧
            ∀ (k : Nat) (a : Access n), reads[k]? = some a → a.index = i →
              answers[k]? = some x) ∧
    ∀ (m : Model) (sourceId : String) (p : Policy), m.compile sourceId = .ok p → m.Fits p →
      ∀ s ∈ p.subjects, ∀ role ∈ p.roles, ∀ (k : Nat) (rule : Rule),
        (role.rulesFor s.name)[k]? = some rule →
        ∃ t, GraphView.Spells ⟨p.common, s.nodes⟩ rule.condition t ∧
          (rule.condition.isSubject = true ↔ t.HasSubjectRoot) ∧
          (¬ t.HasSubjectRoot → ∀ (settings : Settings) (r : AccessRequest), r.subject = s.name →
            ∀ (action : String) (resource : Json) (capacity capacity' : Nat) (c c' : ValueCache),
              Cache.new capacity = .ok c → Cache.new capacity' = .ok c' →
              (Evaluator.decide ⟨p, settings⟩ { r with resource } action c').1.map
                  (·.matched.contains ⟨role.name, k, rule.mode⟩) =
                (Evaluator.decide ⟨p, settings⟩ r action c).1.map
                  (·.matched.contains ⟨role.name, k, rule.mode⟩)) := by
  refine ⟨?_, ?_, ?_⟩
  · intro cs user environment before scope e i g hlower hfits
    exact Graph.isSubject_of_lower (Graph.wellPlaced_run cs user environment before) hlower hfits
  · intro cs user environment calls userData environmentData i hi
    exact GraphTables.exists_common_value (Graph.wellPlaced_run cs user environment calls).verify cs
      userData environmentData hi
  · intro m sourceId p hcompile hfits s hs role hrole k rule hrule
    obtain ⟨subjects, g, h⟩ := Model.compile_eq_ok hcompile
    obtain ⟨t, hspells, hsign⟩ := h.exists_spells_condition hfits hs hrole hrule
    refine ⟨t, hspells, hsign, fun hroot settings r hsubject action resource capacity capacity' c c' hc
      hc' => ?_⟩
    have hcommon : rule.condition.isSubject = false := by
      rwa [← hsign, Bool.not_eq_true] at hroot
    have hrule' : ∀ s', p.subject? r.subject = some s' → (role.rulesFor s'.name)[k]? = some rule := by
      intro s' hs'
      have hfound := List.find?_some hs'
      rwa [of_decide_eq_true hfound, hsubject]
    rw [Evaluator.decide_new (e := ⟨p, settings⟩) h.ordered hc,
      Evaluator.decide_new (e := ⟨p, settings⟩) h.ordered hc']
    exact Evaluator.plainDecide_contains_common (e := ⟨p, settings⟩) h.policyRoleNames hrole hrule'
      hcommon action resource

/-- Whether a door is open depends on the door, and whether its visitor is an administrator does not:
that is read alike through both doors, and so a rule that asks for it matches at both. -/
theorem subject_dependence_exact_doors :
    let open? := Expression.subject.get "open"
    let admin := Expression.user.get "admin"
    let m : Model := {
      user := "Person"
      concepts := [{ name := "Person", members := [("admin", .boolean)] },
        { name := "Door", members := [("open", .boolean)] }]
      subjects := [⟨"Door", "Door", [⟨"enter", none⟩]⟩]
      roles := [⟨"guest", [⟨"Door", [.whenever admin [.allowEverything]]⟩]⟩] }
    let cs : Concepts := ⟨⟨["Person", "Door"], [⟨0, 1⟩, ⟨2, 3⟩]⟩, m.concepts⟩
    let start := Graph.new cs "Person" none
    let calls : List Graph.Call := [.addSubject "Door", .lower 0 open?, .lower 0 admin]
    let ts := (start.run calls).tables
    let person : Json := .obj [("admin", .bool true)]
    let door (b : Bool) : Json := .obj [("open", .bool b)]
    let r : AccessRequest :=
      { user := person, roles := ["guest"], subject := "Door", resource := door true }
    (∃ g, Graph.lower 0 open? (start.run [.addSubject "Door"]) = (.ok (.subject 1), g)) ∧
      open?.HasSubjectRoot ∧
      (∃ x answers final, SharedValues.readAll
        [⟨some 0, .common 4⟩, ⟨some 1, .subject 1⟩, ⟨some 1, .common 4⟩, ⟨none, .common 4⟩]
        (ts.values cs person .null fun k : Fin 2 => (ts.subjects[0]!, door (k == 0))) =
          some (answers, final) ∧
        answers[0]? = some x ∧ answers[2]? = some x ∧ answers[3]? = some x) ∧
      ∃ p, m.compile "doors" = .ok p ∧
        (Evaluator.decide ⟨p, {}⟩ { r with resource := door false } "enter"
          ⟨128, [], 0, 0, 0⟩).1.map (·.matched.contains ⟨"guest", 0, .allow⟩) =
        (Evaluator.decide ⟨p, {}⟩ r "enter" ⟨128, [], 0, 0, 0⟩).1.map
          (·.matched.contains ⟨"guest", 0, .allow⟩) := by
  intro open? admin m cs start calls ts person door r
  obtain ⟨hsign, hshared, hrules⟩ := subject_dependence_exact
  have hlower : Graph.lower 0 open? (start.run [.addSubject "Door"]) =
      (.ok (.subject 1), (Graph.lower 0 open? (start.run [.addSubject "Door"])).2) :=
    Steps.eq_ok_of_toOption (by decide +kernel)
  refine ⟨⟨_, hlower⟩, ?_, ?_, ?_⟩
  · exact (hsign cs "Person" none [.addSubject "Door"] 0 open? (.subject 1) _ hlower
      ⟨by decide +kernel, by decide +kernel⟩).mp (by decide)
  · obtain ⟨x, -, hreads⟩ := hshared cs "Person" none calls person .null (.common 4) (by decide)
    obtain ⟨answers, final, hrun, -, hanswers⟩ := hreads 2
      (fun k => (ts.subjects[0]!, door (k == 0))) (fun _ => List.mem_of_getElem? (i := 0) rfl)
      [⟨some 0, .common 4⟩, ⟨some 1, .subject 1⟩, ⟨some 1, .common 4⟩, ⟨none, .common 4⟩]
    exact ⟨x, answers, final, hrun, hanswers 0 _ rfl rfl, hanswers 2 _ rfl rfl, hanswers 3 _ rfl rfl⟩
  · obtain ⟨p, hcompile, hp⟩ := Steps.exists_eq_ok_of_any (x := m.compile "doors")
      (q := fun p => (p.common.length ≤ 2 ^ 31 ∧ ∀ s ∈ p.subjects, s.nodes.length ≤ 2 ^ 31) ∧
        (∃ s ∈ p.subjects, s.name = "Door") ∧ ∃ role ∈ p.roles, role.name = "guest" ∧
          role.rulesFor "Door" = [⟨[0], .common 4, .allow, .ofIndices 1 [0]⟩])
      (by decide +kernel)
    obtain ⟨⟨hcommon, hnodes⟩, ⟨s, hs, hname⟩, role, hrole, hguest, hrule⟩ := of_decide_eq_true hp
    have hrule' : (role.rulesFor s.name)[0]? = some ⟨[0], .common 4, .allow, .ofIndices 1 [0]⟩ := by
      rw [hname, hrule]
      rfl
    obtain ⟨t, -, hsign, hmatch⟩ := hrules m "doors" p hcompile
      ⟨by decide, by decide, hcommon, hnodes⟩ s hs role hrole 0 _ hrule'
    have hroot : ¬ t.HasSubjectRoot := fun ht => absurd (hsign.mpr ht) (by decide)
    have hdecide := hmatch hroot {} r hname.symm "enter" (door false) 128 128 _ _ rfl rfl
    rw [hguest] at hdecide
    exact ⟨p, hcompile, hdecide⟩

end AccessPolicy
