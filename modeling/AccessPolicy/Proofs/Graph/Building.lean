import AccessPolicy.Proofs.Graph.Placement
import AccessPolicy.Proofs.Steps

/-!
# Building — what every step does to a graph

Steps only append: what an index stood for before a step, it stands for afterwards.  A node is
stored only after its operands were found, so a graph that starts well placed stays so, whatever
the steps are given and whether they succeed.
-/

namespace AccessPolicy

/-! ## Extension -/

namespace GraphView

theorem getElem?_of_prefix {t u : NodeTable} (h : t <+: u) {p : Nat} {n : TypedNode}
    (hn : t[p]? = some n) : u[p]? = some n := by
  obtain ⟨rest, rfl⟩ := h
  rw [List.getElem?_append_left (List.getElem?_eq_some_iff.mp hn).1, hn]

/-- The second view shows all that the first one does. -/
structure Extends (v w : GraphView) : Prop where
  common : v.common <+: w.common
  own : v.own <+: w.own

theorem Extends.nodeAt? {v w : GraphView} (h : v.Extends w) {i : NodeIndex} {n : TypedNode}
    (hn : v.nodeAt? i = some n) : w.nodeAt? i = some n := by
  unfold GraphView.nodeAt? at hn ⊢
  split at hn
  · exact getElem?_of_prefix h.common hn
  · exact getElem?_of_prefix h.own hn

end GraphView

namespace Graph

/-- The second graph is the first with more nodes and subjects. -/
structure Extends (g g' : Graph) : Prop where
  concepts : g'.concepts = g.concepts
  user : g'.user = g.user
  environment : g'.environment = g.environment
  common : g.common <+: g'.common
  subjects : ∀ {k : Nat} {s : SubjectTable}, g.subjects[k]? = some s →
    ∃ s', g'.subjects[k]? = some s' ∧ s'.concept = s.concept ∧ s.nodes <+: s'.nodes

theorem Extends.refl (g : Graph) : g.Extends g :=
  ⟨rfl, rfl, rfl, List.prefix_rfl, fun hs => ⟨_, hs, rfl, List.prefix_rfl⟩⟩

theorem Extends.trans {g g' g'' : Graph} (h : g.Extends g') (h' : g'.Extends g'') :
    g.Extends g'' where
  concepts := h'.concepts.trans h.concepts
  user := h'.user.trans h.user
  environment := h'.environment.trans h.environment
  common := h.common.trans h'.common
  subjects hs := by
    obtain ⟨s', hs', hc, hn⟩ := h.subjects hs
    obtain ⟨s'', hs'', hc', hn'⟩ := h'.subjects hs'
    exact ⟨s'', hs'', hc'.trans hc, hn.trans hn'⟩

theorem Extends.view {g g' : Graph} (h : g.Extends g') (scope : Nat) :
    (g.view scope).Extends (g'.view scope) where
  common := h.common
  own := by
    rw [Graph.view, Graph.view]
    cases hs : g.subjects[scope]? with
    | none => exact List.nil_prefix
    | some s =>
      obtain ⟨s', hs', -, hn⟩ := h.subjects hs
      simpa [hs'] using hn

theorem Extends.length_subjects {g g' : Graph} (h : g.Extends g') :
    g.subjects.length ≤ g'.subjects.length := by
  by_contra hlt
  obtain ⟨s', hs', -⟩ := h.subjects (List.getElem?_eq_getElem (Nat.lt_of_not_le hlt))
  exact absurd (List.getElem?_eq_some_iff.mp hs').1 (Nat.lt_irrefl _)

theorem extends_addSubject (g : Graph) (concept : String) : g.Extends (g.addSubject concept) where
  concepts := rfl
  user := rfl
  environment := rfl
  common := List.prefix_rfl
  subjects hs := by
    refine ⟨_, ?_, rfl, List.prefix_rfl⟩
    rw [addSubject, List.getElem?_append_left (List.getElem?_eq_some_iff.mp hs).1, hs]

/-! ## Sizes -/

/-- Indices do not wrap in the conditions of the subject: every slot that they can refer to has a
32-bit index of its own. -/
structure Fits (g : Graph) (scope : Nat) : Prop where
  common : g.common.length ≤ 2 ^ 31
  own : (g.view scope).own.length ≤ 2 ^ 31

theorem Fits.of_extends {g g' : Graph} {scope : Nat} (h : g.Extends g') (hf : g'.Fits scope) :
    g.Fits scope where
  common := Nat.le_trans h.common.length_le hf.common
  own := Nat.le_trans (h.view scope).own.length_le hf.own

/-! ## Well-placed graphs -/

/-- The literals come first, and every table is well placed. -/
structure WellPlaced (g : Graph) : Prop where
  literals : literals <+: g.common
  common : NodeTable.WellPlaced .common g.common.length g.common
  own : ∀ s ∈ g.subjects, NodeTable.WellPlaced .subject g.common.length s.nodes

theorem wellPlaced_literals : NodeTable.WellPlaced .common literals.length literals where
  index {p n} h := by
    match p with
    | 0 | 1 | 2 => cases h; rfl
    | p + 3 => simp [literals] at h
  operands {p n} h := by
    match p with
    | 0 | 1 | 2 => cases h; simp [Node.operands]
    | p + 3 => simp [literals] at h
  dependsOnSubject := by decide
  nodup := by decide

theorem wellPlaced_new (cs : Concepts) (user : String) (environment : Option String) :
    (new cs user environment).WellPlaced where
  literals := List.prefix_rfl
  common := wellPlaced_literals
  own _ hs := absurd hs List.not_mem_nil

theorem WellPlaced.addSubject {g : Graph} (h : g.WellPlaced) (concept : String) :
    (g.addSubject concept).WellPlaced where
  literals := h.literals
  common := h.common
  own s hs := by
    rw [Graph.addSubject, List.mem_append, List.mem_singleton] at hs
    rcases hs with hs | rfl
    · exact h.own s hs
    · exact NodeTable.wellPlaced_nil _ _

theorem WellPlaced.own_view {g : Graph} (h : g.WellPlaced) (scope : Nat) :
    NodeTable.WellPlaced .subject g.common.length (g.view scope).own := by
  unfold Graph.view
  cases hs : g.subjects[scope]? with
  | none => exact NodeTable.wellPlaced_nil _ _
  | some s => exact h.own s (List.mem_of_getElem? hs)

/-! ## Checked nodes -/

theorem exists_of_typeOf_eq_ok {g : Graph} {scope : Nat} {i : NodeIndex} {type : DataType}
    (h : g.typeOf scope i = .ok type) : ∃ n, g.nodeAt? scope i = some n := by
  unfold typeOf at h
  split at h
  · rename_i n hn
    exact ⟨n, hn⟩
  · exact absurd h (by simp)

/-- A node that type-checks has all its operands in the graph. -/
theorem exists_operand_of_nodeType_eq_ok {g : Graph} {scope : Nat} {n : Node} {type : DataType}
    (h : g.nodeType scope n = .ok type) : ∀ o ∈ n.operands, ∃ m, g.nodeAt? scope o = some m := by
  intro o ho
  -- the check of a node asks for the type of each operand in turn
  cases n with
  | null | boolean | number | string | root => simp [Node.operands] at ho
  | property receiver member =>
    obtain ⟨t, ht, -⟩ := Steps.check_bind_eq_ok.mp h
    obtain rfl : o = receiver := by simpa [Node.operands] using ho
    exact exists_of_typeOf_eq_ok ht
  | arrayItem receiver index =>
    obtain ⟨t, ht, h⟩ := Steps.check_bind_eq_ok.mp h
    obtain ⟨e, -, h⟩ := Steps.check_bind_eq_ok.mp h
    obtain ⟨t', ht', -⟩ := Steps.check_bind_eq_ok.mp h
    simp only [Node.operands, List.mem_cons, List.not_mem_nil, or_false] at ho
    rcases ho with rfl | rfl
    · exact exists_of_typeOf_eq_ok ht
    · exact exists_of_typeOf_eq_ok ht'
  | binary op left right =>
    obtain ⟨t, ht, h⟩ := Steps.check_bind_eq_ok.mp h
    obtain ⟨t', ht', -⟩ := Steps.check_bind_eq_ok.mp h
    simp only [Node.operands, List.mem_cons, List.not_mem_nil, or_false] at ho
    rcases ho with rfl | rfl
    · exact exists_of_typeOf_eq_ok ht
    · exact exists_of_typeOf_eq_ok ht'
  | unary op operand =>
    obtain ⟨t, ht, -⟩ := Steps.check_bind_eq_ok.mp h
    obtain rfl : o = operand := by simpa [Node.operands] using ho
    exact exists_of_typeOf_eq_ok ht
  | is concept operand =>
    obtain ⟨u, -, h⟩ := Steps.check_bind_eq_ok.mp h
    obtain ⟨t, ht, -⟩ := Steps.check_bind_eq_ok.mp h
    obtain rfl : o = operand := by simpa [Node.operands] using ho
    exact exists_of_typeOf_eq_ok ht

/-- Only conditions of a registered subject have nodes that depend on it. -/
theorem registered_of_nodeAt? {g : Graph} {scope : Nat} {i : NodeIndex} {n : TypedNode}
    (hi : i.isSubject = true) (hn : g.nodeAt? scope i = some n) :
    ∃ s, g.subjects[scope]? = some s := by
  cases hs : g.subjects[scope]? with
  | some s => exact ⟨s, rfl⟩
  | none =>
    rw [nodeAt?, GraphView.nodeAt?] at hn
    split at hn
    · rename_i hslot
      rw [NodeIndex.isSubject_of_slot_common hslot] at hi
      exact absurd hi (by decide)
    · simp [view, hs] at hn

/-- A node that type-checks and depends on the subject instance has a registered subject. -/
theorem registered_of_nodeType_eq_ok {g : Graph} {scope : Nat} {n : Node} {type : DataType}
    (h : g.nodeType scope n = .ok type) (hn : n.dependsOnSubject = true) :
    ∃ s, g.subjects[scope]? = some s := by
  rw [Node.dependsOnSubject, Bool.or_eq_true, beq_iff_eq, List.any_eq_true] at hn
  rcases hn with rfl | ⟨o, ho, hsub⟩
  · cases hs : g.subjects[scope]? with
    | some s => exact ⟨s, rfl⟩
    | none => simp [nodeType, rootType, hs] at h
  · obtain ⟨m, hm⟩ := exists_operand_of_nodeType_eq_ok h o ho
    exact registered_of_nodeAt? hsub hm

/-! ## Storing a node -/

theorem insert_common {g : Graph} {n : Node} (hn : n.dependsOnSubject = false) (scope : Nat)
    (type : DataType) : g.insert scope n type = ((g.common.place .common n type).1,
      { g with common := (g.common.place .common n type).2 }) := by
  rw [insert, if_neg (by simp [hn])]

theorem insert_own {g : Graph} {n : Node} {scope : Nat} {s : SubjectTable}
    (hn : n.dependsOnSubject = true) (hs : g.subjects[scope]? = some s) (type : DataType) :
    g.insert scope n type = ((s.nodes.place .subject n type).1,
      { g with subjects := g.subjects.set scope
                { s with nodes := (s.nodes.place .subject n type).2 } }) := by
  rw [insert, if_pos hn, hs]

theorem extends_insert (g : Graph) (scope : Nat) (n : Node) (type : DataType) :
    g.Extends (g.insert scope n type).2 := by
  by_cases hn : n.dependsOnSubject = true
  · cases hs : g.subjects[scope]? with
    | none =>
      -- without a table of its own the node goes to the common one
      rw [insert, if_pos hn, hs]
      exact ⟨rfl, rfl, rfl, NodeTable.prefix_place _ _ _ _, fun h => ⟨_, h, rfl, List.prefix_rfl⟩⟩
    | some s =>
      rw [insert_own hn hs]
      refine ⟨rfl, rfl, rfl, List.prefix_rfl, fun {k u} hu => ?_⟩
      by_cases hk : scope = k
      · subst hk
        obtain rfl : s = u := Option.some.inj (hs.symm.trans hu)
        refine ⟨{ s with nodes := (s.nodes.place .subject n type).2 }, ?_, rfl,
          NodeTable.prefix_place .subject n type s.nodes⟩
        exact List.getElem?_set_self (List.getElem?_eq_some_iff.mp hs).1
      · exact ⟨u, by rw [List.getElem?_set_ne hk, hu], rfl, List.prefix_rfl⟩
  · rw [insert_common (by simpa using hn)]
    exact ⟨rfl, rfl, rfl, NodeTable.prefix_place _ _ _ _, fun h => ⟨_, h, rfl, List.prefix_rfl⟩⟩

/-- An operand that was found may be referred to from the end of the table it is needed in. -/
theorem mayRefer_of_nodeAt? {g : Graph} {scope : Nat} {o : NodeIndex} {m : TypedNode}
    (hm : g.nodeAt? scope o = some m) :
    NodeTable.mayRefer .subject g.common.length (g.view scope).own.length o = true ∧
      (o.isSubject = false →
        NodeTable.mayRefer .common g.common.length g.common.length o = true) := by
  rw [nodeAt?, GraphView.nodeAt?] at hm
  split at hm
  · rename_i p hslot
    have hp : p < g.common.length := (List.getElem?_eq_some_iff.mp hm).1
    simp [NodeTable.mayRefer, hslot, hp]
  · rename_i p hslot
    have hp : p < (g.view scope).own.length := (List.getElem?_eq_some_iff.mp hm).1
    simp [NodeTable.mayRefer, hslot, hp, NodeIndex.isSubject_of_slot_subject hslot]

theorem WellPlaced.insert {g : Graph} (h : g.WellPlaced) {scope : Nat} {n : Node}
    {type : DataType} (ht : g.nodeType scope n = .ok type) :
    (g.insert scope n type).2.WellPlaced := by
  have hops := exists_operand_of_nodeType_eq_ok ht
  by_cases hn : n.dependsOnSubject = true
  · obtain ⟨s, hs⟩ := registered_of_nodeType_eq_ok ht hn
    have hown : (g.view scope).own = s.nodes := by simp [view, hs]
    rw [insert_own hn hs]
    refine ⟨h.literals, h.common, fun u hu => ?_⟩
    rcases List.mem_or_eq_of_mem_set hu with hu | rfl
    · exact h.own u hu
    · refine (h.own s (List.mem_of_getElem? hs)).place type (by simpa using hn) fun o ho => ?_
      obtain ⟨m, hm⟩ := hops o ho
      rw [← hown]
      exact (mayRefer_of_nodeAt? hm).1
  · have hn' : n.dependsOnSubject = false := by simpa using hn
    -- what was placed before the common table grew is as well placed in the longer one
    have hle := (NodeTable.prefix_place .common n type g.common).length_le
    rw [insert_common hn']
    refine ⟨h.literals.trans (NodeTable.prefix_place _ _ _ _), ?_,
      fun s hs => (h.own s hs).mono hle⟩
    refine (h.common.place type (by simpa using hn') fun o ho => ?_).mono hle
    obtain ⟨m, hm⟩ := hops o ho
    exact (mayRefer_of_nodeAt? hm).2 (Node.isSubject_operand hn' ho)

/-- The index of a stored node leads to it. -/
theorem WellPlaced.nodeAt?_insert {g : Graph} (h : g.WellPlaced) {scope : Nat} {n : Node}
    {type : DataType} (ht : g.nodeType scope n = .ok type)
    (hfits : (g.insert scope n type).2.Fits scope) :
    ∃ m, (g.insert scope n type).2.nodeAt? scope (g.insert scope n type).1 = some m ∧
      m.node = n := by
  by_cases hn : n.dependsOnSubject = true
  · obtain ⟨s, hs⟩ := registered_of_nodeType_eq_ok ht hn
    obtain ⟨p, m, hp, hm, hi⟩ := (h.own s (List.mem_of_getElem? hs)).place_index n type
    rw [insert_own hn hs] at hfits ⊢
    have hlen : scope < g.subjects.length := (List.getElem?_eq_some_iff.mp hs).1
    have hown := hfits.own
    rw [view, List.getElem?_set_self hlen] at hown
    -- the position is in the table after the step, so its index does not wrap
    have hp' : p < 2 ^ 31 := Nat.lt_of_lt_of_le (List.getElem?_eq_some_iff.mp hp).1 hown
    refine ⟨m, ?_, hm⟩
    simp only [nodeAt?, GraphView.nodeAt?, view, hi, TableKind.slot_indexAt hp', TableKind.slotAt]
    rw [List.getElem?_set_self hlen]
    exact hp
  · obtain ⟨p, m, hp, hm, hi⟩ := h.common.place_index n type
    rw [insert_common (by simpa using hn)] at hfits ⊢
    have hp' : p < 2 ^ 31 := Nat.lt_of_lt_of_le (List.getElem?_eq_some_iff.mp hp).1 hfits.common
    refine ⟨m, ?_, hm⟩
    simp only [nodeAt?, GraphView.nodeAt?, view, hi, TableKind.slot_indexAt hp', TableKind.slotAt]
    exact hp

/-! ## Steps -/

/-- Storing a checked node and registering a subject keep the property. -/
structure Stable (I : Graph → Prop) : Prop where
  insert : ∀ {g : Graph} {scope : Nat} {n : Node} {type : DataType}, I g →
    g.nodeType scope n = .ok type → I (g.insert scope n type).2
  addSubject : ∀ {g : Graph} (concept : String), I g → I (g.addSubject concept)

theorem stable_wellPlaced : Stable WellPlaced := ⟨fun h ht => h.insert ht, fun c h => h.addSubject c⟩

/-- The second graph extends the first and has all its stable properties. -/
structure Grows (g g' : Graph) : Prop where
  extend : g.Extends g'
  stable : ∀ I, Stable I → I g → I g'

theorem Grows.refl (g : Graph) : g.Grows g := ⟨.refl g, fun _ _ => id⟩

theorem Grows.trans {g g' g'' : Graph} (h : g.Grows g') (h' : g'.Grows g'') : g.Grows g'' :=
  ⟨h.extend.trans h'.extend, fun I hI hg => h'.stable I hI (h.stable I hI hg)⟩

/-- Whatever it answers, the step only makes the graph grow. -/
def Keeps {α : Type} (m : GraphM α) : Prop := ∀ g : Graph, g.Grows (m g).2

theorem Keeps.extends {α : Type} {m : GraphM α} (h : Keeps m) {g g' : Graph}
    {r : Except PolicyError α} (hrun : m g = (r, g')) : g.Extends g' := by
  have hg := (h g).1
  rwa [hrun] at hg

theorem Keeps.stable {α : Type} {m : GraphM α} (h : Keeps m) {g g' : Graph}
    {r : Except PolicyError α} (hrun : m g = (r, g')) {I : Graph → Prop} (hI : Stable I)
    (hg : I g) : I g' := by
  have hg' := (h g).2 I hI hg
  rwa [hrun] at hg'

theorem Keeps.wellPlaced {α : Type} {m : GraphM α} (h : Keeps m) {g g' : Graph}
    {r : Except PolicyError α} (hrun : m g = (r, g')) (hg : g.WellPlaced) : g'.WellPlaced :=
  h.stable hrun stable_wellPlaced hg

theorem Keeps.pure {α : Type} (a : α) : Keeps (pure a) := fun g => .refl g

theorem Keeps.bind {α β : Type} {m : GraphM α} {f : α → GraphM β} (hm : Keeps m)
    (hf : ∀ a, Keeps (f a)) : Keeps (m >>= f) := by
  intro g
  have hg := hm g
  rw [Steps.bind_run]
  split
  · rename_i a g' he
    rw [he] at hg
    exact hg.trans (hf a g')
  · rename_i e g' he
    rw [he] at hg
    exact hg

/-- What a step leads to is extended by what comes after it. -/
theorem Keeps.extends_bind {α β : Type} {f : α → GraphM β} (hf : ∀ a, Keeps (f a))
    (m : GraphM α) (g : Graph) : (m g).2.Extends ((m >>= f) g).2 := by
  rcases Steps.bind_cases m f g with ⟨e, g₁, hm, hrun⟩ | ⟨a, g₁, hm, hrun⟩
  · rw [hm, hrun]
    exact .refl g₁
  · rw [hm, hrun]
    exact (hf a g₁).1

theorem keeps_add (scope : Nat) (n : Node) : Keeps (add scope n) := by
  intro g
  unfold add
  split
  · exact .refl g
  · rename_i type ht
    exact ⟨g.extends_insert scope n type, fun _ hI h => hI.insert h ht⟩

theorem snd_checkType (scope : Nat) (declared? : Option DataType) (i : NodeIndex) (g : Graph) :
    (checkType scope declared? i g).2 = g := by
  rw [checkType.eq_def]
  split
  · rfl
  · split
    · rfl
    · split <;> rfl

theorem keeps_checkType (scope : Nat) (declared? : Option DataType) (i : NodeIndex) :
    Keeps (checkType scope declared? i) := by
  intro g
  rw [snd_checkType]
  exact .refl g

theorem keeps_conjoin (scope : Nat) (left right : NodeIndex) :
    Keeps (conjoin scope left right) := by
  unfold conjoin
  split
  · exact .pure right
  · split
    · exact .pure left
    · exact keeps_add _ _

theorem keeps_lower (scope : Nat) (e : Expression) : Keeps (lower scope e) := by
  induction e with
  | null => exact keeps_checkType _ _ _
  | boolean => exact keeps_checkType _ _ _
  | number | string | root => exact (keeps_add _ _).bind fun _ => keeps_checkType _ _ _
  | property _ _ _ ih | unary _ _ _ ih | is _ _ _ ih =>
    exact ih.bind fun _ => (keeps_add _ _).bind fun _ => keeps_checkType _ _ _
  | arrayIndex _ _ _ ih ih' | binary _ _ _ _ ih ih' =>
    exact ih.bind fun _ => ih'.bind fun _ => (keeps_add _ _).bind fun _ => keeps_checkType _ _ _

/-! ## Runs -/

/-- Something that a graph is asked to do; it may fail, and only its effect counts here. -/
inductive Call where
  | addSubject (concept : String)
  | add (scope : Nat) (node : Node)
  | conjoin (scope : Nat) (left right : NodeIndex)
  | lower (scope : Nat) (e : Expression)
deriving Repr

def after (g : Graph) : Call → Graph
  | .addSubject concept => g.addSubject concept
  | .add scope n => (add scope n g).2
  | .conjoin scope left right => (conjoin scope left right g).2
  | .lower scope e => (lower scope e g).2

def run (g : Graph) (calls : List Call) : Graph := calls.foldl after g

theorem run_append (g : Graph) (calls more : List Call) :
    g.run (calls ++ more) = (g.run calls).run more := List.foldl_append

theorem grows_after (g : Graph) (c : Call) : g.Grows (g.after c) := by
  cases c with
  | addSubject concept =>
    exact ⟨extends_addSubject g concept, fun _ hI h => hI.addSubject concept h⟩
  | add scope n => exact keeps_add scope n g
  | conjoin scope left right => exact keeps_conjoin scope left right g
  | lower scope e => exact keeps_lower scope e g

theorem grows_run (g : Graph) (calls : List Call) : g.Grows (g.run calls) := by
  induction calls generalizing g with
  | nil => exact .refl g
  | cons c rest ih => exact (g.grows_after c).trans (ih (g.after c))

theorem run_keeps (g : Graph) (calls : List Call) :
    g.Extends (g.run calls) ∧ (g.WellPlaced → (g.run calls).WellPlaced) :=
  ⟨(g.grows_run calls).extend, (g.grows_run calls).stable _ stable_wellPlaced⟩

/-- Whatever it is asked, a graph that starts with the literals alone is well placed. -/
theorem wellPlaced_run (cs : Concepts) (user : String) (environment : Option String)
    (calls : List Call) : ((new cs user environment).run calls).WellPlaced :=
  (run_keeps _ calls).2 (wellPlaced_new cs user environment)

end Graph

end AccessPolicy
