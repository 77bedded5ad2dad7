import AccessPolicy.Proofs.Graph.HashedTable
import AccessPolicy.Proofs.Graph.Sharing

/-!
# Hashed graphs — sharing decided by hashes

A graph that stores its nodes in hashed tables takes the same steps as one that searches its tables,
gives the same answers and ends with the same nodes, for every hash.  So its sharing is exact: equal
conditions are never stored twice, and different ones are never mixed up, also when all hashes
collide.
-/

namespace AccessPolicy

/-- The nodes that depend on the instances of one subject. -/
structure HashedSubject where
  concept : String
  table : HashedTable := {}

/-- A growing condition graph whose nodes are found by their hashes. -/
structure HashedGraph where
  concepts : Concepts
  user : String
  environment : Option String
  common : HashedTable
  subjects : List HashedSubject

/-- Steps that extend a hashed graph; what was stored before a failure stays. -/
abbrev HashedGraphM := ExceptT PolicyError (StateM HashedGraph)

/-- The subject without its buckets. -/
def HashedSubject.plain (s : HashedSubject) : SubjectTable := ⟨s.concept, s.table.nodes⟩

namespace HashedGraph

/-- The graph without its buckets: all that type checks and messages look at. -/
def plain (g : HashedGraph) : Graph :=
  ⟨g.concepts, g.user, g.environment, g.common.nodes, g.subjects.map (·.plain)⟩

/-- A graph with one more subject, which has no nodes yet. -/
def addSubject (g : HashedGraph) (concept : String) : HashedGraph :=
  { g with subjects := g.subjects ++ [{ concept }] }

section

variable (hash : Hasher)

/-- The literals are placed one after another in an empty table. -/
def seeded : HashedTable :=
  Graph.literals.foldl (fun t n => (t.place hash .common n.node n.type).2) {}

def new (concepts : Concepts) (user : String) (environment : Option String) : HashedGraph :=
  ⟨concepts, user, environment, seeded hash, []⟩

/-- Store a node of known type where it belongs.  A node of a subject that is not registered goes to
the common table, though under an index of the other kind. -/
def insert (g : HashedGraph) (scope : Nat) (n : Node) (type : DataType) : NodeIndex × HashedGraph :=
  if n.dependsOnSubject then
    match g.subjects[scope]? with
    | some s =>
      let (index, table) := s.table.place hash .subject n type
      (index, { g with subjects := g.subjects.set scope { s with table } })
    | none =>
      let (index, common) := g.common.place hash .subject n type
      (index, { g with common })
  else
    let (index, common) := g.common.place hash .common n type
    (index, { g with common })

/-- Type-check a node and store it. -/
def add (scope : Nat) (n : Node) : HashedGraphM NodeIndex := fun g =>
  match g.plain.nodeType scope n with
  | .error e => (.error e, g)
  | .ok type =>
    let (index, g) := g.insert hash scope n type
    (.ok index, g)

/-- The conjunction of two conditions; the literal `true` on either side is dropped. -/
def conjoin (scope : Nat) (left right : NodeIndex) : HashedGraphM NodeIndex :=
  if left = .trueLiteral then pure right
  else if right = .trueLiteral then pure left
  else add hash scope (.binary .and left right)

/-- Refuse an annotation that differs from the type of the stored node; nothing is stored for it. -/
def checkType (scope : Nat) (declared? : Option DataType) (index : NodeIndex) :
    HashedGraphM NodeIndex := fun g => ((Graph.checkType scope declared? index g.plain).1, g)

/-- Store a condition, operands first, and check its annotations on the way. -/
def lower (scope : Nat) : Expression → HashedGraphM NodeIndex
  | .null t => checkType scope t .nullLiteral
  | .boolean b t => checkType scope t (if b then .trueLiteral else .falseLiteral)
  | .number x t => do checkType scope t (← add hash scope (.number x))
  | .string s t => do checkType scope t (← add hash scope (.string s))
  | .root r t => do checkType scope t (← add hash scope (.root r))
  | .property receiver member t => do
    let receiver ← lower scope receiver
    checkType scope t (← add hash scope (.property receiver member))
  | .arrayIndex receiver index t => do
    let receiver ← lower scope receiver
    let index ← lower scope index
    checkType scope t (← add hash scope (.arrayItem receiver index))
  | .binary op left right t => do
    let left ← lower scope left
    let right ← lower scope right
    checkType scope t (← add hash scope (.binary op left right))
  | .unary op operand t => do
    let operand ← lower scope operand
    checkType scope t (← add hash scope (.unary op operand))
  | .is operand concept t => do
    let operand ← lower scope operand
    checkType scope t (← add hash scope (.is concept operand))

def after (g : HashedGraph) : Graph.Call → HashedGraph
  | .addSubject concept => g.addSubject concept
  | .add scope n => (add hash scope n g).2
  | .conjoin scope left right => (conjoin hash scope left right g).2
  | .lower scope e => (lower hash scope e g).2

def run (g : HashedGraph) (calls : List Graph.Call) : HashedGraph := calls.foldl (after hash) g

/-! ## Steps of both graphs -/

/-- All buckets are right. -/
structure Bucketed (g : HashedGraph) : Prop where
  common : g.common.Bucketed hash
  subjects : ∀ s ∈ g.subjects, s.table.Bucketed hash

/-- Where the buckets are right, the step does without them what it does with them, and leaves them
right. -/
def Simulates {α : Type} (m : HashedGraphM α) (m' : GraphM α) : Prop :=
  ∀ g : HashedGraph, g.Bucketed hash →
    m' g.plain = ((m g).1, (m g).2.plain) ∧ (m g).2.Bucketed hash

end

variable {hash : Hasher} {g : HashedGraph}

section

variable {α : Type} {m : HashedGraphM α} {m' : GraphM α}

theorem Simulates.fst (hm : Simulates hash m m') (h : g.Bucketed hash) :
    (m g).1 = (m' g.plain).1 := by
  rw [(hm g h).1]

theorem Simulates.plain_snd (hm : Simulates hash m m') (h : g.Bucketed hash) :
    (m g).2.plain = (m' g.plain).2 := by
  rw [(hm g h).1]

end

theorem simulates_pure {α : Type} (a : α) : Simulates hash (pure a) (pure a) :=
  fun _ hg => ⟨rfl, hg⟩

theorem Simulates.bind {α β : Type} {m : HashedGraphM α} {m' : GraphM α}
    {f : α → HashedGraphM β} {f' : α → GraphM β} (hm : Simulates hash m m')
    (hf : ∀ a, Simulates hash (f a) (f' a)) : Simulates hash (m >>= f) (m' >>= f') := by
  intro g hg
  obtain ⟨hrun, hg'⟩ := hm g hg
  rw [Steps.bind_run, Steps.bind_run, hrun]
  -- both first steps give the same answer, so both second steps run or none does
  cases hr : (m g).1 with
  | error e =>
    rw [show m g = (.error e, (m g).2) from Prod.ext hr rfl]
    exact ⟨rfl, hg'⟩
  | ok a =>
    rw [show m g = (.ok a, (m g).2) from Prod.ext hr rfl]
    exact hf a _ hg'

theorem plain_seeded (hash : Hasher) :
    (seeded hash).nodes = Graph.literals ∧ (seeded hash).Bucketed hash :=
  (HashedTable.bucketed_empty hash).foldl_place .common Graph.literals

theorem plain_new (hash : Hasher) (cs : Concepts) (user : String) (environment : Option String) :
    (new hash cs user environment).plain = Graph.new cs user environment ∧
      (new hash cs user environment).Bucketed hash := by
  obtain ⟨hnodes, hbuckets⟩ := plain_seeded hash
  refine ⟨?_, hbuckets, fun _ hs => absurd hs List.not_mem_nil⟩
  unfold new plain Graph.new
  rw [hnodes]
  rfl

theorem plain_addSubject (g : HashedGraph) (concept : String) :
    (g.addSubject concept).plain = g.plain.addSubject concept := by
  unfold addSubject plain Graph.addSubject
  rw [List.map_append]
  rfl

theorem Bucketed.addSubject (h : g.Bucketed hash) (concept : String) :
    (g.addSubject concept).Bucketed hash where
  common := h.common
  subjects s hs := by
    rcases List.mem_append.mp hs with hs | hs
    · exact h.subjects s hs
    · rw [List.mem_singleton.mp hs]
      exact HashedTable.bucketed_empty hash

theorem plain_subjects (g : HashedGraph) (scope : Nat) :
    g.plain.subjects[scope]? = g.subjects[scope]?.map (·.plain) := List.getElem?_map

theorem length_plain (g : HashedGraph) : g.plain.subjects.length = g.subjects.length :=
  List.length_map _

/-- Storing a node by its hash does to the nodes what storing it by a search does. -/
theorem Bucketed.insert (h : g.Bucketed hash) (scope : Nat) (n : Node) (type : DataType) :
    g.plain.insert scope n type =
        ((g.insert hash scope n type).1, (g.insert hash scope n type).2.plain) ∧
      (g.insert hash scope n type).2.Bucketed hash := by
  have hcommon (kind : TableKind) := h.common.place kind n type
  unfold HashedGraph.insert Graph.insert
  by_cases hn : n.dependsOnSubject = true
  · rw [if_pos hn, if_pos hn, plain_subjects]
    cases hs : g.subjects[scope]? with
    | none =>
      -- without a table of its own the node goes to the common one
      obtain ⟨hplace, hbuckets⟩ := hcommon .subject
      rw [Option.map_none, show g.plain.common.place .subject n type = _ from hplace]
      exact ⟨rfl, hbuckets, h.subjects⟩
    | some s =>
      obtain ⟨hplace, hbuckets⟩ :=
        (h.subjects s (List.mem_of_getElem? hs)).place .subject n type
      dsimp only [Option.map_some, HashedSubject.plain]
      rw [hplace]
      refine ⟨?_, h.common, fun u hu => ?_⟩
      · -- the subject's entry is the only one that changes
        unfold plain
        rw [List.map_set]
        rfl
      · rcases List.mem_or_eq_of_mem_set hu with hu | rfl
        · exact h.subjects u hu
        · exact hbuckets
  · obtain ⟨hplace, hbuckets⟩ := hcommon .common
    rw [if_neg hn, if_neg hn, show g.plain.common.place .common n type = _ from hplace]
    exact ⟨rfl, hbuckets, h.subjects⟩

theorem simulates_add (hash : Hasher) (scope : Nat) (n : Node) :
    Simulates hash (add hash scope n) (Graph.add scope n) := by
  intro g hg
  unfold add Graph.add
  cases ht : g.plain.nodeType scope n with
  | error e => exact ⟨rfl, hg⟩
  | ok type =>
    obtain ⟨hinsert, hg'⟩ := hg.insert scope n type
    dsimp only
    rw [hinsert]
    exact ⟨rfl, hg'⟩

theorem simulates_conjoin (hash : Hasher) (scope : Nat) (left right : NodeIndex) :
    Simulates hash (conjoin hash scope left right) (Graph.conjoin scope left right) := by
  unfold conjoin Graph.conjoin
  by_cases hl : left = .trueLiteral
  · rw [if_pos hl, if_pos hl]
    exact simulates_pure right
  · rw [if_neg hl, if_neg hl]
    by_cases hr : right = .trueLiteral
    · rw [if_pos hr, if_pos hr]
      exact simulates_pure left
    · rw [if_neg hr, if_neg hr]
      exact simulates_add _ _ _

theorem simulates_checkType (hash : Hasher) (scope : Nat) (declared? : Option DataType)
    (i : NodeIndex) :
    Simulates hash (checkType scope declared? i) (Graph.checkType scope declared? i) := by
  intro g hg
  exact ⟨Prod.ext rfl (Graph.snd_checkType scope declared? i g.plain), hg⟩

theorem simulates_lower (hash : Hasher) (scope : Nat) (e : Expression) :
    Simulates hash (lower hash scope e) (Graph.lower scope e) := by
  -- in every case the node itself is stored and checked after its operands
  have hnode (n : Node) (t : Option DataType) :
      Simulates hash (add hash scope n >>= checkType scope t)
        (Graph.add scope n >>= Graph.checkType scope t) :=
    (simulates_add hash scope n).bind (simulates_checkType hash scope t)
  induction e with
  | null | boolean => exact simulates_checkType _ _ _ _
  | number | string | root => exact hnode _ _
  | property _ _ _ ih | unary _ _ _ ih | is _ _ _ ih => exact ih.bind fun _ => hnode _ _
  | arrayIndex _ _ _ ih ih' | binary _ _ _ _ ih ih' =>
    exact ih.bind fun _ => ih'.bind fun _ => hnode _ _

theorem Bucketed.after (h : g.Bucketed hash) (c : Graph.Call) :
    (g.after hash c).plain = g.plain.after c ∧ (g.after hash c).Bucketed hash := by
  have hsnd {m : HashedGraphM NodeIndex} {m' : GraphM NodeIndex} (hm : Simulates hash m m') :
      (m g).2.plain = (m' g.plain).2 ∧ (m g).2.Bucketed hash := ⟨hm.plain_snd h, (hm g h).2⟩
  cases c with
  | addSubject concept => exact ⟨plain_addSubject g concept, h.addSubject concept⟩
  | add scope n => exact hsnd (simulates_add hash scope n)
  | conjoin scope left right => exact hsnd (simulates_conjoin hash scope left right)
  | lower scope e => exact hsnd (simulates_lower hash scope e)

theorem Bucketed.run (h : g.Bucketed hash) (calls : List Graph.Call) :
    (g.run hash calls).plain = g.plain.run calls ∧ (g.run hash calls).Bucketed hash := by
  induction calls generalizing g with
  | nil => exact ⟨rfl, h⟩
  | cons c rest ih =>
    obtain ⟨hafter, hg⟩ := h.after c
    show ((g.after hash c).run hash rest).plain = (g.plain.after c).run rest ∧ _
    rw [← hafter]
    exact ih hg

/-- Whatever it is asked, a graph that finds its nodes by their hashes ends with the nodes that a
graph ends with that searches its tables, and with the right buckets. -/
theorem plain_run (hash : Hasher) (cs : Concepts) (user : String) (environment : Option String)
    (calls : List Graph.Call) :
    ((new hash cs user environment).run hash calls).plain =
        (Graph.new cs user environment).run calls ∧
      ((new hash cs user environment).run hash calls).Bucketed hash := by
  obtain ⟨hnew, hbuckets⟩ := plain_new hash cs user environment
  rw [← hnew]
  exact hbuckets.run calls

/-! ## Graphs grown by lowering -/

/-- The hashed graphs that registering subjects and lowering conditions leads to. -/
inductive Built (hash : Hasher) (cs : Concepts) (user : String) (environment : Option String) :
    List Graph.Lowering → HashedGraph → Prop
  | new : Built hash cs user environment [] (HashedGraph.new hash cs user environment)
  | addSubject {lowered : List Graph.Lowering} {g : HashedGraph} (concept : String) :
    Built hash cs user environment lowered g →
    Built hash cs user environment lowered (g.addSubject concept)
  | lower {lowered : List Graph.Lowering} {g g' : HashedGraph} {scope : Nat} {e : Expression}
    {i : NodeIndex} : Built hash cs user environment lowered g → scope < g.subjects.length →
    HashedGraph.lower hash scope e g = (.ok i, g') →
    Built hash cs user environment (⟨scope, e, i⟩ :: lowered) g'

variable {cs : Concepts} {user : String} {environment : Option String}
  {lowered : List Graph.Lowering}

/-- The graph without its buckets was grown by the same lowerings, and the buckets are right. -/
theorem Built.plain (h : Built hash cs user environment lowered g) :
    Graph.Built cs user environment lowered g.plain ∧ g.Bucketed hash := by
  induction h with
  | new =>
    obtain ⟨hnew, hbuckets⟩ := plain_new hash cs user environment
    rw [hnew]
    exact ⟨.new, hbuckets⟩
  | addSubject concept _ ih =>
    obtain ⟨hplain, hbuckets⟩ := ih
    rw [plain_addSubject]
    exact ⟨.addSubject concept hplain, hbuckets.addSubject concept⟩
  | @lower _ g g' scope e i _ hscope hlower ih =>
    obtain ⟨hplain, hbuckets⟩ := ih
    obtain ⟨hrun, hbuckets'⟩ := simulates_lower hash scope e g hbuckets
    rw [hlower] at hrun hbuckets'
    refine ⟨.lower hplain ?_ hrun, hbuckets'⟩
    rwa [length_plain]

/-- Whatever the hash is, in a graph grown by lowering conditions share an index exactly when they
are one tree, the index reads back as that tree, and the tables hold what was lowered and nothing
else, each tree once. -/
theorem Built.sharing_exact (h : Built hash cs user environment lowered g)
    (hfits : ∀ scope, g.plain.Fits scope) :
    (∀ l ∈ lowered, ∀ l' ∈ lowered,
      (l.scope = l'.scope ∨
        l.condition.mentionsSubject = false ∧ l'.condition.mentionsSubject = false) →
      (l.index = l'.index ↔ l.condition.erase = l'.condition.erase)) ∧
    (∀ l ∈ lowered, ∀ t, (g.plain.view l.scope).Spells l.index t ↔ t = l.condition.erase) ∧
    (∃ trees, GraphView.Lists ⟨g.common.nodes, []⟩ g.common.nodes (Graph.seeds ++ trees) ∧
      (Graph.seeds ++ trees).Nodup ∧ ∀ t, t ∈ trees ↔
        t ∉ Graph.seeds ∧ t.mentionsSubject = false ∧
          ∃ l ∈ lowered, t ∈ l.condition.erase.parts) ∧
    ∀ k s, g.subjects[k]? = some s → ∃ trees,
      (g.plain.view k).Lists s.table.nodes trees ∧ trees.Nodup ∧ ∀ t, t ∈ trees ↔
        t.mentionsSubject = true ∧ ∃ l ∈ lowered, l.scope = k ∧ t ∈ l.condition.erase.parts := by
  have hplain := h.plain.1
  refine ⟨?_, ?_, hplain.lists_common hfits, ?_⟩
  · intro l hl l' hl' hscope
    exact hplain.index_eq_iff hfits hl hl' hscope
  · intro l hl t
    exact hplain.spells_iff hfits hl
  · intro k s hs
    have hs' : g.plain.subjects[k]? = some s.plain := by rw [plain_subjects, hs, Option.map_some]
    exact hplain.lists_own hfits hs'

/-- The age of a person, once as it is and once with its type, is stored once, though all hashes are
the same. -/
theorem sharing_exact_age :
    let cs : Concepts :=
      ⟨⟨["Person"], [⟨0, 1⟩]⟩, [{ name := "Person", members := [("age", .number)] }]⟩
    let hash : Hasher := fun _ => 0
    let age := Expression.subject.get "age"
    let start := (new hash cs "Person" none).addSubject "Person"
    let g := (lower hash 0 (age.typed .number) (lower hash 0 age start).2).2
    (g.plain.view 0).Spells (.subject 1) age ∧ ∃ s, g.subjects[0]? = some s ∧
      ∃ trees, (g.plain.view 0).Lists s.table.nodes trees ∧ trees.Nodup ∧ trees.length = 2 := by
  intro cs hash age start g
  -- the same steps without buckets can be computed
  let first := Graph.lower 0 age ((Graph.new cs "Person" none).addSubject "Person")
  let second := Graph.lower 0 (age.typed .number) first.2
  obtain ⟨hnew, hbuckets⟩ := plain_new hash cs "Person" none
  have hstart : start.plain = (Graph.new cs "Person" none).addSubject "Person" := by
    rw [plain_addSubject, hnew]
  have hfirst := simulates_lower hash 0 age
  have hsecond := simulates_lower hash 0 (age.typed .number)
  have hbuckets₀ : start.Bucketed hash := hbuckets.addSubject "Person"
  have hbuckets₁ := (hfirst start hbuckets₀).2
  have hplain₁ : (lower hash 0 age start).2.plain = first.2 := by
    rw [hfirst.plain_snd hbuckets₀, hstart]
  have hplain : g.plain = second.2 := by
    rw [hsecond.plain_snd hbuckets₁, hplain₁]
  have hscope : 0 < (lower hash 0 age start).2.subjects.length := by
    rw [← length_plain, hplain₁]
    decide +kernel
  have hbuilt : Built hash cs "Person" none
      [⟨0, age.typed .number, .subject 1⟩, ⟨0, age, .subject 1⟩] g := by
    refine .lower (.lower (.addSubject "Person" .new) Nat.zero_lt_one
      (Steps.eq_ok_of_toOption ?_)) hscope (Steps.eq_ok_of_toOption ?_)
    · rw [hfirst.fst hbuckets₀, hstart]
      decide +kernel
    · rw [hsecond.fst hbuckets₁, hplain₁]
      decide +kernel
  have hfits : ∀ scope, g.plain.Fits scope := by
    rw [hplain]
    rintro (_ | scope)
    · exact ⟨by decide +kernel, by decide +kernel⟩
    · exact ⟨by decide +kernel, Nat.zero_le _⟩
  obtain ⟨-, hspells, -, hown⟩ := hbuilt.sharing_exact hfits
  have hlength : g.plain.subjects[0]?.map (·.nodes.length) = some 2 := by
    rw [hplain]
    decide +kernel
  rw [plain_subjects, Option.map_map] at hlength
  obtain ⟨s, hs, hnodes⟩ := Option.map_eq_some_iff.mp hlength
  obtain ⟨trees, hlists, hnd, -⟩ := hown 0 s hs
  exact ⟨(hspells ⟨0, age, .subject 1⟩ (by simp) age).mpr rfl, s, hs, trees, hlists, hnd,
    hlists.length_eq.symm.trans hnodes⟩

end HashedGraph

end AccessPolicy
