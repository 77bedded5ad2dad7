import AccessPolicy.Proofs.Graph.Types

/-!
# Appending — what steps change, and what they find again

A step for a subject appends to the common table and to the table of the subject, and to nothing
else; a step that stores one node and fails changes nothing.  What has succeeded once finds its nodes
again in every longer graph, so it is answered with the same index and appends nothing.
-/

namespace AccessPolicy

namespace NodeTable

/-- Placing a node appends it, unless it is there. -/
theorem exists_place_eq_append (kind : TableKind) (n : Node) (type : DataType) (t : NodeTable) :
    ∃ nodes, (t.place kind n type).2 = t ++ nodes ∧ nodes.length ≤ 1 := by
  rcases place_cases kind n type t with ⟨_, -, -, h⟩ | ⟨-, h⟩
  · exact ⟨[], by rw [h, List.append_nil], Nat.zero_le 1⟩
  · exact ⟨[_], by rw [h], Nat.le_refl 1⟩

/-- The node that was placed is the first of its kind in the table. -/
theorem find?_place (kind : TableKind) (n : Node) (type : DataType) (t : NodeTable) :
    ∃ found, (t.place kind n type).2.find? (·.node = n) = some found ∧
      found.index = (t.place kind n type).1 := by
  unfold place
  cases hfind : t.find? (·.node = n) with
  | some found => exact ⟨found, hfind, rfl⟩
  | none =>
    refine ⟨⟨kind.indexAt t.length, n, type⟩, ?_, rfl⟩
    simp only [List.find?_append, hfind, List.find?_singleton, decide_true, if_true, Option.none_or]

/-- A node that was placed is found in every longer table. -/
theorem place_again {kind : TableKind} {n : Node} {type type' : DataType} {t u : NodeTable}
    (h : (t.place kind n type).2 <+: u) : u.place kind n type' = ((t.place kind n type).1, u) := by
  obtain ⟨found, hfind, hindex⟩ := find?_place kind n type t
  obtain ⟨rest, rfl⟩ := h
  rw [place, List.find?_append, hfind, ← hindex]
  rfl

end NodeTable

namespace Graph

variable {g g' g'' : Graph} {scope : Nat} {i j : NodeIndex} {n : Node} {type : DataType}

/-! ## Appended nodes -/

/-- The graph with more nodes at the end of the common table and of the subject's own. -/
def appended (g : Graph) (scope : Nat) (common own : NodeTable) : Graph :=
  { g with
    common := g.common ++ common
    subjects := g.subjects.modify scope fun s => { s with nodes := s.nodes ++ own } }

theorem appended_common (g : Graph) (scope : Nat) (nodes : NodeTable) :
    g.appended scope nodes [] = { g with common := g.common ++ nodes } := by
  have hsame : (fun s : SubjectTable => { s with nodes := s.nodes ++ [] }) = id := by
    funext s
    rw [List.append_nil]
    rfl
  rw [appended, hsame, List.modify_id]

theorem appended_own {s : SubjectTable} (hs : g.subjects[scope]? = some s) (nodes : NodeTable) :
    g.appended scope [] nodes =
      { g with subjects := g.subjects.set scope { s with nodes := s.nodes ++ nodes } } := by
  rw [appended, List.append_nil, List.modify_eq_set_getElem?, hs]
  rfl

theorem appended_nil (g : Graph) (scope : Nat) : g.appended scope [] [] = g := by
  rw [appended_common, List.append_nil]

theorem appended_appended (g : Graph) (scope : Nat) (common common' own own' : NodeTable) :
    (g.appended scope common own).appended scope common' own' =
      g.appended scope (common ++ common') (own ++ own') := by
  simp only [appended, List.append_assoc, List.modify_modify_eq]
  congr 2
  funext s
  simp only [Function.comp_apply, List.append_assoc]

/-- Storing a node appends it to one of the two tables, unless it is there. -/
theorem insert_eq_appended (g : Graph) (scope : Nat) (n : Node) (type : DataType) :
    ∃ common own, (g.insert scope n type).2 = g.appended scope common own ∧
      common.length + own.length ≤ 1 := by
  have hcommon (kind : TableKind) : ∃ common own,
      { g with common := (g.common.place kind n type).2 } = g.appended scope common own ∧
        common.length + own.length ≤ 1 := by
    obtain ⟨nodes, hplace, hlength⟩ := NodeTable.exists_place_eq_append kind n type g.common
    exact ⟨nodes, [], by rw [hplace, appended_common], hlength⟩
  unfold insert
  split
  · cases hs : g.subjects[scope]? with
    | none => exact hcommon .subject
    | some s =>
      obtain ⟨nodes, hplace, hlength⟩ := NodeTable.exists_place_eq_append .subject n type s.nodes
      refine ⟨[], nodes, ?_, by rwa [List.length_nil, Nat.zero_add]⟩
      rw [appended_own hs, ← hplace]
  · exact hcommon .common

/-- A step that stores a single node: it fails and changes nothing, or it appends at most one node. -/
def AppendsOne (scope : Nat) {α : Type} (m : GraphM α) : Prop := ∀ g : Graph,
  (∃ err, m g = (.error err, g)) ∨ ∃ a common own,
    m g = (.ok a, g.appended scope common own) ∧ common.length + own.length ≤ 1

theorem appendsOne_pure {α : Type} (a : α) : AppendsOne scope (pure a) :=
  fun g => .inr ⟨a, [], [], by rw [appended_nil]; rfl, Nat.zero_le 1⟩

theorem appendsOne_add (scope : Nat) (n : Node) : AppendsOne scope (add scope n) := by
  intro g
  unfold add
  split
  · exact .inl ⟨_, rfl⟩
  · obtain ⟨common, own, hinsert, hlength⟩ := g.insert_eq_appended scope n ‹_›
    exact .inr ⟨_, common, own, by rw [← hinsert], hlength⟩

theorem appendsOne_conjoin (scope : Nat) (left right : NodeIndex) :
    AppendsOne scope (conjoin scope left right) := by
  unfold conjoin
  split
  · exact appendsOne_pure right
  · split
    · exact appendsOne_pure left
    · exact appendsOne_add _ _

/-- Whatever it answers, the step only appends to the common table and to the subject's own. -/
def Appends (scope : Nat) {α : Type} (m : GraphM α) : Prop :=
  ∀ g : Graph, ∃ common own, (m g).2 = g.appended scope common own

theorem AppendsOne.appends {α : Type} {m : GraphM α} (h : AppendsOne scope m) :
    Appends scope m := by
  intro g
  rcases h g with ⟨err, hrun⟩ | ⟨a, common, own, hrun, -⟩
  · exact ⟨[], [], by rw [hrun, appended_nil]⟩
  · exact ⟨common, own, by rw [hrun]⟩

theorem Appends.bind {α β : Type} {m : GraphM α} {f : α → GraphM β} (hm : Appends scope m)
    (hf : ∀ a, Appends scope (f a)) : Appends scope (m >>= f) := by
  intro g
  obtain ⟨common, own, hg⟩ := hm g
  -- a failed first step may have appended as well; the second one goes on after its nodes
  rcases Steps.bind_cases m f g with ⟨err, g₁, hrun, hbind⟩ | ⟨a, g₁, hrun, hbind⟩ <;>
    rw [hrun] at hg <;> obtain rfl : g₁ = g.appended scope common own := hg
  · exact ⟨common, own, by rw [hbind]⟩
  · obtain ⟨common', own', hg'⟩ := hf a (g.appended scope common own)
    exact ⟨common ++ common', own ++ own', by rw [hbind, hg', appended_appended]⟩

theorem appends_checkType (scope : Nat) (declared? : Option DataType) (i : NodeIndex) :
    Appends scope (checkType scope declared? i) := by
  intro g
  refine ⟨[], [], ?_⟩
  rw [snd_checkType, appended_nil]

theorem appends_lower (scope : Nat) (e : Expression) : Appends scope (lower scope e) := by
  have hadd (n : Node) := (appendsOne_add scope n).appends
  induction e with
  | null | boolean => exact appends_checkType _ _ _
  | number | string | root => exact (hadd _).bind fun _ => appends_checkType _ _ _
  | property _ _ _ ih | unary _ _ _ ih | is _ _ _ ih =>
    exact ih.bind fun _ => (hadd _).bind fun _ => appends_checkType _ _ _
  | arrayIndex _ _ _ ih ih' | binary _ _ _ _ ih ih' =>
    exact ih.bind fun _ => ih'.bind fun _ => (hadd _).bind fun _ => appends_checkType _ _ _

/-! ## Steps taken again -/

/-- Only a fault is reported in the words of the graph. -/
theorem report_again {α : Type} {x : Except TypeFault α} {a : α} (h : g.report scope n x = .ok a) :
    g'.report scope n x = .ok a := by
  cases x with
  | error => exact nomatch h
  | ok => exact h

theorem Extends.typeOf (h : g.Extends g') (ht : g.typeOf scope i = .ok type) :
    g'.typeOf scope i = .ok type := by
  obtain ⟨m, hm, htype⟩ := typeOf_eq_ok_iff.mp ht
  exact typeOf_eq_ok_iff.mpr ⟨m, (h.view scope).nodeAt? hm, htype⟩

theorem Extends.rootType (h : g.Extends g') {r : Root} (ht : g.rootType scope r = .ok type) :
    g'.rootType scope r = .ok type := by
  cases r with
  | user => rwa [Graph.rootType, h.user]
  | environment => rwa [Graph.rootType, h.environment]
  | subject =>
    unfold Graph.rootType at ht ⊢
    simp only at ht ⊢
    split at ht
    · rename_i s hs
      obtain ⟨s', hs', hconcept, -⟩ := h.subjects hs
      rw [hs', ← ht, ← hconcept]
    · cases ht

/-- A node that type-checks has the same type in every longer graph. -/
theorem Extends.nodeType (h : g.Extends g') (ht : g.nodeType scope n = .ok type) :
    g'.nodeType scope n = .ok type := by
  cases n with
  | null | boolean | number | string => exact ht
  | root r => exact h.rootType ht
  | property receiver member =>
    refine Steps.check_bind_imp (fun _ => h.typeOf) (fun t hmember => ?_) ht
    rw [h.concepts]
    exact report_again hmember
  | arrayItem receiver index =>
    refine Steps.check_bind_imp (fun _ => h.typeOf) (fun t => ?_) ht
    refine Steps.check_bind_imp (fun _ => report_again) fun element => ?_
    refine Steps.check_bind_imp (fun _ => h.typeOf) fun t' => ?_
    exact Steps.check_bind_imp (fun _ => report_again) fun _ => id
  | binary op left right =>
    refine Steps.check_bind_imp (fun _ => h.typeOf) (fun t => ?_) ht
    exact Steps.check_bind_imp (fun _ => h.typeOf) fun t' => report_again
  | unary op operand =>
    exact Steps.check_bind_imp (fun _ => h.typeOf) (fun t => report_again) ht
  | is concept operand =>
    refine Steps.check_bind_imp (fun _ hconcept => ?_) (fun _ => ?_) ht
    · rw [h.concepts]
      exact report_again hconcept
    · refine Steps.check_bind_imp (fun _ => h.typeOf) fun t => ?_
      exact Steps.check_bind_imp (fun _ => report_again) fun _ => id

/-- What was stored is found in every longer graph. -/
theorem insert_again (ht : g.nodeType scope n = .ok type)
    (h : (g.insert scope n type).2.Extends g') (type' : DataType) :
    g'.insert scope n type' = ((g.insert scope n type).1, g') := by
  by_cases hn : n.dependsOnSubject = true
  · -- a node about the subject only type-checks where the subject is registered
    obtain ⟨s, hs⟩ := registered_of_nodeType_eq_ok ht hn
    rw [insert_own hn hs] at h ⊢
    obtain ⟨s', hs', hconcept, hnodes⟩ := h.subjects
      (List.getElem?_set_self (List.getElem?_eq_some_iff.mp hs).1)
    rw [insert_own hn hs', NodeTable.place_again hnodes]
    obtain ⟨hlt, hget⟩ := List.getElem?_eq_some_iff.mp hs'
    rw [← hget, List.set_getElem_self]
  · rw [Bool.not_eq_true] at hn
    rw [insert_common hn] at h ⊢
    rw [insert_common hn, NodeTable.place_again h.common]

/-- What the step has answered once it answers again in every longer graph, and changes nothing. -/
def Repeats {α : Type} (m : GraphM α) : Prop := ∀ (g g' g'' : Graph) (a : α),
  m g = (.ok a, g') → g'.Extends g'' → m g'' = (.ok a, g'')

theorem Repeats.pure {α : Type} (a : α) : Repeats (pure a : GraphM α) := by
  intro g g' g'' b h _
  rw [← Except.ok.inj (Prod.mk.inj h).1]
  rfl

theorem Repeats.bind {α β : Type} {m : GraphM α} {f : α → GraphM β} (hm : Repeats m)
    (hf : ∀ a, Repeats (f a)) (hkeeps : ∀ a, Keeps (f a)) : Repeats (m >>= f) := by
  intro g g' g'' b h hext
  obtain ⟨a, g₁, hrun, hrest⟩ := Steps.bind_eq_ok.mp h
  -- the graph after the first step is shorter than the one after both
  have hext₁ := ((hkeeps a).extends hrest).trans hext
  exact Steps.bind_eq_ok.mpr ⟨a, g'', hm g g₁ g'' a hrun hext₁, hf a g₁ g' g'' b hrest hext⟩

theorem repeats_add (scope : Nat) (n : Node) : Repeats (add scope n) := by
  intro g g' g'' i h hext
  obtain ⟨type, ht, hinsert⟩ := add_eq_ok h
  have hlonger := g.extends_insert scope n type
  rw [hinsert] at hlonger
  rw [add, (hlonger.trans hext).nodeType ht]
  simp only
  rw [insert_again ht (by rwa [hinsert]), hinsert]

theorem repeats_conjoin (scope : Nat) (left right : NodeIndex) :
    Repeats (conjoin scope left right) := by
  unfold conjoin
  split
  · exact .pure right
  · split
    · exact .pure left
    · exact repeats_add _ _

theorem repeats_checkType (scope : Nat) (declared? : Option DataType) (i : NodeIndex) :
    Repeats (checkType scope declared? i) := by
  intro g g' g'' j h hext
  obtain ⟨rfl, rfl⟩ := checkType_eq_ok h
  cases declared? with
  | none => rfl
  | some annotated =>
    -- the check succeeded, so the index has the annotated type, and keeps it
    simp only [checkType] at h ⊢
    split at h
    · exact nomatch (Prod.mk.inj h).1
    · rename_i derived hderived
      split at h
      · rw [hext.typeOf hderived]
        simp only
        rw [if_pos ‹_›]
      · exact nomatch (Prod.mk.inj h).1

theorem repeats_lower (scope : Nat) (e : Expression) : Repeats (lower scope e) := by
  have hnode (n : Node) (declared? : Option DataType) :
      Repeats (add scope n >>= checkType scope declared?) :=
    (repeats_add _ _).bind (fun _ => repeats_checkType _ _ _) fun _ => keeps_checkType _ _ _
  have hkeeps (n : Node) (declared? : Option DataType) :
      Keeps (add scope n >>= checkType scope declared?) :=
    (keeps_add _ _).bind fun _ => keeps_checkType _ _ _
  induction e with
  | null | boolean => exact repeats_checkType _ _ _
  | number | string | root => exact hnode _ _
  | property _ _ _ ih | unary _ _ _ ih | is _ _ _ ih =>
    exact ih.bind (fun _ => hnode _ _) fun _ => hkeeps _ _
  | arrayIndex e e' _ ih ih' | binary _ e e' _ ih ih' =>
    exact ih.bind (fun _ => ih'.bind (fun _ => hnode _ _) fun _ => hkeeps _ _)
      fun _ => (keeps_lower scope e').bind fun _ => hkeeps _ _

/-! ## Answered indices -/

theorem nodeAt?_run {m : TypedNode} (h : g.nodeAt? scope i = some m) (more : List Call) :
    (g.run more).nodeAt? scope i = some m :=
  ((grows_run g more).extend.view scope).nodeAt? h

theorem exists_nodeAt?_add (hg : g.WellPlaced) (h : add scope n g = (.ok i, g'))
    (hfits : g'.Fits scope) : ∃ m, g'.nodeAt? scope i = some m := by
  obtain ⟨type, ht, hinsert⟩ := add_eq_ok h
  obtain ⟨m, hm, -⟩ := hg.nodeAt?_insert ht (by rwa [hinsert])
  rw [hinsert] at hm
  exact ⟨m, hm⟩

/-- A conjunction leads to a node, unless it is an operand that does not. -/
theorem exists_nodeAt?_conjoin (hg : g.WellPlaced) {left right : NodeIndex}
    (h : conjoin scope left right g = (.ok i, g')) (hfits : g'.Fits scope)
    (hright : left = .trueLiteral → ∃ m, g.nodeAt? scope right = some m)
    (hleft : right = .trueLiteral → ∃ m, g.nodeAt? scope left = some m) :
    ∃ m, g'.nodeAt? scope i = some m := by
  unfold conjoin at h
  split at h
  · obtain ⟨hi, rfl⟩ := Prod.mk.inj h
    rw [← Except.ok.inj hi]
    exact hright ‹_›
  · split at h
    · obtain ⟨hi, rfl⟩ := Prod.mk.inj h
      rw [← Except.ok.inj hi]
      exact hleft ‹_›
    · exact exists_nodeAt?_add hg h hfits

/-- The graph only grows at the ends of its tables.  A step that stores one node fails and changes
nothing, or it appends at most one node to one of two tables, the common one and the subject's own;
lowering appends to these two tables alone, whether it succeeds or fails.  What succeeded once and is
tried again answers the same index and changes nothing, whatever happens in between.  What an index
leads to it leads to ever after.  An answered index leads to a node, as long as indices do not wrap,
except for an operand that a conjunction hands back without a look because the other one is the
literal `true`. -/
theorem steps_only_append (cs : Concepts) (user : String) (environment : Option String)
    (calls : List Call) (scope : Nat) :
    let g := (new cs user environment).run calls
    (∀ m : GraphM NodeIndex,
      (∃ n, m = add scope n) ∨ (∃ left right, m = conjoin scope left right) →
      (∃ err, m g = (.error err, g)) ∨ ∃ i common own,
        m g = (.ok i, g.appended scope common own) ∧ common.length + own.length ≤ 1) ∧
    (∀ e, ∃ common own, (lower scope e g).2 = g.appended scope common own) ∧
    (∀ m : GraphM NodeIndex,
      (∃ n, m = add scope n) ∨ (∃ left right, m = conjoin scope left right) ∨
        (∃ e, m = lower scope e) →
      ∀ i g', m g = (.ok i, g') → ∀ more, m (g'.run more) = (.ok i, g'.run more)) ∧
    (∀ i n, g.nodeAt? scope i = some n → ∀ more, (g.run more).nodeAt? scope i = some n) ∧
    ∀ i g', g'.Fits scope →
      ((∃ n, add scope n g = (.ok i, g')) ∨ (∃ e, lower scope e g = (.ok i, g')) ∨
        ∃ left right, conjoin scope left right g = (.ok i, g') ∧
          (left = .trueLiteral → ∃ n, g.nodeAt? scope right = some n) ∧
          (right = .trueLiteral → ∃ n, g.nodeAt? scope left = some n)) →
      ∃ n, ∀ more, (g'.run more).nodeAt? scope i = some n := by
  intro g
  have hg : g.WellPlaced := wellPlaced_run cs user environment calls
  refine ⟨fun m hm => ?_, fun e => appends_lower scope e g, fun m hm i g' h more => ?_,
    fun i n hn => nodeAt?_run hn, fun i g' hfits h => ?_⟩
  · rcases hm with ⟨n, rfl⟩ | ⟨left, right, rfl⟩
    · exact appendsOne_add scope n g
    · exact appendsOne_conjoin scope left right g
  · have hrepeats : Repeats m := by
      rcases hm with ⟨n, rfl⟩ | ⟨left, right, rfl⟩ | ⟨e, rfl⟩
      · exact repeats_add scope n
      · exact repeats_conjoin scope left right
      · exact repeats_lower scope e
    exact hrepeats g g' (g'.run more) i h (grows_run g' more).extend
  · -- an answer leads to a node at once, and later calls only extend its table
    have hnode : ∃ n, g'.nodeAt? scope i = some n := by
      rcases h with ⟨n, h⟩ | ⟨e, h⟩ | ⟨left, right, h, hright, hleft⟩
      · exact exists_nodeAt?_add hg h hfits
      · exact (lower_spells hg h hfits).nodeAt?
      · exact exists_nodeAt?_conjoin hg h hfits hright hleft
    obtain ⟨n, hn⟩ := hnode
    exact ⟨n, nodeAt?_run hn⟩

/-- The user of a graph with one subject is stored once, and both the first index and the one of its
member stay. -/
theorem steps_only_append_user :
    let cs : Concepts := ⟨⟨["U"], [⟨0, 1⟩]⟩, [{ name := "U", members := [("age", .number)] }]⟩
    let age : Expression := .property (.root .user none) "age" none
    let g := (new cs "U" none).run [.addSubject "U"]
    ∃ g', lower 0 age g = (.ok (.common 4), g') ∧
      (∀ more, lower 0 age (g'.run more) = (.ok (.common 4), g'.run more)) ∧
      ∃ n, ∀ more, (g'.run more).nodeAt? 0 (.common 4) = some n := by
  intro cs age g
  obtain ⟨-, -, hagain, -, hresolves⟩ := steps_only_append cs "U" none [.addSubject "U"] 0
  have hlower : lower 0 age g = (.ok (.common 4), (lower 0 age g).2) :=
    Steps.eq_ok_of_toOption (by decide)
  have hfits : (lower 0 age g).2.Fits 0 := ⟨by decide, by decide⟩
  exact ⟨_, hlower, hagain _ (.inr (.inr ⟨age, rfl⟩)) _ _ hlower,
    hresolves _ _ hfits (.inr (.inl ⟨age, hlower⟩))⟩

/-! ### Indices that lead nowhere -/

/-- The numbers with the first `k` bit patterns, as they follow the literals. -/
def numberNodes (k : Nat) : NodeTable :=
  (List.range k).map fun j => ⟨.common (3 + j), .number ⟨UInt64.ofNat j⟩, .number⟩

theorem numberNodes_succ (k : Nat) : numberNodes (k + 1) =
    numberNodes k ++ [⟨.common (3 + k), .number ⟨UInt64.ofNat k⟩, .number⟩] := by
  rw [numberNodes, List.range_succ, List.map_append]
  rfl

theorem length_numberNodes (k : Nat) : (numberNodes k).length = k := by
  rw [numberNodes, List.length_map, List.length_range]

/-- A graph without subjects that holds the numbers. -/
def numbered (cs : Concepts) (user : String) (k : Nat) : Graph :=
  ⟨cs, user, none, literals ++ numberNodes k, []⟩

/-- A number with the next bit pattern is not there yet. -/
theorem add_number (cs : Concepts) (user : String) {k : Nat} (hk : k < 2 ^ 64) :
    add 0 (.number ⟨UInt64.ofNat k⟩) (numbered cs user k) =
      (.ok (.common (3 + k)), numbered cs user (k + 1)) := by
  have hnew : Node.number ⟨UInt64.ofNat k⟩ ∉ (literals ++ numberNodes k).map (·.node) := by
    rw [List.map_append, List.mem_append, not_or]
    refine ⟨by simp [literals], fun hmem => ?_⟩
    obtain ⟨n, hn, hnode⟩ := List.mem_map.mp hmem
    obtain ⟨j, hj, rfl⟩ := List.mem_map.mp hn
    rw [List.mem_range] at hj
    have hbits : UInt64.ofNat j = UInt64.ofNat k := congrArg Binary64.bits (Node.number.inj hnode)
    have hjk := congrArg UInt64.toNat hbits
    rw [UInt64.toNat_ofNat_of_lt' (Nat.lt_trans hj hk), UInt64.toNat_ofNat_of_lt' hk] at hjk
    exact Nat.ne_of_lt hj hjk
  have hrun : add 0 (.number ⟨UInt64.ofNat k⟩) (numbered cs user k) =
      (.ok ((numbered cs user k).insert 0 (.number ⟨UInt64.ofNat k⟩) .number).1,
        ((numbered cs user k).insert 0 (.number ⟨UInt64.ofNat k⟩) .number).2) := rfl
  rw [hrun, insert_common rfl]
  rcases NodeTable.place_cases .common (.number ⟨UInt64.ofNat k⟩) .number (numbered cs user k).common
    with ⟨found, hfound, hnode, -⟩ | ⟨-, hplace⟩
  · exact absurd (hnode ▸ List.mem_map_of_mem hfound) hnew
  · have hlength : (numbered cs user k).common.length = 3 + k := by
      rw [numbered, List.length_append, length_numberNodes]
      rfl
    rw [hplace, hlength]
    simp only [numbered, numberNodes_succ, TableKind.indexAt, List.append_assoc]

def storeNumbers (k : Nat) : List Call := (numberNodes k).map fun n => .add 0 n.node

theorem run_storeNumbers (cs : Concepts) (user : String) {k : Nat} (hk : k ≤ 2 ^ 64) :
    (new cs user none).run (storeNumbers k) = numbered cs user k := by
  induction k with
  | zero => rfl
  | succ k ih =>
    have hcalls : storeNumbers (k + 1) = storeNumbers k ++ [.add 0 (.number ⟨UInt64.ofNat k⟩)] := by
      rw [storeNumbers, numberNodes_succ, List.map_append]
      rfl
    rw [hcalls, run_append, ih (Nat.le_of_succ_le hk)]
    exact congrArg Prod.snd (add_number cs user hk)

/-- Not every answered index leads to a node at once and ever after.  The conjunction of the literal
`true` with an index that leads nowhere is that index, which later leads to whatever is stored there;
and the index after the last one of 32 bits wraps, so it is looked up among the nodes of a subject. -/
theorem answers_lead_nowhere :
    let g := new ⟨⟨["U"], [⟨0, 1⟩]⟩, [{ name := "U" }]⟩ "U" none
    let two : Node := .number ⟨0x4000000000000000⟩
    (conjoin 0 .trueLiteral (.common 3) g = (.ok (.common 3), g) ∧
      g.nodeAt? 0 (.common 3) = none ∧
      (g.run [.add 0 two]).nodeAt? 0 (.common 3) = some ⟨.common 3, two, .number⟩) ∧
    ∃ calls n i g', add 0 n (g.run calls) = (.ok i, g') ∧ g'.nodeAt? 0 i = none := by
  intro g two
  refine ⟨⟨rfl, by decide, by decide⟩, storeNumbers (2 ^ 31 - 3), .number ⟨UInt64.ofNat (2 ^ 31 - 3)⟩,
    .common (3 + (2 ^ 31 - 3)), numbered g.concepts "U" (2 ^ 31 - 3 + 1), ?_, ?_⟩
  · have hrun : g.run (storeNumbers (2 ^ 31 - 3)) = numbered g.concepts "U" (2 ^ 31 - 3) :=
      run_storeNumbers g.concepts "U" (by decide)
    rw [hrun, add_number g.concepts "U" (by decide)]
  · -- the index has wrapped, so it is read as one of a subject's table
    have hslot : (NodeIndex.common (3 + (2 ^ 31 - 3))).slot = .subject (2 ^ 31 - 1) := by decide
    rw [nodeAt?, GraphView.nodeAt?, hslot]
    rfl

end Graph

end AccessPolicy
