import AccessPolicy.Proofs.Hierarchy.Loops

/-!
# Faults — why a list of nodes is refused

Faults are looked for in a fixed order: a name that is declared twice, a parent that is not
declared, a cycle.  Each report is about the first node that shows the fault, and a reported cycle
is one that the parent links of that node run into.
-/

namespace AccessPolicy.HierarchyNode

variable {nodes : List HierarchyNode}

/-- The parent declared for `a` is `b`. -/
def ParentOf (nodes : List HierarchyNode) (a b : String) : Prop :=
  ∃ n ∈ nodes, n.id = a ∧ n.parent = some b

/-- The name is a root or lies below one. -/
def UnderRoot (nodes : List HierarchyNode) (a : String) : Prop :=
  ∃ r ∈ nodes, r.parent = none ∧ Reaches nodes a r.id

/-- The report that a list of nodes deserves. -/
inductive IsFault (nodes : List HierarchyNode) : HierarchyError → Prop where
  /-- The first node with a name that occurs before it. -/
  | duplicate {before after : List HierarchyNode} {n : HierarchyNode} :
    nodes = before ++ n :: after → (ids before).Nodup → n.id ∈ ids before →
    IsFault nodes (.duplicateNode n.id)
  /-- Without repetitions, the first node with a parent that does not occur. -/
  | orphan {before after : List HierarchyNode} {n : HierarchyNode} {p : String} :
    (ids nodes).Nodup →
    nodes = before ++ n :: after → (∀ m ∈ before, ∀ q, m.parent = some q → q ∈ ids nodes) →
    n.parent = some p → p ∉ ids nodes →
    IsFault nodes (.unknownParent n.id p)
  /-- With all parents declared, the cycle above the first node that no root lies above.  From the
  node, parents lead over `lead` to `x`, which is the first name to be met again. -/
  | cycle {before after : List HierarchyNode} {n : HierarchyNode} {lead xs : List String}
    {x : String} :
    (ids nodes).Nodup → (∀ m ∈ nodes, ∀ q, m.parent = some q → q ∈ ids nodes) →
    nodes = before ++ n :: after → (∀ m ∈ before, UnderRoot nodes m.id) →
    ¬ UnderRoot nodes n.id →
    (lead ++ x :: xs).head? = some n.id → (lead ++ x :: xs).Nodup →
    (lead ++ x :: xs ++ [x]).IsChain (ParentOf nodes) →
    IsFault nodes (.circular (x :: xs ++ [x]))

/-! ## Repeated names and missing parents -/

theorem repeated?_eq_some {seen : List String} {a : String} (h : repeated? seen nodes = some a) :
    ∃ before n after, nodes = before ++ n :: after ∧ n.id = a ∧ (ids before).Nodup ∧
      (∀ b ∈ ids before, b ∉ seen) ∧ (a ∈ ids before ∨ a ∈ seen) := by
  induction nodes generalizing seen with
  | nil => cases h
  | cons m rest ih =>
    rw [repeated?] at h
    by_cases hm : m.id ∈ seen
    · rw [if_pos hm] at h
      obtain rfl := Option.some.inj h
      exact ⟨[], m, rest, rfl, rfl, List.nodup_nil, by simp [ids], .inr hm⟩
    · rw [if_neg hm] at h
      obtain ⟨before, n, after, rfl, hn, hnd, hnew, hold⟩ := ih h
      simp only [List.mem_cons, not_or] at hnew hold
      refine ⟨m :: before, n, after, rfl, hn, ?_, ?_, ?_⟩
      · exact List.nodup_cons.mpr ⟨fun hmem => (hnew _ hmem).1 rfl, hnd⟩
      · exact List.forall_mem_cons.mpr ⟨hm, fun b hb => (hnew b hb).2⟩
      · -- the name that `m` adds to the ones seen is its own
        rcases hold with hold | rfl | hold
        · exact .inl (List.mem_cons_of_mem _ hold)
        · exact .inl List.mem_cons_self
        · exact .inr hold

theorem orphan?_eq_some {a p : String} (h : orphan? nodes = some (a, p)) :
    ∃ before n after, nodes = before ++ n :: after ∧ n.id = a ∧ n.parent = some p ∧
      p ∉ ids nodes ∧ ∀ m ∈ before, ∀ q, m.parent = some q → q ∈ ids nodes := by
  obtain ⟨before, n, after, hnodes, hn, hbefore⟩ := List.findSome?_eq_some_iff.mp h
  have hsome {q : String} (hq : n.parent = some q) : q ∉ ids nodes ∧ n.id = a ∧ q = p := by
    simp only [hq] at hn
    split at hn
    · cases hn
    · rename_i hmem
      cases hn
      exact ⟨hmem, rfl, rfl⟩
  cases hp : n.parent with
  | none => simp [hp] at hn
  | some q =>
    obtain ⟨hmem, hid, rfl⟩ := hsome hp
    refine ⟨before, n, after, hnodes, hid, hp, hmem, fun m hm q hq => ?_⟩
    simpa [hq] using hbefore m hm

/-! ## Roots -/

theorem isRoot_parents_iff (hdeclared : ∀ m ∈ nodes, ∀ q, m.parent = some q → q ∈ ids nodes)
    {i : Nat} : (parents nodes).IsRoot i ↔ ∃ r, nodes[i]? = some r ∧ r.parent = none := by
  rw [ParentLinks.IsRoot, getElem?_parents, Option.map_eq_some_iff]
  refine exists_congr fun r => and_congr_right fun hr => ?_
  cases hp : r.parent with
  | none => simp
  | some q =>
    -- a declared parent has a position
    have hq : ((ids nodes).idxOf? q).isSome :=
      List.isSome_idxOf?.mpr (hdeclared r (List.mem_of_getElem? hr) q hp)
    rw [Option.bind_some]
    exact iff_of_false (Option.isSome_iff_ne_none.mp hq) (by simp)

theorem underRoot_iff (hnd : (ids nodes).Nodup)
    (hdeclared : ∀ m ∈ nodes, ∀ q, m.parent = some q → q ∈ ids nodes) {i : Nat}
    {n : HierarchyNode} (hn : nodes[i]? = some n) :
    UnderRoot nodes n.id ↔ (parents nodes).Grounded i := by
  have hi := getElem?_ids_of_node hn
  constructor
  · rintro ⟨r, hr, hroot, hreaches⟩
    obtain ⟨k, j, hk, hj⟩ := (reaches_iff hnd hi).mp hreaches
    obtain ⟨j', hr'⟩ := List.getElem?_of_mem hr
    obtain rfl := position_unique hnd hj (getElem?_ids_of_node hr')
    exact ⟨k, j, hk, (isRoot_parents_iff hdeclared).mpr ⟨r, hr', hroot⟩⟩
  · rintro ⟨k, j, hk, hj⟩
    obtain ⟨r, hr, hroot⟩ := (isRoot_parents_iff hdeclared).mp hj
    exact ⟨r, List.mem_of_getElem? hr, hroot,
      (reaches_iff hnd hi).mpr ⟨k, j, hk, getElem?_ids_of_node hr⟩⟩

/-! ## From positions to names -/

theorem parentOf_nameAt {i j : Nat} (h : (parents nodes).parent? i = some j) :
    ParentOf nodes (nameAt nodes i) (nameAt nodes j) := by
  obtain ⟨n, p, hn, hp, hj⟩ := parent?_parents_iff.mp h
  refine ⟨n, List.mem_of_getElem? hn, (nameAt_of_getElem? hn).symm, ?_⟩
  rw [nameAt, getElem?_of_idxOf? hj, hp, Option.getD_some]

/-- The cycle that links run into, by names. -/
theorem exists_cycle_names (hnd : (ids nodes).Nodup) {i : Nat} (hi : i < nodes.length)
    (hno : ¬ (parents nodes).Grounded i) :
    ∃ lead x xs,
      ((parents nodes).cycleFrom (nodes.length + 1) [] i).filterMap ((ids nodes)[·]?) =
        x :: xs ++ [x] ∧
      (lead ++ x :: xs).head? = some (nameAt nodes i) ∧ (lead ++ x :: xs).Nodup ∧
      (lead ++ x :: xs ++ [x]).IsChain (ParentOf nodes) := by
  obtain ⟨closed, htraced⟩ := (parents nodes).exists_traced_iff i
  have h := (htraced _ _).mpr ⟨rfl, rfl⟩
  rw [length_parents] at h
  obtain rfl := h.closed_of_not_grounded (closed_parents nodes) (by rwa [length_parents]) hno
  obtain ⟨lead, x, xs, hpath, hnd', hchain, hhead⟩ := h.exists_cycle List.nodup_nil (.singleton i)
  have hlt := ParentLinks.lt_length_of_isChain hchain
  rw [length_parents] at hlt
  -- the last position of the path was met before
  have hltx : ∀ a ∈ x :: xs ++ [x], a < nodes.length := by
    intro a ha
    apply hlt
    simp only [List.mem_append, List.mem_cons, List.not_mem_nil, or_false] at ha ⊢
    tauto
  refine ⟨lead.map (nameAt nodes), nameAt nodes x, xs.map (nameAt nodes), ?_, ?_, ?_, ?_⟩
  · have hnames : (x :: xs ++ [x]).filterMap ((ids nodes)[·]?) =
        (x :: xs ++ [x]).map (nameAt nodes) :=
      List.filterMap_eq_map_iff_forall_eq_some.mpr fun a ha => getElem?_ids_eq_nameAt (hltx a ha)
    rw [hpath, hnames, List.map_append, List.map_cons]
    rfl
  · rw [← List.map_cons, ← List.map_append, List.head?_map, hhead]
    rfl
  · rw [← List.map_cons, ← List.map_append]
    exact hnd'.map_on fun a ha b hb => nameAt_inj hnd (hlt a ha) (hlt b hb)
  · have hnames := (List.isChain_map (nameAt nodes) (R := ParentOf nodes)).mpr
      (hchain.imp fun a b => parentOf_nameAt)
    rwa [List.map_append, List.map_append, List.map_cons, List.map_cons] at hnames

/-! ## One report for a list -/

/-- A list splits in one way at the first element that spoils a property of what precedes it. -/
theorem eq_of_first {α : Type} (good : List α → Prop)
    (hgood : ∀ xs ys, good (xs ++ ys) → good xs) {b b' a a' : List α} {n n' : α}
    (hb : good b) (hn : ¬ good (b ++ [n])) (hb' : good b') (hn' : ¬ good (b' ++ [n']))
    (h : b ++ n :: a = b' ++ n' :: a') : n = n' := by
  rcases List.append_eq_append_iff.mp h with ⟨c, hc, h⟩ | ⟨c, hc, h⟩
  · cases c with
    | nil => exact (List.cons.inj h).1
    | cons m c =>
      -- the other split is further on, and so the first one was not good
      obtain rfl := (List.cons.inj h).1
      rw [hc, List.append_cons] at hb'
      exact absurd (hgood _ _ hb') hn
  · cases c with
    | nil => exact (List.cons.inj h).1.symm
    | cons m c =>
      obtain rfl := (List.cons.inj h).1
      rw [hc, List.append_cons] at hb
      exact absurd (hgood _ _ hb) hn'

theorem ParentOf.unique (hnd : (ids nodes).Nodup) {a b c : String} (hb : ParentOf nodes a b)
    (hc : ParentOf nodes a c) : b = c := by
  obtain ⟨n, hn, hna, hnb⟩ := hb
  obtain ⟨m, hm, hma, hmc⟩ := hc
  obtain rfl := List.inj_on_of_nodup_map hnd hn hm (hna.trans hma.symm)
  exact Option.some.inj (hnb.symm.trans hmc)

/-- Of two chains of parents that begin at one name, one goes on where the other ends. -/
theorem isPrefix_or_isPrefix (hnd : (ids nodes).Nodup) {as bs : List String}
    (ha : as.IsChain (ParentOf nodes)) (hb : bs.IsChain (ParentOf nodes))
    (hhead : as.head? = bs.head?) : as <+: bs ∨ bs <+: as := by
  induction as generalizing bs with
  | nil => exact .inl List.nil_prefix
  | cons a as ih =>
    cases bs with
    | nil => exact .inr List.nil_prefix
    | cons b bs =>
      obtain rfl : a = b := Option.some.inj hhead
      rw [List.cons_prefix_cons, List.cons_prefix_cons]
      suffices as <+: bs ∨ bs <+: as by tauto
      cases as with
      | nil => exact .inl List.nil_prefix
      | cons a' as =>
        cases bs with
        | nil => exact .inr List.nil_prefix
        | cons b' bs =>
          exact ih ha.tail hb.tail (congrArg some (ha.rel.unique hnd hb.rel))

/-- Parents run into one cycle. -/
theorem cycle_unique (hnd : (ids nodes).Nodup) {lead lead' xs xs' : List String} {x x' : String}
    (hhead : (lead ++ x :: xs).head? = (lead' ++ x' :: xs').head?)
    (hnew : (lead ++ x :: xs).Nodup) (hnew' : (lead' ++ x' :: xs').Nodup)
    (hchain : (lead ++ x :: xs ++ [x]).IsChain (ParentOf nodes))
    (hchain' : (lead' ++ x' :: xs' ++ [x']).IsChain (ParentOf nodes)) :
    x :: xs ++ [x] = x' :: xs' ++ [x'] := by
  -- a chain that goes on after it met a name again repeats that name
  have hstop {l l' : List String} {y y' : String} (hy : y ∈ l) (hl' : l'.Nodup)
      (h : l ++ [y] <+: l' ++ [y']) : l ++ [y] = l' ++ [y'] := by
    refine (List.prefix_concat_iff.mp h).resolve_right fun h => ?_
    exact (List.nodup_append.mp (h.sublist.nodup hl')).2.2 y hy y (by simp) rfl
  have he : lead ++ x :: xs ++ [x] = lead' ++ x' :: xs' ++ [x'] := by
    have hhead' : (lead ++ x :: xs ++ [x]).head? = (lead' ++ x' :: xs' ++ [x']).head? := by
      have hlonger {l ys : List String} {y : String} :
          (l ++ y :: ys ++ [y]).head? = (l ++ y :: ys).head? := by cases l <;> rfl
      rw [hlonger, hlonger, hhead]
    rcases isPrefix_or_isPrefix hnd hchain hchain' hhead' with h | h
    · exact hstop (by simp) hnew' h
    · exact (hstop (by simp) hnew h).symm
  obtain ⟨he, hx⟩ := List.append_inj' he rfl
  obtain rfl : x = x' := by simpa using hx
  have hlead {l ys : List String} (h : (l ++ x :: ys).Nodup) : x ∉ l := fun hmem =>
    (List.nodup_append.mp h).2.2 x hmem x List.mem_cons_self rfl
  have hxs : x :: xs = x :: xs' := by
    calc x :: xs = (lead ++ x :: xs).dropWhile (· ≠ x) :=
          (ParentLinks.dropWhile_ne_append_cons (hlead hnew)).symm
      _ = (lead' ++ x :: xs').dropWhile (· ≠ x) := by rw [he]
      _ = x :: xs' := ParentLinks.dropWhile_ne_append_cons (hlead hnew')
  rw [hxs]

theorem not_nodup_of_repeated {before after : List HierarchyNode} {n : HierarchyNode}
    (hnodes : nodes = before ++ n :: after) (hn : n.id ∈ ids before) : ¬ (ids nodes).Nodup := by
  intro hnd
  rw [hnodes, ids, List.map_append, List.map_cons, List.nodup_append] at hnd
  exact hnd.2.2 _ hn _ List.mem_cons_self rfl

/-- A list deserves no two reports. -/
theorem IsFault.unique {e e' : HierarchyError} (h : IsFault nodes e) (h' : IsFault nodes e') :
    e = e' := by
  cases h with
  | duplicate hnodes hb hn =>
    cases h' with
    | duplicate hnodes' hb' hn' =>
      have hprefix : ∀ xs ys, (ids (xs ++ ys)).Nodup → (ids xs).Nodup := by
        intro xs ys h
        rw [ids, List.map_append] at h
        exact h.of_append_left
      rw [eq_of_first (fun b => (ids b).Nodup) hprefix hb (not_nodup_of_repeated rfl hn)
        hb' (not_nodup_of_repeated rfl hn') (hnodes.symm.trans hnodes')]
    | orphan hnd _ _ _ _ => exact absurd hnd (not_nodup_of_repeated hnodes hn)
    | cycle hnd _ _ _ _ _ _ _ => exact absurd hnd (not_nodup_of_repeated hnodes hn)
  | @orphan before after n p hnd hnodes hb hp hmem =>
    cases h' with
    | duplicate hnodes' _ hn' => exact absurd hnd (not_nodup_of_repeated hnodes' hn')
    | @orphan before' after' n' p' _ hnodes' hb' hp' hmem' =>
      obtain rfl := eq_of_first
        (fun b : List HierarchyNode => ∀ m ∈ b, ∀ q, m.parent = some q → q ∈ ids nodes)
        (fun xs ys h m hm => h m (List.mem_append_left ys hm))
        hb (fun h => hmem (h n (by simp) p hp)) hb' (fun h => hmem' (h n' (by simp) p' hp'))
        (hnodes.symm.trans hnodes')
      obtain rfl := Option.some.inj (hp.symm.trans hp')
      rfl
    | cycle _ hdeclared _ _ _ _ _ _ =>
      exact absurd (hdeclared n (by simp [hnodes]) p hp) hmem
  | @cycle before after n lead xs x hnd hdeclared hnodes hb hn hhead hnew hchain =>
    cases h' with
    | duplicate hnodes' _ hn' => exact absurd hnd (not_nodup_of_repeated hnodes' hn')
    | @orphan _ _ n' p' _ hnodes' _ hp' hmem' =>
      exact absurd (hdeclared n' (by simp [hnodes']) p' hp') hmem'
    | @cycle _ _ n' _ _ _ _ _ hnodes' hb' hn' hhead' hnew' hchain' =>
      obtain rfl := eq_of_first
        (fun b : List HierarchyNode => ∀ m ∈ b, UnderRoot nodes m.id)
        (fun xs ys h m hm => h m (List.mem_append_left ys hm))
        hb (fun h => hn (h n (by simp))) hb' (fun h => hn' (h n' (by simp)))
        (hnodes.symm.trans hnodes')
      rw [cycle_unique hnd (hhead.trans hhead'.symm) hnew hnew' hchain hchain']

end AccessPolicy.HierarchyNode

namespace AccessPolicy.NestedSet

open HierarchyNode

variable {nodes : List HierarchyNode}

/-- The first position without numbers is the first that no root lies above. -/
theorem isFault_of_unnumbered (hnd : (HierarchyNode.ids nodes).Nodup)
    (hdeclared : ∀ m ∈ nodes, ∀ q, m.parent = some q → q ∈ HierarchyNode.ids nodes) {i : Nat}
    (hfind : ((List.range nodes.length).find? fun j =>
      ((numbering (parents nodes)).lookup j).isNone) = some i) :
    IsFault nodes (.circular (((parents nodes).cycleFrom (nodes.length + 1) [] i).filterMap
      ((HierarchyNode.ids nodes)[·]?))) := by
  obtain ⟨hnone, hmem, hfirst⟩ := List.find?_range_eq_some.mp hfind
  have hi := List.mem_range.mp hmem
  have hno := ParentLinks.lookup_numbering_eq_none_iff.mp (Option.isNone_iff_eq_none.mp hnone)
  have hn : nodes[i]? = some nodes[i] := List.getElem?_eq_getElem hi
  have hsplit : nodes = nodes.take i ++ nodes[i] :: nodes.drop (i + 1) := by
    rw [← List.drop_eq_getElem_cons, List.take_append_drop]
  have hbefore : ∀ m ∈ nodes.take i, UnderRoot nodes m.id := by
    intro m hm
    obtain ⟨j, hj, rfl⟩ := List.mem_take_iff_getElem.mp hm
    rw [underRoot_iff hnd hdeclared (List.getElem?_eq_getElem (by omega))]
    by_contra hground
    have hnumbered := hfirst j (by omega)
    rw [ParentLinks.lookup_numbering_eq_none_iff.mpr hground] at hnumbered
    cases hnumbered
  have hat : ¬ UnderRoot nodes nodes[i].id := by rwa [underRoot_iff hnd hdeclared hn]
  obtain ⟨lead, x, xs, hpath, hhead, hnames, hchain⟩ := exists_cycle_names hnd hi hno
  rw [nameAt_of_getElem? hn] at hhead
  rw [hpath]
  exact .cycle hnd hdeclared hsplit hbefore hat hhead hnames hchain

/-- A list is refused for what is wrong with it. -/
theorem isFault_of_encode {e : HierarchyError} (h : encode nodes = .error e) :
    IsFault nodes e := by
  unfold encode at h
  cases hrepeated : repeated? [] nodes with
  | some a =>
    simp only [hrepeated] at h
    cases h
    obtain ⟨before, n, after, hnodes, rfl, hnd, -, hold⟩ := repeated?_eq_some hrepeated
    exact .duplicate hnodes hnd (hold.resolve_right List.not_mem_nil)
  | none =>
    obtain ⟨hnd, -⟩ := repeated?_eq_none hrepeated
    cases horphan : orphan? nodes with
    | some orphan =>
      simp only [hrepeated, horphan] at h
      cases h
      obtain ⟨before, n, after, hnodes, hid, hp, hmem, hbefore⟩ := orphan?_eq_some horphan
      rw [← hid]
      exact .orphan hnd hnodes hbefore hp hmem
    | none =>
      simp only [hrepeated, horphan] at h
      split at h
      · rename_i i hfind
        cases h
        exact isFault_of_unnumbered hnd (orphan?_eq_none_iff.mp horphan) hfind
      · cases h

/-- What is encoded has no fault. -/
theorem not_isFault_of_encode {s : NestedSet} (h : encode nodes = .ok s) (e : HierarchyError) :
    ¬ IsFault nodes e := by
  obtain ⟨hnd, hdeclared, -⟩ := encode_eq_ok h
  intro hfault
  cases hfault with
  | duplicate hnodes _ hn => exact not_nodup_of_repeated hnodes hn hnd
  | @orphan _ _ n p _ hnodes _ hp hmem => exact hmem (hdeclared n (by simp [hnodes]) p hp)
  | @cycle _ _ n _ _ _ _ _ hnodes _ hn _ _ _ =>
    obtain ⟨i, hni⟩ := List.getElem?_of_mem (show n ∈ nodes by simp [hnodes])
    have hi := (List.getElem?_eq_some_iff.mp hni).1
    exact hn ((underRoot_iff hnd hdeclared hni).mpr (grounded_of_encode h hi))

/-- A list is refused with the report that it deserves. -/
theorem encode_eq_error_iff {e : HierarchyError} : encode nodes = .error e ↔ IsFault nodes e := by
  refine ⟨isFault_of_encode, fun hfault => ?_⟩
  cases h : encode nodes with
  | ok s => exact absurd hfault (not_isFault_of_encode h e)
  | error e' => rw [(isFault_of_encode h).unique hfault]

/-- Refusals are for a reason, and the reasons are ranked: a list that is refused gets the report
of its first repeated name, else of its first missing parent, else of the cycle above its first node
that no root lies above.  The walk ends with nothing to report, whatever the list, and the search
for a cycle ends from every position; where the walk leaves a position out, the search that starts
there meets a position again. -/
theorem encode_reports_first_fault (nodes : List HierarchyNode) :
    encodeByWalk nodes = encode nodes ∧
    (∀ e, encode nodes = .error e ↔ IsFault nodes e) ∧
    (∃ w, Walk.visit (parents nodes) (parents nodes).roots (.start nodes.length) = .ok w ∧
      (∀ result, Walk.Visits (parents nodes) (parents nodes).roots (.start nodes.length) result ↔
        result = .ok w) ∧
      ∀ p, w.entered.findIdx? (!·) = some p →
        ∀ path closed, (parents nodes).Traced [] p path closed → closed = true) ∧
    ∀ p, ∃ closed, ∀ path closed', (parents nodes).Traced [] p path closed' ↔
      path = (parents nodes).cycleFrom (nodes.length + 1) [] p ∧ closed' = closed := by
  have hvisit := Walk.visit_roots (parents nodes)
  have hvisits := fun result => Walk.visits_roots_iff (parents nodes) result
  have htraced := (parents nodes).exists_traced_iff
  have hentered := findIdx?_entered (parents nodes)
  rw [length_parents] at hvisit hentered
  simp only [length_parents] at hvisits htraced
  refine ⟨encodeByWalk_eq_encode nodes, fun e => encode_eq_error_iff, ⟨_, hvisit, hvisits, ?_⟩,
    htraced⟩
  intro p hp path closed h
  obtain ⟨hnone, hmem, -⟩ := List.find?_range_eq_some.mp (hentered.symm.trans hp)
  refine h.closed_of_not_grounded (closed_parents nodes) ?_
    (ParentLinks.lookup_numbering_eq_none_iff.mp (Option.isNone_iff_eq_none.mp hnone))
  rw [length_parents]
  exact List.mem_range.mp hmem

/-- The first node in question need not lie on the cycle that is reported. -/
theorem encode_reports_first_fault_lead_in :
    let nodes : List HierarchyNode :=
      [⟨"top", none⟩, ⟨"a", some "b"⟩, ⟨"b", some "c"⟩, ⟨"c", some "b"⟩]
    encode nodes = .error (.circular ["b", "c", "b"]) ∧
      IsFault nodes (.circular ["b", "c", "b"]) ∧ ¬ IsFault nodes (.circular ["c", "b", "c"]) := by
  intro nodes
  have hencode : encode nodes = .error (.circular ["b", "c", "b"]) := by rfl
  obtain ⟨-, hfault, -⟩ := encode_reports_first_fault nodes
  refine ⟨hencode, (hfault _).mp hencode, fun h => ?_⟩
  exact absurd (hencode.symm.trans ((hfault _).mpr h)) (by decide)

end AccessPolicy.NestedSet
