import AccessPolicy.Proofs.Hierarchy.Forest

/-!
# Intervals — the numbering of a forest is a bracketing

Entering a node opens a bracket and leaving it closes the bracket.  So the numbers of a forest are
those from zero on, each used once; the interval of a node is as wide as the node has brackets
below it; and the intervals of the children of a node lie side by side between its own ends.
-/

namespace AccessPolicy

/-- The intervals lie side by side, in order, from `start` on and up to `stop`. -/
def Interval.Tiles (start stop : Nat) : List Interval → Prop
  | [] => start = stop
  | i :: is => i.left.toNat = start ∧ Tiles (i.right.toNat + 1) stop is

namespace Tree

/-! ## Numbers -/

mutual

/-- A tree uses the numbers that the counter passes, each of them once. -/
theorem number_perm (start : Nat) : ∀ t : Tree,
    ((number start t).flatMap fun (_, l, r) => [l, r]).Perm (List.range' start (2 * t.size))
  | .node p ts => by
    have hsize : 2 * (node p ts).size = 1 + 2 * sizeAll ts + 1 := by
      rw [size]
      omega
    -- the first number and the last one are the root's
    rw [number, List.flatMap_cons, hsize, ← List.range'_append_1, ← List.range'_append_1]
    have hchildren := numberAll_perm (start + 1) ts
    have hlast : start + (1 + 2 * sizeAll ts) = start + 2 * sizeAll ts + 1 := by omega
    rw [hlast]
    show (start :: (start + 2 * sizeAll ts + 1) :: _).Perm
      (start :: List.range' (start + 1) (2 * sizeAll ts) ++ [start + 2 * sizeAll ts + 1])
    exact ((hchildren.cons _).trans (List.perm_append_singleton _ _).symm).cons start

theorem numberAll_perm (start : Nat) : ∀ ts : List Tree,
    ((numberAll start ts).flatMap fun (_, l, r) => [l, r]).Perm
      (List.range' start (2 * sizeAll ts))
  | [] => .nil
  | t :: ts => by
    have hsize : 2 * sizeAll (t :: ts) = 2 * t.size + 2 * sizeAll ts := by
      rw [sizeAll]
      omega
    rw [numberAll, List.flatMap_append, hsize, ← List.range'_append_1]
    exact (number_perm start t).append (numberAll_perm (start + 2 * t.size) ts)

end

mutual

/-- Intervals of a tree are nested or disjoint. -/
theorem number_laminar {a la ra b lb rb : Nat} : ∀ {start : Nat} {t : Tree},
    (a, la, ra) ∈ number start t → (b, lb, rb) ∈ number start t →
    (lb ≤ la ∧ ra ≤ rb) ∨ (la ≤ lb ∧ rb ≤ ra) ∨ ra < lb ∨ rb < la
  | start, .node p ts, ha, hb => by
    have ha' := number_bounds ha
    have hb' := number_bounds hb
    rw [size] at ha' hb'
    rw [number, List.mem_cons] at ha hb
    simp only [Prod.mk.injEq] at ha hb
    rcases ha with ⟨-, rfl, rfl⟩ | ha
    · exact .inr (.inl (by omega))
    · rcases hb with ⟨-, rfl, rfl⟩ | hb
      · exact .inl (by omega)
      · exact numberAll_laminar ha hb

theorem numberAll_laminar {a la ra b lb rb : Nat} : ∀ {start : Nat} {ts : List Tree},
    (a, la, ra) ∈ numberAll start ts → (b, lb, rb) ∈ numberAll start ts →
    (lb ≤ la ∧ ra ≤ rb) ∨ (la ≤ lb ∧ rb ≤ ra) ∨ ra < lb ∨ rb < la
  | _, [], ha, _ => by simp [numberAll] at ha
  | start, t :: ts, ha, hb => by
    rw [numberAll, List.mem_append] at ha hb
    rcases ha with ha | ha <;> rcases hb with hb | hb
    · exact number_laminar ha hb
    · -- in different trees: the first has used up its numbers before the next begins
      have ha' := number_bounds ha
      have hb' := numberAll_bounds hb
      omega
    · have ha' := numberAll_bounds ha
      have hb' := number_bounds hb
      omega
    · exact numberAll_laminar ha hb

end

/-! ## Subtrees -/

mutual

/-- The numbers of a node are those of its subtree, numbered from the left end on. -/
theorem exists_subtree {links : ParentLinks} {p l r : Nat} : ∀ {start : Nat} {t : Tree},
    (p, l, r) ∈ number start t → t.Spans links →
    ∃ us, Spans links (.node p us) ∧ r = l + 2 * sizeAll us + 1 ∧
      (number l (.node p us)).Sublist (number start t)
  | start, .node q ts, h, hspans => by
    rw [number, List.mem_cons] at h
    rcases h with h | h
    · obtain ⟨rfl, rfl, rfl⟩ : p = q ∧ l = start ∧ r = start + 2 * sizeAll ts + 1 := by
        simpa using h
      exact ⟨ts, hspans, rfl, .refl _⟩
    · cases hspans with
      | node _ hts =>
        obtain ⟨us, hus, hr, hsub⟩ := exists_subtree_of_numberAll h hts
        refine ⟨us, hus, hr, ?_⟩
        rw [number.eq_1 start]
        exact hsub.cons _

theorem exists_subtree_of_numberAll {links : ParentLinks} {p l r : Nat} :
    ∀ {start : Nat} {ts : List Tree}, (p, l, r) ∈ numberAll start ts →
    (∀ t ∈ ts, t.Spans links) →
    ∃ us, Spans links (.node p us) ∧ r = l + 2 * sizeAll us + 1 ∧
      (number l (.node p us)).Sublist (numberAll start ts)
  | _, [], h, _ => by simp [numberAll] at h
  | start, t :: ts, h, hspans => by
    rw [List.forall_mem_cons] at hspans
    rw [numberAll, List.mem_append] at h
    rw [numberAll]
    rcases h with h | h
    · obtain ⟨us, hus, hr, hsub⟩ := exists_subtree h hspans.1
      exact ⟨us, hus, hr, hsub.trans (List.sublist_append_left _ _)⟩
    · obtain ⟨us, hus, hr, hsub⟩ := exists_subtree_of_numberAll h hspans.2
      exact ⟨us, hus, hr, hsub.trans (List.sublist_append_right _ _)⟩

end

/-- A tree that has all children holds what the links lead to its root from. -/
theorem Spans.mem_positions_iff {links : ParentLinks} {t : Tree} (h : t.Spans links) {q : Nat} :
    q ∈ t.positions ↔ ∃ k, links.ancestor? k q = some t.root := by
  induction h generalizing q with
  | @node p ts hchildren _ ih =>
    rw [positions, List.mem_cons, mem_positionsAll]
    constructor
    · rintro (rfl | ⟨t, ht, hq⟩)
      · exact ⟨0, rfl⟩
      · obtain ⟨k, hk⟩ := (ih t ht).mp hq
        have hchild : t.root ∈ links.children p := hchildren ▸ List.mem_map_of_mem ht
        refine ⟨k + 1, ?_⟩
        rw [ParentLinks.ancestor?_succ, hk, Option.bind_some, ParentLinks.mem_children.mp hchild]
        rfl
    · rintro ⟨k, hk⟩
      cases k with
      | zero => exact .inl (Option.some.inj hk)
      | succ k =>
        -- the last link leads from a child to the root
        rw [ParentLinks.ancestor?_succ, Option.bind_eq_some_iff] at hk
        obtain ⟨c, hc, hp⟩ := hk
        have hmem := ParentLinks.mem_children.mpr hp
        rw [root, hchildren] at hmem
        obtain ⟨t, ht, rfl⟩ := List.mem_map.mp hmem
        exact .inr ⟨t, ht, (ih t ht).mpr ⟨k, hc⟩⟩

/-- The roots of trees that are numbered one after the other have their intervals side by side. -/
theorem tiles_roots {intervals : List Interval} : ∀ {start : Nat} {ts : List Tree},
    (∀ p l r, (p, l, r) ∈ numberAll start ts → (l < 2 ^ 32 ∧ r < 2 ^ 32) ∧
      intervals[p]? = some ⟨UInt32.ofNat l, UInt32.ofNat r⟩) →
    Interval.Tiles start (start + 2 * sizeAll ts)
      ((ts.map root).filterMap (intervals[·]?))
  | start, [], _ => by
    rw [sizeAll]
    rfl
  | start, .node p us :: ts, h => by
    have hroot : (p, start, start + 2 * sizeAll us + 1) ∈ numberAll start (.node p us :: ts) := by
      rw [numberAll, number]
      exact List.mem_cons_self
    obtain ⟨⟨hl, hr⟩, hget⟩ := h _ _ _ hroot
    have hothers : Interval.Tiles (start + 2 * (node p us).size)
        (start + 2 * (node p us).size + 2 * sizeAll ts)
        ((ts.map root).filterMap (intervals[·]?)) := by
      refine tiles_roots fun q l r hq => h q l r ?_
      rw [numberAll]
      exact List.mem_append_right _ hq
    have hnext : start + 2 * sizeAll us + 1 + 1 = start + 2 * (node p us).size := by
      rw [size]
      omega
    have hstop : start + 2 * sizeAll (node p us :: ts) =
        start + 2 * (node p us).size + 2 * sizeAll ts := by
      rw [sizeAll]
      omega
    rw [List.map_cons, root, List.filterMap_cons_some hget, Interval.Tiles,
      UInt32.toNat_ofNat_of_lt' hl, UInt32.toNat_ofNat_of_lt' hr, hnext, hstop]
    exact ⟨rfl, hothers⟩

end Tree

namespace NestedSet

open HierarchyNode

variable {nodes : List HierarchyNode} {s : NestedSet}

/-! ## Intervals of positions -/

theorem positionsAll_forest_perm (h : encode nodes = .ok s) :
    (Tree.positionsAll (parents nodes).forest).Perm (List.range nodes.length) := by
  rw [List.perm_ext_iff_of_nodup (parents nodes).forest_nodup List.nodup_range]
  intro i
  rw [ParentLinks.mem_positionsAll_forest_iff, List.mem_range, ← length_parents]
  refine ⟨ParentLinks.Grounded.lt_length, fun hi => grounded_of_encode h ?_⟩
  rwa [← length_parents]

theorem sizeAll_forest (h : encode nodes = .ok s) :
    Tree.sizeAll (parents nodes).forest = nodes.length := by
  rw [← Tree.length_positionsAll, (positionsAll_forest_perm h).length_eq, List.length_range]

/-- The numbers of a position are its interval. -/
theorem getElem?_intervals (h : encode nodes = .ok s) {i l r : Nat}
    (hmem : (i, l, r) ∈ Tree.numberAll 0 (parents nodes).forest) :
    s.intervals[i]? = some ⟨UInt32.ofNat l, UInt32.ofNat r⟩ := by
  obtain ⟨-, -, -, -, hall⟩ := encode_eq_ok h
  have hi : i ∈ List.range nodes.length :=
    (positionsAll_forest_perm h).mem_iff.mp (Tree.mem_positions_of_numberAll hmem)
  obtain ⟨l', r', hmem', hget⟩ := hall i (List.mem_range.mp hi)
  have hkeys : ((Tree.numberAll 0 (parents nodes).forest).map (·.1)).Nodup := by
    rw [Tree.map_fst_numberAll]
    exact (parents nodes).forest_nodup
  obtain ⟨rfl, rfl⟩ : l = l' ∧ r = r' := by
    simpa using List.inj_on_of_nodup_map hkeys hmem hmem' rfl
  exact hget

/-- Numbers do not wrap. -/
theorem numbers_lt (h : encode nodes = .ok s) (hsize : nodes.length < 2 ^ 31) {i l r : Nat}
    (hmem : (i, l, r) ∈ Tree.numberAll 0 (parents nodes).forest) :
    l < r ∧ l < 2 ^ 32 ∧ r < 2 ^ 32 := by
  have hbounds := Tree.numberAll_bounds hmem
  rw [sizeAll_forest h] at hbounds
  omega

/-- The intervals are the numbers of the forest, in the order of declaration. -/
theorem intervals_perm (h : encode nodes = .ok s) :
    s.intervals.Perm ((Tree.numberAll 0 (parents nodes).forest).map fun (_, l, r) =>
      ⟨UInt32.ofNat l, UInt32.ofNat r⟩) := by
  obtain ⟨-, -, -, hlength, -⟩ := encode_eq_ok h
  let at' (i : Nat) : Interval := (s.intervals[i]?).getD default
  have hdeclared : s.intervals = (List.range nodes.length).map at' := by
    apply List.ext_getElem?
    intro i
    rw [List.getElem?_map]
    by_cases hi : i < nodes.length
    · rw [List.getElem?_range hi, Option.map_some]
      show _ = some ((s.intervals[i]?).getD default)
      rw [List.getElem?_eq_getElem (hlength ▸ hi), Option.getD_some]
    · rw [List.getElem?_eq_none (by omega), List.getElem?_eq_none (by simpa using hi)]
      rfl
  have hnumbered : (Tree.numberAll 0 (parents nodes).forest).map (fun (_, l, r) =>
      (⟨UInt32.ofNat l, UInt32.ofNat r⟩ : Interval)) =
        (Tree.positionsAll (parents nodes).forest).map at' := by
    rw [← Tree.map_fst_numberAll 0, List.map_map]
    apply List.map_congr_left
    rintro ⟨i, l, r⟩ hmem
    show _ = (s.intervals[i]?).getD default
    rw [getElem?_intervals h hmem, Option.getD_some]
  rw [hnumbered]
  rw [hdeclared]
  exact ((positionsAll_forest_perm h).map at').symm

/-- The ends of the intervals are the numbers from zero on. -/
theorem ends_perm (h : encode nodes = .ok s) (hsize : nodes.length < 2 ^ 31) :
    (s.intervals.flatMap fun i => [i.left.toNat, i.right.toNat]).Perm
      (List.range (2 * nodes.length)) := by
  have hends : ((Tree.numberAll 0 (parents nodes).forest).map fun (_, l, r) =>
      (⟨UInt32.ofNat l, UInt32.ofNat r⟩ : Interval)).flatMap
        (fun i => [i.left.toNat, i.right.toNat]) =
      (Tree.numberAll 0 (parents nodes).forest).flatMap fun (_, l, r) => [l, r] := by
    rw [List.flatMap_map]
    apply List.flatMap_congr
    rintro ⟨i, l, r⟩ hmem
    obtain ⟨-, hl, hr⟩ := numbers_lt h hsize hmem
    show [(UInt32.ofNat l).toNat, (UInt32.ofNat r).toNat] = [l, r]
    rw [UInt32.toNat_ofNat_of_lt' hl, UInt32.toNat_ofNat_of_lt' hr]
  have hnumbers := Tree.numberAll_perm 0 (parents nodes).forest
  rw [sizeAll_forest h, ← List.range_eq_range'] at hnumbers
  refine ((intervals_perm h).flatMap_right _).trans ?_
  rw [hends]
  exact hnumbers

/-! ## Intervals of names -/

theorem interval?_of_getElem? (h : encode nodes = .ok s) {n : HierarchyNode} {i : Nat}
    (hn : nodes[i]? = some n) : s.interval? n.id = s.intervals[i]? := by
  rw [interval?, (position?_eq_some_iff h).mpr (getElem?_ids_of_node hn), Option.bind_some]

/-- Nodes with one parent are those of the positions with one parent, in the same order. -/
theorem filterMap_interval? (h : encode nodes = .ok s) {a : Option String} {q : Option Nat}
    (hq : ∀ m ∈ nodes, m.parent = a ↔ (m.parent.bind (HierarchyNode.ids nodes).idxOf?) = q) :
    (nodes.filter (·.parent = a)).filterMap (fun m => s.interval? m.id) =
      ((parents nodes).withParent q).filterMap (s.intervals[·]?) := by
  have hnodes : nodes.filter (·.parent = a) =
      (nodes.zipIdx.filter (·.1.parent = a)).map (·.1) := by
    conv_lhs => rw [← List.zipIdx_map_fst 0 nodes, List.filter_map]
    rfl
  have hlinks : (parents nodes).withParent q =
      (nodes.zipIdx.filter (·.1.parent = a)).map (·.2) := by
    rw [ParentLinks.withParent, parents, List.zipIdx_map, List.filter_map, List.map_map]
    congr 1
    apply List.filter_congr
    rintro ⟨m, i⟩ hm
    have hm := List.mem_of_getElem? (List.mem_zipIdx_iff_getElem?.mp hm)
    show (m.parent.bind _ == q) = decide (m.parent = a)
    rw [Bool.eq_iff_iff, beq_iff_eq, decide_eq_true_iff]
    exact (hq m hm).symm
  rw [hnodes, hlinks, List.filterMap_map, List.filterMap_map]
  apply List.filterMap_congr
  rintro ⟨m, i⟩ hm
  have hm := List.mem_zipIdx_iff_getElem?.mp (List.mem_of_mem_filter hm)
  exact interval?_of_getElem? h hm

/-- Children have their intervals side by side, between the ends of their parent. -/
theorem tiles_children (h : encode nodes = .ok s) (hsize : nodes.length < 2 ^ 31)
    {n : HierarchyNode} {i l r : Nat} (hn : nodes[i]? = some n)
    (hmem : (i, l, r) ∈ Tree.numberAll 0 (parents nodes).forest) :
    Interval.Tiles (l + 1) r
      ((nodes.filter (·.parent = some n.id)).filterMap fun m => s.interval? m.id) := by
  obtain ⟨hnd, -⟩ := encode_eq_ok h
  obtain ⟨us, hspans, rfl, hsub⟩ :=
    Tree.exists_subtree_of_numberAll hmem fun _ => Walk.spans_forest
  cases hspans with | node hchildren _ =>
  have hid := getElem?_ids_of_node hn
  have hq : ∀ m ∈ nodes, m.parent = some n.id ↔
      (m.parent.bind (HierarchyNode.ids nodes).idxOf?) = some i := by
    intro m _
    rw [Option.bind_eq_some_iff]
    constructor
    · intro hm
      exact ⟨n.id, hm, idxOf?_of_getElem? hnd hid⟩
    · rintro ⟨p, hm, hp⟩
      rw [hm, ← hid, getElem?_of_idxOf? hp]
  have hstop : l + 2 * Tree.sizeAll us + 1 = l + 1 + 2 * Tree.sizeAll us := by omega
  rw [filterMap_interval? h hq, ← ParentLinks.children, hchildren, hstop]
  refine Tree.tiles_roots fun q l' r' hq => ?_
  have hq' : (q, l', r') ∈ Tree.numberAll 0 (parents nodes).forest := by
    apply hsub.subset
    rw [Tree.number]
    exact List.mem_cons_of_mem _ hq
  exact ⟨(numbers_lt h hsize hq').2, getElem?_intervals h hq'⟩

theorem tiles_forest (h : encode nodes = .ok s) (hsize : nodes.length < 2 ^ 31) :
    Interval.Tiles 0 (2 * nodes.length)
      ((nodes.filter (·.parent = none)).filterMap fun m => s.interval? m.id) := by
  obtain ⟨-, hdeclared, -⟩ := encode_eq_ok h
  have hq : ∀ m ∈ nodes, m.parent = none ↔
      (m.parent.bind (HierarchyNode.ids nodes).idxOf?) = none := by
    intro m hm
    cases hp : m.parent with
    | none => simp
    | some p =>
      have hpos := List.isSome_idxOf?.mpr (hdeclared m hm p hp)
      rw [Option.bind_some]
      exact iff_of_false (by simp) (Option.isSome_iff_ne_none.mp hpos)
  have hstop : 2 * nodes.length = 0 + 2 * Tree.sizeAll (parents nodes).forest := by
    rw [sizeAll_forest h, Nat.zero_add]
  rw [filterMap_interval? h hq, ← ParentLinks.roots, Walk.roots_eq_map_root, hstop]
  exact Tree.tiles_roots fun q l r hmem =>
    ⟨(numbers_lt h hsize hmem).2, getElem?_intervals h hmem⟩

/-- An interval is as wide as its node has ends of intervals below it, its own included. -/
theorem exists_below (h : encode nodes = .ok s) {n : HierarchyNode} {i l r : Nat}
    (hn : nodes[i]? = some n) (hmem : (i, l, r) ∈ Tree.numberAll 0 (parents nodes).forest) :
    ∃ below : List String, below.Nodup ∧ (∀ b, b ∈ below ↔ Reaches nodes b n.id) ∧
      r - l + 1 = 2 * below.length := by
  obtain ⟨hnd, -⟩ := encode_eq_ok h
  obtain ⟨us, hspans, rfl, hsub⟩ :=
    Tree.exists_subtree_of_numberAll hmem fun _ => Walk.spans_forest
  have hid := getElem?_ids_of_node hn
  have hpositions :
      (Tree.node i us).positions.Sublist (Tree.positionsAll (parents nodes).forest) := by
    have hmap := hsub.map (·.1)
    rwa [Tree.map_fst_number, Tree.map_fst_numberAll] at hmap
  have hlt : ∀ q ∈ (Tree.node i us).positions, q < nodes.length := fun q hq =>
    List.mem_range.mp ((positionsAll_forest_perm h).mem_iff.mp (hpositions.subset hq))
  refine ⟨(Tree.node i us).positions.map (nameAt nodes), ?_, fun b => ?_, ?_⟩
  · exact (hpositions.nodup (parents nodes).forest_nodup).map_on fun p hp q hq =>
      nameAt_inj hnd (hlt p hp) (hlt q hq)
  · rw [List.mem_map]
    constructor
    · rintro ⟨q, hq, rfl⟩
      obtain ⟨k, hk⟩ := hspans.mem_positions_iff.mp hq
      exact (reaches_iff hnd (getElem?_ids_eq_nameAt (hlt q hq))).mpr ⟨k, i, hk, hid⟩
    · intro hb
      obtain ⟨q, hqb⟩ := List.getElem?_of_mem hb.mem.1
      obtain ⟨k, j, hk, hj⟩ := (reaches_iff hnd hqb).mp hb
      obtain rfl := position_unique hnd hid hj
      refine ⟨q, hspans.mem_positions_iff.mpr ⟨k, hk⟩, ?_⟩
      rw [nameAt, hqb, Option.getD_some]
  · rw [List.length_map, Tree.length_positions, Tree.size]
    omega

/-- The walk ends with the intervals and with its counter past the last number. -/
theorem exists_visit (h : encode nodes = .ok s) (hsize : nodes.length < 2 ^ 31) :
    ∃ w, Walk.visit (parents nodes) (parents nodes).roots (.start nodes.length) = .ok w ∧
      w.intervals = s.intervals ∧ w.counter.toNat = 2 * nodes.length := by
  have hvisit := Walk.visit_roots (parents nodes)
  rw [length_parents] at hvisit
  refine ⟨_, hvisit, ?_, ?_⟩
  · have hwalk := (encodeByWalk_eq_encode nodes).trans h
    unfold encodeByWalk at hwalk
    -- the walk is all that is left of the encoding when nothing was refused
    split at hwalk
    · cases hwalk
    split at hwalk
    · cases hwalk
    simp only [hvisit] at hwalk
    split at hwalk
    · cases hwalk
    · obtain rfl := Except.ok.inj hwalk
      rfl
  · show (UInt32.ofNat (0 + 2 * Tree.sizeAll (parents nodes).forest)).toNat = _
    rw [sizeAll_forest h, Nat.zero_add]
    have hlt : 2 * nodes.length < 2 ^ 32 := by omega
    exact UInt32.toNat_ofNat_of_lt' hlt

/-- The intervals of a forest bracket it.  The two ends of the intervals are the numbers from zero
on, each used once, so that the counter of the walk does not wrap.  A node has its left end before
its right end, and between them lie the intervals of its children in the order of declaration, side
by side and without a gap; the width of the interval counts what lies below the node.  Intervals
are nested or disjoint, and those of the roots lie side by side over all numbers. -/
theorem encode_brackets_forest (h : encode nodes = .ok s) (hsize : nodes.length < 2 ^ 31) :
    (s.intervals.flatMap fun i => [i.left.toNat, i.right.toNat]).Perm
      (List.range (2 * nodes.length)) ∧
    (∃ w, Walk.visit (parents nodes) (parents nodes).roots (.start nodes.length) = .ok w ∧
      w.intervals = s.intervals ∧ w.counter.toNat = 2 * nodes.length) ∧
    (∀ n ∈ nodes, ∃ i, s.interval? n.id = some i ∧ i.left < i.right ∧
      (∃ below : List String, below.Nodup ∧ (∀ b, b ∈ below ↔ Reaches nodes b n.id) ∧
        i.right.toNat - i.left.toNat + 1 = 2 * below.length) ∧
      Interval.Tiles (i.left.toNat + 1) i.right.toNat
        ((nodes.filter (·.parent = some n.id)).filterMap fun m => s.interval? m.id)) ∧
    (∀ i ∈ s.intervals, ∀ j ∈ s.intervals,
      i.isSubOf j = true ∨ j.isSubOf i = true ∨ i.right < j.left ∨ j.right < i.left) ∧
    Interval.Tiles 0 (2 * nodes.length)
      ((nodes.filter (·.parent = none)).filterMap fun m => s.interval? m.id) := by
  obtain ⟨-, -, -, -, hall⟩ := encode_eq_ok h
  refine ⟨ends_perm h hsize, exists_visit h hsize, fun n hn => ?_, fun i hi j hj => ?_,
    tiles_forest h hsize⟩
  · obtain ⟨p, hn'⟩ := List.getElem?_of_mem hn
    obtain ⟨l, r, hmem, hget⟩ := hall p (List.getElem?_eq_some_iff.mp hn').1
    obtain ⟨hlr, hl, hr⟩ := numbers_lt h hsize hmem
    have hleft : (UInt32.ofNat l).toNat = l := UInt32.toNat_ofNat_of_lt' hl
    have hright : (UInt32.ofNat r).toNat = r := UInt32.toNat_ofNat_of_lt' hr
    refine ⟨_, (interval?_of_getElem? h hn').trans hget, ?_, ?_, ?_⟩
    · rw [UInt32.lt_iff_toNat_lt, hleft, hright]
      exact hlr
    · rw [hleft, hright]
      exact exists_below h hn' hmem
    · rw [hleft, hright]
      exact tiles_children h hsize hn' hmem
  · have hmem (i : Interval) (hi : i ∈ s.intervals) : ∃ p l r,
        (p, l, r) ∈ Tree.numberAll 0 (parents nodes).forest ∧ (l < 2 ^ 32 ∧ r < 2 ^ 32) ∧
          i = ⟨UInt32.ofNat l, UInt32.ofNat r⟩ := by
      obtain ⟨⟨p, l, r⟩, hmem, rfl⟩ := List.mem_map.mp ((intervals_perm h).mem_iff.mp hi)
      exact ⟨p, l, r, hmem, (numbers_lt h hsize hmem).2, rfl⟩
    obtain ⟨p, l, r, hp, ⟨hl, hr⟩, rfl⟩ := hmem i hi
    obtain ⟨q, l', r', hq, ⟨hl', hr'⟩, rfl⟩ := hmem j hj
    rw [isSubOf_ofNat hl hr hl' hr', isSubOf_ofNat hl' hr' hl hr, UInt32.lt_iff_toNat_lt,
      UInt32.lt_iff_toNat_lt, UInt32.toNat_ofNat_of_lt' hl, UInt32.toNat_ofNat_of_lt' hr,
      UInt32.toNat_ofNat_of_lt' hl', UInt32.toNat_ofNat_of_lt' hr']
    exact Tree.numberAll_laminar hp hq

/-- The children of `a` share its interval in the order in which they are declared, although a
grandchild stands between them. -/
theorem encode_brackets_forest_interleaved :
    let nodes : List HierarchyNode :=
      [⟨"a", none⟩, ⟨"b", some "a"⟩, ⟨"d", some "b"⟩, ⟨"z", none⟩, ⟨"c", some "a"⟩]
    let intervals : List Interval := [⟨0, 7⟩, ⟨1, 4⟩, ⟨2, 3⟩, ⟨8, 9⟩, ⟨5, 6⟩]
    encode nodes = .ok ⟨["a", "b", "d", "z", "c"], intervals⟩ ∧ nodes.length < 2 ^ 31 ∧
      Interval.Tiles 1 7 [⟨1, 4⟩, ⟨5, 6⟩] ∧ Interval.Tiles 0 10 [⟨0, 7⟩, ⟨8, 9⟩] := by
  intro nodes intervals
  have hencode : encode nodes = .ok ⟨["a", "b", "d", "z", "c"], intervals⟩ := by decide +kernel
  have hsize : nodes.length < 2 ^ 31 := by decide
  obtain ⟨-, -, hnodes, -, hroots⟩ := encode_brackets_forest hencode hsize
  obtain ⟨i, hi, -, -, htiles⟩ := hnodes ⟨"a", none⟩ List.mem_cons_self
  obtain rfl : (⟨0, 7⟩ : Interval) = i := Option.some.inj hi
  exact ⟨hencode, hsize, htiles, hroots⟩

end NestedSet

end AccessPolicy
