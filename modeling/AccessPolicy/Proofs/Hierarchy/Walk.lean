import AccessPolicy.Proofs.Hierarchy.NestedSet

/-!
# Walks — numbering a forest with one stack

The intervals of a forest also come out of a loop.  It keeps a stack of the nodes that it has
entered and not left, each with the number of its children that it has been to, and one counter: a
node takes a number when it is pushed and another when its children are used up.  Rounds of the loop
are related to the trees that are still to be numbered, and so the loop encodes what the trees
encode.
-/

namespace AccessPolicy

/-- A walk through a forest. -/
structure Walk where
  /-- The nodes that are open, innermost first, each with the number of its children entered. -/
  stack : List (Nat × Nat)
  /-- Which positions were entered. -/
  entered : List Bool
  /-- The intervals; an open node lacks its right end. -/
  intervals : List Interval
  counter : UInt32
deriving Repr

namespace Walk

/-- Nothing entered yet. -/
def start (size : Nat) : Walk := ⟨[], .replicate size false, .replicate size ⟨0, 0⟩, 0⟩

def onto (w : Walk) (stack : List (Nat × Nat)) : Walk := { w with stack }

def enter (w : Walk) (p : Nat) : Walk where
  stack := (p, 0) :: w.stack
  entered := w.entered.set p true
  intervals := w.intervals.modify p fun i => { i with left := w.counter }
  counter := w.counter + 1

def leave (w : Walk) (p : Nat) (rest : List (Nat × Nat)) : Walk where
  stack := rest
  entered := w.entered
  intervals := w.intervals.modify p fun i => { i with right := w.counter }
  counter := w.counter + 1

/-- One round: the innermost open node enters its next child, or is left if there is none.  A child
that was entered before is reported; a walk without open nodes stays as it is. -/
def step (links : ParentLinks) (w : Walk) : Except Nat Walk :=
  match w.stack with
  | [] => .ok w
  | (p, cursor) :: rest =>
    match (links.children p)[cursor]? with
    | some child =>
      if w.entered[child]? = some true then .error child
      else .ok ((w.onto ((p, cursor + 1) :: rest)).enter child)
    | none => .ok (w.leave p rest)

def steps (links : ParentLinks) : Nat → Walk → Except Nat Walk
  | 0, w => .ok w
  | n + 1, w => (step links w).bind (steps links n)

/-- Enter roots one after the other.  Every node takes two rounds, so twice the number of nodes is
enough for the tree of any root. -/
def visit (links : ParentLinks) : List Nat → Walk → Except Nat Walk
  | [], w => .ok w
  | r :: rest, w => (steps links (2 * links.length) (w.enter r)).bind (visit links rest)

end Walk

/-- Encode a forest by a walk from its roots. -/
def NestedSet.encodeByWalk (nodes : List HierarchyNode) : Except HierarchyError NestedSet :=
  match HierarchyNode.repeated? [] nodes with
  | some id => .error (.duplicateNode id)
  | none =>
    match HierarchyNode.orphan? nodes with
    | some (node, parent) => .error (.unknownParent node parent)
    | none =>
      let ids := HierarchyNode.ids nodes
      let links := HierarchyNode.parents nodes
      let circular (position : Nat) : Except HierarchyError NestedSet :=
        .error (.circular ((links.cycleFrom (nodes.length + 1) [] position).filterMap (ids[·]?)))
      match Walk.visit links links.roots (.start nodes.length) with
      | .error position => circular position
      | .ok w =>
        match w.entered.findIdx? (!·) with
        | some position => circular position
        | none => .ok ⟨ids, w.intervals⟩

/-! ## Trees that span the links -/

namespace Tree

def root : Tree → Nat
  | .node position _ => position

/-- Every node of the tree has all its children by the links. -/
inductive Spans (links : ParentLinks) : Tree → Prop where
  | node {p : Nat} {ts : List Tree} : links.children p = ts.map root →
    (∀ t ∈ ts, Spans links t) → Spans links (.node p ts)

theorem positionsAll_singleton (t : Tree) : positionsAll [t] = t.positions := by
  rw [positionsAll, positionsAll, List.append_nil]

theorem numberAll_singleton (start : Nat) (t : Tree) : numberAll start [t] = t.number start := by
  rw [numberAll, numberAll, List.append_nil]

theorem size_le_sizeAll {t : Tree} {ts : List Tree} (h : t ∈ ts) : t.size ≤ sizeAll ts := by
  induction ts with
  | nil => exact absurd h List.not_mem_nil
  | cons u us ih =>
    rw [sizeAll]
    rcases List.mem_cons.mp h with rfl | h
    · omega
    · have hle := ih h
      omega

theorem size_pos (t : Tree) : 0 < t.size := by
  cases t
  rw [size]
  omega

theorem root_mem_positions (t : Tree) : t.root ∈ t.positions := by
  cases t
  exact List.mem_cons_self

theorem root_ofLinks (links : ParentLinks) (d r : Nat) : (ofLinks links d r).root = r := by
  cases d <;> rfl

/-- A tree that is as deep as the chains that end in its root leaves nothing out. -/
theorem spans_ofLinks {links : ParentLinks} {d r : Nat}
    (h : ∀ k p, links.ancestor? k p = some r → k ≤ d) : Spans links (ofLinks links d r) := by
  have hstep {c : Nat} (hc : c ∈ links.children r) {k p : Nat}
      (hk : links.ancestor? k p = some c) : k + 1 ≤ d := by
    apply h (k + 1) p
    rw [ParentLinks.ancestor?_succ, hk, Option.bind_some, ParentLinks.mem_children.mp hc]
  induction d generalizing r with
  | zero =>
    refine .node (List.eq_nil_iff_forall_not_mem.mpr fun c hc => ?_) (by simp)
    have hle := hstep hc (k := 0) rfl
    omega
  | succ d ih =>
    refine .node ?_ fun t ht => ?_
    · rw [List.map_map]
      exact (List.map_id'' (fun c => root_ofLinks links d c) _).symm
    · obtain ⟨c, hc, rfl⟩ := List.mem_map.mp ht
      have hle (k p : Nat) (hk : links.ancestor? k p = some c) : k ≤ d := by
        have := hstep hc hk
        omega
      apply ih hle
      intro c' hc' k p hk
      apply hle (k + 1) p
      rw [ParentLinks.ancestor?_succ, hk, Option.bind_some, ParentLinks.mem_children.mp hc']

end Tree

namespace Walk

/-! ## What a walk leaves behind -/

/-- The positions marked as entered. -/
def enterAll (ps : List Nat) (entered : List Bool) : List Bool :=
  ps.foldl (fun entered p => entered.set p true) entered

/-- The numbers written into the intervals. -/
def setAll (numbers : List (Nat × Nat × Nat)) (intervals : List Interval) : List Interval :=
  numbers.foldl (fun intervals (p, l, r) =>
    intervals.set p ⟨UInt32.ofNat l, UInt32.ofNat r⟩) intervals

theorem getElem?_enterAll (ps : List Nat) (entered : List Bool) (q : Nat) :
    (enterAll ps entered)[q]? =
      if q ∈ ps then entered[q]?.map fun _ => true else entered[q]? := by
  induction ps generalizing entered with
  | nil => rfl
  | cons p ps ih =>
    show (enterAll ps (entered.set p true))[q]? = _
    rw [ih, List.getElem?_set]
    by_cases hq : q ∈ ps
    · rw [if_pos hq, if_pos (List.mem_cons_of_mem _ hq)]
      split
      · rename_i hpq
        subst hpq
        by_cases hp : p < entered.length <;> simp [hp]
      · rfl
    · rw [if_neg hq]
      by_cases hpq : p = q
      · subst hpq
        by_cases hp : p < entered.length <;> simp [hp]
      · rw [if_neg hpq, if_neg]
        rw [List.mem_cons, not_or]
        exact ⟨Ne.symm hpq, hq⟩

theorem getElem?_setAll {numbers : List (Nat × Nat × Nat)} (hnd : (numbers.map (·.1)).Nodup)
    (intervals : List Interval) (q : Nat) :
    (setAll numbers intervals)[q]? =
      intervals[q]?.map fun i => (NestedSet.intervalAt numbers q).getD i := by
  induction numbers generalizing intervals with
  | nil => simp [setAll, NestedSet.intervalAt]
  | cons n rest ih =>
    obtain ⟨p, l, r⟩ := n
    rw [List.map_cons, List.nodup_cons] at hnd
    show (setAll rest (intervals.set p ⟨UInt32.ofNat l, UInt32.ofNat r⟩))[q]? = _
    rw [ih hnd.2, List.getElem?_set]
    by_cases hpq : p = q
    · subst hpq
      -- the numbers that follow are of other positions
      have hnone : rest.lookup p = none := by
        rw [List.lookup_eq_none_iff]
        intro entry hentry
        exact bne_iff_ne.mpr fun he => hnd.1 (List.mem_map.mpr ⟨entry, hentry, he.symm⟩)
      rw [if_pos rfl, NestedSet.intervalAt, NestedSet.intervalAt, hnone, List.lookup_cons_self]
      by_cases hp : p < intervals.length <;> simp [hp]
    · have hbeq : (q == p) = false := beq_eq_false_iff_ne.mpr (Ne.symm hpq)
      rw [if_neg hpq, NestedSet.intervalAt, NestedSet.intervalAt, List.lookup_cons, hbeq]

/-- Numbers of other positions may be written before or after. -/
theorem modify_setAll {numbers : List (Nat × Nat × Nat)} {p : Nat}
    (hp : p ∉ numbers.map (·.1)) (f : Interval → Interval) (intervals : List Interval) :
    (setAll numbers intervals).modify p f = setAll numbers (intervals.modify p f) := by
  induction numbers generalizing intervals with
  | nil => rfl
  | cons n rest ih =>
    rw [List.map_cons, List.mem_cons, not_or] at hp
    show (setAll rest (intervals.set n.1 _)).modify p f =
      setAll rest ((intervals.modify p f).set n.1 _)
    rw [ih hp.2]
    congr 1
    apply List.ext_getElem?
    intro q
    rw [List.getElem?_modify, List.getElem?_set, List.getElem?_set, List.getElem?_modify,
      List.length_modify]
    by_cases hq : n.1 = q
    · have hpq : p ≠ q := by omega
      simp [hq, hpq]
    · simp [hq]

/-- Writing the two ends of an interval one after the other writes the interval. -/
theorem modify_modify_eq_set (intervals : List Interval) (p : Nat) (l r : UInt32) :
    (intervals.modify p fun i => { i with left := l }).modify p (fun i => { i with right := r }) =
      intervals.set p ⟨l, r⟩ := by
  apply List.ext_getElem?
  intro q
  rw [List.getElem?_modify, List.getElem?_modify, List.getElem?_set]
  by_cases hq : p = q
  · subst hq
    by_cases hp : p < intervals.length <;> simp [hp]
  · simp [hq]

variable {links : ParentLinks}

/-! ## Rounds -/

theorem steps_add (m n : Nat) (w : Walk) :
    steps links (m + n) w = (steps links m w).bind (steps links n) := by
  induction m generalizing w with
  | zero =>
    rw [Nat.zero_add]
    rfl
  | succ m ih =>
    rw [Nat.add_right_comm, steps, steps]
    cases step links w with
    | error e => rfl
    | ok w' => exact ih w'

theorem steps_of_stack_nil {w : Walk} (h : w.stack = []) (n : Nat) : steps links n w = .ok w := by
  have hstep : step links w = .ok w := by
    unfold step
    rw [h]
  induction n with
  | zero => rfl
  | succ n ih =>
    rw [steps, hstep]
    exact ih

theorem step_child {w : Walk} {p cursor child : Nat} {rest : List (Nat × Nat)}
    (hstack : w.stack = (p, cursor) :: rest) (hchild : (links.children p)[cursor]? = some child)
    (hnew : w.entered[child]? ≠ some true) :
    step links w = .ok ((w.onto ((p, cursor + 1) :: rest)).enter child) := by
  unfold step
  rw [hstack]
  dsimp only
  rw [hchild]
  dsimp only
  rw [if_neg hnew]

theorem step_leave {w : Walk} {p cursor : Nat} {rest : List (Nat × Nat)}
    (hstack : w.stack = (p, cursor) :: rest) (hnone : (links.children p)[cursor]? = none) :
    step links w = .ok (w.leave p rest) := by
  unfold step
  rw [hstack]
  dsimp only
  rw [hnone]

/-! ## Trees -/

/-- The walk after some trees were numbered from `start` on. -/
def past (w : Walk) (start : Nat) (ts : List Tree) : Walk where
  stack := w.stack
  entered := enterAll (Tree.positionsAll ts) w.entered
  intervals := setAll (Tree.numberAll start ts) w.intervals
  counter := UInt32.ofNat (start + 2 * Tree.sizeAll ts)

theorem onto_stack {w : Walk} {stack : List (Nat × Nat)} (h : w.stack = stack) :
    w.onto stack = w := by
  subst h
  rfl

theorem past_nil {w : Walk} {start : Nat} (h : w.counter = UInt32.ofNat start) :
    w.past start [] = w := by
  rw [past, Tree.sizeAll, Nat.mul_zero, Nat.add_zero, ← h]
  rfl

theorem past_cons (w : Walk) (start : Nat) (t : Tree) (ts : List Tree) :
    w.past start (t :: ts) = (w.past start [t]).past (start + 2 * t.size) ts := by
  have hsize : start + 2 * t.size + 2 * Tree.sizeAll ts = start + 2 * Tree.sizeAll (t :: ts) := by
    rw [Tree.sizeAll]
    omega
  rw [past, past, past, Tree.positionsAll_singleton, Tree.numberAll_singleton, hsize,
    Tree.positionsAll, Tree.numberAll]
  simp only [enterAll, setAll, List.foldl_append]

theorem counter_past_singleton (w : Walk) (start : Nat) (t : Tree) :
    (w.past start [t]).counter = UInt32.ofNat (start + 2 * t.size) := by
  rw [past, Tree.sizeAll, Tree.sizeAll, Nat.add_zero]

/-- A node is left when its children were numbered. -/
theorem leave_past {w : Walk} {start p : Nat} {ts : List Tree} (hp : p ∉ Tree.positionsAll ts)
    (hcounter : w.counter = UInt32.ofNat start) (stack : List (Nat × Nat)) :
    (((w.enter p).past (start + 1) ts).onto stack).leave p w.stack =
      w.past start [.node p ts] := by
  have hright : start + 1 + 2 * Tree.sizeAll ts = start + 2 * Tree.sizeAll ts + 1 := by omega
  have hnext : start + 2 * Tree.sizeAll [.node p ts] = start + 2 * Tree.sizeAll ts + 1 + 1 := by
    rw [Tree.sizeAll, Tree.sizeAll, Tree.size]
    omega
  rw [← Tree.map_fst_numberAll (start + 1)] at hp
  rw [past, past, Tree.positionsAll_singleton, Tree.numberAll_singleton, Tree.positions,
    Tree.number, hnext, hright, leave, Walk.mk.injEq]
  refine ⟨rfl, rfl, ?_, ?_⟩
  · -- the right end is written last, but no other node writes to this interval
    show (setAll _ (w.intervals.modify p fun i => { i with left := w.counter })).modify p _ = _
    rw [modify_setAll hp, modify_modify_eq_set, hcounter]
    rfl
  · exact (UInt32.ofNat_add _ 1).symm

/-- None of the positions was entered. -/
def Avoids (w : Walk) (ps : List Nat) : Prop := ∀ q ∈ ps, w.entered[q]? ≠ some true

theorem Avoids.enter {w : Walk} {ps : List Nat} {p : Nat} (h : w.Avoids ps) (hp : p ∉ ps) :
    (w.enter p).Avoids ps := by
  intro q hq
  have hpq : p ≠ q := by
    rintro rfl
    exact hp hq
  show (w.entered.set p true)[q]? ≠ some true
  rw [List.getElem?_set_ne hpq]
  exact h q hq

theorem Avoids.past {w : Walk} {ps : List Nat} (h : w.Avoids ps) (start : Nat) {ts : List Tree}
    (hdisj : List.Disjoint (Tree.positionsAll ts) ps) : (w.past start ts).Avoids ps := by
  intro q hq
  show (enterAll (Tree.positionsAll ts) w.entered)[q]? ≠ some true
  rw [getElem?_enterAll, if_neg fun hmem => hdisj hmem hq]
  exact h q hq

mutual

/-- After a node was entered, its tree takes two rounds for each node less the one of entering. -/
theorem steps_tree {start : Nat} : ∀ {t : Tree} {w : Walk}, t.Spans links → t.positions.Nodup →
    w.Avoids t.positions → w.counter = UInt32.ofNat start →
    steps links (2 * t.size - 1) (w.enter t.root) = .ok (w.past start [t])
  | .node p ts, w, hspans, hnd, hnew, hcounter => by
    cases hspans with | node hchildren hspans =>
    rw [Tree.positions, List.nodup_cons] at hnd
    have hbelow : (w.enter p).Avoids (Tree.positionsAll ts) :=
      Avoids.enter (List.forall_mem_cons.mp hnew).2 hnd.1
    have hstart : (w.enter p).counter = UInt32.ofNat (start + 1) := by
      show w.counter + 1 = _
      rw [hcounter]
      exact (UInt32.ofNat_add _ 1).symm
    have hrun : steps links (2 * Tree.sizeAll ts) (w.enter p) =
        .ok (((w.enter p).past (start + 1) ts).onto ((p, 0 + ts.length) :: w.stack)) :=
      steps_children rfl hchildren hspans hnd.2 hbelow hstart
    have hrounds : 2 * (Tree.node p ts).size - 1 = 2 * Tree.sizeAll ts + 1 := by
      rw [Tree.size]
      omega
    have hleft : (links.children p)[0 + ts.length]? = none := by
      rw [hchildren, Nat.zero_add]
      exact List.getElem?_eq_none (Nat.le_of_eq (List.length_map _))
    rw [hrounds, steps_add, Tree.root, hrun]
    show (step links _).bind (steps links 0) = _
    rw [step_leave rfl hleft, leave_past hnd.1 hcounter]
    rfl

/-- Two rounds for each node number the trees of the children that are left. -/
theorem steps_children {start p k : Nat} {rest : List (Nat × Nat)} :
    ∀ {ts : List Tree} {w : Walk}, w.stack = (p, k) :: rest →
    (links.children p).drop k = ts.map Tree.root → (∀ t ∈ ts, t.Spans links) →
    (Tree.positionsAll ts).Nodup → w.Avoids (Tree.positionsAll ts) →
    w.counter = UInt32.ofNat start →
    steps links (2 * Tree.sizeAll ts) w =
      .ok ((w.past start ts).onto ((p, k + ts.length) :: rest))
  | [], w, hstack, _, _, _, _, hcounter => by
    rw [past_nil hcounter, List.length_nil, Nat.add_zero, onto_stack hstack]
    rfl
  | t :: ts, w, hstack, hchildren, hspans, hnd, hnew, hcounter => by
    rw [Tree.positionsAll] at hnd hnew
    rw [List.nodup_append'] at hnd
    obtain ⟨hndt, hndts, hdisj⟩ := hnd
    obtain ⟨hnewt, hnewts⟩ := List.forall_mem_append.mp hnew
    have hchild : (links.children p)[k]? = some t.root := by
      have hget : ((links.children p).drop k)[0]? = some t.root := by rw [hchildren]; rfl
      rwa [List.getElem?_drop, Nat.add_zero] at hget
    have hothers : (links.children p).drop (k + 1) = ts.map Tree.root := by
      rw [← List.tail_drop, hchildren]
      rfl
    have hrounds : 2 * Tree.sizeAll (t :: ts) = (2 * t.size - 1 + 2 * Tree.sizeAll ts) + 1 := by
      have hpos := t.size_pos
      rw [Tree.sizeAll]
      omega
    -- one round enters the child, its tree is numbered, and then the ones that follow
    have hfirst := steps_tree (w := w.onto ((p, k + 1) :: rest)) (hspans t List.mem_cons_self) hndt
      hnewt hcounter
    have hthen : steps links (2 * Tree.sizeAll ts)
        ((w.onto ((p, k + 1) :: rest)).past start [t]) =
          .ok ((((w.onto ((p, k + 1) :: rest)).past start [t]).past (start + 2 * t.size) ts).onto
            ((p, k + 1 + ts.length) :: rest)) := by
      apply steps_children rfl hothers (fun u hu => hspans u (List.mem_cons_of_mem _ hu)) hndts
      · exact Avoids.past hnewts start (by rwa [Tree.positionsAll_singleton])
      · exact counter_past_singleton _ start t
    rw [hrounds, steps, step_child hstack hchild (hnewt _ t.root_mem_positions)]
    show steps links _ _ = _
    rw [steps_add, hfirst]
    refine hthen.trans ?_
    rw [← past_cons, List.length_cons, Nat.add_right_comm, Nat.add_assoc]
    rfl

end

/-! ## Forests -/

/-- The walk has no open node and is about to number the trees, counting from `start`. -/
structure Ready (links : ParentLinks) (w : Walk) (start : Nat) (ts : List Tree) : Prop where
  stack : w.stack = []
  spans : ∀ t ∈ ts, t.Spans links
  nodup : (Tree.positionsAll ts).Nodup
  avoids : w.Avoids (Tree.positionsAll ts)
  counter : w.counter = UInt32.ofNat start

/-- The first tree is numbered in the rounds that it takes. -/
theorem Ready.first {start : Nat} {w : Walk} {t : Tree} {ts : List Tree}
    (h : Ready links w start (t :: ts)) :
    steps links (2 * t.size - 1) (w.enter t.root) = .ok (w.past start [t]) := by
  have hnd := h.nodup
  have hnew := h.avoids
  rw [Tree.positionsAll] at hnd hnew
  exact steps_tree (h.spans t List.mem_cons_self) (List.nodup_append'.mp hnd).1
    (List.forall_mem_append.mp hnew).1 h.counter

/-- After the first tree, the walk is about to number the others. -/
theorem Ready.rest {start : Nat} {w : Walk} {t : Tree} {ts : List Tree}
    (h : Ready links w start (t :: ts)) :
    Ready links (w.past start [t]) (start + 2 * t.size) ts := by
  have hnd := h.nodup
  have hnew := h.avoids
  rw [Tree.positionsAll] at hnd hnew
  obtain ⟨-, hndts, hdisj⟩ := List.nodup_append'.mp hnd
  exact {
    stack := h.stack
    spans := fun u hu => h.spans u (List.mem_cons_of_mem _ hu)
    nodup := hndts
    avoids := Avoids.past (List.forall_mem_append.mp hnew).2 start
      (by rwa [Tree.positionsAll_singleton])
    counter := counter_past_singleton w start t }

/-- Roots are entered one after the other, each when the tree of the one before is numbered. -/
theorem visit_trees {start : Nat} {ts : List Tree} {w : Walk} (h : Ready links w start ts)
    (hsize : ∀ t ∈ ts, t.size ≤ links.length) :
    visit links (ts.map Tree.root) w = .ok (w.past start ts) := by
  induction ts generalizing w start with
  | nil =>
    rw [past_nil h.counter]
    rfl
  | cons t ts ih =>
    rw [List.forall_mem_cons] at hsize
    have hrounds : 2 * links.length = 2 * t.size - 1 + (2 * (links.length - t.size) + 1) := by
      have hpos := t.size_pos
      omega
    rw [List.map_cons, visit, hrounds, steps_add, h.first]
    -- the rounds that are left find no open node
    show (steps links _ (w.past start [t])).bind _ = _
    rw [steps_of_stack_nil h.rest.stack]
    refine (ih h.rest hsize.2).trans ?_
    rw [← past_cons]

theorem roots_eq_map_root (links : ParentLinks) : links.roots = links.forest.map Tree.root := by
  rw [ParentLinks.forest, List.map_map]
  exact (List.map_id'' (fun r => Tree.root_ofLinks links links.length r) _).symm

theorem spans_forest {t : Tree} (ht : t ∈ links.forest) : t.Spans links := by
  obtain ⟨r, hr, rfl⟩ := List.mem_map.mp ht
  apply Tree.spans_ofLinks
  intro k p hk
  exact Nat.le_of_lt
    (ParentLinks.Grounded.distance_lt_length ⟨k, r, hk, ParentLinks.mem_roots.mp hr⟩ hk)

/-- A new walk is about to number the forest. -/
theorem ready_start (links : ParentLinks) : Ready links (start links.length) 0 links.forest where
  stack := rfl
  spans _ := spans_forest
  nodup := links.forest_nodup
  avoids q _ hq := by
    obtain ⟨-, hq⟩ := List.mem_replicate.mp (List.mem_of_getElem? hq)
    exact absurd hq (by decide)
  counter := rfl

/-- The walk from the roots numbers the forest. -/
theorem visit_roots (links : ParentLinks) : visit links links.roots (start links.length) =
    .ok ((start links.length).past 0 links.forest) := by
  have hsize : ∀ t ∈ links.forest, t.size ≤ links.length := fun t ht =>
    Nat.le_trans (Tree.size_le_sizeAll ht) (ParentLinks.sizeAll_forest_le links)
  rw [roots_eq_map_root]
  exact visit_trees (ready_start links) hsize

end Walk

namespace NestedSet

variable {links : ParentLinks}

theorem lookup_numbering_eq_none {p : Nat} :
    (numbering links).lookup p = none ↔ p ∉ Tree.positionsAll links.forest := by
  rw [← Tree.map_fst_numberAll 0, List.lookup_eq_none_iff]
  constructor
  · intro h hmem
    obtain ⟨entry, hentry, rfl⟩ := List.mem_map.mp hmem
    exact bne_iff_ne.mp (h entry hentry) rfl
  · intro h entry hentry
    exact bne_iff_ne.mpr fun he => h (List.mem_map.mpr ⟨entry, hentry, he.symm⟩)

theorem findIdx?_range (n : Nat) (f : Nat → Bool) :
    (List.range n).findIdx? f = (List.range n).find? f := by
  ext i
  rw [List.findIdx?_eq_some_iff_getElem, List.find?_range_eq_some]
  simp only [List.getElem_range, List.length_range, List.mem_range, exists_prop,
    Bool.not_eq_eq_eq_not, Bool.not_true, Bool.not_eq_true]
  exact and_left_comm

/-- The first position that was not entered is the first without numbers. -/
theorem findIdx?_entered (links : ParentLinks) :
    (Walk.enterAll (Tree.positionsAll links.forest) (.replicate links.length false)).findIdx? (!·) =
      (List.range links.length).find? fun p => ((numbering links).lookup p).isNone := by
  have hentered : Walk.enterAll (Tree.positionsAll links.forest) (.replicate links.length false) =
      (List.range links.length).map fun p => !((numbering links).lookup p).isNone := by
    apply List.ext_getElem?
    intro q
    rw [Walk.getElem?_enterAll, List.getElem?_map]
    by_cases hq : q < links.length
    · rw [List.getElem?_replicate_of_lt hq, List.getElem?_range hq]
      cases hlookup : (numbering links).lookup q with
      | none =>
        rw [if_neg (lookup_numbering_eq_none.mp hlookup), Option.map_some, hlookup]
        rfl
      | some _ =>
        have hmem : q ∈ Tree.positionsAll links.forest := by
          by_contra hmem
          rw [lookup_numbering_eq_none.mpr hmem] at hlookup
          cases hlookup
        rw [if_pos hmem, Option.map_some, Option.map_some, hlookup]
        rfl
    · have hnone : (List.replicate links.length false)[q]? = none := by simp; omega
      have hnone' : (List.range links.length)[q]? = none := by simp; omega
      rw [hnone, hnone']
      split <;> rfl
  rw [hentered, List.findIdx?_map, ← findIdx?_range]
  congr 1
  funext p
  exact Bool.not_not _

/-- Where no position is without numbers, the walk has written the interval of each. -/
theorem setAll_numberAll (links : ParentLinks)
    (h : ∀ p < links.length, p ∈ Tree.positionsAll links.forest) :
    Walk.setAll (Tree.numberAll 0 links.forest) (.replicate links.length ⟨0, 0⟩) =
      (List.range links.length).filterMap (intervalAt (numbering links)) := by
  have hall : (List.range links.length).filterMap (intervalAt (numbering links)) =
      (List.range links.length).map fun p => (intervalAt (numbering links) p).getD ⟨0, 0⟩ := by
    rw [List.filterMap_eq_map_iff_forall_eq_some]
    intro p hp
    have hmem := h p (List.mem_range.mp hp)
    cases hlookup : (numbering links).lookup p with
    | none => exact absurd hmem (lookup_numbering_eq_none.mp hlookup)
    | some _ =>
      rw [intervalAt, hlookup]
      rfl
  have hnd : ((Tree.numberAll 0 links.forest).map (·.1)).Nodup := by
    rw [Tree.map_fst_numberAll]
    exact links.forest_nodup
  rw [hall]
  apply List.ext_getElem?
  intro q
  rw [Walk.getElem?_setAll hnd, List.getElem?_map]
  by_cases hq : q < links.length
  · rw [List.getElem?_replicate_of_lt hq, List.getElem?_range hq]
    rfl
  · have hnone : (List.replicate links.length (⟨0, 0⟩ : Interval))[q]? = none := by simp; omega
    have hnone' : (List.range links.length)[q]? = none := by simp; omega
    rw [hnone, hnone']
    rfl

/-- A walk with a stack encodes what the trees encode, and refuses what they refuse. -/
theorem encodeByWalk_eq_encode (nodes : List HierarchyNode) :
    encodeByWalk nodes = encode nodes := by
  have hvisit := Walk.visit_roots (HierarchyNode.parents nodes)
  have hentered := findIdx?_entered (HierarchyNode.parents nodes)
  have hintervals := setAll_numberAll (HierarchyNode.parents nodes)
  rw [HierarchyNode.length_parents] at hvisit hentered hintervals
  unfold encodeByWalk encode
  cases HierarchyNode.repeated? [] nodes with
  | some id => rfl
  | none =>
    cases HierarchyNode.orphan? nodes with
    | some orphan => rfl
    | none =>
      dsimp only
      rw [hvisit]
      show (match (Walk.enterAll _ (.replicate nodes.length false)).findIdx? (!·) with
        | some position => _
        | none => Except.ok (NestedSet.mk _ (Walk.setAll _ (.replicate nodes.length ⟨0, 0⟩)))) = _
      rw [hentered]
      cases hfind : (List.range nodes.length).find? fun p =>
          ((numbering (HierarchyNode.parents nodes)).lookup p).isNone with
      | some position => rfl
      | none =>
        dsimp only
        rw [hintervals]
        intro p hp
        have hsome := List.find?_eq_none.mp hfind p (List.mem_range.mpr hp)
        by_contra hmem
        rw [lookup_numbering_eq_none.mpr hmem] at hsome
        exact hsome rfl

end NestedSet

end AccessPolicy
