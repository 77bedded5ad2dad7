import AccessPolicy.Proofs.Hierarchy.Numbering

/-!
# Links — chains of parents and the trees they span

A position is grounded when its chain of parents ends in a root.  Chains of grounded positions have
no repetition, so the trees below the roots hold every grounded position exactly once.
-/

namespace AccessPolicy.ParentLinks

variable {links : ParentLinks}

/-! ## Chains -/

/-- The position that is `k` links above another. -/
def ancestor? (links : ParentLinks) : Nat → Nat → Option Nat
  | 0, p => some p
  | k + 1, p => (links.parent? p).bind (links.ancestor? k)

@[simp] theorem ancestor?_zero (p : Nat) : links.ancestor? 0 p = some p := rfl

theorem ancestor?_add (i j p : Nat) :
    links.ancestor? (i + j) p = (links.ancestor? i p).bind (links.ancestor? j) := by
  induction i generalizing p with
  | zero => simp
  | succ i ih =>
    rw [Nat.add_right_comm, ancestor?, ancestor?, Option.bind_assoc]
    exact congrArg _ (funext ih)

theorem ancestor?_succ (k p : Nat) :
    links.ancestor? (k + 1) p = (links.ancestor? k p).bind links.parent? := by
  rw [ancestor?_add]
  congr 1
  funext q
  simp [ancestor?]

theorem ancestor?_trans {i j p q r : Nat} (h : links.ancestor? i p = some q)
    (h' : links.ancestor? j q = some r) : links.ancestor? (i + j) p = some r := by
  rw [ancestor?_add, h, Option.bind_some, h']

theorem parent?_eq_some_iff {p q : Nat} :
    links.parent? p = some q ↔ links[p]? = some (some q) := by
  rw [parent?, Option.join_eq_some_iff]

theorem mem_withParent {p : Nat} {q : Option Nat} :
    p ∈ links.withParent q ↔ links[p]? = some q := by
  simp [withParent, List.mem_zipIdx_iff_getElem?]

theorem mem_children {c p : Nat} : c ∈ links.children p ↔ links.parent? c = some p := by
  rw [children, mem_withParent, parent?_eq_some_iff]

theorem withParent_nodup (q : Option Nat) : (links.withParent q).Nodup := by
  -- the positions are picked from the indices in order, none of them twice
  have h : (links.withParent q).Sublist (List.range links.length) := by
    have hsub : (links.zipIdx.filter (·.1 == q)).Sublist links.zipIdx := List.filter_sublist
    have hmap := hsub.map (·.2)
    rwa [List.zipIdx_map_snd, ← List.range_eq_range'] at hmap
  exact h.nodup List.nodup_range

/-! ## Roots -/

/-- A declared position without a parent. -/
def IsRoot (links : ParentLinks) (p : Nat) : Prop := links[p]? = some none

theorem mem_roots {p : Nat} : p ∈ links.roots ↔ links.IsRoot p := mem_withParent

theorem IsRoot.ancestor?_succ {r : Nat} (h : links.IsRoot r) (k : Nat) :
    links.ancestor? (k + 1) r = none := by
  have hp : links.parent? r = none := by
    unfold IsRoot at h
    rw [parent?, h]
    rfl
  rw [ancestor?, hp, Option.bind_none]

/-- Nothing is further up than the root. -/
theorem IsRoot.height_le {r i j p q : Nat} (h : links.IsRoot r)
    (hi : links.ancestor? i p = some r) (hj : links.ancestor? j p = some q) : j ≤ i := by
  by_contra hlt
  -- going further up would be a step above the root
  obtain ⟨k, rfl⟩ : ∃ k, j = i + (k + 1) := ⟨j - i - 1, by omega⟩
  rw [ancestor?_add, hi, Option.bind_some, h.ancestor?_succ] at hj
  exact absurd hj (by simp)

theorem IsRoot.height_unique {r s i j p : Nat} (hr : links.IsRoot r) (hs : links.IsRoot s)
    (hi : links.ancestor? i p = some r) (hj : links.ancestor? j p = some s) : i = j :=
  Nat.le_antisymm (hs.height_le hj hi) (hr.height_le hi hj)

/-- The chain of parents ends in a root. -/
def Grounded (links : ParentLinks) (p : Nat) : Prop :=
  ∃ k r, links.ancestor? k p = some r ∧ links.IsRoot r

theorem IsRoot.grounded {r : Nat} (h : links.IsRoot r) : links.Grounded r := ⟨0, r, rfl, h⟩

theorem Grounded.of_ancestor? {k p q : Nat} (hq : links.Grounded q)
    (h : links.ancestor? k p = some q) : links.Grounded p := by
  obtain ⟨j, r, hj, hr⟩ := hq
  exact ⟨k + j, r, ancestor?_trans h hj, hr⟩

/-- The distance between two positions on one chain is fixed. -/
theorem Grounded.distance_unique {i j p q : Nat} (hq : links.Grounded q)
    (hi : links.ancestor? i p = some q) (hj : links.ancestor? j p = some q) : i = j := by
  obtain ⟨k, r, hk, hr⟩ := hq
  -- both ways lead on to the same root, which has one height over `p`
  have h := hr.height_unique hr (ancestor?_trans hi hk) (ancestor?_trans hj hk)
  omega

theorem Grounded.no_cycle {k p : Nat} (hp : links.Grounded p)
    (h : links.ancestor? (k + 1) p = some p) : False := by
  have h' := hp.distance_unique h (ancestor?_zero p)
  omega

/-! ## Trees -/

open AccessPolicy.Tree

theorem mem_positions_ofLinks {d p r : Nat} :
    p ∈ (ofLinks links d r).positions ↔ ∃ k ≤ d, links.ancestor? k p = some r := by
  -- the induction peels chains at their upper end, where the tree has its root
  induction d generalizing r with
  | zero => simp [ofLinks, positions, positionsAll]
  | succ d ih =>
    rw [ofLinks, positions, List.mem_cons, positionsAll_map, List.mem_flatMap]
    constructor
    · rintro (rfl | ⟨c, hc, hp⟩)
      · exact ⟨0, Nat.zero_le _, rfl⟩
      · obtain ⟨k, hk, h⟩ := ih.mp hp
        refine ⟨k + 1, by omega, ?_⟩
        rw [ancestor?_succ, h, Option.bind_some, mem_children.mp hc]
    · rintro ⟨k, hk, h⟩
      cases k with
      | zero => exact .inl (by simpa using h)
      | succ k =>
        rw [ancestor?_succ, Option.bind_eq_some_iff] at h
        obtain ⟨c, hc, hr⟩ := h
        exact .inr ⟨c, mem_children.mpr hr, ih.mpr ⟨k, by omega, hc⟩⟩

theorem positions_ofLinks_nodup (d : Nat) {r : Nat} (hr : links.Grounded r) :
    (ofLinks links d r).positions.Nodup := by
  induction d generalizing r with
  | zero => simp [ofLinks, positions, positionsAll]
  | succ d ih =>
    have hstep {c : Nat} (hc : c ∈ links.children r) : links.ancestor? 1 c = some r := by
      rw [ancestor?_succ, ancestor?_zero, Option.bind_some, mem_children.mp hc]
    rw [ofLinks, positions, positionsAll_map, List.nodup_cons, List.nodup_flatMap]
    refine ⟨fun hmem => ?_, fun c hc => ih (hr.of_ancestor? (hstep hc)), ?_⟩
    · -- the root would lie above itself
      obtain ⟨c, hc, hp⟩ := List.mem_flatMap.mp hmem
      obtain ⟨k, -, hk⟩ := mem_positions_ofLinks.mp hp
      exact hr.no_cycle (ancestor?_trans hk (hstep hc))
    · -- at one distance below the root a position has one child of the root above it
      refine (withParent_nodup (some r)).pairwise_of_forall_ne fun c hc c' hc' hne => ?_
      intro p hp hp'
      obtain ⟨k, -, hk⟩ := mem_positions_ofLinks.mp hp
      obtain ⟨k', -, hk'⟩ := mem_positions_ofLinks.mp hp'
      have he := hr.distance_unique (ancestor?_trans hk (hstep hc))
        (ancestor?_trans hk' (hstep hc'))
      obtain rfl : k = k' := by omega
      exact hne (Option.some.inj (hk.symm.trans hk'))

theorem below_ofLinks_of_ancestor? {k j d a b r : Nat} (hab : links.ancestor? k a = some b)
    (hbr : links.ancestor? j b = some r) (hd : k + j ≤ d) : Below (ofLinks links d r) a b := by
  induction j generalizing d r with
  | zero =>
    obtain rfl : b = r := by simpa using hbr
    have hmem : a ∈ (ofLinks links d b).positions := mem_positions_ofLinks.mpr ⟨k, hd, hab⟩
    cases d with
    | zero => exact .top hmem
    | succ d => exact .top hmem
  | succ j ih =>
    -- the chain from `b` enters the tree through the child `c` of the root
    rw [ancestor?_succ, Option.bind_eq_some_iff] at hbr
    obtain ⟨c, hc, hr⟩ := hbr
    obtain ⟨d, rfl⟩ : ∃ e, d = e + 1 := ⟨d - 1, by omega⟩
    exact .inside (List.mem_map_of_mem (mem_children.mpr hr)) (ih hc (by omega))

theorem ancestor?_of_below_ofLinks {d a b r : Nat} (h : Below (ofLinks links d r) a b) :
    ∃ k, links.ancestor? k a = some b := by
  induction d generalizing r with
  | zero =>
    rw [ofLinks] at h
    cases h with
    | top ha => exact ⟨0, by simpa [positions, positionsAll] using ha⟩
    | inside ht => simp at ht
  | succ d ih =>
    rw [ofLinks] at h
    cases h with
    | top ha =>
      obtain ⟨k, -, hk⟩ := mem_positions_ofLinks (d := d + 1).mp (by rw [ofLinks]; exact ha)
      exact ⟨k, hk⟩
    | inside ht h =>
      obtain ⟨c, -, rfl⟩ := List.mem_map.mp ht
      exact ih h

/-! ## The forest -/

/-- The trees of all roots. -/
def forest (links : ParentLinks) : List Tree := links.roots.map (ofLinks links links.length)

theorem mem_positionsAll_forest {p : Nat} : p ∈ positionsAll links.forest ↔
    ∃ k ≤ links.length, ∃ r, links.ancestor? k p = some r ∧ links.IsRoot r := by
  rw [forest, positionsAll_map, List.mem_flatMap]
  constructor
  · rintro ⟨r, hr, hp⟩
    obtain ⟨k, hk, h⟩ := mem_positions_ofLinks.mp hp
    exact ⟨k, hk, r, h, mem_roots.mp hr⟩
  · rintro ⟨k, hk, r, h, hr⟩
    exact ⟨r, mem_roots.mpr hr, mem_positions_ofLinks.mpr ⟨k, hk, h⟩⟩

theorem forest_nodup (links : ParentLinks) : (positionsAll links.forest).Nodup := by
  rw [forest, positionsAll_map, List.nodup_flatMap]
  refine ⟨fun r hr => positions_ofLinks_nodup _ (mem_roots.mp hr).grounded, ?_⟩
  refine (withParent_nodup none).pairwise_of_forall_ne fun r hr s hs hne => ?_
  intro p hp hp'
  obtain ⟨k, -, hk⟩ := mem_positions_ofLinks.mp hp
  obtain ⟨k', -, hk'⟩ := mem_positions_ofLinks.mp hp'
  obtain rfl := (mem_roots.mp hr).height_unique (mem_roots.mp hs) hk hk'
  exact hne (Option.some.inj (hk.symm.trans hk'))

/-- In the numbering of the forest, intervals are nested exactly along the chains. -/
theorem numbering_nested_iff {a la ra b lb rb : Nat}
    (ha : (a, la, ra) ∈ numberAll 0 links.forest) (hb : (b, lb, rb) ∈ numberAll 0 links.forest) :
    lb ≤ la ∧ ra ≤ rb ↔ ∃ k, links.ancestor? k a = some b := by
  rw [numberAll_nested_iff links.forest_nodup ha hb]
  constructor
  · rintro ⟨t, ht, h⟩
    obtain ⟨r, -, rfl⟩ := List.mem_map.mp ht
    exact ancestor?_of_below_ofLinks h
  · rintro ⟨k, hk⟩
    obtain ⟨i, hi, s, his, hs⟩ := mem_positionsAll_forest.mp (mem_positions_of_numberAll ha)
    obtain ⟨j, -, r, hj, hr⟩ := mem_positionsAll_forest.mp (mem_positions_of_numberAll hb)
    -- the chain from `a` through `b` is the chain that put `a` into the forest
    have he := hr.height_unique hs (ancestor?_trans hk hj) his
    exact ⟨_, List.mem_map_of_mem (mem_roots.mpr hr),
      below_ofLinks_of_ancestor? hk hj (by omega)⟩

end AccessPolicy.ParentLinks
