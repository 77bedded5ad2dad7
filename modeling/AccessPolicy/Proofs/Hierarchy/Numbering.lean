import AccessPolicy.Hierarchy.Tree
import Mathlib.Data.List.Nodup

/-!
# Numbering — the intervals of a tree are nested as its nodes are

One counter runs through a tree.  The interval of a node encloses the intervals of the nodes below
it and no others, provided that no position occurs twice.
-/

namespace AccessPolicy.Tree

/-! ## Positions -/

mutual

/-- The positions of a tree, each before the ones below it. -/
def positions : Tree → List Nat
  | .node position children => position :: positionsAll children

def positionsAll : List Tree → List Nat
  | [] => []
  | t :: ts => positions t ++ positionsAll ts

end

mutual

theorem length_positions : ∀ t : Tree, t.positions.length = t.size
  | .node _ children => by
    rw [positions, size, List.length_cons, length_positionsAll children, Nat.add_comm]

theorem length_positionsAll : ∀ ts : List Tree, (positionsAll ts).length = sizeAll ts
  | [] => rfl
  | t :: ts => by
    rw [positionsAll, sizeAll, List.length_append, length_positions t, length_positionsAll ts]

end

theorem mem_positionsAll {p : Nat} {ts : List Tree} :
    p ∈ positionsAll ts ↔ ∃ t ∈ ts, p ∈ t.positions := by
  induction ts with
  | nil => simp [positionsAll]
  | cons t ts ih => simp [positionsAll, ih]

theorem positionsAll_map {α : Type} (f : α → Tree) (xs : List α) :
    positionsAll (xs.map f) = xs.flatMap fun x => (f x).positions := by
  induction xs with
  | nil => rfl
  | cons x xs ih => rw [List.map_cons, positionsAll, ih, List.flatMap_cons]

mutual

theorem map_fst_number (start : Nat) : ∀ t : Tree, (number start t).map (·.1) = t.positions
  | .node _ children => by
    rw [number, positions, List.map_cons, map_fst_numberAll (start + 1) children]

theorem map_fst_numberAll (start : Nat) :
    ∀ ts : List Tree, (numberAll start ts).map (·.1) = positionsAll ts
  | [] => rfl
  | t :: ts => by
    rw [numberAll, positionsAll, List.map_append, map_fst_number start t,
      map_fst_numberAll (start + 2 * t.size) ts]

end

theorem mem_positions_of_number {start p : Nat} {i : Nat × Nat} {t : Tree}
    (h : (p, i) ∈ number start t) : p ∈ t.positions := by
  rw [← map_fst_number start t]
  exact List.mem_map_of_mem (f := (·.1)) h

theorem mem_positions_of_numberAll {start p : Nat} {i : Nat × Nat} {ts : List Tree}
    (h : (p, i) ∈ numberAll start ts) : p ∈ positionsAll ts := by
  rw [← map_fst_numberAll start ts]
  exact List.mem_map_of_mem (f := (·.1)) h

/-! ## Bounds -/

mutual

/-- The numbers of a tree are the ones that the counter passes. -/
theorem number_bounds {p l r : Nat} : ∀ {start : Nat} {t : Tree}, (p, l, r) ∈ number start t →
    start ≤ l ∧ l < r ∧ r < start + 2 * t.size
  | start, .node q children, h => by
    rw [number, List.mem_cons] at h
    rw [size]
    rcases h with h | h
    · obtain ⟨-, rfl, rfl⟩ : p = q ∧ l = start ∧ r = start + 2 * sizeAll children + 1 := by
        simpa using h
      omega
    · -- the root takes the first and the last number, its children those between
      have hb := numberAll_bounds h
      omega

theorem numberAll_bounds {p l r : Nat} : ∀ {start : Nat} {ts : List Tree},
    (p, l, r) ∈ numberAll start ts → start ≤ l ∧ l < r ∧ r < start + 2 * sizeAll ts
  | _, [], h => by simp [numberAll] at h
  | start, t :: ts, h => by
    rw [numberAll, List.mem_append] at h
    rw [sizeAll]
    rcases h with h | h
    · have hb := number_bounds h
      omega
    · -- the trees that follow begin where the first one ends
      have hb := numberAll_bounds h
      omega

end

/-! ## Nesting -/

/-- `a` is `b` or lies below it in the tree. -/
inductive Below : Tree → Nat → Nat → Prop where
  | top {p a : Nat} {ts : List Tree} : a ∈ positions (.node p ts) → Below (.node p ts) a p
  | inside {p a b : Nat} {t : Tree} {ts : List Tree} :
    t ∈ ts → Below t a b → Below (.node p ts) a b

theorem Below.mem {t : Tree} {a b : Nat} (h : Below t a b) :
    a ∈ t.positions ∧ b ∈ t.positions := by
  induction h with
  | top ha => exact ⟨ha, by simp [positions]⟩
  | inside ht _ ih =>
    simp only [positions, List.mem_cons, mem_positionsAll]
    exact ⟨.inr ⟨_, ht, ih.1⟩, .inr ⟨_, ht, ih.2⟩⟩

/-- Below a node other than the root, everything happens in one of the children. -/
theorem below_node_iff {p a b : Nat} {ts : List Tree} (hb : b ≠ p) :
    Below (.node p ts) a b ↔ ∃ t ∈ ts, Below t a b := by
  constructor
  · intro h
    cases h with
    | top => exact absurd rfl hb
    | inside ht h => exact ⟨_, ht, h⟩
  · rintro ⟨t, ht, h⟩
    exact .inside ht h

mutual

/-- Intervals of a tree are nested exactly when the nodes are. -/
theorem number_nested_iff {a la ra b lb rb : Nat} : ∀ {start : Nat} {t : Tree},
    t.positions.Nodup → (a, la, ra) ∈ number start t → (b, lb, rb) ∈ number start t →
    (lb ≤ la ∧ ra ≤ rb ↔ Below t a b)
  | start, .node p ts, hnd, ha, hb => by
    rw [positions, List.nodup_cons] at hnd
    rw [number, List.mem_cons] at ha hb
    simp only [Prod.mk.injEq] at ha hb
    rcases hb with ⟨rfl, rfl, rfl⟩ | hb
    · -- the root encloses everything
      rcases ha with ⟨rfl, rfl, rfl⟩ | ha
      · exact iff_of_true ⟨Nat.le_refl _, Nat.le_refl _⟩ (.top (by simp [positions]))
      · have hbounds := numberAll_bounds ha
        refine iff_of_true ⟨by omega, by omega⟩ (.top ?_)
        rw [positions, List.mem_cons]
        exact .inr (mem_positions_of_numberAll ha)
    · have hbp : b ≠ p := fun h => hnd.1 (h ▸ mem_positions_of_numberAll hb)
      rw [below_node_iff hbp]
      rcases ha with ⟨rfl, rfl, rfl⟩ | ha
      · -- and nothing below the root encloses it
        have hbounds := numberAll_bounds hb
        apply iff_of_false (by omega)
        rintro ⟨t, ht, h⟩
        exact hnd.1 (mem_positionsAll.mpr ⟨t, ht, h.mem.1⟩)
      · exact numberAll_nested_iff hnd.2 ha hb

theorem numberAll_nested_iff {a la ra b lb rb : Nat} : ∀ {start : Nat} {ts : List Tree},
    (positionsAll ts).Nodup → (a, la, ra) ∈ numberAll start ts →
    (b, lb, rb) ∈ numberAll start ts → (lb ≤ la ∧ ra ≤ rb ↔ ∃ t ∈ ts, Below t a b)
  | _, [], _, ha, _ => by simp [numberAll] at ha
  | start, t :: ts, hnd, ha, hb => by
    rw [positionsAll, List.nodup_append'] at hnd
    obtain ⟨hnt, hnts, hdisj⟩ := hnd
    rw [numberAll, List.mem_append] at ha hb
    rw [List.exists_mem_cons_iff]
    rcases ha with ha | ha <;> rcases hb with hb | hb
    · -- both lie in the first tree, so neither lies in another
      rw [number_nested_iff hnt ha hb]
      refine (or_iff_left ?_).symm
      rintro ⟨u, hu, h⟩
      exact hdisj (mem_positions_of_number ha) (mem_positionsAll.mpr ⟨u, hu, h.mem.1⟩)
    · -- in different trees: the first has used up its numbers before the next begins
      have ha' := number_bounds ha
      have hb' := numberAll_bounds hb
      apply iff_of_false (by omega)
      rintro (h | ⟨u, hu, h⟩)
      · exact hdisj h.mem.2 (mem_positions_of_numberAll hb)
      · exact hdisj (mem_positions_of_number ha) (mem_positionsAll.mpr ⟨u, hu, h.mem.1⟩)
    · have ha' := numberAll_bounds ha
      have hb' := number_bounds hb
      apply iff_of_false (by omega)
      rintro (h | ⟨u, hu, h⟩)
      · exact hdisj h.mem.1 (mem_positions_of_numberAll ha)
      · exact hdisj (mem_positions_of_number hb) (mem_positionsAll.mpr ⟨u, hu, h.mem.2⟩)
    · rw [numberAll_nested_iff hnts ha hb]
      refine (or_iff_right ?_).symm
      intro h
      exact hdisj h.mem.1 (mem_positions_of_numberAll ha)

end

end AccessPolicy.Tree
