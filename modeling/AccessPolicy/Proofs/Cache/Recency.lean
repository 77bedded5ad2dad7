import AccessPolicy.Cache.Recency

/-!
# Recency cache — what every entry satisfies

Whatever is dropped or moved to the front, a cache only ever holds what was put into it: a property
of keys and entries that holds of what is stored holds of all that is cached.
-/

namespace AccessPolicy

namespace Cache

variable {α : Type} {P : String → α → Prop} {c : Cache α} {key : String} {entry : α}

/-- Every cached entry has the property, together with its key. -/
def All (P : String → α → Prop) (c : Cache α) : Prop := ∀ k a, (k, a) ∈ c.entries → P k a

theorem all_of_new {capacity : Nat} (h : new capacity = .ok c) : c.All P := by
  unfold new at h
  split at h
  · exact absurd h (by simp)
  · obtain rfl := Except.ok.inj h
    intro k a hmem
    exact absurd hmem List.not_mem_nil

theorem All.clear : c.clear.All P := by
  intro k a hmem
  exact absurd hmem List.not_mem_nil

theorem mem_of_lookup {entries : List (String × α)} (h : entries.lookup key = some entry) :
    (key, entry) ∈ entries := by
  induction entries with
  | nil => exact absurd h (by simp)
  | cons e rest ih =>
    obtain ⟨k, a⟩ := e
    rw [List.lookup_cons] at h
    split at h
    · rename_i hk
      rw [beq_iff_eq] at hk
      rw [hk, ← Option.some.inj h]
      exact List.mem_cons_self
    · exact List.mem_cons_of_mem _ (ih h)

theorem All.find? (h : c.All P) (hfind : c.find? key = some entry) : P key entry :=
  h key entry (mem_of_lookup hfind)

/-- Keys and entries that come from the cache and from one more entry. -/
theorem All.cons_others (h : c.All P) (hentry : P key entry) {rest : List (String × α)}
    (hrest : ∀ e ∈ rest, e ∈ c.others key) (k : String) (a : α)
    (hmem : (k, a) ∈ (key, entry) :: rest) : P k a := by
  rcases List.mem_cons.mp hmem with he | hmem
  · obtain ⟨rfl, rfl⟩ := Prod.mk.inj he
    exact hentry
  · exact h k a (List.mem_filter.mp (hrest _ hmem)).1

theorem All.get (h : c.All P) (key : String) : (c.get key).2.All P := by
  unfold Cache.get
  split
  · rename_i entry hfind
    exact h.cons_others (h.find? hfind) fun _ he => he
  · exact h

theorem All.get_some (h : c.All P) (hget : (c.get key).1 = some entry) : P key entry := by
  unfold Cache.get at hget
  split at hget
  · rename_i found hfind
    rw [← Option.some.inj hget]
    exact h.find? hfind
  · exact absurd hget (by simp)

theorem All.set (h : c.All P) (hentry : P key entry) : (c.set key entry).All P := by
  unfold Cache.set
  split
  · exact h.cons_others hentry fun _ he => he
  · -- the entry that has to go is the last one
    exact h.cons_others hentry fun _ he => List.dropLast_subset _ he

theorem All.refresh (h : c.All P) (hentry : P key entry) : (c.refresh key entry).All P := by
  intro k a hmem
  obtain ⟨⟨k', old⟩, hold, he⟩ := List.mem_map.mp hmem
  obtain ⟨rfl, rfl⟩ := Prod.mk.inj he
  -- only the entry under the key changes, and nothing moves
  split
  · rename_i hk
    rw [hk]
    exact hentry
  · exact h _ old hold

/-- What is looked up or else stored has the property, and so has all that is cached afterwards. -/
theorem All.getOrInsert (h : c.All P) (create : Unit → α) (hcreate : P key (create ())) :
    P key (c.getOrInsert key create).1 ∧ (c.getOrInsert key create).2.All P := by
  have hget := h.get key
  unfold Cache.getOrInsert
  split
  · rename_i entry c' heq
    rw [heq] at hget
    exact ⟨h.get_some (by rw [heq]), hget⟩
  · rename_i c' heq
    rw [heq] at hget
    exact ⟨hcreate, hget.set hcreate⟩

end Cache

end AccessPolicy
