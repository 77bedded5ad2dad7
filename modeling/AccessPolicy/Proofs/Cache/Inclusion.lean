import AccessPolicy.Proofs.Cache.History

/-!
# Cache inclusion — a larger cache never does worse

Two caches, one with more room than the other, are used in the same way.  The keys of the smaller
one stay among those of the larger one, in the same order of last use, although the larger one alone
sees some of the uses.  So the larger cache has no fewer hits and no more misses and evictions.
-/

namespace AccessPolicy.Cache

variable {key : String}

/-! ## Keys after a use -/

/-- The keys after a use of one: it comes first, and of the others there stay as many as have
room. -/
def used (room : Nat) (keys : List String) (key : String) : List String :=
  (key :: keys.filter (· ≠ key)).take room

theorem nodup_used {room : Nat} {keys : List String} (h : keys.Nodup) (key : String) :
    (used room keys key).Nodup := by
  have hall : (key :: keys.filter (· ≠ key)).Nodup :=
    List.nodup_cons.mpr ⟨by simp, h.filter _⟩
  exact hall.sublist (List.take_sublist _ _)

theorem length_used_le (room : Nat) (keys : List String) (key : String) :
    (used room keys key).length ≤ room :=
  List.length_take_le _ _

theorem filter_of_notMem {keys : List String} (hkey : key ∉ keys) :
    keys.filter (· ≠ key) = keys :=
  List.filter_eq_self.mpr fun _ hx => decide_eq_true fun heq => hkey (heq ▸ hx)

theorem used_of_mem {room : Nat} {keys : List String} (h : keys.Nodup) (hkey : key ∈ keys)
    (hroom : keys.length ≤ room) : used room keys key = key :: keys.filter (· ≠ key) := by
  apply List.take_of_length_le
  rw [length_cons_filter_ne h hkey]
  exact hroom

theorem used_of_room {room : Nat} {keys : List String} (hkey : key ∉ keys)
    (hroom : keys.length < room) : used room keys key = key :: keys := by
  rw [used, filter_of_notMem hkey]
  apply List.take_of_length_le
  rw [List.length_cons]
  omega

/-- Where there is no room, a new key takes the place of the last one. -/
theorem used_of_full {room : Nat} {keys : List String} (hkey : key ∉ keys)
    (hfull : keys.length = room) : used room keys key = (key :: keys).dropLast := by
  rw [used, filter_of_notMem hkey, List.dropLast_eq_take, List.length_cons, hfull]
  rfl

theorem sublist_dropLast {keys keys' : List String} (h : keys.Sublist keys') :
    keys.dropLast.Sublist keys'.dropLast := by
  have htail := h.reverse.tail
  rw [List.tail_reverse, List.tail_reverse] at htail
  exact List.reverse_sublist.mp htail

/-! ## Two lists of keys -/

/-- The keys of two caches with room for `n` and for `m` after the same uses: the smaller cache has
dropped more, but nothing before it was full. -/
structure KeysInclude (n m : Nat) (small large : List String) : Prop where
  sublist : small.Sublist large
  nodup : large.Nodup
  length_small : small.length ≤ n
  length_large : large.length ≤ m
  room : small.length < n → small = large

namespace KeysInclude

variable {n m : Nat} {small large : List String} (h : KeysInclude n m small large)
include h

theorem nodup_small : small.Nodup := h.sublist.nodup h.nodup

/-- A key that the smaller cache has lost was dropped, so it is full. -/
theorem full_of_notMem (hlarge : key ∈ large) (hsmall : key ∉ small) : small.length = n := by
  have hfull : ¬ small.length < n := fun hlt => hsmall (h.room hlt ▸ hlarge)
  have hle := h.length_small
  omega

/-- Only the larger cache sees the use: its keys change their order, but not among those of the
smaller one. -/
theorem use_large (hlarge : key ∈ large) (hsmall : key ∉ small) :
    KeysInclude n m small (used m large key) := by
  have hfull := h.full_of_notMem hlarge hsmall
  have hsub : small.Sublist (large.filter (· ≠ key)) := by
    rw [← filter_of_notMem hsmall]
    exact h.sublist.filter _
  refine ⟨?_, nodup_used h.nodup key, h.length_small, length_used_le _ _ _, fun hlt => ?_⟩
  · rw [used_of_mem h.nodup hlarge h.length_large]
    exact hsub.cons key
  · omega

theorem sublist_used (hle : n ≤ m) (key : String) :
    (used n small key).Sublist (used m large key) := by
  have hcons : (key :: small.filter (· ≠ key)).Sublist (key :: large.filter (· ≠ key)) :=
    (h.sublist.filter _).cons_cons key
  have htake : (used n small key).Sublist (key :: large.filter (· ≠ key)) :=
    (List.take_sublist _ _).trans hcons
  have hlength := h.length_large
  by_cases hlarge : key ∈ large
  · rw [used_of_mem h.nodup hlarge h.length_large]
    exact htake
  · by_cases hroom : large.length < m
    · rw [used_of_room hlarge hroom]
      rwa [filter_of_notMem hlarge] at htake
    · -- the larger cache drops its last key, and the smaller one, which is full as well, its own
      have hsmall : key ∉ small := fun hmem => hlarge (h.sublist.subset hmem)
      have hfull : small.length = n := by
        have hnot : ¬ small.length < n := fun hlt => by
          have heq := congrArg List.length (h.room hlt)
          omega
        have := h.length_small
        omega
      rw [used_of_full hsmall hfull, used_of_full hlarge (by omega)]
      exact sublist_dropLast (h.sublist.cons_cons key)

theorem use_both (hle : n ≤ m) (key : String) :
    KeysInclude n m (used n small key) (used m large key) := by
  refine ⟨h.sublist_used hle key, nodup_used h.nodup key, length_used_le _ _ _,
    length_used_le _ _ _, fun hlt => ?_⟩
  -- with room to spare, both caches have dropped nothing before and drop nothing now
  have hshort : (key :: small.filter (· ≠ key)).length < n := by
    rw [used, List.length_take] at hlt
    omega
  have hlength : small.length ≤ (key :: small.filter (· ≠ key)).length := by
    by_cases hsmall : key ∈ small
    · rw [length_cons_filter_ne h.nodup_small hsmall]
    · rw [filter_of_notMem hsmall, List.length_cons]
      omega
  have heq : small = large := h.room (by omega)
  rw [used, used, ← heq, List.take_of_length_le (by omega), List.take_of_length_le (by omega)]

end KeysInclude

/-! ## What an operation does -/

variable {α : Type} {c : Cache α} {op : Operation α}

/-- Does the operation look a key up and find it? -/
def Operation.isHit (c : Cache α) : Operation α → Bool
  | .get key | .getOrInsert key _ => c.has key
  | .set _ _ | .has _ | .stats | .clear => false

section

variable (hnd : c.keys.Nodup) (hsize : c.size ≤ c.capacity)
include hnd hsize

theorem keys_get_of_has (hhas : c.has key = true) :
    (c.get key).2.keys = used c.capacity c.keys key := by
  have hmem := has_iff_mem_keys.mp hhas
  obtain ⟨entry, -, hget⟩ := get_of_has hhas
  rw [hget, used_of_mem hnd hmem (by rwa [length_keys]), keys, List.map_cons, keys_others]

theorem keys_set (hroom : 0 < c.capacity) (key : String) (entry : α) :
    (c.set key entry).keys = used c.capacity c.keys key := by
  cases hhas : c.has key with
  | true =>
    have hmem := has_iff_mem_keys.mp hhas
    rw [set_of_room (.inl hhas), used_of_mem hnd hmem (by rwa [length_keys]), keys, List.map_cons,
      keys_others]
  | false =>
    have hmem := has_eq_false_iff.mp hhas
    by_cases hfull : c.size < c.capacity
    · rw [set_of_room (.inr hfull), used_of_room hmem (by rwa [length_keys]), keys, List.map_cons,
        keys_others, filter_of_notMem hmem]
    · have hlength : c.keys.length = c.capacity := by rw [length_keys]; omega
      have hne : c.keys ≠ [] := by
        rintro hnil
        rw [hnil, List.length_nil] at hlength
        omega
      rw [set_of_full hhas (by omega), used_of_full hmem hlength, List.dropLast_cons_of_ne_nil hne,
        keys, List.map_cons, List.map_dropLast, keys_others, filter_of_notMem hmem]

/-- The keys follow from the key that is used, if one is. -/
theorem keys_apply (hroom : 0 < c.capacity) (hop : op.isClear = false) :
    (op.apply c).keys = match op.touched? c with
      | some key => used c.capacity c.keys key
      | none => c.keys := by
  cases op with
  | get key =>
    rw [Operation.apply, Operation.touched?]
    cases hhas : c.has key with
    | true => exact keys_get_of_has hnd hsize hhas
    | false =>
      rw [get_of_not_has hhas]
      rfl
  | set key entry => exact keys_set hnd hsize hroom key entry
  | getOrInsert key create =>
    rw [Operation.apply, Operation.touched?]
    cases hhas : c.has key with
    | true =>
      rw [getOrInsert_of_has hhas]
      exact keys_get_of_has hnd hsize hhas
    | false =>
      -- the look-up in vain has only counted
      rw [getOrInsert_of_not_has hhas]
      exact keys_set (c := { c with misses := c.misses + 1 }) hnd hsize hroom key (create ())
  | has key => rfl
  | stats => rfl
  | clear => cases hop

end

theorem counts_set (key : String) (entry : α) : (c.set key entry).hits = c.hits ∧
    (c.set key entry).misses = c.misses ∧ (c.set key entry).evictions =
      c.evictions + if c.has key = false ∧ c.capacity ≤ c.size then 1 else 0 := by
  by_cases hroom : c.has key = true ∨ c.size < c.capacity
  · have hkept : ¬ (c.has key = false ∧ c.capacity ≤ c.size) := by
      rintro ⟨hhas, hfull⟩
      rw [hhas] at hroom
      simp at hroom
      omega
    rw [set_of_room hroom, if_neg hkept]
    exact ⟨rfl, rfl, rfl⟩
  · rw [not_or, Bool.not_eq_true] at hroom
    have hfull : c.capacity ≤ c.size := by omega
    rw [set_of_full hroom.1 hfull, if_pos ⟨hroom.1, hfull⟩]
    exact ⟨rfl, rfl, rfl⟩

/-- A look-up counts as a hit or as a miss, and a new key in a full cache as an eviction. -/
theorem counts_apply (hop : op.isClear = false) :
    (op.apply c).hits = c.hits + (if op.isHit c then 1 else 0) ∧
      (op.apply c).misses = c.misses + (if op.isLookUp && !op.isHit c then 1 else 0) ∧
      (op.apply c).evictions =
        c.evictions + if op.storesNew c = true ∧ c.capacity ≤ c.size then 1 else 0 := by
  cases op with
  | get key =>
    rw [Operation.apply]
    cases hhas : c.has key with
    | true =>
      obtain ⟨entry, -, hget⟩ := get_of_has hhas
      simp [hget, Operation.isHit, Operation.storesNew, Operation.stored?, hhas]
    | false =>
      simp [get_of_not_has hhas, Operation.isHit, Operation.isLookUp, Operation.storesNew,
        Operation.stored?, hhas]
  | set key entry =>
    obtain ⟨hhits, hmisses, hevictions⟩ := counts_set (c := c) key entry
    refine ⟨hhits, hmisses, hevictions.trans ?_⟩
    simp [Operation.storesNew, Operation.stored?]
  | getOrInsert key create =>
    rw [Operation.apply]
    cases hhas : c.has key with
    | true =>
      obtain ⟨entry, -, hget⟩ := get_of_has hhas
      simp [getOrInsert_of_has hhas, hget, Operation.isHit, Operation.storesNew,
        Operation.stored?, hhas]
    | false =>
      obtain ⟨hhits, hmisses, hevictions⟩ :=
        counts_set (c := { c with misses := c.misses + 1 }) key (create ())
      have hhas' : { c with misses := c.misses + 1 }.has key = false := hhas
      rw [hhas'] at hevictions
      rw [getOrInsert_of_not_has hhas, hhits, hmisses, hevictions]
      simp [Operation.isHit, Operation.isLookUp, Operation.storesNew, Operation.stored?, hhas, size]
  | has key => exact ⟨rfl, rfl, rfl⟩
  | stats => exact ⟨rfl, rfl, rfl⟩
  | clear => cases hop

/-- A hit is what the counter says it is. -/
theorem hits_succ_iff : (op.apply c).hits = c.hits + 1 ↔ op.isHit c = true := by
  by_cases hop : op.isClear = true
  · cases op with
    | clear => simp [Operation.apply, clear, Operation.isHit]
    | _ => exact absurd hop Bool.false_ne_true
  · rw [Bool.not_eq_true] at hop
    rw [(counts_apply hop).1, Nat.add_left_cancel_iff]
    cases op.isHit c <;> decide

/-! ## Two caches -/

/-- What is counted in one cache only if it is in the other is counted no more often. -/
theorem count_le_of_imp {p q : Prop} [Decidable p] [Decidable q] (h : p → q) :
    (if p then 1 else 0) ≤ if q then 1 else 0 := by
  by_cases hp : p
  · rw [if_pos hp, if_pos (h hp)]
  · rw [if_neg hp]
    exact Nat.zero_le _

/-- The smaller cache has a part of the keys of the larger one and has done no better. -/
structure Includes (small large : Cache α) : Prop where
  room : 0 < small.capacity
  capacity : small.capacity ≤ large.capacity
  keys : KeysInclude small.capacity large.capacity small.keys large.keys
  hits : small.hits ≤ large.hits
  misses : large.misses ≤ small.misses
  evictions : large.evictions ≤ small.evictions

namespace Includes

variable {small large : Cache α}

theorem empty {n m : Nat} (hroom : 0 < n) (hle : n ≤ m) :
    Includes (⟨n, [], 0, 0, 0⟩ : Cache α) ⟨m, [], 0, 0, 0⟩ :=
  ⟨hroom, hle, ⟨.refl _, .nil, Nat.zero_le _, Nat.zero_le _, fun _ => rfl⟩, .refl, .refl, .refl⟩

variable (h : Includes small large)
include h

theorem has_of_has (hhas : small.has key = true) : large.has key = true := by
  rw [has_iff_mem_keys] at hhas ⊢
  exact h.keys.sublist.subset hhas

theorem isHit_of_isHit (hhit : op.isHit small = true) : op.isHit large = true := by
  cases op with
  | get key => exact h.has_of_has hhit
  | getOrInsert key create => exact h.has_of_has hhit
  | _ => exact absurd hhit Bool.false_ne_true

theorem misses_of_misses (hmissed : (op.isLookUp && !op.isHit large) = true) :
    (op.isLookUp && !op.isHit small) = true := by
  rw [Bool.and_eq_true, Bool.not_eq_true', ← Bool.not_eq_true] at hmissed ⊢
  exact ⟨hmissed.1, fun hsmall => hmissed.2 (h.isHit_of_isHit hsmall)⟩

/-- Both caches see the same use, or the larger one alone sees that of a key which it still has. -/
theorem touched_cases (op : Operation α) : op.touched? small = op.touched? large ∨
    op.touched? small = none ∧ ∃ key, op.touched? large = some key ∧ key ∈ large.keys ∧
      key ∉ small.keys := by
  cases op with
  | get key =>
    simp only [Operation.touched?]
    cases hsmall : small.has key with
    | true => simp [h.has_of_has hsmall]
    | false =>
      cases hlarge : large.has key with
      | true =>
        exact .inr ⟨rfl, key, rfl, has_iff_mem_keys.mp hlarge, has_eq_false_iff.mp hsmall⟩
      | false => exact .inl rfl
  | _ => exact .inl rfl

/-- Where the larger cache has to drop a key for a new one, so has the smaller one. -/
theorem evicts_of_evicts (hevicts : op.storesNew large = true ∧ large.capacity ≤ large.size) :
    op.storesNew small = true ∧ small.capacity ≤ small.size := by
  obtain ⟨hnew, hfull⟩ := hevicts
  constructor
  · -- a key that the larger cache does not have, the smaller one has not either
    have hlost {key : String} (hlarge : large.has key = false) : small.has key = false := by
      rw [← Bool.not_eq_true] at hlarge ⊢
      exact fun hsmall => hlarge (h.has_of_has hsmall)
    cases op with
    | set key entry =>
      simp only [Operation.storesNew, Operation.stored?, Option.any_some, Bool.not_eq_true']
        at hnew ⊢
      exact hlost hnew
    | getOrInsert key create =>
      cases hlarge : large.has key with
      | true => simp [Operation.storesNew, Operation.stored?, hlarge] at hnew
      | false => simp [Operation.storesNew, Operation.stored?, hlost hlarge]
    | _ => exact absurd hnew Bool.false_ne_true
  · by_contra hroom
    -- with room in the smaller cache both hold the same keys
    have heq : small.size = large.size := by
      rw [← length_keys, ← length_keys, h.keys.room (by rw [length_keys]; omega)]
    have hle := h.capacity
    omega

/-- Each operation keeps the smaller cache behind the larger one. -/
theorem apply (op : Operation α) : Includes (op.apply small) (op.apply large) := by
  by_cases hop : op.isClear = true
  · cases op with
    | clear => exact empty h.room h.capacity
    | _ => exact absurd hop Bool.false_ne_true
  rw [Bool.not_eq_true] at hop
  obtain ⟨hhits, hmisses, hevictions⟩ := counts_apply (c := small) hop
  obtain ⟨hhits', hmisses', hevictions'⟩ := counts_apply (c := large) hop
  have hkeys := keys_apply h.keys.nodup_small (by rw [← length_keys]; exact h.keys.length_small)
    h.room hop
  have hkeys' := keys_apply h.keys.nodup (by rw [← length_keys]; exact h.keys.length_large)
    (Nat.lt_of_lt_of_le h.room h.capacity) hop
  refine ⟨?_, ?_, ?_, ?_, ?_, ?_⟩
  · rw [capacity_apply]
    exact h.room
  · rw [capacity_apply, capacity_apply]
    exact h.capacity
  · rw [capacity_apply, capacity_apply, hkeys, hkeys']
    rcases h.touched_cases op with htouched | ⟨hnone, key, hsome, hlarge, hsmall⟩
    · rw [htouched]
      cases op.touched? large with
      | none => exact h.keys
      | some key => exact h.keys.use_both h.capacity key
    · rw [hnone, hsome]
      exact h.keys.use_large hlarge hsmall
  · rw [hhits, hhits']
    exact Nat.add_le_add h.hits (count_le_of_imp h.isHit_of_isHit)
  · rw [hmisses, hmisses']
    exact Nat.add_le_add h.misses (count_le_of_imp h.misses_of_misses)
  · rw [hevictions, hevictions']
    exact Nat.add_le_add h.evictions (count_le_of_imp h.evicts_of_evicts)

/-- Whatever is done with both caches, the smaller one stays behind the larger one. -/
theorem run (ops : List (Operation α)) : Includes (small.run ops) (large.run ops) := by
  induction ops generalizing small large with
  | nil => exact h
  | cons op rest ih => exact ih (h.apply op)

end Includes

theorem isSome_get (c : Cache α) (key : String) : (c.get key).1.isSome = c.has key := by
  unfold get has
  cases c.find? key <;> rfl

/-- A larger cache never does worse.  Two new caches, the larger one with at least as much room as
the smaller one, are used in the same way, step by step.  At every point the larger one has every
key of the smaller one, and the keys of the smaller one stand in the same order of last use there;
what is found in the smaller cache is found in the larger one, and what is a hit there is a hit
here; and the larger one has counted no fewer hits, no more misses and no more evictions. -/
theorem run_includes_smaller {n m : Nat} (hroom : 1 ≤ n) (hle : n ≤ m) :
    ∃ small large : Cache α, new n = .ok small ∧ new m = .ok large ∧
      ∀ ops : List (Operation α),
        (∀ key, (small.run ops).has key = true → (large.run ops).has key = true) ∧
        (small.run ops).keys.Sublist (large.run ops).keys ∧ (large.run ops).keys.Nodup ∧
        (∀ key, ((small.run ops).get key).1.isSome = true →
          ((large.run ops).get key).1.isSome = true) ∧
        (∀ op : Operation α,
          (op.apply (small.run ops)).stats.hits = (small.run ops).stats.hits + 1 →
          (op.apply (large.run ops)).stats.hits = (large.run ops).stats.hits + 1) ∧
        (small.run ops).stats.hits ≤ (large.run ops).stats.hits ∧
        (large.run ops).stats.misses ≤ (small.run ops).stats.misses ∧
        (large.run ops).stats.evictions ≤ (small.run ops).stats.evictions := by
  refine ⟨⟨n, [], 0, 0, 0⟩, ⟨m, [], 0, 0, 0⟩, if_neg (by omega), if_neg (by omega), fun ops => ?_⟩
  have hrun := (Includes.empty (α := α) hroom hle).run ops
  refine ⟨fun key => hrun.has_of_has, hrun.keys.sublist, hrun.keys.nodup, fun key hfound => ?_,
    fun op hhit => hits_succ_iff.mpr (hrun.isHit_of_isHit (hits_succ_iff.mp hhit)),
    hrun.hits, hrun.misses, hrun.evictions⟩
  rw [isSome_get] at hfound ⊢
  exact hrun.has_of_has hfound

/-- With room for two keys the second look-ups of `a` are hits, with room for one they are not. -/
theorem run_includes_smaller_pair :
    let ops : List (Operation Nat) :=
      [.set "a" 1, .set "b" 2, .get "a", .getOrInsert "c" fun _ => 3, .get "a"]
    ∃ small large : Cache Nat, new 1 = .ok small ∧ new 2 = .ok large ∧
      (small.run ops).keys = ["c"] ∧ (large.run ops).keys = ["a", "c"] ∧
      (small.run ops).keys.Sublist (large.run ops).keys ∧
      (small.run ops).stats.hits ≤ (large.run ops).stats.hits ∧
      (large.run ops).stats.misses ≤ (small.run ops).stats.misses ∧
      (large.run ops).stats.evictions ≤ (small.run ops).stats.evictions := by
  intro ops
  obtain ⟨small, large, hsmall, hlarge, hruns⟩ :=
    @run_includes_smaller Nat 1 2 (by decide) (by decide)
  obtain rfl : small = ⟨1, [], 0, 0, 0⟩ := Except.ok.inj hsmall.symm
  obtain rfl : large = ⟨2, [], 0, 0, 0⟩ := Except.ok.inj hlarge.symm
  obtain ⟨-, hkeys, -, -, -, hhits, hmisses, hevictions⟩ := hruns ops
  exact ⟨_, _, hsmall, hlarge, by decide, by decide, hkeys, hhits, hmisses, hevictions⟩

end AccessPolicy.Cache
