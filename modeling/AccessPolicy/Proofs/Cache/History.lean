import AccessPolicy.Cache.History
import AccessPolicy.Proofs.Cache.Recency
import Mathlib.Data.Finset.Card
import Mathlib.Data.Finset.Dedup

/-!
# Cache histories — a cache holds what was used last

The keys of a cache are the ones that were used since the last `clear`, each once and in the order of
their last use, as far as there is room.  What is cached can therefore be read off the history, and
so can the counts.
-/

namespace AccessPolicy.Cache

/-! ## The order of last uses -/

/-- Each key once, at the place of its first occurrence; of uses with the latest first, these are
the keys in the order of their last use. -/
def recency : List String → List String
  | [] => []
  | key :: earlier => key :: (recency earlier).filter (· ≠ key)

variable {key : String}

theorem mem_recency {uses : List String} : key ∈ recency uses ↔ key ∈ uses := by
  induction uses with
  | nil => rfl
  | cons k earlier ih =>
    rw [recency, List.mem_cons, List.mem_cons, List.mem_filter, ih, decide_eq_true_eq]
    by_cases hk : key = k <;> simp [hk]

theorem nodup_recency (uses : List String) : (recency uses).Nodup := by
  induction uses with
  | nil => exact List.nodup_nil
  | cons k earlier ih =>
    rw [recency, List.nodup_cons]
    exact ⟨by simp, ih.filter _⟩

theorem length_recency (uses : List String) : (recency uses).length = uses.toFinset.card := by
  rw [← List.toFinset_card_of_nodup (nodup_recency uses)]
  congr 1
  ext key
  rw [List.mem_toFinset, List.mem_toFinset, mem_recency]

/-- What is used after a key is ordered without regard to the key and to what came before. -/
theorem takeWhile_recency (uses : List String) (key : String) :
    (recency uses).takeWhile (· ≠ key) = recency (uses.takeWhile (· ≠ key)) := by
  induction uses with
  | nil => rfl
  | cons k earlier ih =>
    by_cases hk : k = key
    · simp [recency, hk]
    · -- earlier uses of `k` may go before or after the cut at `key`
      have hpass (x : String) : (!decide (x ≠ k) || decide (x ≠ key)) = decide (x ≠ key) := by
        by_cases hx : x = k <;> simp [hx, hk]
      rw [recency, List.takeWhile_cons_of_pos (by simpa using hk), List.takeWhile_filter,
        funext hpass, ih, List.takeWhile_cons_of_pos (by simpa using hk), recency]

theorem mem_take_iff {l : List String} {n : Nat} :
    key ∈ l.take n ↔ key ∈ l ∧ (l.takeWhile (· ≠ key)).length < n := by
  induction l generalizing n with
  | nil => simp
  | cons x l ih =>
    cases n with
    | zero => simp
    | succ n =>
      rw [List.take_succ_cons, List.mem_cons, List.mem_cons, ih]
      by_cases hx : x = key
      · simp [hx]
      · rw [List.takeWhile_cons_of_pos (by simpa using hx), List.length_cons]
        have hx' : key ≠ x := Ne.symm hx
        simp [hx']

/-- A key is among the `n` that were used last exactly when fewer than `n` others were used after
it. -/
theorem mem_take_recency_iff {uses : List String} {n : Nat} : key ∈ (recency uses).take n ↔
    key ∈ uses ∧ (uses.takeWhile (· ≠ key)).toFinset.card < n := by
  rw [mem_take_iff, mem_recency, takeWhile_recency, length_recency]

/-- A key that is among the first ones makes room for one less when it is left out. -/
theorem filter_take_of_mem {l : List String} (hl : l.Nodup) {n : Nat} (h : key ∈ l.take (n + 1)) :
    (l.take (n + 1)).filter (· ≠ key) = (l.filter (· ≠ key)).take n := by
  induction l generalizing n with
  | nil => simp at h
  | cons x l ih =>
    obtain ⟨hx, hl⟩ := List.nodup_cons.mp hl
    rw [List.take_succ_cons] at h ⊢
    by_cases hkey : x = key
    · -- the key comes first, and then not again
      subst hkey
      have hnone (y : String) (hy : y ∈ l) : decide (y ≠ x) = true :=
        decide_eq_true fun heq => hx (heq ▸ hy)
      have hrest : l.filter (· ≠ x) = l := List.filter_eq_self.mpr hnone
      have htake : (l.take n).filter (· ≠ x) = l.take n :=
        List.filter_eq_self.mpr fun y hy => hnone y (List.mem_of_mem_take hy)
      simp only [List.filter_cons, ne_eq, not_true, decide_false, Bool.false_eq_true, if_false]
      rw [hrest, htake]
    · have hmem : key ∈ l.take n := (List.mem_cons.mp h).resolve_left (Ne.symm hkey)
      rw [List.filter_cons_of_pos (by simpa using hkey), List.filter_cons_of_pos (by simpa using hkey)]
      cases n with
      | zero => simp at hmem
      | succ n => rw [ih hl hmem, List.take_succ_cons]

/-- Moving a key to the front leaves as many keys as there were. -/
theorem length_cons_filter_ne {keys : List String} (hkeys : keys.Nodup) (h : key ∈ keys) :
    (key :: keys.filter (· ≠ key)).length = keys.length := by
  have herase : keys.erase key = keys.filter (· ≠ key) := by
    rw [hkeys.erase_eq_filter]
    exact List.filter_congr fun x _ => by by_cases hx : x = key <;> simp [hx]
  rw [← herase]
  exact (List.perm_cons_erase h).length_eq.symm

/-- A key that is not among the first ones may be left out of the others. -/
theorem take_filter_of_notMem {l : List String} {n : Nat} (h : key ∉ l.take n) :
    (l.filter (· ≠ key)).take n = l.take n := by
  induction l generalizing n with
  | nil => rfl
  | cons x l ih =>
    cases n with
    | zero => rfl
    | succ n =>
      rw [List.take_succ_cons, List.mem_cons, not_or] at h
      rw [List.filter_cons_of_pos (by simpa using Ne.symm h.1), List.take_succ_cons,
        List.take_succ_cons, ih h.2]

/-! ## Keys -/

variable {α : Type} {c : Cache α} {entry : α}

def keys (c : Cache α) : List String := c.entries.map (·.1)

theorem has_iff_mem_keys : c.has key = true ↔ key ∈ c.keys := by
  rw [has, find?, List.lookup_isSome_iff, keys, List.mem_map]
  refine exists_congr fun e => and_congr_right fun _ => ?_
  rw [beq_iff_eq, eq_comm]

theorem has_eq_false_iff : c.has key = false ↔ key ∉ c.keys := by
  rw [← has_iff_mem_keys, Bool.not_eq_true]

theorem keys_others (c : Cache α) (key : String) :
    (c.others key).map (·.1) = c.keys.filter (· ≠ key) := by
  rw [others, keys, List.filter_map]
  rfl

theorem others_of_not_has (h : c.has key = false) : c.others key = c.entries := by
  rw [has_eq_false_iff] at h
  rw [others, List.filter_eq_self]
  exact fun e he => decide_eq_true fun heq => h (heq ▸ List.mem_map_of_mem he)

theorem length_keys (c : Cache α) : c.keys.length = c.size := List.length_map _

theorem get_of_has (h : c.has key = true) : ∃ entry, (key, entry) ∈ c.entries ∧
    c.get key = (some entry, { c with
      entries := (key, entry) :: c.others key
      hits := c.hits + 1 }) := by
  obtain ⟨entry, hfind⟩ := Option.isSome_iff_exists.mp h
  exact ⟨entry, mem_of_lookup hfind, by rw [get, hfind]⟩

theorem get_of_not_has (h : c.has key = false) :
    c.get key = (none, { c with misses := c.misses + 1 }) := by
  have hfind : c.find? key = none := Option.isSome_eq_false_iff.mp h |> Option.isNone_iff_eq_none.mp
  rw [get, hfind]

/-- Where there is room, or the key is cached already, nothing is dropped. -/
theorem set_of_room (h : c.has key = true ∨ c.size < c.capacity) (entry : α) :
    c.set key entry = { c with entries := (key, entry) :: c.others key } := if_pos h

theorem set_of_full (hhas : c.has key = false) (hfull : c.capacity ≤ c.size) (entry : α) :
    c.set key entry = { c with
      entries := (key, entry) :: (c.others key).dropLast
      evictions := c.evictions + 1 } := by
  apply if_neg
  rw [hhas, not_or]
  exact ⟨Bool.false_ne_true, by omega⟩

theorem getOrInsert_of_has (h : c.has key = true) (create : Unit → α) :
    (c.getOrInsert key create).2 = (c.get key).2 := by
  obtain ⟨entry, -, hget⟩ := get_of_has h
  rw [getOrInsert, hget]

theorem getOrInsert_of_not_has (h : c.has key = false) (create : Unit → α) :
    (c.getOrInsert key create).2 = { c with misses := c.misses + 1 }.set key (create ()) := by
  rw [getOrInsert, get_of_not_has h]

/-! ## Contents -/

/-- The keys are the last ones of those that were used, as many as there is room for, and under each
stands what was written there last. -/
structure Recalls (uses : List String) (written : List (String × α)) (c : Cache α) : Prop where
  keys : c.keys = (recency uses).take c.capacity
  entries : ∀ k a, (k, a) ∈ c.entries → written.lookup k = some a
  written : ∀ k, k ∈ uses ↔ ∃ a, (k, a) ∈ written

namespace Recalls

variable {uses : List String} {written : List (String × α)} (h : c.Recalls uses written)
include h

theorem size_le : c.size ≤ c.capacity := by
  rw [← length_keys, h.keys]
  exact List.length_take_le _ _

theorem nodup_keys : c.keys.Nodup := by
  rw [h.keys]
  exact (nodup_recency uses).sublist (List.take_sublist _ _)

/-- A key is cached exactly when something was written under it and fewer others than there is room
for were used after it. -/
theorem has_iff : c.has key = true ↔ (∃ a, (key, a) ∈ written) ∧
    (uses.takeWhile (· ≠ key)).toFinset.card < c.capacity := by
  rw [has_iff_mem_keys, h.keys, mem_take_recency_iff, h.written]

theorem length_others_of_has (hhas : c.has key = true) : (c.others key).length + 1 = c.size := by
  calc (c.others key).length + 1
      = (key :: c.keys.filter (· ≠ key)).length := by
        rw [List.length_cons, ← keys_others, List.length_map]
    _ = c.keys.length := length_cons_filter_ne h.nodup_keys (has_iff_mem_keys.mp hhas)
    _ = c.size := length_keys c

/-! ### Uses -/

/-- What a use of a key makes of the order of last uses, if the key is cached. -/
theorem keys_touched (hhas : c.has key = true) :
    key :: c.keys.filter (· ≠ key) = (recency (key :: uses)).take c.capacity := by
  have hmem := has_iff_mem_keys.mp hhas
  rw [h.keys] at hmem ⊢
  cases hcapacity : c.capacity with
  | zero => simp [hcapacity] at hmem
  | succ n =>
    rw [hcapacity] at hmem
    rw [recency, List.take_succ_cons, filter_take_of_mem (nodup_recency uses) hmem]

/-- A look-up that finds its key moves it to the front. -/
theorem get (hhas : c.has key = true) : (c.get key).2.Recalls (key :: uses) written := by
  obtain ⟨entry, hmem, hget⟩ := get_of_has hhas
  have hentry := h.entries key entry hmem
  rw [hget]
  refine ⟨?_, fun k a hmem => ?_, fun k => ?_⟩
  · rw [Cache.keys, List.map_cons, keys_others, h.keys_touched hhas]
  · rcases List.mem_cons.mp hmem with he | hmem
    · obtain ⟨rfl, rfl⟩ := Prod.mk.inj he
      exact hentry
    · exact h.entries k a (List.mem_of_mem_filter hmem)
  · rw [List.mem_cons, ← h.written]
    exact or_iff_right_of_imp fun hk => hk ▸ (h.written key).mpr ⟨entry, mem_of_lookup hentry⟩

/-- What a store makes of the order of last uses, if the key is not cached. -/
theorem keys_stored (hhas : c.has key = false) {n : Nat} (hn : c.capacity = n + 1) :
    key :: c.keys.take n = (recency (key :: uses)).take c.capacity := by
  have htake : c.keys.take n = (recency uses).take n := by
    rw [h.keys, hn, List.take_take, Nat.min_eq_left (Nat.le_succ n)]
  have hmem : key ∉ (recency uses).take n := fun hmem =>
    has_eq_false_iff.mp hhas (List.mem_of_mem_take (htake ▸ hmem))
  rw [hn, recency, List.take_succ_cons, take_filter_of_notMem hmem, htake]

/-- Storing a key moves it to the front, where the new entry stands. -/
theorem set (hroom : 0 < c.capacity) (entry : α) :
    (c.set key entry).Recalls (key :: uses) ((key, entry) :: written) := by
  -- whatever is dropped, the entries are the new one and some of the others
  have hentries {rest : List (String × α)} (hrest : ∀ e ∈ rest, e ∈ c.others key) (k : String)
      (a : α) (hmem : (k, a) ∈ (key, entry) :: rest) :
      ((key, entry) :: written).lookup k = some a := by
    rcases List.mem_cons.mp hmem with he | hmem
    · obtain ⟨rfl, rfl⟩ := Prod.mk.inj he
      exact List.lookup_cons_self
    · obtain ⟨hold, hne⟩ := List.mem_filter.mp (hrest _ hmem)
      have hne' : (k == key) = false := by simpa using hne
      rw [List.lookup_cons, hne']
      exact h.entries k a hold
  have hwritten (k : String) : k ∈ key :: uses ↔ ∃ a, (k, a) ∈ (key, entry) :: written := by
    rw [List.mem_cons, h.written]
    simp only [List.mem_cons, Prod.mk.injEq, exists_or, exists_and_left, exists_eq, and_true]
  obtain ⟨n, hn⟩ : ∃ n, c.capacity = n + 1 := ⟨c.capacity - 1, by omega⟩
  have hsize := h.size_le
  cases hhas : c.has key with
  | true =>
    rw [set_of_room (.inl hhas)]
    refine ⟨?_, hentries fun _ he => he, hwritten⟩
    rw [Cache.keys, List.map_cons, keys_others, h.keys_touched hhas]
  | false =>
    have hothers : (c.others key).map (·.1) = c.keys := congrArg _ (others_of_not_has hhas)
    by_cases hfull : c.size < c.capacity
    · rw [set_of_room (.inr hfull)]
      refine ⟨?_, hentries fun _ he => he, hwritten⟩
      have hlength : c.keys.length ≤ n := by rw [length_keys]; omega
      show key :: (c.others key).map (·.1) = _
      rw [hothers, ← h.keys_stored hhas hn, List.take_of_length_le hlength]
    · rw [set_of_full hhas (by omega)]
      refine ⟨?_, hentries fun _ he => List.dropLast_subset _ he, hwritten⟩
      have hlength : c.keys.length - 1 = n := by rw [length_keys]; omega
      show key :: ((c.others key).dropLast).map (·.1) = _
      rw [List.map_dropLast, hothers, List.dropLast_eq_take, hlength, h.keys_stored hhas hn]

end Recalls

/-! ## Counts -/

section

variable {uses : List String} {written : List (String × α)} (h : c.Recalls uses written)
include h

/-- A look-up is counted once, and leaves as many entries as there were. -/
theorem Recalls.counts_get (key : String) :
    (c.get key).2.hits + (c.get key).2.misses = c.hits + c.misses + 1 ∧
      (c.get key).2.evictions + (c.get key).2.size = c.evictions + c.size := by
  cases hhas : c.has key with
  | true =>
    obtain ⟨entry, -, hget⟩ := get_of_has hhas
    have hlength := h.length_others_of_has hhas
    rw [hget]
    constructor
    · show c.hits + 1 + c.misses = c.hits + c.misses + 1
      omega
    · show c.evictions + ((c.others key).length + 1) = c.evictions + c.size
      rw [hlength]
  | false =>
    rw [get_of_not_has hhas]
    exact ⟨rfl, rfl⟩

/-- A store of a key that is not cached adds an entry or an eviction; no other store does. -/
theorem Recalls.counts_set (hroom : 0 < c.capacity) (key : String) (entry : α) :
    (c.set key entry).hits + (c.set key entry).misses = c.hits + c.misses ∧
      (c.set key entry).evictions + (c.set key entry).size =
        c.evictions + c.size + if c.has key then 0 else 1 := by
  cases hhas : c.has key with
  | true =>
    have hlength := h.length_others_of_has hhas
    rw [set_of_room (.inl hhas)]
    refine ⟨rfl, ?_⟩
    show c.evictions + ((c.others key).length + 1) = c.evictions + c.size + 0
    omega
  | false =>
    have hlength : (c.others key).length = c.size := congrArg _ (others_of_not_has hhas)
    by_cases hfull : c.size < c.capacity
    · rw [set_of_room (.inr hfull)]
      refine ⟨rfl, ?_⟩
      show c.evictions + ((c.others key).length + 1) = c.evictions + c.size + 1
      omega
    · rw [set_of_full hhas (by omega)]
      refine ⟨rfl, ?_⟩
      show c.evictions + 1 + ((c.others key).dropLast.length + 1) = c.evictions + c.size + 1
      rw [List.length_dropLast]
      omega

end

/-! ## Operations -/

theorem capacity_get (c : Cache α) (key : String) : (c.get key).2.capacity = c.capacity := by
  unfold get
  split <;> rfl

theorem capacity_set (c : Cache α) (key : String) (entry : α) :
    (c.set key entry).capacity = c.capacity := by
  unfold set
  split <;> rfl

theorem capacity_apply (c : Cache α) (op : Operation α) : (op.apply c).capacity = c.capacity := by
  cases op with
  | get key => exact capacity_get c key
  | set key entry => exact capacity_set c key entry
  | getOrInsert key create =>
    show (c.getOrInsert key create).2.capacity = c.capacity
    cases hhas : c.has key with
    | true => rw [getOrInsert_of_has hhas, capacity_get]
    | false => rw [getOrInsert_of_not_has hhas, capacity_set]
  | _ => rfl

section

variable {uses : List String} {written : List (String × α)} (h : c.Recalls uses written)
  (hroom : 0 < c.capacity) {op : Operation α} (hop : op.isClear = false)
include h hroom hop

theorem Recalls.apply : (op.apply c).Recalls ((op.touched? c).toList ++ uses)
    ((op.stored? c).toList ++ written) := by
  cases op with
  | get key =>
    simp only [Operation.apply, Operation.touched?, Operation.stored?]
    cases hhas : c.has key with
    | true => exact h.get hhas
    | false =>
      rw [get_of_not_has hhas]
      exact ⟨h.keys, h.entries, h.written⟩
  | set key entry => exact h.set hroom entry
  | getOrInsert key create =>
    simp only [Operation.apply, Operation.touched?, Operation.stored?]
    cases hhas : c.has key with
    | true =>
      rw [getOrInsert_of_has hhas]
      exact h.get hhas
    | false =>
      -- the look-up only counts, so what is stored is stored in a cache with the same entries
      have hmissed : { c with misses := c.misses + 1 }.Recalls uses written :=
        ⟨h.keys, h.entries, h.written⟩
      rw [getOrInsert_of_not_has hhas]
      exact hmissed.set hroom (create ())
  | has key => exact h
  | stats => exact h
  | clear => cases hop

theorem Recalls.counts_apply :
    (op.apply c).hits + (op.apply c).misses = c.hits + c.misses + (if op.isLookUp then 1 else 0) ∧
      (op.apply c).evictions + (op.apply c).size =
        c.evictions + c.size + if op.storesNew c then 1 else 0 := by
  cases op with
  | get key => exact h.counts_get key
  | set key entry =>
    obtain ⟨hlookUps, hnew⟩ := h.counts_set hroom key entry
    refine ⟨hlookUps, hnew.trans ?_⟩
    cases hhas : c.has key <;> simp [Operation.storesNew, Operation.stored?, hhas]
  | getOrInsert key create =>
    rw [Operation.apply, Operation.storesNew, Operation.stored?]
    by_cases hhas : c.has key = true
    · rw [getOrInsert_of_has hhas, if_pos hhas]
      exact h.counts_get key
    · rw [Bool.not_eq_true] at hhas
      have hmissed : { c with misses := c.misses + 1 }.Recalls uses written :=
        ⟨h.keys, h.entries, h.written⟩
      obtain ⟨hlookUps, hnew⟩ := hmissed.counts_set hroom key (create ())
      have hhas' : { c with misses := c.misses + 1 }.has key = false := hhas
      rw [hhas'] at hnew
      rw [getOrInsert_of_not_has hhas, hhas]
      refine ⟨hlookUps, hnew.trans ?_⟩
      simp [hhas, size]
  | has key => exact ⟨rfl, rfl⟩
  | stats => exact ⟨rfl, rfl⟩
  | clear => cases hop

end

/-! ## Runs -/

theorem run_append (c : Cache α) (ops : List (Operation α)) (op : Operation α) :
    c.run (ops ++ [op]) = op.apply (c.run ops) := List.foldl_append

theorem moments_append (c : Cache α) (ops : List (Operation α)) (op : Operation α) :
    c.moments (ops ++ [op]) = c.moments ops ++ [⟨c.run ops, op⟩] := by
  induction ops generalizing c with
  | nil => rfl
  | cons first rest ih => rw [List.cons_append, moments, ih, moments, List.cons_append]; rfl

theorem sinceClear_append (c : Cache α) (ops : List (Operation α)) (op : Operation α) :
    c.sinceClear (ops ++ [op]) =
      if op.isClear then [] else ⟨c.run ops, op⟩ :: c.sinceClear ops := by
  rw [sinceClear, moments_append, List.reverse_concat]
  cases hop : op.isClear <;> simp [sinceClear, hop]

theorem capacity_run (c : Cache α) (ops : List (Operation α)) :
    (c.run ops).capacity = c.capacity := by
  induction ops generalizing c with
  | nil => rfl
  | cons op rest ih => exact (ih (op.apply c)).trans (capacity_apply c op)

/-- What the history since the last `clear` says of a cache: its contents and its counts. -/
structure Remembers (past : List (Moment α)) (c : Cache α) : Prop where
  recalls : c.Recalls (touches past) (stores past)
  lookUps : c.hits + c.misses = past.countP (·.operation.isLookUp)
  newStores : c.evictions + c.size = past.countP fun m => m.operation.storesNew m.cache

theorem remembers_empty (capacity : Nat) : (⟨capacity, [], 0, 0, 0⟩ : Cache α).Remembers [] where
  recalls := {
    keys := by simp [Cache.keys, touches, recency]
    entries := fun _ _ hmem => absurd hmem List.not_mem_nil
    written := fun k => by simp [touches, stores] }
  lookUps := rfl
  newStores := rfl

theorem Remembers.apply {past : List (Moment α)} (h : c.Remembers past) (hroom : 0 < c.capacity)
    {op : Operation α} (hop : op.isClear = false) : (op.apply c).Remembers (⟨c, op⟩ :: past) := by
  obtain ⟨hlookUps, hnew⟩ := h.recalls.counts_apply hroom hop
  refine ⟨?_, ?_, ?_⟩
  · have htouches : touches (⟨c, op⟩ :: past) = (op.touched? c).toList ++ touches past := by
      rw [touches, List.filterMap_cons]
      cases op.touched? c <;> rfl
    have hstores : stores (⟨c, op⟩ :: past) = (op.stored? c).toList ++ stores past := by
      rw [stores, List.filterMap_cons]
      cases op.stored? c <;> rfl
    rw [htouches, hstores]
    exact h.recalls.apply hroom hop
  · rw [List.countP_cons, ← h.lookUps]
    exact hlookUps
  · rw [List.countP_cons, ← h.newStores]
    exact hnew

/-- Whatever operations are run, the history tells what they leave. -/
theorem remembers_run {capacity : Nat} (hroom : 0 < capacity) (ops : List (Operation α)) :
    (run ⟨capacity, [], 0, 0, 0⟩ ops).Remembers (sinceClear ⟨capacity, [], 0, 0, 0⟩ ops) := by
  induction ops using List.reverseRecOn with
  | nil => exact remembers_empty capacity
  | append_singleton ops op ih =>
    rw [run_append, sinceClear_append]
    cases hop : op.isClear with
    | true =>
      cases op with
      | clear =>
        have hcapacity := capacity_run (⟨capacity, [], 0, 0, 0⟩ : Cache α) ops
        exact remembers_empty _
      | _ => cases hop
    | false => exact ih.apply (by rwa [capacity_run]) hop

/-- An operation that neither uses a key nor clears the cache leaves the entries and their order. -/
theorem entries_apply_of_untouched {op : Operation α} (htouched : op.touched? c = none)
    (hop : op.isClear = false) : (op.apply c).entries = c.entries := by
  cases op with
  | get key =>
    have hhas : c.has key = false := by simpa [Operation.touched?] using htouched
    rw [Operation.apply, get_of_not_has hhas]
  | has key => rfl
  | stats => rfl
  | clear => cases hop
  | _ => cases htouched

/-- A cache is least-recently-used, and its counts balance.  A new cache with room for an entry is
used in any way.  A key is cached exactly when something was stored under it since the last `clear`
and fewer other keys than there is room for were used after its last use, and what is found under it
was stored there last.  There are never more entries than room; hits and misses are the look-ups
since the last `clear`, and evictions and entries are the stores since then of keys that were not
cached.  Asking whether a key is cached, reading the counts and looking a key up in vain uses no key
and leaves the entries and their order. -/
theorem run_holds_last_used {capacity : Nat} (hroom : 0 < capacity) :
    ∃ start : Cache α, new capacity = .ok start ∧ ∀ ops : List (Operation α),
      (∀ key, (start.run ops).has key = true ↔
        (∃ entry, (key, entry) ∈ stores (start.sinceClear ops)) ∧
          (touchesAfter (start.sinceClear ops) key).toFinset.card < capacity) ∧
      (∀ key entry, ((start.run ops).get key).1 = some entry →
        (stores (start.sinceClear ops)).lookup key = some entry) ∧
      (start.run ops).stats.entries ≤ capacity ∧
      (start.run ops).stats.hits + (start.run ops).stats.misses =
        (start.sinceClear ops).countP (·.operation.isLookUp) ∧
      (start.run ops).stats.evictions + (start.run ops).stats.entries =
        (start.sinceClear ops).countP (fun m => m.operation.storesNew m.cache) ∧
      ∀ op : Operation α, op.touched? (start.run ops) = none → op.isClear = false →
        (op.apply (start.run ops)).entries = (start.run ops).entries := by
  refine ⟨⟨capacity, [], 0, 0, 0⟩, if_neg (by omega), fun ops => ?_⟩
  have hremembers := remembers_run hroom ops
  have hcapacity : (run (⟨capacity, [], 0, 0, 0⟩ : Cache α) ops).capacity = capacity :=
    capacity_run _ ops
  have hrecalls := hremembers.recalls
  refine ⟨fun key => ?_, fun key entry hget => ?_, ?_, hremembers.lookUps, hremembers.newStores,
    fun op htouched hop => entries_apply_of_untouched htouched hop⟩
  · rw [hrecalls.has_iff, hcapacity, touchesAfter]
  · have hall : All (fun k a => (stores _).lookup k = some a) _ := hrecalls.entries
    exact hall.get_some hget
  · calc (run (⟨capacity, [], 0, 0, 0⟩ : Cache α) ops).size
        ≤ (run (⟨capacity, [], 0, 0, 0⟩ : Cache α) ops).capacity := hrecalls.size_le
      _ = capacity := hcapacity

/-- In a cache with room for two entries, the one that was looked up stays and the other one goes. -/
theorem run_holds_last_used_pair :
    let ops : List (Operation Nat) :=
      [.set "c" 0, .clear, .set "a" 1, .set "b" 2, .get "a", .getOrInsert "c" fun _ => 3]
    ∃ start : Cache Nat, new 2 = .ok start ∧ (start.run ops).has "a" = true ∧
      (start.run ops).has "b" = false ∧ (start.run ops).has "c" = true ∧
      (start.run ops).stats.evictions + (start.run ops).stats.entries = 3 ∧
      (start.run ops).stats.hits + (start.run ops).stats.misses = 2 := by
  intro ops
  obtain ⟨start, hstart, hruns⟩ := @run_holds_last_used Nat 2 (by decide)
  obtain rfl : start = ⟨2, [], 0, 0, 0⟩ := Except.ok.inj hstart.symm
  obtain ⟨hhas, -, -, hlookUps, hnew, -⟩ := hruns ops
  refine ⟨_, hstart, (hhas "a").mpr ⟨⟨1, by decide⟩, by decide⟩, ?_,
    (hhas "c").mpr ⟨⟨3, by decide⟩, by decide⟩, hnew, hlookUps⟩
  rw [← Bool.not_eq_true, hhas]
  exact fun h => absurd h.2 (by decide)

end AccessPolicy.Cache
