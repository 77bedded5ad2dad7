import AccessPolicy.Proofs.Cache.History
import AccessPolicy.Proofs.SharedCache

/-!
# Costs of queries — two look-ups or none

A query is refused before the cache is used, or it looks up the common values and the values of the
subject.  Where there is room for two entries both are there afterwards, so the next query about the
same data finds them, whatever its roles and its action are.
-/

namespace AccessPolicy

namespace Cache

variable {α : Type} {c : Cache α} {key other : String}

/-! ## One look-up -/

/-- A look-up that may store its key is counted once. -/
theorem counted_getOrInsert (c : Cache α) (key : String) (create : Unit → α) :
    (c.getOrInsert key create).2.hits + (c.getOrInsert key create).2.misses =
      c.hits + c.misses + 1 := by
  cases hhas : c.has key with
  | true =>
    obtain ⟨entry, -, hget⟩ := get_of_has hhas
    rw [getOrInsert_of_has hhas, hget]
    exact Nat.add_right_comm _ _ _
  | false =>
    rw [getOrInsert_of_not_has hhas]
    unfold set
    split <;> rfl

theorem capacity_getOrInsert (c : Cache α) (key : String) (create : Unit → α) :
    (c.getOrInsert key create).2.capacity = c.capacity :=
  capacity_apply c (.getOrInsert key create)

/-- The other keys after a look-up are those from before, or all of them but the last. -/
theorem keys_getOrInsert (c : Cache α) (key : String) (create : Unit → α) :
    (c.getOrInsert key create).2.keys = key :: c.keys.filter (· ≠ key) ∨
      c.capacity ≤ c.size ∧ (c.getOrInsert key create).2.keys = key :: c.keys.dropLast := by
  cases hhas : c.has key with
  | true =>
    obtain ⟨entry, -, hget⟩ := get_of_has hhas
    refine .inl ?_
    rw [getOrInsert_of_has hhas, hget, keys, List.map_cons, keys_others]
  | false =>
    -- the look-up only counts, so the key is stored in a cache with the same entries
    have hmissed : { c with misses := c.misses + 1 }.has key = false := hhas
    rw [getOrInsert_of_not_has hhas]
    by_cases hfull : c.capacity ≤ c.size
    · refine .inr ⟨hfull, ?_⟩
      rw [set_of_full hmissed hfull, others_of_not_has hmissed, keys, List.map_cons,
        List.map_dropLast, keys]
    · refine .inl ?_
      have hroom : { c with misses := c.misses + 1 }.size < c.capacity := Nat.lt_of_not_le hfull
      rw [set_of_room (.inr hroom), keys, List.map_cons, keys_others]
      rfl

theorem head?_keys_getOrInsert (c : Cache α) (key : String) (create : Unit → α) :
    (c.getOrInsert key create).2.keys.head? = some key := by
  rcases keys_getOrInsert c key create with hkeys | ⟨-, hkeys⟩ <;> rw [hkeys] <;> rfl

theorem has_of_head? (h : c.keys.head? = some key) : c.has key = true :=
  has_iff_mem_keys.mpr (List.mem_of_mem_head? h)

theorem has_getOrInsert (c : Cache α) (key : String) (create : Unit → α) :
    (c.getOrInsert key create).2.has key = true :=
  has_of_head? (head?_keys_getOrInsert c key create)

/-- Where there is room for two entries, the key that was used last survives a look-up. -/
theorem has_getOrInsert_of_head? (h : c.keys.head? = some other) (hroom : 2 ≤ c.capacity)
    (key : String) (create : Unit → α) : (c.getOrInsert key create).2.has other = true := by
  rw [has_iff_mem_keys]
  have hother : other ∈ c.keys := List.mem_of_mem_head? h
  rcases keys_getOrInsert c key create with hkeys | ⟨hfull, hkeys⟩ <;> rw [hkeys, List.mem_cons]
  · by_cases hne : other = key
    · exact .inl hne
    · exact .inr (List.mem_filter.mpr ⟨hother, decide_eq_true hne⟩)
  · -- only the last one of at least two keys is dropped
    obtain ⟨rest, hrest⟩ := List.head?_eq_some_iff.mp h
    have hlength : c.keys.length = c.size := length_keys c
    cases rest with
    | nil => rw [hrest, List.length_singleton] at hlength; omega
    | cons next rest => rw [hrest, List.dropLast_cons_cons]; exact .inr List.mem_cons_self

/-! ### Finding a key -/

/-- A look-up that finds its key is a hit, and no key is dropped. -/
theorem getOrInsert_hit (h : c.has key = true) (create : Unit → α) :
    (c.getOrInsert key create).2.hits = c.hits + 1 ∧
      (c.getOrInsert key create).2.misses = c.misses ∧
      (c.getOrInsert key create).2.evictions = c.evictions := by
  obtain ⟨entry, -, hget⟩ := get_of_has h
  rw [getOrInsert_of_has h, hget]
  exact ⟨rfl, rfl, rfl⟩

theorem has_getOrInsert_of_has (h : c.has key = true) (hother : c.has other = true)
    (create : Unit → α) : (c.getOrInsert key create).2.has other = true := by
  obtain ⟨entry, -, hget⟩ := get_of_has h
  rw [getOrInsert_of_has h, hget, has_iff_mem_keys, keys, List.map_cons, keys_others, List.mem_cons,
    List.mem_filter]
  by_cases hne : other = key
  · exact .inl hne
  · exact .inr ⟨has_iff_mem_keys.mp hother, decide_eq_true hne⟩

/-! ### Refreshing -/

theorem keys_refresh (c : Cache α) (key : String) (entry : α) : (c.refresh key entry).keys = c.keys :=
  List.map_map

theorem stats_refresh (c : Cache α) (key : String) (entry : α) :
    (c.refresh key entry).stats = c.stats := by
  unfold stats size refresh
  rw [List.length_map]

end Cache

namespace Query

/-- The action that a query asks about, if it asks about a single one. -/
def action? : Query → Option String
  | .decide _ action | .can _ action => some action
  | .allowedActions _ | .forbiddenActions _ => none

end Query

namespace AccessRequest

/-- The requests are about the same data; their roles may differ. -/
structure SameData (r r' : AccessRequest) : Prop where
  user : r'.user = r.user
  environment : r'.environment = r.environment
  subject : r'.subject = r.subject
  resource : r'.resource = r.resource

end AccessRequest

namespace Evaluator

/-! ## Refusals and answers -/

/-- Why a query is refused. -/
inductive Refusal (e : Evaluator) (q : Query) : PolicyError → Prop where
  | subject (hsubject : e.policy.subject? q.request.subject = none) :
    Refusal e q (.usage (.unknownSubject q.request.subject))
  | action {s : PolicySubject} {action : String}
    (hsubject : e.policy.subject? q.request.subject = some s) (haction : q.action? = some action)
    (hcoord : s.actions.coord? action = none) : Refusal e q (.usage (.unknownAction action s.name))
  | role {name : String} (hstrict : e.settings.strictRoles = true) (hname : name ∈ q.request.roles)
    (hrole : e.policy.role? name = none) : Refusal e q (.usage (.unknownRole name))

/-- How the steps of a query go on any cache: they are refused without using it, or nothing speaks
against the query and the cache is used to match the rules of some roles. -/
inductive Outcome (e : Evaluator) (q : Query) {α : Type} (m : EvaluatorM α) : Prop where
  | refused {err : PolicyError} (h : e.Refusal q err) (hrun : ∀ c : ValueCache, m c = (.error err, c))
  | answered (s : PolicySubject) (roles : List Role)
    (hsubject : e.policy.subject? q.request.subject = some s) (haccepted : ∀ err, ¬ e.Refusal q err)
    (hrun : ∀ c : ValueCache, ∃ a, m c = (.ok a, (e.matchCached q.request s roles c).2))

variable {e : Evaluator} {q : Query}

namespace Outcome

variable {α β : Type}

theorem check_bind {x : Except PolicyError α} {f : α → EvaluatorM β}
    (herror : ∀ err, x = .error err → e.Refusal q err) (hf : ∀ a, x = .ok a → e.Outcome q (f a)) :
    e.Outcome q ((liftM x : EvaluatorM α) >>= f) := by
  cases x with
  | error err => exact .refused (herror err rfl) fun _ => rfl
  | ok a => exact hf a rfl

theorem bind_pure {m : EvaluatorM α} (h : e.Outcome q m) (f : α → β) :
    e.Outcome q (m >>= fun a => pure (f a)) := by
  cases h with
  | refused h hrun => exact .refused h fun c => by rw [Steps.bind_run, hrun c]
  | answered s roles hsubject haccepted hrun =>
    refine .answered s roles hsubject haccepted fun c => ?_
    obtain ⟨a, hc⟩ := hrun c
    exact ⟨f a, by rw [Steps.bind_run, hc]; rfl⟩

end Outcome

theorem refusal_of_requireSubject {err : PolicyError}
    (h : e.requireSubject q.request.subject = .error err) : e.Refusal q err := by
  unfold requireSubject at h
  split at h
  · exact nomatch h
  · rename_i hsubject
    obtain rfl := Except.error.inj h
    exact .subject hsubject

theorem refusal_of_activeRoles {err : PolicyError}
    (h : e.activeRoles q.request.roles = .error err) : e.Refusal q err := by
  rw [activeRoles_eq_match] at h
  split at h
  · rename_i name hfind
    obtain rfl := Except.error.inj h
    have hrefused := List.find?_some hfind
    rw [refusesRole, Bool.and_eq_true, Option.isNone_iff_eq_none] at hrefused
    exact .role hrefused.1 (List.mem_of_find?_eq_some hfind) hrefused.2
  · cases h

section

variable {s : PolicySubject} (hsubject : e.policy.subject? q.request.subject = some s)
include hsubject

theorem not_refusal (haction : ∀ action ∈ q.action?, (s.actions.coord? action).isSome = true)
    (hroles : ∀ name ∈ q.request.roles, e.refusesRole name = false) (err : PolicyError) :
    ¬ e.Refusal q err := by
  rintro (hnone | ⟨hsubject', hasked, hcoord⟩ | ⟨hstrict, hname, hrole⟩)
  · exact nomatch hsubject.symm.trans hnone
  · obtain rfl := Option.some.inj (hsubject.symm.trans hsubject')
    exact nomatch (haction _ hasked).symm.trans (congrArg Option.isSome hcoord)
  · have haccepted := hroles _ hname
    rw [refusesRole, hstrict, hrole] at haccepted
    exact absurd haccepted (by decide)

/-- Once the subject and the action are known, only a role can be the reason of a refusal. -/
theorem outcome_merge (haction : ∀ action ∈ q.action?, (s.actions.coord? action).isSome = true) :
    e.Outcome q (e.merge q.request s) := by
  refine .check_bind (fun _ => refusal_of_activeRoles) fun roles hroles => ?_
  obtain ⟨hknown, -⟩ := activeRoles_eq_ok_iff.mp hroles
  exact .answered s roles hsubject (not_refusal hsubject haction hknown) fun c => ⟨_, rfl⟩

theorem outcome_requireAction {α : Type} {action : String} (haction : q.action? = some action)
    {f : BitCoord → EvaluatorM α}
    (hf : ∀ coord, s.actions.coord? action = some coord → e.Outcome q (f coord)) :
    e.Outcome q ((liftM (requireAction s action) : EvaluatorM BitCoord) >>= f) := by
  refine .check_bind (fun err h => ?_) fun coord h => ?_ <;> unfold requireAction at h <;> split at h
  · exact nomatch h
  · rename_i hcoord
    obtain rfl := Except.error.inj h
    exact .action hsubject haction hcoord
  · rename_i hcoord
    obtain rfl := Except.ok.inj h
    exact hf _ hcoord
  · exact nomatch h

end

theorem outcome_decide {action : String} (haction : q.action? = some action) :
    e.Outcome q (e.decide q.request action) := by
  refine .check_bind (fun _ => refusal_of_requireSubject) fun s hs => ?_
  have hsubject := requireSubject_eq_ok hs
  refine outcome_requireAction hsubject haction fun coord hcoord => .bind_pure ?_ _
  refine outcome_merge hsubject fun action' haction' => ?_
  obtain rfl := Option.some.inj (haction.symm.trans haction')
  exact congrArg Option.isSome hcoord

theorem outcome_actionsWith (haction : q.action? = none) (wanted : Resolution) :
    e.Outcome q (e.actionsWith q.request wanted) := by
  refine .check_bind (fun _ => refusal_of_requireSubject) fun s hs => .bind_pure ?_ _
  refine outcome_merge (requireSubject_eq_ok hs) fun action haction' => ?_
  exact nomatch haction.symm.trans haction'

theorem outcome_ask (e : Evaluator) (q : Query) : e.Outcome q (e.ask q) := by
  cases q with
  | decide r action => exact .bind_pure (outcome_decide rfl) _
  | can r action => exact .bind_pure (.bind_pure (outcome_decide rfl) _) _
  | allowedActions r => exact .bind_pure (outcome_actionsWith rfl _) _
  | forbiddenActions r => exact .bind_pure (outcome_actionsWith rfl _) _

theorem exists_ask_eq_ok (h : ∀ err, ¬ e.Refusal q err) (c : ValueCache) :
    ∃ a, e.ask q c = (.ok a, (e.ask q c).2) := by
  cases outcome_ask e q with
  | refused hrefusal hrun => exact absurd hrefusal (h _)
  | answered s roles hsubject haccepted hrun =>
    obtain ⟨a, hc⟩ := hrun c
    exact ⟨a, by rw [hc]⟩

theorem exists_ask_eq_error {err : PolicyError} (h : e.Refusal q err) (c : ValueCache) :
    ∃ err', e.ask q c = (.error err', (e.ask q c).2) := by
  cases outcome_ask e q with
  | refused hrefusal hrun => exact ⟨_, by rw [hrun c]⟩
  | answered s roles hsubject haccepted hrun => exact absurd h (haccepted _)

/-! ## Two look-ups -/

theorem commonValues_snd (key : String) (create : Unit → CommonValues) (c : ValueCache) :
    (ValueCache.commonValues key create c).2 =
      (Cache.getOrInsert c key fun () => .common (create ())).2 := by
  unfold ValueCache.commonValues
  split <;> rename_i h <;> rw [h]

theorem subjectValues_snd (key : String) (create : Unit → SubjectValues) (c : ValueCache) :
    (ValueCache.subjectValues key create c).2 =
      (Cache.getOrInsert c key fun () => .subject (create ())).2 := by
  unfold ValueCache.subjectValues
  split <;> rename_i h <;> rw [h]

/-- The cache is `c` after looking up `first` and then `second`, as far as keys and counts go. -/
def LookedUp (first second : String) (c c' : ValueCache) : Prop :=
  ∃ create create' : Unit → CachedValues,
    let found := (Cache.getOrInsert (Cache.getOrInsert c first create).2 second create').2
    c'.keys = found.keys ∧ c'.stats = found.stats

theorem lookedUp_matchCached (e : Evaluator) (r : AccessRequest) (s : PolicySubject)
    (roles : List Role) (c : ValueCache) :
    LookedUp (e.commonKey r) (e.subjectKey r s) c (e.matchCached r s roles c).2 := by
  let common := ValueCache.commonValues (e.commonKey r)
    (fun () => .new e.policy.commonProgram r.user r.environment) c
  let values := ValueCache.subjectValues (e.subjectKey r s)
    (fun () => .new (e.policy.subjectProgram s) common.1 r.resource) common.2
  have hrun : (e.matchCached r s roles c).2 = ValueCache.keep (e.commonKey r) (e.subjectKey r s)
    (matchRoles s.name roles values.1).2 values.2 := rfl
  have hvalues : values.2 = _ := subjectValues_snd _ _ _
  have hcommon : common.2 = _ := commonValues_snd _ _ _
  rw [hvalues, hcommon] at hrun
  -- the vectors that were read are put back, which moves no key and counts nothing
  refine ⟨fun () => .common (.new e.policy.commonProgram r.user r.environment),
    fun () => .subject (.new (e.policy.subjectProgram s) common.1 r.resource), ?_, ?_⟩ <;>
    rw [hrun, ValueCache.keep]
  · rw [Cache.keys_refresh, Cache.keys_refresh]
  · rw [Cache.stats_refresh, Cache.stats_refresh]

namespace LookedUp

variable {first second : String} {c c' : ValueCache} (h : LookedUp first second c c')
include h

theorem counted : c'.hits + c'.misses = c.hits + c.misses + 2 := by
  obtain ⟨create, create', -, hstats⟩ := h
  calc c'.hits + c'.misses
      = _ := congrArg (fun stats : CacheStats => stats.hits + stats.misses) hstats
    _ = _ := Cache.counted_getOrInsert _ second create'
    _ = _ := congrArg (· + 1) (Cache.counted_getOrInsert c first create)

theorem has_second : c'.has second = true := by
  obtain ⟨create, create', hkeys, -⟩ := h
  rw [Cache.has_iff_mem_keys, hkeys, ← Cache.has_iff_mem_keys]
  exact Cache.has_getOrInsert _ second create'

/-- The second look-up does not drop the key of the first one. -/
theorem has_first (hroom : 2 ≤ c.capacity) : c'.has first = true := by
  obtain ⟨create, create', hkeys, -⟩ := h
  rw [Cache.has_iff_mem_keys, hkeys, ← Cache.has_iff_mem_keys]
  -- the first key was used just before, so it is not the one that is dropped
  refine Cache.has_getOrInsert_of_head? (Cache.head?_keys_getOrInsert c first create) ?_ _ _
  rwa [Cache.capacity_getOrInsert]

theorem hits_of_has (hfirst : c.has first = true) (hsecond : c.has second = true) :
    c'.hits = c.hits + 2 ∧ c'.misses = c.misses ∧ c'.evictions = c.evictions := by
  obtain ⟨create, create', -, hstats⟩ := h
  obtain ⟨hhits, hmisses, hevictions⟩ := Cache.getOrInsert_hit hfirst create
  obtain ⟨hhits', hmisses', hevictions'⟩ :=
    Cache.getOrInsert_hit (Cache.has_getOrInsert_of_has hfirst hsecond create) create'
  refine ⟨?_, ?_, ?_⟩
  · calc c'.hits
        = _ := congrArg CacheStats.hits hstats
      _ = _ := hhits'
      _ = _ := congrArg (· + 1) hhits
  · exact ((congrArg CacheStats.misses hstats).trans hmisses').trans hmisses
  · exact ((congrArg CacheStats.evictions hstats).trans hevictions').trans hevictions

end LookedUp

/-! ## Costs -/

section

variable {e' : Evaluator} {r r' : AccessRequest}
  (hversion : e'.policy.schemaVersion = e.policy.schemaVersion) (hdata : r.SameData r')
include hversion hdata

theorem commonKey_congr : e'.commonKey r' = e.commonKey r := by
  rw [commonKey, commonKey, hversion, hdata.user, hdata.environment]

theorem subjectKey_congr {s s' : PolicySubject} (hs : e.policy.subject? r.subject = some s)
    (hs' : e'.policy.subject? r'.subject = some s') : e'.subjectKey r' s' = e.subjectKey r s := by
  rw [subjectKey, subjectKey, hversion, commonKey_congr hversion hdata, hdata.resource,
    LookUp.subject_name (l := ⟨e', r'⟩) hs', LookUp.subject_name (l := ⟨e, r⟩) hs, hdata.subject]

end

theorem lookedUp_ask {c c' : ValueCache} {a : Answer} (hask : e.ask q c = (.ok a, c')) :
    (∀ err, ¬ e.Refusal q err) ∧ ∃ s, e.policy.subject? q.request.subject = some s ∧
      LookedUp (e.commonKey q.request) (e.subjectKey q.request s) c c' := by
  cases outcome_ask e q with
  | refused h hrun => exact nomatch (hrun c).symm.trans hask
  | answered s roles hsubject haccepted hrun =>
    obtain ⟨b, hc⟩ := hrun c
    obtain ⟨-, rfl⟩ := Prod.mk.inj (hc.symm.trans hask)
    exact ⟨haccepted, s, hsubject, lookedUp_matchCached e q.request s roles c⟩

/-- A query that is refused leaves the cache as it was, and an answered one costs two look-ups.
Refused are exactly the queries about an unknown subject or action, and under strict roles those
with an unknown role.  Where there is room for two entries, both keys of an answered query are
cached afterwards.  If the next query is about the same data, of an evaluator with the same version,
and is answered too, then whatever its roles and its action are, it is two hits and nothing else. -/
theorem ask_cost (e : Evaluator) (q : Query) (c c' : ValueCache) :
    (∀ err, e.ask q c = (.error err, c') → c' = c ∧ e.Refusal q err) ∧
    ∀ a, e.ask q c = (.ok a, c') →
      (∀ err, ¬ e.Refusal q err) ∧
      c'.hits + c'.misses = c.hits + c.misses + 2 ∧
      (2 ≤ c.capacity →
        (∃ s, e.policy.subject? q.request.subject = some s ∧
          c'.has (e.commonKey q.request) = true ∧ c'.has (e.subjectKey q.request s) = true) ∧
        ∀ (e' : Evaluator) (q' : Query) (a' : Answer) (c'' : ValueCache),
          e'.policy.schemaVersion = e.policy.schemaVersion → q.request.SameData q'.request →
          e'.ask q' c' = (.ok a', c'') →
          c''.hits = c'.hits + 2 ∧ c''.misses = c'.misses ∧ c''.evictions = c'.evictions) := by
  refine ⟨fun err hask => ?_, fun a hask => ?_⟩
  · cases outcome_ask e q with
    | refused h hrun =>
      obtain ⟨herr, rfl⟩ := Prod.mk.inj ((hrun c).symm.trans hask)
      obtain rfl := Except.error.inj herr
      exact ⟨rfl, h⟩
    | answered s roles hsubject haccepted hrun =>
      obtain ⟨a, hc⟩ := hrun c
      exact nomatch hc.symm.trans hask
  · obtain ⟨haccepted, s, hs, hlooked⟩ := lookedUp_ask hask
    refine ⟨haccepted, hlooked.counted, fun hroom => ?_⟩
    have hcommon := hlooked.has_first hroom
    have hsubject := hlooked.has_second
    refine ⟨⟨s, hs, hcommon, hsubject⟩, fun e' q' a' c'' hversion hdata hask' => ?_⟩
    obtain ⟨-, s', hs', hlooked'⟩ := lookedUp_ask hask'
    -- neither key mentions roles or an action
    rw [commonKey_congr hversion hdata, subjectKey_congr hversion hdata hs hs'] at hlooked'
    exact hlooked'.hits_of_has hcommon hsubject

/-- On a full cache with room for two entries, a refused query changes nothing, and a query with
other roles about another action finds what the answered one before it stored. -/
theorem ask_cost_two :
    let m : Model := {
      user := "U"
      concepts := [{ name := "U" }]
      subjects := [⟨"S", "U", [⟨"a", none⟩, ⟨"b", none⟩]⟩]
      roles := [⟨"R", [⟨"S", [.allowEverything]⟩]⟩] }
    let r (roles : List String) : AccessRequest :=
      { user := .null, roles, subject := "S", resource := .int 7 }
    ∃ p, m.compile "" = .ok p ∧
      let e : Evaluator := ⟨p, {}⟩
      let old := CachedValues.common (.new p.commonProgram .null .null)
      let c : ValueCache := ⟨2, [("x", old), ("y", old)], 3, 1, 4⟩
      let c' := (e.ask (.decide (r ["R"]) "a") c).2
      let c'' := (e.ask (.can (r []) "b") c').2
      (e.ask (.can (r ["?"]) "a") c).2 = c ∧ c'.hits + c'.misses = 6 ∧
        c''.hits = c'.hits + 2 ∧ c''.misses = c'.misses ∧ c''.evictions = c'.evictions := by
  intro m r
  obtain ⟨p, hcompile, hp⟩ := Steps.exists_eq_ok_of_any (x := m.compile "")
    (q := fun p => (p.role? "R").isSome && (p.role? "?").isNone && (p.subject? "S").any fun s =>
      (s.actions.coord? "a").isSome && (s.actions.coord? "b").isSome) (by decide +kernel)
  simp only [Bool.and_eq_true, Option.isNone_iff_eq_none, Option.any_eq_true] at hp
  obtain ⟨⟨hrole, hunknown⟩, s, hs, ha, hb⟩ := hp
  refine ⟨p, hcompile, ?_⟩
  intro e old c c' c''
  have hknown (name : String) (hname : name ∈ ["R"]) : e.refusesRole name = false := by
    obtain rfl := List.mem_singleton.mp hname
    rw [refusesRole, Option.isNone_eq_false_iff.mpr hrole, Bool.and_false]
  obtain ⟨err, hrefused⟩ := exists_ask_eq_error (e := e) (q := .can (r ["?"]) "a")
    (.role rfl List.mem_cons_self hunknown) c
  obtain ⟨x, hfirst⟩ := exists_ask_eq_ok (e := e) (q := .decide (r ["R"]) "a")
    (not_refusal hs (fun _ h => Option.some.inj h ▸ ha) hknown) c
  obtain ⟨y, hsecond⟩ := exists_ask_eq_ok (e := e) (q := .can (r []) "b")
    (not_refusal hs (fun _ h => Option.some.inj h ▸ hb)
      fun _ hname => absurd hname List.not_mem_nil) c'
  obtain ⟨-, hcost, hnext⟩ := (ask_cost e _ c c').2 x hfirst
  exact ⟨((ask_cost e _ c _).1 err hrefused).1, hcost,
    (hnext (le_refl 2)).2 e (.can (r []) "b") y c'' rfl ⟨rfl, rfl, rfl, rfl⟩ hsecond⟩

end Evaluator

end AccessPolicy
