import AccessPolicy.Proofs.Cache.Key
import AccessPolicy.Proofs.Interpretation

/-!
# Shared caches — what is cached never changes an answer

Evaluators of several policies share a cache.  Every cached entry is sound for a request that was
looked up before, and its key tells which one, so each request finds values of its own data or none.
-/

namespace AccessPolicy

/-! ## Queries -/

inductive Query where
  | decide (r : AccessRequest) (action : String)
  | can (r : AccessRequest) (action : String)
  | allowedActions (r : AccessRequest)
  | forbiddenActions (r : AccessRequest)

inductive Answer where
  | decision (d : AccessDecision)
  | permission (granted : Bool)
  | actions (names : List String)

def Query.request : Query → AccessRequest
  | .decide r _ | .can r _ | .allowedActions r | .forbiddenActions r => r

namespace Evaluator

def ask (e : Evaluator) : Query → EvaluatorM Answer
  | .decide r action => return .decision (← e.decide r action)
  | .can r action => return .permission (← e.can r action)
  | .allowedActions r => return .actions (← e.allowedActions r)
  | .forbiddenActions r => return .actions (← e.forbiddenActions r)

/-- The answer to a query, found without a cache. -/
def plainAsk (e : Evaluator) : Query → Except PolicyError Answer
  | .decide r action => return .decision (← e.plainDecide r action)
  | .can r action => return .permission (← e.plainCan r action)
  | .allowedActions r => return .actions (← e.plainActionsWith r .allowed)
  | .forbiddenActions r => return .actions (← e.plainActionsWith r .forbidden)

variable {e : Evaluator}

theorem answers_ask {P : String → CachedValues → Prop} (hpolicy : e.policy.Ordered) (q : Query)
    (hP : ∀ s, e.policy.subject? q.request.subject = some s → e.Serves q.request s P) :
    Answers P (e.ask q) (e.plainAsk q) := by
  cases q with
  | decide r action => exact .bind (answers_decide hpolicy hP action) fun _ _ => .pure _
  | can r action => exact .bind (answers_can hpolicy hP action) fun _ _ => .pure _
  | allowedActions r => exact .bind (answers_actionsWith hpolicy hP _) fun _ _ => .pure _
  | forbiddenActions r => exact .bind (answers_actionsWith hpolicy hP _) fun _ _ => .pure _

theorem refuses_ask (e : Evaluator) (q : Query) : Refuses (e.ask q) (e.plainAsk q) := by
  cases q with
  | decide r action => exact .bind_pure (refuses_decide e r action) _
  | can r action => exact .bind_pure (refuses_can e r action) _
  | allowedActions r => exact .bind_pure (refuses_actionsWith e r _) _
  | forbiddenActions r => exact .bind_pure (refuses_actionsWith e r _) _

end Evaluator

/-! ## What is looked up -/

/-- A request as one evaluator looks it up. -/
structure LookUp where
  evaluator : Evaluator
  request : AccessRequest

namespace AccessRequest

/-- The request holds data with numbers among `N`. -/
structure Holds (N : Json → Prop) (r : AccessRequest) : Prop where
  user : Key.Holds N r.user
  environment : Key.Holds N r.environment
  resource : Key.Holds N r.resource
  subject : Key.Sized r.subject

end AccessRequest

namespace LookUp

/-- What the keys of the look-up are digests of. -/
def commonBytes (l : LookUp) : List UInt8 :=
  Key.commonBytes l.evaluator.policy.schemaVersion l.request.user l.request.environment

def subjectBytes (l : LookUp) : List UInt8 :=
  Key.subjectBytes l.evaluator.policy.schemaVersion (l.evaluator.commonKey l.request)
    l.request.subject l.request.resource

def hashed (l : LookUp) : List (List UInt8) := [l.commonBytes, l.subjectBytes]

theorem subject_name {l : LookUp} {s : PolicySubject}
    (hs : l.evaluator.policy.subject? l.request.subject = some s) : s.name = l.request.subject := by
  have h := List.find?_some hs
  exact of_decide_eq_true h

theorem subjectKey_eq {l : LookUp} {s : PolicySubject}
    (hs : l.evaluator.policy.subject? l.request.subject = some s) :
    l.evaluator.subjectKey l.request s = Blake3.hex l.subjectBytes := by
  rw [Evaluator.subjectKey, subject_name hs]
  rfl

/-- The entry is sound for one of the look-ups and cached under its key. -/
def Justified (ls : List LookUp) (key : String) : CachedValues → Prop
  | .common v => v.Sound ∧ ∃ l ∈ ls, key = l.evaluator.commonKey l.request ∧
      (l.evaluator.freshCommon l.request).SameData v
  | .subject v => v.Sound ∧ ∃ l ∈ ls, ∃ s,
      l.evaluator.policy.subject? l.request.subject = some s ∧
      key = l.evaluator.subjectKey l.request s ∧
      (l.evaluator.freshValues l.request s).SameData v

/-- Look-ups whose keys tell everything about them: versions tell policies apart, texts tell numbers
apart, and digests tell apart what is hashed. -/
structure Distinct (N : Json → Prop) (ls : List LookUp) : Prop where
  numbers : Key.TextsApart N
  policies : ∀ l ∈ ls, ∀ l' ∈ ls,
    l.evaluator.policy.schemaVersion = l'.evaluator.policy.schemaVersion →
    l.evaluator.policy = l'.evaluator.policy
  versions : ∀ l ∈ ls, Key.Sized l.evaluator.policy.schemaVersion
  requests : ∀ l ∈ ls, l.request.Holds N
  digests : ∀ x ∈ ls.flatMap hashed, ∀ y ∈ ls.flatMap hashed,
    Blake3.hex x = Blake3.hex y → x = y

namespace Distinct

variable {N : Json → Prop} {ls : List LookUp} (h : Distinct N ls) {l l' : LookUp} (hl : l ∈ ls)
  (hl' : l' ∈ ls)
include h hl hl'

theorem hex_injective {x y : List UInt8} (hx : x ∈ l.hashed) (hy : y ∈ l'.hashed)
    (hxy : Blake3.hex x = Blake3.hex y) : x = y :=
  h.digests x (List.mem_flatMap.mpr ⟨l, hl, hx⟩) y (List.mem_flatMap.mpr ⟨l', hl', hy⟩) hxy

/-- Common values under one key are of one policy, user and environment. -/
theorem freshCommon_eq
    (hkey : l.evaluator.commonKey l.request = l'.evaluator.commonKey l'.request) :
    l.evaluator.freshCommon l.request = l'.evaluator.freshCommon l'.request := by
  have hbytes : l.commonBytes = l'.commonBytes :=
    h.hex_injective hl hl' List.mem_cons_self List.mem_cons_self hkey
  obtain ⟨hversion, huser, henvironment⟩ := Key.commonBytes_inj h.numbers (h.versions l hl)
    (h.versions l' hl') (h.requests l hl).user (h.requests l' hl').user
    (h.requests l hl).environment (h.requests l' hl').environment hbytes
  rw [Evaluator.freshCommon, Evaluator.freshCommon, h.policies l hl l' hl' hversion, huser,
    henvironment]

theorem commonKey_ne_subjectKey {s : PolicySubject}
    (hs : l'.evaluator.policy.subject? l'.request.subject = some s) :
    l.evaluator.commonKey l.request ≠ l'.evaluator.subjectKey l'.request s := by
  intro hkey
  rw [subjectKey_eq hs] at hkey
  have hbytes : l.commonBytes = l'.subjectBytes :=
    h.hex_injective hl hl' List.mem_cons_self (List.mem_cons_of_mem _ List.mem_cons_self) hkey
  exact Key.commonBytes_ne_subjectBytes _ _ _ _ _ _ _ hbytes

theorem freshValues_eq {s s' : PolicySubject}
    (hs : l.evaluator.policy.subject? l.request.subject = some s)
    (hs' : l'.evaluator.policy.subject? l'.request.subject = some s')
    (hkey : l.evaluator.subjectKey l.request s = l'.evaluator.subjectKey l'.request s') :
    l.evaluator.freshValues l.request s = l'.evaluator.freshValues l'.request s' := by
  rw [subjectKey_eq hs, subjectKey_eq hs'] at hkey
  have hbytes : l.subjectBytes = l'.subjectBytes := h.hex_injective hl hl'
    (List.mem_cons_of_mem _ List.mem_cons_self) (List.mem_cons_of_mem _ List.mem_cons_self) hkey
  obtain ⟨hversion, hcommon, hsubject, hresource⟩ := Key.subjectBytes_inj h.numbers
    (h.versions l hl) (h.versions l' hl') (Key.sized_hex _) (Key.sized_hex _)
    (h.requests l hl).subject (h.requests l' hl').subject (h.requests l hl).resource
    (h.requests l' hl').resource hbytes
  -- one policy has one subject under the name
  have hpolicy := h.policies l hl l' hl' hversion
  rw [hpolicy, hsubject, hs'] at hs
  obtain rfl := Option.some.inj hs
  rw [Evaluator.freshValues, Evaluator.freshValues, h.freshCommon_eq hl hl' hcommon, hpolicy,
    hresource]

omit hl' in
/-- Entries that are justified serve each of the look-ups. -/
theorem serves {s : PolicySubject}
    (hs : l.evaluator.policy.subject? l.request.subject = some s) :
    l.evaluator.Serves l.request s (Justified ls) where
  common {x} hx := by
    cases x with
    | common v =>
      obtain ⟨hsound, l', hl', hkey, hsame⟩ := hx
      rw [h.freshCommon_eq hl hl' hkey]
      exact ⟨hsound, hsame⟩
    | subject v =>
      -- values of a subject are never stored under the key of common ones
      obtain ⟨-, l', hl', s', hs', hkey, -⟩ := hx
      exact absurd hkey (h.commonKey_ne_subjectKey hl hl' hs')
  subject {v} hv := by
    obtain ⟨hsound, l', hl', s', hs', hkey, hsame⟩ := hv
    rw [h.freshValues_eq hl hl' hs hs' hkey]
    exact ⟨hsound, hsame⟩
  storeCommon hsound hsame := ⟨hsound, l, hl, rfl, hsame⟩
  storeSubject hsound hsame := ⟨hsound, l, hl, s, hs, rfl, hsame⟩

end Distinct

end LookUp

/-! ## Runs -/

/-- What can be done with a shared cache: ask one of its evaluators, or use the cache itself. -/
inductive CacheCall where
  | ask (e : Evaluator) (q : Query)
  | get (key : String)
  | has (key : String)
  | stats
  | clear

inductive CacheReply where
  | answer (x : Except PolicyError Answer)
  | entry (v : Option CachedValues)
  | present (b : Bool)
  | stats (s : CacheStats)
  | cleared

namespace CacheCall

def run : CacheCall → ValueCache → CacheReply × ValueCache
  | .ask e q, c => (.answer (e.ask q c).1, (e.ask q c).2)
  | .get key, c => (.entry (c.get key).1, (c.get key).2)
  | .has key, c => (.present (c.has key), c)
  | .stats, c => (.stats c.stats, c)
  | .clear, c => (.cleared, c.clear)

/-- One call after the other on the same cache. -/
def runAll : List CacheCall → ValueCache → List CacheReply × ValueCache
  | [], c => ([], c)
  | call :: rest, c =>
    let (reply, c) := call.run c
    let (replies, c) := runAll rest c
    (reply :: replies, c)

/-- The look-up of a query that is not refused. -/
def lookUp? : CacheCall → Option LookUp
  | .ask e q => if (e.plainAsk q).isOk then some ⟨e, q.request⟩ else none
  | _ => none

theorem mem_lookUps {calls : List CacheCall} {e : Evaluator} {q : Query} {a : Answer}
    (hcall : .ask e q ∈ calls) (ha : e.plainAsk q = .ok a) :
    ⟨e, q.request⟩ ∈ calls.filterMap lookUp? := by
  refine List.mem_filterMap.mpr ⟨_, hcall, ?_⟩
  rw [lookUp?, ha]
  rfl

theorem exists_call {calls : List CacheCall} {l : LookUp} (hl : l ∈ calls.filterMap lookUp?) :
    ∃ q, .ask l.evaluator q ∈ calls ∧ l.request = q.request := by
  obtain ⟨call, hcall, hlookUp⟩ := List.mem_filterMap.mp hl
  cases call with
  | ask e q =>
    rw [lookUp?] at hlookUp
    split at hlookUp
    · obtain rfl := Option.some.inj hlookUp
      exact ⟨q, hcall, rfl⟩
    · exact absurd hlookUp (by simp)
  | _ => exact absurd hlookUp (by simp [lookUp?])

section

variable {N : Json → Prop} {calls : List CacheCall}
  (hdistinct : LookUp.Distinct N (calls.filterMap lookUp?))
  (hordered : ∀ e q, .ask e q ∈ calls → e.policy.Ordered)
include hdistinct hordered

/-- Whatever justified entries are cached, a query is answered as without a cache. -/
theorem ask_run {e : Evaluator} {q : Query} (hcall : .ask e q ∈ calls) {c : ValueCache}
    (hc : Cache.All (LookUp.Justified (calls.filterMap lookUp?)) c) :
    ∃ c' : ValueCache, e.ask q c = (e.plainAsk q, c') ∧
      Cache.All (LookUp.Justified (calls.filterMap lookUp?)) c' := by
  cases ha : e.plainAsk q with
  | error err =>
    -- a refused query looks nothing up, so nothing is known or needed of its keys
    exact ⟨c, Evaluator.refuses_ask e q err ha c, hc⟩
  | ok a =>
    have hl := mem_lookUps hcall ha
    rw [← ha]
    exact Evaluator.answers_ask (hordered e q hcall) q (fun s hs => hdistinct.serves hl hs) c hc

/-- Each call leaves justified entries behind. -/
theorem run_all {call : CacheCall} (hcall : call ∈ calls) {c : ValueCache}
    (hc : Cache.All (LookUp.Justified (calls.filterMap lookUp?)) c) :
    Cache.All (LookUp.Justified (calls.filterMap lookUp?)) (call.run c).2 := by
  cases call with
  | ask e q =>
    obtain ⟨c', hrun, hc'⟩ := ask_run hdistinct hordered hcall hc
    rw [run, hrun]
    exact hc'
  | get key => exact hc.get key
  | has key => exact hc
  | stats => exact hc
  | clear => exact .clear

theorem runAll_ask {part : List CacheCall} (hpart : ∀ call ∈ part, call ∈ calls) {c : ValueCache}
    (hc : Cache.All (LookUp.Justified (calls.filterMap lookUp?)) c) {i : Nat} {e : Evaluator}
    {q : Query} (hi : part[i]? = some (.ask e q)) :
    (runAll part c).1[i]? = some (.answer (e.plainAsk q)) := by
  -- the invariant of the cache is carried through the calls before the query
  induction part generalizing c i with
  | nil => exact absurd hi (by simp)
  | cons call rest ih =>
    have hcall := hpart call List.mem_cons_self
    cases i with
    | zero =>
      obtain rfl := Option.some.inj hi
      obtain ⟨c', hrun, -⟩ := ask_run hdistinct hordered hcall hc
      rw [runAll, run, hrun]
      rfl
    | succ i =>
      exact ih (fun call hmem => hpart call (List.mem_cons_of_mem _ hmem))
        (run_all hdistinct hordered hcall hc) hi

/-- Whatever calls were run, the cache is trusted for the queries that are answered. -/
theorem trusts_runAll {part : List CacheCall} (hpart : ∀ call ∈ part, call ∈ calls) {c : ValueCache}
    (hc : Cache.All (LookUp.Justified (calls.filterMap lookUp?)) c) {e : Evaluator} {q : Query}
    {a : Answer} (hcall : .ask e q ∈ calls) (ha : e.plainAsk q = .ok a) :
    e.Trusts q.request (runAll part c).2 := by
  induction part generalizing c with
  | nil =>
    have hl := mem_lookUps hcall ha
    exact Evaluator.trusts_of_serves (fun s hs => hdistinct.serves hl hs) hc
  | cons call rest ih =>
    obtain ⟨hfirst, hrest⟩ := List.forall_mem_cons.mp hpart
    exact ih hrest (run_all hdistinct hordered hfirst hc)

end

/-- The cache never changes an answer.  Evaluators of compiled policies with different versions
share a cache; whatever was asked before, and however the cache was read and cleared in between,
each query is answered as a new evaluator of the same policy answers it with a cache of its own.
The numbers of the requests have different texts, and no two byte strings that are hashed have the
same digest. -/
theorem runAll_eq_alone (policies : List Policy)
    (hcompiled : ∀ p ∈ policies, ∃ m sourceId, Model.compile m sourceId = .ok p)
    (hversions : (policies.map (·.schemaVersion)).Nodup) (N : Json → Prop)
    (hnumbers : Key.TextsApart N) {calls : List CacheCall}
    (hcalls : ∀ e q, .ask e q ∈ calls → e.policy ∈ policies ∧ q.request.Holds N)
    (hdigests : ∀ x ∈ (calls.filterMap lookUp?).flatMap LookUp.hashed,
      ∀ y ∈ (calls.filterMap lookUp?).flatMap LookUp.hashed, Blake3.hex x = Blake3.hex y → x = y)
    {capacity : Nat} {c : ValueCache} (hc : Cache.new capacity = .ok c) {i : Nat} {e : Evaluator}
    {q : Query} (hi : calls[i]? = some (.ask e q)) {capacity' : Nat} {own : ValueCache}
    (hown : Cache.new capacity' = .ok own) :
    (runAll calls c).1[i]? = some (.answer (e.ask q own).1) := by
  have hcompiled' (e : Evaluator) (q : Query) (hcall : .ask e q ∈ calls) :
      ∃ m sourceId subjects g, Model.Compiled m sourceId e.policy subjects g := by
    obtain ⟨m, sourceId, h⟩ := hcompiled e.policy (hcalls e q hcall).1
    obtain ⟨subjects, g, h⟩ := Model.compile_eq_ok h
    exact ⟨m, sourceId, subjects, g, h⟩
  have hordered (e : Evaluator) (q : Query) (hcall : .ask e q ∈ calls) : e.policy.Ordered := by
    obtain ⟨m, sourceId, subjects, g, h⟩ := hcompiled' e q hcall
    exact h.ordered
  have hdistinct : LookUp.Distinct N (calls.filterMap lookUp?) := {
    numbers := hnumbers
    policies := by
      intro l hl l' hl' hversion
      obtain ⟨q, hq, -⟩ := exists_call hl
      obtain ⟨q', hq', -⟩ := exists_call hl'
      exact List.inj_on_of_nodup_map hversions (hcalls _ q hq).1 (hcalls _ q' hq').1 hversion
    versions := by
      intro l hl
      obtain ⟨q, hq, -⟩ := exists_call hl
      obtain ⟨m, sourceId, subjects, g, h⟩ := hcompiled' _ q hq
      rw [h.schemaVersion]
      exact Key.sized_hex _
    requests := by
      intro l hl
      obtain ⟨q, hq, hrequest⟩ := exists_call hl
      rw [hrequest]
      exact (hcalls _ q hq).2
    digests := hdigests }
  have hcall := List.mem_of_getElem? hi
  obtain ⟨own', hrun⟩ := Evaluator.answer_new (r := q.request)
    (fun P hP => Evaluator.answers_ask (hordered e q hcall) q hP) hown
  rw [runAll_ask hdistinct hordered (fun _ h => h) (Cache.all_of_new hc) hi, hrun]

/-- In a cache with room for one entry, which a query fills twice, the second query is answered as
on a cache of its own. -/
theorem runAll_eq_alone_twice :
    let m : Model := {
      user := "U"
      concepts := [{ name := "U" }]
      subjects := [⟨"S", "U", [⟨"a", none⟩]⟩]
      roles := [⟨"R", [⟨"S", [.allowEverything]⟩]⟩] }
    let r : AccessRequest := { user := .null, roles := ["R"], subject := "S", resource := .int 7 }
    let calls (p : Policy) : List CacheCall :=
      [.ask ⟨p, {}⟩ (.decide r "a"), .get "S", .ask ⟨p, {}⟩ (.allowedActions r)]
    ∃ p, m.compile "" = .ok p ∧ (runAll (calls p) ⟨1, [], 0, 0, 0⟩).1[2]? =
      some (.answer (Evaluator.ask ⟨p, {}⟩ (.allowedActions r) ⟨128, [], 0, 0, 0⟩).1) := by
  intro m r calls
  obtain ⟨p, hcompile, hp⟩ := Steps.exists_eq_ok_of_any (x := m.compile "")
    (q := fun p => Blake3.hex (LookUp.commonBytes ⟨⟨p, {}⟩, r⟩) ≠
      Blake3.hex (LookUp.subjectBytes ⟨⟨p, {}⟩, r⟩)) (by decide +kernel)
  have hne := of_decide_eq_true hp
  have hask (e : Evaluator) (q : Query) (h : .ask e q ∈ calls p) :
      e = ⟨p, {}⟩ ∧ q.request = r := by
    simp only [calls, List.mem_cons, CacheCall.ask.injEq, List.not_mem_nil, or_false, reduceCtorEq,
      false_or] at h
    rcases h with ⟨rfl, rfl⟩ | ⟨rfl, rfl⟩ <;> exact ⟨rfl, rfl⟩
  have hhashed (x : List UInt8)
      (hx : x ∈ ((calls p).filterMap lookUp?).flatMap LookUp.hashed) :
      x = LookUp.commonBytes ⟨⟨p, {}⟩, r⟩ ∨ x = LookUp.subjectBytes ⟨⟨p, {}⟩, r⟩ := by
    obtain ⟨⟨e, r'⟩, hl, hx⟩ := List.mem_flatMap.mp hx
    obtain ⟨q, hq, hr'⟩ := exists_call hl
    obtain ⟨rfl, hr⟩ := hask e q hq
    obtain rfl : r' = r := hr'.trans hr
    simpa [LookUp.hashed] using hx
  have hshared : Cache.new 1 = .ok (⟨1, [], 0, 0, 0⟩ : ValueCache) := rfl
  have hown : Cache.new 128 = .ok (⟨128, [], 0, 0, 0⟩ : ValueCache) := rfl
  refine ⟨p, hcompile, runAll_eq_alone [p] ?_ (List.nodup_singleton _) (fun x => x = .int 7)
    ?_ ?_ ?_ hshared rfl hown⟩
  · intro p' hp'
    obtain rfl := List.mem_singleton.mp hp'
    exact ⟨m, "", hcompile⟩
  · rintro x y rfl rfl -
    rfl
  · intro e q h
    obtain ⟨rfl, hr⟩ := hask e q h
    rw [hr]
    exact ⟨List.mem_singleton_self p, trivial, trivial, ⟨rfl, by decide⟩, by decide⟩
  · intro x hx y hy hxy
    rcases hhashed x hx with rfl | rfl <;> rcases hhashed y hy with rfl | rfl
    · rfl
    · exact absurd hxy hne
    · exact absurd hxy.symm hne
    · rfl

end CacheCall

end AccessPolicy
