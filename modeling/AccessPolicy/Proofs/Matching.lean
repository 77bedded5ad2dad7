import AccessPolicy.Evaluator
import AccessPolicy.Proofs.Cache.Recency
import AccessPolicy.Proofs.Evaluation.Reading
import AccessPolicy.Proofs.Steps

/-!
# Matching — which rules match does not depend on the cache

Given the value of every index, the rules that match are a list.  Matching on sound values finds
this list; and if what is cached under the keys of a request is sound for it, so does matching on
cached values, which leaves only sound values behind.
-/

namespace AccessPolicy

namespace Evaluator

/-! ## Matching on values -/

/-- The rules whose conditions hold, numbered from `index`, given the value of every index. -/
def matchedRules (values : NodeIndex → Json) (role : String) :
    (index : Nat) → List Rule → List (MatchedRule × Bitmask)
  | _, [] => []
  | index, rule :: rest =>
    let others := matchedRules values role (index + 1) rest
    if (values rule.condition).truthy then (⟨role, index, rule.mode⟩, rule.mask) :: others
    else others

def matchedRoles (values : NodeIndex → Json) (subject : String) (roles : List Role) :
    List (MatchedRule × Bitmask) :=
  roles.flatMap fun r => matchedRules values r.name 0 (r.rulesFor subject)

/-- What matches is a rule whose condition holds, with its place, its mode and its mask. -/
theorem mem_matchedRules_iff {values : NodeIndex → Json} {role : String} {start : Nat}
    {rules : List Rule} {x : MatchedRule × Bitmask} : x ∈ matchedRules values role start rules ↔
      ∃ k rule, rules[k]? = some rule ∧ x = (⟨role, start + k, rule.mode⟩, rule.mask) ∧
        (values rule.condition).truthy = true := by
  induction rules generalizing start with
  | nil => simp [matchedRules]
  | cons first rest ih =>
    -- the first rule has the number to start with, the others are numbered from the next
    have hrest : (∃ k rule, (first :: rest)[k]? = some rule ∧
        x = (⟨role, start + k, rule.mode⟩, rule.mask) ∧ (values rule.condition).truthy = true) ↔
        (x = (⟨role, start, first.mode⟩, first.mask) ∧ (values first.condition).truthy = true) ∨
          x ∈ matchedRules values role (start + 1) rest := by
      rw [ih, Nat.or_exists_add_one.symm]
      simp [Nat.add_assoc, Nat.add_comm 1]
    rw [hrest, matchedRules]
    split
    · rename_i h
      simp [h]
    · rename_i h
      simp [h]

theorem holds_run {v : SubjectValues} (h : v.Sound) (i : NodeIndex) :
    ∃ w, holds i v = ((v.value i).truthy, w) ∧ w.Sound ∧ v.SameData w := by
  obtain ⟨w, hread, hw⟩ := SubjectValues.read_run h i
  exact ⟨w, by rw [holds, hread], hw⟩

theorem matchRules_run {v : SubjectValues} (h : v.Sound) (role : String) (index : Nat)
    (rules : List Rule) : ∃ w, matchRules role index rules v =
      (matchedRules v.value role index rules, w) ∧ w.Sound ∧ v.SameData w := by
  induction rules generalizing v index with
  | nil => exact ⟨v, rfl, h, .refl v⟩
  | cons rule rest ih =>
    -- the other rules are matched on the values that the first one leaves behind
    obtain ⟨w, hholds, hw, hsame⟩ := holds_run h rule.condition
    obtain ⟨u, hrest, hu, hsame'⟩ := ih hw (index + 1)
    refine ⟨u, ?_, hu, hsame.trans hsame'⟩
    rw [hsame.value] at hrest
    simp only [matchRules, bind, StateT.bind, hholds, hrest, matchedRules]
    rfl

/-- Matching on sound values finds what their data determine. -/
theorem matchRoles_run {v : SubjectValues} (h : v.Sound) (subject : String) (roles : List Role) :
    ∃ w, matchRoles subject roles v = (matchedRoles v.value subject roles, w) ∧ w.Sound ∧
      v.SameData w := by
  induction roles generalizing v with
  | nil => exact ⟨v, rfl, h, .refl v⟩
  | cons r rest ih =>
    obtain ⟨w, hfirst, hw, hsame⟩ := matchRules_run h r.name 0 (r.rulesFor subject)
    obtain ⟨u, hrest, hu, hsame'⟩ := ih hw
    refine ⟨u, ?_, hu, hsame.trans hsame'⟩
    rw [hsame.value] at hrest
    simp only [matchRoles, bind, StateT.bind, hfirst, hrest, matchedRoles, List.flatMap_cons]
    rfl

end Evaluator

/-! ## Active roles -/

namespace Evaluator

/-- No role has the name, and unknown roles are an error. -/
def refusesRole (e : Evaluator) (name : String) : Bool :=
  e.settings.strictRoles && (e.policy.role? name).isNone

/-- The first name that is refused is reported; if none is, the roles with the names are active. -/
theorem activeRoles_eq_match (e : Evaluator) (names : List String) : e.activeRoles names =
    match names.find? e.refusesRole with
    | some name => .error (.usage (.unknownRole name))
    | none => .ok (names.filterMap e.policy.role?) := by
  induction names with
  | nil => rfl
  | cons name rest ih =>
    rw [activeRoles, List.find?_cons]
    cases hrole : e.policy.role? name with
    | some role =>
      have hknown : e.refusesRole name = false := by simp [refusesRole, hrole]
      rw [hknown, List.filterMap_cons_some hrole]
      simp only
      rw [ih]
      cases rest.find? e.refusesRole <;> rfl
    | none =>
      rw [List.filterMap_cons_none hrole]
      cases hstrict : e.settings.strictRoles with
      | true =>
        have hunknown : e.refusesRole name = true := by simp [refusesRole, hrole, hstrict]
        rw [hunknown]
        rfl
      | false =>
        have hskipped : e.refusesRole name = false := by simp [refusesRole, hstrict]
        rw [hskipped]
        exact ih

theorem activeRoles_eq_ok_iff {e : Evaluator} {names : List String} {roles : List Role} :
    e.activeRoles names = .ok roles ↔
      (∀ name ∈ names, e.refusesRole name = false) ∧ roles = names.filterMap e.policy.role? := by
  rw [activeRoles_eq_match]
  cases hfind : names.find? e.refusesRole with
  | some name =>
    have hname := List.find?_some hfind
    refine iff_of_false (fun h => nomatch h) fun h => ?_
    exact Bool.false_ne_true ((h.1 name (List.mem_of_find?_eq_some hfind)).symm.trans hname)
  | none =>
    rw [List.find?_eq_none] at hfind
    simp only [Bool.not_eq_true] at hfind
    rw [and_iff_right hfind, Except.ok.injEq, eq_comm]

end Evaluator

/-! ## Cached values -/

/-- The common values in the entry are sound, and over the data of `fresh`. -/
def CachedValues.IsCommon (fresh : CommonValues) : CachedValues → Prop
  | .common v => v.Sound ∧ fresh.SameData v
  | .subject v => v.common.Sound ∧ fresh.SameData v.common

namespace ValueCache

variable {P : String → CachedValues → Prop} {c : ValueCache} {key : String}

theorem commonValues_run (hc : Cache.All P c) {fresh : CommonValues}
    (hfind : ∀ {x}, P key x → x.IsCommon fresh) (hstore : P key (.common fresh)) :
    ∃ v c', commonValues key (fun _ => fresh) c = (v, c') ∧ v.Sound ∧ fresh.SameData v ∧
      Cache.All P c' := by
  have hentry := hc.getOrInsert (fun _ => CachedValues.common fresh) hstore
  unfold commonValues
  split
  · rename_i v c' heq
    rw [heq] at hentry
    obtain ⟨hsound, hsame⟩ := hfind hentry.1
    exact ⟨v, c', rfl, hsound, hsame, hentry.2⟩
  · rename_i v c' heq
    rw [heq] at hentry
    obtain ⟨hsound, hsame⟩ := hfind hentry.1
    exact ⟨v.common, c', rfl, hsound, hsame, hentry.2⟩

theorem subjectValues_run (hc : Cache.All P c) {fresh : SubjectValues} (hfresh : fresh.Sound)
    (hfind : ∀ {v}, P key (.subject v) → v.Sound ∧ fresh.SameData v)
    (hstore : P key (.subject fresh)) :
    ∃ v c', subjectValues key (fun _ => fresh) c = (v, c') ∧ v.Sound ∧ fresh.SameData v ∧
      Cache.All P c' := by
  have hentry := hc.getOrInsert (fun _ => CachedValues.subject fresh) hstore
  unfold subjectValues
  split
  · rename_i v c' heq
    rw [heq] at hentry
    obtain ⟨hsound, hsame⟩ := hfind hentry.1
    exact ⟨v, c', rfl, hsound, hsame, hentry.2⟩
  · rename_i v c' heq
    rw [heq] at hentry
    exact ⟨fresh, c', rfl, hfresh, .refl fresh, hentry.2⟩

end ValueCache

/-! ## Matching on cached values -/

namespace Policy

/-- The tables of the policy can be evaluated. -/
structure Ordered (p : Policy) : Prop where
  common : p.commonProgram.Ordered .common
  subjects : ∀ s ∈ p.subjects, (p.subjectProgram s).Ordered .subject

end Policy

namespace Evaluator

variable (e : Evaluator) (r : AccessRequest) (s : PolicySubject)

/-- The common values that a request is decided with, nothing computed yet. -/
def freshCommon : CommonValues := .new e.policy.commonProgram r.user r.environment

/-- The values that a request is decided with, nothing computed yet. -/
def freshValues : SubjectValues := .new (e.policy.subjectProgram s) (e.freshCommon r) r.resource

/-- The key of the common values of a request. -/
def commonKey : String := Key.common e.policy.schemaVersion r.user r.environment

def subjectKey : String :=
  Key.subject e.policy.schemaVersion (e.commonKey r) s.name r.resource

/-- What a property of cached entries has to say of the entries of one request. -/
structure Serves (P : String → CachedValues → Prop) : Prop where
  common : ∀ {x}, P (e.commonKey r) x → x.IsCommon (e.freshCommon r)
  subject : ∀ {v}, P (e.subjectKey r s) (.subject v) →
    v.Sound ∧ (e.freshValues r s).SameData v
  storeCommon : ∀ {v : CommonValues}, v.Sound → (e.freshCommon r).SameData v →
    P (e.commonKey r) (.common v)
  storeSubject : ∀ {v : SubjectValues}, v.Sound → (e.freshValues r s).SameData v →
    P (e.subjectKey r s) (.subject v)

variable {e r s}

/-- Matching on cached values finds what the data of the request determine. -/
theorem matchCached_run {P : String → CachedValues → Prop} (hP : e.Serves r s P)
    (hpolicy : e.policy.Ordered) (hs : s ∈ e.policy.subjects) {c : ValueCache}
    (hc : Cache.All P c) (roles : List Role) :
    ∃ c', e.matchCached r s roles c =
      (⟨matchedRoles (e.freshValues r s).value s.name roles⟩, c') ∧ Cache.All P c' := by
  have hcommon : (e.freshCommon r).Sound := CommonValues.sound_new hpolicy.common _ _
  obtain ⟨common, c₁, hrun₁, hsound₁, hsame₁, hc₁⟩ := ValueCache.commonValues_run hc
    hP.common (hP.storeCommon hcommon (.refl _))
  -- new values are made over the common ones at hand, whose cells may be filled already
  let fresh := SubjectValues.new (e.policy.subjectProgram s) common r.resource
  have hfresh : fresh.Sound := SubjectValues.sound_new (hpolicy.subjects s hs) hsound₁ _
  have hsame : (e.freshValues r s).SameData fresh := ⟨rfl, hsame₁, rfl⟩
  obtain ⟨values, c₂, hrun₂, hsound₂, hsame₂, hc₂⟩ := ValueCache.subjectValues_run hc₁ hfresh
    (fun hv => ⟨(hP.subject hv).1, hsame.symm.trans (hP.subject hv).2⟩)
    (hP.storeSubject hfresh hsame)
  have hvalues := hsame.trans hsame₂
  -- cells filled by matching are put back under both keys
  obtain ⟨final, hmatch, hsound, hsame₃⟩ := matchRoles_run hsound₂ s.name roles
  have hfinal := hvalues.trans hsame₃
  refine ⟨ValueCache.keep (e.commonKey r) (e.subjectKey r s) final c₂, ?_, ?_⟩
  · rw [hvalues.value] at hmatch
    simp only [commonKey, subjectKey, freshCommon, fresh] at hrun₁ hrun₂
    simp only [matchCached, bind, StateT.bind, hrun₁, hrun₂, hmatch]
    rfl
  · exact (hc₂.refresh (hP.storeCommon hsound.common hfinal.common)).refresh
      (hP.storeSubject hsound hfinal)

/-! ## Answers -/

/-- The rules that match a request, found without a cache. -/
def plainMerge (e : Evaluator) (r : AccessRequest) (s : PolicySubject) :
    Except PolicyError MergedRules := do
  let roles ← e.activeRoles r.roles
  return ⟨matchedRoles (e.freshValues r s).value s.name roles⟩

/-- The decision for an action, found without a cache. -/
def plainDecide (e : Evaluator) (r : AccessRequest) (action : String) :
    Except PolicyError AccessDecision := do
  let s ← e.requireSubject r.subject
  let coord ← requireAction s action
  let merged ← e.plainMerge r s
  let resolution := merged.resolve coord
  return {
    allowed := resolution == .allowed
    subject := s.name
    action
    matched := merged.matched.map (·.1)
    resolution }

/-- A request for an unknown subject is refused before anything else. -/
theorem plainDecide_eq_error {e : Evaluator} {r : AccessRequest} {err : PolicyError}
    (hs : e.requireSubject r.subject = .error err) (action : String) :
    e.plainDecide r action = .error err := by
  rw [plainDecide, hs]
  rfl

def plainCan (e : Evaluator) (r : AccessRequest) (action : String) : Except PolicyError Bool := do
  return (← e.plainDecide r action).allowed

def plainActionsWith (e : Evaluator) (r : AccessRequest) (wanted : Resolution) :
    Except PolicyError (List String) := do
  let s ← e.requireSubject r.subject
  let merged ← e.plainMerge r s
  return (s.actions.names.zipIdx.filter fun (_, bit) =>
    merged.resolve (.ofIndex bit) == wanted).map (·.1)

theorem plainActionsWith_eq_error {e : Evaluator} {r : AccessRequest} {err : PolicyError}
    (hs : e.requireSubject r.subject = .error err) (wanted : Resolution) :
    e.plainActionsWith r wanted = .error err := by
  rw [plainActionsWith, hs]
  rfl

section

variable {m : MergedRules} (hs : e.requireSubject r.subject = .ok s)
  (hm : e.plainMerge r s = .ok m)
include hs hm

theorem plainDecide_eq_ok {action : String} {coord : BitCoord}
    (haction : requireAction s action = .ok coord) :
    e.plainDecide r action = .ok {
      allowed := m.resolve coord == .allowed
      subject := s.name
      action
      matched := m.matched.map (·.1)
      resolution := m.resolve coord } := by
  rw [plainDecide, hs]
  show (requireAction s action >>= _) = _
  rw [haction]
  show (e.plainMerge r s >>= _) = _
  rw [hm]
  rfl

theorem plainActionsWith_eq_ok (wanted : Resolution) :
    ∃ names, e.plainActionsWith r wanted = .ok names ∧ ∀ action, action ∈ names ↔
      ∃ i, s.actions.names[i]? = some action ∧ m.resolve (.ofIndex i) = wanted := by
  rw [plainActionsWith, hs]
  show ∃ names, (e.plainMerge r s >>= _) = .ok names ∧ _
  rw [hm]
  refine ⟨_, rfl, fun action => ?_⟩
  simp [List.mem_zipIdx_iff_getElem?]

end

/-- The step answers `x` on every cache with the property, and keeps the property. -/
def Answers {α : Type} (P : String → CachedValues → Prop) (m : EvaluatorM α)
    (x : Except PolicyError α) : Prop :=
  ∀ c : ValueCache, Cache.All P c → ∃ c' : ValueCache, m c = (x, c') ∧ Cache.All P c'

section

variable {P : String → CachedValues → Prop} {α β : Type}

theorem Answers.pure (a : α) : Answers P (pure a) (.ok a) := fun c hc => ⟨c, rfl, hc⟩

theorem Answers.bind {m : EvaluatorM α} {f : α → EvaluatorM β} {x : Except PolicyError α}
    {y : α → Except PolicyError β} (hm : Answers P m x)
    (hf : ∀ a, x = .ok a → Answers P (f a) (y a)) : Answers P (m >>= f) (x >>= y) := by
  intro c hc
  obtain ⟨c', hrun, hc'⟩ := hm c hc
  rw [Steps.bind_run, hrun]
  cases x with
  | error e => exact ⟨c', rfl, hc'⟩
  | ok a => exact hf a rfl c' hc'

/-- Checks do not look at the cache. -/
theorem Answers.check (x : Except PolicyError α) : Answers P (liftM x : EvaluatorM α) x := by
  intro c hc
  cases x <;> exact ⟨c, rfl, hc⟩

end

theorem requireSubject_eq_ok {name : String} (h : e.requireSubject name = .ok s) :
    e.policy.subject? name = some s := by
  unfold requireSubject at h
  split at h
  · rename_i found hfound
    rw [hfound, Except.ok.inj h]
  · exact absurd h (by simp)

theorem mem_subjects {p : Policy} {name : String} (h : p.subject? name = some s) :
    s ∈ p.subjects :=
  List.mem_of_find?_eq_some h

section

variable {P : String → CachedValues → Prop} (hpolicy : e.policy.Ordered)
  (hP : ∀ s, e.policy.subject? r.subject = some s → e.Serves r s P)
include hpolicy hP

theorem answers_merge (hs : e.policy.subject? r.subject = some s) :
    Answers P (e.merge r s) (e.plainMerge r s) := by
  refine .bind (.check _) fun roles _ c hc => ?_
  obtain ⟨c', hrun, hc'⟩ := matchCached_run (hP s hs) hpolicy (mem_subjects hs) hc roles
  refine ⟨c', ?_, hc'⟩
  show (Except.ok (e.matchCached r s roles c).1, (e.matchCached r s roles c).2) = _
  rw [hrun]
  rfl

theorem answers_decide (action : String) :
    Answers P (e.decide r action) (e.plainDecide r action) := by
  refine .bind (.check _) fun s hs => .bind (.check _) fun coord _ => ?_
  exact .bind (answers_merge hpolicy hP (requireSubject_eq_ok hs)) fun _ _ => .pure _

theorem answers_can (action : String) : Answers P (e.can r action) (e.plainCan r action) :=
  .bind (answers_decide hpolicy hP action) fun _ _ => .pure _

theorem answers_actionsWith (wanted : Resolution) :
    Answers P (e.actionsWith r wanted) (e.plainActionsWith r wanted) := by
  refine .bind (.check _) fun s hs => ?_
  exact .bind (answers_merge hpolicy hP (requireSubject_eq_ok hs)) fun _ _ => .pure _

end

/-! ## Refusals -/

/-- If the answer is an error, it is given before the cache is looked at. -/
def Refuses {α : Type} (m : EvaluatorM α) (x : Except PolicyError α) : Prop :=
  ∀ err, x = .error err → ∀ c : ValueCache, m c = (.error err, c)

section

variable {α β : Type}

theorem Refuses.of_ok {m : EvaluatorM α} {a : α} : Refuses m (.ok a) :=
  fun _ h => nomatch h

theorem Refuses.check_bind {x : Except PolicyError α} {f : α → EvaluatorM β}
    {y : α → Except PolicyError β} (hf : ∀ a, Refuses (f a) (y a)) :
    Refuses ((liftM x : EvaluatorM α) >>= f) (x >>= y) := by
  intro err h c
  rw [Steps.check_bind_run]
  cases x with
  | error e => rw [Except.error.inj h]
  | ok a => exact hf a err h c

/-- What follows an answer without fail refuses nothing. -/
theorem Refuses.bind_pure {m : EvaluatorM α} {x : Except PolicyError α} (hm : Refuses m x)
    (f : α → β) : Refuses (m >>= fun a => pure (f a)) (x >>= fun a => pure (f a)) := by
  intro err h c
  cases x with
  | error e =>
    rw [Steps.bind_run, hm e rfl c]
    exact congrArg (Prod.mk · c) h
  | ok a => exact nomatch h

theorem refuses_merge (e : Evaluator) (r : AccessRequest) (s : PolicySubject) :
    Refuses (e.merge r s) (e.plainMerge r s) :=
  .check_bind fun _ => .of_ok

theorem refuses_decide (e : Evaluator) (r : AccessRequest) (action : String) :
    Refuses (e.decide r action) (e.plainDecide r action) :=
  .check_bind fun s => .check_bind fun _ => .bind_pure (refuses_merge e r s) _

theorem refuses_can (e : Evaluator) (r : AccessRequest) (action : String) :
    Refuses (e.can r action) (e.plainCan r action) :=
  .bind_pure (refuses_decide e r action) _

theorem refuses_actionsWith (e : Evaluator) (r : AccessRequest) (wanted : Resolution) :
    Refuses (e.actionsWith r wanted) (e.plainActionsWith r wanted) :=
  .check_bind fun s => .bind_pure (refuses_merge e r s) _

end

/-! ## New caches -/

/-- What serves one request and says nothing of other keys. -/
def OwnEntry (e : Evaluator) (r : AccessRequest) (s : PolicySubject) (key : String)
    (x : CachedValues) : Prop :=
  (key = e.commonKey r → x.IsCommon (e.freshCommon r)) ∧
    (key = e.subjectKey r s → ∀ v, x = .subject v → v.Sound ∧ (e.freshValues r s).SameData v)

theorem serves_ownEntry (e : Evaluator) (r : AccessRequest) (s : PolicySubject) :
    e.Serves r s (OwnEntry e r s) where
  common h := h.1 rfl
  subject h := h.2 rfl _ rfl
  storeCommon hsound hsame := ⟨fun _ => ⟨hsound, hsame⟩, fun _ _ h => nomatch h⟩
  storeSubject hsound hsame := by
    refine ⟨fun _ => ⟨hsound.common, hsame.common⟩, fun _ v h => ?_⟩
    obtain rfl := CachedValues.subject.inj h
    exact ⟨hsound, hsame⟩

/-- Whatever is cached under the keys of the request was computed from its data.  New caches are
trusted, and so are shared ones, see `CacheCall.trusts_runAll`. -/
def Trusts (e : Evaluator) (r : AccessRequest) (c : ValueCache) : Prop :=
  ∀ s, e.policy.subject? r.subject = some s → Cache.All (e.OwnEntry r s) c

theorem trusts_new (e : Evaluator) (r : AccessRequest) {capacity : Nat} {c : ValueCache}
    (hc : Cache.new capacity = .ok c) : e.Trusts r c :=
  fun _ _ => Cache.all_of_new hc

/-- Entries that serve the request are trusted. -/
theorem trusts_of_serves {P : String → CachedValues → Prop} {c : ValueCache}
    (hP : ∀ s, e.policy.subject? r.subject = some s → e.Serves r s P) (hc : Cache.All P c) :
    e.Trusts r c := by
  intro s hs key x hmem
  refine ⟨?_, ?_⟩
  · rintro rfl
    exact (hP s hs).common (hc _ _ hmem)
  · rintro rfl v rfl
    exact (hP s hs).subject (hc _ _ hmem)

/-- On a cache that is trusted an answer is what it is on every cache that serves the request, and
the cache stays trusted. -/
theorem Trusts.answer {α : Type} {m : EvaluatorM α} {x : Except PolicyError α} {c : ValueCache}
    (hc : e.Trusts r c)
    (hm : ∀ P, (∀ s, e.policy.subject? r.subject = some s → e.Serves r s P) → Answers P m x) :
    ∃ c' : ValueCache, m c = (x, c') ∧ e.Trusts r c' := by
  cases hs : e.policy.subject? r.subject with
  | none =>
    -- the request has no entries, so any property of entries will do
    have hnone (s : PolicySubject) : e.policy.subject? r.subject ≠ some s := by simp [hs]
    obtain ⟨c', hrun, -⟩ := hm (fun _ _ => True) (fun s h => absurd h (hnone s)) c
      fun _ _ _ => trivial
    exact ⟨c', hrun, fun s h => absurd h (hnone s)⟩
  | some s =>
    have hserves (s' : PolicySubject) (h : e.policy.subject? r.subject = some s') :
        e.Serves r s' (e.OwnEntry r s) := by
      obtain rfl := Option.some.inj (hs.symm.trans h)
      exact serves_ownEntry e r s
    obtain ⟨c', hrun, hc'⟩ := hm (e.OwnEntry r s) hserves c (hc s hs)
    refine ⟨c', hrun, fun s' h => ?_⟩
    obtain rfl := Option.some.inj (hs.symm.trans h)
    exact hc'

/-- On a new cache an answer is what it is on every cache that serves the request. -/
theorem answer_new {α : Type} {m : EvaluatorM α} {x : Except PolicyError α}
    (hm : ∀ P, (∀ s, e.policy.subject? r.subject = some s → e.Serves r s P) → Answers P m x)
    {capacity : Nat} {c : ValueCache} (hc : Cache.new capacity = .ok c) :
    ∃ c', m c = (x, c') := by
  obtain ⟨c', hrun, -⟩ := (trusts_new e r hc).answer hm
  exact ⟨c', hrun⟩

section

variable (hpolicy : e.policy.Ordered)
include hpolicy

/-- On a cache that is trusted a request is decided as without one. -/
theorem Trusts.decide_eq {c : ValueCache} (hc : e.Trusts r c) (action : String) :
    (e.decide r action c).1 = e.plainDecide r action := by
  obtain ⟨c', hrun, -⟩ := hc.answer fun _ hP => answers_decide hpolicy hP action
  rw [hrun]

theorem Trusts.actionsWith_eq {c : ValueCache} (hc : e.Trusts r c) (wanted : Resolution) :
    (e.actionsWith r wanted c).1 = e.plainActionsWith r wanted := by
  obtain ⟨c', hrun, -⟩ := hc.answer fun _ hP => answers_actionsWith hpolicy hP wanted
  rw [hrun]

variable {capacity : Nat} {c : ValueCache} (hc : Cache.new capacity = .ok c)
include hc

/-- On a new cache a request is decided as without one. -/
theorem decide_new (r : AccessRequest) (action : String) :
    (e.decide r action c).1 = e.plainDecide r action :=
  (trusts_new e r hc).decide_eq hpolicy action

theorem actionsWith_new (r : AccessRequest) (wanted : Resolution) :
    (e.actionsWith r wanted c).1 = e.plainActionsWith r wanted :=
  (trusts_new e r hc).actionsWith_eq hpolicy wanted

end

end Evaluator

end AccessPolicy
