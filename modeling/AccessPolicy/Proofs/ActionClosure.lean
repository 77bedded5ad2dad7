import AccessPolicy.Proofs.ActionOrder

/-!
# Action closures — descendants and ancestors

What an action allows are the actions that extend it, and what it forbids are the ones that it
extends; both include the action itself.  The two closures are one relation read in two directions,
and nothing but bits of actions is ever set in them.
-/

namespace AccessPolicy

/-- An interval lies inside itself. -/
theorem NestedSet.isSubOfAt?_self {nodes : List HierarchyNode} {s : NestedSet}
    (h : encode nodes = .ok s) {i : Nat} (hi : i < nodes.length) :
    s.isSubOfAt? i i = some true := by
  obtain ⟨l, r, -, hget⟩ := (encode_eq_ok h).2.2.2.2 i hi
  simp [isSubOfAt?, hget, Interval.isSubOf]

/-- Bit `y` is that of the action of bit `x`, or of one that extends it directly or through
others. -/
def SubjectDecl.Extends (d : SubjectDecl) (y x : Nat) : Prop :=
  ∃ action target, (d.actions.map (·.name))[y]? = some action ∧
    (d.actions.map (·.name))[x]? = some target ∧
    HierarchyNode.Reaches (d.actions.map ActionDecl.node) action target

namespace ActionTree

variable {d : SubjectDecl} {t : ActionTree} {x y : Nat} {c : ActionClosure}

/-! ## One closure -/

theorem isSet_allow_iff (h : build d = .ok t) (hc : t.closure? x = some c) :
    c.allow.isSet y = true ↔ t.actions.isSubOfAt? y x = some true := by
  rw [((closure?_eq_some_iff h).mp hc).2, closureOf, isSet_finer]
  exact and_iff_right_of_imp fun hyx => (lt_size_of_isSubOfAt? h hyx).1

theorem isSet_forbid_iff (h : build d = .ok t) (hc : t.closure? x = some c) :
    c.forbid.isSet y = true ↔ t.actions.isSubOfAt? x y = some true := by
  rw [((closure?_eq_some_iff h).mp hc).2, closureOf, isSet_coarser]
  exact and_iff_right_of_imp fun hxy => (lt_size_of_isSubOfAt? h hxy).2

theorem isSubOfAt?_self_of_closure (h : build d = .ok t) (hc : t.closure? x = some c) :
    t.actions.isSubOfAt? x x = some true := by
  apply NestedSet.isSubOfAt?_self (build_eq_ok h).1
  rw [List.length_map]
  exact ((closure?_eq_some_iff h).mp hc).1

theorem isSubAction?_eq_isSubOfAt? (h : build d = .ok t) {a b : String}
    (ha : (d.actions.map (·.name))[x]? = some a) (hb : (d.actions.map (·.name))[y]? = some b) :
    t.isSubAction? a b = t.actions.isSubOfAt? x y :=
  NestedSet.isSubOf?_eq_isSubOfAt? ((bit?_eq_some_iff h).mpr ha) ((bit?_eq_some_iff h).mpr hb)

theorem isSubOfAt?_iff_extends (h : build d = .ok t) (hsize : d.actions.length ≤ 2 ^ 31) :
    t.actions.isSubOfAt? y x = some true ↔ d.Extends y x := by
  constructor
  · intro hyx
    obtain ⟨hy, hx⟩ := lt_size_of_isSubOfAt? h hyx
    obtain ⟨action, hy⟩ := exists_name h hy
    obtain ⟨target, hx⟩ := exists_name h hx
    exact ⟨action, target, (bit?_eq_some_iff h).mp hy, (bit?_eq_some_iff h).mp hx,
      (isSubOfAt?_iff_reaches h hsize hy hx).mp hyx⟩
  · rintro ⟨action, target, hy, hx, hreaches⟩
    exact (isSubOfAt?_iff_reaches h hsize ((bit?_eq_some_iff h).mpr hy)
      ((bit?_eq_some_iff h).mpr hx)).mpr hreaches

/-! ## Merged closures -/

/-- Bits without an action add nothing, so it is enough to know the closures of actions. -/
theorem isSet_mergedClosure_iff_exists (h : build d = .ok t) {bits : List Nat} {mode : AccessMode}
    {P : Nat → Prop} (haction : ∀ x, P x → x < t.actions.size)
    (hclosure : ∀ x c, t.closure? x = some c → ((c.forMode mode).isSet y = true ↔ P x)) :
    (t.mergedClosure bits mode).isSet y = true ↔ ∃ x ∈ bits, P x := by
  rw [isSet_mergedClosure_iff]
  constructor
  · rintro ⟨x, hx, c, hc, hset⟩
    exact ⟨x, hx, (hclosure x c hc).mp hset⟩
  · rintro ⟨x, hx, hP⟩
    have hlt := haction x hP
    rw [size_of_build h] at hlt
    have hc := (closure?_eq_some_iff h).mpr ⟨hlt, rfl⟩
    exact ⟨x, hx, _, hc, (hclosure x _ hc).mpr hP⟩

theorem isSet_mergedClosure_allow_iff (h : build d = .ok t) {bits : List Nat} :
    (t.mergedClosure bits .allow).isSet y = true ↔
      ∃ x ∈ bits, t.actions.isSubOfAt? y x = some true :=
  isSet_mergedClosure_iff_exists h (fun _ hyx => (lt_size_of_isSubOfAt? h hyx).2)
    fun _ _ hc => isSet_allow_iff h hc

theorem isSet_mergedClosure_forbid_iff (h : build d = .ok t) {bits : List Nat} :
    (t.mergedClosure bits .forbid).isSet y = true ↔
      ∃ x ∈ bits, t.actions.isSubOfAt? x y = some true :=
  isSet_mergedClosure_iff_exists h (fun _ hxy => (lt_size_of_isSubOfAt? h hxy).1)
    fun _ _ hc => isSet_forbid_iff h hc

/-- The bits behind those of the actions, which fill the last byte, are never set. -/
theorem isSet_closure_of_le (h : build d = .ok t) (hc : t.closure? x = some c)
    (hy : d.actions.length ≤ y) (mode : AccessMode) : (c.forMode mode).isSet y = false := by
  rw [← size_of_build h] at hy
  rw [← Bool.not_eq_true]
  cases mode with
  | allow =>
    intro hset
    have hlt := (lt_size_of_isSubOfAt? h ((isSet_allow_iff h hc).mp hset)).1
    omega
  | forbid =>
    intro hset
    have hlt := (lt_size_of_isSubOfAt? h ((isSet_forbid_iff h hc).mp hset)).2
    omega

/-- Closures are exactly descendants and ancestors.  The allow mask of some bits, in any order and
however often each is given, has the bits of all actions that one of these bits is extended by, and
the forbid mask those of all actions that one of them extends, itself included both times; bits
without an action add nothing.  (Up to so many actions no number of the encoding wraps.)  One action
is allowed by another exactly when it forbids the other, and exactly when it is answered to be the
other or to extend it; then what it allows is part of what the other allows, and what the other
forbids part of what it forbids.  Every action is in its own closures, and no bit beyond the actions
is set in any mask. -/
theorem closures_are_descendants_and_ancestors (h : build d = .ok t) :
    (d.actions.length ≤ 2 ^ 31 → ∀ bits y,
      ((t.mergedClosure bits .allow).isSet y = true ↔ ∃ x ∈ bits, d.Extends y x) ∧
      ((t.mergedClosure bits .forbid).isSet y = true ↔ ∃ x ∈ bits, d.Extends x y)) ∧
    (∀ x y a b, (d.actions.map (·.name))[x]? = some a → (d.actions.map (·.name))[y]? = some b →
      ∃ c c', t.closure? x = some c ∧ t.closure? y = some c' ∧
        (c.allow.isSet y = true ↔ c'.forbid.isSet x = true) ∧
        (c.allow.isSet y = true ↔ t.isSubAction? b a = some true) ∧
        (t.isSubAction? b a = some true →
          (∀ z, c'.allow.isSet z = true → c.allow.isSet z = true) ∧
          ∀ z, c.forbid.isSet z = true → c'.forbid.isSet z = true)) ∧
    (∀ x < d.actions.length, ∃ c, t.closure? x = some c ∧ c.allow.isSet x = true ∧
      c.forbid.isSet x = true) ∧
    ∀ y, d.actions.length ≤ y →
      (∀ x c, t.closure? x = some c → c.allow.isSet y = false ∧ c.forbid.isSet y = false) ∧
      ∀ bits mode, (t.mergedClosure bits mode).isSet y = false := by
  refine ⟨fun hsize bits y => ⟨?_, ?_⟩, fun x y a b ha hb => ?_, fun x hx => ?_, fun y hy =>
    ⟨fun x c hc => ⟨isSet_closure_of_le h hc hy .allow, isSet_closure_of_le h hc hy .forbid⟩,
      fun bits mode => ?_⟩⟩
  · simp only [isSet_mergedClosure_allow_iff h, isSubOfAt?_iff_extends h hsize]
  · simp only [isSet_mergedClosure_forbid_iff h, isSubOfAt?_iff_extends h hsize]
  · have hclosure {z : Nat} {name : String} (hz : (d.actions.map (·.name))[z]? = some name) :
        t.closure? z = some (closureOf t.actions z) := by
      have hlt := (List.getElem?_eq_some_iff.mp hz).1
      rw [List.length_map] at hlt
      exact (closure?_eq_some_iff h).mpr ⟨hlt, rfl⟩
    have hx := hclosure ha
    have hy := hclosure hb
    refine ⟨_, _, hx, hy, ?_, ?_, fun hbelow => ⟨fun z => ?_, fun z => ?_⟩⟩
    · rw [isSet_allow_iff h hx, isSet_forbid_iff h hy]
    · rw [isSet_allow_iff h hx, isSubAction?_eq_isSubOfAt? h hb ha]
    · rw [isSubAction?_eq_isSubOfAt? h hb ha] at hbelow
      rw [isSet_allow_iff h hx, isSet_allow_iff h hy]
      exact fun hz => NestedSet.isSubOfAt?_trans hz hbelow
    · rw [isSubAction?_eq_isSubOfAt? h hb ha] at hbelow
      rw [isSet_forbid_iff h hx, isSet_forbid_iff h hy]
      exact fun hz => NestedSet.isSubOfAt?_trans hbelow hz
  · have hc := (closure?_eq_some_iff h).mpr ⟨hx, rfl⟩
    have hself := isSubOfAt?_self_of_closure h hc
    exact ⟨_, hc, (isSet_allow_iff h hc).mpr hself, (isSet_forbid_iff h hc).mpr hself⟩
  · rw [← Bool.not_eq_true, isSet_mergedClosure_iff]
    rintro ⟨x, -, c, hc, hset⟩
    rw [isSet_closure_of_le h hc hy mode] at hset
    exact Bool.false_ne_true hset

/-- Publishing an article is a way of editing it, and editing one of reading it: a permission to
edit lets publish, a prohibition to edit forbids to read, and creating articles is another matter.
The bit 9 is that of no action. -/
theorem closures_are_descendants_and_ancestors_edit :
    let d : SubjectDecl := ⟨"Article", "ArticleType",
      [⟨"publish", some "edit"⟩, ⟨"read", none⟩, ⟨"edit", some "read"⟩, ⟨"create", none⟩]⟩
    ∃ t, build d = .ok t ∧ d.actions.length ≤ 2 ^ 31 ∧
      (t.mergedClosure [2, 9, 2] .allow).isSet 0 = true ∧ (∃ x ∈ [2, 9, 2], d.Extends 0 x) ∧
      (t.mergedClosure [2, 9, 2] .forbid).isSet 1 = true ∧ (∃ x ∈ [2, 9, 2], d.Extends x 1) ∧
      (t.mergedClosure [2, 9, 2] .allow).isSet 3 = false ∧ (¬ ∃ x ∈ [2, 9, 2], d.Extends 3 x) ∧
      (t.mergedClosure [2, 9, 2] .allow).isSet 9 = false := by
  intro d
  let actions : NestedSet :=
    ⟨["publish", "read", "edit", "create"], [⟨2, 3⟩, ⟨0, 5⟩, ⟨1, 4⟩, ⟨6, 7⟩]⟩
  have hbuild : build d = .ok ⟨actions, (List.range 4).map (closureOf actions)⟩ := by rfl
  have hsize : d.actions.length ≤ 2 ^ 31 := by decide
  obtain ⟨hmerged, -, -, hbeyond⟩ := closures_are_descendants_and_ancestors hbuild
  have hpublish : (mergedClosure ⟨actions, (List.range 4).map (closureOf actions)⟩
      [2, 9, 2] .allow).isSet 0 = true := by decide +kernel
  have hread : (mergedClosure ⟨actions, (List.range 4).map (closureOf actions)⟩
      [2, 9, 2] .forbid).isSet 1 = true := by decide +kernel
  have hcreate : (mergedClosure ⟨actions, (List.range 4).map (closureOf actions)⟩
      [2, 9, 2] .allow).isSet 3 = false := by decide +kernel
  refine ⟨_, hbuild, hsize, hpublish, (hmerged hsize _ 0).1.mp hpublish, hread,
    (hmerged hsize _ 1).2.mp hread, hcreate, fun hextends => ?_,
    (hbeyond 9 (by decide)).2 _ _⟩
  rw [(hmerged hsize _ 3).1.mpr hextends] at hcreate
  exact Bool.false_ne_true hcreate.symm

end ActionTree

end AccessPolicy
