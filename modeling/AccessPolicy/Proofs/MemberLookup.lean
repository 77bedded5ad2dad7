import AccessPolicy.Proofs.Concepts

/-!
# Member look-up — the way up and the intervals describe one forest

A member is looked for along the parent links, while subtypes are answered from intervals.  The way up
ends from every concept, and it meets a declaration of the member exactly when a concept that is
answered to be a supertype has one.
-/

namespace AccessPolicy.Concepts

open HierarchyNode

variable {decls : List ConceptDecl} {cs : Concepts} {name member : String} {type : DataType}

/-! ## The way up -/

/-- Looking for a member from a concept on, or from above the last one: the first declaration that
is met is the result. -/
inductive Climb (cs : Concepts) (member : String) :
    Option ConceptDecl → Option DataType → Prop where
  | above : Climb cs member none none
  | declared {d : ConceptDecl} {type : DataType} :
    d.members.lookup member = some type → Climb cs member (some d) (some type)
  | inherited {d : ConceptDecl} {result : Option DataType} :
    d.members.lookup member = none → Climb cs member (d.parent.bind cs.find?) result →
    Climb cs member (some d) result

theorem Climb.unique {current : Option ConceptDecl} {result result' : Option DataType}
    (h : Climb cs member current result) (h' : Climb cs member current result') :
    result = result' := by
  induction h with
  | above =>
    cases h'
    rfl
  | declared hown =>
    cases h' with
    | declared hown' => exact hown.symm.trans hown'
    | inherited hown' => exact nomatch hown.symm.trans hown'
  | inherited hown _ ih =>
    cases h' with
    | declared hown' => exact nomatch hown.symm.trans hown'
    | inherited _ hclimb => exact ih hclimb

/-- The way up from a concept ends if the one from its parent does. -/
theorem exists_climb_of_parent {d : ConceptDecl}
    (h : ∀ p, d.parent.bind cs.find? = some p → ∃ result, Climb cs member (some p) result) :
    ∃ result, Climb cs member (some d) result := by
  cases hown : d.members.lookup member with
  | some type => exact ⟨some type, .declared hown⟩
  | none =>
    cases hup : d.parent.bind cs.find? with
    | none => exact ⟨none, .inherited hown (hup ▸ .above)⟩
    | some p =>
      obtain ⟨result, hclimb⟩ := h p hup
      exact ⟨result, .inherited hown (hup ▸ hclimb)⟩

/-- The parent that is found by name stands where the link of the position leads. -/
theorem exists_link_of_parent {i : Nat} {d p : ConceptDecl}
    (hnd : (ids (cs.decls.map ConceptDecl.node)).Nodup) (hd : cs.decls[i]? = some d)
    (hup : d.parent.bind cs.find? = some p) :
    ∃ q, cs.decls[q]? = some p ∧ (parents (cs.decls.map ConceptDecl.node)).parent? i = some q := by
  obtain ⟨parent, hparent, hfind⟩ := Option.bind_eq_some_iff.mp hup
  obtain ⟨hp, rfl⟩ := mem_decls_of_find? hfind
  obtain ⟨q, hq⟩ := List.getElem?_of_mem hp
  have hnode : (cs.decls.map ConceptDecl.node)[i]? = some d.node := by
    rw [List.getElem?_map, hd, Option.map_some]
  have hname : (ids (cs.decls.map ConceptDecl.node))[q]? = some p.name := by
    rw [getElem?_ids, List.getElem?_map, hq]
    rfl
  exact ⟨q, hq, parent?_parents_iff.mpr
    ⟨d.node, p.name, hnode, hparent, idxOf?_of_getElem? hnd hname⟩⟩

/-- A root is left at once, and any other concept is one link further from its root than its
parent. -/
theorem exists_climb_of_height {height i root : Nat} {d : ConceptDecl}
    (hnd : (ids (cs.decls.map ConceptDecl.node)).Nodup) (hd : cs.decls[i]? = some d)
    (hroot : (parents (cs.decls.map ConceptDecl.node)).IsRoot root)
    (hheight : (parents (cs.decls.map ConceptDecl.node)).ancestor? height i = some root) :
    ∃ result, Climb cs member (some d) result := by
  induction height generalizing i d with
  | zero =>
    obtain rfl : i = root := Option.some.inj hheight
    refine exists_climb_of_parent fun p hup => ?_
    obtain ⟨q, -, hlink⟩ := exists_link_of_parent hnd hd hup
    have hnone := hroot.ancestor?_succ 0
    rw [ParentLinks.ancestor?, hlink] at hnone
    exact absurd hnone (Option.some_ne_none q)
  | succ height ih =>
    refine exists_climb_of_parent fun p hup => ?_
    obtain ⟨q, hq, hlink⟩ := exists_link_of_parent hnd hd hup
    rw [ParentLinks.ancestor?, hlink, Option.bind_some] at hheight
    exact ih hq hheight

/-- In concepts that were built the way up ends, wherever it starts. -/
theorem exists_climb (h : build decls = .ok cs) (name member : String) :
    ∃ result, Climb cs member (cs.find? name) result := by
  obtain ⟨hencode, rfl⟩ := build_eq_ok h
  cases hfind : cs.find? name with
  | none => exact ⟨none, .above⟩
  | some d =>
    obtain ⟨i, hi⟩ := List.getElem?_of_mem (mem_decls_of_find? hfind).1
    have hlt : i < (cs.decls.map ConceptDecl.node).length := by
      rw [List.length_map]
      exact (List.getElem?_eq_some_iff.mp hi).1
    -- an accepted hierarchy has no cycle, so links lead from the concept to a root
    obtain ⟨height, root, hheight, hroot⟩ := NestedSet.grounded_of_encode hencode hlt
    exact exists_climb_of_height (NestedSet.encode_eq_ok hencode).1 hi hroot hheight

/-- What is met on the way up is declared by the concept or by its nearest ancestor that declares
it. -/
theorem hasMember_of_climb {d : ConceptDecl} (hd : d ∈ cs.decls)
    (h : Climb cs member (some d) (some type)) : HasMember cs.decls member d.name type := by
  generalize hcurrent : some d = current, hresult : some type = result at h
  induction h generalizing d with
  | above => exact nomatch hcurrent
  | declared hown =>
    obtain rfl := Option.some.inj hcurrent
    obtain rfl := Option.some.inj hresult
    exact .declared hd hown
  | inherited hown hclimb ih =>
    obtain rfl := Option.some.inj hcurrent
    subst hresult
    cases hup : d.parent.bind cs.find? with
    | none =>
      rw [hup] at hclimb
      exact nomatch hclimb
    | some p =>
      obtain ⟨parent, hparent, hfind⟩ := Option.bind_eq_some_iff.mp hup
      obtain ⟨hp, rfl⟩ := mem_decls_of_find? hfind
      exact .inherited hd hown hparent (ih hp hup.symm rfl)

theorem climb_of_hasMember (hnames : (cs.decls.map (·.name)).Nodup)
    (h : HasMember cs.decls member name type) : Climb cs member (cs.find? name) (some type) := by
  induction h with
  | declared hd hown =>
    rw [find?, find?_name hnames hd]
    exact .declared hown
  | inherited hd hown hparent _ ih =>
    rw [find?, find?_name hnames hd]
    refine .inherited hown ?_
    rw [hparent]
    exact ih

/-- The look-up has the result of the way up. -/
theorem climb_iff (h : build decls = .ok cs) {result : Option DataType} :
    Climb cs member (cs.find? name) result ↔ cs.member? name member = result := by
  obtain ⟨met, hmet⟩ := exists_climb h name member
  -- there is one way up, so it is enough that it meets what the look-up finds
  suffices hlookup : cs.member? name member = met by
    rw [hlookup]
    exact ⟨fun hclimb => hmet.unique hclimb, fun he => he ▸ hmet⟩
  obtain ⟨hencode, rfl⟩ := build_eq_ok h
  cases met with
  | some type =>
    rw [member?_eq_some_iff h]
    cases hfind : cs.find? name with
    | none =>
      rw [hfind] at hmet
      exact nomatch hmet
    | some d =>
      obtain ⟨hd, rfl⟩ := mem_decls_of_find? hfind
      exact hasMember_of_climb hd (hfind ▸ hmet)
  | none =>
    have hnames : (cs.decls.map (·.name)).Nodup := by
      have hnd := (NestedSet.encode_eq_ok hencode).1
      rwa [ids, List.map_map] at hnd
    rw [Option.eq_none_iff_forall_ne_some]
    intro type hfound
    have hclimb := climb_of_hasMember hnames ((member?_eq_some_iff h).mp hfound)
    exact absurd (hclimb.unique hmet) (Option.some_ne_none type)

/-! ## Supertypes -/

/-- A concept has a member exactly when parent links lead from it to a declaration. -/
theorem isSome_member?_iff (h : build decls = .ok cs) : (cs.member? name member).isSome = true ↔
    ∃ d ∈ decls, Reaches (decls.map ConceptDecl.node) name d.name ∧
      (d.members.lookup member).isSome = true := by
  obtain ⟨-, rfl⟩ := build_eq_ok h
  simp only [Option.isSome_iff_exists, member?_eq_some_iff h]
  constructor
  · rintro ⟨type, hmember⟩
    induction hmember with
    | @declared d type hd hown =>
      exact ⟨d, hd, .self (List.mem_map_of_mem (List.mem_map_of_mem hd)), type, hown⟩
    | @inherited d parent type hd _ hparent _ ih =>
      obtain ⟨d', hd', hreaches, hown'⟩ := ih
      exact ⟨d', hd', .up (List.mem_map_of_mem hd) hparent hreaches, hown'⟩
  · rintro ⟨d, hd, hreaches, type, hown⟩
    generalize htarget : d.name = target at hreaches
    induction hreaches with
    | self => exact ⟨type, htarget ▸ .declared hd hown⟩
    | @up n parent target hn hparent _ ih =>
      obtain ⟨d', hd', rfl⟩ := List.mem_map.mp hn
      obtain ⟨inherited, hmember⟩ := ih htarget
      -- a declaration of its own hides the inherited one
      cases hown' : d'.members.lookup member with
      | some own => exact ⟨own, .declared hd' hown'⟩
      | none => exact ⟨inherited, .inherited hd' hown' hparent hmember⟩

theorem reaches_trans {nodes : List HierarchyNode} {a b c : String} (hab : Reaches nodes a b)
    (hbc : Reaches nodes b c) : Reaches nodes a c := by
  induction hab with
  | self => exact hbc
  | up hn hparent _ ih => exact .up hn hparent (ih hbc)

/-- Members follow the hierarchy.  From every name the way up ends, and its one result is what is
looked up: the type of the first member of the name in the nearest concept, on the way from this one
through its ancestors, that declares it.  Nothing is found exactly when the concept is unknown or
when no concept that is answered to be a supertype declares the member, so a concept has all the
members of its supertypes.  (Up to so many concepts no number of the encoding wraps.) -/
theorem member?_follows_hierarchy (h : build decls = .ok cs) :
    (∀ concept member result,
      Climb cs member (cs.find? concept) result ↔ cs.member? concept member = result) ∧
    (∀ concept member type,
      cs.member? concept member = some type ↔ HasMember decls member concept type) ∧
    (decls.length ≤ 2 ^ 31 → ∀ concept member,
      (cs.member? concept member = none ↔ cs.contains concept = false ∨
        ¬ ∃ d ∈ decls, cs.isSubType? concept d.name = some true ∧
          (d.members.lookup member).isSome = true) ∧
      ∀ ancestor, cs.isSubType? concept ancestor = some true →
        (cs.member? ancestor member).isSome = true →
        (cs.member? concept member).isSome = true) := by
  have hdecls := (build_eq_ok h).2
  refine ⟨fun _ _ _ => climb_iff h, fun _ _ _ => hdecls ▸ member?_eq_some_iff h,
    fun hsize concept member => ⟨?_, fun ancestor hsub hmember => ?_⟩⟩
  · simp only [isSubType?_eq_true_iff h hsize, ← isSome_member?_iff h]
    rw [Bool.not_eq_true, Option.isSome_eq_false_iff, Option.isNone_iff_eq_none]
    refine ⟨.inr, fun hnone => hnone.elim (fun hunknown => ?_) id⟩
    -- nothing leads up from a name that is not declared
    rw [contains, Option.isSome_eq_false_iff, Option.isNone_iff_eq_none] at hunknown
    have hclimb : Climb cs member (cs.find? concept) (cs.member? concept member) :=
      (climb_iff h).mpr rfl
    rw [hunknown] at hclimb
    exact hclimb.unique .above
  · rw [isSome_member?_iff h] at hmember ⊢
    rw [isSubType?_eq_true_iff h hsize] at hsub
    obtain ⟨d, hd, hreaches, hown⟩ := hmember
    exact ⟨d, hd, reaches_trans hsub hreaches, hown⟩

/-- An editor is a person whose age is a text.  The second age of a person does not count, and
neither of them has an address. -/
theorem member?_follows_hierarchy_editor :
    let decls : List ConceptDecl := [
      { name := "Editor", parent := some "Person", members := [("age", .string)] },
      { name := "Person", members := [("age", .number), ("name", .string), ("age", .boolean)] }]
    ∃ cs, build decls = .ok cs ∧ decls.length ≤ 2 ^ 31 ∧
      HasMember decls "age" "Editor" .string ∧ HasMember decls "age" "Person" .number ∧
      cs.isSubType? "Editor" "Person" = some true ∧
      (cs.member? "Person" "name").isSome = true ∧ (cs.member? "Editor" "name").isSome = true ∧
      Climb cs "address" (cs.find? "Editor") none ∧
      ¬ ∃ d ∈ decls, cs.isSubType? "Editor" d.name = some true ∧
        (d.members.lookup "address").isSome = true := by
  intro decls
  have hbuild : build decls = .ok ⟨⟨["Editor", "Person"], [⟨1, 2⟩, ⟨0, 3⟩]⟩, decls⟩ := by rfl
  have hsize : decls.length ≤ 2 ^ 31 := by decide
  obtain ⟨hclimb, hmember, hhierarchy⟩ := member?_follows_hierarchy hbuild
  have hsub : isSubType? ⟨⟨["Editor", "Person"], [⟨1, 2⟩, ⟨0, 3⟩]⟩, decls⟩ "Editor" "Person" =
      some true := by decide
  refine ⟨_, hbuild, hsize, (hmember _ _ _).mp rfl, (hmember _ _ _).mp rfl, hsub, rfl,
    (hhierarchy hsize _ _).2 _ hsub rfl, (hclimb _ _ _).mpr rfl, ?_⟩
  exact (((hhierarchy hsize _ _).1.mp rfl).resolve_left (by decide))

end AccessPolicy.Concepts
