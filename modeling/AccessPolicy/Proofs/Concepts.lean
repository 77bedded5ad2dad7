import AccessPolicy.Proofs.Hierarchy.NestedSet
import AccessPolicy.Semantics.Types

/-!
# Concepts — what is found by name

Concepts that were built have distinct names and no cycles, so a look-up finds what was declared, and
the way up from a concept ends before the look-up of a member gives up.
-/

namespace AccessPolicy

/-- Where names are not repeated, every element is found by its name. -/
theorem find?_name {α : Type} {name : α → String} {l : List α} (hnd : (l.map name).Nodup) {a : α}
    (ha : a ∈ l) : l.find? (name · = name a) = some a := by
  cases hfind : l.find? (name · = name a) with
  | none => exact absurd (List.find?_eq_none.mp hfind a ha) (by simp)
  | some b =>
    have hb : name b = name a := by simpa using List.find?_some hfind
    rw [List.inj_on_of_nodup_map hnd (List.mem_of_find?_eq_some hfind) ha hb]

theorem mem_of_find?_name {α : Type} {name : α → String} {l : List α} {n : String} {a : α}
    (h : l.find? (name · = n) = some a) : a ∈ l ∧ name a = n :=
  ⟨List.mem_of_find?_eq_some h, by simpa using List.find?_some h⟩

theorem find?_name_eq_none_iff {α : Type} {name : α → String} {l : List α} {n : String} :
    l.find? (name · = n) = none ↔ n ∉ l.map name := by
  simp [List.find?_eq_none]

theorem HasMember.mem_ids {decls : List ConceptDecl} {concept member : String} {type : DataType}
    (h : HasMember decls member concept type) :
    concept ∈ HierarchyNode.ids (decls.map ConceptDecl.node) := by
  cases h with
  | declared hd | inherited hd => exact List.mem_map_of_mem (List.mem_map_of_mem hd)

namespace Concepts

open HierarchyNode

variable {decls : List ConceptDecl} {cs : Concepts} {concept member : String} {type : DataType}

theorem build_eq_ok (h : build decls = .ok cs) :
    NestedSet.encode (decls.map ConceptDecl.node) = .ok cs.hierarchy ∧ cs.decls = decls := by
  unfold build at h
  split at h
  · exact absurd h (by simp)
  · rename_i hierarchy hencode
    dsimp only at h
    split at h
    · exact absurd h (by simp)
    · obtain rfl := Except.ok.inj h
      exact ⟨hencode, rfl⟩

/-- Subtypes are answered as parent links lead. -/
theorem isSubType?_eq_true_iff (h : build decls = .ok cs) (hsize : decls.length ≤ 2 ^ 31)
    {sub sup : String} : cs.isSubType? sub sup = some true ↔
      Reaches (decls.map ConceptDecl.node) sub sup := by
  obtain ⟨hencode, rfl⟩ := build_eq_ok h
  exact NestedSet.isSubOf?_eq_true_iff hencode (by rwa [List.length_map])

theorem mem_decls_of_find? {name : String} {d : ConceptDecl} (h : cs.find? name = some d) :
    d ∈ cs.decls ∧ d.name = name :=
  mem_of_find?_name h

theorem contains_iff {name : String} : cs.contains name = true ↔ ∃ d ∈ cs.decls, d.name = name := by
  rw [contains, find?, List.find?_isSome]
  simp

theorem hasMember_of_lineageFrom {fuel : Nat}
    (h : (cs.lineageFrom fuel concept).findSome? (·.members.lookup member) = some type) :
    HasMember cs.decls member concept type := by
  induction fuel generalizing concept with
  | zero => exact nomatch h
  | succ fuel ih =>
    rw [lineageFrom] at h
    cases hfind : cs.find? concept with
    | none =>
      rw [hfind] at h
      exact nomatch h
    | some d =>
      obtain ⟨hd, rfl⟩ := mem_decls_of_find? hfind
      rw [hfind, List.findSome?_cons] at h
      cases hown : d.members.lookup member with
      | some own =>
        rw [hown] at h
        obtain rfl := Option.some.inj h
        exact .declared hd hown
      | none =>
        rw [hown] at h
        cases hparent : d.parent with
        | none => simp [hparent] at h
        | some parent => exact .inherited hd hown hparent (ih (by simpa [hparent] using h))

/-- A member is found as far up the lineage as it is declared. -/
theorem exists_lineageFrom_of_hasMember (hnd : (ids (cs.decls.map ConceptDecl.node)).Nodup)
    (h : HasMember cs.decls member concept type) {i : Nat}
    (hi : (ids (cs.decls.map ConceptDecl.node))[i]? = some concept) :
    ∃ k j, (parents (cs.decls.map ConceptDecl.node)).ancestor? k i = some j ∧ ∀ fuel, k < fuel →
      (cs.lineageFrom fuel concept).findSome? (·.members.lookup member) = some type := by
  have hnames : (cs.decls.map (·.name)).Nodup := by
    rw [ids, List.map_map] at hnd
    exact hnd
  induction h generalizing i with
  | @declared d type hd hown =>
    refine ⟨0, i, rfl, fun fuel hfuel => ?_⟩
    obtain ⟨fuel, rfl⟩ := Nat.exists_eq_succ_of_ne_zero (Nat.ne_zero_of_lt hfuel)
    rw [lineageFrom, find?, find?_name hnames hd, List.findSome?_cons, hown]
  | @inherited d parent type hd hown hparent hmember ih =>
    obtain ⟨q, hq, hqp⟩ := List.getElem_of_mem hmember.mem_ids
    have hq' : (ids (cs.decls.map ConceptDecl.node))[q]? = some parent := by
      rw [List.getElem?_eq_getElem hq, hqp]
    obtain ⟨k, j, hk, hfound⟩ := ih hq'
    -- the concept is declared at the position, so its parent is the parent of the position
    obtain ⟨i', hi', hdi⟩ := List.getElem_of_mem (List.mem_map_of_mem (f := ConceptDecl.node) hd)
    have hdi' : (cs.decls.map ConceptDecl.node)[i']? = some d.node := by
      rw [List.getElem?_eq_getElem hi', hdi]
    obtain rfl : i = i' := position_unique hnd hi (by rw [getElem?_ids, hdi', Option.map_some]; rfl)
    have hlink : (parents (cs.decls.map ConceptDecl.node)).parent? i = some q :=
      parent?_parents_iff.mpr ⟨d.node, parent, hdi', hparent, idxOf?_of_getElem? hnd hq'⟩
    refine ⟨k + 1, j, ?_, fun fuel hfuel => ?_⟩
    · rw [ParentLinks.ancestor?, hlink, Option.bind_some, hk]
    · obtain ⟨fuel, rfl⟩ := Nat.exists_eq_succ_of_ne_zero (Nat.ne_zero_of_lt hfuel)
      rw [lineageFrom, find?, find?_name hnames hd, List.findSome?_cons, hown, hparent]
      exact hfound fuel (by omega)

/-- In concepts that were built a member has the type of its nearest declaration. -/
theorem member?_eq_some_iff (h : build decls = .ok cs) :
    cs.member? concept member = some type ↔ HasMember cs.decls member concept type := by
  refine ⟨hasMember_of_lineageFrom, fun hmember => ?_⟩
  obtain ⟨hencode, rfl⟩ := build_eq_ok h
  obtain ⟨hnd, -⟩ := NestedSet.encode_eq_ok hencode
  obtain ⟨i, hi, hic⟩ := List.getElem_of_mem hmember.mem_ids
  have hi' : (ids (cs.decls.map ConceptDecl.node))[i]? = some concept := by
    rw [List.getElem?_eq_getElem hi, hic]
  obtain ⟨k, j, hk, hfound⟩ := exists_lineageFrom_of_hasMember hnd hmember hi'
  -- the way up is shorter than the list of concepts
  have hground := NestedSet.grounded_of_encode hencode (i := i) (by simpa [ids] using hi)
  have hlt := hground.distance_lt_length hk
  rw [length_parents, List.length_map] at hlt
  exact hfound _ hlt

end Concepts

end AccessPolicy
