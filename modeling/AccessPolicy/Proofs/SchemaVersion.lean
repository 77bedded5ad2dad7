import AccessPolicy.Compile
import AccessPolicy.Proofs.Document.Model
import AccessPolicy.Proofs.Steps

/-!
# Schema version — which models share one

The version of a policy stands in the keys of its cached values.  It is the digest of the source, a
zero byte and the model's document; a document has no zero character, so the last one is where the
source ends, whatever characters the source has.  Models are then told apart as far as documents
tell them apart: all literals but NaN and the infinities.
-/

namespace AccessPolicy

/-! ## The bytes behind a version -/

namespace Model

theorem versionBytes_eq_utf8 (m : Model) (sourceId : String) : m.versionBytes sourceId =
    Key.utf8 (String.ofList (sourceId.toList ++ '\x00' :: m.toJson.write [])) := by
  rw [versionBytes, Json.text, Key.utf8, Key.utf8, Key.utf8, String.toList_ofList,
    String.toList_ofList, List.flatMap_append, List.flatMap_cons]
  rfl

variable {N : Json → Prop} {m m' : Model} {s s' : String}

/-- The document starts behind the last zero. -/
theorem source_and_text_eq (hm : m.toJson.NumbersIn N) (hm' : m'.toJson.NumbersIn N)
    (h : m.versionBytes s = m'.versionBytes s') : s = s' ∧ m.toJson.text = m'.toJson.text := by
  rw [versionBytes_eq_utf8, versionBytes_eq_utf8] at h
  have hchars := congrArg List.reverse (String.ofList_injective (Key.utf8_injective h))
  rw [List.reverse_append, List.reverse_append, List.reverse_cons, List.reverse_cons,
    List.append_assoc, List.append_assoc] at hchars
  have hall {m : Model} (hm : m.toJson.NumbersIn N) :
      (m.toJson.write []).reverse.all Json.isTextChar = true := by
    rw [List.all_reverse, Json.all_write m.toJson hm rfl]
  obtain ⟨htext, hsource⟩ := append_inj_of_all (hall hm) (hall hm') rfl rfl hchars
  exact ⟨String.toList_inj.mp (List.reverse_inj.mp (List.cons.inj hsource).2),
    congrArg String.ofList (List.reverse_inj.mp htext)⟩

end Model

/-! ## Policies that may share cached values -/

namespace Policy

/-- What an index reads as in the common table, for a user and an environment. -/
def readCommon (p : Policy) (user environment : Json) (i : NodeIndex) : Option Json :=
  (CommonValues.read i).run' (.new p.commonProgram user environment)

/-- What an index reads as for an instance of the subject. -/
def readSubject (p : Policy) (s : PolicySubject) (user environment resource : Json)
    (i : NodeIndex) : Option Json :=
  (SubjectValues.read i).run'
    (.new (p.subjectProgram s) (.new p.commonProgram user environment) resource)

/-- The subjects have the same name, and tables that read alike. -/
structure SubjectsAlike (p p' : Policy) (s s' : PolicySubject) : Prop where
  name : s.name = s'.name
  length : s.nodes.length = s'.nodes.length
  reads : ∀ user environment resource i,
    p.readSubject s user environment resource i = p'.readSubject s' user environment resource i

/-- The conditions, modes and masks of a role's rules for each subject. -/
def ruleParts (r : Role) : List (String × List (NodeIndex × AccessMode × Bitmask)) :=
  r.rules.map fun (subject, rules) =>
    (subject, rules.map fun rule => (rule.condition, rule.mode, rule.mask))

/-- Values that are cached for one policy serve the other: table by table the lengths and the values
of all indices are the same, and so are the roles and the parts of their rules. -/
structure Interchangeable (p p' : Policy) : Prop where
  length : p.common.length = p'.common.length
  reads : ∀ user environment i, p.readCommon user environment i = p'.readCommon user environment i
  subjects : List.Forall₂ (SubjectsAlike p p') p.subjects p'.subjects
  roles : p.roles.map (fun r => (r.name, ruleParts r)) =
    p'.roles.map (fun r => (r.name, ruleParts r))

theorem Interchangeable.refl (p : Policy) : p.Interchangeable p where
  length := rfl
  reads _ _ _ := rfl
  subjects := List.forall₂_same.mpr fun _ _ => ⟨rfl, rfl, fun _ _ _ _ => rfl⟩
  roles := rfl

end Policy

namespace Model

/-- Both models are refused, or both are compiled to policies that may share cached values. -/
def CompilesAlike (m : Model) (s : String) (m' : Model) (s' : String) : Prop :=
  (∃ e e', m.compile s = .error e ∧ m'.compile s' = .error e') ∨
    ∃ p p', m.compile s = .ok p ∧ m'.compile s' = .ok p' ∧ p.Interchangeable p'

theorem CompilesAlike.refl (m : Model) (s : String) : m.CompilesAlike s m s := by
  cases h : m.compile s with
  | error e => exact .inl ⟨e, e, h, h⟩
  | ok p => exact .inr ⟨p, p, h, h, .refl p⟩

variable {N : Json → Prop} {m m' : Model} {s s' : String} {x : Binary64}

/-- The bytes behind a version tell the source and the model, up to the literals that are not
finite: the bytes are the same exactly when the sources are, and the models become the same once
each such literal is replaced by one number `x` that is not finite.  So models whose only literal
of this kind is `x`, or that have none, share a version only if they are the same, and then they are
refused together or compiled to policies that may share cached values.  Different finite literals
are taken to have different texts. -/
theorem versionBytes_determine_model (hN : Key.TextsApart N)
    (hm : ∀ y ∈ m.literals ++ m'.literals, y.isFinite = true → N (.float y))
    (hx : x.isFinite = false) :
    (m.versionBytes s = m'.versionBytes s' ↔ s = s' ∧ m.nonFiniteAs x = m'.nonFiniteAs x) ∧
    (m.nonFiniteAs x = m → m'.nonFiniteAs x = m' → m.versionBytes s = m'.versionBytes s' →
      s = s' ∧ m = m' ∧ m.CompilesAlike s m' s') := by
  obtain ⟨hfirst, hsecond⟩ := List.forall_mem_append.mp hm
  have hnumbers := numbersIn_toJson hfirst
  have hnumbers' := numbersIn_toJson hsecond
  have hiff : m.versionBytes s = m'.versionBytes s' ↔
      s = s' ∧ m.nonFiniteAs x = m'.nonFiniteAs x := by
    rw [← toJson_eq_iff hx]
    constructor
    · intro h
      obtain ⟨hsource, htext⟩ := source_and_text_eq hnumbers hnumbers' h
      exact ⟨hsource, Json.text_inj hN hnumbers hnumbers' htext⟩
    · rintro ⟨rfl, hjson⟩
      rw [versionBytes, versionBytes, hjson]
  refine ⟨hiff, fun hself hself' h => ?_⟩
  obtain ⟨rfl, hsame⟩ := hiff.mp h
  rw [hself, hself'] at hsame
  subst hsame
  exact ⟨rfl, rfl, .refl m s⟩

/-- A model whose only rule compares two literals. -/
def comparing (left right : Binary64) : Model where
  user := "U"
  concepts := [{ name := "U" }]
  subjects := [⟨"S", "U", [⟨"a", none⟩]⟩]
  roles := [⟨"R", [⟨"S", [.whenever (.equals (.number left none) (.number right none))
    [.allow ["a"]]]⟩]⟩]

theorem literals_comparing (left right : Binary64) :
    (comparing left right).literals = [left, right] := rfl

theorem nonFiniteAs_comparing (x left right : Binary64) : (comparing left right).nonFiniteAs x =
    comparing (.finiteOr x left) (.finiteOr x right) := rfl

/-- `1 == ∞` and `2 == ∞` give a policy different versions, whatever the sources are, and `1 == ∞`
gives different versions under different sources. -/
theorem versionBytes_determine_model_comparing :
    let one : Binary64 := ⟨0x3ff0000000000000⟩
    let two : Binary64 := ⟨0x4000000000000000⟩
    let infinity : Binary64 := ⟨0x7ff0000000000000⟩
    Key.TextsApart (· ∈ [Json.float one, Json.float two]) ∧
      (∀ s s', (comparing one infinity).versionBytes s ≠ (comparing two infinity).versionBytes s') ∧
      (comparing one infinity).versionBytes "p" ≠ (comparing one infinity).versionBytes "p\x00" ∧
      (comparing one infinity).CompilesAlike "p" (comparing one infinity) "p" := by
  intro one two infinity
  have hN : Key.TextsApart (· ∈ [Json.float one, Json.float two]) :=
    Key.textsApart_mem (by decide +kernel)
  have hinfinity : infinity.isFinite = false := by decide +kernel
  have hone : Binary64.finiteOr infinity one = one := by decide +kernel
  have htwo : Binary64.finiteOr infinity two = two := by decide +kernel
  have hself : Binary64.finiteOr infinity infinity = infinity := by decide +kernel
  have hliterals {left left' : Binary64} (hleft : left = one ∨ left = two)
      (hleft' : left' = one ∨ left' = two) :
      ∀ y ∈ (comparing left infinity).literals ++ (comparing left' infinity).literals,
        y.isFinite = true → Json.float y ∈ [Json.float one, Json.float two] := by
    intro y hy hfinite
    have hne : y ≠ infinity := fun h => by rw [h, hinfinity] at hfinite; cases hfinite
    simp only [literals_comparing, List.cons_append, List.nil_append, List.mem_cons,
      List.not_mem_nil, or_false] at hy
    simp only [List.mem_cons, Json.float.injEq, List.not_mem_nil, or_false]
    grind
  refine ⟨hN, fun s s' h => ?_, fun h => ?_, ?_⟩
  · have hsame := ((versionBytes_determine_model hN (hliterals (.inl rfl) (.inr rfl)) hinfinity).1.mp
      h).2
    rw [nonFiniteAs_comparing, nonFiniteAs_comparing, hone, htwo, hself] at hsame
    have hlists := congrArg literals hsame
    exact absurd hlists (by decide)
  · have hsource := ((versionBytes_determine_model hN (hliterals (.inl rfl) (.inl rfl))
      hinfinity).1.mp h).1
    exact absurd hsource (by decide)
  · have hfixed : (comparing one infinity).nonFiniteAs infinity = comparing one infinity := by
      rw [nonFiniteAs_comparing, hone, hself]
    exact ((versionBytes_determine_model hN (hliterals (.inl rfl) (.inl rfl)) hinfinity).2 hfixed
      hfixed rfl).2.2

/-- `NaN == ∞` and `∞ == ∞` give a policy the same version.  The first has both literals in its
common table and the second has one, so the conditions of their rules stand at different indices,
and values cached for one do not serve the other. -/
theorem versionBytes_collide_nonFinite :
    let infinity : Binary64 := ⟨0x7ff0000000000000⟩
    (comparing .nan infinity).versionBytes "p" = (comparing infinity infinity).versionBytes "p" ∧
      ¬ (comparing .nan infinity).CompilesAlike "p" (comparing infinity infinity) "p" := by
  intro infinity
  have hnan : Binary64.finiteOr .nan .nan = .nan := by decide +kernel
  have hinfinity : Binary64.finiteOr .nan infinity = .nan := by decide +kernel
  have hjson : (comparing .nan infinity).toJson = (comparing infinity infinity).toJson := by
    rw [toJson_eq_iff (x := .nan) (by decide +kernel), nonFiniteAs_comparing,
      nonFiniteAs_comparing, hnan, hinfinity]
  obtain ⟨p, hcompile, hp⟩ := Steps.exists_eq_ok_of_any (x := (comparing .nan infinity).compile "p")
    (q := fun p => p.common.length = 6) (by decide +kernel)
  obtain ⟨p', hcompile', hp'⟩ :=
    Steps.exists_eq_ok_of_any (x := (comparing infinity infinity).compile "p")
      (q := fun p => p.common.length = 5) (by decide +kernel)
  refine ⟨by rw [versionBytes, versionBytes, hjson], ?_⟩
  rintro (⟨e, e', herror, -⟩ | ⟨q, q', hok, hok', hsame⟩)
  · rw [hcompile] at herror
    cases herror
  · rw [hcompile] at hok
    rw [hcompile'] at hok'
    cases hok
    cases hok'
    have hlength := hsame.length
    rw [of_decide_eq_true hp, of_decide_eq_true hp'] at hlength
    exact absurd hlength (by decide)

end Model

end AccessPolicy
