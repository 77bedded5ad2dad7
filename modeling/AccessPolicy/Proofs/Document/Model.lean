import AccessPolicy.Document.Declaration
import AccessPolicy.Proofs.Document.Text
import AccessPolicy.Semantics.Literals
import Mathlib.Data.List.Nodup

/-!
# Model documents — what a document keeps of a model

Every name, tag, type and annotation of a model comes back in its document, at its place.  Two models
have the same document exactly when they are the same up to the literals that data cannot hold.
-/

namespace AccessPolicy

open Json (ofTagged ofOption)

/-- Lists agree under `g` if they agree under `f`, and `f` keeps what `g` does. -/
theorem map_eq_map_of_map_eq_map {α β γ : Type} {f : α → β} {g : α → γ}
    (h : ∀ {a b}, f a = f b → g a = g b) {as bs : List α} (hf : as.map f = bs.map f) :
    as.map g = bs.map g := by
  induction as generalizing bs with
  | nil =>
    cases bs with
    | nil => rfl
    | cons b bs => exact absurd hf (by simp)
  | cons a as ih =>
    cases bs with
    | nil => exact absurd hf (by simp)
    | cons b bs =>
      obtain ⟨hab, hrest⟩ := List.cons.inj hf
      rw [List.map_cons, List.map_cons, h hab, ih hrest]

theorem str_injective : Function.Injective Json.str := fun _ _ h => Json.str.inj h

/-- A missing text is told from every text. -/
theorem ofOption_str_injective : Function.Injective (ofOption Json.str) := by
  intro a b h
  cases a <;> cases b <;> simp_all [ofOption]

/-! ## Types -/

mutual

theorem DataType.toJson_inj : ∀ {a b : DataType}, a.toJson = b.toJson → a = b
  | .boolean, b, h | .number, b, h | .string, b, h | .null, b, h => by
    cases b <;> simp [DataType.toJson, ofTagged] at h ⊢
  | .array a, b, h => by
    cases b with
    | array b =>
      simp only [DataType.toJson, ofTagged, Json.obj.injEq, List.cons.injEq, Prod.mk.injEq, true_and,
        and_true] at h
      rw [DataType.toJson_inj h]
    | _ => simp [DataType.toJson, ofTagged] at h
  | .concept a, b, h => by
    cases b <;> simp [DataType.toJson, ofTagged] at h ⊢
    exact h
  | .object as, b, h => by
    cases b with
    | object bs =>
      simp only [DataType.toJson, ofTagged, Json.obj.injEq, List.cons.injEq, Prod.mk.injEq, true_and,
        and_true, Json.arr.injEq] at h
      rw [DataType.membersToJson_inj h]
    | _ => simp [DataType.toJson, ofTagged] at h

theorem DataType.membersToJson_inj : ∀ {as bs : List (String × DataType)},
    DataType.membersToJson as = DataType.membersToJson bs → as = bs
  | [], [], _ => rfl
  | (m, a) :: as, (n, b) :: bs, h => by
    simp only [DataType.membersToJson, List.cons.injEq, Json.obj.injEq, Prod.mk.injEq, true_and,
      and_true, Json.str.injEq] at h
    obtain ⟨⟨rfl, htype⟩, hrest⟩ := h
    rw [DataType.toJson_inj htype, DataType.membersToJson_inj hrest]

end

/-! ## Names -/

theorem Root.toJson_inj {r r' : Root} (h : r.toJson = r'.toJson) : r = r' := by
  have hname := str_injective h
  cases r <;> cases r' <;> first | rfl | exact absurd hname (by decide)

theorem UnaryOp.toJson_inj {op op' : UnaryOp} (h : op.toJson = op'.toJson) : op = op' := by
  have hsymbol := str_injective h
  cases op <;> cases op' <;> first | rfl | exact absurd hsymbol (by decide)

theorem BinaryOp.mem_all (op : BinaryOp) : op ∈ BinaryOp.all := by cases op <;> decide

theorem BinaryOp.toJson_inj {op op' : BinaryOp} (h : op.toJson = op'.toJson) : op = op' :=
  List.inj_on_of_nodup_map (f := BinaryOp.symbol) (by decide) op.mem_all op'.mem_all
    (str_injective h)

theorem AccessMode.toJson_inj {m m' : AccessMode} (h : m.toJson = m'.toJson) : m = m' := by
  have hname := str_injective h
  cases m <;> cases m' <;> first | rfl | exact absurd hname (by decide)

theorem ActionSelection.toJson_inj {s s' : ActionSelection} (h : s.toJson = s'.toJson) :
    s = s' := by
  cases s <;> cases s' <;> simp [ActionSelection.toJson] at h ⊢
  exact List.map_injective_iff.mpr str_injective h

/-! ## Expressions -/

/-- A literal comes back in its document if it is finite. -/
theorem Json.number_inj {y z : Binary64} (h : Json.number y = Json.number z) (x : Binary64) :
    Binary64.finiteOr x y = Binary64.finiteOr x z := by
  unfold Json.number at h
  unfold Binary64.finiteOr
  split at h <;> split at h <;> simp_all

/-- Whatever takes its place, a literal that is not finite is written like any other. -/
theorem Json.number_finiteOr {x : Binary64} (hx : x.isFinite = false) (y : Binary64) :
    Json.number (Binary64.finiteOr x y) = Json.number y := by
  unfold Binary64.finiteOr
  split
  next hy => rfl
  next hy => rw [Json.number, Json.number, hx, if_neg hy, if_neg Bool.false_ne_true]

namespace Expression

theorem typeField_inj {t t' : Option DataType} (h : typeField t = typeField t') : t = t' := by
  cases t <;> cases t' <;> simp [typeField] at h ⊢
  exact DataType.toJson_inj h

theorem record_kind {kind kind' : String} {fields fields' : List (String × Json)}
    {t t' : Option DataType} (h : record kind fields t = record kind' fields' t') :
    kind = kind' := by
  simp only [record, ofTagged, Json.obj.injEq, List.cons.injEq, Prod.mk.injEq, true_and,
    Json.str.injEq] at h
  exact h.1

/-- The fields of a node and its annotation come back, as all nodes of a kind have as many. -/
theorem record_inj {kind kind' : String} {fields fields' : List (String × Json)}
    {t t' : Option DataType} (h : record kind fields t = record kind' fields' t')
    (hlength : fields.length = fields'.length) : fields = fields' ∧ t = t' := by
  simp only [record, ofTagged, Json.obj.injEq, List.cons.injEq, Prod.mk.injEq, true_and,
    Json.str.injEq] at h
  obtain ⟨hfields, htype⟩ := List.append_inj h.2 hlength
  exact ⟨hfields, typeField_inj htype⟩

/-- What an expression's document leaves open is which of its literals are NaN and which infinite. -/
theorem toJson_inj {e e' : Expression} (h : e.toJson = e'.toJson) (x : Binary64) :
    e.nonFiniteAs x = e'.nonFiniteAs x := by
  induction e generalizing e' with
  | null t =>
    cases e' with
    | null t' =>
      obtain ⟨-, rfl⟩ := record_inj h rfl
      rfl
    | _ => exact absurd (record_kind h) (by decide)
  | boolean b t =>
    cases e' with
    | boolean b' t' =>
      obtain ⟨hfields, rfl⟩ := record_inj h rfl
      simp only [List.cons.injEq, Prod.mk.injEq, Json.bool.injEq, true_and, and_true] at hfields
      rw [hfields]
    | _ => exact absurd (record_kind h) (by decide)
  | number y t =>
    cases e' with
    | number z t' =>
      obtain ⟨hfields, rfl⟩ := record_inj h rfl
      simp only [List.cons.injEq, Prod.mk.injEq, true_and, and_true] at hfields
      rw [nonFiniteAs, nonFiniteAs, Json.number_inj hfields]
    | _ => exact absurd (record_kind h) (by decide)
  | string s t =>
    cases e' with
    | string s' t' =>
      obtain ⟨hfields, rfl⟩ := record_inj h rfl
      simp only [List.cons.injEq, Prod.mk.injEq, Json.str.injEq, true_and, and_true] at hfields
      rw [hfields]
    | _ => exact absurd (record_kind h) (by decide)
  | root r t =>
    cases e' with
    | root r' t' =>
      obtain ⟨hfields, rfl⟩ := record_inj h rfl
      simp only [List.cons.injEq, Prod.mk.injEq, true_and, and_true] at hfields
      rw [Root.toJson_inj hfields]
    | _ => exact absurd (record_kind h) (by decide)
  | property e m t ih =>
    cases e' with
    | property e' m' t' =>
      obtain ⟨hfields, rfl⟩ := record_inj h rfl
      simp only [List.cons.injEq, Prod.mk.injEq, Json.str.injEq, true_and, and_true] at hfields
      rw [nonFiniteAs, nonFiniteAs, ih hfields.1, hfields.2]
    | _ => exact absurd (record_kind h) (by decide)
  | arrayIndex e i t ihe ihi =>
    cases e' with
    | arrayIndex e' i' t' =>
      obtain ⟨hfields, rfl⟩ := record_inj h rfl
      simp only [List.cons.injEq, Prod.mk.injEq, true_and, and_true] at hfields
      rw [nonFiniteAs, nonFiniteAs, ihe hfields.1, ihi hfields.2]
    | _ => exact absurd (record_kind h) (by decide)
  | binary op l r t ihl ihr =>
    cases e' with
    | binary op' l' r' t' =>
      obtain ⟨hfields, rfl⟩ := record_inj h rfl
      simp only [List.cons.injEq, Prod.mk.injEq, true_and, and_true] at hfields
      rw [nonFiniteAs, nonFiniteAs, BinaryOp.toJson_inj hfields.1, ihl hfields.2.1,
        ihr hfields.2.2]
    | _ => exact absurd (record_kind h) (by decide)
  | unary op e t ih =>
    cases e' with
    | unary op' e' t' =>
      obtain ⟨hfields, rfl⟩ := record_inj h rfl
      simp only [List.cons.injEq, Prod.mk.injEq, true_and, and_true] at hfields
      rw [nonFiniteAs, nonFiniteAs, UnaryOp.toJson_inj hfields.1, ih hfields.2]
    | _ => exact absurd (record_kind h) (by decide)
  | is e c t ih =>
    cases e' with
    | is e' c' t' =>
      obtain ⟨hfields, rfl⟩ := record_inj h rfl
      simp only [List.cons.injEq, Prod.mk.injEq, Json.str.injEq, true_and, and_true] at hfields
      rw [nonFiniteAs, nonFiniteAs, ih hfields.1, hfields.2]
    | _ => exact absurd (record_kind h) (by decide)

theorem toJson_nonFiniteAs {x : Binary64} (hx : x.isFinite = false) (e : Expression) :
    (e.nonFiniteAs x).toJson = e.toJson := by
  induction e with
  | number y t => rw [nonFiniteAs, toJson, toJson, Json.number_finiteOr hx]
  | property e m t ih => rw [nonFiniteAs, toJson, toJson, ih]
  | arrayIndex e i t ihe ihi => rw [nonFiniteAs, toJson, toJson, ihe, ihi]
  | binary op l r t ihl ihr => rw [nonFiniteAs, toJson, toJson, ihl, ihr]
  | unary op e t ih => rw [nonFiniteAs, toJson, toJson, ih]
  | is e c t ih => rw [nonFiniteAs, toJson, toJson, ih]
  | _ => rfl

end Expression

/-! ## Statements -/

mutual

theorem Statement.toJson_inj : ∀ {s s' : Statement}, s.toJson = s'.toJson →
    ∀ x, s.nonFiniteAs x = s'.nonFiniteAs x
  | .permission mode actions, .permission mode' actions', h, x => by
    simp only [Statement.toJson, ofTagged, Json.obj.injEq, List.cons.injEq, Prod.mk.injEq, true_and,
      and_true] at h
    rw [AccessMode.toJson_inj h.1, ActionSelection.toJson_inj h.2]
  | .permission .., .when _, h, _ => by simp [Statement.toJson, ofTagged] at h
  | .when _, .permission .., h, _ => by simp [Statement.toJson, ofTagged] at h
  | .when w, .when w', h, x => by
    simp only [Statement.toJson, ofTagged, Json.obj.injEq, List.cons.injEq, true_and] at h
    rw [Statement.nonFiniteAs, Statement.nonFiniteAs, When.fields_inj h x]

theorem When.fields_inj : ∀ {w w' : When}, w.fields = w'.fields →
    ∀ x, w.nonFiniteAs x = w'.nonFiniteAs x
  | .mk c body alternative, .mk c' body' alternative', h, x => by
    simp only [When.fields, List.cons.injEq, Prod.mk.injEq, true_and, and_true, Json.arr.injEq] at h
    rw [When.nonFiniteAs, When.nonFiniteAs, Expression.toJson_inj h.1 x,
      statementsToJson_inj h.2.1 x, ElseBranch.toJson_inj h.2.2 x]

theorem ElseBranch.toJson_inj : ∀ {a a' : ElseBranch}, a.toJson = a'.toJson →
    ∀ x, a.nonFiniteAs x = a'.nonFiniteAs x
  | .none, .none, _, _ => rfl
  | .none, .elseWhen _, h, _ | .none, .otherwise _, h, _ => by simp [ElseBranch.toJson] at h
  | .elseWhen _, .none, h, _ | .otherwise _, .none, h, _ => by simp [ElseBranch.toJson] at h
  | .elseWhen _, .otherwise _, h, _ | .otherwise _, .elseWhen _, h, _ => by
    simp [ElseBranch.toJson] at h
  | .elseWhen w, .elseWhen w', h, x => by
    simp only [ElseBranch.toJson, Json.obj.injEq, List.cons.injEq, Prod.mk.injEq, true_and,
      and_true] at h
    rw [ElseBranch.nonFiniteAs, ElseBranch.nonFiniteAs, When.fields_inj h x]
  | .otherwise body, .otherwise body', h, x => by
    simp only [ElseBranch.toJson, Json.obj.injEq, List.cons.injEq, Prod.mk.injEq, true_and,
      and_true, Json.arr.injEq] at h
    rw [ElseBranch.nonFiniteAs, ElseBranch.nonFiniteAs, statementsToJson_inj h x]

theorem statementsToJson_inj : ∀ {ss ss' : List Statement},
    statementsToJson ss = statementsToJson ss' →
    ∀ x, statementsNonFiniteAs x ss = statementsNonFiniteAs x ss'
  | [], [], _, _ => rfl
  | [], _ :: _, h, _ | _ :: _, [], h, _ => by simp [statementsToJson] at h
  | s :: rest, s' :: rest', h, x => by
    simp only [statementsToJson, List.cons.injEq] at h
    rw [statementsNonFiniteAs, statementsNonFiniteAs, Statement.toJson_inj h.1 x,
      statementsToJson_inj h.2 x]

end

mutual

theorem Statement.toJson_nonFiniteAs {x : Binary64} (hx : x.isFinite = false) :
    ∀ s : Statement, (s.nonFiniteAs x).toJson = s.toJson
  | .permission _ _ => rfl
  | .when w => by
    rw [Statement.nonFiniteAs, Statement.toJson, Statement.toJson, When.fields_nonFiniteAs hx w]

theorem When.fields_nonFiniteAs {x : Binary64} (hx : x.isFinite = false) :
    ∀ w : When, (w.nonFiniteAs x).fields = w.fields
  | .mk c body alternative => by
    rw [When.nonFiniteAs, When.fields, When.fields, Expression.toJson_nonFiniteAs hx,
      statementsToJson_nonFiniteAs hx body, ElseBranch.toJson_nonFiniteAs hx alternative]

theorem ElseBranch.toJson_nonFiniteAs {x : Binary64} (hx : x.isFinite = false) :
    ∀ a : ElseBranch, (a.nonFiniteAs x).toJson = a.toJson
  | .none => rfl
  | .elseWhen next => by
    rw [ElseBranch.nonFiniteAs, ElseBranch.toJson, ElseBranch.toJson,
      When.fields_nonFiniteAs hx next]
  | .otherwise body => by
    rw [ElseBranch.nonFiniteAs, ElseBranch.toJson, ElseBranch.toJson,
      statementsToJson_nonFiniteAs hx body]

theorem statementsToJson_nonFiniteAs {x : Binary64} (hx : x.isFinite = false) :
    ∀ ss : List Statement, statementsToJson (statementsNonFiniteAs x ss) = statementsToJson ss
  | [] => rfl
  | s :: rest => by
    rw [statementsNonFiniteAs, statementsToJson, statementsToJson,
      Statement.toJson_nonFiniteAs hx s, statementsToJson_nonFiniteAs hx rest]

end

/-! ## Declarations -/

theorem memberToJson_injective : Function.Injective memberToJson := by
  intro ⟨name, type⟩ ⟨name', type'⟩ h
  simp only [memberToJson, Json.obj.injEq, List.cons.injEq, Prod.mk.injEq, true_and, and_true,
    Json.str.injEq] at h
  rw [h.1, DataType.toJson_inj h.2]

theorem ConceptDecl.toJson_injective : Function.Injective ConceptDecl.toJson := by
  intro ⟨name, parent, members⟩ ⟨name', parent', members'⟩ h
  simp only [ConceptDecl.toJson, Json.obj.injEq, List.cons.injEq, Prod.mk.injEq, true_and, and_true,
    Json.str.injEq, Json.arr.injEq] at h
  rw [h.1, ofOption_str_injective h.2.1, List.map_injective_iff.mpr memberToJson_injective h.2.2]

theorem ActionDecl.toJson_injective : Function.Injective ActionDecl.toJson := by
  intro ⟨name, parent⟩ ⟨name', parent'⟩ h
  simp only [ActionDecl.toJson, Json.obj.injEq, List.cons.injEq, Prod.mk.injEq, true_and, and_true,
    Json.str.injEq] at h
  rw [h.1, ofOption_str_injective h.2]

theorem SubjectDecl.toJson_injective : Function.Injective SubjectDecl.toJson := by
  intro ⟨name, concept, actions⟩ ⟨name', concept', actions'⟩ h
  simp only [SubjectDecl.toJson, Json.obj.injEq, List.cons.injEq, Prod.mk.injEq, true_and, and_true,
    Json.str.injEq, Json.arr.injEq] at h
  rw [h.1, h.2.1, List.map_injective_iff.mpr ActionDecl.toJson_injective h.2.2]

theorem RoleBlock.toJson_inj {b b' : RoleBlock} (h : b.toJson = b'.toJson) (x : Binary64) :
    b.nonFiniteAs x = b'.nonFiniteAs x := by
  simp only [RoleBlock.toJson, Json.obj.injEq, List.cons.injEq, Prod.mk.injEq, true_and, and_true,
    Json.str.injEq, Json.arr.injEq] at h
  rw [RoleBlock.nonFiniteAs, RoleBlock.nonFiniteAs, h.1, statementsToJson_inj h.2 x]

theorem RoleDecl.toJson_inj {d d' : RoleDecl} (h : d.toJson = d'.toJson) (x : Binary64) :
    d.nonFiniteAs x = d'.nonFiniteAs x := by
  simp only [RoleDecl.toJson, Json.obj.injEq, List.cons.injEq, Prod.mk.injEq, true_and, and_true,
    Json.str.injEq, Json.arr.injEq] at h
  rw [RoleDecl.nonFiniteAs, RoleDecl.nonFiniteAs, h.1,
    map_eq_map_of_map_eq_map (fun hb => RoleBlock.toJson_inj hb x) h.2]

theorem RoleDecl.toJson_nonFiniteAs {x : Binary64} (hx : x.isFinite = false) (d : RoleDecl) :
    (d.nonFiniteAs x).toJson = d.toJson := by
  have hblocks (b : RoleBlock) : (b.nonFiniteAs x).toJson = b.toJson := by
    rw [RoleBlock.nonFiniteAs, RoleBlock.toJson, RoleBlock.toJson,
      statementsToJson_nonFiniteAs hx]
  rw [RoleDecl.nonFiniteAs, RoleDecl.toJson, RoleDecl.toJson, List.map_map]
  exact congrArg (fun blocks => Json.obj [("name", .str d.name), ("blocks", .arr blocks)])
    (List.map_congr_left fun b _ => hblocks b)

namespace Model

/-- What a model's document leaves open is which of its literals are NaN and which infinite. -/
theorem toJson_inj {m m' : Model} (h : m.toJson = m'.toJson) (x : Binary64) :
    m.nonFiniteAs x = m'.nonFiniteAs x := by
  obtain ⟨user, environment, concepts, subjects, roles⟩ := m
  obtain ⟨user', environment', concepts', subjects', roles'⟩ := m'
  simp only [toJson, Json.obj.injEq, List.cons.injEq, Prod.mk.injEq, true_and, and_true,
    Json.str.injEq, Json.arr.injEq] at h
  obtain ⟨rfl, henvironment, hconcepts, hsubjects, hroles⟩ := h
  rw [nonFiniteAs, nonFiniteAs, ofOption_str_injective henvironment,
    List.map_injective_iff.mpr ConceptDecl.toJson_injective hconcepts,
    List.map_injective_iff.mpr SubjectDecl.toJson_injective hsubjects,
    map_eq_map_of_map_eq_map (fun hd => RoleDecl.toJson_inj hd x) hroles]

theorem toJson_nonFiniteAs {x : Binary64} (hx : x.isFinite = false) (m : Model) :
    (m.nonFiniteAs x).toJson = m.toJson := by
  have hroles : (m.roles.map (·.nonFiniteAs x)).map RoleDecl.toJson =
      m.roles.map RoleDecl.toJson := by
    rw [List.map_map]
    exact List.map_congr_left fun d _ => RoleDecl.toJson_nonFiniteAs hx d
  rw [nonFiniteAs, toJson, toJson, hroles]

/-- Models have the same document exactly when they are the same up to literals that are not
finite. -/
theorem toJson_eq_iff {x : Binary64} (hx : x.isFinite = false) {m m' : Model} :
    m.toJson = m'.toJson ↔ m.nonFiniteAs x = m'.nonFiniteAs x := by
  constructor
  · exact fun h => toJson_inj h x
  · intro h
    rw [← toJson_nonFiniteAs hx m, h, toJson_nonFiniteAs hx m']

end Model

/-! ## The numbers of a document -/

section

variable {N : Json → Prop}

namespace Json

theorem itemsIn_map {α : Type} {f : α → Json} {as : List α} (h : ∀ a ∈ as, NumbersIn N (f a)) :
    ItemsIn N (as.map f) := by
  induction as with
  | nil => trivial
  | cons a as ih =>
    rw [List.forall_mem_cons] at h
    exact ⟨h.1, ih h.2⟩

theorem numbersIn_ofOption_str (a : Option String) : NumbersIn N (ofOption .str a) := by
  cases a <;> trivial

/-- Of the numbers a document has the finite ones. -/
theorem numbersIn_number {y : Binary64} (h : y.isFinite = true → N (.float y)) :
    NumbersIn N (number y) := by
  rw [number]
  split
  next hy => exact ⟨hy, h hy⟩
  next => trivial

end Json

mutual

theorem DataType.numbersIn_toJson : ∀ type : DataType, type.toJson.NumbersIn N
  | .boolean | .number | .string | .null | .concept _ => ⟨trivial, by trivial⟩
  | .array element => ⟨trivial, element.numbersIn_toJson, trivial⟩
  | .object members => ⟨trivial, DataType.itemsIn_membersToJson members, trivial⟩

theorem DataType.itemsIn_membersToJson : ∀ members : List (String × DataType),
    Json.ItemsIn N (DataType.membersToJson members)
  | [] => trivial
  | (_, type) :: rest =>
    ⟨⟨trivial, type.numbersIn_toJson, trivial⟩, DataType.itemsIn_membersToJson rest⟩

end

namespace Expression

theorem fieldsIn_append_typeField {fields : List (String × Json)} (h : Json.FieldsIn N fields)
    (t : Option DataType) : Json.FieldsIn N (fields ++ typeField t) := by
  induction fields with
  | nil =>
    cases t with
    | none => trivial
    | some type => exact ⟨type.numbersIn_toJson, trivial⟩
  | cons field rest ih => exact ⟨h.1, ih h.2⟩

theorem numbersIn_record {kind : String} {fields : List (String × Json)}
    (h : Json.FieldsIn N fields) (t : Option DataType) : (record kind fields t).NumbersIn N :=
  ⟨trivial, fieldsIn_append_typeField h t⟩

theorem numbersIn_toJson {e : Expression}
    (h : ∀ y ∈ e.literals, y.isFinite = true → N (.float y)) : e.toJson.NumbersIn N := by
  -- the annotation has no numbers, so the fields decide
  induction e with refine numbersIn_record ?_ _
  | null t => exact trivial
  | boolean b t => exact ⟨trivial, trivial⟩
  | number y t =>
    exact ⟨Json.numbersIn_number (h y List.mem_cons_self), trivial⟩
  | string s t => exact ⟨trivial, trivial⟩
  | root r t => exact ⟨trivial, trivial⟩
  | property e m t ih => exact ⟨ih h, trivial, trivial⟩
  | arrayIndex e i t ihe ihi =>
    obtain ⟨he, hi⟩ := List.forall_mem_append.mp h
    exact ⟨ihe he, ihi hi, trivial⟩
  | binary op l r t ihl ihr =>
    obtain ⟨hl, hr⟩ := List.forall_mem_append.mp h
    exact ⟨trivial, ihl hl, ihr hr, trivial⟩
  | unary op e t ih => exact ⟨trivial, ih h, trivial⟩
  | is e c t ih => exact ⟨ih h, trivial, trivial⟩

end Expression

theorem ActionSelection.numbersIn_toJson (s : ActionSelection) : s.toJson.NumbersIn N := by
  cases s with
  | everything => trivial
  | actions names => exact ⟨Json.itemsIn_map fun _ _ => trivial, trivial⟩

mutual

theorem Statement.numbersIn_toJson : ∀ {s : Statement},
    (∀ y ∈ s.literals, y.isFinite = true → N (.float y)) → s.toJson.NumbersIn N
  | .permission _ actions, _ => ⟨trivial, trivial, actions.numbersIn_toJson, trivial⟩
  | .when _, h => ⟨trivial, When.fieldsIn_fields h⟩

theorem When.fieldsIn_fields : ∀ {w : When},
    (∀ y ∈ w.literals, y.isFinite = true → N (.float y)) → Json.FieldsIn N w.fields
  | .mk _ _ _, h => by
    obtain ⟨hfirst, halternative⟩ := List.forall_mem_append.mp h
    obtain ⟨hcondition, hbody⟩ := List.forall_mem_append.mp hfirst
    exact ⟨Expression.numbersIn_toJson hcondition, itemsIn_statementsToJson hbody,
      ElseBranch.numbersIn_toJson halternative, trivial⟩

theorem ElseBranch.numbersIn_toJson : ∀ {a : ElseBranch},
    (∀ y ∈ a.literals, y.isFinite = true → N (.float y)) → a.toJson.NumbersIn N
  | .none, _ => trivial
  | .elseWhen _, h => ⟨When.fieldsIn_fields h, trivial⟩
  | .otherwise _, h => ⟨itemsIn_statementsToJson h, trivial⟩

theorem itemsIn_statementsToJson : ∀ {ss : List Statement},
    (∀ y ∈ statementsLiterals ss, y.isFinite = true → N (.float y)) →
    Json.ItemsIn N (statementsToJson ss)
  | [], _ => trivial
  | _ :: _, h => by
    obtain ⟨hs, hrest⟩ := List.forall_mem_append.mp h
    exact ⟨Statement.numbersIn_toJson hs, itemsIn_statementsToJson hrest⟩

end

theorem ConceptDecl.numbersIn_toJson (d : ConceptDecl) : d.toJson.NumbersIn N :=
  ⟨trivial, Json.numbersIn_ofOption_str d.parent,
    Json.itemsIn_map fun m _ => ⟨trivial, m.2.numbersIn_toJson, trivial⟩, trivial⟩

theorem SubjectDecl.numbersIn_toJson (d : SubjectDecl) : d.toJson.NumbersIn N :=
  ⟨trivial, trivial,
    Json.itemsIn_map fun a _ => ⟨trivial, Json.numbersIn_ofOption_str a.parent, trivial⟩, trivial⟩

theorem RoleDecl.numbersIn_toJson {d : RoleDecl}
    (h : ∀ y ∈ d.literals, y.isFinite = true → N (.float y)) : d.toJson.NumbersIn N := by
  refine ⟨trivial, Json.itemsIn_map fun b hb => ⟨trivial, ?_, trivial⟩, trivial⟩
  exact itemsIn_statementsToJson fun y hy => h y (List.mem_flatMap_of_mem hb hy)

/-- The numbers of a model's document are its finite literals. -/
theorem Model.numbersIn_toJson {m : Model}
    (h : ∀ y ∈ m.literals, y.isFinite = true → N (.float y)) : m.toJson.NumbersIn N := by
  refine ⟨trivial, Json.numbersIn_ofOption_str m.environment,
    Json.itemsIn_map fun d _ => d.numbersIn_toJson, Json.itemsIn_map fun d _ => d.numbersIn_toJson,
    Json.itemsIn_map fun d hd => ?_, trivial⟩
  exact RoleDecl.numbersIn_toJson fun y hy => h y (List.mem_flatMap_of_mem hd hy)

end

end AccessPolicy
