import AccessPolicy.Document.Result
import AccessPolicy.Proofs.Document.FieldOrder
import AccessPolicy.Semantics.Literals

/-!
# Round trips — what is written is read back

Four ways of telling alternatives apart meet in a document: a tag among the fields, a tag beside
the fields of what stands in the alternative, a field that is named for it, and a bare word.  Each
reader finds what it looks for by name, so it gets back what was written in whatever order the fields
come.  The readers take fuel for the depth of a document, and the depth is always enough.
-/

namespace AccessPolicy

open Json (required optional withDefault ofTagged ofOption)

/-! ## Types -/

theorem DataType.membersToJson_eq_map (members : List (String × DataType)) :
    membersToJson members = members.map memberToJson := by
  induction members with
  | nil => rfl
  | cons m rest ih => rw [membersToJson, ih, List.map_cons, memberToJson]

/-- A member is read back if its type is. -/
theorem DataType.memberOfJson?_of_reorders {type? : Json → Option DataType}
    {m : String × DataType} {j : Json} (h : (memberToJson m).Reorders j)
    (htype : ∀ x, m.2.toJson.Reorders x → x.depth < j.depth → type? x = some m.2) :
    memberOfJson? type? j = some m := by
  obtain ⟨_, hrecord, ⟨_, _, rfl, rfl, x, _, rfl, hx, rfl⟩, hlt⟩ :=
    Json.record?_of_reorders h ["name", "type"] rfl (by decide)
  have hread := htype x hx (hlt ("type", x) (by simp))
  rw [memberOfJson?, hrecord]
  simp [required, Json.string?, hread]

mutual

/-- A type is read back from every document that lists its fields, given fuel for its depth. -/
theorem DataType.ofJsonFrom?_of_reorders : ∀ {type : DataType} {j : Json},
    type.toJson.Reorders j → ∀ {fuel : Nat}, j.depth < fuel → ∀ within,
      ofJsonFrom? fuel within j = some type
  | _, _, _, 0, hfuel, _ => absurd hfuel (Nat.not_lt_zero _)
  | .boolean, _, h, fuel + 1, _, within => by
    obtain ⟨content, _, htag, hnone, -⟩ := Json.taggedRecord_of_reorders h
      (by decide : "boolean" ∈ kinds) [] rfl (by decide) within
    rw [ofJsonFrom?, htag]
    simp [hnone]
  | .number, _, h, fuel + 1, _, within => by
    obtain ⟨content, _, htag, hnone, -⟩ := Json.taggedRecord_of_reorders h
      (by decide : "number" ∈ kinds) [] rfl (by decide) within
    rw [ofJsonFrom?, htag]
    simp [hnone]
  | .string, _, h, fuel + 1, _, within => by
    obtain ⟨content, _, htag, hnone, -⟩ := Json.taggedRecord_of_reorders h
      (by decide : "string" ∈ kinds) [] rfl (by decide) within
    rw [ofJsonFrom?, htag]
    simp [hnone]
  | .null, _, h, fuel + 1, _, within => by
    obtain ⟨content, _, htag, hnone, -⟩ := Json.taggedRecord_of_reorders h
      (by decide : "null" ∈ kinds) [] rfl (by decide) within
    rw [ofJsonFrom?, htag]
    simp [hnone]
  | .array element, j, h, fuel + 1, hfuel, within => by
    obtain ⟨content, _, htag, -, hrecord, ⟨x, _, rfl, hx, rfl⟩, hlt⟩ :=
      Json.taggedRecord_of_reorders h (by decide : "array" ∈ kinds) ["element"] rfl (by decide)
        within
    have hdepth : x.depth < j.depth := hlt _ List.mem_cons_self
    have hread : ofJsonFrom? fuel true x = some element :=
      DataType.ofJsonFrom?_of_reorders hx (by omega) true
    rw [ofJsonFrom?, htag]
    simp [hrecord, required, hread]
  | .concept name, _, h, fuel + 1, _, within => by
    obtain ⟨content, _, htag, -, hrecord, ⟨_, _, rfl, rfl, rfl⟩, -⟩ :=
      Json.taggedRecord_of_reorders h (by decide : "concept" ∈ kinds) ["name"] rfl (by decide)
        within
    rw [ofJsonFrom?, htag]
    simp [hrecord, required, Json.string?]
  | .object members, j, h, fuel + 1, hfuel, within => by
    obtain ⟨content, _, htag, -, hrecord, ⟨x, _, rfl, hx, rfl⟩, hlt⟩ :=
      Json.taggedRecord_of_reorders h (by decide : "object" ∈ kinds) ["members"] rfl (by decide)
        within
    have hdepth : x.depth < j.depth := hlt _ List.mem_cons_self
    rw [membersToJson_eq_map] at hx
    -- between the type and the types of its members lie the list and the records of the members
    have hread : x.list? (memberOfJson? (ofJsonFrom? fuel true)) = some members := by
      refine Json.list?_of_reorders hx fun m hm y hy hylt => ?_
      refine memberOfJson?_of_reorders hy fun z hz hzlt => ?_
      exact DataType.ofJsonFrom?_of_member hm hz (by omega) true
    rw [ofJsonFrom?, htag]
    simp [hrecord, required, hread]

theorem DataType.ofJsonFrom?_of_member : ∀ {members : List (String × DataType)}
    {m : String × DataType}, m ∈ members → ∀ {j : Json}, m.2.toJson.Reorders j →
      ∀ {fuel : Nat}, j.depth < fuel → ∀ within, ofJsonFrom? fuel within j = some m.2
  | (_, type) :: rest, m, hm, _, h, _, hfuel, within => by
    rcases List.mem_cons.mp hm with rfl | hm
    · exact DataType.ofJsonFrom?_of_reorders h hfuel within
    · exact DataType.ofJsonFrom?_of_member hm h hfuel within

end

theorem DataType.ofJson?_of_reorders {type : DataType} {j : Json} (h : type.toJson.Reorders j)
    (within : Bool) : DataType.ofJson? within j = some type :=
  DataType.ofJsonFrom?_of_reorders h (Nat.lt_succ_self _) within

/-! ## Words -/

theorem Root.ofJson?_toJson (r : Root) (within : Bool) : ofJson? within r.toJson = some r := by
  cases r <;> rfl

theorem BinaryOp.ofJson?_toJson (op : BinaryOp) (within : Bool) :
    ofJson? within op.toJson = some op := by
  cases op <;> rfl

theorem UnaryOp.ofJson?_toJson (op : UnaryOp) (within : Bool) :
    ofJson? within op.toJson = some op := by
  cases op <;> rfl

theorem AccessMode.ofJson?_toJson (mode : AccessMode) (within : Bool) :
    ofJson? within mode.toJson = some mode := by
  cases mode <;> rfl

/-! ## Expressions -/

namespace Expression

/-- The annotation is found among the fields of the node and taken off; without one nothing is. -/
theorem exists_of_record_reorders {kind : String} {fields : List (String × Json)}
    {t : Option DataType} {j : Json} (h : (record kind fields t).Reorders j)
    (hkeys : ("type" :: "kind" :: fields.map (·.1)).Nodup) (within : Bool) :
    ∃ fields', j = .obj fields' ∧
      optional (DataType.ofJson? within) (fields'.lookup "type") = some t ∧
      (ofTagged "kind" kind fields).Reorders (.obj (fields'.filter (·.1 ≠ "type"))) := by
  cases t with
  | none =>
    rw [record, typeField, List.append_nil] at h
    obtain ⟨listed, fields', rfl, hperm, hfields⟩ := h
    have hnot : "type" ∉ fields'.map (·.1) := by
      rw [← (hperm.map _).mem_iff, hfields.keys]
      exact (List.nodup_cons.mp hkeys).1
    refine ⟨fields', rfl, ?_, ?_⟩
    · rw [Json.lookup_eq_none_of_not_mem hnot]
      rfl
    · rw [Json.filter_ne_of_not_mem hnot]
      exact ⟨listed, fields', rfl, hperm, hfields⟩
  | some type =>
    -- written last, the annotation is the first one to be read
    have hfirst : (Json.obj (("type", type.toJson) :: ("kind", .str kind) :: fields)).Reorders j :=
      Json.Reorders.last_first h
    obtain ⟨fields', y, rfl, hy, hlookup, hrest⟩ := Json.filter_of_reorders hfirst hkeys
    refine ⟨fields', rfl, ?_, hrest⟩
    rw [hlookup]
    exact Json.optional_of_read rfl (DataType.ofJson?_of_reorders hy within)

/-- An expression is read back if its node is, with the fields that are found beside the tag. -/
theorem ofJsonFrom?_of_record {kind : String} {fields : List (String × Json)}
    {t : Option DataType} {j : Json} (h : (record kind fields t).Reorders j) {fuel : Nat}
    (hfuel : j.depth < fuel) (within : Bool) (hkind : kind ∈ kinds) (names : List String)
    (hnames : fields.map (·.1) = names) (hkeys : ("type" :: "kind" :: names).Nodup)
    (node : Expression)
    (hnode : ∀ content inner listed fuel, content.tagged? "kind" true kinds = some (kind, inner) →
      inner.noFields? = some () → inner.record? names = some (listed.map fun f => some f.2) →
      Json.FieldsReorder fields listed → (∀ f ∈ listed, f.2.depth < fuel) →
      nodeOfJson? (ofJsonFrom? fuel true) true content = some node) :
    ofJsonFrom? fuel within j = some (node.annotated t) := by
  cases fuel with
  | zero => exact absurd hfuel (Nat.not_lt_zero _)
  | succ fuel =>
    -- first the annotation is taken off, then the tag of the node
    obtain ⟨fields', rfl, htype, hcontent⟩ :=
      exists_of_record_reorders h (by rwa [hnames]) within
    obtain ⟨inner, listed, htag, hnone, hrecord, hfields, hlt⟩ :=
      Json.taggedRecord_of_reorders hcontent hkind names hnames (List.nodup_cons.mp hkeys).2 true
    have hdepth := Json.depth_obj_le_of_subset
      (List.filter_subset_self (p := (·.1 ≠ "type")) fields')
    have hread := hnode _ inner listed fuel htag hnone hrecord hfields fun f hf => by
      have := hlt f hf
      omega
    rw [ofJsonFrom?, htype]
    simp only [bind, Option.bind_some, hread]
    rfl

/-- An expression without NaN and infinities is read back from every document that lists its fields,
given fuel for its depth. -/
theorem ofJsonFrom?_of_reorders {e : Expression} (hfinite : ∀ y ∈ e.literals, y.isFinite = true)
    {j : Json} (h : e.toJson.Reorders j) {fuel : Nat} (hfuel : j.depth < fuel) (within : Bool) :
    ofJsonFrom? fuel within j = some e := by
  induction e generalizing j fuel within with
  | null t =>
    refine ofJsonFrom?_of_record h hfuel within (by decide) [] rfl (by decide) (.null none) ?_
    rintro content inner _ fuel htag hnone - - -
    rw [nodeOfJson?, htag]
    simp [hnone]
  | boolean b t =>
    refine ofJsonFrom?_of_record h hfuel within (by decide) ["value"] rfl (by decide)
      (.boolean b none) ?_
    rintro content inner _ fuel htag - hrecord ⟨_, _, rfl, rfl, rfl⟩ -
    rw [nodeOfJson?, htag]
    simp [hrecord, required, Json.bool?]
  | number x t =>
    -- a finite number is written as itself
    have hx : x.isFinite = true := hfinite x List.mem_cons_self
    rw [toJson, Json.number, if_pos hx] at h
    refine ofJsonFrom?_of_record h hfuel within (by decide) ["value"] rfl (by decide)
      (.number x none) ?_
    rintro content inner _ fuel htag - hrecord ⟨_, _, rfl, rfl, rfl⟩ -
    rw [nodeOfJson?, htag]
    simp [hrecord, required, Json.float?]
  | string s t =>
    refine ofJsonFrom?_of_record h hfuel within (by decide) ["value"] rfl (by decide)
      (.string s none) ?_
    rintro content inner _ fuel htag - hrecord ⟨_, _, rfl, rfl, rfl⟩ -
    rw [nodeOfJson?, htag]
    simp [hrecord, required, Json.string?]
  | root r t =>
    refine ofJsonFrom?_of_record h hfuel within (by decide) ["root"] rfl (by decide)
      (.root r none) ?_
    rintro content inner _ fuel htag - hrecord ⟨_, _, rfl, hr, rfl⟩ -
    obtain rfl : _ = r.toJson := hr
    rw [nodeOfJson?, htag]
    simp [hrecord, required, Root.ofJson?_toJson]
  | property e m t ih =>
    refine ofJsonFrom?_of_record h hfuel within (by decide) ["receiver", "member"] rfl (by decide)
      (.property e m none) ?_
    rintro content inner _ fuel htag - hrecord ⟨x, _, rfl, hx, _, _, rfl, rfl, rfl⟩ hlt
    have hreceiver : ofJsonFrom? fuel true x = some e :=
      ih hfinite hx (hlt ("receiver", x) (by simp)) true
    rw [nodeOfJson?, htag]
    simp [hrecord, required, Json.string?, hreceiver]
  | arrayIndex e i t ihe ihi =>
    obtain ⟨he, hi⟩ := List.forall_mem_append.mp hfinite
    refine ofJsonFrom?_of_record h hfuel within (by decide) ["receiver", "index"] rfl (by decide)
      (.arrayIndex e i none) ?_
    rintro content inner _ fuel htag - hrecord ⟨x, _, rfl, hx, y, _, rfl, hy, rfl⟩ hlt
    have hreceiver : ofJsonFrom? fuel true x = some e :=
      ihe he hx (hlt ("receiver", x) (by simp)) true
    have hindex : ofJsonFrom? fuel true y = some i :=
      ihi hi hy (hlt ("index", y) (by simp)) true
    rw [nodeOfJson?, htag]
    simp [hrecord, required, hreceiver, hindex]
  | binary op l r t ihl ihr =>
    obtain ⟨hl, hr⟩ := List.forall_mem_append.mp hfinite
    refine ofJsonFrom?_of_record h hfuel within (by decide) ["op", "left", "right"] rfl (by decide)
      (.binary op l r none) ?_
    rintro content inner _ fuel htag - hrecord
      ⟨_, _, rfl, hop, x, _, rfl, hx, y, _, rfl, hy, rfl⟩ hlt
    obtain rfl : _ = op.toJson := hop
    have hleft : ofJsonFrom? fuel true x = some l := ihl hl hx (hlt ("left", x) (by simp)) true
    have hright : ofJsonFrom? fuel true y = some r := ihr hr hy (hlt ("right", y) (by simp)) true
    rw [nodeOfJson?, htag]
    simp [hrecord, required, BinaryOp.ofJson?_toJson, hleft, hright]
  | unary op e t ih =>
    refine ofJsonFrom?_of_record h hfuel within (by decide) ["op", "operand"] rfl (by decide)
      (.unary op e none) ?_
    rintro content inner _ fuel htag - hrecord ⟨_, _, rfl, hop, x, _, rfl, hx, rfl⟩ hlt
    obtain rfl : _ = op.toJson := hop
    have hoperand : ofJsonFrom? fuel true x = some e :=
      ih hfinite hx (hlt ("operand", x) (by simp)) true
    rw [nodeOfJson?, htag]
    simp [hrecord, required, UnaryOp.ofJson?_toJson, hoperand]
  | is e c t ih =>
    refine ofJsonFrom?_of_record h hfuel within (by decide) ["operand", "concept"] rfl (by decide)
      (.is e c none) ?_
    rintro content inner _ fuel htag - hrecord ⟨x, _, rfl, hx, _, _, rfl, rfl, rfl⟩ hlt
    have hoperand : ofJsonFrom? fuel true x = some e :=
      ih hfinite hx (hlt ("operand", x) (by simp)) true
    rw [nodeOfJson?, htag]
    simp [hrecord, required, Json.string?, hoperand]

theorem ofJson?_of_reorders {e : Expression} (hfinite : ∀ y ∈ e.literals, y.isFinite = true)
    {j : Json} (h : e.toJson.Reorders j) (within : Bool) :
    Expression.ofJson? within j = some e :=
  ofJsonFrom?_of_reorders hfinite h (Nat.lt_succ_self _) within

end Expression

/-! ## Statements -/

theorem ActionSelection.ofJson?_of_reorders {s : ActionSelection} {j : Json}
    (h : s.toJson.Reorders j) (within : Bool) : ActionSelection.ofJson? within j = some s := by
  cases s with
  | everything =>
    obtain rfl := h
    rfl
  | actions names =>
    obtain ⟨x, rfl, hx⟩ := Json.exists_of_singleton_reorders h
    have hread : x.list? Json.string? = some names :=
      Json.list?_of_reorders hx fun name _ y hy _ => by
        obtain rfl := hy
        rfl
    rw [ofJson?, hread]
    rfl

theorem statementsToJson_eq_map (ss : List Statement) :
    statementsToJson ss = ss.map Statement.toJson := by
  induction ss with
  | nil => rfl
  | cons s rest ih => rw [statementsToJson, ih, List.map_cons]

theorem When.map_fst_fields (w : When) :
    w.fields.map (·.1) = ["condition", "then", "alternative"] := by
  obtain ⟨condition, body, alternative⟩ := w
  rfl

mutual

/-- A statement stands in one object with its `when`, so it is read in two steps: fuel is counted
twice for each level of the document. -/
theorem Statement.ofJsonFrom?_of_reorders : ∀ {s : Statement},
    (∀ y ∈ s.literals, y.isFinite = true) → ∀ {j : Json}, s.toJson.Reorders j →
      ∀ {fuel : Nat}, 2 * j.depth + 2 ≤ fuel → ∀ within,
        Statement.ofJsonFrom? fuel within j = some s
  | _, _, _, _, 0, hfuel, _ => absurd hfuel (by omega)
  | .permission mode actions, _, _, h, fuel + 1, _, within => by
    obtain ⟨content, _, htag, -, hrecord, ⟨_, _, rfl, hmode, x, _, rfl, hx, rfl⟩, -⟩ :=
      Json.taggedRecord_of_reorders h (by decide : "permission" ∈ ["permission", "when"])
        ["mode", "actions"] rfl (by decide) within
    obtain rfl : _ = mode.toJson := hmode
    rw [Statement.ofJsonFrom?, htag]
    simp [hrecord, required, AccessMode.ofJson?_toJson, ActionSelection.ofJson?_of_reorders hx]
  | .when w, hfinite, j, h, fuel + 1, hfuel, within => by
    -- the fields of the `when` are those that the tag leaves, in an object that is as deep as before
    obtain ⟨content, htag, hcontent, hdepth⟩ := Json.tagged?_of_reorders h
      (by rw [w.map_fst_fields]; decide) (by decide : "when" ∈ ["permission", "when"]) within
    have hread : When.ofJsonFrom? fuel true content = some w :=
      When.ofJsonFrom?_of_reorders hfinite hcontent (by omega) true
    rw [Statement.ofJsonFrom?, htag]
    simp [hread]

theorem When.ofJsonFrom?_of_reorders : ∀ {w : When},
    (∀ y ∈ w.literals, y.isFinite = true) → ∀ {j : Json}, w.toJson.Reorders j →
      ∀ {fuel : Nat}, 2 * j.depth + 1 ≤ fuel → ∀ within, When.ofJsonFrom? fuel within j = some w
  | _, _, _, _, 0, hfuel, _ => absurd hfuel (by omega)
  | .mk condition body alternative, hfinite, j, h, fuel + 1, hfuel, within => by
    obtain ⟨hfirst, hrest⟩ := List.forall_mem_append.mp hfinite
    obtain ⟨hc, hb⟩ := List.forall_mem_append.mp hfirst
    obtain ⟨_, hrecord, ⟨x, _, rfl, hx, y, _, rfl, hy, z, _, rfl, hz, rfl⟩, hlt⟩ :=
      Json.record?_of_reorders h ["condition", "then", "alternative"] rfl (by decide)
    have hthen : y.depth < j.depth := hlt ("then", y) (by simp)
    have helse : z.depth < j.depth := hlt ("alternative", z) (by simp)
    have hcondition : Expression.ofJson? within x = some condition :=
      Expression.ofJson?_of_reorders hc hx within
    rw [statementsToJson_eq_map] at hy
    have hbody : y.list? (Statement.ofJsonFrom? fuel within) = some body :=
      Json.list?_of_reorders hy fun s hs item hitem hlt =>
        Statement.ofJsonFrom?_of_member hb hs hitem (by omega) within
    obtain ⟨read, halternative, hread⟩ := Option.map_eq_some_iff.mp
      (ElseBranch.ofJsonFrom?_of_reorders hrest hz (by omega : 2 * z.depth + 1 ≤ fuel) within)
    rw [When.ofJsonFrom?, hrecord]
    simp [required, withDefault, hcondition, hbody, halternative, hread]

/-- Where nothing else applies the alternative is written as `null`, and read as one that was left
out. -/
theorem ElseBranch.ofJsonFrom?_of_reorders : ∀ {a : ElseBranch},
    (∀ y ∈ a.literals, y.isFinite = true) → ∀ {j : Json}, a.toJson.Reorders j →
      ∀ {fuel : Nat}, 2 * j.depth + 1 ≤ fuel → ∀ within,
        (optional (ElseBranch.ofJsonFrom? fuel within) (some j)).map (·.getD .none) = some a
  | _, _, _, _, 0, hfuel, _ => absurd hfuel (by omega)
  | .none, _, _, h, _ + 1, _, _ => by
    obtain rfl := h
    rfl
  | .elseWhen next, hfinite, _, h, fuel + 1, hfuel, within => by
    obtain ⟨y, rfl, hy⟩ := Json.exists_of_singleton_reorders h
    have hdepth : y.depth < _ := Json.depth_lt_of_mem_fields (List.mem_singleton_self ("when", y))
    have hread : When.ofJsonFrom? fuel within y = some next :=
      When.ofJsonFrom?_of_reorders hfinite hy (by omega) within
    show ((ElseBranch.ofJsonFrom? (fuel + 1) within _).map some).map _ = _
    rw [ElseBranch.ofJsonFrom?, hread]
    rfl
  | .otherwise body, hfinite, _, h, fuel + 1, hfuel, within => by
    obtain ⟨y, rfl, hy⟩ := Json.exists_of_singleton_reorders h
    have hdepth : y.depth < _ := Json.depth_lt_of_mem_fields (List.mem_singleton_self ("else", y))
    rw [statementsToJson_eq_map] at hy
    have hbody : y.list? (Statement.ofJsonFrom? fuel within) = some body :=
      Json.list?_of_reorders hy fun s hs item hitem hlt =>
        Statement.ofJsonFrom?_of_member hfinite hs hitem (by omega) within
    show ((ElseBranch.ofJsonFrom? (fuel + 1) within _).map some).map _ = _
    rw [ElseBranch.ofJsonFrom?, hbody]
    rfl

theorem Statement.ofJsonFrom?_of_member : ∀ {ss : List Statement},
    (∀ y ∈ statementsLiterals ss, y.isFinite = true) → ∀ {s : Statement}, s ∈ ss →
      ∀ {j : Json}, s.toJson.Reorders j → ∀ {fuel : Nat}, 2 * j.depth + 2 ≤ fuel → ∀ within,
        Statement.ofJsonFrom? fuel within j = some s
  | first :: rest, hfinite, s, hs, _, h, _, hfuel, within => by
    obtain ⟨hfirst, hrest⟩ := List.forall_mem_append.mp hfinite
    rcases List.mem_cons.mp hs with heq | hs
    · rw [heq] at h ⊢
      exact Statement.ofJsonFrom?_of_reorders hfirst h hfuel within
    · exact Statement.ofJsonFrom?_of_member hrest hs h hfuel within

end

theorem Statement.ofJson?_of_reorders {s : Statement}
    (hfinite : ∀ y ∈ s.literals, y.isFinite = true) {j : Json} (h : s.toJson.Reorders j) :
    Statement.ofJson? j = some s :=
  Statement.ofJsonFrom?_of_reorders hfinite h (Nat.le_refl _) false

/-! ## Declarations -/

/-- A text that may be missing is written as `null` when it is. -/
theorem optional_string?_of_reorders {a : Option String} {j : Json}
    (h : (ofOption .str a).Reorders j) : Json.optional Json.string? (some j) = some a := by
  cases a <;> obtain rfl := h <;> rfl

theorem memberOfJson?_of_reorders {m : String × DataType} {j : Json}
    (h : (memberToJson m).Reorders j) : memberOfJson? j = some m :=
  DataType.memberOfJson?_of_reorders h fun _ hx _ => DataType.ofJson?_of_reorders hx false

theorem ConceptDecl.ofJson?_of_reorders {d : ConceptDecl} {j : Json} (h : d.toJson.Reorders j) :
    ofJson? j = some d := by
  obtain ⟨_, hrecord, ⟨_, _, rfl, rfl, x, _, rfl, hx, y, _, rfl, hy, rfl⟩, -⟩ :=
    Json.record?_of_reorders h ["name", "parent", "members"] rfl (by decide)
  have hmembers : y.list? memberOfJson? = some d.members :=
    Json.list?_of_reorders hy fun _ _ _ hread _ => memberOfJson?_of_reorders hread
  rw [ofJson?, hrecord]
  simp [required, Json.string?, withDefault, optional_string?_of_reorders hx, hmembers]

theorem ActionDecl.ofJson?_of_reorders {d : ActionDecl} {j : Json} (h : d.toJson.Reorders j) :
    ofJson? j = some d := by
  obtain ⟨_, hrecord, ⟨_, _, rfl, rfl, x, _, rfl, hx, rfl⟩, -⟩ :=
    Json.record?_of_reorders h ["name", "extends"] rfl (by decide)
  rw [ofJson?, hrecord]
  simp [required, Json.string?, optional_string?_of_reorders hx]

theorem SubjectDecl.ofJson?_of_reorders {d : SubjectDecl} {j : Json} (h : d.toJson.Reorders j) :
    ofJson? j = some d := by
  obtain ⟨_, hrecord, ⟨_, _, rfl, rfl, _, _, rfl, rfl, x, _, rfl, hx, rfl⟩, -⟩ :=
    Json.record?_of_reorders h ["name", "concept", "actions"] rfl (by decide)
  have hactions : x.list? ActionDecl.ofJson? = some d.actions :=
    Json.list?_of_reorders hx fun _ _ _ hread _ => ActionDecl.ofJson?_of_reorders hread
  rw [ofJson?, hrecord]
  simp [required, Json.string?, withDefault, hactions]

theorem RoleBlock.ofJson?_of_reorders {b : RoleBlock}
    (hfinite : ∀ y ∈ b.literals, y.isFinite = true) {j : Json} (h : b.toJson.Reorders j) :
    ofJson? j = some b := by
  obtain ⟨_, hrecord, ⟨_, _, rfl, rfl, x, _, rfl, hx, rfl⟩, -⟩ :=
    Json.record?_of_reorders h ["subject", "statements"] rfl (by decide)
  rw [statementsToJson_eq_map] at hx
  have hstatements : x.list? Statement.ofJson? = some b.statements :=
    Json.list?_of_reorders hx fun _ hs _ hread _ =>
      Statement.ofJsonFrom?_of_member hfinite hs hread (Nat.le_refl _) false
  rw [ofJson?, hrecord]
  simp [required, Json.string?, withDefault, hstatements]

theorem RoleDecl.ofJson?_of_reorders {d : RoleDecl}
    (hfinite : ∀ y ∈ d.literals, y.isFinite = true) {j : Json} (h : d.toJson.Reorders j) :
    ofJson? j = some d := by
  obtain ⟨_, hrecord, ⟨_, _, rfl, rfl, x, _, rfl, hx, rfl⟩, -⟩ :=
    Json.record?_of_reorders h ["name", "blocks"] rfl (by decide)
  have hblocks : x.list? RoleBlock.ofJson? = some d.blocks :=
    Json.list?_of_reorders hx fun _ hb _ hread _ => RoleBlock.ofJson?_of_reorders
      (fun y hy => hfinite y (List.mem_flatMap_of_mem hb hy)) hread
  rw [ofJson?, hrecord]
  simp [required, Json.string?, withDefault, hblocks]

theorem Model.ofJson?_of_reorders {m : Model} (hfinite : ∀ y ∈ m.literals, y.isFinite = true)
    {j : Json} (h : m.toJson.Reorders j) : ofJson? j = some m := by
  obtain ⟨_, hrecord, ⟨_, _, rfl, rfl, w, _, rfl, hw, x, _, rfl, hx, y, _, rfl, hy, z, _, rfl, hz,
    rfl⟩, -⟩ := Json.record?_of_reorders h
      ["user", "environment", "concepts", "subjects", "roles"] rfl (by decide)
  have hconcepts : x.list? ConceptDecl.ofJson? = some m.concepts :=
    Json.list?_of_reorders hx fun _ _ _ hread _ => ConceptDecl.ofJson?_of_reorders hread
  have hsubjects : y.list? SubjectDecl.ofJson? = some m.subjects :=
    Json.list?_of_reorders hy fun _ _ _ hread _ => SubjectDecl.ofJson?_of_reorders hread
  have hroles : z.list? RoleDecl.ofJson? = some m.roles :=
    Json.list?_of_reorders hz fun _ hd _ hread _ => RoleDecl.ofJson?_of_reorders
      (fun v hv => hfinite v (List.mem_flatMap_of_mem hd hv)) hread
  rw [ofJson?, hrecord]
  simp [required, Json.string?, withDefault, optional_string?_of_reorders hw, hconcepts, hsubjects,
    hroles]

/-! ## Nodes -/

/-- An index is written as the integer it is. -/
theorem NodeIndex.ofJson?_toJson (i : NodeIndex) : ofJson? i.toJson = some i := by
  have hlow : -Int.pow 2 31 ≤ i.raw.toInt := Int32.le_toInt i.raw
  have hhigh : i.raw.toInt < Int.pow 2 31 := Int32.toInt_lt i.raw
  rw [ofJson?, toJson, Json.intIn?, if_pos ⟨hlow, hhigh⟩, Option.map_some, Int32.ofInt_toInt]

theorem Node.ofJson?_of_reorders {n : Node} (hfinite : ∀ x, n = .number x → x.isFinite = true)
    {j : Json} (h : n.toJson.Reorders j) : ofJson? j = some n := by
  cases n with
  | null =>
    obtain ⟨content, _, htag, hnone, -⟩ := Json.taggedRecord_of_reorders h
      (by decide : "null" ∈ kinds) [] rfl (by decide) false
    rw [ofJson?, htag]
    simp [hnone]
  | boolean b =>
    obtain ⟨content, _, htag, -, hrecord, ⟨_, _, rfl, rfl, rfl⟩, -⟩ :=
      Json.taggedRecord_of_reorders h (by decide : "boolean" ∈ kinds) ["value"] rfl (by decide)
        false
    rw [ofJson?, htag]
    simp [hrecord, required, Json.bool?]
  | number x =>
    rw [toJson, Json.number, if_pos (hfinite x rfl)] at h
    obtain ⟨content, _, htag, -, hrecord, ⟨_, _, rfl, rfl, rfl⟩, -⟩ :=
      Json.taggedRecord_of_reorders h (by decide : "number" ∈ kinds) ["value"] rfl (by decide)
        false
    rw [ofJson?, htag]
    simp [hrecord, required, Json.float?]
  | string s =>
    obtain ⟨content, _, htag, -, hrecord, ⟨_, _, rfl, rfl, rfl⟩, -⟩ :=
      Json.taggedRecord_of_reorders h (by decide : "string" ∈ kinds) ["value"] rfl (by decide)
        false
    rw [ofJson?, htag]
    simp [hrecord, required, Json.string?]
  | root r =>
    obtain ⟨content, _, htag, -, hrecord, ⟨_, _, rfl, hr, rfl⟩, -⟩ :=
      Json.taggedRecord_of_reorders h (by decide : "built-in" ∈ kinds) ["object"] rfl (by decide)
        false
    obtain rfl : _ = r.toJson := hr
    rw [ofJson?, htag]
    simp [hrecord, required, Root.ofJson?_toJson]
  | property e m =>
    obtain ⟨content, _, htag, -, hrecord, ⟨_, _, rfl, he, _, _, rfl, rfl, rfl⟩, -⟩ :=
      Json.taggedRecord_of_reorders h (by decide : "get-property" ∈ kinds) ["receiver", "property"]
        rfl (by decide) false
    obtain rfl : _ = e.toJson := he
    rw [ofJson?, htag]
    simp [hrecord, required, Json.string?, NodeIndex.ofJson?_toJson]
  | arrayItem e i =>
    obtain ⟨content, _, htag, -, hrecord, ⟨_, _, rfl, he, _, _, rfl, hi, rfl⟩, -⟩ :=
      Json.taggedRecord_of_reorders h (by decide : "array-get" ∈ kinds) ["receiver", "index"]
        rfl (by decide) false
    obtain rfl : _ = e.toJson := he
    obtain rfl : _ = i.toJson := hi
    rw [ofJson?, htag]
    simp [hrecord, required, NodeIndex.ofJson?_toJson]
  | binary op l r =>
    obtain ⟨content, _, htag, -, hrecord, ⟨_, _, rfl, hop, _, _, rfl, hl, _, _, rfl, hr, rfl⟩, -⟩ :=
      Json.taggedRecord_of_reorders h (by decide : "binary" ∈ kinds) ["operator", "left", "right"]
        rfl (by decide) false
    obtain rfl : _ = op.toJson := hop
    obtain rfl : _ = l.toJson := hl
    obtain rfl : _ = r.toJson := hr
    rw [ofJson?, htag]
    simp [hrecord, required, BinaryOp.ofJson?_toJson, NodeIndex.ofJson?_toJson]
  | unary op e =>
    obtain ⟨content, _, htag, -, hrecord, ⟨_, _, rfl, hop, _, _, rfl, he, rfl⟩, -⟩ :=
      Json.taggedRecord_of_reorders h (by decide : "unary" ∈ kinds) ["operator", "operand"]
        rfl (by decide) false
    obtain rfl : _ = op.toJson := hop
    obtain rfl : _ = e.toJson := he
    rw [ofJson?, htag]
    simp [hrecord, required, UnaryOp.ofJson?_toJson, NodeIndex.ofJson?_toJson]
  | is c e =>
    obtain ⟨content, _, htag, -, hrecord, ⟨_, _, rfl, rfl, _, _, rfl, he, rfl⟩, -⟩ :=
      Json.taggedRecord_of_reorders h (by decide : "is" ∈ kinds) ["concept", "operand"]
        rfl (by decide) false
    obtain rfl : _ = e.toJson := he
    rw [ofJson?, htag]
    simp [hrecord, required, Json.string?, NodeIndex.ofJson?_toJson]

theorem TypedNode.ofJson?_of_reorders {n : TypedNode}
    (hfinite : ∀ x, n.node = .number x → x.isFinite = true) {j : Json}
    (h : n.toJson.Reorders j) : ofJson? j = some n := by
  obtain ⟨_, hrecord, ⟨_, _, rfl, hindex, x, _, rfl, hx, y, _, rfl, hy, rfl⟩, -⟩ :=
    Json.record?_of_reorders h ["index", "opcode", "type"] rfl (by decide)
  obtain rfl : _ = n.index.toJson := hindex
  rw [ofJson?, hrecord]
  simp [required, NodeIndex.ofJson?_toJson, Node.ofJson?_of_reorders hfinite hx,
    DataType.ofJson?_of_reorders hy]

/-! ## Main statement -/

/-- Documents round-trip.  A model whose literals are all finite is read back from its document, and
so is a node whose literal is finite, in whatever order the document lists the fields of its
objects: as they were written, sorted by name, or any other way.  So two of these models have no
document in common unless they are the same model, and two nodes none unless they are the same
node. -/
theorem documents_round_trip :
    (∀ m : Model, (∀ y ∈ m.literals, y.isFinite = true) →
      Model.ofJson? m.toJson = some m ∧ Model.ofJson? m.toJson.sortKeys = some m ∧
        ∀ j, m.toJson.Reorders j → Model.ofJson? j = some m) ∧
    (∀ n : TypedNode, (∀ x, n.node = .number x → x.isFinite = true) →
      TypedNode.ofJson? n.toJson = some n ∧ TypedNode.ofJson? n.toJson.sortKeys = some n ∧
        ∀ j, n.toJson.Reorders j → TypedNode.ofJson? j = some n) ∧
    (∀ m m' : Model, (∀ y ∈ m.literals, y.isFinite = true) →
      (∀ y ∈ m'.literals, y.isFinite = true) →
      ∀ j, m.toJson.Reorders j → m'.toJson.Reorders j → m = m') ∧
    ∀ n n' : TypedNode, (∀ x, n.node = .number x → x.isFinite = true) →
      (∀ x, n'.node = .number x → x.isFinite = true) →
      ∀ j, n.toJson.Reorders j → n'.toJson.Reorders j → n = n' := by
  refine ⟨fun m hfinite => ?_, fun n hfinite => ?_, fun m m' hfinite hfinite' j h h' => ?_,
    fun n n' hfinite hfinite' j h h' => ?_⟩
  · exact ⟨Model.ofJson?_of_reorders hfinite (.refl _),
      Model.ofJson?_of_reorders hfinite (Json.reorders_sortKeys _),
      fun j h => Model.ofJson?_of_reorders hfinite h⟩
  · exact ⟨TypedNode.ofJson?_of_reorders hfinite (.refl _),
      TypedNode.ofJson?_of_reorders hfinite (Json.reorders_sortKeys _),
      fun j h => TypedNode.ofJson?_of_reorders hfinite h⟩
  · have hread := Model.ofJson?_of_reorders hfinite h
    exact Option.some.inj (hread.symm.trans (Model.ofJson?_of_reorders hfinite' h'))
  · have hread := TypedNode.ofJson?_of_reorders hfinite h
    exact Option.some.inj (hread.symm.trans (TypedNode.ofJson?_of_reorders hfinite' h'))

/-- A model with nested statements, an annotated condition and a type of objects is read back from
its sorted tree, and a node from a document that starts with its type. -/
theorem documents_round_trip_nested :
    let one : Binary64 := ⟨0x3ff0000000000000⟩
    let cheap : Expression :=
      (Expression.combine .lt (Expression.subject.get "price") (.number one none)).typed .boolean
    let m : Model := {
      user := "Person"
      concepts := [{ name := "Person", members := [("tags", .array (.object [("x", .null)]))] }]
      subjects := [⟨"Offer", "Person", [⟨"read", none⟩, ⟨"take", some "read"⟩]⟩]
      roles := [⟨"guest", [⟨"Offer", [.when (.mk cheap [.allow ["take"]]
        (.elseWhen (.mk cheap [] (.otherwise [.forbidEverything]))))]⟩]⟩] }
    let n : TypedNode := ⟨.subject 1, .number one, .number⟩
    let j : Json := .obj [("type", DataType.number.toJson), ("opcode", n.node.toJson),
      ("index", n.index.toJson)]
    Model.ofJson? m.toJson.sortKeys = some m ∧ TypedNode.ofJson? j = some n ∧
      ∀ n' : TypedNode, (∀ x, n'.node = .number x → x.isFinite = true) → n'.toJson.Reorders j →
        n = n' := by
  intro one cheap m n j
  obtain ⟨hmodels, hnodes, -, hinjective⟩ := documents_round_trip
  have hfinite (x : Binary64) (hx : n.node = .number x) : x.isFinite = true := by
    obtain rfl := Node.number.inj hx
    decide
  have hj : n.toJson.Reorders j :=
    ⟨_, _, rfl, (List.reverse_perm _).symm, Json.FieldsReorder.refl _⟩
  exact ⟨(hmodels m (by decide)).2.1, (hnodes n hfinite).2.2 j hj,
    fun n' hfinite' h' => hinjective n n' hfinite hfinite' j hj h'⟩

end AccessPolicy
