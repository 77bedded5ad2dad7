import AccessPolicy.Document.Fields
import Mathlib.Data.List.Perm.Basic

/-!
# Field order — documents with their fields in another order

An object is a map, and whoever hands a document on may list its fields in another order: as they
were written, or sorted by name.  What is read from a document are the values under the names that
the reader asks for, so the order does not matter as long as no name occurs twice.
-/

namespace AccessPolicy.Json

/-! ## Reordered documents -/

mutual

/-- The other document lists the same fields in any order, in this object and in every object below
it. -/
def Reorders : Json → Json → Prop
  | .arr items, j => ∃ items', j = .arr items' ∧ ItemsReorder items items'
  | .obj fields, j => ∃ listed fields', j = .obj fields' ∧ listed.Perm fields' ∧
      FieldsReorder fields listed
  | x, j => j = x

/-- See `Reorders`; the items of an array stay where they are. -/
def ItemsReorder : List Json → List Json → Prop
  | [], items' => items' = []
  | x :: xs, items' => ∃ y ys, items' = y :: ys ∧ Reorders x y ∧ ItemsReorder xs ys

/-- See `Reorders`; what stands in the fields may be reordered, the fields themselves are not. -/
def FieldsReorder : List (String × Json) → List (String × Json) → Prop
  | [], fields' => fields' = []
  | (key, x) :: rest, fields' => ∃ y others, fields' = (key, y) :: others ∧ Reorders x y ∧
      FieldsReorder rest others

end

mutual

theorem Reorders.refl : ∀ j : Json, j.Reorders j
  | .null | .bool _ | .int _ | .float _ | .str _ => rfl
  | .arr items => ⟨items, rfl, ItemsReorder.refl items⟩
  | .obj fields => ⟨fields, fields, rfl, .refl fields, FieldsReorder.refl fields⟩

theorem ItemsReorder.refl : ∀ items : List Json, ItemsReorder items items
  | [] => rfl
  | x :: xs => ⟨x, xs, rfl, Reorders.refl x, ItemsReorder.refl xs⟩

theorem FieldsReorder.refl : ∀ fields : List (String × Json), FieldsReorder fields fields
  | [] => rfl
  | (_, x) :: rest => ⟨x, rest, rfl, Reorders.refl x, FieldsReorder.refl rest⟩

end

mutual

/-- The document as a tree of maps that are sorted by key. -/
def sortKeys : Json → Json
  | .arr items => .arr (sortItems items)
  | .obj fields => .obj ((sortFields fields).mergeSort fun f g => decide (f.1 ≤ g.1))
  | x => x

def sortItems : List Json → List Json
  | [] => []
  | x :: xs => x.sortKeys :: sortItems xs

/-- The fields with their values sorted. -/
def sortFields : List (String × Json) → List (String × Json)
  | [] => []
  | (key, x) :: rest => (key, x.sortKeys) :: sortFields rest

end

mutual

theorem reorders_sortKeys : ∀ j : Json, j.Reorders j.sortKeys
  | .null | .bool _ | .int _ | .float _ | .str _ => rfl
  | .arr items => ⟨_, rfl, itemsReorder_sortItems items⟩
  | .obj fields => ⟨_, _, rfl, (List.mergeSort_perm _ _).symm, fieldsReorder_sortFields fields⟩

theorem itemsReorder_sortItems : ∀ items : List Json, ItemsReorder items (sortItems items)
  | [] => rfl
  | x :: xs => ⟨_, _, rfl, reorders_sortKeys x, itemsReorder_sortItems xs⟩

theorem fieldsReorder_sortFields : ∀ fields : List (String × Json),
    FieldsReorder fields (sortFields fields)
  | [] => rfl
  | (_, x) :: rest => ⟨_, _, rfl, reorders_sortKeys x, fieldsReorder_sortFields rest⟩

end

theorem FieldsReorder.keys : ∀ {fields listed : List (String × Json)},
    FieldsReorder fields listed → listed.map (·.1) = fields.map (·.1)
  | [], _, h => by
    obtain rfl := h
    rfl
  | (key, x) :: rest, _, h => by
    obtain ⟨y, others, rfl, -, hrest⟩ := h
    rw [List.map_cons, List.map_cons, hrest.keys]

theorem FieldsReorder.append : ∀ {fields more listed : List (String × Json)},
    FieldsReorder (fields ++ more) listed → ∃ first second, listed = first ++ second ∧
      FieldsReorder fields first ∧ FieldsReorder more second
  | [], _, listed, h => ⟨[], listed, rfl, rfl, h⟩
  | (key, x) :: rest, more, _, h => by
    obtain ⟨y, others, rfl, hx, hrest⟩ := h
    obtain ⟨first, second, rfl, hfirst, hsecond⟩ := FieldsReorder.append hrest
    exact ⟨(key, y) :: first, second, rfl, ⟨y, first, rfl, hx, hfirst⟩, hsecond⟩

/-- Of one field there is only one order. -/
theorem exists_of_singleton_reorders {name : String} {x j : Json}
    (h : (Json.obj [(name, x)]).Reorders j) : ∃ y, j = .obj [(name, y)] ∧ x.Reorders y := by
  obtain ⟨_, fields', rfl, hperm, y, _, rfl, hy, rfl⟩ := h
  rw [List.perm_singleton.mp hperm.symm]
  exact ⟨y, rfl, hy⟩

/-- The last field may as well be the first. -/
theorem Reorders.last_first {fields : List (String × Json)} {f : String × Json} {j : Json}
    (h : (Json.obj (fields ++ [f])).Reorders j) : (Json.obj (f :: fields)).Reorders j := by
  obtain ⟨_, fields', rfl, hperm, hfields⟩ := h
  obtain ⟨first, _, rfl, hfirst, y, _, rfl, hy, rfl⟩ := hfields.append
  refine ⟨(f.1, y) :: first, fields', rfl, ?_, y, first, rfl, hy, hfirst⟩
  exact (List.perm_append_singleton (f.1, y) first).symm.trans hperm

/-! ## Depth -/

theorem depthItems_le_iff {items : List Json} {n : Nat} :
    depthItems items ≤ n ↔ ∀ x ∈ items, x.depth ≤ n := by
  induction items with
  | nil => simp [depthItems]
  | cons x rest ih => rw [depthItems, Nat.max_le, ih, List.forall_mem_cons]

theorem depthFields_le_iff {fields : List (String × Json)} {n : Nat} :
    depthFields fields ≤ n ↔ ∀ f ∈ fields, f.2.depth ≤ n := by
  induction fields with
  | nil => simp [depthFields]
  | cons f rest ih => rw [depthFields, Nat.max_le, ih, List.forall_mem_cons]

theorem depth_lt_of_mem_items {items : List Json} {x : Json} (h : x ∈ items) :
    x.depth < (Json.arr items).depth := by
  have hle := depthItems_le_iff.mp (Nat.le_refl (depthItems items)) x h
  rw [depth]
  omega

theorem depth_lt_of_mem_fields {fields : List (String × Json)} {f : String × Json}
    (h : f ∈ fields) : f.2.depth < (Json.obj fields).depth := by
  have hle := depthFields_le_iff.mp (Nat.le_refl (depthFields fields)) f h
  rw [depth]
  omega

/-- Leaving fields out makes no document deeper. -/
theorem depth_obj_le_of_subset {fields fields' : List (String × Json)} (h : fields ⊆ fields') :
    (Json.obj fields).depth ≤ (Json.obj fields').depth := by
  have hle : depthFields fields ≤ depthFields fields' :=
    depthFields_le_iff.mpr fun f hf =>
      depthFields_le_iff.mp (Nat.le_refl (depthFields fields')) f (h hf)
  rw [depth, depth]
  omega

/-! ## Reading fields -/

theorem lookup_of_mem {fields : List (String × Json)} (hkeys : (fields.map (·.1)).Nodup)
    {f : String × Json} (hf : f ∈ fields) : fields.lookup f.1 = some f.2 := by
  induction fields with
  | nil => exact absurd hf List.not_mem_nil
  | cons g rest ih =>
    rw [List.map_cons, List.nodup_cons] at hkeys
    rw [List.lookup_cons]
    rcases List.mem_cons.mp hf with rfl | hf
    · rw [beq_self_eq_true]
    · -- the name of a later field is not the first one
      have hne : (f.1 == g.1) = false := by
        rw [beq_eq_false_iff_ne]
        intro heq
        exact hkeys.1 (heq ▸ List.mem_map_of_mem hf)
      rw [hne]
      exact ih hkeys.2 hf

theorem lookup_eq_none_of_not_mem {fields : List (String × Json)} {name : String}
    (h : name ∉ fields.map (·.1)) : fields.lookup name = none := by
  rw [List.lookup_eq_none_iff]
  intro f hf
  rw [bne_iff_ne]
  rintro rfl
  exact h (List.mem_map_of_mem hf)

theorem filter_ne_of_not_mem {fields : List (String × Json)} {name : String}
    (h : name ∉ fields.map (·.1)) : fields.filter (·.1 ≠ name) = fields := by
  rw [List.filter_eq_self]
  intro f hf
  rw [decide_eq_true_iff]
  rintro rfl
  exact h (List.mem_map_of_mem hf)

/-- A record has its fields under their names, wherever they stand. -/
theorem record?_of_reorders {fields : List (String × Json)} {j : Json}
    (h : (Json.obj fields).Reorders j) (names : List String) (hnames : fields.map (·.1) = names)
    (hkeys : names.Nodup) :
    ∃ listed, j.record? names = some (listed.map fun f => some f.2) ∧
      FieldsReorder fields listed ∧ ∀ f ∈ listed, f.2.depth < j.depth := by
  obtain ⟨listed, fields', rfl, hperm, hfields⟩ := h
  refine ⟨listed, ?_, hfields, fun f hf => depth_lt_of_mem_fields (hperm.mem_iff.mp hf)⟩
  rw [← hnames, ← hfields.keys] at hkeys ⊢
  rw [record?, List.map_map, Option.some.injEq]
  refine List.map_congr_left fun f hf => ?_
  exact lookup_of_mem ((hperm.map _).nodup hkeys) (hperm.mem_iff.mp hf)

/-- Taking off a field leaves the others. -/
theorem filter_of_reorders {name : String} {x : Json} {fields : List (String × Json)} {j : Json}
    (h : (Json.obj ((name, x) :: fields)).Reorders j) (hkeys : (name :: fields.map (·.1)).Nodup) :
    ∃ fields' y, j = .obj fields' ∧ x.Reorders y ∧ fields'.lookup name = some y ∧
      (Json.obj fields).Reorders (.obj (fields'.filter (·.1 ≠ name))) := by
  obtain ⟨_, fields', rfl, hperm, y, listed, rfl, hy, hfields⟩ := h
  rw [← hfields.keys] at hkeys
  refine ⟨fields', y, rfl, hy, ?_, listed, _, rfl, ?_, hfields⟩
  · exact lookup_of_mem (f := (name, y)) ((hperm.map _).nodup hkeys)
      (hperm.mem_iff.mp List.mem_cons_self)
  · have hfilter := hperm.filter (·.1 ≠ name)
    rwa [List.filter_cons_of_neg (by simp), filter_ne_of_not_mem (List.nodup_cons.mp hkeys).1]
      at hfilter

theorem noFields?_of_reorders {fields : List (String × Json)} {j : Json}
    (h : (Json.obj fields).Reorders j) : j.noFields? = some () := by
  obtain ⟨_, _, rfl, -⟩ := h
  rfl

/-- A tag is found and taken off, wherever it stands. -/
theorem tagged?_of_reorders {tag name : String} {fields : List (String × Json)} {j : Json}
    (h : (ofTagged tag name fields).Reorders j) (hkeys : (tag :: fields.map (·.1)).Nodup)
    {alternatives : List String} (hname : name ∈ alternatives) (within : Bool) :
    ∃ content, j.tagged? tag within alternatives = some (name, content) ∧
      (Json.obj fields).Reorders content ∧ content.depth ≤ j.depth := by
  obtain ⟨fields', _, rfl, rfl, hlookup, hcontent⟩ := filter_of_reorders h hkeys
  refine ⟨_, ?_, hcontent, depth_obj_le_of_subset (List.filter_subset_self _)⟩
  simp only [tagged?, hlookup, tagName?, if_pos hname, bind, Option.bind_some]
  rfl

/-- A choice with its fields: the tag is found, and beside it the record of the fields. -/
theorem taggedRecord_of_reorders {tag name : String} {fields : List (String × Json)} {j : Json}
    (h : (ofTagged tag name fields).Reorders j) {alternatives : List String}
    (hname : name ∈ alternatives) (names : List String) (hnames : fields.map (·.1) = names)
    (hkeys : (tag :: names).Nodup) (within : Bool) :
    ∃ content listed, j.tagged? tag within alternatives = some (name, content) ∧
      content.noFields? = some () ∧
      content.record? names = some (listed.map fun f => some f.2) ∧
      FieldsReorder fields listed ∧ ∀ f ∈ listed, f.2.depth < j.depth := by
  obtain ⟨content, htag, hcontent, hdepth⟩ :=
    tagged?_of_reorders h (by rwa [hnames]) hname within
  obtain ⟨listed, hrecord, hfields, hlt⟩ :=
    record?_of_reorders hcontent names hnames (List.nodup_cons.mp hkeys).2
  exact ⟨content, listed, htag, noFields?_of_reorders hcontent, hrecord, hfields,
    fun f hf => Nat.lt_of_lt_of_le (hlt f hf) hdepth⟩

/-- A field that says something is not taken for one that was left out. -/
theorem optional_of_read {α : Type} {read? : Json → Option α} (hnull : read? .null = none)
    {j : Json} {a : α} (h : read? j = some a) : optional read? (some j) = some (some a) := by
  cases j with
  | null => exact nomatch hnull.symm.trans h
  | _ => exact congrArg (Option.map some) h

/-- A list is read item by item. -/
theorem list?_of_reorders {α : Type} {write : α → Json} {read? : Json → Option α} {as : List α}
    {j : Json} (h : (Json.arr (as.map write)).Reorders j)
    (hread : ∀ a ∈ as, ∀ x, (write a).Reorders x → x.depth < j.depth → read? x = some a) :
    j.list? read? = some as := by
  obtain ⟨items, rfl, hitems⟩ := h
  have hread' (a : α) (ha : a ∈ as) (x : Json) (hx : x ∈ items) (hwritten : (write a).Reorders x) :
      read? x = some a := hread a ha x hwritten (depth_lt_of_mem_items hx)
  clear hread
  show items.mapM read? = some as
  induction as generalizing items with
  | nil =>
    obtain rfl := hitems
    rfl
  | cons a rest ih =>
    obtain ⟨x, xs, rfl, hx, hxs⟩ := hitems
    have hrest := ih xs hxs fun b hb y hy =>
      hread' b (List.mem_cons_of_mem _ hb) y (List.mem_cons_of_mem _ hy)
    rw [List.mapM_cons, hread' a List.mem_cons_self x List.mem_cons_self hx, hrest]
    rfl

end AccessPolicy.Json
