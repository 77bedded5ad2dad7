import AccessPolicy.Cache.Key
import Mathlib.Algebra.Group.Nat.Defs
import Mathlib.Data.List.Nodup

/-!
# Keys — no two inputs share their bytes

The bytes of a value end where the value ends: followed by anything, they still tell the value and
what follows it apart.  So the bytes behind a key give back everything that went into them.
-/

namespace AccessPolicy

namespace Key

/-! ## Texts and sizes -/

theorem utf8_injective {s t : String} (h : utf8 s = utf8 t) : s = t := by
  rw [← String.toByteArray_inj, ← String.utf8Encode_toList, ← String.utf8Encode_toList]
  exact congrArg List.toByteArray h

theorem length_utf8_le (s : String) : (utf8 s).length ≤ 4 * s.length := by
  rw [utf8, ← String.length_toList]
  induction s.toList with
  | nil => simp
  | cons c rest ih =>
    have hc := c.utf8Size_le_four
    rw [List.flatMap_cons, List.length_append, String.length_utf8EncodeChar, List.length_cons]
    omega

theorem length_sizeBytes (n : Nat) : (sizeBytes n).length = 8 := by
  rw [sizeBytes, List.length_map, List.length_range]

/-- Numbers with the same lowest `k` bytes are the same up to there. -/
theorem mod_pow_eq_of_bytes {m n k : Nat} (h : ∀ i < k, m / 256 ^ i % 256 = n / 256 ^ i % 256) :
    m % 256 ^ k = n % 256 ^ k := by
  induction k with
  | zero => rw [Nat.pow_zero, Nat.mod_one, Nat.mod_one]
  | succ k ih =>
    rw [Nat.mod_pow_succ, Nat.mod_pow_succ, ih fun i hi => h i (Nat.lt_succ_of_lt hi),
      h k (Nat.lt_succ_self k)]

theorem sizeBytes_injective {m n : Nat} (hm : m < 2 ^ 64) (hn : n < 2 ^ 64)
    (h : sizeBytes m = sizeBytes n) : m = n := by
  have hbytes : ∀ i < 8, m / 256 ^ i % 256 = n / 256 ^ i % 256 := by
    intro i hi
    have hbyte := List.map_inj_left.mp h i (List.mem_range.mpr hi)
    have hnat := congrArg UInt8.toNat hbyte
    rw [UInt8.toNat_ofNat', UInt8.toNat_ofNat', Nat.mod_mod, Nat.mod_mod] at hnat
    exact hnat
  -- eight bytes are the whole number
  have hpow : 256 ^ 8 = 2 ^ 64 := by decide
  have hmod := mod_pow_eq_of_bytes hbytes
  rwa [hpow, Nat.mod_eq_of_lt hm, Nat.mod_eq_of_lt hn] at hmod

theorem sizeBytes_append_inj {m n : Nat} (hm : m < 2 ^ 64) (hn : n < 2 ^ 64) {r r' : List UInt8}
    (h : sizeBytes m ++ r = sizeBytes n ++ r') : m = n ∧ r = r' := by
  obtain ⟨hsize, hrest⟩ := List.append_inj h (by rw [length_sizeBytes, length_sizeBytes])
  exact ⟨sizeBytes_injective hm hn hsize, hrest⟩

/-- Eight bytes hold the length of the text. -/
def Sized (s : String) : Prop := (utf8 s).length < 2 ^ 64

instance (s : String) : Decidable (Sized s) := inferInstanceAs (Decidable (_ < _))

theorem sized_of_length {s : String} (h : s.length < 2 ^ 62) : Sized s := by
  have hlength := length_utf8_le s
  unfold Sized
  omega

theorem textBytes_append_inj {s t : String} (hs : Sized s) (ht : Sized t) {r r' : List UInt8}
    (h : textBytes s ++ r = textBytes t ++ r') : s = t ∧ r = r' := by
  rw [textBytes, textBytes, List.append_assoc, List.append_assoc] at h
  -- equal lengths come first, so the texts end at the same place
  obtain ⟨hlength, h⟩ := sizeBytes_append_inj hs ht h
  obtain ⟨hbytes, hrest⟩ := List.append_inj h hlength
  exact ⟨utf8_injective hbytes, hrest⟩

theorem length_hex (bytes : List UInt8) : (Blake3.hex bytes).length = 64 := by
  have hword (w : UInt32) : (Blake3.wordHex w).length = 8 := rfl
  rw [Blake3.hex, String.length_ofList, List.length_flatMap, List.map_congr_left fun w _ => hword w,
    List.map_const', List.sum_replicate_nat, Vector.length_toList]

/-- Digests are short. -/
theorem sized_hex (bytes : List UInt8) : Sized (Blake3.hex bytes) := by
  apply sized_of_length
  rw [length_hex]
  decide

/-! ## Data -/

mutual

/-- Data that a request can hold: its numbers are among `N`, the keys of every object ascend, and
eight bytes hold the length of every text and the size of every array and object. -/
def Holds (N : Json → Prop) : Json → Prop
  | .null | .bool _ => True
  | .int n => N (.int n) ∧ Sized (Json.intText n)
  | .float x => N (.float x) ∧ Sized (Json.floatText x)
  | .str s => Sized s
  | .arr items => items.length < 2 ^ 64 ∧ HoldsItems N items
  | .obj fields =>
    fields.length < 2 ^ 64 ∧ (fields.map (·.1)).Pairwise (· < ·) ∧ HoldsFields N fields

def HoldsItems (N : Json → Prop) : List Json → Prop
  | [] => True
  | x :: xs => Holds N x ∧ HoldsItems N xs

def HoldsFields (N : Json → Prop) : List (String × Json) → Prop
  | [] => True
  | (key, x) :: xs => Sized key ∧ Holds N x ∧ HoldsFields N xs

end

theorem map_fst_fieldsBytes (fields : List (String × Json)) :
    (fieldsBytes fields).map (·.1) = fields.map (·.1) := by
  induction fields with
  | nil => rfl
  | cons field rest ih =>
    rw [fieldsBytes, List.map_cons, List.map_cons, ih]

/-- Fields with ascending keys are in order already. -/
theorem sortedFields_eq {fields : List (String × Json)}
    (h : (fields.map (·.1)).Pairwise (· < ·)) :
    sortedFields (fieldsBytes fields) = fieldsBytes fields := by
  rw [← map_fst_fieldsBytes, List.pairwise_map] at h
  refine List.mergeSort_of_pairwise (h.imp fun hlt => ?_)
  rw [decide_eq_true_eq]
  exact Std.le_of_lt hlt

/-- The bytes of fields in their order. -/
def listedFields (fields : List (String × Json)) : List UInt8 :=
  (fieldsBytes fields).flatMap fun (key, bytes) => textBytes key ++ bytes

theorem valueBytes_obj {fields : List (String × Json)}
    (h : (fields.map (·.1)).Pairwise (· < ·)) : valueBytes (.obj fields) =
      tagByte '\x7b' :: sizeBytes fields.length ++ listedFields fields := by
  rw [valueBytes, sortedFields_eq h, listedFields]

/-- The byte that a value starts with. -/
def leadingByte : Json → UInt8
  | .null => tagByte 'n'
  | .bool true => tagByte 't'
  | .bool false => tagByte 'f'
  | .int _ | .float _ => tagByte '#'
  | .str _ => tagByte 's'
  | .arr _ => tagByte '['
  | .obj _ => tagByte '\x7b'

theorem head?_valueBytes (a : Json) : (valueBytes a).head? = some (leadingByte a) := by
  cases a with
  | bool b => cases b <;> rfl
  | _ => rfl

theorem leadingByte_eq {a b : Json} {r r' : List UInt8}
    (h : valueBytes a ++ r = valueBytes b ++ r') : leadingByte a = leadingByte b := by
  have hhead := congrArg List.head? h
  rw [List.head?_append, List.head?_append, head?_valueBytes, head?_valueBytes] at hhead
  exact Option.some.inj hhead

theorem text_int (n : Int) : (Json.int n).text = Json.intText n := by
  rw [Json.text, Json.write, List.append_nil, String.ofList_toList]

theorem text_float (x : Binary64) : (Json.float x).text = Json.floatText x := by
  rw [Json.text, Json.write, List.append_nil, String.ofList_toList]

/-- Distinct numbers are written differently. -/
def TextsApart (N : Json → Prop) : Prop := ∀ x y, N x → N y → x.text = y.text → x = y

theorem textsApart_mem {numbers : List Json} (h : (numbers.map Json.text).Nodup) :
    TextsApart (· ∈ numbers) :=
  fun _ _ hx hy => List.inj_on_of_nodup_map h hx hy

variable {N : Json → Prop}

/-- Among the numbers a number is given by the bytes that follow its tag. -/
theorem numberBytes_append_inj (hN : TextsApart N) {x y : Json} {s t : String} (hx : N x)
    (hy : N y) (hs : Sized s) (ht : Sized t) (hxs : x.text = s) (hyt : y.text = t)
    {r r' : List UInt8} (h : textBytes s ++ r = textBytes t ++ r') : x = y ∧ r = r' := by
  obtain ⟨hst, hrest⟩ := textBytes_append_inj hs ht h
  exact ⟨hN x y hx hy (by rw [hxs, hyt, hst]), hrest⟩

mutual

/-- Bytes tell where the value ends, and which value it is. -/
theorem valueBytes_append_inj (hN : TextsApart N) : ∀ {a b : Json}, Holds N a → Holds N b →
    ∀ {r r' : List UInt8}, valueBytes a ++ r = valueBytes b ++ r' → a = b ∧ r = r'
  | .null, b, _, _, r, r', h => by
    have hlead := leadingByte_eq h
    cases b with
    | null => exact ⟨rfl, (List.cons.inj h).2⟩
    | bool b => cases b <;> simp [leadingByte, tagByte] at hlead
    | _ => simp [leadingByte, tagByte] at hlead
  | .bool c, b, _, _, r, r', h => by
    have hlead := leadingByte_eq h
    cases b with
    | bool b =>
      cases c <;> cases b
      · exact ⟨rfl, (List.cons.inj h).2⟩
      · exact absurd hlead (by decide)
      · exact absurd hlead (by decide)
      · exact ⟨rfl, (List.cons.inj h).2⟩
    | _ => cases c <;> simp [leadingByte, tagByte] at hlead
  | .int n, b, ha, hb, r, r', h => by
    -- both kinds of number have one tag, so only their texts tell them apart
    have hlead := leadingByte_eq h
    cases b with
    | int n' =>
      exact numberBytes_append_inj hN ha.1 hb.1 ha.2 hb.2 (text_int n) (text_int n')
        (List.cons.inj h).2
    | float x' =>
      exact numberBytes_append_inj hN ha.1 hb.1 ha.2 hb.2 (text_int n) (text_float x')
        (List.cons.inj h).2
    | bool b => cases b <;> simp [leadingByte, tagByte] at hlead
    | _ => simp [leadingByte, tagByte] at hlead
  | .float x, b, ha, hb, r, r', h => by
    have hlead := leadingByte_eq h
    cases b with
    | int n' =>
      exact numberBytes_append_inj hN ha.1 hb.1 ha.2 hb.2 (text_float x) (text_int n')
        (List.cons.inj h).2
    | float x' =>
      exact numberBytes_append_inj hN ha.1 hb.1 ha.2 hb.2 (text_float x) (text_float x')
        (List.cons.inj h).2
    | bool b => cases b <;> simp [leadingByte, tagByte] at hlead
    | _ => simp [leadingByte, tagByte] at hlead
  | .str s, b, ha, hb, r, r', h => by
    have hlead := leadingByte_eq h
    cases b with
    | str t =>
      obtain ⟨rfl, hrest⟩ := textBytes_append_inj ha hb (List.cons.inj h).2
      exact ⟨rfl, hrest⟩
    | bool b => cases b <;> simp [leadingByte, tagByte] at hlead
    | _ => simp [leadingByte, tagByte] at hlead
  | .arr items, b, ha, hb, r, r', h => by
    have hlead := leadingByte_eq h
    cases b with
    | arr items' =>
      rw [valueBytes, valueBytes, List.cons_append, List.cons_append, List.append_assoc,
        List.append_assoc] at h
      obtain ⟨hlength, hitems⟩ := sizeBytes_append_inj ha.1 hb.1 (List.cons.inj h).2
      obtain ⟨rfl, hrest⟩ := itemsBytes_append_inj hN ha.2 hb.2 hlength hitems
      exact ⟨rfl, hrest⟩
    | bool b => cases b <;> simp [leadingByte, tagByte] at hlead
    | _ => simp [leadingByte, tagByte] at hlead
  | .obj fields, b, ha, hb, r, r', h => by
    have hlead := leadingByte_eq h
    cases b with
    | obj fields' =>
      -- sorting has left the fields where they were
      rw [valueBytes_obj ha.2.1, valueBytes_obj hb.2.1, List.cons_append, List.cons_append,
        List.append_assoc, List.append_assoc] at h
      obtain ⟨hlength, hfields⟩ := sizeBytes_append_inj ha.1 hb.1 (List.cons.inj h).2
      obtain ⟨rfl, hrest⟩ := listedFields_append_inj hN ha.2.2 hb.2.2 hlength hfields
      exact ⟨rfl, hrest⟩
    | bool b => cases b <;> simp [leadingByte, tagByte] at hlead
    | _ => simp [leadingByte, tagByte] at hlead

theorem itemsBytes_append_inj (hN : TextsApart N) : ∀ {as bs : List Json}, HoldsItems N as →
    HoldsItems N bs → as.length = bs.length → ∀ {r r' : List UInt8},
    itemsBytes as ++ r = itemsBytes bs ++ r' → as = bs ∧ r = r'
  | [], [], _, _, _, _, _, h => ⟨rfl, h⟩
  | a :: as, b :: bs, ha, hb, hlength, r, r', h => by
    rw [itemsBytes, itemsBytes, List.append_assoc, List.append_assoc] at h
    obtain ⟨rfl, hitems⟩ := valueBytes_append_inj hN ha.1 hb.1 h
    obtain ⟨rfl, hrest⟩ := itemsBytes_append_inj hN ha.2 hb.2 (Nat.succ.inj hlength) hitems
    exact ⟨rfl, hrest⟩

theorem listedFields_append_inj (hN : TextsApart N) : ∀ {as bs : List (String × Json)},
    HoldsFields N as → HoldsFields N bs → as.length = bs.length → ∀ {r r' : List UInt8},
    listedFields as ++ r = listedFields bs ++ r' → as = bs ∧ r = r'
  | [], [], _, _, _, _, _, h => ⟨rfl, h⟩
  | (key, a) :: as, (key', b) :: bs, ha, hb, hlength, r, r', h => by
    simp only [listedFields, fieldsBytes, List.flatMap_cons, List.append_assoc] at h
    obtain ⟨rfl, hvalue⟩ := textBytes_append_inj ha.1 hb.1 h
    obtain ⟨rfl, hfields⟩ := valueBytes_append_inj hN ha.2.1 hb.2.1 hvalue
    have hlength' := Nat.succ.inj hlength
    obtain ⟨rfl, hrest⟩ := listedFields_append_inj hN ha.2.2 hb.2.2 hlength' hfields
    exact ⟨rfl, hrest⟩

end

/-! ## Keys -/

/-- The keys of common values are digests of bytes that give back what they are of. -/
theorem commonBytes_inj (hN : TextsApart N) {version version' : String}
    {user user' environment environment' : Json} (hv : Sized version) (hv' : Sized version')
    (hu : Holds N user) (hu' : Holds N user') (he : Holds N environment)
    (he' : Holds N environment')
    (h : commonBytes version user environment = commonBytes version' user' environment') :
    version = version' ∧ user = user' ∧ environment = environment' := by
  simp only [commonBytes, List.append_assoc] at h
  obtain ⟨rfl, hvalues⟩ := textBytes_append_inj hv hv' (List.append_cancel_left h)
  obtain ⟨rfl, henvironment⟩ := valueBytes_append_inj hN hu hu' hvalues
  -- the last value is followed by nothing
  rw [← List.append_nil (valueBytes environment), ← List.append_nil (valueBytes environment')]
    at henvironment
  exact ⟨rfl, rfl, (valueBytes_append_inj hN he he' henvironment).1⟩

theorem subjectBytes_inj (hN : TextsApart N) {version version' commonKey commonKey' : String}
    {subject subject' : String} {resource resource' : Json} (hv : Sized version)
    (hv' : Sized version') (hc : Sized commonKey) (hc' : Sized commonKey') (hs : Sized subject)
    (hs' : Sized subject') (hr : Holds N resource) (hr' : Holds N resource')
    (h : subjectBytes version commonKey subject resource =
      subjectBytes version' commonKey' subject' resource') :
    version = version' ∧ commonKey = commonKey' ∧ subject = subject' ∧ resource = resource' := by
  simp only [subjectBytes, List.append_assoc] at h
  obtain ⟨rfl, hkeys⟩ := textBytes_append_inj hv hv' (List.append_cancel_left h)
  obtain ⟨rfl, hsubjects⟩ := textBytes_append_inj hc hc' hkeys
  obtain ⟨rfl, hresource⟩ := textBytes_append_inj hs hs' hsubjects
  rw [← List.append_nil (valueBytes resource), ← List.append_nil (valueBytes resource')]
    at hresource
  exact ⟨rfl, rfl, rfl, (valueBytes_append_inj hN hr hr' hresource).1⟩

/-- The two kinds of key start differently. -/
theorem commonBytes_ne_subjectBytes (version version' commonKey subject : String)
    (user environment resource : Json) :
    commonBytes version user environment ≠ subjectBytes version' commonKey subject resource := by
  intro h
  have hhead : some (tagByte 'c') = some (tagByte 's') := congrArg List.head? h
  exact absurd hhead (by decide)

/-! ## The order of fields -/

mutual

/-- The data with the fields of every object in the order of their keys. -/
def inOrder : Json → Json
  | .null => .null
  | .bool b => .bool b
  | .int n => .int n
  | .float x => .float x
  | .str s => .str s
  | .arr items => .arr (itemsInOrder items)
  | .obj fields => .obj ((fieldsInOrder fields).mergeSort fun a b => a.1 ≤ b.1)

/-- See `inOrder`. -/
def itemsInOrder : List Json → List Json
  | [] => []
  | x :: xs => inOrder x :: itemsInOrder xs

/-- Each value is put in order; the fields stay where they are. -/
def fieldsInOrder : List (String × Json) → List (String × Json)
  | [] => []
  | (key, x) :: xs => (key, inOrder x) :: fieldsInOrder xs

end

theorem fieldsInOrder_eq_map (fields : List (String × Json)) :
    fieldsInOrder fields = fields.map fun field => (field.1, inOrder field.2) := by
  induction fields with
  | nil => rfl
  | cons field rest ih => rw [fieldsInOrder, ih, List.map_cons]

theorem fieldsBytes_eq_map (fields : List (String × Json)) :
    fieldsBytes fields = fields.map fun field => (field.1, valueBytes field.2) := by
  induction fields with
  | nil => rfl
  | cons field rest ih => rw [fieldsBytes, ih, List.map_cons]

/-- Sorting by keys, of fields whatever they hold. -/
theorem pairwise_mergeSort_fst {α : Type} (fields : List (String × α)) :
    (fields.mergeSort fun a b => a.1 ≤ b.1).Pairwise fun a b => a.1 ≤ b.1 := by
  have h : (fields.mergeSort fun a b => a.1 ≤ b.1).Pairwise fun a b => decide (a.1 ≤ b.1) = true :=
    List.pairwise_mergeSort
      (fun a b c hab hbc => by
        rw [decide_eq_true_eq] at hab hbc ⊢
        exact Std.le_trans hab hbc)
      (fun a b => by
        rw [Bool.or_eq_true, decide_eq_true_eq, decide_eq_true_eq]
        exact Std.le_total)
      fields
  exact h.imp of_decide_eq_true

theorem sortedFields_sortedFields (fields : List (String × List UInt8)) :
    sortedFields (sortedFields fields) = sortedFields fields :=
  List.mergeSort_of_pairwise ((pairwise_mergeSort_fst fields).imp decide_eq_true)

/-- Fields with distinct keys are sorted in one way only. -/
theorem mergeSort_fst_eq_of_perm {α : Type} {fields fields' : List (String × α)}
    (h : fields.Perm fields') (hkeys : (fields.map (·.1)).Nodup) :
    (fields.mergeSort fun a b => a.1 ≤ b.1) = fields'.mergeSort fun a b => a.1 ≤ b.1 := by
  have hperm : (fields.mergeSort fun a b => a.1 ≤ b.1).Perm
      (fields'.mergeSort fun a b => a.1 ≤ b.1) :=
    ((List.mergeSort_perm _ _).trans h).trans (List.mergeSort_perm _ _).symm
  refine List.Perm.eq_of_pairwise (fun a b ha hb hab hba => ?_) (pairwise_mergeSort_fst fields)
    (pairwise_mergeSort_fst fields') hperm
  have ha' := (List.mergeSort_perm _ _).mem_iff.mp ha
  have hb' := h.mem_iff.mpr ((List.mergeSort_perm _ _).mem_iff.mp hb)
  exact List.inj_on_of_nodup_map hkeys ha' hb' (Std.le_antisymm hab hba)

/-- The bytes of an object are those of its sorted fields. -/
theorem valueBytes_mergeSort (fields : List (String × Json)) :
    valueBytes (.obj (fields.mergeSort fun a b => a.1 ≤ b.1)) = valueBytes (.obj fields) := by
  have hbytes : fieldsBytes (fields.mergeSort fun a b => a.1 ≤ b.1) =
      sortedFields (fieldsBytes fields) := by
    rw [fieldsBytes_eq_map, fieldsBytes_eq_map, sortedFields]
    exact List.map_mergeSort fun _ _ _ _ => rfl
  rw [valueBytes, valueBytes, List.length_mergeSort, hbytes, sortedFields_sortedFields]

theorem valueBytes_obj_eq_of_perm {fields fields' : List (String × Json)}
    (h : fields.Perm fields') (hkeys : (fields.map (·.1)).Nodup) :
    valueBytes (.obj fields) = valueBytes (.obj fields') := by
  rw [← valueBytes_mergeSort fields, mergeSort_fst_eq_of_perm h hkeys, valueBytes_mergeSort]

theorem length_itemsInOrder (items : List Json) : (itemsInOrder items).length = items.length := by
  induction items with
  | nil => rfl
  | cons x xs ih => rw [itemsInOrder, List.length_cons, List.length_cons, ih]

mutual

/-- At no depth do the bytes depend on the order in which fields are listed. -/
theorem valueBytes_inOrder : ∀ a : Json, valueBytes (inOrder a) = valueBytes a
  | .null | .bool _ | .int _ | .float _ | .str _ => rfl
  | .arr items => by
    rw [inOrder, valueBytes, valueBytes, length_itemsInOrder, itemsBytes_inOrder items]
  | .obj fields => by
    have hlength : (fieldsInOrder fields).length = fields.length := by
      rw [fieldsInOrder_eq_map, List.length_map]
    rw [inOrder, valueBytes_mergeSort, valueBytes, valueBytes, hlength, fieldsBytes_inOrder fields]

theorem itemsBytes_inOrder : ∀ items : List Json, itemsBytes (itemsInOrder items) = itemsBytes items
  | [] => rfl
  | x :: xs => by
    rw [itemsInOrder, itemsBytes, itemsBytes, valueBytes_inOrder x, itemsBytes_inOrder xs]

theorem fieldsBytes_inOrder : ∀ fields : List (String × Json),
    fieldsBytes (fieldsInOrder fields) = fieldsBytes fields
  | [] => rfl
  | (key, x) :: xs => by
    rw [fieldsInOrder, fieldsBytes, fieldsBytes, valueBytes_inOrder x, fieldsBytes_inOrder xs]

end

/-! ## Objects built field by field -/

theorem perm_insertField {key : String} (value : Json) {fields : List (String × Json)}
    (h : key ∉ fields.map (·.1)) :
    (Json.insertField key value fields).Perm ((key, value) :: fields) := by
  induction fields with
  | nil => exact .refl _
  | cons field rest ih =>
    obtain ⟨k, v⟩ := field
    rw [List.map_cons, List.mem_cons, not_or] at h
    rw [Json.insertField]
    split
    · exact .refl _
    · rw [if_neg h.1]
      exact ((ih h.2).cons _).trans (.swap _ _ _)

theorem perm_foldl_insertField (fields : List (String × Json)) :
    ∀ sorted : List (String × Json), ((sorted ++ fields).map (·.1)).Nodup →
      (fields.foldl (fun sorted (key, value) => Json.insertField key value sorted) sorted).Perm
        (sorted ++ fields) := by
  induction fields with
  | nil => exact fun sorted _ => .of_eq (List.append_nil sorted).symm
  | cons field rest ih =>
    intro sorted hkeys
    have hmiddle : (sorted ++ field :: rest).Perm (field :: (sorted ++ rest)) := List.perm_middle
    have hkeys' : ((field :: (sorted ++ rest)).map (·.1)).Nodup := (hmiddle.map _).nodup hkeys
    rw [List.map_cons, List.nodup_cons, List.map_append, List.mem_append, not_or] at hkeys'
    have hinsert := perm_insertField field.2 hkeys'.1.1
    have hstep : (Json.insertField field.1 field.2 sorted ++ rest).Perm (sorted ++ field :: rest) :=
      (hinsert.append_right rest).trans hmiddle.symm
    exact (ih _ ((hstep.map _).symm.nodup hkeys)).trans hstep

/-- An object that is built from fields with distinct keys has the bytes of those fields. -/
theorem valueBytes_object {fields : List (String × Json)} (hkeys : (fields.map (·.1)).Nodup) :
    valueBytes (Json.object fields) = valueBytes (.obj fields) :=
  (valueBytes_obj_eq_of_perm (perm_foldl_insertField fields [] hkeys).symm hkeys).symm

/-! ## Inputs -/

/-- What a key of common values is made from. -/
structure CommonInput where
  version : String
  user : Json
  environment : Json

namespace CommonInput

def bytes (i : CommonInput) : List UInt8 := commonBytes i.version i.user i.environment

/-- The version and the data can be held. -/
structure Fits (N : Json → Prop) (i : CommonInput) : Prop where
  version : Sized i.version
  user : Holds N i.user
  environment : Holds N i.environment

theorem bytes_inj (hN : TextsApart N) {i j : CommonInput} (hi : i.Fits N) (hj : j.Fits N)
    (h : i.bytes = j.bytes) : i = j := by
  obtain ⟨hversion, huser, henvironment⟩ := commonBytes_inj hN hi.version hj.version hi.user hj.user
    hi.environment hj.environment h
  cases i
  cases j
  rw [mk.injEq]
  exact ⟨hversion, huser, henvironment⟩

end CommonInput

/-- What a key of a subject's values is made from. -/
structure SubjectInput where
  version : String
  commonKey : String
  subject : String
  resource : Json

namespace SubjectInput

def bytes (i : SubjectInput) : List UInt8 :=
  subjectBytes i.version i.commonKey i.subject i.resource

structure Fits (N : Json → Prop) (i : SubjectInput) : Prop where
  version : Sized i.version
  commonKey : Sized i.commonKey
  subject : Sized i.subject
  resource : Holds N i.resource

theorem bytes_inj (hN : TextsApart N) {i j : SubjectInput} (hi : i.Fits N) (hj : j.Fits N)
    (h : i.bytes = j.bytes) : i = j := by
  obtain ⟨hversion, hcommonKey, hsubject, hresource⟩ := subjectBytes_inj hN hi.version hj.version
    hi.commonKey hj.commonKey hi.subject hj.subject hi.resource hj.resource h
  cases i
  cases j
  rw [mk.injEq]
  exact ⟨hversion, hcommonKey, hsubject, hresource⟩

end SubjectInput

/-- No value's bytes go on where another value's bytes have ended. -/
theorem eq_of_valueBytes_prefix (hN : TextsApart N) {a b : Json} (ha : Holds N a) (hb : Holds N b)
    (h : valueBytes a <+: valueBytes b) : a = b := by
  obtain ⟨rest, hrest⟩ := h
  rw [← List.append_nil (valueBytes b)] at hrest
  exact (valueBytes_append_inj hN ha hb hrest).1

/-- The number one as an integer and as a float, its digit as a text, and both zeros. -/
def lookAlikes : List Json := [.int 1, .float ⟨0x3ff0000000000000⟩, .str "1", .float .zero,
  .float ⟨0x8000000000000000⟩]

/-- The bytes behind a key separate its inputs.  Two inputs of one kind have the same bytes only if
they are the same, and inputs of different kinds never do; no value's bytes are a proper beginning
of another's.  The order in which an object lists its fields, at whatever depth, leaves no trace,
but values that only look alike differ.  Different numbers are taken to have different texts. -/
theorem bytes_separate_inputs (hN : TextsApart N) :
    (∀ i j : CommonInput, i.Fits N → j.Fits N → (i.bytes = j.bytes ↔ i = j)) ∧
    (∀ i j : SubjectInput, i.Fits N → j.Fits N → (i.bytes = j.bytes ↔ i = j)) ∧
    (∀ (i : CommonInput) (j : SubjectInput), i.bytes ≠ j.bytes) ∧
    (∀ a b : Json, Holds N a → Holds N b → valueBytes a <+: valueBytes b → a = b) ∧
    (∀ fields fields' : List (String × Json), fields.Perm fields' → (fields.map (·.1)).Nodup →
      valueBytes (.obj fields) = valueBytes (.obj fields') ∧
      valueBytes (Json.object fields) = valueBytes (Json.object fields')) ∧
    (∀ a b : Json, inOrder a = inOrder b → valueBytes a = valueBytes b) ∧
    (lookAlikes.map valueBytes).Nodup := by
  refine ⟨fun i j hi hj => ⟨CommonInput.bytes_inj hN hi hj, congrArg _⟩,
    fun i j hi hj => ⟨SubjectInput.bytes_inj hN hi hj, congrArg _⟩,
    fun i j => commonBytes_ne_subjectBytes _ _ _ _ _ _ _,
    fun a b ha hb => eq_of_valueBytes_prefix hN ha hb, ?_, ?_, by decide +kernel⟩
  · intro fields fields' hperm hkeys
    have hkeys' : (fields'.map (·.1)).Nodup := (hperm.map _).nodup hkeys
    have hbytes := valueBytes_obj_eq_of_perm hperm hkeys
    exact ⟨hbytes, by rw [valueBytes_object hkeys, valueBytes_object hkeys', hbytes]⟩
  · intro a b hab
    rw [← valueBytes_inOrder a, hab, valueBytes_inOrder]

/-- A user whose number is an integer and one whose number is a float have different keys, and the
bytes of neither begin with those of the other. -/
theorem bytes_separate_integer_from_float :
    let one : Json := .int 1
    let oneFloat : Json := .float ⟨0x3ff0000000000000⟩
    let user (x : Json) : Json := .obj [("ids", .arr [x, .obj []])]
    TextsApart (· ∈ [one, oneFloat]) ∧
      (⟨"v", user one, .null⟩ : CommonInput).bytes ≠
        (⟨"v", user oneFloat, .null⟩ : CommonInput).bytes ∧
      ¬ valueBytes (user one) <+: valueBytes (user oneFloat) := by
  intro one oneFloat user
  have hN : TextsApart (· ∈ [one, oneFloat]) := textsApart_mem (by decide +kernel)
  have hholds (x : Json) (hx : Holds (· ∈ [one, oneFloat]) x) :
      Holds (· ∈ [one, oneFloat]) (user x) :=
    ⟨by simp, List.pairwise_singleton _ _, by decide +kernel,
      ⟨by simp, hx, ⟨by simp, .nil, trivial⟩, trivial⟩, trivial⟩
  have hone := hholds one ⟨List.mem_cons_self, by decide +kernel⟩
  have hfloat := hholds oneFloat ⟨List.mem_cons_of_mem _ List.mem_cons_self, by decide +kernel⟩
  obtain ⟨hcommon, -, -, hbegins, -⟩ := bytes_separate_inputs hN
  have hne : user one ≠ user oneFloat := by simp [user, one, oneFloat]
  have hversion : Sized "v" := by decide +kernel
  have hfits (x : Json) (hx : Holds (· ∈ [one, oneFloat]) (user x)) :
      CommonInput.Fits (· ∈ [one, oneFloat]) ⟨"v", user x, .null⟩ := ⟨hversion, hx, trivial⟩
  refine ⟨hN, fun h => hne ?_, fun h => hne (hbegins _ _ hone hfloat h)⟩
  exact (CommonInput.mk.inj ((hcommon _ _ (hfits one hone) (hfits oneFloat hfloat)).mp h)).2.1

end Key

end AccessPolicy
