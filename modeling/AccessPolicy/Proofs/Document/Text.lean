import AccessPolicy.Json.Reader
import AccessPolicy.Proofs.Cache.Key

/-!
# Document text — a document is given by its text

The text of a value ends where the value ends: followed by anything that cannot continue a number,
it still tells the value and what follows it apart.  Strings are read back from their escapes, and
no text holds a control character, whatever the strings of the document hold.
-/

namespace AccessPolicy

/-- What satisfies a test, up to the first thing that does not, is given by the whole. -/
theorem append_inj_of_all {α : Type} {p : α → Bool} {as as' rest rest' : List α}
    (has : as.all p = true) (has' : as'.all p = true) (hrest : rest.head?.any p = false)
    (hrest' : rest'.head?.any p = false) (h : as ++ rest = as' ++ rest') :
    as = as' ∧ rest = rest' := by
  have hsplit {as rest : List α} (has : as.all p = true) (hrest : rest.head?.any p = false) :
      (as ++ rest).takeWhile p = as := by
    rw [List.takeWhile_append_of_pos (List.all_eq_true.mp has)]
    cases rest with
    | nil => exact List.append_nil as
    | cons c rest =>
      have hc : p c = false := hrest
      rw [List.takeWhile_cons_of_neg (by simp [hc]), List.append_nil]
  have heq : as = as' := by rw [← hsplit has hrest, h, hsplit has' hrest']
  rw [heq] at h
  exact ⟨heq, List.append_cancel_left h⟩

/-! ## Numbers -/

/-- The characters that numbers are written with. -/
def isNumberChar (c : Char) : Bool := c.isDigit || c == '.' || c == 'e' || c == '+' || c == '-'

/-- The text is made of characters of numbers and starts like a number. -/
structure IsNumberText (text : List Char) : Prop where
  all : text.all isNumberChar = true
  head : text.head?.any (fun c => c.isDigit || c == '-') = true

theorem all_isNumberChar {ds : List Char} (h : ds.all Char.isDigit = true) :
    ds.all isNumberChar = true :=
  List.all_eq_true.mpr fun c hc => by simp [isNumberChar, List.all_eq_true.mp h c hc]

/-- Digits, and behind them characters of numbers. -/
theorem isNumberText_append {ds rest : List Char} (hds : ds.all Char.isDigit = true) (hne : ds ≠ [])
    (hrest : rest.all isNumberChar = true) : IsNumberText (ds ++ rest) where
  all := by rw [List.all_append, all_isNumberChar hds, hrest, Bool.and_self]
  head := by
    obtain ⟨d, ds, rfl⟩ := List.exists_cons_of_ne_nil hne
    rw [List.all_cons, Bool.and_eq_true] at hds
    simp [hds.1]

theorem IsNumberText.negative {text : List Char} (h : IsNumberText text) :
    IsNumberText ('-' :: text) where
  all := by rw [List.all_cons, h.all]; rfl
  head := rfl

theorem all_toDigits (n : Nat) : (Nat.toDigits 10 n).all Char.isDigit = true :=
  List.all_eq_true.mpr fun _ hc => Nat.isDigit_of_mem_toDigits (by decide) (by decide) hc

theorem isNumberText_toDigits (n : Nat) : IsNumberText (Nat.toDigits 10 n) := by
  rw [← List.append_nil (Nat.toDigits 10 n)]
  exact isNumberText_append (all_toDigits n) Nat.toDigits_ne_nil rfl

namespace NumberFormat

theorem all_zeros (n : Nat) : (zeros n).all Char.isDigit = true :=
  List.all_eq_true.mpr fun _ hc => by rw [List.eq_of_mem_replicate hc]; rfl

theorem isNumberText_positionalText (f : NumberFormat) {ds : List Char}
    (hds : ds.all Char.isDigit = true) (hne : ds ≠ []) (e : Int) :
    IsNumberText (f.positionalText ds e) := by
  have hpart {part : List Char} (h : ∀ c ∈ part, c ∈ ds) : part.all Char.isDigit = true :=
    List.all_eq_true.mpr fun c hc => List.all_eq_true.mp hds c (h c hc)
  rw [positionalText]
  by_cases he : 0 ≤ e
  · -- zeros up to the point, and perhaps an empty fraction
    rw [if_pos he, List.append_assoc]
    refine isNumberText_append hds hne ?_
    rw [List.all_append, all_isNumberChar (all_zeros _)]
    split <;> rfl
  · rw [if_neg he]
    by_cases hplaces : (-e).toNat < ds.length
    · -- the point stands among the digits
      rw [if_pos hplaces]
      refine isNumberText_append (hpart fun c hc => List.mem_of_mem_take hc) ?_ ?_
      · intro h
        have hlength := congrArg List.length h
        rw [List.length_take, List.length_nil] at hlength
        omega
      · rw [List.all_cons, all_isNumberChar (hpart fun c hc => List.mem_of_mem_drop hc)]
        rfl
    · -- zeros behind the point come before the digits
      have hrest : ('.' :: (zeros ((-e).toNat - ds.length) ++ ds)).all isNumberChar = true := by
        rw [List.all_cons, List.all_append, all_isNumberChar (all_zeros _), all_isNumberChar hds]
        rfl
      have htext : IsNumberText (['0'] ++ _) := isNumberText_append rfl (by decide) hrest
      rw [if_neg hplaces, List.append_assoc]
      exact htext

theorem isNumberText_exponentialText {ds : List Char} (hds : ds.all Char.isDigit = true)
    (hne : ds ≠ []) (leading : Int) : IsNumberText (exponentialText ds leading) := by
  have hexponent : ('e' :: (if leading < 0 then '-' else '+') ::
      Nat.toDigits 10 leading.natAbs).all isNumberChar = true := by
    rw [List.all_cons, List.all_cons, all_isNumberChar (all_toDigits _)]
    split <;> rfl
  obtain ⟨d, rest, rfl⟩ := List.exists_cons_of_ne_nil hne
  rw [List.all_cons, Bool.and_eq_true] at hds
  have hd : [d].all Char.isDigit = true := by rw [List.all_cons, hds.1]; rfl
  cases rest with
  | nil => exact isNumberText_append hd (by simp) hexponent
  | cons d' rest =>
    have hfraction : ('.' :: (d' :: rest) ++ 'e' :: (if leading < 0 then '-' else '+') ::
        Nat.toDigits 10 leading.natAbs).all isNumberChar = true := by
      rw [List.all_append, List.all_cons, all_isNumberChar hds.2, hexponent]
      rfl
    have htext : IsNumberText ([d] ++ _) := isNumberText_append hd (by simp) hfraction
    exact htext

theorem isNumberText_magnitudeText (f : NumberFormat) (d : Decimal) :
    IsNumberText (f.magnitudeText d) := by
  have hds : d.digits.all Char.isDigit = true := all_toDigits _
  rw [magnitudeText]
  split
  · exact f.isNumberText_positionalText hds Nat.toDigits_ne_nil _
  · exact isNumberText_exponentialText hds Nat.toDigits_ne_nil _

end NumberFormat

namespace Json

theorem isNumberText_intText (n : Int) : IsNumberText (intText n).toList := by
  cases n with
  | ofNat n =>
    have htext : (intText (.ofNat n)).toList = Nat.toDigits 10 n := String.toList_ofList
    rw [htext]
    exact isNumberText_toDigits n
  | negSucc n =>
    have htext : intText (.negSucc n) = "-" ++ String.ofList (Nat.toDigits 10 (n + 1)) := rfl
    rw [htext, String.toList_append, String.toList_ofList (l := Nat.toDigits 10 (n + 1))]
    exact (isNumberText_toDigits _).negative

/-- Only numbers that data cannot hold are written like something else. -/
theorem isNumberText_floatText {x : Binary64} (h : x.isFinite = true) :
    IsNumberText (floatText x).toList := by
  have hnan : x.isNaN = false := by
    unfold Binary64.isFinite at h
    unfold Binary64.isNaN
    have hlt := of_decide_eq_true h
    exact decide_eq_false (by omega)
  have hdigits := NumberFormat.document.isNumberText_magnitudeText (x.shortest .toEven)
  rw [floatText, NumberFormat.write, hnan, h]
  show IsNumberText (String.ofList _).toList
  rw [String.toList_ofList]
  split
  · exact hdigits.negative
  · exact hdigits

/-! ## Strings -/

/-- The two hexadecimal digits of a control character are read as its number. -/
theorem hexUnit?_control : ∀ n < 0x20,
    hexUnit? '0' '0' (hexDigit (n / 16)) (hexDigit (n % 16)) = some n := by
  decide

theorem readCharacters_control {n : Nat} (hn : n < 0x20) (taken rest : List Char) :
    readCharacters taken
        ('\\' :: 'u' :: '0' :: '0' :: hexDigit (n / 16) :: hexDigit (n % 16) :: rest) =
      readCharacters (Char.ofNat n :: taken) rest := by
  have hunit := hexUnit?_control n hn
  have hplain : ¬ (0xd800 ≤ n ∧ n ≤ 0xdfff) := by omega
  -- the reader looks whether the escape of a low surrogate follows
  by_cases hescape : ∃ e f g h rest', rest = '\\' :: 'u' :: e :: f :: g :: h :: rest'
  · obtain ⟨e, f, g, h, rest', rfl⟩ := hescape
    rw [readCharacters, hunit]
    simp only [bind, Option.bind, if_neg hplain]
  · rw [readCharacters, hunit]
    · simp only [bind, Option.bind, if_neg hplain]
    · exact fun e f g h rest' heq => hescape ⟨e, f, g, h, rest', heq⟩

/-- A character is read back from its escape, whatever follows it. -/
theorem readCharacters_escaped (taken : List Char) (c : Char) (rest : List Char) :
    readCharacters taken (escaped c ++ rest) = readCharacters (c :: taken) rest := by
  unfold escaped
  split
  case h_8 hquote hbackslash _ _ _ _ _ =>
    split
    next hcontrol =>
      have h := readCharacters_control hcontrol taken rest
      rwa [Char.ofNat_toNat] at h
    next hcontrol =>
      rw [List.singleton_append, readCharacters, if_neg hcontrol]
      · exact hquote
      all_goals intros; contradiction
  all_goals simp [readCharacters, unescaped?]

theorem readCharacters_flatMap (cs taken rest : List Char) :
    readCharacters taken (cs.flatMap escaped ++ '"' :: rest) =
      some (String.ofList (taken.reverse ++ cs), rest) := by
  induction cs generalizing taken with
  | nil => rw [List.flatMap_nil, List.nil_append, readCharacters, List.append_nil]
  | cons c cs ih =>
    rw [List.flatMap_cons, List.append_assoc, readCharacters_escaped, ih, List.reverse_cons,
      List.append_assoc, List.singleton_append]

/-- A string is read back from its text. -/
theorem readCharacters_writeString (s : String) (rest : List Char) :
    readCharacters [] (writeString s rest).tail = some (s, rest) := by
  have h := readCharacters_flatMap s.toList [] rest
  rwa [List.reverse_nil, List.nil_append, String.ofList_toList] at h

theorem writeString_inj {s t : String} {r r' : List Char} (h : writeString s r = writeString t r') :
    s = t ∧ r = r' := by
  have hread := readCharacters_writeString s r
  rw [h, readCharacters_writeString] at hread
  exact Prod.mk.inj (Option.some.inj hread.symm)

/-! ## Values -/

mutual

/-- The numbers of the document are among `N`, and its floats are ones that data can hold. -/
def NumbersIn (N : Json → Prop) : Json → Prop
  | .null | .bool _ | .str _ => True
  | .int n => N (.int n)
  | .float x => x.isFinite = true ∧ N (.float x)
  | .arr items => ItemsIn N items
  | .obj fields => FieldsIn N fields

/-- See `NumbersIn`. -/
def ItemsIn (N : Json → Prop) : List Json → Prop
  | [] => True
  | x :: xs => NumbersIn N x ∧ ItemsIn N xs

/-- See `NumbersIn`. -/
def FieldsIn (N : Json → Prop) : List (String × Json) → Prop
  | [] => True
  | (_, x) :: xs => NumbersIn N x ∧ FieldsIn N xs

end

/-- The text goes on with something that does not continue a number. -/
def EndsNumber (rest : List Char) : Prop := rest.head?.any isNumberChar = false

namespace EndsNumber

theorem nil : EndsNumber [] := rfl

theorem comma (rest : List Char) : EndsNumber (',' :: rest) := rfl

theorem bracket (rest : List Char) : EndsNumber (']' :: rest) := rfl

theorem brace (rest : List Char) : EndsNumber ('\x7d' :: rest) := rfl

end EndsNumber

/-- The character that a value starts with, one for all numbers. -/
def leading : Json → Char
  | .null => 'n'
  | .bool true => 't'
  | .bool false => 'f'
  | .int _ | .float _ => '0'
  | .str _ => '"'
  | .arr _ => '['
  | .obj _ => '\x7b'

/-- A digit or sign stands for a number. -/
def leadingOf (c : Char) : Char := if c.isDigit || c == '-' then '0' else c

theorem leadingOf_head {text : List Char} (h : IsNumberText text) (rest : List Char) :
    (text ++ rest).head?.map leadingOf = some '0' := by
  have hhead := h.head
  cases text with
  | nil => exact absurd hhead (by decide)
  | cons c text =>
    rw [List.cons_append, List.head?_cons, Option.map_some, leadingOf]
    exact congrArg some (if_pos hhead)

variable {N : Json → Prop}

theorem leadingOf_write {a : Json} (ha : NumbersIn N a) (r : List Char) :
    (write a r).head?.map leadingOf = some a.leading := by
  cases a with
  | bool b => cases b <;> (rw [write]; rfl)
  | int n =>
    rw [write]
    exact leadingOf_head (isNumberText_intText n) r
  | float x =>
    rw [write]
    exact leadingOf_head (isNumberText_floatText ha.1) r
  | _ => rw [write]; rfl

theorem leading_eq {a b : Json} (ha : NumbersIn N a) (hb : NumbersIn N b) {r r' : List Char}
    (h : write a r = write b r') : a.leading = b.leading := by
  have hhead := leadingOf_write ha r
  rw [h, leadingOf_write hb] at hhead
  exact Option.some.inj hhead.symm

/-- No value starts with the end of an array. -/
theorem write_ne_closing {a : Json} (ha : NumbersIn N a) (r r' : List Char) :
    write a r ≠ ']' :: r' := by
  intro h
  have hhead := leadingOf_write ha r
  rw [h] at hhead
  have hleading : ']' = a.leading := Option.some.inj hhead
  cases a with
  | bool b => cases b <;> simp [leading] at hleading
  | _ => simp [leading] at hleading

theorem exists_writeItems_cons (x : Json) (xs : List Json) (r : List Char) :
    ∃ r', writeItems (x :: xs) r = write x r' := by
  cases xs with
  | nil => exact ⟨_, rfl⟩
  | cons => exact ⟨_, rfl⟩

/-- Different numbers are told apart wherever their texts end. -/
theorem numberText_inj (hN : Key.TextsApart N) {x y : Json} {s t : String} (hx : N x) (hy : N y)
    (hs : IsNumberText s.toList) (ht : IsNumberText t.toList) (hxs : x.text = s) (hyt : y.text = t)
    {r r' : List Char} (hr : EndsNumber r) (hr' : EndsNumber r')
    (h : s.toList ++ r = t.toList ++ r') : x = y ∧ r = r' := by
  obtain ⟨htext, hrest⟩ := append_inj_of_all hs.all ht.all hr hr' h
  exact ⟨hN x y hx hy (by rw [hxs, hyt, String.toList_inj.mp htext]), hrest⟩

mutual

/-- The text tells where the value ends, and which value it is. -/
theorem write_inj (hN : Key.TextsApart N) : ∀ {a b : Json}, NumbersIn N a → NumbersIn N b →
    ∀ {r r' : List Char}, EndsNumber r → EndsNumber r' → write a r = write b r' → a = b ∧ r = r'
  | .null, b, ha, hb, r, r', _, _, h => by
    have hlead := leading_eq ha hb h
    cases b with
    | null => exact ⟨rfl, List.append_cancel_left h⟩
    | bool b => cases b <;> simp [leading] at hlead
    | _ => simp [leading] at hlead
  | .bool c, b, ha, hb, r, r', _, _, h => by
    have hlead := leading_eq ha hb h
    cases b with
    | bool b =>
      cases c <;> cases b
      · exact ⟨rfl, List.append_cancel_left h⟩
      · exact absurd hlead (by decide)
      · exact absurd hlead (by decide)
      · exact ⟨rfl, List.append_cancel_left h⟩
    | _ => cases c <;> simp [leading] at hlead
  | .int n, b, ha, hb, r, r', hr, hr', h => by
    -- the text alone has to tell an integer from a float
    have hlead := leading_eq ha hb h
    cases b with
    | int n' =>
      exact numberText_inj hN ha hb (isNumberText_intText n) (isNumberText_intText n')
        (Key.text_int n) (Key.text_int n') hr hr' h
    | float x' =>
      exact numberText_inj hN ha hb.2 (isNumberText_intText n) (isNumberText_floatText hb.1)
        (Key.text_int n) (Key.text_float x') hr hr' h
    | bool b => cases b <;> simp [leading] at hlead
    | _ => simp [leading] at hlead
  | .float x, b, ha, hb, r, r', hr, hr', h => by
    have hlead := leading_eq ha hb h
    cases b with
    | int n' =>
      exact numberText_inj hN ha.2 hb (isNumberText_floatText ha.1) (isNumberText_intText n')
        (Key.text_float x) (Key.text_int n') hr hr' h
    | float x' =>
      exact numberText_inj hN ha.2 hb.2 (isNumberText_floatText ha.1) (isNumberText_floatText hb.1)
        (Key.text_float x) (Key.text_float x') hr hr' h
    | bool b => cases b <;> simp [leading] at hlead
    | _ => simp [leading] at hlead
  | .str s, b, ha, hb, r, r', _, _, h => by
    have hlead := leading_eq ha hb h
    cases b with
    | str t =>
      obtain ⟨rfl, hrest⟩ := writeString_inj h
      exact ⟨rfl, hrest⟩
    | bool b => cases b <;> simp [leading] at hlead
    | _ => simp [leading] at hlead
  | .arr items, b, ha, hb, r, r', _, _, h => by
    have hlead := leading_eq ha hb h
    cases b with
    | arr items' =>
      obtain ⟨rfl, hrest⟩ := writeItems_inj hN ha hb (List.cons.inj h).2
      exact ⟨rfl, hrest⟩
    | bool b => cases b <;> simp [leading] at hlead
    | _ => simp [leading] at hlead
  | .obj fields, b, ha, hb, r, r', _, _, h => by
    have hlead := leading_eq ha hb h
    cases b with
    | obj fields' =>
      obtain ⟨rfl, hrest⟩ := writeFields_inj hN ha hb (List.cons.inj h).2
      exact ⟨rfl, hrest⟩
    | bool b => cases b <;> simp [leading] at hlead
    | _ => simp [leading] at hlead

theorem writeItems_inj (hN : Key.TextsApart N) : ∀ {as bs : List Json}, ItemsIn N as →
    ItemsIn N bs → ∀ {r r' : List Char}, writeItems as (']' :: r) = writeItems bs (']' :: r') →
    as = bs ∧ r = r'
  | [], [], _, _, _, _, h => ⟨rfl, (List.cons.inj h).2⟩
  | [], b :: bs, _, hb, r, r', h => by
    obtain ⟨rest, hrest⟩ := exists_writeItems_cons b bs (']' :: r')
    exact absurd (h.trans hrest).symm (write_ne_closing hb.1 _ _)
  | a :: as, [], ha, _, r, r', h => by
    obtain ⟨rest, hrest⟩ := exists_writeItems_cons a as (']' :: r)
    exact absurd (hrest.symm.trans h) (write_ne_closing ha.1 _ _)
  | [a], [b], ha, hb, r, r', h => by
    obtain ⟨rfl, hrest⟩ := write_inj hN ha.1 hb.1 (.bracket _) (.bracket _) h
    exact ⟨rfl, (List.cons.inj hrest).2⟩
  | [a], b :: b' :: bs, ha, hb, r, r', h => by
    have hrest := (write_inj hN ha.1 hb.1 (.bracket _) (.comma _) h).2
    exact absurd (List.cons.inj hrest).1 (by decide)
  | a :: a' :: as, [b], ha, hb, r, r', h => by
    have hrest := (write_inj hN ha.1 hb.1 (.comma _) (.bracket _) h).2
    exact absurd (List.cons.inj hrest).1 (by decide)
  | a :: a' :: as, b :: b' :: bs, ha, hb, r, r', h => by
    obtain ⟨rfl, hitems⟩ := write_inj hN ha.1 hb.1 (.comma _) (.comma _) h
    obtain ⟨htail, hrest⟩ := writeItems_inj hN ha.2 hb.2 (List.cons.inj hitems).2
    exact ⟨congrArg (a :: ·) htail, hrest⟩

theorem writeFields_inj (hN : Key.TextsApart N) : ∀ {as bs : List (String × Json)},
    FieldsIn N as → FieldsIn N bs → ∀ {r r' : List Char},
    writeFields as ('\x7d' :: r) = writeFields bs ('\x7d' :: r') → as = bs ∧ r = r'
  | [], [], _, _, _, _, h => ⟨rfl, (List.cons.inj h).2⟩
  | [], [b], _, _, r, r', h => absurd (List.cons.inj h).1 (by decide)
  | [], b :: b' :: bs, _, _, r, r', h => absurd (List.cons.inj h).1 (by decide)
  | [a], [], _, _, r, r', h => absurd (List.cons.inj h).1 (by decide)
  | a :: a' :: as, [], _, _, r, r', h => absurd (List.cons.inj h).1 (by decide)
  | [a], [b], ha, hb, r, r', h => by
    obtain ⟨hkey, hvalue⟩ := writeString_inj h
    obtain ⟨hab, hrest⟩ := write_inj hN ha.1 hb.1 (.brace _) (.brace _) (List.cons.inj hvalue).2
    exact ⟨by rw [Prod.ext hkey hab], (List.cons.inj hrest).2⟩
  | [a], b :: b' :: bs, ha, hb, r, r', h => by
    have hrest := (write_inj hN ha.1 hb.1 (.brace _) (.comma _) (List.cons.inj (writeString_inj h).2).2).2
    exact absurd (List.cons.inj hrest).1 (by decide)
  | a :: a' :: as, [b], ha, hb, r, r', h => by
    have hrest := (write_inj hN ha.1 hb.1 (.comma _) (.brace _) (List.cons.inj (writeString_inj h).2).2).2
    exact absurd (List.cons.inj hrest).1 (by decide)
  | a :: a' :: as, b :: b' :: bs, ha, hb, r, r', h => by
    obtain ⟨hkey, hvalue⟩ := writeString_inj h
    obtain ⟨hab, hfields⟩ := write_inj hN ha.1 hb.1 (.comma _) (.comma _) (List.cons.inj hvalue).2
    obtain ⟨htail, hrest⟩ := writeFields_inj hN ha.2 hb.2 (List.cons.inj hfields).2
    exact ⟨by rw [Prod.ext hkey hab, htail], hrest⟩

end

/-- Documents with the same text are the same, as far as their numbers are told apart. -/
theorem text_inj (hN : Key.TextsApart N) {a b : Json} (ha : NumbersIn N a) (hb : NumbersIn N b)
    (h : a.text = b.text) : a = b :=
  (write_inj hN ha hb .nil .nil (String.ofList_injective h)).1

/-! ## Control characters -/

/-- The character is no control character. -/
def isTextChar (c : Char) : Bool := 0x20 ≤ c.toNat

theorem isTextChar_hexDigit : ∀ n < 16, isTextChar (hexDigit n) = true := by decide

/-- Control characters leave a string as digits. -/
theorem all_escaped (c : Char) : (escaped c).all isTextChar = true := by
  unfold escaped
  split
  case h_8 =>
    split
    next hcontrol =>
      have hhigh := isTextChar_hexDigit (c.toNat / 16) (by omega)
      have hlow := isTextChar_hexDigit (c.toNat % 16) (by omega)
      simp only [List.all_cons, hhigh, hlow]
      rfl
    next hcontrol =>
      rw [List.all_cons, List.all_nil, Bool.and_true]
      exact decide_eq_true (Nat.le_of_not_lt hcontrol)
  all_goals rfl

theorem all_writeString (s : String) {r : List Char} (h : r.all isTextChar = true) :
    (writeString s r).all isTextChar = true := by
  have hcharacters : (s.toList.flatMap escaped).all isTextChar = true := by
    rw [List.all_flatMap, List.all_eq_true]
    exact fun c _ => all_escaped c
  rw [writeString, List.cons_append, List.all_cons, List.all_append, List.all_cons, hcharacters, h]
  rfl

theorem isTextChar_of_isNumberChar {c : Char} (h : isNumberChar c = true) :
    isTextChar c = true := by
  simp only [isNumberChar, Bool.or_eq_true, beq_iff_eq] at h
  rcases h with ((((h | rfl) | rfl) | rfl) | rfl)
  · have hzero : 0x20 ≤ '0'.toNat := by decide
    exact decide_eq_true (Nat.le_trans hzero (Char.isDigit_iff_toNat.mp h).1)
  all_goals rfl

theorem all_numberText {text r : List Char} (htext : IsNumberText text)
    (h : r.all isTextChar = true) : (text ++ r).all isTextChar = true := by
  have hall : text.all isTextChar = true := List.all_eq_true.mpr fun c hc =>
    isTextChar_of_isNumberChar (List.all_eq_true.mp htext.all c hc)
  rw [List.all_append, hall, h, Bool.and_self]

mutual

/-- The text has no control characters, whatever the document holds. -/
theorem all_write : ∀ (j : Json) {r : List Char}, NumbersIn N j → r.all isTextChar = true →
    (write j r).all isTextChar = true
  | .null, r, _, h => by rw [write, List.all_append, h]; rfl
  | .bool true, r, _, h => by rw [write, List.all_append, h]; rfl
  | .bool false, r, _, h => by rw [write, List.all_append, h]; rfl
  | .int n, _, _, h => all_numberText (isNumberText_intText n) h
  | .float _, _, hj, h => all_numberText (isNumberText_floatText hj.1) h
  | .str s, r, _, h => all_writeString s h
  | .arr items, r, hj, h => by
    rw [write, List.all_cons, all_writeItems items hj (by rw [List.all_cons, h]; rfl)]
    rfl
  | .obj fields, r, hj, h => by
    rw [write, List.all_cons, all_writeFields fields hj (by rw [List.all_cons, h]; rfl)]
    rfl

theorem all_writeItems : ∀ (items : List Json) {r : List Char}, ItemsIn N items →
    r.all isTextChar = true → (writeItems items r).all isTextChar = true
  | [], _, _, h => h
  | [x], _, hitems, h => all_write x hitems.1 h
  | x :: x' :: xs, r, hitems, h => by
    refine all_write x hitems.1 ?_
    rw [List.all_cons, all_writeItems (x' :: xs) hitems.2 h]
    rfl

theorem all_writeFields : ∀ (fields : List (String × Json)) {r : List Char}, FieldsIn N fields →
    r.all isTextChar = true → (writeFields fields r).all isTextChar = true
  | [], _, _, h => h
  | [(key, x)], r, hfields, h => by
    refine all_writeString key ?_
    rw [List.all_cons, all_write x hfields.1 h]
    rfl
  | (key, x) :: field :: xs, r, hfields, h => by
    refine all_writeString key ?_
    rw [List.all_cons, all_write x hfields.1]
    · rfl
    · rw [List.all_cons, all_writeFields (field :: xs) hfields.2 h]
      rfl

end

end Json

end AccessPolicy
