import AccessPolicy.Error
import Mathlib.Data.List.Forall2

/-!
# Steps — taking failing computations apart

A chain of steps succeeds exactly when each of them does.  The same is said of plain checks and of
steps that also change a state.
-/

namespace AccessPolicy

/-! ## Lists in step -/

theorem exists_of_mem_right {α β : Type} {R : α → β → Prop} {as : List α} {bs : List β}
    (h : List.Forall₂ R as bs) {b : β} (hb : b ∈ bs) : ∃ a ∈ as, R a b := by
  induction h with
  | nil => exact absurd hb List.not_mem_nil
  | @cons a b' as bs hab _ ih =>
    rcases List.mem_cons.mp hb with rfl | hb
    · exact ⟨a, List.mem_cons_self, hab⟩
    · obtain ⟨a', ha', hab'⟩ := ih hb
      exact ⟨a', List.mem_cons_of_mem _ ha', hab'⟩

theorem exists_of_mem_left {α β : Type} {R : α → β → Prop} {as : List α} {bs : List β}
    (h : List.Forall₂ R as bs) {a : α} (ha : a ∈ as) : ∃ b ∈ bs, R a b :=
  exists_of_mem_right h.flip ha

theorem forall₂_imp_left {α β : Type} {R S : α → β → Prop} {as : List α} {bs : List β}
    (h : List.Forall₂ R as bs) (himp : ∀ a ∈ as, ∀ b, R a b → S a b) : List.Forall₂ S as bs := by
  induction h with
  | nil => exact .nil
  | cons hab _ ih =>
    obtain ⟨ha, hrest⟩ := List.forall_mem_cons.mp himp
    exact .cons (ha _ hab) (ih hrest)

theorem forall₂_congr_left {α β : Type} {R S : α → β → Prop} {as : List α} {bs : List β}
    (h : ∀ a ∈ as, ∀ b, R a b ↔ S a b) : List.Forall₂ R as bs ↔ List.Forall₂ S as bs :=
  ⟨fun hall => forall₂_imp_left hall fun a ha b => (h a ha b).mp,
    fun hall => forall₂_imp_left hall fun a ha b => (h a ha b).mpr⟩

theorem forall₂_one_left_iff {α β : Type} {R : α → β → Prop} {a : α} {bs : List β} :
    List.Forall₂ R [a] bs ↔ ∃ b, R a b ∧ bs = [b] := by
  simp [List.forall₂_cons_left_iff, List.forall₂_nil_left_iff]

theorem forall₂_two_left_iff {α β : Type} {R : α → β → Prop} {a a' : α} {bs : List β} :
    List.Forall₂ R [a, a'] bs ↔ ∃ b b', R a b ∧ R a' b' ∧ bs = [b, b'] := by
  simp [List.forall₂_cons_left_iff, List.forall₂_nil_left_iff]

/-! ## Steps -/

/-- Steps on a state; what was changed before a failure stays. -/
abbrev Steps (σ α : Type) := ExceptT PolicyError (StateM σ) α

namespace Steps

variable {α β σ : Type}

theorem check_bind_eq_ok {ε : Type} {x : Except ε α} {f : α → Except ε β} {b : β} :
    (x >>= f) = .ok b ↔ ∃ a, x = .ok a ∧ f a = .ok b := by
  cases x with
  | error e => simp [bind, Except.bind]
  | ok a => simp [bind, Except.bind]

/-- What follows a check succeeds if the check and what follows it did so elsewhere. -/
theorem check_bind_imp {ε : Type} {x x' : Except ε α} {f f' : α → Except ε β} {b : β}
    (hx : ∀ a, x = .ok a → x' = .ok a) (hf : ∀ a, f a = .ok b → f' a = .ok b)
    (h : (x >>= f) = .ok b) : (x' >>= f') = .ok b := by
  obtain ⟨a, ha, hb⟩ := check_bind_eq_ok.mp h
  exact check_bind_eq_ok.mpr ⟨a, hx a ha, hf a hb⟩

/-- After the same check, what fails alike for each of its answers fails alike. -/
theorem check_bind_error_congr {γ ε : Type} {x : Except ε α} {f : α → Except ε β}
    {f' : α → Except ε γ} {e : ε}
    (h : ∀ a, x = .ok a → (f a = .error e ↔ f' a = .error e)) :
    (x >>= f) = .error e ↔ (x >>= f') = .error e := by
  cases x with
  | error e' => simp [bind, Except.bind]
  | ok a => exact h a rfl

/-- Checks that fail alike succeed alike. -/
theorem exists_ok_congr {ε : Type} {x : Except ε α} {y : Except ε β}
    (h : ∀ e, x = .error e ↔ y = .error e) : (∃ a, x = .ok a) ↔ ∃ b, y = .ok b := by
  cases x with
  | error e =>
    rw [(h e).mp rfl]
    simp
  | ok a =>
    cases y with
    | error e => exact nomatch (h e).mpr rfl
    | ok b => simp

/-- A check of every element answers them one by one. -/
theorem forall₂_of_mapM {ε : Type} {f : α → Except ε β} {as : List α} {bs : List β}
    (h : as.mapM f = .ok bs) : List.Forall₂ (fun a b => f a = .ok b) as bs := by
  induction as generalizing bs with
  | nil =>
    obtain rfl := Except.ok.inj h
    exact .nil
  | cons a rest ih =>
    rw [List.mapM_cons] at h
    obtain ⟨b, hb, h⟩ := check_bind_eq_ok.mp h
    obtain ⟨others, hothers, h⟩ := check_bind_eq_ok.mp h
    obtain rfl := Except.ok.inj h
    exact .cons hb (ih hothers)

theorem mapM_eq_ok_iff {ε : Type} {f : α → Except ε β} {as : List α} {bs : List β} :
    as.mapM f = .ok bs ↔ List.Forall₂ (fun a b => f a = .ok b) as bs := by
  refine ⟨forall₂_of_mapM, fun h => ?_⟩
  induction h with
  | nil => rfl
  | cons ha _ ih =>
    rw [List.mapM_cons, ha, check_bind_eq_ok]
    exact ⟨_, rfl, check_bind_eq_ok.mpr ⟨_, ih, rfl⟩⟩

theorem exists_mapM_eq_ok {ε : Type} {f : α → Except ε β} {as : List α}
    (h : ∀ a ∈ as, ∃ b, f a = .ok b) : ∃ bs, as.mapM f = .ok bs := by
  induction as with
  | nil => exact ⟨[], rfl⟩
  | cons a rest ih =>
    obtain ⟨⟨b, hb⟩, hrest⟩ := List.forall_mem_cons.mp h
    obtain ⟨bs, hbs⟩ := ih hrest
    exact ⟨b :: bs, mapM_eq_ok_iff.mpr (.cons hb (mapM_eq_ok_iff.mp hbs))⟩

theorem check_bind_eq_error {ε : Type} {x : Except ε α} {f : α → Except ε β} {e : ε} :
    (x >>= f) = .error e ↔ x = .error e ∨ ∃ a, x = .ok a ∧ f a = .error e := by
  cases x with
  | error e' => simp [bind, Except.bind]
  | ok a => simp [bind, Except.bind]

/-- A check of every element stops at the first one that fails. -/
theorem exists_of_mapM_eq_error {ε : Type} {f : α → Except ε β} {as : List α} {e : ε}
    (h : as.mapM f = .error e) : ∃ before a after, as = before ++ a :: after ∧
      (∀ x ∈ before, ∃ b, f x = .ok b) ∧ f a = .error e := by
  induction as with
  | nil => exact nomatch h
  | cons a rest ih =>
    rw [List.mapM_cons, check_bind_eq_error] at h
    rcases h with ha | ⟨b, hb, h⟩
    · exact ⟨[], a, rest, rfl, by simp, ha⟩
    · rcases check_bind_eq_error.mp h with hrest | ⟨bs, -, h⟩
      · obtain ⟨before, x, after, rfl, hbefore, hx⟩ := ih hrest
        exact ⟨a :: before, x, after, rfl, List.forall_mem_cons.mpr ⟨⟨b, hb⟩, hbefore⟩, hx⟩
      · exact nomatch h

/-- Checking every element without its answers fails as checking it with them does. -/
theorem mapM_map_unit {ε : Type} {f : α → Except ε β} {check : α → Except ε Unit} {as : List α}
    (h : ∀ a ∈ as, ((f a).map fun _ => ()) = check a) :
    ((as.mapM f).map fun _ => ()) = as.forM check := by
  induction as with
  | nil => rfl
  | cons a rest ih =>
    obtain ⟨ha, hrest⟩ := List.forall_mem_cons.mp h
    rw [List.mapM_cons]
    show _ = (check a >>= fun _ => rest.forM check)
    rw [← ha, ← ih hrest]
    cases f a with
    | error e => rfl
    | ok b => cases hall : rest.mapM f <;> rfl

theorem forM_singleton {ε : Type} (check : α → Except ε Unit) (a : α) :
    [a].forM check = check a := by
  show (check a >>= fun _ => pure ()) = check a
  cases check a <;> rfl

theorem forM_append {ε : Type} {check : α → Except ε Unit} {as bs : List α} :
    (as ++ bs).forM check = (as.forM check >>= fun _ => bs.forM check) := by
  induction as with
  | nil => rfl
  | cons a rest ih =>
    show (check a >>= fun _ => (rest ++ bs).forM check) = _
    rw [ih, ← bind_assoc]
    rfl

theorem forM_eq_ok_iff {ε : Type} {check : α → Except ε Unit} {as : List α} :
    as.forM check = .ok () ↔ ∀ a ∈ as, check a = .ok () := by
  induction as with
  | nil => exact iff_of_true rfl (by simp)
  | cons a rest ih =>
    rw [List.forall_mem_cons, ← ih]
    show (check a >>= fun _ => rest.forM check) = _ ↔ _
    cases check a <;> simp [bind, Except.bind]

theorem exists_of_forM_eq_error {ε : Type} {check : α → Except ε Unit} {as : List α} {e : ε}
    (h : as.forM check = .error e) : ∃ a ∈ as, check a = .error e := by
  rw [← mapM_map_unit (f := check) fun a _ => by cases check a <;> rfl] at h
  cases hall : as.mapM check with
  | ok units => simp [hall, Except.map] at h
  | error e' =>
    obtain ⟨before, a, after, rfl, -, ha⟩ := exists_of_mapM_eq_error hall
    rw [hall] at h
    exact ⟨a, by simp, ha.trans (by rw [Except.error.inj h])⟩

/-- A check that is seen to answer with something of which `q` holds. -/
theorem exists_eq_ok_of_any {ε : Type} {x : Except ε α} {q : α → Bool}
    (h : x.toOption.any q = true) : ∃ a, x = .ok a ∧ q a = true := by
  cases x with
  | error e => exact absurd h (by simp [Except.toOption])
  | ok a => exact ⟨a, rfl, h⟩

theorem bind_run (m : Steps σ α) (f : α → Steps σ β) (s : σ) :
    (m >>= f) s = match m s with
      | (.ok a, s') => f a s'
      | (.error e, s') => (.error e, s') := by
  show ExceptT.bindCont f (m s).1 (m s).2 = _
  obtain ⟨r, s'⟩ := m s
  cases r <;> rfl

theorem bind_eq_ok {m : Steps σ α} {f : α → Steps σ β} {s s'' : σ} {b : β} :
    (m >>= f) s = (.ok b, s'') ↔ ∃ a s', m s = (.ok a, s') ∧ f a s' = (.ok b, s'') := by
  rw [bind_run]
  constructor
  · intro h
    split at h
    · rename_i a s' hm
      exact ⟨a, s', hm, h⟩
    · exact absurd (congrArg Prod.fst h) (by simp)
  · rintro ⟨a, s', hm, hf⟩
    rw [hm]
    exact hf

/-- What comes after a step runs if the step succeeds, and only then. -/
theorem bind_cases (m : Steps σ α) (f : α → Steps σ β) (s : σ) :
    (∃ e s', m s = (.error e, s') ∧ (m >>= f) s = (.error e, s')) ∨
      ∃ a s', m s = (.ok a, s') ∧ (m >>= f) s = f a s' := by
  rw [bind_run]
  split
  · exact .inr ⟨_, _, ‹_›, rfl⟩
  · exact .inl ⟨_, _, ‹_›, rfl⟩

/-- Runs that succeed or fail together keep their states related. -/
theorem bind_related {R : σ → σ → Prop} {m m' : Steps σ α} {f f' : α → Steps σ β} {s s' : σ}
    (hok : (∃ a s₁, m s = (.ok a, s₁)) ↔ ∃ a s₁, m' s' = (.ok a, s₁))
    (hm : R (m s).2 (m' s').2)
    (hf : ∀ a s₁ a' s₁', m s = (.ok a, s₁) → m' s' = (.ok a', s₁') → R (f a s₁).2 (f' a' s₁').2) :
    R ((m >>= f) s).2 ((m' >>= f') s').2 := by
  rcases bind_cases m f s with ⟨e, s₁, hrun, hbind⟩ | ⟨a, s₁, hrun, hbind⟩
  · rcases bind_cases m' f' s' with ⟨e', s₁', hrun', hbind'⟩ | ⟨a', s₁', hrun', -⟩
    · rw [hbind, hbind']
      rwa [hrun, hrun'] at hm
    · obtain ⟨a, s₂, hrun₂⟩ := hok.mpr ⟨a', s₁', hrun'⟩
      exact nomatch hrun.symm.trans hrun₂
  · obtain ⟨a', s₁', hrun'⟩ := hok.mp ⟨a, s₁, hrun⟩
    rw [hbind, bind_run m', hrun']
    exact hf a s₁ a' s₁' hrun hrun'

/-- A check among steps leaves the state alone. -/
theorem check_bind_run (x : Except PolicyError α) (f : α → Steps σ β) (s : σ) :
    ((liftM x : Steps σ α) >>= f) s = match x with
      | .ok a => f a s
      | .error e => (.error e, s) := by
  cases x <;> rfl

/-- A run that is seen to answer. -/
theorem eq_ok_of_toOption {r : Except PolicyError α × σ} {a : α} (h : r.1.toOption = some a) :
    r = (.ok a, r.2) := by
  obtain ⟨r, s⟩ := r
  cases r with
  | error e => exact absurd h (by simp [Except.toOption])
  | ok b => rw [Option.some.inj h]

end Steps

end AccessPolicy
