import AccessPolicy.Proofs.Hierarchy.Forest

/-!
# Loops — the search for a cycle and the walk, without a bound

The search for a cycle runs on fuel and the walk on a number of rounds.  Here both are loops that
end only where they find their end.  They end on all input, and with the same results: the search
passes no position twice, and the walk takes two rounds for each node.
-/

namespace AccessPolicy

namespace ParentLinks

variable {links : ParentLinks} {passed path path' : List Nat} {p : Nat} {closed closed' : Bool}

/-! ## The search for a cycle -/

/-- From a position, with the positions passed before it, the search ends with a path: either a
position is met again, and then the path is closed, or the links come to an end. -/
inductive Traced (links : ParentLinks) : List Nat → Nat → List Nat → Bool → Prop where
  | closes {passed : List Nat} {p : Nat} :
    p ∈ passed → Traced links passed p (passed.dropWhile (· ≠ p) ++ [p]) true
  | ends {passed : List Nat} {p : Nat} :
    p ∉ passed → links.parent? p = none → Traced links passed p (passed ++ [p]) false
  | follows {passed path : List Nat} {p q : Nat} {closed : Bool} :
    p ∉ passed → links.parent? p = some q → Traced links (passed ++ [p]) q path closed →
    Traced links passed p path closed

theorem Traced.unique (h : links.Traced passed p path closed)
    (h' : links.Traced passed p path' closed') : path' = path ∧ closed' = closed := by
  induction h with
  | closes hp =>
    cases h' with
    | closes => exact ⟨rfl, rfl⟩
    | ends hnew _ => exact absurd hp hnew
    | follows hnew _ _ => exact absurd hp hnew
  | ends hnew hend =>
    cases h' with
    | closes hp => exact absurd hp hnew
    | ends => exact ⟨rfl, rfl⟩
    | follows _ hq _ => rw [hend] at hq; cases hq
  | follows hnew hq _ ih =>
    cases h' with
    | closes hp => exact absurd hp hnew
    | ends _ hend => rw [hend] at hq; cases hq
    | follows _ hq' h' =>
      obtain rfl := Option.some.inj (hq.symm.trans hq')
      exact ih h'

theorem lt_length_of_parent? {q : Nat} (h : links.parent? p = some q) : p < links.length :=
  (List.getElem?_eq_some_iff.mp (parent?_eq_some_iff.mp h)).1

/-- Along a chain of parents, every position but the last one has a parent. -/
theorem lt_length_of_isChain {ps : List Nat} {q : Nat}
    (h : (ps ++ [q]).IsChain fun a b => links.parent? a = some b) :
    ∀ a ∈ ps, a < links.length := by
  intro a ha
  obtain ⟨s, t, rfl⟩ := List.append_of_mem ha
  rw [List.append_assoc, List.isChain_append] at h
  cases t with
  | nil => exact lt_length_of_parent? h.2.1.rel
  | cons b t => exact lt_length_of_parent? h.2.1.rel

/-- The search never runs out of fuel. -/
theorem exists_traced_cycleFrom {fuel : Nat} (hnd : passed.Nodup)
    (hlt : ∀ q ∈ passed, q < links.length) (hfuel : links.length < fuel + passed.length) :
    ∃ closed, links.Traced passed p (links.cycleFrom fuel passed p) closed := by
  induction fuel generalizing passed p with
  | zero =>
    -- more distinct positions than there are
    have hlen := length_le_of_nodup hnd hlt
    omega
  | succ fuel ih =>
    rw [cycleFrom]
    by_cases hp : p ∈ passed
    · rw [if_pos hp]
      exact ⟨true, .closes hp⟩
    · rw [if_neg hp]
      cases hq : links.parent? p with
      | none => exact ⟨false, .ends hp hq⟩
      | some q =>
        have hnd' : (passed ++ [p]).Nodup := by
          rw [← List.concat_eq_append]
          exact hnd.concat hp
        have hlt' : ∀ r ∈ passed ++ [p], r < links.length := by
          intro r hr
          rcases List.mem_append.mp hr with hr | hr
          · exact hlt r hr
          · rw [List.mem_singleton.mp hr]
            exact lt_length_of_parent? hq
        have hfuel' : links.length < fuel + (passed ++ [p]).length := by
          rw [List.length_append, List.length_singleton]
          omega
        obtain ⟨closed, h⟩ := ih (p := q) hnd' hlt' hfuel'
        exact ⟨closed, .follows hp hq h⟩

theorem exists_traced_iff (links : ParentLinks) (p : Nat) : ∃ closed, ∀ path closed',
    links.Traced [] p path closed' ↔
      path = links.cycleFrom (links.length + 1) [] p ∧ closed' = closed := by
  obtain ⟨closed, h⟩ :
      ∃ closed, links.Traced [] p (links.cycleFrom (links.length + 1) [] p) closed :=
    exists_traced_cycleFrom List.nodup_nil (by simp) (by simp)
  exact ⟨closed, fun path closed' => ⟨h.unique, by rintro ⟨rfl, rfl⟩; exact h⟩⟩

/-- What comes before an element is all that is dropped. -/
theorem dropWhile_ne_append_cons {α : Type} [DecidableEq α] {lead xs : List α} {x : α}
    (hlead : x ∉ lead) : (lead ++ x :: xs).dropWhile (· ≠ x) = x :: xs := by
  have hall : ∀ a ∈ lead, decide (a ≠ x) = true := fun a ha =>
    decide_eq_true fun he => hlead (he ▸ ha)
  rw [List.dropWhile_append_of_pos hall, List.dropWhile_cons_of_neg (by simp)]

/-- Links that lead to no root do not come to an end. -/
theorem Traced.closed_of_not_grounded (h : links.Traced passed p path closed)
    (hlinks : links.Closed) (hp : p < links.length) (hno : ¬ links.Grounded p) :
    closed = true := by
  induction h with
  | closes => rfl
  | @ends _ p _ hend =>
    obtain ⟨q, -, hq⟩ := hlinks.exists_ancestor? hp hno 1
    rw [ancestor?, hend] at hq
    cases hq
  | @follows _ _ p q _ _ hq _ ih =>
    refine ih (hlinks p q hq) fun hground => hno (hground.of_ancestor? (k := 1) ?_)
    rw [ancestor?, hq]
    rfl

/-- A closed path is the cycle that the links run into.  The positions before it are left out, and
so none of the positions from the first to the last on the cycle occurs twice. -/
theorem Traced.exists_cycle (h : links.Traced passed p path true) (hnd : passed.Nodup)
    (hchain : (passed ++ [p]).IsChain fun a b => links.parent? a = some b) :
    ∃ lead x xs, path = x :: xs ++ [x] ∧ (lead ++ x :: xs).Nodup ∧
      (lead ++ x :: xs ++ [x]).IsChain (fun a b => links.parent? a = some b) ∧
      (lead ++ x :: xs).head? = (passed ++ [p]).head? := by
  generalize htrue : true = closed at h
  induction h with
  | @closes passed p hp =>
    obtain ⟨lead, xs, rfl, hlead⟩ := List.eq_append_cons_of_mem hp
    refine ⟨lead, p, xs, ?_, hnd, hchain, ?_⟩
    · rw [dropWhile_ne_append_cons hlead]
    · cases lead <;> rfl
  | ends => cases htrue
  | @follows passed _ p q _ hnew hq _ ih =>
    have hnd' : (passed ++ [p]).Nodup := by
      rw [← List.concat_eq_append]
      exact hnd.concat hnew
    have hlonger : (passed ++ [p] ++ [q]).IsChain fun a b => links.parent? a = some b := by
      rw [List.isChain_append]
      exact ⟨hchain, .singleton q, by simpa using hq⟩
    obtain ⟨lead, x, xs, hpath, hcycle, hchain', hhead⟩ := ih hnd' hlonger htrue
    refine ⟨lead, x, xs, hpath, hcycle, hchain', hhead.trans ?_⟩
    cases passed <;> rfl

end ParentLinks

namespace Walk

variable {links : ParentLinks} {w w' : Walk} {result result' : Except Nat Walk}

/-! ## The walk -/

/-- Rounds as long as a node is open. -/
inductive Rounds (links : ParentLinks) : Walk → Except Nat Walk → Prop where
  | done {w : Walk} : w.stack = [] → Rounds links w (.ok w)
  | fails {w : Walk} {child : Nat} :
    w.stack ≠ [] → step links w = .error child → Rounds links w (.error child)
  | goes {w w' : Walk} {result : Except Nat Walk} :
    w.stack ≠ [] → step links w = .ok w' → Rounds links w' result → Rounds links w result

/-- Roots are entered one after the other, each when no node is open any more. -/
inductive Visits (links : ParentLinks) : List Nat → Walk → Except Nat Walk → Prop where
  | done {w : Walk} : Visits links [] w (.ok w)
  | fails {r : Nat} {rest : List Nat} {w : Walk} {child : Nat} :
    Rounds links (w.enter r) (.error child) → Visits links (r :: rest) w (.error child)
  | goes {r : Nat} {rest : List Nat} {w w' : Walk} {result : Except Nat Walk} :
    Rounds links (w.enter r) (.ok w') → Visits links rest w' result →
    Visits links (r :: rest) w result

theorem Rounds.unique (h : Rounds links w result) (h' : Rounds links w result') :
    result' = result := by
  induction h with
  | done hdone =>
    cases h' with
    | done => rfl
    | fails hopen _ => exact absurd hdone hopen
    | goes hopen _ _ => exact absurd hdone hopen
  | fails hopen hstep =>
    cases h' with
    | done hdone => exact absurd hdone hopen
    | fails _ hstep' => rw [hstep] at hstep'; cases hstep'; rfl
    | goes _ hstep' _ => rw [hstep] at hstep'; cases hstep'
  | goes hopen hstep _ ih =>
    cases h' with
    | done hdone => exact absurd hdone hopen
    | fails _ hstep' => rw [hstep] at hstep'; cases hstep'
    | goes _ hstep' h' => rw [hstep] at hstep'; cases hstep'; exact ih h'

theorem Visits.unique {roots : List Nat} (h : Visits links roots w result)
    (h' : Visits links roots w result') : result' = result := by
  induction h with
  | done => cases h'; rfl
  | fails hrounds =>
    cases h' with
    | fails hrounds' => exact hrounds.unique hrounds'
    | goes hrounds' _ => cases hrounds.unique hrounds'
  | goes hrounds _ ih =>
    cases h' with
    | fails hrounds' => cases hrounds.unique hrounds'
    | goes hrounds' h' => cases hrounds.unique hrounds'; exact ih h'

/-- Rounds that leave no node open are all that the loop makes. -/
theorem rounds_of_steps {n : Nat} (h : steps links n w = .ok w') (hdone : w'.stack = []) :
    Rounds links w (.ok w') := by
  induction n generalizing w with
  | zero =>
    obtain rfl : w = w' := Except.ok.inj h
    exact .done hdone
  | succ n ih =>
    by_cases hstack : w.stack = []
    · rw [steps_of_stack_nil hstack] at h
      obtain rfl : w = w' := Except.ok.inj h
      exact .done hdone
    · rw [steps] at h
      cases hstep : step links w with
      | error child => rw [hstep] at h; cases h
      | ok next =>
        rw [hstep] at h
        exact .goes hstack hstep (ih h)

theorem visits_trees {start : Nat} {ts : List Tree} (h : Ready links w start ts) :
    Visits links (ts.map Tree.root) w (.ok (w.past start ts)) := by
  induction ts generalizing w start with
  | nil =>
    rw [past_nil h.counter]
    exact .done
  | cons t ts ih =>
    have hfirst := rounds_of_steps h.first h.rest.stack
    have hthen := ih h.rest
    rw [← past_cons] at hthen
    exact .goes hfirst hthen

/-- The walk from the roots ends, and never for a child that was entered before. -/
theorem visits_roots_iff (links : ParentLinks) (result : Except Nat Walk) :
    Visits links links.roots (start links.length) result ↔
      result = .ok ((start links.length).past 0 links.forest) := by
  have h : Visits links links.roots (start links.length)
      (.ok ((start links.length).past 0 links.forest)) := by
    rw [roots_eq_map_root]
    exact visits_trees (ready_start links)
  exact ⟨h.unique, by rintro rfl; exact h⟩

end Walk

end AccessPolicy
