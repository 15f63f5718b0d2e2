/-
# The sweeps of an iteration group

`_iterate` as a bounded fixed-point iteration of one function: every member over the external values
and the entire last vector.

* `memberTest`: residual and threshold of a member, in the calculation context.
* `jacobiIn`: the loop of the source, with its members visited in any order, is the bounded
  iteration (`jacobiIn_eq_loop`), and the order does not matter (`jacobiIn_perm`).
* `leftFold`: a formula node and the expression with the same fold compute alike.
* **`iterate_fixed_point`**.
-/
import EvidenceLab.GroupTyping
import EvidenceLab.BoundedIteration

namespace CalcEngine

open BoundedIteration

/-! ## Tests -/

/-- The residual of a member and the threshold it is held against. -/
def memberTest (group : IterationGroup) (previous current : Dict String Quantity)
    (member : String) :
    Except EngineError (Decimal × Decimal) := do
  let old ← lookup previous member
  let new ← lookup current member
  let difference ← convergenceOp (calcContext.subtract new.value old.value)
  let tolerance ← lookup group.absoluteTolerances member
  let larger :=
    if old.value.copyAbs.le new.value.copyAbs then new.value.copyAbs else old.value.copyAbs
  let scaled ← convergenceOp (calcContext.multiply group.relativeTolerance larger)
  let threshold ← convergenceOp (calcContext.add tolerance scaled)
  return (difference.copyAbs, threshold)

/-- The tests of one sweep, by member. -/
abbrev Tests := List (String × Decimal × Decimal)

def Tests.residuals (tests : Tests) : Dict String Decimal := tests.map (fun t => (t.1, t.2.1))

/-- Every residual is within its threshold. -/
def Tests.converged (tests : Tests) : Bool := tests.all (fun t => t.2.1.le t.2.2)

/-- The tests of a sweep, the members in the given order. -/
def sweepTests (group : IterationGroup) (order : List String)
    (previous current : Dict String Quantity) :
    Except EngineError Tests :=
  order.mapM (fun member => do
    let test ← memberTest group previous current member
    return (member, test))

/-- `F`: every member over the external values and the entire last vector. -/
def sweepFrom (byId : Dict String Node) (order : List String)
    (external previous : Dict String Quantity) :
    Except EngineError (Dict String Quantity) :=
  sweep byId order (external.update previous)

/-- The sweeps with their members visited in the given order. -/
def jacobiIn (byId : Dict String Node) (group : IterationGroup) (order : List String)
    (external : Dict String Quantity) :
    ℕ → ℕ → Dict String Quantity → Dict String Decimal → Except EngineError Converged
  | 0, completed, _, residuals => .error (.iterationConvergence group.groupId completed residuals)
  | fuel + 1, completed, previous, residuals => do
    let current ← sweep byId order (external.update previous)
    let (residuals, converged) ← order.foldlM (testMember group previous current) (residuals, true)
    if converged then .ok ⟨completed + 1, current, residuals⟩
    else jacobiIn byId group order external fuel (completed + 1) current residuals

theorem jacobiIn_members (byId : Dict String Node) (group : IterationGroup)
    (external : Dict String Quantity) :
    jacobiIn byId group group.members external = jacobi byId group external := by
  funext fuel
  induction fuel with
  | zero => rfl
  | succ fuel ih =>
      funext completed previous residuals
      rw [jacobiIn, jacobi, ih]

/-- The test of one member. -/
theorem testMember_eq (group : IterationGroup) (previous current : Dict String Quantity)
    (acc : Dict String Decimal × Bool) (member : String) :
    testMember group previous current acc member = do
      let test ← memberTest group previous current member
      return (acc.1.set member test.1, acc.2 && test.1.le test.2) := by
  simp only [testMember, memberTest, bind_assoc]
  rfl

/-- The loop over the members runs their tests. -/
theorem foldlM_testMember (group : IterationGroup) (order : List String)
    (previous current : Dict String Quantity) (acc : Dict String Decimal × Bool) :
    order.foldlM (testMember group previous current) acc = do
      let tests ← sweepTests group order previous current
      return (acc.1.update tests.residuals, acc.2 && tests.converged) := by
  unfold sweepTests
  induction order generalizing acc with
  | nil => simp [Tests.residuals, Tests.converged, Dict.update]
  | cons m order ih =>
      rw [List.foldlM_cons, testMember_eq, List.mapM_cons]
      simp only [bind_assoc, pure_bind, ih]
      congr 1
      funext test
      congr 1
      funext tests
      simp [Tests.residuals, Tests.converged, Dict.update, Bool.and_assoc]

/-! ## The loop -/

/-- The residuals kept after a sweep. -/
def lastResiduals : Option Tests → Dict String Decimal
  | none => []
  | some tests => tests.residuals

/-- A sweep tests its members in order. -/
theorem keys_sweepTests {group : IterationGroup} {order : List String}
    {previous current : Dict String Quantity} {tests : Tests}
    (h : sweepTests group order previous current = .ok tests) : tests.map Prod.fst = order := by
  have hkeys : Dict.keys tests = order.map (fun m => m) := keys_of_mapM h
  rwa [List.map_id'] at hkeys

/-- A sweep overwrites the residuals of the last one. -/
theorem update_lastResiduals {order : List String} (hnodup : order.Nodup) {last : Option Tests}
    (hlast : ∀ t ∈ last, t.map Prod.fst = order) {tests : Tests} (h : tests.map Prod.fst = order) :
    (lastResiduals last).update tests.residuals = tests.residuals := by
  have hkeys : ∀ t : Tests, t.residuals.keys = t.map Prod.fst := by
    intro t
    simp [Tests.residuals, Dict.keys, Function.comp_def]
  cases last with
  | none =>
      rw [lastResiduals,
        Dict.update_of_disjoint (by rw [hkeys, h]; exact hnodup) (by simp [Dict.keys])]
      rfl
  | some t =>
      apply Dict.update_of_keys_eq
      · rw [lastResiduals, hkeys, hkeys, h, hlast t rfl]
      · rw [hkeys, h]
        exact hnodup

/-- What the loop of the source makes of an ending. -/
def Converged.ofEnding (groupId : String) (bound : ℕ) :
    Ending (Dict String Quantity) Tests → Except EngineError Converged
  | .converged k current tests => .ok ⟨k, current, tests.residuals⟩
  | .exhausted last => .error (.iterationConvergence groupId bound (lastResiduals last))

/-- **The loop of the source is the bounded iteration** of `F`. -/
theorem jacobiIn_eq_loop (byId : Dict String Node) (group : IterationGroup) {order : List String}
    (hnodup : order.Nodup) (external : Dict String Quantity) :
    ∀ (fuel completed : ℕ) (previous : Dict String Quantity) (last : Option Tests),
      (∀ t ∈ last, t.map Prod.fst = order) →
      jacobiIn byId group order external fuel completed previous (lastResiduals last)
        = loop (sweepFrom byId order external) (sweepTests group order) Tests.converged fuel
        completed
            previous last >>= Converged.ofEnding group.groupId (completed + fuel) := by
  intro fuel
  induction fuel with
  | zero =>
      intro completed previous last _
      rfl
  | succ fuel ih =>
      intro completed previous last hlast
      rw [jacobiIn, loop, sweepFrom]
      cases hcur : sweep byId order (external.update previous) with
      | error e => rfl
      | ok current =>
          rw [Except.ok_bind, Except.ok_bind, foldlM_testMember]
          cases htests : sweepTests group order previous current with
          | error e => rfl
          | ok tests =>
              have hkeys := keys_sweepTests htests
              simp only [Except.ok_bind, update_lastResiduals hnodup hlast hkeys,
                Bool.true_and, pure_bind]
              by_cases hgood : tests.converged = true
              · rw [if_pos hgood, if_pos hgood]
                rfl
              · rw [if_neg hgood, if_neg hgood]
                have hnext := ih (completed + 1) current (some tests) (by simpa using hkeys)
                rw [show completed + (fuel + 1) = completed + 1 + fuel by omega, ← hnext]
                rfl

section Endings

variable {byId : Dict String Node} {group : IterationGroup} {order : List String}
  {external seeds : Dict String Quantity} {bound : ℕ}

variable (byId group order external seeds) in
/-- The `k`-th sweep from the seeds, with its tests. -/
def sweepTurn (k : ℕ) : Except EngineError (Dict String Quantity × Tests) :=
  turn (sweepFrom byId order external) (sweepTests group order) seeds k

variable (byId group order external seeds) in
/-- The sweep completes, and some residual is above its threshold. -/
def SweepMisses (k : ℕ) : Prop :=
  ∃ w tests, sweepTurn byId group order external seeds k = .ok (w, tests) ∧ tests.converged = false

/-- **How the sweeps end.** -/
theorem jacobiIn_cases (hnodup : order.Nodup) (hbound : 1 ≤ bound) :
    (∃ k w tests, 1 ≤ k ∧ k ≤ bound
        ∧ (∀ i, 1 ≤ i → i < k → SweepMisses byId group order external seeds i)
        ∧ sweepTurn byId group order external seeds k = .ok (w, tests) ∧ tests.converged = true
        ∧ jacobiIn byId group order external bound 0 seeds [] = .ok ⟨k, w, tests.residuals⟩)
      ∨ (∃ k e, 1 ≤ k ∧ k ≤ bound
        ∧ (∀ i, 1 ≤ i → i < k → SweepMisses byId group order external seeds i)
        ∧ sweepTurn byId group order external seeds k = .error e
        ∧ jacobiIn byId group order external bound 0 seeds [] = .error e)
      ∨ (∀ i, 1 ≤ i → i ≤ bound → SweepMisses byId group order external seeds i)
        ∧ ∃ w tests, sweepTurn byId group order external seeds bound = .ok (w, tests)
          ∧ jacobiIn byId group order external bound 0 seeds []
            = .error (.iterationConvergence group.groupId bound tests.residuals) := by
  have heq : jacobiIn byId group order external bound 0 seeds [] = _ :=
    jacobiIn_eq_loop byId group hnodup external bound 0 seeds none (by simp)
  rw [Nat.zero_add] at heq
  rcases @loop_cases _ _ _ (sweepFrom byId order external) (sweepTests group order)
      Tests.converged seeds
      bound 0 seeds none rfl with
    ⟨k, w, tests, h1, h2, hmiss, hturn, hgood, hloop⟩ | ⟨k, e, h1, h2, hmiss, hturn, hloop⟩
      | ⟨hall, last, hloop, -, hlast⟩
  · rw [hloop, Except.ok_bind] at heq
    exact .inl ⟨k, w, tests, h1, by omega, hmiss, hturn, hgood, heq⟩
  · rw [hloop] at heq
    exact .inr (.inl ⟨k, e, h1, by omega, hmiss, hturn, heq⟩)
  · obtain ⟨w, tests, hturn, rfl⟩ := hlast hbound
    rw [Nat.zero_add] at hturn
    rw [hloop, Except.ok_bind] at heq
    exact .inr (.inr ⟨fun i h1 h2 => hall i h1 (by omega), w, tests, hturn, heq⟩)

/-- A sweep that misses is not one that converges. -/
theorem not_sweepMisses {k : ℕ} {w : Dict String Quantity} {tests : Tests}
    (h : sweepTurn byId group order external seeds k = .ok (w, tests))
    (hgood : tests.converged = true) :
    ¬ SweepMisses byId group order external seeds k := by
  rintro ⟨w', tests', h', hmiss⟩
  rw [h, Except.ok.injEq, Prod.mk.injEq] at h'
  rw [← h'.2, hgood] at hmiss
  cases hmiss

/-- **The sweeps return at the first one that converges**, and only there. -/
theorem jacobiIn_eq_ok_iff (hnodup : order.Nodup) (hbound : 1 ≤ bound) {c : Converged} :
    jacobiIn byId group order external bound 0 seeds [] = .ok c ↔
      1 ≤ c.iterations ∧ c.iterations ≤ bound
        ∧ (∀ i, 1 ≤ i → i < c.iterations → SweepMisses byId group order external seeds i)
        ∧ ∃ tests, sweepTurn byId group order external seeds c.iterations = .ok (c.current, tests)
          ∧ tests.converged = true ∧ c.residuals = tests.residuals := by
  constructor
  · intro h
    rcases @jacobiIn_cases byId group order external seeds bound hnodup hbound with
      ⟨k, w, tests, h1, h2, hmiss, hturn, hgood, heq⟩ | ⟨k, e, -, -, -, -, heq⟩ | ⟨-,
        w, tests, -, heq⟩
    · rw [heq, Except.ok.injEq] at h
      subst h
      exact ⟨h1, h2, hmiss, tests, hturn, hgood, rfl⟩
    · rw [heq] at h
      cases h
    · rw [heq] at h
      cases h
  · rintro ⟨h1, h2, hmiss, tests, hturn, hgood, hres⟩
    rcases @jacobiIn_cases byId group order external seeds bound hnodup hbound with
      ⟨k, w, tests', h1', h2', hmiss', hturn', hgood', heq⟩ | ⟨k, e, h1', h2', hmiss', hturn', heq⟩
        | ⟨hall, w, tests', -, heq⟩
    · -- the first index is unique
      have hk : k = c.iterations := by
        rcases Nat.lt_trichotomy k c.iterations with hlt | heq' | hlt
        · exact absurd (hmiss k h1' hlt) (not_sweepMisses hturn' hgood')
        · exact heq'
        · exact absurd (hmiss' _ h1 hlt) (not_sweepMisses hturn hgood)
      subst hk
      rw [hturn, Except.ok.injEq, Prod.mk.injEq] at hturn'
      rw [heq, ← hturn'.1, ← hturn'.2, ← hres]
    · exfalso
      rcases Nat.lt_or_ge k c.iterations with hlt | hge
      · obtain ⟨w, t, hturn'', -⟩ := hmiss k h1' hlt
        rw [hturn'] at hturn''
        cases hturn''
      · rcases Nat.eq_or_lt_of_le hge with heq' | hlt
        · rw [heq', hturn'] at hturn
          cases hturn
        · exact not_sweepMisses hturn hgood (hmiss' _ h1 hlt)
    · exact absurd (hall _ h1 h2) (not_sweepMisses hturn hgood)

/-- **The sweeps raise an `IterationConvergenceError`** exactly when none converges and none fails.
-/
theorem jacobiIn_eq_convergence_iff (hnodup : order.Nodup) (hbound : 1 ≤ bound)
    (harith : ∀ k e, 1 ≤ k → k ≤ bound → sweepTurn byId group order external seeds k = .error e →
      e.IsArithmetic) {id : String} {n : ℕ} {residuals : List (String × Decimal)} :
    jacobiIn byId group order external bound 0 seeds []
    = .error (.iterationConvergence id n residuals) ↔
      id = group.groupId ∧ n = bound
        ∧ (∀ i, 1 ≤ i → i ≤ bound → SweepMisses byId group order external seeds i)
        ∧ ∃ w tests, sweepTurn byId group order external seeds bound = .ok (w, tests)
          ∧ residuals = tests.residuals := by
  constructor
  · intro h
    rcases @jacobiIn_cases byId group order external seeds bound hnodup hbound with
      ⟨k, w, tests, -, -, -, -, -, heq⟩ | ⟨k, e, h1, h2, -, hturn, heq⟩ | ⟨hall, w,
        tests, hturn, heq⟩
    · rw [heq] at h
      cases h
    · have he := harith k e h1 h2 hturn
      rw [heq, Except.error.injEq] at h
      rw [h] at he
      cases he
    · rw [heq, Except.error.injEq, EngineError.iterationConvergence.injEq] at h
      obtain ⟨rfl, rfl, rfl⟩ := h
      exact ⟨rfl, rfl, hall, w, tests, hturn, rfl⟩
  · rintro ⟨rfl, rfl, hall, w, tests, hturn, rfl⟩
    rcases @jacobiIn_cases byId group order external seeds n hnodup hbound with
      ⟨k, w', tests', h1, h2, -, hturn', hgood, -⟩ | ⟨k, e, h1, h2, -, hturn', -⟩
        | ⟨-, w', tests', hturn', heq⟩
    · exact absurd (hall k h1 h2) (not_sweepMisses hturn' hgood)
    · obtain ⟨w'', t, hturn'', -⟩ := hall k h1 h2
      rw [hturn'] at hturn''
      cases hturn''
    · rw [hturn, Except.ok.injEq, Prod.mk.injEq] at hturn'
      rw [heq, hturn'.2]

end Endings

/-! ## The order of the members -/

/-- Dictionaries that answer alike. -/
def Alike {α : Type} (d d' : Dict String α) : Prop := ∀ k, d.get? k = d'.get? k

/-- Permuted dictionaries with distinct keys are alike. -/
theorem alike_of_perm {α : Type} {d d' : Dict String α} (h : d.Perm d') (hd : d.keys.Nodup) :
    Alike d d' := by
  have hd' : d'.keys.Nodup := (h.map Prod.fst).nodup_iff.mp hd
  intro k
  apply Option.ext
  intro v
  constructor
  · intro hv
    exact Dict.get?_of_mem hd' (h.mem_iff.mp (Dict.mem_of_get? hv))
  · intro hv
    exact Dict.get?_of_mem hd (h.mem_iff.mpr (Dict.mem_of_get? hv))

theorem Alike.lookup {α : Type} {d d' : Dict String α} (h : Alike d d') : lookup d = lookup d' := by
  funext k
  rw [CalcEngine.lookup, CalcEngine.lookup, h k]

/-- Updating with alike entries gives alike dictionaries. -/
theorem Alike.update {α : Type} (base : Dict String α) {d d' : Dict String α} (h : d.Perm d')
    (hd : d.keys.Nodup) : Alike (base.update d) (base.update d') := by
  intro k
  rw [Dict.get?_update hd, Dict.get?_update ((h.map Prod.fst).nodup_iff.mp hd),
    alike_of_perm h hd k]

/-- **A formula** depends on what its references find only. -/
theorem computeFormula_alike {env env' : Dict String Quantity} (h : Alike env env') :
    ∀ ast : FormulaAST, computeFormula env ast = computeFormula env' ast
  | .reference i => by rw [computeFormula, computeFormula, h i]
  | .literal v => rfl
  | .unary s e => by rw [computeFormula, computeFormula, computeFormula_alike h e]
  | .binary op l r => by
      rw [computeFormula, computeFormula, computeFormula_alike h l, computeFormula_alike h r]

/-- A member depends on what its references find only. -/
theorem sweepMember_alike {env env' : Dict String Quantity} (h : Alike env env')
    (byId : Dict String Node)
    (member : String) : sweepMember byId env member = sweepMember byId env' member := by
  simp only [sweepMember, evaluateFormula, computeFormula_alike h, h.lookup]

section Orders

variable {byId : Dict String Node} {group : IterationGroup} {order order' : List String}
  {external seeds : Dict String Quantity} {bound : ℕ}

/-- A sweep lists the members as it visits them. -/
theorem keys_sweep {env w : Dict String Quantity} (h : sweep byId order env = .ok w) :
    w.keys = order := by
  have hkeys : w.keys = order.map (fun m => m) := keys_of_mapM h
  rwa [List.map_id'] at hkeys

/-- **A sweep in another order** has the same values. -/
theorem sweepFrom_perm (hp : order.Perm order') {u u' w : Dict String Quantity} (hu : u.Perm u')
    (hnodup : u.keys.Nodup) (h : sweepFrom byId order external u = .ok w) :
    ∃ w', sweepFrom byId order' external u' = .ok w' ∧ w.Perm w' := by
  obtain ⟨w', hw', hperm⟩ := Except.mapM_perm hp h
  refine ⟨w', ?_, hperm⟩
  rw [← hw', sweepFrom, sweep]
  simp only [sweepMember_alike (Alike.update external hu hnodup) byId]

/-- All sweeps in another order have the same values. -/
theorem states_perm (hp : order.Perm order') (hnodup : order.Nodup) (hseeds : seeds.keys.Nodup) :
    ∀ (k : ℕ) {u : Dict String Quantity}, states (sweepFrom byId order external) seeds k = .ok u →
      u.keys.Nodup ∧ ∃ u', states (sweepFrom byId order' external) seeds k = .ok u' ∧ u.Perm u'
  | 0, u, h => by
      obtain rfl : seeds = u := Except.ok.inj h
      exact ⟨hseeds, seeds, rfl, List.Perm.refl _⟩
  | k + 1, u, h => by
      rw [states_succ, Except.bind_eq_ok_iff] at h
      obtain ⟨v, hv, hstep⟩ := h
      obtain ⟨hvn, v', hv', hperm⟩ := states_perm hp hnodup hseeds k hv
      obtain ⟨u', hu', hperm'⟩ := sweepFrom_perm hp hperm hvn hstep
      refine ⟨keys_sweep hstep ▸ hnodup, u', ?_, hperm'⟩
      rw [states_succ, hv', Except.ok_bind, hu']

/-- A sweep in another order is the same sweep. -/
theorem sweepTurn_perm (hp : order.Perm order') (hnodup : order.Nodup)
    (hseeds : seeds.keys.Nodup) {k : ℕ}
    {w : Dict String Quantity} {tests : Tests}
    (h : sweepTurn byId group order external seeds k = .ok (w, tests)) :
    ∃ w' tests', sweepTurn byId group order' external seeds k = .ok (w', tests')
      ∧ Alike w w' ∧ tests.Perm tests' ∧ Alike tests.residuals tests'.residuals := by
  simp only [sweepTurn, turn, Except.bind_eq_ok_iff, Except.pure_eq_ok, Except.ok.injEq,
    Prod.mk.injEq] at h ⊢
  obtain ⟨u, hu, w₁, hw, t, ht, rfl, rfl⟩ := h
  obtain ⟨hun, u', hu', hperm⟩ := states_perm hp hnodup hseeds _ hu
  obtain ⟨w', hw', hwperm⟩ := sweepFrom_perm hp hperm hun hw
  have hwn : w₁.keys.Nodup := keys_sweep hw ▸ hnodup
  obtain ⟨t', ht', htperm⟩ := Except.mapM_perm hp ht
  have htests : sweepTests group order' u' w' = .ok t' := by
    rw [← ht', sweepTests]
    simp only [memberTest, (alike_of_perm hperm hun).lookup, (alike_of_perm hwperm hwn).lookup]
  refine ⟨w', t', ⟨u', hu', w', hw', t', htests, rfl, rfl⟩, alike_of_perm hwperm hwn, htperm,
    alike_of_perm (htperm.map _) ?_⟩
  have hkeys : t.residuals.keys = t.map Prod.fst := by
    simp [Tests.residuals, Dict.keys, Function.comp_def]
  rw [hkeys, keys_sweepTests ht]
  exact hnodup

/-- The order of the tests does not change whether they converge. -/
theorem converged_perm {tests tests' : Tests} (h : tests.Perm tests') :
    tests.converged = tests'.converged := by
  rw [Bool.eq_iff_iff, Tests.converged, Tests.converged, List.all_eq_true, List.all_eq_true]
  simp only [h.mem_iff]

/-- The order of the members does not change whether a sweep misses. -/
theorem SweepMisses.perm (hp : order.Perm order') (hnodup : order.Nodup)
    (hseeds : seeds.keys.Nodup) {k : ℕ}
    (h : SweepMisses byId group order external seeds k) :
    SweepMisses byId group order' external seeds k := by
  obtain ⟨w, tests, hturn, hmiss⟩ := h
  obtain ⟨w', tests', hturn', -, htperm, -⟩ := sweepTurn_perm hp hnodup hseeds hturn
  exact ⟨w', tests', hturn', converged_perm htperm ▸ hmiss⟩

/-- **The order of the members does not matter** to a vector that is returned. -/
theorem jacobiIn_perm (hp : order.Perm order') (hnodup : order.Nodup) (hseeds : seeds.keys.Nodup)
    (hbound : 1 ≤ bound) {c : Converged}
    (h : jacobiIn byId group order external bound 0 seeds [] = .ok c) :
    ∃ c', jacobiIn byId group order' external bound 0 seeds [] = .ok c' ∧
    c'.iterations = c.iterations
      ∧ Alike c.current c'.current ∧ Alike c.residuals c'.residuals := by
  obtain ⟨h1, h2, hmiss, tests, hturn, hgood, hres⟩ := (jacobiIn_eq_ok_iff hnodup hbound).mp h
  obtain ⟨w', tests', hturn', halike, htperm, hresalike⟩ := sweepTurn_perm hp hnodup hseeds hturn
  refine ⟨⟨c.iterations, w', tests'.residuals⟩, ?_, rfl, halike, hres ▸ hresalike⟩
  rw [jacobiIn_eq_ok_iff (hp.nodup_iff.mp hnodup) hbound]
  exact ⟨h1, h2, fun i hi1 hi2 => (hmiss i hi1 hi2).perm hp hnodup hseeds, tests', hturn',
    converged_perm htperm ▸ hgood, rfl⟩

end Orders

/-! ## Formula nodes and expressions -/

/-- The expression with the left fold of a formula node. -/
def leftFold (op : Operator) (first : String) (rest : List String) : FormulaAST :=
  rest.foldl (fun e ref => .binary op e (.reference ref)) (.reference first)

/-- The two bodies are one, or a formula node and the expression with its left fold. -/
def SameFormula (b b' : NodeBody) : Prop :=
  b = b' ∨ ∃ op first rest version version' grammar,
    b = .formula op (first :: rest) version
      ∧ b' = .expressionFormula (leftFold op first rest) version' grammar

/-- The fold of an expression over quantities that are there. -/
theorem computeFormula_foldl {env : Dict String Quantity} (op : Operator) :
    ∀ (rest : List String) (e : FormulaAST), (∀ ref ∈ rest, ref ∈ env.keys) →
      computeFormula env (rest.foldl (fun e ref => .binary op e (.reference ref)) e)
        = computeFormula env e >>= fun q => rest.foldlM (fun acc ref => do
            let rhs ← lookup env ref
            acc.combine op rhs) q
  | [], e, _ => by
      rw [List.foldl_nil]
      cases computeFormula env e <;> rfl
  | ref :: rest, e, h => by
      rw [List.forall_mem_cons] at h
      obtain ⟨q, hq⟩ := get?_of_mem_keys h.1
      have hlookup : lookup env ref = .ok q := lookup_eq_ok_iff.mpr hq
      rw [List.foldl_cons, computeFormula_foldl op rest _ h.2, computeFormula, computeFormula, hq]
      simp only [List.foldlM_cons, hlookup, Except.ok_bind, bind_assoc]

/-- **A formula node and the expression with its left fold compute alike.** -/
theorem sweepMember_sameFormula {byId byId' : Dict String Node} {env : Dict String Quantity}
    {m : String}
    {n n' : Node} (hn : byId.get? m = some n) (hn' : byId'.get? m = some n')
    (h : SameFormula n.body n'.body) (hrefs : ∀ ref ∈ n.refs, ref ∈ env.keys) :
    sweepMember byId' env m = sweepMember byId env m := by
  rw [sweepMember, sweepMember, lookup_eq_ok_iff.mpr hn, lookup_eq_ok_iff.mpr hn', Except.ok_bind,
    Except.ok_bind]
  rcases h with heq | ⟨op, first, rest, version, version', grammar, hb, hb'⟩
  · rw [heq]
  · have hvalid := n'.bodyOk
    rw [NodeFields.BodyOk, hb'] at hvalid
    have hrefs' : ∀ ref ∈ first :: rest, ref ∈ env.keys := by
      rw [NodeFields.refs, hb] at hrefs
      exact hrefs
    rw [List.forall_mem_cons] at hrefs'
    obtain ⟨q, hq⟩ := get?_of_mem_keys hrefs'.1
    simp only [hb, hb', evaluateFormula, hvalid.2.1, Except.ok_bind, lookup_eq_ok_iff.mpr hq]
    rw [leftFold, computeFormula_foldl op rest _ hrefs'.2, computeFormula, hq, Except.ok_bind]

/-! ## One group -/

section Group

variable {sha : String → String} {g : ModelGraph} {grp : IterationGroup}
    {R : Dict String CalcResult}
  {cutoff : AwareDatetime}

/-- The sweeps of a group over what it reads. -/
abbrev IterationInputs.turn (x : IterationInputs g grp R) (k : ℕ) :
    Except EngineError (Dict String Quantity × Tests) :=
  sweepTurn g.byId grp grp.members x.external x.seeds k

/-- The vectors stay typed, or a sweep fails arithmetically. -/
theorem states_yields (hg : g.WellFormed) (hgrp : grp ∈ g.iterationGroups)
    (x : IterationInputs g grp R) :
    ∀ k, (states (sweepFrom g.byId grp.members x.external) x.seeds k).Yields
      (fun d => d.keys = grp.members ∧ TypedEnv g grp.members d) EngineError.IsArithmetic
  | 0 => ⟨x.seeds_keys, x.seeds_typed⟩
  | k + 1 => by
      rw [states_succ]
      refine Except.Yields.bind (states_yields hg hgrp x k) (fun u _ hu => ?_)
      exact sweep_yields hg hgrp
        (fun n hn hm => typedEnv_update hg x.mem_externalIds x.external_keys
        x.external_typed hu.1 hu.2 hn hm)

/-- A sweep fails arithmetically or not at all. -/
theorem turn_isArithmetic (hg : g.WellFormed) (hgrp : grp ∈ g.iterationGroups)
    (x : IterationInputs g grp R)
    {k : ℕ} {e : EngineError} (h : x.turn k = .error e) : e.IsArithmetic := by
  have hy : (x.turn k).Yields (fun _ => True) EngineError.IsArithmetic := by
    unfold IterationInputs.turn sweepTurn BoundedIteration.turn
    refine Except.Yields.bind (states_yields hg hgrp x (k - 1)) (fun u _ hu => ?_)
    refine Except.Yields.bind
      (sweep_yields hg hgrp (fun n hn hm => typedEnv_update hg x.mem_externalIds
      x.external_keys x.external_typed hu.1 hu.2 hn hm)) (fun w _ hw => ?_)
    have htests :
        (sweepTests grp grp.members u w).Yields (fun _ => True) EngineError.IsArithmetic := by
      have hfold : (grp.members.foldlM (testMember grp u w) ([], true)).Yields (fun _ => True)
          EngineError.IsArithmetic := test_yields hu.1 hw.1
      rw [foldlM_testMember] at hfold
      cases ht : sweepTests grp grp.members u w with
      | ok tests => trivial
      | error e' =>
          rw [ht] at hfold
          exact hfold
    exact Except.Yields.bind htests (fun tests _ _ => trivial)
  rw [h] at hy
  exact hy

/-- The sweeps do not see whether a member is a formula node or the expression with its left fold.
-/
theorem jacobi_sameFormula (hg : g.WellFormed) (x : IterationInputs g grp R)
    {byId' : Dict String Node}
    (h : ∀ m ∈ grp.members, ∃ n n', g.byId.get? m = some n ∧ byId'.get? m = some n'
      ∧ SameFormula n.body n'.body) :
    ∀ (fuel completed : ℕ) (previous : Dict String Quantity) (residuals : Dict String Decimal),
      previous.keys = grp.members →
      jacobi byId' grp x.external fuel completed previous residuals
        = jacobi g.byId grp x.external fuel completed previous residuals := by
  intro fuel
  induction fuel with
  | zero => exact fun _ _ _ _ => rfl
  | succ fuel ih =>
      intro completed previous residuals hkeys
      have hpnodup : previous.keys.Nodup := hkeys ▸ grp.members_nodup
      have hsweep : sweep byId' grp.members (x.external.update previous)
          = sweep g.byId grp.members (x.external.update previous) := by
        unfold sweep
        refine Except.mapM_congr fun m hm => ?_
        obtain ⟨n, n', hn, hn', hsame⟩ := h m hm
        obtain ⟨hmem, hid⟩ := hg.byId.mp hn
        rw [sweepMember_sameFormula hn hn' hsame]
        -- every reference is a member or an external value
        intro ref href
        rw [← Dict.get?_isSome_iff, Dict.get?_update hpnodup, Option.isSome_or, Bool.or_eq_true,
          Dict.get?_isSome_iff, Dict.get?_isSome_iff, hkeys, x.external_keys, x.mem_externalIds]
        by_cases hin : ref ∈ grp.members
        · exact .inl hin
        · refine .inr ⟨hin, m, hm, ?_⟩
          rw [← hid, refsOf_node hg hmem]
          exact href
      rw [jacobi, jacobi, hsweep]
      cases hcur : sweep g.byId grp.members (x.external.update previous) with
      | error e => rfl
      | ok current =>
          simp only [Except.ok_bind, ih _ _ _ (keys_sweep hcur)]

/-- What an iteration that returned went through. -/
theorem iterate_eq_ok (x : IterationInputs g grp R) {out : IterationOutput}
    (h : iterate sha g grp R cutoff = .ok out) :
    ∃ c, jacobi g.byId grp x.external grp.maxIterations 0 x.seeds [] = .ok c
      ∧ out.run.iterations = c.iterations ∧ ∀ m ∈ grp.members, ∃ r q, out.outputs.get? m = some r
        ∧ c.current.get? m = some q ∧ r.value = q.value := by
  obtain ⟨p, rfl⟩ := iterate_eq_ok_iff.mp h
  have hids : p.externalIds = x.externalIds := by
    have h' := p.externalIds_eq
    rw [x.externalIds_eq, Except.ok.injEq] at h'
    exact h'.symm
  have hseeds : p.previous = x.seeds := by
    have h' := p.previous_eq
    rw [x.seeds_eq, Except.ok.injEq] at h'
    exact h'.symm
  have hexternal : p.external = x.external := by
    have h' := p.external_eq
    rw [hids, x.external_eq, Except.ok.injEq] at h'
    exact h'.symm
  refine ⟨p.converged, ?_, ?_, ?_⟩
  · rw [← hseeds, ← hexternal]
    exact p.converged_eq
  · have hrecord := p.record_eq
    simp only [iterationRecord, Except.bind_eq_ok_iff, Except.pure_eq_ok, Except.ok.injEq]
      at hrecord
    obtain ⟨_, -, _, -, _, -, _, -, _, -, hrecord⟩ := hrecord
    show p.record.iterations = p.converged.iterations
    rw [← hrecord]
  · intro m hm
    obtain ⟨e, he, -⟩ := p.member grp.members_nodup hm
    exact ⟨e.result, e.quantity, he, e.quantity_eq, rfl⟩

/-- **The fixed point of a group.**  An iteration of a group of a built graph that returns has the
vector of the first sweep that converges; it raises an `IterationConvergenceError` with the
residuals of the last sweep exactly when none converges and none fails; where one converges first it
returns, or the record cannot be encoded; a sweep fails arithmetically or not at all; neither the
order of the members nor the kind of their nodes matters. -/
theorem iterate_fixed_point {nodes : List Node} {groups : List IterationGroup}
    (hbuild : ModelGraph.build nodes groups = .ok g) (hgrp : grp ∈ g.iterationGroups)
    (hR : Supplied g grp R) (hcut : cutoff.UtcRepresentable) (x : IterationInputs g grp R) :
    (∀ out, iterate sha g grp R cutoff = .ok out → ∃ k w tests, 1 ≤ k ∧ k ≤ grp.maxIterations
        ∧ states (sweepFrom g.byId grp.members x.external) x.seeds k = .ok w
        ∧ x.turn k = .ok (w, tests) ∧ tests.converged = true
        ∧ (∀ i, 1 ≤ i → i < k → SweepMisses g.byId grp grp.members x.external x.seeds i)
        ∧ out.run.iterations = k ∧ ∀ m ∈ grp.members, ∃ r q, out.outputs.get? m = some r
          ∧ w.get? m = some q ∧ r.value = q.value)
      ∧ (∀ k w tests, 1 ≤ k → k ≤ grp.maxIterations → x.turn k = .ok (w, tests) →
        tests.converged = true →
        (∀ i, 1 ≤ i → i < k → SweepMisses g.byId grp grp.members x.external x.seeds i) →
        (Converged.Encodable ⟨k, w, tests.residuals⟩ ∧ ∃ out, iterate sha g grp R cutoff = .ok out)
          ∨ ¬ Converged.Encodable ⟨k, w, tests.residuals⟩
            ∧ ∃ message, iterate sha g grp R cutoff = .error (.canonicalization message))
      ∧ (∀ id n residuals,
        iterate sha g grp R cutoff = .error (.iterationConvergence id n residuals) ↔
          id = grp.groupId ∧ n = grp.maxIterations
            ∧ (∀ i w tests, 1 ≤ i → i ≤ grp.maxIterations → x.turn i = .ok (w, tests) →
              tests.converged = false)
            ∧ (∀ i e, 1 ≤ i → i ≤ grp.maxIterations → x.turn i ≠ .error e)
            ∧ ∃ w tests, x.turn grp.maxIterations = .ok (w, tests) ∧ residuals = tests.residuals)
      ∧ (∀ i e, x.turn i = .error e → e.IsArithmetic)
      ∧ (∀ order order', order.Perm grp.members → order'.Perm grp.members → ∀ c,
        jacobiIn g.byId grp order x.external grp.maxIterations 0 x.seeds [] = .ok c →
        ∃ c', jacobiIn g.byId grp order' x.external grp.maxIterations 0 x.seeds [] = .ok c'
          ∧ c'.iterations = c.iterations ∧ Alike c.current c'.current
          ∧ Alike c.residuals c'.residuals)
      ∧ ∀ byId', (∀ m ∈ grp.members, ∃ n n', g.byId.get? m = some n ∧ byId'.get? m = some n'
          ∧ SameFormula n.body n'.body) →
        jacobi byId' grp x.external grp.maxIterations 0 x.seeds []
          = jacobi g.byId grp x.external grp.maxIterations 0 x.seeds [] := by
  have hg := ModelGraph.wellFormed_of_build hbuild
  have hbound : 1 ≤ grp.maxIterations := grp.ok.iterations.1
  have hnodup := grp.members_nodup
  have hseeds : x.seeds.keys.Nodup := x.seeds_keys ▸ hnodup
  refine ⟨?_, ?_, ?_, fun i e => turn_isArithmetic hg hgrp x, ?_, ?_⟩
  · -- what a returned iteration has done
    intro out hout
    obtain ⟨c, hc, hiter, hvalues⟩ := iterate_eq_ok x hout
    rw [← jacobiIn_members, jacobiIn_eq_ok_iff hnodup hbound] at hc
    obtain ⟨h1, h2, hmiss, tests, hturn, hgood, -⟩ := hc
    exact ⟨c.iterations, c.current, tests, h1, h2, states_of_turn h1 hturn, hturn,
      hgood, hmiss, hiter,
      hvalues⟩
  · -- the first sweep that converges ends it
    intro k w tests h1 h2 hturn hgood hmiss
    have hc : jacobi g.byId grp x.external grp.maxIterations 0 x.seeds []
        = .ok ⟨k, w, tests.residuals⟩ := by
      rw [← jacobiIn_members, jacobiIn_eq_ok_iff hnodup hbound]
      exact ⟨h1, h2, hmiss, tests, hturn, hgood, rfl⟩
    rcases iterate_cases sha hg hgrp hcut hR x with ⟨e, he, -⟩ | ⟨c, hc', hend⟩
    · rw [hc] at he
      cases he
    · rw [hc, Except.ok.injEq] at hc'
      rw [hc']
      exact hend
  · -- the error of an iteration is that of its sweeps, for the record raises another one
    intro id n residuals
    have hjacobi : iterate sha g grp R cutoff = .error (.iterationConvergence id n residuals) ↔
        jacobi g.byId grp x.external grp.maxIterations 0 x.seeds []
          = .error (.iterationConvergence id n residuals) := by
      rcases iterate_cases sha hg hgrp hcut hR x with
        ⟨e, he, hit⟩ | ⟨c, hc, ⟨-, out, hit⟩ | ⟨-, message, hit⟩⟩
      · rw [he, hit]
        simp
      · rw [hc, hit]
        simp
      · rw [hc, hit]
        simp
    rw [hjacobi, ← jacobiIn_members, jacobiIn_eq_convergence_iff hnodup hbound
      (fun k e _ _ he => turn_isArithmetic hg hgrp x he)]
    refine and_congr_right fun _ => and_congr_right fun _ => ?_
    constructor
    · rintro ⟨hall, hlast⟩
      refine ⟨?_, ?_, hlast⟩
      · intro i w tests h1 h2 hturn
        obtain ⟨w', tests', hturn', hmiss⟩ := hall i h1 h2
        rw [IterationInputs.turn, hturn', Except.ok.injEq, Prod.mk.injEq] at hturn
        rw [← hturn.2]
        exact hmiss
      · intro i e h1 h2 hturn
        obtain ⟨w', tests', hturn', -⟩ := hall i h1 h2
        rw [IterationInputs.turn, hturn'] at hturn
        cases hturn
    · rintro ⟨hmiss, hok, hlast⟩
      refine ⟨?_, hlast⟩
      intro i h1 h2
      cases hturn : x.turn i with
      | error e => exact absurd hturn (hok i e h1 h2)
      | ok wt => exact ⟨wt.1, wt.2, hturn, hmiss i wt.1 wt.2 h1 h2 hturn⟩
  · -- the order of the members
    intro order order' horder horder' c hc
    exact jacobiIn_perm (horder.trans horder'.symm) (horder.nodup_iff.mpr hnodup) hseeds hbound hc
  · -- the kind of their nodes
    intro byId' h
    exact jacobi_sameFormula hg x h _ _ _ _ x.seeds_keys

end Group

/-! ### Two members -/

section TwoMembers

variable {s : Decimal} {hs : (assume "s" s).postInit = .ok ()} {absolute : Decimal}
  {hgroup : GroupFields.postInit ⟨"g", ["x", "y"], [("x", "s"), ("y", "s")],
    [("x", absolute), ("y", absolute)], Decimal.ofNat 1, 10⟩ = .ok ()}

theorem postInit_first : (formulaOf "y" .add ["x", "s"]).postInit = .ok () := by decide

theorem postInit_second : (formulaOf "x" .add ["y", "s"]).postInit = .ok () := by decide

variable (s hs) in
/-- `x = y + s` and `y = x + s`. -/
def crossed : List Node :=
  [⟨formulaOf "y" .add ["x", "s"], postInit_first⟩, ⟨assume "s" s, hs⟩,
  ⟨formulaOf "x" .add ["y", "s"], postInit_second⟩]

variable (absolute hgroup) in
/-- The group of the two, seeded with `s`. -/
def crossedGroup : IterationGroup :=
  ⟨⟨"g", ["x", "y"], [("x", "s"), ("y", "s")], [("x", absolute), ("y", absolute)],
    Decimal.ofNat 1, 10⟩, hgroup⟩

/-- The result of the seed. -/
def seedResult (s : Decimal) : CalcResult :=
  ⟨"r", "s", .analystAssumption, .assumption, s, usd, fy2024, start2024,
    ⟨.assumption, none, some "a1", none, []⟩, [], none, none, none, resultSchema⟩

/-- The two members build, and each becomes the sum of the other and `s`. -/
theorem crossed_inputs (hvalue : Encodable s)
    (hdigits : Decimal.numDigits s.coeff ≤ calcContext.prec)
    (hplan : buildPlan (crossed s hs) [crossedGroup absolute hgroup]
      = .ok [.node "s", .group (crossedGroup absolute hgroup)]) :
    ∃ g, ModelGraph.build (crossed s hs) [crossedGroup absolute hgroup] = .ok g
      ∧ crossedGroup absolute hgroup ∈ g.iterationGroups
      ∧ Supplied g (crossedGroup absolute hgroup) [("s", seedResult s)]
      ∧ ∃ x : IterationInputs g (crossedGroup absolute hgroup) [("s", seedResult s)],
        x.turn 1 = sweepTurn ((crossed s hs).map (fun n => (n.nodeId, n)))
        (crossedGroup absolute hgroup)
          ["x", "y"] [("s", ⟨s, usd⟩)] [("x", ⟨s, usd⟩), ("y", ⟨s, usd⟩)] 1 := by
  -- the model builds
  obtain ⟨g, hbuild, -, hnodes⟩ :
      ∃ g, ModelGraph.build (crossed s hs) [crossedGroup absolute hgroup] = .ok g
      ∧ g.executionPlan = [.node "s", .group (crossedGroup absolute hgroup)]
      ∧ g.nodes = sortNodes (crossed s hs) := by
    apply ModelGraph.build_isOk hplan
    · rfl
    · simp only [crossed, List.forall_mem_cons, List.not_mem_nil, false_imp_iff,
      implies_true, and_true]
      have hdate : start2024.UtcRepresentable := by decide
      simp only [formulaOf, assume, NodeBody.fieldsPy, List.forall_mem_cons, List.not_mem_nil,
        false_imp_iff, implies_true, and_true]
      exact ⟨⟨trivial, inDomain_strs _, trivial⟩, ⟨hvalue, hdate, trivial⟩, trivial,
        inDomain_strs _, trivial⟩
  have hg := ModelGraph.wellFormed_of_build hbuild
  have hgrp : crossedGroup absolute hgroup ∈ g.iterationGroups := by
    rw [(ModelGraph.build_eq_ok hbuild).2.2.1]
    exact List.mem_singleton_self _
  -- its members refer to each other and to `s`
  have hrefs : refsOf g.nodes = refsOf (crossed s hs) := by
    rw [hnodes]
    exact (refsOf_perm (sortNodes_perm (crossed s hs)).symm
      (show ["y", "s", "x"].Nodup by decide)).symm
  -- the results supply `s`
  have hR : Supplied g (crossedGroup absolute hgroup) [("s", seedResult s)] := by
    refine ⟨?_, ?_, show ∀ p ∈ [("x", "s"), ("y", "s")], p.2 ∈ ["s"] by decide⟩
    · intro i r hr
      have hmem := Dict.mem_of_get? hr
      rw [List.mem_singleton, Prod.mk.injEq] at hmem
      obtain ⟨rfl, rfl⟩ := hmem
      refine ⟨⟨assume "s" s, hs⟩, ?_, rfl, rfl, rfl, rfl, hdigits, show isSafeId "r" = true by
        decide⟩
      rw [hnodes, (sortNodes_perm (crossed s hs)).mem_iff]
      simp [crossed]
    · rw [hrefs]
      show ∀ m ∈ ["x", "y"], _
      simp only [List.forall_mem_cons, List.not_mem_nil, false_imp_iff, implies_true, and_true]
      show (∀ x ∈ ["y", "s"], x ∉ ["x", "y"] → x ∈ ["s"]) ∧ ∀ x ∈ ["x", "s"], x ∉ ["x", "y"] →
        x ∈ ["s"]
      decide
  obtain ⟨x⟩ := exists_iterationInputs hg hgrp hR
  refine ⟨g, hbuild, hgrp, hR, x, ?_⟩
  have hbyId := (ModelGraph.build_eq_ok hbuild).2.2.2.2.1
  have hids : ["s"] = x.externalIds := by
    have h := x.externalIds_eq
    rw [hbyId] at h
    exact Except.ok.inj h
  have hseeds : [("x", ⟨s, usd⟩), ("y", ⟨s, usd⟩)] = x.seeds :=
    Except.ok.inj x.seeds_eq
  have hexternal : [("s", ⟨s, usd⟩)] = x.external := by
    have h := x.external_eq
    rw [← hids] at h
    exact Except.ok.inj h
  rw [IterationInputs.turn, hbyId, ← hseeds, ← hexternal]
  rfl

end TwoMembers

/-- The two members move from one to two in their first sweep, within the tolerance. -/
theorem iterate_fixed_point_crossed :
    ∃ g out, ModelGraph.build (crossed (Decimal.ofNat 1) (by decide))
        [crossedGroup (Decimal.ofNat 1) (by decide)] = .ok g
      ∧ iterate id g (crossedGroup (Decimal.ofNat 1) (by decide))
      [("s", seedResult (Decimal.ofNat 1))]
        start2024 = .ok out := by
  have hone : Encodable (Decimal.ofNat 1) := ⟨by decide, by decide, by decide⟩
  obtain ⟨g, hbuild, hgrp, hR, x, hx⟩ :=
    @crossed_inputs (Decimal.ofNat 1) (by decide) (Decimal.ofNat 1)
    (by decide) hone (by decide) rfl
  have hturn : x.turn 1 = .ok ([("x", ⟨Decimal.ofNat 2, usd⟩), ("y", ⟨Decimal.ofNat 2, usd⟩)],
      [("x", Decimal.ofNat 1, Decimal.ofNat 3), ("y", Decimal.ofNat 1, Decimal.ofNat 3)]) := by
    rw [hx]
    rfl
  have hencodable :
      Converged.Encodable ⟨1, [("x", ⟨Decimal.ofNat 2, usd⟩), ("y", ⟨Decimal.ofNat 2, usd⟩)],
      [("x", Decimal.ofNat 1), ("y", Decimal.ofNat 1)]⟩ := by
    refine ⟨?_, ?_⟩
    · intro m q hq
      have hmem := Dict.mem_of_get? hq
      simp only [List.mem_cons, List.not_mem_nil, or_false, Prod.mk.injEq] at hmem
      obtain ⟨-, rfl⟩ | ⟨-, rfl⟩ := hmem <;> exact ⟨by decide, by decide, by decide⟩
    · simp only [List.forall_mem_cons, List.not_mem_nil, false_imp_iff, implies_true, and_true]
      exact ⟨hone, hone⟩
  rcases (iterate_fixed_point hbuild hgrp hR (show start2024.UtcRepresentable by decide) x).2.1 1
    _ _ le_rfl (by decide) hturn (by decide)
    (fun i h1 h2 => by omega) with ⟨-, out, hout⟩ | ⟨hnot, -⟩
  · exact ⟨g, out, hbuild, hout⟩
  · exact absurd hencodable hnot

/-- The largest coefficient at the largest exponent that can be encoded. -/
def topSeed : Decimal := ⟨false, 10 ^ 34 - 1, 250000⟩

/-- The first sweep is within the tolerance, but its sums round to an exponent that cannot be
encoded. -/
theorem converged_sweep_not_encodable :
    ∃ g, ModelGraph.build (crossed topSeed (by decide))
    [crossedGroup ⟨false, 0, 250000⟩ (by decide)] = .ok g
      ∧ ∃ x : IterationInputs g (crossedGroup ⟨false, 0, 250000⟩ (by decide))
      [("s", seedResult topSeed)],
        (∃ w tests, x.turn 1 = .ok (w, tests) ∧ tests.converged = true)
        ∧ ∀ sha, ∃ message, iterate sha g (crossedGroup ⟨false, 0, 250000⟩ (by decide))
          [("s", seedResult topSeed)] start2024 = .error (.canonicalization message) := by
  have hvalue : Encodable topSeed := ⟨by decide, by decide, by decide⟩
  obtain ⟨g, hbuild, hgrp, hR, x, hx⟩ := @crossed_inputs topSeed (by decide) ⟨false, 0, 250000⟩
    (by decide) hvalue (by decide) rfl
  have hg := ModelGraph.wellFormed_of_build hbuild
  have hturn : ∃ w tests, x.turn 1 = .ok (w, tests) ∧ tests.converged = true
      ∧ w.get? "x" = some ⟨⟨false, 2 * 10 ^ 33, 250001⟩, usd⟩ := by
    rw [hx]
    exact ⟨_, _, rfl, by decide, by decide⟩
  obtain ⟨w, tests, hturn, hgood, hw⟩ := hturn
  refine ⟨g, hbuild, x, ⟨w, tests, hturn, hgood⟩, fun sha => ?_⟩
  have hc : jacobi g.byId (crossedGroup ⟨false, 0, 250000⟩ (by decide)) x.external 10 0 x.seeds []
      = .ok ⟨1, w, tests.residuals⟩ := by
    rw [← jacobiIn_members, jacobiIn_eq_ok_iff (IterationGroup.members_nodup _) (by decide)]
    exact ⟨le_rfl, show 1 ≤ 10 by decide, fun i h1 (h2 : i < 1) => by omega, tests,
      hturn, hgood, rfl⟩
  rcases iterate_cases sha hg hgrp (show start2024.UtcRepresentable by decide) hR x with
    ⟨e, he, -⟩ | ⟨c, hc', ⟨hencodable, -⟩ | ⟨-, hit⟩⟩
  · exact absurd (hc.symm.trans he) (by simp)
  · have hcw : (⟨1, w, tests.residuals⟩ : Converged) = c := Except.ok.inj (hc.symm.trans hc')
    rw [← hcw] at hencodable
    exact absurd (hencodable.1 "x" _ hw).exp_le (by decide)
  · exact hit

end CalcEngine
