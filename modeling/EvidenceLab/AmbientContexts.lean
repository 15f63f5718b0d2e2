/-
# The decimal context of the caller

Every operation of an evaluation runs in the calculation context, but for the `abs` of an equality
check.

* `evaluate_congr`: two contexts with the digits of the calculation context give one outcome, and
  any two do where no equality check reads them.
* `ExactChecks`: an equality check passes exactly when its residual is within the tolerance.
* **`evaluate_contextFree_iff`**: for which pairs of contexts and which graphs both hold.
-/
import EvidenceLab.Soundness

namespace CalcEngine

open Decimal (numDigits)

/-! ## Contexts with enough digits -/

section

variable {amb amb' : AmbientContext}

/-- With enough digits, the magnitude of a residual is exact. -/
theorem ambientAbs_of_fits (hprec : 34 ≤ amb.prec) {d : Decimal} (hd : Fits d) :
    ∃ m, ambientAbs amb d = .ok m ∧ m.value = |d.value| := by
  have hexp : amb.context.etiny ≤ d.exp := by
    have h := hd.exp_ge
    simp only [Decimal.Context.etiny, calcContext, AmbientContext.context] at h ⊢
    omega
  obtain ⟨m, hm, hval⟩ := amb.context.abs_of_fits (hd.digits.trans hprec) hexp hd.lt_max
  exact ⟨m, by rw [ambientAbs, hm], hval⟩

/-- Comparisons depend on the values only. -/
theorem le_congr {m m' t : Decimal} (h : m.value = m'.value) : m.le t = m'.le t := by
  rw [Bool.eq_iff_iff, Decimal.le_iff_value_le, Decimal.le_iff_value_le, h]

/-- A check does not depend on the context. -/
theorem check_congr (h : 34 ≤ amb.prec) (h' : 34 ≤ amb'.prec) (op : CheckOp)
    (tolerance : Option Decimal) (inputs : List CalcResult) :
    check amb op tolerance inputs = check amb' op tolerance inputs := by
  cases op with
  | equals =>
      unfold check
      cases inputAt inputs 0 with
      | error e => rfl
      | ok left =>
          cases inputAt inputs 1 with
          | error e => rfl
          | ok right =>
              simp only [Except.ok_bind]
              cases hres : left.quantity.combine .sub right.quantity with
              | error e => rfl
              | ok residual =>
                  have hfits := fits_of_subtract (Quantity.combine_eq_ok_iff.mp hres).1
                  obtain ⟨m, hm, hval⟩ := ambientAbs_of_fits h hfits
                  obtain ⟨m', hm', hval'⟩ := ambientAbs_of_fits h' hfits
                  simp only [Except.ok_bind, hm, hm', le_congr (hval.trans hval'.symm)]
  | _ => rfl

/-- The quantum does not depend on the ambient context. -/
theorem quantumOf_congr (node : Node) (quantum : Option Decimal) :
    quantumOf amb node quantum = quantumOf amb' node quantum := by
  unfold quantumOf
  cases quantum with
  | some q => rfl
  | none =>
      cases node.unit.currency with
      | none => rfl
      | some code => simp only [minorUnitQuantum_eq]

/-- A node is computed alike, unless it is an equality check. -/
theorem compute_congr {node : Node}
    (h : node.body.isEquality = true → 34 ≤ amb.prec ∧ 34 ≤ amb'.prec)
    (inputs : List CalcResult) (cutoff : AwareDatetime) :
    compute amb node inputs cutoff = compute amb' node inputs cutoff := by
  have hderived : computeDerived amb node inputs = computeDerived amb' node inputs := by
    unfold computeDerived
    cases hbody : node.body with
    | validationCheck op operands tolerance =>
        have hcheck : check amb op tolerance inputs = check amb' op tolerance inputs := by
          by_cases hop : op = .equals
          · obtain ⟨hprec, hprec'⟩ := h (by rw [hbody, hop]; rfl)
            exact check_congr hprec hprec' op tolerance inputs
          · cases op with
            | equals => exact absurd rfl hop
            | _ => rfl
        simp only [hcheck]
    | _ => simp only [@quantumOf_congr amb amb']
  unfold compute
  rw [hderived]

/-- **Two contexts with enough digits give one outcome**, and any two do where the graph has no
equality check. -/
theorem evaluate_congr {s : GraphSnapshot} (hg : s.graph.WellFormed)
    (h : ∀ n ∈ s.graph.nodes, n.body.isEquality = true → 34 ≤ amb.prec ∧ 34 ≤ amb'.prec)
    (sha : String → String) (cutoff : AwareDatetime) :
    evaluate sha amb s cutoff = evaluate sha amb' s cutoff := by
  have hstep : evalStep sha amb s.graph = evalStep sha amb' s.graph := by
    funext u st step
    cases step with
    | group grp => rfl
    | node i =>
        simp only [evalStep, evalNode]
        cases hlookup : lookup s.graph.byId i with
        | error e => simp only [Except.error_bind]
        | ok node =>
            have hn := (hg.byId.mp (lookup_eq_ok_iff.mp hlookup)).1
            simp only [Except.ok_bind, compute_congr (h node hn)]
  have hwalk : walk sha amb s.graph = walk sha amb' s.graph := by
    funext u plan
    rw [walk, walk, hstep]
  simp only [evaluate, hwalk]

end

/-! ## Exact checks -/

/-- An equality check passes exactly when the magnitude of its residual, computed in the calculation
context, is within the tolerance. -/
def ExactChecks (g : ModelGraph) (res : EvaluationResult) : Prop :=
  ∀ n ∈ g.nodes, ∀ left right tolerance,
    n.body = .validationCheck .equals [left, right] tolerance →
    ∃ l r c residual, res.results.get? left = some l ∧ res.results.get? right = some r
      ∧ res.results.get? n.nodeId = some c
      ∧ calcContext.subtract l.value r.value = .ok residual
      ∧ c.value = residual
      ∧ c.passed = some (decide (|residual.value| ≤ (tolerance.getD (Decimal.ofNat 0)).value))

/-- What an equality check that returned computed. -/
theorem check_equals_eq_ok {amb : AmbientContext} {tolerance : Option Decimal} {l r : CalcResult}
    {d : Decimal} {b : Bool} :
    check amb .equals tolerance [l, r] = .ok (d, b) ↔
      (∃ u, l.quantity.combine .sub r.quantity = .ok ⟨d, u⟩)
        ∧ ∃ m, ambientAbs amb d = .ok m ∧ m.le (tolerance.getD (Decimal.ofNat 0)) = b := by
  rw [check_equals]
  simp only [Except.bind_eq_ok_iff, Except.ok.injEq, Prod.mk.injEq]
  constructor
  · rintro ⟨⟨d', u⟩, hres, m, hm, rfl, hb⟩
    exact ⟨⟨u, hres⟩, m, hm, hb⟩
  · rintro ⟨⟨u, hres⟩, m, hm, hb⟩
    exact ⟨⟨d, u⟩, hres, m, hm, rfl, hb⟩

/-- A node that is no arithmetic is a step of its own. -/
theorem Walked.ownRun {sha : String → String} {amb : AmbientContext} {g : ModelGraph}
    {cutoff : AwareDatetime} {st : EvalState} (hg : g.WellFormed)
    (hw : Walked sha amb g cutoff g.executionPlan st) {n : Node} (hn : n ∈ g.nodes)
    (hb : n.body.isArithmetic = false) :
    ∃ e : NodeRun amb cutoff st.results n, st.results.get? n.nodeId = some (e.result sha) := by
  have hid : n.nodeId ∈ planIds g.executionPlan := by
    rw [hg.plan.ids.mem_iff]
    exact List.mem_map.mpr ⟨n, hn, rfl⟩
  obtain ⟨step, hstep, hmem⟩ := List.mem_flatMap.mp hid
  cases step with
  | group grp =>
      obtain ⟨n', hn', hid', harith⟩ :=
        hg.conditions.arithmetic grp ((hg.plan.groups_mem grp).mp hstep) _ hmem
      rw [hg.node_unique hn' hn hid', hb] at harith
      cases harith
  | node i =>
      obtain rfl : n.nodeId = i := List.mem_singleton.mp hmem
      obtain ⟨n', hn', hid', e, he⟩ := hw.node _ hstep
      obtain rfl := hg.node_unique hn' hn hid'
      exact ⟨e, he⟩

/-- The result of an equality check in a walk. -/
theorem Walked.equality {sha : String → String} {amb : AmbientContext} {g : ModelGraph}
    {cutoff : AwareDatetime} {st : EvalState} (hg : g.WellFormed)
    (hw : Walked sha amb g cutoff g.executionPlan st) {n : Node} (hn : n ∈ g.nodes)
    {left right : String} {tolerance : Option Decimal}
    (hb : n.body = .validationCheck .equals [left, right] tolerance) :
    ∃ l r c m, st.results.get? left = some l ∧ st.results.get? right = some r
      ∧ st.results.get? n.nodeId = some c
      ∧ calcContext.subtract l.value r.value = .ok c.value
      ∧ ambientAbs amb c.value = .ok m
      ∧ c.passed = some (m.le (tolerance.getD (Decimal.ofNat 0))) := by
  obtain ⟨e, he⟩ := hw.ownRun hg hn (by rw [hb]; rfl)
  have hrefs : n.refs = [left, right] := by rw [NodeFields.refs, hb]; rfl
  -- the node has two inputs
  obtain ⟨l, r, hl, hr, hinputs⟩ : ∃ l r, st.results.get? left = some l
      ∧ st.results.get? right = some r ∧ e.inputs = [l, r] := by
    have hin := Except.mapM_eq_ok_iff.mp e.inputs_eq
    rw [hrefs] at hin
    generalize e.inputs = inputs at hin
    cases hin with
    | cons hl hrest =>
        cases hrest with
        | cons hr hnil =>
            cases hnil
            exact ⟨_, _, lookup_eq_ok_iff.mp hl, lookup_eq_ok_iff.mp hr, rfl⟩
  -- its computation, statement by statement
  have hc := e.computed_eq
  rw [hinputs] at hc
  unfold compute at hc
  simp only [hb] at hc
  obtain ⟨t, -, hc⟩ := Except.bind_eq_ok_iff.mp hc
  obtain ⟨lin, -, hc⟩ := Except.bind_eq_ok_iff.mp hc
  obtain ⟨⟨q, v, p⟩, hd, hc⟩ := Except.bind_eq_ok_iff.mp hc
  unfold computeDerived at hd
  simp only [hb] at hd
  obtain ⟨⟨value, passed⟩, hcheck, hd⟩ := Except.bind_eq_ok_iff.mp hd
  obtain ⟨q', hq', hd⟩ := Except.bind_eq_ok_iff.mp hd
  -- the difference is computed in the calculation context, its magnitude in the ambient one
  obtain ⟨⟨u, hsub⟩, m, hm, hle⟩ := check_equals_eq_ok.mp hcheck
  obtain ⟨-, rfl⟩ := Quantity.make_eq_ok_iff.mp hq'
  rw [Except.pure_eq_ok, Except.ok.injEq, Prod.mk.injEq, Prod.mk.injEq] at hd
  obtain ⟨rfl, rfl, rfl⟩ := hd
  rw [Except.pure_eq_ok, Except.ok.injEq] at hc
  refine ⟨l, r, _, m, hl, hr, he, ?_, ?_, ?_⟩
  · rw [NodeRun.result, resultOf, ← hc]
    exact (Quantity.combine_eq_ok_iff.mp hsub).1
  · rw [NodeRun.result, resultOf, ← hc]
    exact hm
  · rw [NodeRun.result, resultOf, ← hc, hle]

theorem le_eq_decide (a b : Decimal) : a.le b = decide (a.value ≤ b.value) := by
  rw [Bool.eq_iff_iff, Decimal.le_iff_value_le, decide_eq_true_eq]

/-- With enough digits the checks are exact. -/
theorem exactChecks_of_evaluate {sha : String → String} {amb : AmbientContext}
    {s : GraphSnapshot} {cutoff : AwareDatetime} {res : EvaluationResult} (hprec : 34 ≤ amb.prec)
    (hg : s.graph.WellFormed) (h : evaluate sha amb s cutoff = .ok res) :
    ExactChecks s.graph res := by
  obtain ⟨u, st, -, hw, hresults, -⟩ := evaluate_eq_ok h
  intro n hn left right tolerance hb
  obtain ⟨l, r, c, m, hl, hr, hc, hsub, hm, hpassed⟩ :=
    (walked_of_walk hg (List.append_nil _) hw).equality hg hn hb
  obtain ⟨m', hm', hval⟩ := ambientAbs_of_fits hprec (fits_of_subtract hsub)
  rw [hm, Except.ok.injEq] at hm'
  subst hm'
  refine ⟨l, r, c, c.value, hresults ▸ hl, hresults ▸ hr, hresults ▸ hc, hsub, rfl, ?_⟩
  rw [hpassed, le_eq_decide, hval]

/-! ## A residual with all its digits -/

/-- One, with a one in its last digit. -/
def tight : Decimal := ⟨false, 10 ^ 33 + 1, -33⟩

def tightX : Node :=
  ⟨⟨"x", "", usd, fy2024, .analystAssumption tight firstInstant "a1"⟩, by decide⟩

/-- An equality check of that number with zero, at tolerance one. -/
def tightLoose : Node :=
  ⟨⟨"y", "", usd, fy2024, .validationCheck .equals ["x", "z"] (some (Decimal.ofNat 1))⟩,
    by decide⟩

/-- The same check, at the number itself as tolerance. -/
def tightExact : Node :=
  ⟨⟨"y", "", usd, fy2024, .validationCheck .equals ["x", "z"] (some tight)⟩, by decide⟩

theorem tightX_inDomain : ∀ v ∈ tightX.body.fieldsPy, InDomain v := by
  have htight : Encodable tight := ⟨by decide, by decide, by decide⟩
  have hdate : firstInstant.UtcRepresentable := by decide
  simp only [tightX, List.forall_mem_cons, NodeBody.fieldsPy, List.not_mem_nil, false_imp_iff,
    implies_true, and_true]
  exact ⟨htight, hdate, trivial⟩

theorem equality_inDomain {operands : List String} {t : Decimal} (ht : Encodable t) :
    ∀ v ∈ (NodeBody.validationCheck .equals operands (some t)).fieldsPy, InDomain v := by
  simp only [NodeBody.fieldsPy, List.forall_mem_cons, List.not_mem_nil, false_imp_iff, implies_true,
    and_true]
  exact ⟨trivial, inDomain_strs _, ht⟩

theorem tightLoose_build : ∃ g, ModelGraph.build [tightX, tightLoose, wideZ] [] = .ok g
    ∧ g.executionPlan = [.node "x", .node "z", .node "y"]
    ∧ g.nodes = sortNodes [tightX, tightLoose, wideZ] := by
  apply ModelGraph.build_isOk
  · rfl
  · decide
  · simp only [List.forall_mem_cons, List.not_mem_nil, false_imp_iff, implies_true, and_true]
    exact ⟨tightX_inDomain, equality_inDomain ⟨by decide, by decide, by decide⟩,
      wideNodes_inDomain wideZ (by simp [wideNodes])⟩

theorem tightExact_build : ∃ g, ModelGraph.build [tightX, tightExact, wideZ] [] = .ok g
    ∧ g.executionPlan = [.node "x", .node "z", .node "y"]
    ∧ g.nodes = sortNodes [tightX, tightExact, wideZ] := by
  apply ModelGraph.build_isOk
  · rfl
  · decide
  · simp only [List.forall_mem_cons, List.not_mem_nil, false_imp_iff, implies_true, and_true]
    exact ⟨tightX_inDomain, equality_inDomain ⟨by decide, by decide, by decide⟩,
      wideNodes_inDomain wideZ (by simp [wideNodes])⟩

/-- A context with fewer digits rounds the number down to one, or up above itself. -/
theorem tight_abs {amb : AmbientContext} (hprec : amb.prec < 34) :
    ∃ m, ambientAbs amb tight = .ok m
      ∧ (m.le (Decimal.ofNat 1) = true ∨ m.le tight = false) := by
  have hall : ∀ (mode : Decimal.Rounding) (p : Fin 34) (hp : 0 < p.val),
      ∃ m, (AmbientContext.mk p.val mode hp).context.abs tight = .ok m
        ∧ (m.le (Decimal.ofNat 1) = true ∨ m.le tight = false) := by
    have hdec : ∀ (mode : Decimal.Rounding) (p : Fin 34) (hp : 0 < p.val),
        ((AmbientContext.mk p.val mode hp).context.abs tight).toOption.any
          (fun m => m.le (Decimal.ofNat 1) || !m.le tight) = true := by
      intro mode
      cases mode <;> decide
    intro mode p hp
    have h := hdec mode p hp
    cases hr : (AmbientContext.mk p.val mode hp).context.abs tight with
    | error e => simp [hr, Except.toOption] at h
    | ok m => exact ⟨m, rfl, by simpa [hr, Except.toOption] using h⟩
  obtain ⟨p, mode, hp⟩ := amb
  obtain ⟨m, hm, h⟩ := hall mode ⟨p, hprec⟩ hp
  exact ⟨m, by rw [ambientAbs, hm], h⟩

/-- The residual of the tight check is exact. -/
theorem tight_residual : Quantity.combine .sub ⟨tight, usd⟩ ⟨Decimal.ofNat 0, usd⟩
    = .ok ⟨tight, usd⟩ := by
  decide

/-- What the check of `x` with `z` returns. -/
theorem tight_evaluate {sha : String → String} {amb : AmbientContext} {s : GraphSnapshot}
    {cutoff u : AwareDatetime} {y : Node} {t m : Decimal}
    (hy : y.toNodeFields = ⟨"y", "", usd, fy2024, .validationCheck .equals ["x", "z"] (some t)⟩)
    (hg : s.graph.WellFormed) (hnodes : s.graph.nodes = sortNodes [tightX, y, wideZ])
    (hplan : s.graph.executionPlan = [.node "x", .node "z", .node "y"])
    (hsafe : ∀ t, isSafeId (sha t) = true) (hutc : cutoff.astimezoneUtc = .ok u)
    (hfree : CollisionFree sha amb s.graph u) (hm : ambientAbs amb tight = .ok m) :
    ∃ res c, evaluate sha amb s cutoff = .ok res ∧ res.results.get? "y" = some c
      ∧ c.value = tight ∧ c.passed = some (m.le t) := by
  have hmem : ∀ n ∈ [tightX, y, wideZ], n ∈ s.graph.nodes := by
    intro n hn
    rw [hnodes]
    exact (sortNodes_perm _).mem_iff.mpr hn
  have hX : tightX ∈ s.graph.nodes := hmem _ (by simp)
  have hY : y ∈ s.graph.nodes := hmem _ (by simp)
  have hZ : wideZ ∈ s.graph.nodes := hmem _ (by simp)
  have hdate : firstInstant.instant ≤ u.instant := (utcRepresentable_of_astimezoneUtc hutc).1
  obtain ⟨dx, hdx, -⟩ := hg.definitions _ hX
  obtain ⟨dy, hdy, -⟩ := hg.definitions _ hY
  obtain ⟨dz, hdz, -⟩ := hg.definitions _ hZ
  -- the leaves
  have hw₀ : walk sha amb s.graph u [] = .ok EvalState.initial := rfl
  let ex : NodeRun amb u EvalState.initial.results tightX :=
    ⟨[], _, dx, rfl, compute_assumption rfl hdate, hdx, by decide⟩
  obtain ⟨st₁, hw₁, hx, -⟩ := walk_node hg hw₀ hX ex
  let ez : NodeRun amb u st₁.results wideZ :=
    ⟨[], _, dz, rfl, compute_assumption rfl hdate, hdz, by decide⟩
  obtain ⟨st₂, hw₂, hz, hother⟩ := walk_node hg hw₁ hZ ez
  have hne : wideZ.nodeId ≠ tightX.nodeId := by decide
  have hx' : st₂.results.get? "x" = some (ex.result sha) := (hother _ hne).trans hx
  have hz' : st₂.results.get? "z" = some (ez.result sha) := hz
  have hdigits : numDigits tight.coeff ≤ calcContext.prec := by decide
  -- the check
  have hbody : y.body = .validationCheck .equals ["x", "z"] (some t) := by rw [hy]
  have hrefs : y.refs = ["x", "z"] := by rw [NodeFields.refs, hbody]; rfl
  have hin : y.refs.mapM (lookup st₂.results) = .ok [ex.result sha, ez.result sha] := by
    rw [hrefs, List.mapM_cons, lookup_eq_ok_iff.mpr hx', Except.ok_bind, List.mapM_cons,
      lookup_eq_ok_iff.mpr hz']
    rfl
  -- its step is the last of the plan
  have hsplit : [PlanStep.node "x", .node "z"] ++ [.node "y"] = s.graph.executionPlan := hplan.symm
  have hids := inputIds_nodup (walked_of_walk hg hsplit hw₂) (hfree _ _ _ hsplit hw₂) y.refs_nodup
    hin
  have hlineage : Lineage.make ⟨.derived, none, none, none,
      [(ex.result sha).resultId, (ez.result sha).resultId]⟩
        = .ok ⟨.derived, none, none, none,
          [(ex.result sha).resultId, (ez.result sha).resultId]⟩ :=
    derivedLineage_ok (by simp) hids (by simpa using ⟨hsafe _, hsafe _⟩)
  have hcheck : check amb .equals (some t) [ex.result sha, ez.result sha]
      = .ok (tight, m.le t) :=
    check_equals_eq_ok.mpr ⟨⟨usd, tight_residual⟩, m, hm, rfl⟩
  have hquantity : Quantity.make tight y.unit = .ok ⟨tight, y.unit⟩ :=
    Quantity.make_eq_ok_iff.mpr ⟨hdigits, rfl⟩
  have hcompute : compute amb y [ex.result sha, ez.result sha] u = .ok ⟨⟨tight, y.unit⟩,
      (ex.result sha).availableAt.max (ez.result sha).availableAt,
      ⟨.derived, none, none, none, [(ex.result sha).resultId, (ez.result sha).resultId]⟩,
      some CheckOp.equals.text, some (m.le t)⟩ := by
    have hmax : maxAvailable [ex.result sha, ez.result sha]
        = .ok ((ex.result sha).availableAt.max (ez.result sha).availableAt) := rfl
    simp only [compute, hbody, List.map_cons, List.map_nil, hmax, hlineage, Except.ok_bind,
      computeDerived, hcheck, hquantity]
    rfl
  let ey : NodeRun amb u st₂.results y :=
    ⟨_, _, dy, hin, hcompute, hdy, hdigits⟩
  have hid : y.nodeId = "y" := by rw [hy]
  obtain ⟨st₃, hw₃, hr, -⟩ := walk_node hg hw₂ hY ey
  rw [hid] at hw₃ hr
  obtain ⟨res, hres, hresults, -⟩ := evaluate_of_walk hg hutc
    (show walk sha amb s.graph u s.graph.executionPlan = .ok st₃ by rw [hplan]; exact hw₃)
  exact ⟨res, ey.result sha, hres, hresults ▸ hr, rfl, rfl⟩

/-! ## When evaluation does not read the context -/

/-- Two contexts of the caller cannot be told apart, and equality checks are exact; `equality` says
whether the graph may hold one. -/
def ContextFree (amb amb' : AmbientContext) (equality : Bool) : Prop :=
  ∀ (sha : String → String) (nodes : List Node) (groups : List IterationGroup) (s : GraphSnapshot)
    (cutoff : AwareDatetime), ModelGraph.build nodes groups = .ok s.graph →
    (∀ n ∈ nodes, n.body.isEquality = true → equality = true) →
    evaluate sha amb s cutoff = evaluate sha amb' s cutoff
      ∧ ∀ res, evaluate sha amb s cutoff = .ok res → ExactChecks s.graph res

theorem tight_value : tight.value = 1 + 1 / 10 ^ 33 := by
  norm_num [tight, Decimal.value]

/-- In a context with fewer digits some check is not exact. -/
theorem inexact_check {amb : AmbientContext} (hprec : amb.prec < 34) :
    ∃ (sha : String → String) (nodes : List Node) (s : GraphSnapshot) (res : EvaluationResult),
      ModelGraph.build nodes [] = .ok s.graph ∧ evaluate sha amb s start2024 = .ok res
        ∧ ¬ ExactChecks s.graph res := by
  obtain ⟨m, hm, hcase⟩ := tight_abs hprec
  have hu : start2024.astimezoneUtc = .ok start2024 := by decide
  -- the check and the tolerance that show the rounding
  have key : ∀ (y : Node) (t : Decimal),
      y.toNodeFields = ⟨"y", "", usd, fy2024, .validationCheck .equals ["x", "z"] (some t)⟩ →
      (∃ g, ModelGraph.build [tightX, y, wideZ] [] = .ok g
        ∧ g.executionPlan = [.node "x", .node "z", .node "y"]
        ∧ g.nodes = sortNodes [tightX, y, wideZ]) →
      m.le t ≠ decide (|tight.value| ≤ t.value) →
      ∃ (sha : String → String) (nodes : List Node) (s : GraphSnapshot) (res : EvaluationResult),
        ModelGraph.build nodes [] = .ok s.graph ∧ evaluate sha amb s start2024 = .ok res
          ∧ ¬ ExactChecks s.graph res := by
    rintro y t hy ⟨g, hbuild, hplan, hnodes⟩ hne
    have hg := ModelGraph.wellFormed_of_build hbuild
    have hfree : CollisionFree (nodeDigest g start2024) amb g start2024 :=
      collisionFree_nodeDigest hg (ModelGraph.build_eq_ok hbuild).2.2.1
    obtain ⟨res, c, hres, hc, hval, hpassed⟩ := @tight_evaluate (nodeDigest g start2024) amb
      ⟨"", "", 1, none, none, g⟩ start2024 start2024 y t m hy hg hnodes hplan isSafeId_nodeDigest hu
      hfree hm
    refine ⟨nodeDigest g start2024, _, ⟨"", "", 1, none, none, g⟩, res, hbuild, hres, ?_⟩
    intro hexact
    have hY : y ∈ g.nodes := by
      rw [hnodes]
      exact (sortNodes_perm _).mem_iff.mpr (by simp)
    obtain ⟨-, -, c', residual, -, -, hc', -, hcv, hp⟩ :=
      hexact y hY "x" "z" (some t) (by rw [hy])
    rw [show y.nodeId = "y" by rw [hy], hc, Option.some.injEq] at hc'
    subst hc'
    rw [hpassed, Option.some.injEq, ← hcv, hval] at hp
    exact hne hp
  have hpos : (0 : ℚ) ≤ tight.value := by rw [tight_value]; positivity
  rcases hcase with hone | hup
  · apply key tightLoose (Decimal.ofNat 1) rfl tightLoose_build
    have hvalue : (Decimal.ofNat 1).value = 1 := by norm_num [Decimal.ofNat, Decimal.value]
    rw [hone, abs_of_nonneg hpos, hvalue, tight_value]
    norm_num
  · apply key tightExact tight rfl tightExact_build
    rw [hup, abs_of_nonneg hpos]
    simp

/-- **Independence of the caller's context.**  Two contexts give one outcome, with exact equality
checks, exactly when both have the digits of the calculation context, or the graph holds no equality
check. -/
theorem evaluate_contextFree_iff (amb amb' : AmbientContext) (equality : Bool) :
    ContextFree amb amb' equality ↔ (equality = true → 34 ≤ amb.prec ∧ 34 ≤ amb'.prec) := by
  constructor
  · intro h hequality
    constructor
    · by_contra hprec
      obtain ⟨sha, nodes, s, res, hbuild, hres, hnot⟩ := inexact_check (not_le.mp hprec)
      exact hnot ((h sha nodes [] s _ hbuild fun _ _ _ => hequality).2 res hres)
    · by_contra hprec
      obtain ⟨sha, nodes, s, res, hbuild, hres, hnot⟩ := inexact_check (not_le.mp hprec)
      obtain ⟨heq, hexact⟩ := h sha nodes [] s _ hbuild fun _ _ _ => hequality
      exact hnot (hexact res (heq.trans hres))
  · intro hprec sha nodes groups s cutoff hbuild hequality
    have hg := ModelGraph.wellFormed_of_build hbuild
    have hnodes : ∀ n ∈ s.graph.nodes, n.body.isEquality = true → 34 ≤ amb.prec ∧ 34 ≤ amb'.prec :=
      fun n hn hbody => hprec (hequality n ((mem_nodes_of_build hbuild).mp hn) hbody)
    refine ⟨evaluate_congr hg hnodes sha cutoff, fun res hres n hn left right tolerance hbody => ?_⟩
    have hdigits := (hnodes n hn (by rw [hbody]; rfl)).1
    exact exactChecks_of_evaluate hdigits hg hres n hn left right tolerance hbody

/-- A context with the digits of the calculation context. -/
def wideAmbient : AmbientContext := ⟨34, .halfEven, calcContext.prec_pos⟩

/-- Under the default context a check passes whose residual is above its tolerance, and under a
context of 34 digits the same check fails. -/
theorem evaluate_default_context_inexact :
    ∃ (g : ModelGraph) (sha : String → String),
      ModelGraph.build [tightX, tightLoose, wideZ] [] = .ok g
        ∧ ∀ s : GraphSnapshot, s.graph = g → ∃ res res' c c',
          evaluate sha defaultAmbient s start2024 = .ok res
            ∧ evaluate sha wideAmbient s start2024 = .ok res'
            ∧ res.results.get? "y" = some c ∧ res'.results.get? "y" = some c'
            ∧ c.passed = some true ∧ c'.passed = some false := by
  obtain ⟨g, hbuild, hplan, hnodes⟩ := tightLoose_build
  have hg := ModelGraph.wellFormed_of_build hbuild
  have hgroups := (ModelGraph.build_eq_ok hbuild).2.2.1
  have hu : start2024.astimezoneUtc = .ok start2024 := by decide
  refine ⟨g, nodeDigest g start2024, hbuild, ?_⟩
  rintro s rfl
  obtain ⟨res, c, hres, hc, -, hpassed⟩ :=
    tight_evaluate (y := tightLoose) rfl hg hnodes hplan isSafeId_nodeDigest hu
    (collisionFree_nodeDigest hg hgroups)
    (by decide : ambientAbs defaultAmbient tight = .ok ⟨false, 10 ^ 27, -27⟩)
  obtain ⟨res', c', hres', hc', -, hpassed'⟩ :=
    tight_evaluate (y := tightLoose) rfl hg hnodes hplan isSafeId_nodeDigest hu
    (collisionFree_nodeDigest hg hgroups)
    (by decide : ambientAbs wideAmbient tight = .ok tight)
  refine ⟨res, res', c, c', hres, hres', hc, hc', hpassed.trans ?_, hpassed'.trans ?_⟩
  · decide
  · decide

end CalcEngine
