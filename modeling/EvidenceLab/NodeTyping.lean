/-
# Typing of one node

A node whose inputs have the types of their nodes computes a quantity of its own unit, or raises an
error that arithmetic can cause.

* `AmbientContext.keepsMagnitudes_iff`: in which decimal contexts of the caller the one operation
  outside the calculation context, `abs` in an equality check, cannot fail.
* `UnitsOk` is what the type check of `ModelGraph.build` says about the units of a node.
* **`compute_yields`**: soundness of one node.
-/
import EvidenceLab.Identity

namespace CalcEngine

open Decimal (numDigits)

/-! ## Magnitudes in the ambient context -/

/-- A decimal within the digits and the range of the calculation context. -/
structure Fits (d : Decimal) : Prop where
  digits : numDigits d.coeff ≤ calcContext.prec
  exp_ge : calcContext.etiny ≤ d.exp
  lt_max : |d.value| < (10 : ℚ) ^ (calcContext.emax + 1)

/-- The ambient context can show the magnitude of every decimal the engine computes. -/
def AmbientContext.KeepsMagnitudes (amb : AmbientContext) : Prop :=
  ∀ d, Fits d → ∃ r, amb.context.abs d = .ok r

/-- A difference fits the context. -/
theorem fits_of_subtract {a b r : Decimal} (h : calcContext.subtract a b = .ok r) : Fits r := by
  obtain ⟨h1, h2⟩ := calcContext.subtract_range (by decide) h
  exact ⟨calcContext.subtract_numDigits h, h1, h2⟩

/-- The largest decimal of the calculation context. -/
def largest : Decimal := ⟨false, 10 ^ 34 - 1, 999966⟩

theorem fits_largest : Fits largest := by
  refine ⟨by decide, by decide, ?_⟩
  rw [Decimal.abs_value_eq_coeff]
  have h : ((10 ^ 34 - 1 : ℕ) : ℚ) < (10 : ℚ) ^ (34 : ℤ) := by norm_num
  calc ((10 ^ 34 - 1 : ℕ) : ℚ) * (10 : ℚ) ^ (999966 : ℤ)
      < (10 : ℚ) ^ (34 : ℤ) * (10 : ℚ) ^ (999966 : ℤ) :=
        mul_lt_mul_of_pos_right h (zpow_pos (by norm_num) _)
    _ = (10 : ℚ) ^ (calcContext.emax + 1) := by rw [← zpow_add₀ (by norm_num)]; rfl

/-- With fewer digits and a rule that can round up, the largest decimal has no magnitude. -/
theorem abs_largest {amb : AmbientContext} (hprec : amb.prec < 34)
    (hmode : ¬ amb.rounding.Truncates) : amb.context.abs largest = .error .overflow :=
  amb.context.abs_overflow hmode (by simp [AmbientContext.context]) hprec rfl
    (by simp [AmbientContext.context, largest])

/-- **When magnitudes are kept**: the digits suffice, or the rule never rounds one up. -/
theorem AmbientContext.keepsMagnitudes_iff {amb : AmbientContext} :
    amb.KeepsMagnitudes ↔ 34 ≤ amb.prec ∨ amb.rounding.Truncates := by
  constructor
  · intro h
    by_contra hnot
    rw [not_or, not_le] at hnot
    obtain ⟨r, hr⟩ := h largest fits_largest
    rw [abs_largest hnot.1 hnot.2] at hr
    cases hr
  · rintro (hprec | hmode) d hd
    · have hexp : amb.context.etiny ≤ d.exp := by
        have h := hd.exp_ge
        simp only [Decimal.Context.etiny, calcContext, AmbientContext.context] at h ⊢
        omega
      obtain ⟨r, hr, -⟩ := amb.context.abs_of_fits (hd.digits.trans hprec) hexp hd.lt_max
      exact ⟨r, hr⟩
    · exact amb.context.abs_of_truncates hmode (by simp [AmbientContext.context]) hd.lt_max

/-! ## Outcomes of the arithmetic -/

/-- What an evaluation of a well-typed graph may raise: an arithmetic `FormulaError`, a failed
convergence, the `CanonicalizationError` of an iteration record, or the `UnitError` of a currency
without a known minor unit. -/
def SoundError (g : ModelGraph) : EngineError → Prop
  | .arithmetic _ _ => True
  | .quantize _ _ => True
  | .iterationConvergence _ _ _ => True
  | .canonicalization _ => g.iterationGroups ≠ []
  | .unknownMinorUnit _ => True
  | _ => False

variable {g : ModelGraph}

/-- Arithmetic errors are sound errors. -/
theorem soundError_of_isArithmetic (e : EngineError) (h : e.IsArithmetic) : SoundError g e := by
  cases e <;> trivial

/-- A quantity of the unit `u`, within the digits of the engine. -/
def Quantity.Typed (u : TypedUnit) (q : Quantity) : Prop :=
  q.unit = u ∧ numDigits q.value.coeff ≤ calcContext.prec

/-- Combining typed quantities yields one of the combined unit, or an arithmetic error. -/
theorem combine_yields {op : Operator} {a b : Quantity} {u : TypedUnit}
    (hu : op.unit a.unit b.unit = .ok u) :
    (Quantity.combine op a b).Yields (Quantity.Typed u) EngineError.IsArithmetic := by
  cases h : Quantity.combine op a b with
  | ok q =>
      obtain ⟨hv, hq⟩ := Quantity.combine_eq_ok_iff.mp h
      rw [hu, Except.ok.injEq] at hq
      exact Except.yields_ok ⟨hq.symm, Operator.run_numDigits hv⟩
  | error e =>
      obtain ⟨message, rfl⟩ := Quantity.combine_error hu h
      exact Except.yields_error trivial

/-- A left fold of an operator follows the fold of the units. -/
theorem fold_yields {op : Operator} {us : List TypedUnit} {qs : List Quantity}
    (h : List.Forall₂ Quantity.Typed us qs) : ∀ {u₀ u : TypedUnit} {q₀ : Quantity},
      q₀.Typed u₀ → us.foldlM op.unit u₀ = .ok u →
        (qs.foldlM (Quantity.combine op) q₀).Yields (Quantity.Typed u)
        EngineError.IsArithmetic := by
  induction h with
  | nil =>
      intro u₀ u q₀ hq hu
      rw [List.foldlM_nil, Except.pure_eq_ok, Except.ok.injEq] at hu
      exact hu ▸ Except.yields_ok hq
  | cons hv _ ih =>
      intro u₀ u q₀ hq hu
      rw [List.foldlM_cons, Except.bind_eq_ok_iff] at hu
      obtain ⟨u₁, hu₁, hu⟩ := hu
      rw [List.foldlM_cons]
      rw [← hq.1, ← hv.1] at hu₁
      exact Except.Yields.bind (combine_yields hu₁) (fun q₁ _ hq₁ => ih hq₁ hu)

/-- Folding typed quantities yields one of the unit of the formula. -/
theorem formulaUnit_fold_yields {op : Operator} {us : List TypedUnit} {qs : List Quantity}
    (h : List.Forall₂ Quantity.Typed us qs) {u : TypedUnit} (hu : formulaUnit op us = .ok u) :
    ∃ q rest, qs = q :: rest
      ∧
      (rest.foldlM (Quantity.combine op) q).Yields (Quantity.Typed u) EngineError.IsArithmetic := by
  cases h with
  | nil => simp [formulaUnit] at hu
  | cons hq hrest => exact ⟨_, _, rfl, fold_yields hrest hq hu⟩

/-- Operands of one unit add up in that unit. -/
theorem formulaUnit_add_of_eq {us : List TypedUnit} {u : TypedUnit} (hne : us ≠ [])
    (h : ∀ v ∈ us, v = u) : formulaUnit .add us = .ok u := by
  cases us with
  | nil => exact absurd rfl hne
  | cons v us =>
      rw [List.forall_mem_cons] at h
      obtain ⟨rfl, h⟩ := h
      rw [formulaUnit]
      clear hne
      induction us with
      | nil => rfl
      | cons w us ih =>
          rw [List.forall_mem_cons] at h
          obtain ⟨rfl, h⟩ := h
          rw [List.foldlM_cons]
          have hadd : Operator.unit .add w w = .ok w := by simp [Operator.unit, TypedUnit.add]
          rw [hadd, Except.ok_bind]
          exact ih h

/-- The digits of a formula's value. -/
theorem computeFormula_numDigits {env : Dict String Quantity}
    (henv : ∀ i q, env.get? i = some q → numDigits q.value.coeff ≤ calcContext.prec) :
    ∀ (ast : FormulaAST) {q : Quantity}, computeFormula env ast = .ok q →
      numDigits q.value.coeff ≤ calcContext.prec
  | .reference i, q, h => by
      rw [computeFormula] at h
      cases hi : env.get? i with
      | none => simp [hi] at h
      | some x =>
          rw [hi, Except.ok.injEq] at h
          exact h ▸ henv i x hi
  | .literal v, q, h => by
      obtain ⟨hd, rfl⟩ := Quantity.make_eq_ok_iff.mp h
      exact hd
  | .unary s e, q, h => by
      rw [computeFormula] at h
      obtain ⟨x, -, h⟩ := Except.bind_eq_ok_iff.mp h
      cases hp : calcContext.plus (s.apply x.value) with
      | error sig => simp [hp] at h
      | ok v =>
          rw [hp] at h
          obtain ⟨hd, rfl⟩ := Quantity.make_eq_ok_iff.mp h
          exact hd
  | .binary op l r, q, h => by
      rw [computeFormula] at h
      obtain ⟨x, -, h⟩ := Except.bind_eq_ok_iff.mp h
      obtain ⟨y, -, h⟩ := Except.bind_eq_ok_iff.mp h
      exact Operator.run_numDigits (Quantity.combine_eq_ok_iff.mp h).1

/-- A formula over quantities of the units it was checked with. -/
theorem evaluateFormula_yields {ast : FormulaAST} {units : Dict String TypedUnit}
    {env : Dict String Quantity} {u : TypedUnit} (hu : inferFormulaUnit ast units = .ok u)
    (henv : ∀ i ∈ ast.refs, ∀ v, units.get? i = some v → ∃ q, env.get? i = some q ∧ q.unit = v)
    (hdigits : ∀ i q, env.get? i = some q → numDigits q.value.coeff ≤ calcContext.prec) :
    (evaluateFormula ast env).Yields (Quantity.Typed u) EngineError.IsArithmetic := by
  rcases evaluateFormula_spec hu henv with ⟨q, hq, hqu⟩ | ⟨e, he, harith⟩
  · refine Except.yields_of_eq hq ⟨hqu, ?_⟩
    obtain ⟨_, -, hc⟩ := Except.bind_eq_ok_iff.mp hq
    exact computeFormula_numDigits hdigits ast hc
  · rw [he]
    exact Except.yields_error harith

/-! ## One node -/

/-- A result that has the type of its node. -/
structure TypedResult (n : Node) (r : CalcResult) : Prop where
  nodeId : r.nodeId = n.nodeId
  unit : r.unit = n.unit
  period : r.period = n.period
  digits : numDigits r.value.coeff ≤ calcContext.prec
  safe : isSafeId r.resultId = true

/-- The quantity of a typed result has the unit of its node. -/
theorem TypedResult.typed {n : Node} {r : CalcResult} (h : TypedResult n r) :
    r.quantity.Typed n.unit := ⟨h.unit, h.digits⟩

/-- An equality check, the one node that reads the ambient context. -/
def NodeBody.isEquality : NodeBody → Bool
  | .validationCheck .equals _ _ => true
  | _ => false

/-- A leaf dated at or before the cutoff; derived nodes have no date. -/
def NodeBody.DatedBy (cutoff : AwareDatetime) : NodeBody → Prop
  | .sourceFact _ asOf _ _ => asOf.instant ≤ cutoff.instant
  | .analystAssumption _ asOf _ => asOf.instant ≤ cutoff.instant
  | .forecastModelOutput _ asOf _ datasetCutoff _ =>
    asOf.instant ≤ cutoff.instant ∧ datasetCutoff.instant ≤ cutoff.instant
  | .scenarioOverride _ asOf _ _ _ => asOf.instant ≤ cutoff.instant
  | _ => True

theorem NodeBody.DatedBy.mono {b : NodeBody} {t u : AwareDatetime} (h : t.instant ≤ u.instant)
    (hb : b.DatedBy t) : b.DatedBy u := by
  unfold NodeBody.DatedBy at hb ⊢
  cases b with
  | sourceFact _ _ _ _ => exact hb.trans h
  | analystAssumption _ _ _ => exact hb.trans h
  | forecastModelOutput _ _ _ _ _ => exact ⟨hb.1.trans h, hb.2.trans h⟩
  | scenarioOverride _ _ _ _ _ => exact hb.trans h
  | _ => trivial

/-- A value may be used from the time it is available. -/
theorem requireAvailable_eq_ok_iff {nodeId what : String} {stamp cutoff : AwareDatetime}
    {u : Unit} :
    requireAvailable nodeId stamp cutoff what = .ok u ↔ stamp.instant ≤ cutoff.instant := by
  rw [requireAvailable, Except.raiseIf_eq_ok_iff, not_lt]

section

variable {n : Node} {ms : List Node} {inputs : List CalcResult}

/-- The inputs have the units of their nodes. -/
theorem typed_units (h : List.Forall₂ TypedResult ms inputs) :
    List.Forall₂ Quantity.Typed (ms.map (fun m => m.unit)) (inputs.map CalcResult.quantity) := by
  rw [List.forall₂_map_left_iff, List.forall₂_map_right_iff]
  exact h.imp (fun _ _ h => h.typed)

/-- Folding the inputs yields a quantity of the unit of the formula. -/
theorem foldInputs_yields {op : Operator} {u : TypedUnit} (h : List.Forall₂ TypedResult ms inputs)
    (hu : formulaUnit op (ms.map (fun m => m.unit)) = .ok u) :
    (foldInputs op inputs).Yields (Quantity.Typed u) (SoundError g) := by
  obtain ⟨q, rest, hq, hy⟩ := formulaUnit_fold_yields (typed_units h) hu
  obtain ⟨r, rs, rfl, rfl, rfl⟩ := List.map_eq_cons_iff.mp hq
  rw [List.foldlM_map] at hy
  exact hy.weaken soundError_of_isArithmetic

/-- The environments of a formula, for the check and for the evaluation. -/
theorem formula_env (h : List.Forall₂ TypedResult ms inputs) (i : String) (v : TypedUnit)
    (hv : Dict.get? (ms.map (fun p => (p.nodeId, p.unit))) i = some v) :
    ∃ q, Dict.get? (inputs.map (fun p => (p.nodeId, p.quantity))) i = some q ∧ q.unit = v := by
  induction h with
  | nil => simp at hv
  | cons hr _ ih =>
      rw [List.map_cons, Dict.get?_cons] at hv ⊢
      rw [hr.nodeId]
      split_ifs with hi
      · rw [if_pos hi, Option.some.injEq] at hv
        exact ⟨_, rfl, hr.unit.trans hv⟩
      · rw [if_neg hi] at hv
        exact ih hv

/-- The numbers of an environment have few enough digits. -/
theorem formula_env_digits (h : List.Forall₂ TypedResult ms inputs) (i : String) (q : Quantity)
    (hq : Dict.get? (inputs.map (fun p => (p.nodeId, p.quantity))) i = some q) :
    numDigits q.value.coeff ≤ calcContext.prec := by
  obtain ⟨r, hr, heq⟩ := List.mem_map.mp (Dict.mem_of_get? hq)
  obtain ⟨m, -, hm⟩ := mem_of_forall₂_left h hr
  cases heq
  exact hm.digits

/-- A value is checked against zero. -/
theorem check_nonNegative {amb : AmbientContext} {tolerance : Option Decimal} {left : CalcResult} :
    check amb .nonNegative tolerance [left]
      = .ok (left.value, (Decimal.ofNat 0).le left.value) := rfl

/-- Two values are compared by their difference, within the tolerance. -/
theorem check_equals {amb : AmbientContext} {tolerance : Option Decimal} {left right : CalcResult} :
    check amb .equals tolerance [left, right]
      = left.quantity.combine .sub right.quantity >>= fun residual =>
        ambientAbs amb residual.value >>= fun magnitude =>
          .ok (residual.value, magnitude.le (tolerance.getD (Decimal.ofNat 0))) := rfl

theorem check_lessOrEqual {amb : AmbientContext} {tolerance : Option Decimal}
    {left right : CalcResult} :
    check amb .lessOrEqual tolerance [left, right]
      = left.quantity.combine .sub right.quantity >>= fun residual =>
          .ok (residual.value, residual.value.le (Decimal.ofNat 0)) := rfl

theorem check_greaterOrEqual {amb : AmbientContext} {tolerance : Option Decimal}
    {left right : CalcResult} :
    check amb .greaterOrEqual tolerance [left, right]
      = left.quantity.combine .sub right.quantity >>= fun residual =>
          .ok (residual.value, (Decimal.ofNat 0).le residual.value) := rfl

/-- A check returns a decimal within the digits of the engine. -/
theorem check_yields {amb : AmbientContext} {op : CheckOp}
    (hamb : op = .equals → amb.KeepsMagnitudes) {tolerance : Option Decimal} {u : TypedUnit}
    (hlen : inputs.length = op.arity)
    (hin : ∀ r ∈ inputs, r.unit = u ∧ numDigits r.value.coeff ≤ calcContext.prec) :
    (check amb op tolerance inputs).Yields
      (fun p => numDigits p.1.coeff ≤ calcContext.prec) (SoundError g) := by
  -- the residual of the two operands, for the three checks that have one
  have hresidual : ∀ {left right : CalcResult}, left ∈ inputs → right ∈ inputs →
      (left.quantity.combine .sub right.quantity).Yields
        (fun q => Fits q.value) (SoundError g) := by
    intro left right hl hr
    have hunit : Operator.unit .sub left.quantity.unit right.quantity.unit = .ok u := by
      simp [Operator.unit, TypedUnit.sub, CalcResult.quantity, (hin left hl).1, (hin right hr).1]
    exact ((combine_yields hunit).weaken soundError_of_isArithmetic).mono
      (fun q hq _ => fits_of_subtract (Quantity.combine_eq_ok_iff.mp hq).1)
  cases op with
  | nonNegative =>
      obtain ⟨left, rfl⟩ := List.length_eq_one_iff.mp hlen
      rw [check_nonNegative]
      exact (hin left List.mem_cons_self).2
  | equals =>
      obtain ⟨left, right, rfl⟩ := List.length_eq_two.mp hlen
      rw [check_equals]
      refine Except.Yields.bind (hresidual (by simp) (by simp)) (fun q _ hq => ?_)
      obtain ⟨r, hr⟩ := hamb rfl q.value hq
      simp only [ambientAbs, hr, Except.ok_bind]
      exact hq.digits
  | lessOrEqual =>
      obtain ⟨left, right, rfl⟩ := List.length_eq_two.mp hlen
      rw [check_lessOrEqual]
      exact Except.Yields.bind (hresidual (by simp) (by simp)) (fun q _ hq => hq.digits)
  | greaterOrEqual =>
      obtain ⟨left, right, rfl⟩ := List.length_eq_two.mp hlen
      rw [check_greaterOrEqual]
      exact Except.Yields.bind (hresidual (by simp) (by simp)) (fun q _ hq => hq.digits)

/-- The quantum of a rounding is declared, or that of the currency. -/
theorem quantumOf_yields {amb : AmbientContext} {quantum : Option Decimal}
    (hcur : quantum = none → n.unit.kind = .currency)
    (hdig : ∀ q ∈ quantum, numDigits q.coeff ≤ calcContext.prec) :
    (quantumOf amb n quantum).Yields (fun q => numDigits q.coeff ≤ calcContext.prec)
      (SoundError g) := by
  cases quantum with
  | some q => exact hdig q rfl
  | none =>
      obtain ⟨code, hcode⟩ := TypedUnit.currency_isSome (hcur rfl)
      simp only [quantumOf, hcode, minorUnitQuantum_eq]
      cases minorUnits code with
      | none => exact Except.yields_error trivial
      | some k =>
          have hone : numDigits 1 ≤ calcContext.prec := by decide
          exact Except.yields_ok hone

/-- Rounding keeps the unit, or raises a sound error. -/
theorem quantize_yields {a : Quantity} {quantum : Decimal}
    (hq : numDigits quantum.coeff ≤ calcContext.prec) :
    (a.quantize quantum).Yields (Quantity.Typed a.unit) (SoundError g) := by
  cases h : a.quantize quantum with
  | ok r =>
      obtain ⟨hv, hu⟩ := (Quantity.quantize_eq_ok_iff hq).mp h
      exact Except.yields_ok ⟨hu, calcContext.quantize_numDigits hv⟩
  | error e =>
      rw [Quantity.quantize_error hq h]
      exact Except.yields_error trivial

theorem inputAt_zero {r : CalcResult} {rs : List CalcResult} : inputAt (r :: rs) 0 = .ok r := rfl

/-- What the type check says about the units of a node and of its inputs. -/
def UnitsOk (n : Node) (ms : List Node) : Prop :=
  match n.body with
  | .operationalDriver _ | .reportedFinancialOutput _ _ _ => ∀ m ∈ ms.take 1, m.unit = n.unit
  | .expressionFormula ast _ _ =>
    inferFormulaUnit ast (ms.map (fun p => (p.nodeId, p.unit))) = .ok n.unit
  | .formula op _ _ => formulaUnit op (ms.map (fun p => p.unit)) = .ok n.unit
  | .aggregation _ _ | .validationCheck _ _ _ => ∀ m ∈ ms, m.unit = n.unit
  | _ => True

/-- A node that is accepted combines the units of its inputs. -/
theorem unitsOk_of_checkNodeTypes (h : checkNodeTypes n ms = .ok ()) : UnitsOk n ms := by
  unfold checkNodeTypes at h
  unfold UnitsOk
  cases hb : n.body with
  | operationalDriver seed =>
      simp only [hb, Except.forM_eq_ok_iff, Except.bind_eq_ok_iff, requireUnit_eq_ok_iff,
        exists_const] at h
      exact fun m hm => (h m hm).1
  | reportedFinancialOutput source metricId quantum =>
      simp only [hb, Except.forM_eq_ok_iff, Except.bind_eq_ok_iff, requireUnit_eq_ok_iff,
        exists_const] at h
      exact fun m hm => (h m hm).1
  | expressionFormula ast version grammar =>
      simp only [hb, Except.bind_eq_ok_iff, requireUnit_eq_ok_iff] at h
      obtain ⟨-, -, u, hu, rfl⟩ := h
      exact hu
  | formula op operands version =>
      simp only [hb, Except.bind_eq_ok_iff, requireUnit_eq_ok_iff] at h
      obtain ⟨-, -, u, hu, rfl⟩ := h
      exact hu
  | aggregation op operands =>
      cases op <;>
        simp only [hb, Except.bind_eq_ok_iff, Except.forM_eq_ok_iff, requireUnit_eq_ok_iff,
          exists_const] at h <;>
        exact h.1
  | validationCheck op operands tolerance =>
      simp only [hb, Except.forM_eq_ok_iff, Except.bind_eq_ok_iff, requireUnit_eq_ok_iff,
        exists_const] at h
      exact fun m hm => (h m hm).1
  | _ => trivial

/-- A derived node has references. -/
theorem refs_ne_nil_of_derived (h : n.provenance = .derived) : n.refs ≠ [] := by
  have hbody := n.bodyOk
  unfold NodeFields.BodyOk at hbody
  unfold NodeFields.provenance at h
  unfold NodeFields.refs
  cases hb : n.body with
  | sourceFact _ _ _ _ => simp [hb, NodeBody.provenance] at h
  | analystAssumption _ _ _ => simp [hb, NodeBody.provenance] at h
  | forecastModelOutput _ _ _ _ _ => simp [hb, NodeBody.provenance] at h
  | scenarioOverride _ _ _ _ _ => simp [hb, NodeBody.provenance] at h
  | operationalDriver seed => simp [NodeBody.refs]
  | reportedFinancialOutput _ _ _ => simp [NodeBody.refs]
  | expressionFormula ast _ _ =>
      rw [hb] at hbody
      rw [NodeBody.refs, ne_eq, NodeFields.fromKeys_eq_nil]
      exact hbody.2.2.1
  | formula op operands _ =>
      rw [hb] at hbody
      rintro rfl
      simpa using hbody.1.minimum_le
  | validationCheck op operands _ =>
      rw [hb] at hbody
      rintro rfl
      have := hbody.1.minimum_le
      cases op <;> simp [CheckOp.arity] at this
  | aggregation op operands =>
      rw [hb] at hbody
      rintro rfl
      cases op with
      | sum => simpa using hbody.minimum_le
      | rollupYear => simpa using hbody.1.minimum_le

/-- The one input of a node with one reference. -/
theorem single_input (hin : List.Forall₂ TypedResult ms inputs) (hlen : inputs.length = 1)
    (hu : ∀ m ∈ ms.take 1, m.unit = n.unit) : ∃ r, inputs = [r] ∧ r.quantity.Typed n.unit := by
  obtain ⟨r, rfl⟩ := List.length_eq_one_iff.mp hlen
  rw [List.forall₂_cons_right_iff] at hin
  obtain ⟨m, ms, hmr, -, rfl⟩ := hin
  exact ⟨r, rfl, hmr.unit.trans (hu m (by simp)), hmr.digits⟩

/-- The quantity of a derived node. -/
theorem computeDerived_yields {amb : AmbientContext}
    (hamb : n.body.isEquality = true → amb.KeepsMagnitudes) (hderived : n.provenance = .derived)
    (hrefs : ms.map (fun m => m.nodeId) = n.refs)
    (hunits : UnitsOk n ms) (hin : List.Forall₂ TypedResult ms inputs) :
    (computeDerived amb n inputs).Yields (fun c => c.1.Typed n.unit) (SoundError g) := by
  have hbody := n.bodyOk
  have hne := refs_ne_nil_of_derived hderived
  have hlen : inputs.length = n.refs.length := by rw [← hrefs, List.length_map, hin.length_eq]
  unfold computeDerived
  unfold UnitsOk at hunits
  unfold NodeFields.BodyOk at hbody
  unfold NodeFields.refs at hlen hne
  unfold NodeFields.provenance at hderived
  cases hb : n.body with
  -- a driver passes its one input on
  | operationalDriver seed =>
      rw [hb] at hunits hlen
      obtain ⟨r, rfl, hr⟩ := single_input hin hlen hunits
      exact hr
  | expressionFormula ast version grammar =>
      rw [hb] at hunits
      have hy :=
        evaluateFormula_yields hunits (fun i _ => formula_env hin i) (formula_env_digits hin)
      exact Except.Yields.bind (hy.weaken soundError_of_isArithmetic) (fun q _ hq => hq)
  | formula op operands version =>
      rw [hb] at hunits
      exact Except.Yields.bind (foldInputs_yields hin hunits) (fun q _ hq => hq)
  -- the fold of an aggregation is a sum, so all inputs have one unit
  | aggregation op operands =>
      rw [hb] at hunits hlen hne
      have hms : ms ≠ [] := by
        rintro rfl
        rw [List.forall₂_nil_left_iff] at hin
        subst hin
        exact hne (List.length_eq_zero_iff.mp hlen.symm)
      have hu : formulaUnit .add (ms.map (fun m => m.unit)) = .ok n.unit :=
        formulaUnit_add_of_eq (by simpa using hms) (by simpa using hunits)
      exact Except.Yields.bind (foldInputs_yields hin hu) (fun q _ hq => hq)
  -- only `equals` takes an absolute value outside the calculation context
  | validationCheck op operands tolerance =>
      rw [hb] at hunits hbody hlen
      have harity : inputs.length = op.arity := hlen.trans (hbody.1.exact_length _ rfl)
      have hall : ∀ r ∈ inputs, r.unit = n.unit ∧ numDigits r.value.coeff ≤ calcContext.prec := by
        intro r hr
        obtain ⟨m, hm, hmr⟩ := mem_of_forall₂_left hin hr
        exact ⟨hmr.unit.trans (hunits m hm), hmr.digits⟩
      have hkeeps : op = .equals → amb.KeepsMagnitudes := by
        rintro rfl
        exact hamb (by rw [hb]; rfl)
      refine Except.Yields.bind (check_yields hkeeps harity hall) (fun p _ hp => ?_)
      obtain ⟨value, passed⟩ := p
      simp only [Quantity.make_eq_ok_iff.mpr ⟨hp, rfl⟩, Except.ok_bind]
      exact ⟨rfl, hp⟩
  -- an output rounds its one input to the quantum
  | reportedFinancialOutput source metricId quantum =>
      rw [hb] at hunits hbody hlen
      obtain ⟨r, rfl, hr⟩ := single_input hin hlen hunits
      refine Except.Yields.bind
        (quantumOf_yields hbody.2.2.2.1 (fun q hq => (hbody.2.2.2.2 q hq).1))
        (fun q _ hq => ?_)
      rw [inputAt_zero, Except.ok_bind]
      refine Except.Yields.bind (quantize_yields hq) (fun a _ ha => ?_)
      exact ⟨ha.1.trans hr.1, ha.2⟩
  | sourceFact _ _ _ _ => simp [hb, NodeBody.provenance] at hderived
  | analystAssumption _ _ _ => simp [hb, NodeBody.provenance] at hderived
  | forecastModelOutput _ _ _ _ _ => simp [hb, NodeBody.provenance] at hderived
  | scenarioOverride _ _ _ _ _ => simp [hb, NodeBody.provenance] at hderived

/-- A leaf has its value. -/
theorem computeLeaf_yields {value : Decimal} {availableAt : AwareDatetime} {lineage : Lineage}
    (hd : numDigits value.coeff ≤ calcContext.prec)
    (hl : lineage.make = .ok lineage) :
    (computeLeaf n value availableAt lineage).Yields (fun c => c.quantity.Typed n.unit)
      (SoundError g) := by
  rw [computeLeaf, Quantity.make_eq_ok_iff.mpr ⟨hd, rfl⟩, Except.ok_bind, hl, Except.ok_bind]
  exact ⟨rfl, hd⟩

/-- A leaf's lineage has the one field its provenance requires. -/
theorem leafLineage_ok {l : Lineage} (hp : l.present = l.provenance.expected)
    (hsafe : ∀ i ∈ l.sourceSpanId.toList ++ l.assumptionId.toList ++ l.forecastRunId.toList,
      isSafeId i = true) (hnil : l.derivedFrom = []) : l.make = .ok l :=
  Lineage.make_eq_ok_iff.mpr ⟨rfl, hp, hsafe, by simp [hnil], by simp [hnil]⟩

/-- A lineage of distinct safe identifiers is accepted. -/
theorem derivedLineage_ok {ids : List String} (hne : ids ≠ []) (hnodup : ids.Nodup)
    (hsafe : ∀ i ∈ ids, isSafeId i = true) :
    Lineage.make ⟨.derived, none, none, none, ids⟩ = .ok ⟨.derived, none, none, none, ids⟩ := by
  refine Lineage.make_eq_ok_iff.mpr ⟨rfl, ?_, by simp, hsafe, hnodup⟩
  cases ids with
  | nil => exact absurd rfl hne
  | cons i ids => rfl

/-- **Soundness of one node.** -/
theorem compute_yields {amb : AmbientContext} {cutoff : AwareDatetime}
    (hamb : n.body.isEquality = true → amb.KeepsMagnitudes) (hdated : n.body.DatedBy cutoff)
    (hrefs : ms.map (fun m => m.nodeId) = n.refs)
    (hunits : UnitsOk n ms) (hin : List.Forall₂ TypedResult ms inputs)
    (hids : (inputs.map CalcResult.resultId).Nodup) :
    (compute amb n inputs cutoff).Yields (fun c => c.quantity.Typed n.unit) (SoundError g) := by
  have hbody := n.bodyOk
  -- a derived node has inputs, so it has an availability and a lineage
  have hderived : n.provenance = .derived → (do
      let availableAt ← maxAvailable inputs
      let lineage ← Lineage.make ⟨.derived, none, none, none, inputs.map CalcResult.resultId⟩
      let derived ← computeDerived amb n inputs
      return (⟨derived.1, availableAt, lineage, derived.2.1, derived.2.2⟩ : Computed)).Yields
        (fun c => c.quantity.Typed n.unit) (SoundError g) := by
    intro hd
    have hne : inputs ≠ [] := by
      rintro rfl
      rw [List.forall₂_nil_right_iff] at hin
      subst hin
      exact refs_ne_nil_of_derived hd hrefs.symm
    obtain ⟨t, ht⟩ : ∃ t, maxAvailable inputs = .ok t := by
      cases inputs with
      | nil => exact absurd rfl hne
      | cons r rs => exact ⟨_, rfl⟩
    have hsafe : ∀ i ∈ inputs.map CalcResult.resultId, isSafeId i = true := by
      intro i hi
      obtain ⟨r, hr, rfl⟩ := List.mem_map.mp hi
      obtain ⟨m, -, hm⟩ := mem_of_forall₂_left hin hr
      exact hm.safe
    rw [ht, Except.ok_bind, derivedLineage_ok (by simpa using hne) hids hsafe, Except.ok_bind]
    exact Except.Yields.bind (computeDerived_yields hamb hd hrefs hunits hin) (fun c _ hc => hc)
  unfold compute
  unfold NodeFields.BodyOk at hbody
  unfold NodeFields.provenance at hderived
  cases hb : n.body with
  | sourceFact value asOf span factId =>
      rw [hb] at hbody hdated
      simp only [(requireAvailable_eq_ok_iff (u := ())).mpr hdated, Except.ok_bind]
      exact computeLeaf_yields hbody.1 (leafLineage_ok rfl (by simp [hbody.2.1]) rfl)
  | analystAssumption value asOf assumptionId =>
      rw [hb] at hbody hdated
      simp only [(requireAvailable_eq_ok_iff (u := ())).mpr hdated, Except.ok_bind]
      exact computeLeaf_yields hbody.1 (leafLineage_ok rfl (by simp [hbody.2]) rfl)
  | forecastModelOutput value asOf run datasetCutoff version =>
      rw [hb] at hbody hdated
      simp only [(requireAvailable_eq_ok_iff (u := ())).mpr hdated.1,
        (requireAvailable_eq_ok_iff (u := ())).mpr hdated.2, Except.ok_bind]
      exact computeLeaf_yields hbody.1 (leafLineage_ok rfl (by simp [hbody.2.1]) rfl)
  | scenarioOverride value asOf target scenarioId assumptionId =>
      rw [hb] at hbody hdated
      simp only [(requireAvailable_eq_ok_iff (u := ())).mpr hdated, Except.ok_bind]
      exact computeLeaf_yields hbody.1 (leafLineage_ok rfl (by simp [hbody.2.2.2.1]) rfl)
  | operationalDriver _ => exact hderived (by rw [hb]; rfl)
  | formula _ _ _ => exact hderived (by rw [hb]; rfl)
  | expressionFormula _ _ _ => exact hderived (by rw [hb]; rfl)
  | aggregation _ _ => exact hderived (by rw [hb]; rfl)
  | validationCheck _ _ _ => exact hderived (by rw [hb]; rfl)
  | reportedFinancialOutput _ _ _ => exact hderived (by rw [hb]; rfl)

end

end CalcEngine
