/-
# The typed nodes of a model graph

The node kinds of `nodes.py`.  `NodeFields` holds what a constructor is given, `postInit` is
`__post_init__`, and a `Node` is a set of fields that passed it, so an invalid node cannot be built.

* `Node.inputs` is the single source of the dependency edges.
* `Node.definition` is the canonical JSON of a node with its label blanked, and
  `equiv_of_definition_eq` what two nodes with one definition have in common.
-/
import EvidenceLab.Formulas

namespace CalcEngine

open Decimal (numDigits)

/-! ## Enumerations -/

inductive NodeKind where
  | sourceFact
  | analystAssumption
  | operationalDriver
  | formula
  | aggregation
  | scenarioOverride
  | forecastModelOutput
  | validationCheck
  | reportedFinancialOutput
  deriving DecidableEq, Repr

def NodeKind.text : NodeKind → String
  | .sourceFact => "source_fact"
  | .analystAssumption => "analyst_assumption"
  | .operationalDriver => "operational_driver"
  | .formula => "formula"
  | .aggregation => "aggregation"
  | .scenarioOverride => "scenario_override"
  | .forecastModelOutput => "forecast_model_output"
  | .validationCheck => "validation_check"
  | .reportedFinancialOutput => "reported_financial_output"

inductive AggregationOp where
  | sum
  | rollupYear
  deriving DecidableEq, Repr

def AggregationOp.text : AggregationOp → String
  | .sum => "sum"
  | .rollupYear => "rollup_year"

inductive CheckOp where
  | equals
  | nonNegative
  | lessOrEqual
  | greaterOrEqual
  deriving DecidableEq, Repr

def CheckOp.text : CheckOp → String
  | .equals => "equals"
  | .nonNegative => "non_negative"
  | .lessOrEqual => "less_or_equal"
  | .greaterOrEqual => "greater_or_equal"

/-! ## Fields -/

/-- The fields of one node class, beyond those every node has. -/
inductive NodeBody where
  | sourceFact (value : Decimal) (asOf : AwareDatetime) (sourceSpanId : String)
      (factId : Option String)
  | analystAssumption (value : Decimal) (asOf : AwareDatetime) (assumptionId : String)
  | forecastModelOutput (value : Decimal) (asOf : AwareDatetime) (forecastRunId : String)
      (datasetCutoff : AwareDatetime) (datasetVersion : String)
  | scenarioOverride (value : Decimal) (asOf : AwareDatetime) (target scenarioId : String)
      (assumptionId : String)
  | operationalDriver (seed : String)
  | formula (operator : Operator) (operands : List String) (formulaVersion : String)
  | expressionFormula (ast : FormulaAST) (formulaVersion grammarVersion : String)
  | aggregation (operator : AggregationOp) (operands : List String)
  | validationCheck (check : CheckOp) (operands : List String) (tolerance : Option Decimal)
  | reportedFinancialOutput (source metricId : String) (quantum : Option Decimal)
  deriving DecidableEq

/-- What the constructor of a node is given. -/
structure NodeFields where
  nodeId : String
  label : String
  unit : TypedUnit
  period : FiscalPeriod
  body : NodeBody
  deriving DecidableEq

/-- `GRAMMAR_VERSION`. -/
def grammarVersion : String := "fel-formula/v1"

/-- `_node_id`. -/
def requireNodeId (value field : String) : Except EngineError Unit :=
  requireSafeId value field .nodeValidation

/-- `_operands`. -/
def checkOperands (nodeId : String) (operands : List String) (minimum : ℕ) (exact : Option ℕ) :
    Except EngineError Unit := do
  operands.forM (fun operand => requireNodeId operand "operand")
  Except.raiseIf (exact.isSome ∧ exact ≠ some operands.length)
    (.nodeValidation (nodeId ++ ": expected exactly " ++ toString (exact.getD 0)
      ++ " operands"))
  Except.raiseIf (operands.length < minimum)
    (.nodeValidation (nodeId ++ ": expected at least " ++ toString minimum ++ " operands"))
  Except.raiseIf (¬ operands.Nodup)
    (.nodeValidation (nodeId ++ ": operands must be distinct"))
  Except.raiseIf (nodeId ∈ operands)
    (.nodeValidation (nodeId ++ ": a node cannot depend on itself"))

/-- The exact operand count of a `FormulaNode`. -/
def Operator.arity : Operator → Option ℕ
  | .sub => some 2
  | .div => some 2
  | _ => none

/-- The operand count of a `ValidationCheckNode`. -/
def CheckOp.arity : CheckOp → ℕ
  | .nonNegative => 1
  | _ => 2

namespace NodeFields

/-- The own checks of each node class, after `Node.__post_init__`. -/
def postInitBody (n : NodeFields) : Except EngineError Unit :=
  match n.body with
  | .sourceFact value _ sourceSpanId factId => do
    requireDecimal value (n.nodeId ++ ".value")
    requireNodeId sourceSpanId (n.nodeId ++ ".source_span_id")
    factId.toList.forM (fun i => requireNodeId i (n.nodeId ++ ".fact_id"))
  | .analystAssumption value _ assumptionId => do
    requireDecimal value (n.nodeId ++ ".value")
    requireNodeId assumptionId (n.nodeId ++ ".assumption_id")
  | .forecastModelOutput value _ forecastRunId _ datasetVersion => do
    requireDecimal value (n.nodeId ++ ".value")
    requireNodeId forecastRunId (n.nodeId ++ ".forecast_run_id")
    requireNodeId datasetVersion (n.nodeId ++ ".dataset_version")
  | .scenarioOverride value _ target scenarioId assumptionId => do
    requireDecimal value (n.nodeId ++ ".value")
    requireNodeId target (n.nodeId ++ ".target")
    requireNodeId scenarioId (n.nodeId ++ ".scenario_id")
    requireNodeId assumptionId (n.nodeId ++ ".assumption_id")
    Except.raiseIf (target = n.nodeId)
      (.nodeValidation (n.nodeId ++ ": override cannot target itself"))
  | .operationalDriver seed => do
    requireNodeId seed (n.nodeId ++ ".seed")
    Except.raiseIf (seed = n.nodeId)
      (.nodeValidation (n.nodeId ++ ": driver cannot seed itself"))
  | .formula operator operands formulaVersion => do
    checkOperands n.nodeId operands 2 operator.arity
    requireNodeId formulaVersion (n.nodeId ++ ".formula_version")
  | .expressionFormula ast formulaVersion grammar => do
    Except.raiseIf (grammar ≠ grammarVersion)
      (.formula "unsupported formula grammar version")
    let deps ← formulaDependencies ast
    Except.raiseIf (deps = [])
      (.formula "a formula must reference at least one node")
    requireNodeId formulaVersion (n.nodeId ++ ".formula_version")
  | .aggregation .rollupYear operands => do
    checkOperands n.nodeId operands 4 (some 4)
    Except.raiseIf (n.period.kind ≠ .year)
      (.nodeValidation (n.nodeId ++ ": rollup_year output must be a FiscalYear"))
  | .aggregation .sum operands => checkOperands n.nodeId operands 1 none
  | .validationCheck check operands tolerance => do
    checkOperands n.nodeId operands check.arity (some check.arity)
    match tolerance with
    | none => pure ()
    | some t =>
      requireDecimal t (n.nodeId ++ ".tolerance")
      Except.raiseIf (¬ (Decimal.ofNat 0).le t)
        (.nodeValidation (n.nodeId ++ ": tolerance must be non-negative"))
  | .reportedFinancialOutput source metricId quantum => do
    requireNodeId source (n.nodeId ++ ".source")
    requireNodeId metricId (n.nodeId ++ ".metric_id")
    Except.raiseIf (source = n.nodeId)
      (.nodeValidation (n.nodeId ++ ": output cannot report itself"))
    match quantum with
    | none =>
      Except.raiseIf (n.unit.kind ≠ .currency)
        (.nodeValidation (n.nodeId ++ ": non-currency outputs need an explicit quantum"))
    | some q =>
      requireDecimal q (n.nodeId ++ ".quantum")
      Except.raiseIf (q.le (Decimal.ofNat 0))
        (.nodeValidation (n.nodeId ++ ": quantum must be positive"))

/-- `__post_init__`. -/
def postInit (n : NodeFields) : Except EngineError Unit := do
  requireNodeId n.nodeId "node_id"
  n.postInitBody

end NodeFields

/-- A node: fields that passed `__post_init__`. -/
structure Node extends NodeFields where
  valid : toNodeFields.postInit = .ok ()

/-- The constructor of a node class. -/
def Node.make (n : NodeFields) : Except EngineError Node :=
  match h : n.postInit with
  | .ok () => .ok ⟨n, h⟩
  | .error e => .error e

theorem Node.ext_fields {n n' : Node} (h : n.toNodeFields = n'.toNodeFields) : n = n' := by
  cases n
  cases n'
  simp_all

instance : DecidableEq Node := fun n n' =>
  decidable_of_iff (n.toNodeFields = n'.toNodeFields)
    ⟨Node.ext_fields, fun h => by rw [h]⟩

/-- A node is accepted if its fields are in order. -/
theorem Node.make_eq_ok_iff {f : NodeFields} {n : Node} :
    Node.make f = .ok n ↔ n.toNodeFields = f := by
  unfold Node.make
  split
  · rename_i h
    rw [Except.ok.injEq]
    constructor
    · rintro rfl
      rfl
    · intro hn
      exact Node.ext_fields hn.symm
  · rename_i e h
    simp only [reduceCtorEq, false_iff]
    rintro rfl
    rw [n.valid] at h
    cases h

/-! ## Kind, provenance, inputs -/

namespace NodeBody

def kind : NodeBody → NodeKind
  | .sourceFact .. => .sourceFact
  | .analystAssumption .. => .analystAssumption
  | .forecastModelOutput .. => .forecastModelOutput
  | .scenarioOverride .. => .scenarioOverride
  | .operationalDriver .. => .operationalDriver
  | .formula .. => .formula
  | .expressionFormula .. => .formula
  | .aggregation .. => .aggregation
  | .validationCheck .. => .validationCheck
  | .reportedFinancialOutput .. => .reportedFinancialOutput

def provenance : NodeBody → Provenance
  | .sourceFact .. => .reported
  | .analystAssumption .. => .assumption
  | .forecastModelOutput .. => .forecast
  | .scenarioOverride .. => .assumption
  | _ => .derived

/-- `FormulaNode | ExpressionFormulaNode`. -/
def isArithmetic : NodeBody → Bool
  | .formula .. => true
  | .expressionFormula .. => true
  | _ => false

/-- `isinstance(node, ExpressionFormulaNode)`. -/
def isExpression : NodeBody → Bool
  | .expressionFormula .. => true
  | _ => false

/-- The referenced node ids in declaration order. -/
def refs : NodeBody → List String
  | .sourceFact .. => []
  | .analystAssumption .. => []
  | .forecastModelOutput .. => []
  | .scenarioOverride _ _ target _ _ => [target]
  | .operationalDriver seed => [seed]
  | .formula _ operands _ => operands
  | .expressionFormula ast _ _ => Dict.fromKeys ast.refs
  | .aggregation _ operands => operands
  | .validationCheck _ operands _ => operands
  | .reportedFinancialOutput source _ _ => [source]

/-- The role of the `i`-th input. -/
def role (b : NodeBody) (i : ℕ) : String :=
  match b with
  | .scenarioOverride .. => "overrides"
  | .operationalDriver .. => "seed"
  | .expressionFormula .. => "reference[" ++ toString i ++ "]"
  | .reportedFinancialOutput .. => "source"
  | _ => "operand[" ++ toString i ++ "]"

/-- `Node.inputs`: role-tagged references. -/
def inputs (b : NodeBody) : List (String × String) :=
  b.refs.zipIdx.map (fun ri => (b.role ri.2, ri.1))

/-- The inputs of a node are its references. -/
theorem map_snd_inputs (b : NodeBody) : b.inputs.map Prod.snd = b.refs := by
  rw [inputs, List.map_map]
  exact List.zipIdx_map_fst 0 b.refs

end NodeBody

namespace NodeFields

abbrev kind (n : NodeFields) : NodeKind := n.body.kind

abbrev provenance (n : NodeFields) : Provenance := n.body.provenance

abbrev refs (n : NodeFields) : List String := n.body.refs

abbrev inputs (n : NodeFields) : List (String × String) := n.body.inputs

end NodeFields

/-! ## What `__post_init__` guarantees -/

/-- The operands of a valid node. -/
structure OperandsOk (nodeId : String) (operands : List String) (minimum : ℕ)
    (exact : Option ℕ) : Prop where
  safe : ∀ o ∈ operands, isSafeId o = true
  exact_length : ∀ k, exact = some k → operands.length = k
  minimum_le : minimum ≤ operands.length
  nodup : operands.Nodup
  not_self : nodeId ∉ operands

/-- Operands are accepted if they are distinct, safe and of the right number. -/
theorem checkOperands_eq_ok_iff {nodeId : String} {operands : List String} {minimum : ℕ}
    {exact : Option ℕ} {u : Unit} :
    checkOperands nodeId operands minimum exact = .ok u ↔
      OperandsOk nodeId operands minimum exact := by
  have hexact : ¬ (exact.isSome ∧ exact ≠ some operands.length) ↔
      ∀ k, exact = some k → operands.length = k := by
    cases exact with
    | none => simp
    | some k => simp [eq_comm]
  simp only [checkOperands, requireNodeId, Except.bind_eq_ok_iff, Except.raiseIf_eq_ok_iff,
    Except.forM_eq_ok_iff, requireSafeId_eq_ok_iff, exists_const, hexact, not_lt, not_not]
  constructor
  · rintro ⟨h1, h2, h3, h4, h5⟩
    exact ⟨h1, h2, h3, h4, h5⟩
  · rintro ⟨h1, h2, h3, h4, h5⟩
    exact ⟨h1, h2, h3, h4, h5⟩

namespace NodeFields

/-- What `__post_init__` of each node class checks. -/
def BodyOk (n : NodeFields) : Prop :=
  match n.body with
  | .sourceFact value _ sourceSpanId factId =>
    numDigits value.coeff ≤ calcContext.prec ∧ isSafeId sourceSpanId = true
      ∧ ∀ i ∈ factId.toList, isSafeId i = true
  | .analystAssumption value _ assumptionId =>
    numDigits value.coeff ≤ calcContext.prec ∧ isSafeId assumptionId = true
  | .forecastModelOutput value _ forecastRunId _ datasetVersion =>
    numDigits value.coeff ≤ calcContext.prec ∧ isSafeId forecastRunId = true
      ∧ isSafeId datasetVersion = true
  | .scenarioOverride value _ target scenarioId assumptionId =>
    numDigits value.coeff ≤ calcContext.prec ∧ isSafeId target = true ∧ isSafeId scenarioId = true
      ∧ isSafeId assumptionId = true ∧ target ≠ n.nodeId
  | .operationalDriver seed => isSafeId seed = true ∧ seed ≠ n.nodeId
  | .formula operator operands formulaVersion =>
    OperandsOk n.nodeId operands 2 operator.arity ∧ isSafeId formulaVersion = true
  | .expressionFormula ast formulaVersion grammar =>
    grammar = grammarVersion ∧ validateFormula ast = .ok () ∧ ast.refs ≠ []
      ∧ isSafeId formulaVersion = true
  | .aggregation .rollupYear operands =>
    OperandsOk n.nodeId operands 4 (some 4) ∧ n.period.kind = .year
  | .aggregation .sum operands => OperandsOk n.nodeId operands 1 none
  | .validationCheck check operands tolerance =>
    OperandsOk n.nodeId operands check.arity (some check.arity)
      ∧ ∀ t ∈ tolerance, numDigits t.coeff ≤ calcContext.prec ∧ 0 ≤ t.value
  | .reportedFinancialOutput source metricId quantum =>
    isSafeId source = true ∧ isSafeId metricId = true ∧ source ≠ n.nodeId
      ∧ (quantum = none → n.unit.kind = .currency)
      ∧ ∀ q ∈ quantum, numDigits q.coeff ≤ calcContext.prec ∧ 0 < q.value

theorem fromKeys_eq_nil {l : List String} : Dict.fromKeys l = [] ↔ l = [] := by
  rw [List.eq_nil_iff_forall_not_mem, List.eq_nil_iff_forall_not_mem]
  simp

/-- **What `__post_init__` accepts.** -/
theorem postInit_eq_ok_iff {n : NodeFields} {u : Unit} :
    n.postInit = .ok u ↔ isSafeId n.nodeId = true ∧ n.BodyOk := by
  have hle : ∀ t : Decimal, (Decimal.ofNat 0).le t = true ↔ 0 ≤ t.value := by
    intro t
    simp [Decimal.le_iff_value_le]
  have hle' : ∀ t : Decimal, t.le (Decimal.ofNat 0) = true ↔ t.value ≤ 0 := by
    intro t
    simp [Decimal.le_iff_value_le]
  obtain ⟨nodeId, label, unit, period, body⟩ := n
  cases body with
  | aggregation op operands =>
      cases op <;>
      simp only [postInit, postInitBody, BodyOk, requireNodeId, Except.bind_eq_ok_iff,
        Except.raiseIf_eq_ok_iff, requireSafeId_eq_ok_iff, checkOperands_eq_ok_iff, exists_const,
        ne_eq, not_not]
  | validationCheck check operands tolerance =>
      cases tolerance <;>
      simp [postInit, postInitBody, BodyOk, requireNodeId, Except.bind_eq_ok_iff,
        requireSafeId_eq_ok_iff, checkOperands_eq_ok_iff, requireDecimal_eq_ok_iff, hle]
  | reportedFinancialOutput source metricId quantum =>
      cases quantum <;>
      simp [postInit, postInitBody, BodyOk, requireNodeId, Except.bind_eq_ok_iff,
        requireSafeId_eq_ok_iff, requireDecimal_eq_ok_iff, hle']
  | expressionFormula ast formulaVersion grammar =>
      simp only [postInit, postInitBody, BodyOk, requireNodeId, formulaDependencies,
        Except.bind_eq_ok_iff, Except.raiseIf_eq_ok_iff, requireSafeId_eq_ok_iff, exists_const,
        Except.pure_eq_ok, Except.ok.injEq, ne_eq, not_not]
      constructor
      · rintro ⟨h1, h2, deps, ⟨⟨⟩, hv, rfl⟩, h3, h4⟩
        exact ⟨h1, h2, hv, by rwa [fromKeys_eq_nil] at h3, h4⟩
      · rintro ⟨h1, h2, hv, h3, h4⟩
        exact ⟨h1, h2, _, ⟨(), hv, rfl⟩, by rwa [fromKeys_eq_nil], h4⟩
  | _ =>
      simp only [postInit, postInitBody, BodyOk, requireNodeId, Except.bind_eq_ok_iff,
        Except.raiseIf_eq_ok_iff, requireSafeId_eq_ok_iff, checkOperands_eq_ok_iff,
        requireDecimal_eq_ok_iff, Except.forM_eq_ok_iff, exists_const, ne_eq]

end NodeFields

namespace Node

theorem safe_nodeId (n : Node) : isSafeId n.nodeId = true :=
  (NodeFields.postInit_eq_ok_iff.mp n.valid).1

theorem bodyOk (n : Node) : n.toNodeFields.BodyOk :=
  (NodeFields.postInit_eq_ok_iff.mp n.valid).2

/-- The references of a node are distinct. -/
theorem refs_nodup (n : Node) : n.refs.Nodup := by
  have h := n.bodyOk
  unfold NodeFields.BodyOk at h
  unfold NodeFields.refs
  cases hb : n.body with
  | aggregation op operands =>
      rw [hb] at h
      cases op with
      | sum => exact h.nodup
      | rollupYear => exact h.1.nodup
  | formula op operands v =>
      rw [hb] at h
      exact h.1.nodup
  | validationCheck check operands tolerance =>
      rw [hb] at h
      exact h.1.nodup
  | expressionFormula ast v g => exact Dict.nodup_fromKeys _
  | _ => simp [NodeBody.refs]

end Node

end CalcEngine
