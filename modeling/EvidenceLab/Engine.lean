/-
# The evaluation of a snapshot

`evaluate` (`engine.py`) walks the execution plan of a snapshot once and produces one result for
each node.  A plan step is one node (`evalNode`) or one iteration group (`iterate`, the Jacobi
sweeps of a cyclic component).

The digest function is the parameter `sha`, and the decimal context of the calling thread the
parameter `amb`; the state of the walk records the texts that were hashed, which nothing reads.
-/
import EvidenceLab.Snapshot

namespace CalcEngine

open Decimal (numDigits)

/-! ## Results -/

structure CalcResult where
  resultId : String
  nodeId : String
  kind : NodeKind
  provenance : Provenance
  value : Decimal
  unit : TypedUnit
  period : FiscalPeriod
  availableAt : AwareDatetime
  lineage : Lineage
  inputResultIds : List String
  formulaVersion : Option String
  passed : Option Bool
  iterationRunId : Option String
  schema : String

/-- `CalcResult.__post_init__`. -/
def CalcResult.make (r : CalcResult) : Except EngineError CalcResult := do
  requireDecimal r.value "CalcResult.value"
  return r

/-- `CalcResult.quantity`; the digits were checked when the result was made. -/
def CalcResult.quantity (r : CalcResult) : Quantity := ⟨r.value, r.unit⟩

structure EvaluationResult where
  evaluationId : String
  snapshotId : String
  cutoff : AwareDatetime
  order : List String
  results : Dict String CalcResult
  failedChecks : List String
  iterationRuns : Dict String IterationRun
  schema : String

def resultSchema : String := "fel-calc-result/v1"

def resultSchemaV2 : String := "fel-calc-result/v2"

/-- The schema of a node's result. -/
def resultSchemaOf (node : Node) : String :=
  if node.body.isExpression then resultSchemaV2 else resultSchema

/-! ## Availability -/

/-- `t.isoformat()`. -/
def AwareDatetime.isoformat (t : AwareDatetime) : String :=
  String.ofList (Calendar.isoDateTime t.wall (Calendar.offsetText t.offset))

/-- `_require_available`. -/
def requireAvailable (nodeId : String) (stamp cutoff : AwareDatetime) (what : String) :
    Except EngineError Unit :=
  Except.raiseIf (cutoff.instant < stamp.instant)
    (.cutoffViolation (nodeId ++ ": " ++ what ++ " " ++ stamp.isoformat ++ " is after cutoff "
      ++ cutoff.isoformat))

/-- `max` of the times at which the parents were available. -/
def maxAvailable : List CalcResult → Except EngineError AwareDatetime
  | [] => .error (.valueError "max() iterable argument is empty")
  | r :: rs => .ok (rs.foldl (fun t r => t.max r.availableAt) r.availableAt)

/-! ## One node -/

/-- What `_compute` returns. -/
structure Computed where
  quantity : Quantity
  availableAt : AwareDatetime
  lineage : Lineage
  version : Option String
  passed : Option Bool

/-- `inputs[i]`. -/
def inputAt (inputs : List CalcResult) (i : ℕ) : Except EngineError CalcResult :=
  match inputs[i]? with
  | some r => .ok r
  | none => .error (.indexError "list index out of range")

/-- `_fold`, and the same loop over the operands of an aggregation. -/
def foldInputs (op : Operator) : List CalcResult → Except EngineError Quantity
  | [] => .error (.indexError "list index out of range")
  | r :: rs => rs.foldlM (fun acc parent => acc.combine op parent.quantity) r.quantity

/-- `abs(d)`, which runs in the ambient context. -/
def ambientAbs (amb : AmbientContext) (d : Decimal) : Except EngineError Decimal :=
  match amb.context.abs d with
  | .ok r => .ok r
  | .error s => .error (.decimalSignal s)

/-- `_check`. -/
def check (amb : AmbientContext) (op : CheckOp) (tolerance : Option Decimal)
    (inputs : List CalcResult) : Except EngineError (Decimal × Bool) := do
  let left ← inputAt inputs 0
  match op with
  | .nonNegative => return (left.value, (Decimal.ofNat 0).le left.value)
  | .equals => do
    let right ← inputAt inputs 1
    let residual ← left.quantity.combine .sub right.quantity
    let magnitude ← ambientAbs amb residual.value
    return (residual.value, magnitude.le (tolerance.getD (Decimal.ofNat 0)))
  | .lessOrEqual => do
    let right ← inputAt inputs 1
    let residual ← left.quantity.combine .sub right.quantity
    return (residual.value, residual.value.le (Decimal.ofNat 0))
  | .greaterOrEqual => do
    let right ← inputAt inputs 1
    let residual ← left.quantity.combine .sub right.quantity
    return (residual.value, (Decimal.ofNat 0).le residual.value)

/-- The quantum of a reported output: its own, or that of its currency. -/
def quantumOf (amb : AmbientContext) (node : Node) (quantum : Option Decimal) :
    Except EngineError Decimal :=
  match quantum, node.unit.currency with
  | some q, _ => .ok q
  | none, none => .error (.unit (node.nodeId ++ ": non-currency output without a quantum"))
  | none, some currency => minorUnitQuantum amb currency

/-- The quantity, version and verdict of a derived node. -/
def computeDerived (amb : AmbientContext) (node : Node) (inputs : List CalcResult) :
    Except EngineError (Quantity × Option String × Option Bool) :=
  match node.body with
  | .operationalDriver _ => do
    let seed ← inputAt inputs 0
    return (seed.quantity, none, none)
  | .expressionFormula ast formulaVersion _ => do
    let quantity ← evaluateFormula ast (inputs.map (fun p => (p.nodeId, p.quantity)))
    return (quantity, some formulaVersion, none)
  | .formula operator _ formulaVersion => do
    let quantity ← foldInputs operator inputs
    return (quantity, some formulaVersion, none)
  | .aggregation operator _ => do
    let total ← foldInputs .add inputs
    return (total, some operator.text, none)
  | .validationCheck op _ tolerance => do
    let (value, passed) ← check amb op tolerance inputs
    let quantity ← Quantity.make value node.unit
    return (quantity, some op.text, some passed)
  | .reportedFinancialOutput _ _ quantum => do
    let quantum ← quantumOf amb node quantum
    let source ← inputAt inputs 0
    let quantity ← source.quantity.quantize quantum
    return (quantity, none, none)
  | _ => .error (.valueType "unsupported node type")

/-- A leaf: its value, when it was available and its lineage. -/
def computeLeaf (node : Node) (value : Decimal) (availableAt : AwareDatetime) (lineage : Lineage) :
    Except EngineError Computed := do
  let quantity ← Quantity.make value node.unit
  let lineage ← lineage.make
  return ⟨quantity, availableAt, lineage, none, none⟩

/-- `_compute`. -/
def compute (amb : AmbientContext) (node : Node) (inputs : List CalcResult)
    (cutoff : AwareDatetime) : Except EngineError Computed :=
  match node.body with
  | .sourceFact value asOf sourceSpanId _ => do
    requireAvailable node.nodeId asOf cutoff "as_of"
    computeLeaf node value asOf ⟨.reported, some sourceSpanId, none, none, []⟩
  | .analystAssumption value asOf assumptionId => do
    requireAvailable node.nodeId asOf cutoff "as_of"
    computeLeaf node value asOf ⟨.assumption, none, some assumptionId, none, []⟩
  | .scenarioOverride value asOf _ _ assumptionId => do
    requireAvailable node.nodeId asOf cutoff "as_of"
    computeLeaf node value asOf ⟨.assumption, none, some assumptionId, none, []⟩
  | .forecastModelOutput value asOf forecastRunId datasetCutoff _ => do
    requireAvailable node.nodeId asOf cutoff "as_of"
    requireAvailable node.nodeId datasetCutoff cutoff "dataset_cutoff"
    computeLeaf node value (asOf.max datasetCutoff) ⟨.forecast, none, none, some forecastRunId, []⟩
  | _ => do
    let availableAt ← maxAvailable inputs
    let lineage ← Lineage.make ⟨.derived, none, none, none, inputs.map (fun p => p.resultId)⟩
    let (quantity, version, passed) ← computeDerived amb node inputs
    return ⟨quantity, availableAt, lineage, version, passed⟩

/-- `json.dumps` of a list of texts, with its default separators. -/
def dumpTexts : List String → List Char
  | [] => ['[', ']']
  | s :: ss => '['
      :: (Json.strText s ++ (ss.flatMap (fun t => ',' :: ' ' :: Json.strText t) ++ [']']))

/-- The text a node's result id is the digest of. -/
def material (cutoff : AwareDatetime) (inputIds : List String) (definition schema : String) :
    String :=
  String.ofList ("\x7b\"cutoff\":".toList
    ++ (Json.strText (String.ofList (Calendar.isoDateTimeUtc cutoff.wall))
      ++ (",\"inputs\":".toList ++ (dumpTexts inputIds
        ++ (",\"node\":".toList ++ (definition.toList
          ++ (",\"schema\":\"".toList ++ (schema.toList ++ "\"\x7d".toList))))))))

/-- The result of a node. -/
def resultOf (sha : String → String) (cutoff : AwareDatetime) (node : Node)
    (inputs : List CalcResult) (c : Computed) (definition : String) : CalcResult where
  resultId := sha (material cutoff (inputs.map (fun p => p.resultId)) definition
    (resultSchemaOf node))
  nodeId := node.nodeId
  kind := node.kind
  provenance := node.provenance
  value := c.quantity.value
  unit := c.quantity.unit
  period := node.period
  availableAt := c.availableAt
  lineage := c.lineage
  inputResultIds := inputs.map (fun p => p.resultId)
  formulaVersion := c.version
  passed := c.passed
  iterationRunId := none
  schema := resultSchemaOf node

/-! ## One group -/

/-- A member of a group over the values of the last sweep. -/
def sweepMember (byId : Dict String Node) (inputs : Dict String Quantity) (member : String) :
    Except EngineError Quantity := do
  let node ← lookup byId member
  match node.body with
  | .expressionFormula ast _ _ => evaluateFormula ast inputs
  | .formula operator (first :: rest) _ => do
    let quantity ← lookup inputs first
    rest.foldlM (fun acc ref => do
      let rhs ← lookup inputs ref
      acc.combine operator rhs) quantity
  -- the plan admits no other member
  | _ => .error (.indexError "tuple index out of range")

/-- One sweep: every member over the values of the last one. -/
def sweep (byId : Dict String Node) (members : List String) (inputs : Dict String Quantity) :
    Except EngineError (Dict String Quantity) :=
  members.mapM (fun member => do
    let quantity ← sweepMember byId inputs member
    return (member, quantity))

/-- An operation of the convergence test; a trapped condition becomes a `FormulaError`. -/
def convergenceOp (x : Except Decimal.Signal Decimal) : Except EngineError Decimal :=
  match x with
  | .ok d => .ok d
  | .error s => .error (.arithmetic (signalName s) "iteration convergence arithmetic failed")

/-- The convergence test of one member; the state is the residuals and the verdict so far. -/
def testMember (group : IterationGroup) (previous current : Dict String Quantity)
    (acc : Dict String Decimal × Bool) (member : String) :
    Except EngineError (Dict String Decimal × Bool) := do
  let old ← lookup previous member
  let new ← lookup current member
  let difference ← convergenceOp (calcContext.subtract new.value old.value)
  let tolerance ← lookup group.absoluteTolerances member
  -- `max` keeps its first argument unless the second is larger
  let larger :=
    if old.value.copyAbs.le new.value.copyAbs then new.value.copyAbs else old.value.copyAbs
  let scaled ← convergenceOp (calcContext.multiply group.relativeTolerance larger)
  let threshold ← convergenceOp (calcContext.add tolerance scaled)
  return (acc.1.set member difference.copyAbs, acc.2 && difference.copyAbs.le threshold)

/-- How the sweeps ended. -/
structure Converged where
  iterations : ℕ
  current : Dict String Quantity
  residuals : Dict String Decimal

/-- The sweeps: at most `fuel` more, after `completed`. -/
def jacobi (byId : Dict String Node) (group : IterationGroup) (external : Dict String Quantity) :
    ℕ → ℕ → Dict String Quantity → Dict String Decimal → Except EngineError Converged
  | 0, completed, _, residuals => .error (.iterationConvergence group.groupId completed residuals)
  | fuel + 1, completed, previous, residuals => do
    let current ← sweep byId group.members (external.update previous)
    let (residuals, converged) ←
      group.members.foldlM (testMember group previous current) (residuals, true)
    if converged then .ok ⟨completed + 1, current, residuals⟩
    else jacobi byId group external fuel (completed + 1) current residuals

/-- The references of a group to nodes outside it, sorted. -/
def externalRefs (byId : Dict String Node) (group : IterationGroup) :
    Except EngineError (List String) := do
  let refs ← group.members.mapM (fun member => do
    let node ← lookup byId member
    return node.refs)
  return (Dict.fromKeys (refs.flatten.filter (fun ref => ref ∉ group.members))).insertionSort
    (· ≤ ·)

/-- The nodes a group's results depend on, sorted: external references and seeds. -/
def parentIds (externalIds : List String) (group : IterationGroup) : List String :=
  (Dict.fromKeys (externalIds ++ group.seeds.map Prod.snd)).insertionSort (· ≤ ·)

/-- The record of a converged group, before it has its id. -/
def iterationRecord (graph : ModelGraph) (group : IterationGroup) (results : Dict String CalcResult)
    (cutoff : AwareDatetime) (externalIds : List String) (c : Converged) :
    Except EngineError IterationRun := do
  let memberDefinitions ← group.members.mapM (fun member => do
    let definition ← lookup graph.definitions member
    return (member, definition))
  let dependencies ← group.members.mapM (fun member => do
    let node ← lookup graph.byId member
    return (member, node.refs))
  let seedResultIds ← group.seeds.mapM (fun s => do
    let r ← lookup results s.2
    return (s.1, s.2, r.resultId))
  let externalResultIds ← externalIds.mapM (fun i => do
    let r ← lookup results i
    return (i, r.resultId))
  let values ← group.members.mapM (fun member => do
    let quantity ← lookup c.current member
    let node ← lookup graph.byId member
    return (member, quantity, node.period))
  return {
    runId := ""
    policy := group.toGroupFields
    memberDefinitions := memberDefinitions
    dependencies := dependencies
    seedResultIds := seedResultIds
    externalResultIds := externalResultIds
    cutoff := cutoff
    iterations := c.iterations
    values := values
    residuals := c.residuals.insertionSort (fun a b => a.1 ≤ b.1) }

/-- What the id of an iterative result is the digest of. -/
def iterativeIdPayload (runId member : String) : PyValue :=
  .dict [(.str "schema", .str "fel-calc-iterative-result/v1"), (.str "run_id", .str runId),
    (.str "node_id", .str member)]

/-- The formula version of an arithmetic node. -/
def NodeBody.formulaVersion? : NodeBody → Option String
  | .formula _ _ version => some version
  | .expressionFormula _ version _ => some version
  | _ => none

/-- The result of a member, with the text of its id. -/
def memberResult (sha : String → String) (byId : Dict String Node) (runId : String)
    (availableAt : AwareDatetime) (lineage : Lineage) (inputIds : List String)
    (current : Dict String Quantity) (member : String) :
    Except EngineError ((String × CalcResult) × String) := do
  let node ← lookup byId member
  let text ← canonicalJson (iterativeIdPayload runId member)
  let quantity ← lookup current member
  let r ← CalcResult.make {
    resultId := sha text
    nodeId := member
    kind := node.kind
    provenance := node.provenance
    value := quantity.value
    unit := node.unit
    period := node.period
    availableAt := availableAt
    lineage := lineage
    inputResultIds := inputIds
    formulaVersion := node.body.formulaVersion?
    passed := none
    iterationRunId := some runId
    schema := resultSchemaV2 }
  return ((member, r), text)

/-- What the iteration of a group returns: the results of its members, the record, and the texts
that were hashed. -/
structure IterationOutput where
  outputs : Dict String CalcResult
  run : IterationRun
  hashed : List String

/-- `_iterate`. -/
def iterate (sha : String → String) (graph : ModelGraph) (group : IterationGroup)
    (results : Dict String CalcResult) (cutoff : AwareDatetime) :
    Except EngineError IterationOutput := do
  let externalIds ← externalRefs graph.byId group
  let parents ← (parentIds externalIds group).mapM (lookup results)
  let inputIds := Dict.fromKeys (parents.map (fun p => p.resultId))
  let availableAt ← maxAvailable parents
  let lineage ← Lineage.make ⟨.derived, none, none, none, inputIds⟩
  let previous ← group.seeds.mapM (fun s => do
    let r ← lookup results s.2
    return (s.1, r.quantity))
  let external ← externalIds.mapM (fun i => do
    let r ← lookup results i
    return (i, r.quantity))
  let converged ← jacobi graph.byId group external group.maxIterations 0 previous []
  let record ← iterationRecord graph group results cutoff externalIds converged
  let text ← canonicalJson record.payload
  let outputs ← group.members.mapM (memberResult sha graph.byId (sha text) availableAt lineage
    inputIds converged.current)
  return ⟨outputs.map Prod.fst, { record with runId := sha text }, text :: outputs.map Prod.snd⟩

/-! ## The walk -/

/-- The state of the walk; `hashed` is the list of the texts hashed so far. -/
structure EvalState where
  results : Dict String CalcResult
  iterationRuns : Dict String IterationRun
  failed : List String
  hashed : List String

def EvalState.initial : EvalState := ⟨[], [], [], []⟩

/-- One node of the plan. -/
def evalNode (sha : String → String) (amb : AmbientContext) (graph : ModelGraph)
    (cutoff : AwareDatetime) (st : EvalState) (nodeId : String) : Except EngineError EvalState := do
  let node ← lookup graph.byId nodeId
  let inputs ← node.refs.mapM (lookup st.results)
  let c ← compute amb node inputs cutoff
  let definition ← lookup graph.definitions nodeId
  let r ← CalcResult.make (resultOf sha cutoff node inputs c definition)
  return {
    results := st.results.set nodeId r
    iterationRuns := st.iterationRuns
    failed := if c.passed = some false then st.failed ++ [nodeId] else st.failed
    hashed := st.hashed
      ++ [material cutoff (inputs.map (fun p => p.resultId)) definition (resultSchemaOf node)] }

/-- One group of the plan. -/
def evalGroup (sha : String → String) (graph : ModelGraph) (cutoff : AwareDatetime) (st : EvalState)
    (group : IterationGroup) : Except EngineError EvalState := do
  let out ← iterate sha graph group st.results cutoff
  return {
    results := st.results.update out.outputs
    iterationRuns := st.iterationRuns.set out.run.runId out.run
    failed := st.failed
    hashed := st.hashed ++ out.hashed }

/-- One step of the plan. -/
def evalStep (sha : String → String) (amb : AmbientContext) (graph : ModelGraph)
    (cutoff : AwareDatetime) (st : EvalState) : PlanStep → Except EngineError EvalState
  | .node nodeId => evalNode sha amb graph cutoff st nodeId
  | .group group => evalGroup sha graph cutoff st group

/-- The walk over a part of the plan. -/
def walk (sha : String → String) (amb : AmbientContext) (graph : ModelGraph)
    (cutoff : AwareDatetime) (plan : List PlanStep) : Except EngineError EvalState :=
  plan.foldlM (evalStep sha amb graph cutoff) EvalState.initial

def evaluationSchema : String := "fel-calc-evaluation/v1"

/-- The schema of an evaluation. -/
def evaluationSchemaOf (graph : ModelGraph) : String :=
  if graph.usesV2 then "fel-calc-evaluation/v2" else evaluationSchema

/-- What the id of an evaluation is the digest of. -/
def evaluationPayload (graph : ModelGraph) (snapshotId : String) (cutoff : AwareDatetime)
    (resultIds : List String) : PyValue :=
  .dict [(.str "schema", .str (evaluationSchemaOf graph)), (.str "snapshot_id", .str snapshotId),
    (.str "cutoff", .datetime cutoff), (.str "results", .list (resultIds.map PyValue.str))]

/-- `evaluate`. -/
def evaluate (sha : String → String) (amb : AmbientContext) (snapshot : GraphSnapshot)
    (cutoff : AwareDatetime) : Except EngineError EvaluationResult := do
  let cutoffUtc ← cutoff.astimezoneUtc
  let graph := snapshot.graph
  let st ← walk sha amb graph cutoffUtc graph.executionPlan
  let resultIds ← graph.order.mapM (fun i => do
    let r ← lookup st.results i
    return r.resultId)
  let evaluationId ← contentHash sha
    (evaluationPayload graph snapshot.snapshotId cutoffUtc resultIds)
  return {
    evaluationId := evaluationId
    snapshotId := snapshot.snapshotId
    cutoff := cutoffUtc
    order := graph.order
    results := st.results
    failedChecks := st.failed
    iterationRuns := st.iterationRuns
    schema := evaluationSchemaOf graph }

end CalcEngine
