/-
# Model graphs and their execution plans

`ModelGraph.build` (`graph.py`): duplicate and dangling ids, the execution plan, the type check of
every derived node and the canonical definition of each node.

The plan is a topological order of the nodes, or, with iteration groups declared, of the strongly
connected components of the reference graph with the seeds of the groups as further prerequisites.
-/
import EvidenceLab.Iteration
import EvidenceLab.Components
import EvidenceLab.TopologicalSort

namespace CalcEngine

/-! ## Graphs -/

structure Edge where
  source : String
  target : String
  role : String
  deriving DecidableEq, Repr

/-- A step of an execution plan: a node, or a group iterated as a whole. -/
inductive PlanStep where
  | node (nodeId : String)
  | group (group : IterationGroup)

/-- The node ids of a step. -/
def PlanStep.members : PlanStep → List String
  | .node nodeId => [nodeId]
  | .group g => g.members

structure ModelGraph where
  nodes : List Node
  edges : List Edge
  order : List String
  byId : Dict String Node
  dependencies : Dict String (List String)
  dependents : Dict String (List String)
  definitions : Dict String String
  iterationGroups : List IterationGroup
  executionPlan : List PlanStep

/-- `ModelGraph.uses_v2`. -/
def ModelGraph.usesV2 (g : ModelGraph) : Bool :=
  !g.iterationGroups.isEmpty || g.nodes.any (fun n => n.body.isExpression)

/-- `d[k]`. -/
def lookup {α : Type} (d : Dict String α) (k : String) : Except EngineError α :=
  match d.get? k with
  | some a => .ok a
  | none => .error (.keyError k)

/-- `d[k]` for the lists of a graph, where every key is present. -/
def listAt (d : Dict String (List String)) (k : String) : List String := (d.get? k).getD []

/-! ## Cycles reported in errors -/

/-- The search of `_find_cycle` from one start: an entry of the stack is a node with the
dependencies still to examine. -/
def searchCycle (remaining : List String) (out : String → List String) :
    ℕ → List String → List (String × List String) → Option (List String) × List String
  | 0, visited, _ => (none, visited)
  | _ + 1, visited, [] => (none, visited)
  | n + 1, visited, (_, []) :: rest => searchCycle remaining out n visited rest
  | n + 1, visited, (v, d :: ds) :: rest =>
    if d ∉ remaining then searchCycle remaining out n visited ((v, ds) :: rest)
    else if d ∈ v :: rest.map Prod.fst then
      (some (((v :: rest.map Prod.fst).takeWhile (· ≠ d) ++ [d]).reverse ++ [d]), visited)
    else if d ∈ visited then searchCycle remaining out n visited ((v, ds) :: rest)
    else searchCycle remaining out n (d :: visited) ((d, out d) :: (v, ds) :: rest)

/-- The starts of `_find_cycle`, in order. -/
def findCycleFrom (remaining : List String) (out : String → List String) :
    List String → List String → List String
  | [], _ => remaining.insertionSort (· ≤ ·)
  | start :: starts, visited =>
    if start ∈ visited then findCycleFrom remaining out starts visited
    else
      match searchCycle remaining out (Components.fuel remaining out + 1) (start :: visited)
          [(start, out start)] with
      | (some path, _) => path
      | (none, visited) => findCycleFrom remaining out starts visited

/-- `_find_cycle`. -/
def findCycle (remaining : List String) (out : String → List String) : List String :=
  findCycleFrom remaining out (remaining.insertionSort (· ≤ ·)) []

/-! ## Plans -/

/-- `_topological_order`. -/
def topologicalOrder (vertices : List String) (out inn : String → List String) :
    Except EngineError (List String) :=
  let s := TopologicalSort.kahn vertices out inn
  if s.order.length = vertices.length then .ok s.order
  else .error (.cycle (findCycle ((s.indegree.filter (fun p => 0 < p.2)).map Prod.fst) out))

/-- A component with more than one node, or with a node that references itself. -/
def isCyclic (out : String → List String) (members : List String) : Bool :=
  match members with
  | [] => false
  | [v] => decide (v ∈ out v)
  | _ => true

/-- `_require_unit`. -/
def requireUnit (node : Node) (computed : TypedUnit) : Except EngineError Unit :=
  Except.raiseIf (computed ≠ node.unit)
    (.unit (node.nodeId ++ ": declared " ++ node.unit.key ++ " but inputs compute "
      ++ computed.key))

/-- `_require_same_period`. -/
def requireSamePeriod (node other : Node) : Except EngineError Unit :=
  Except.raiseIf (other.period ≠ node.period)
    (.period (node.nodeId ++ ": input " ++ other.nodeId ++ " is " ++ other.period.key
      ++ ", expected " ++ node.period.key))

/-- `_require_period_kind`. -/
def requirePeriodKind (node other : Node) : Except EngineError Unit :=
  Except.raiseIf (other.period.kind ≠ node.period.kind)
    (.period (node.nodeId ++ ": input " ++ other.nodeId ++ " is a " ++ other.period.kind.text
      ++ ", expected a " ++ node.period.kind.text))

/-- The checks `_iteration_plan` makes on one member and its seed. -/
def checkSeed (byId : Dict String Node) (group : IterationGroup) (pair : String × String) :
    Except EngineError Unit := do
  let node ← lookup byId pair.1
  Except.raiseIf (node.body.isArithmetic = false)
    (.iterationPolicy "only arithmetic formula nodes may iterate")
  match byId.get? pair.2 with
  | none => .error (.missingInput pair.2 "missing iteration seed")
  | some seed => do
    Except.raiseIf (pair.2 ∈ group.members) (.iterationPolicy "iteration seeds must be external")
    requireUnit node seed.unit
    requireSamePeriod node seed

/-- One declared group: new, exactly a cyclic component, with valid seeds.  The state is the list
of groups declared so far. -/
def declareGroup (byId : Dict String Node) (cyclic : List (List String))
    (declared : List IterationGroup) (group : IterationGroup) :
    Except EngineError (List IterationGroup) := do
  Except.raiseIf
    (group.groupId ∈ declared.map (fun g => g.groupId) ∨
      group.members ∈ declared.map (fun g => g.members))
    (.iterationPolicy "duplicate iteration group")
  Except.raiseIf (group.members ∉ cyclic)
    (.iterationPolicy "group must match exactly one cyclic SCC")
  group.seeds.forM (checkSeed byId group)
  return declared ++ [group]

/-- The first node of a component, the key of its step. -/
def componentKey (members : List String) : String := members.headD ""

/-- `component_of`. -/
def componentOf (components : List (List String)) : Dict String String :=
  components.flatMap (fun members => members.map (fun m => (m, componentKey members)))

/-- The group declared for a component. -/
def groupOf (declared : List IterationGroup) (members : List String) : Option IterationGroup :=
  declared.find? (fun g => g.members = members)

/-- The components a component has to wait for: those of its external references and of its
seeds. -/
def prerequisitesOf (components : List (List String)) (out : String → List String)
    (declared : List IterationGroup) (members : List String) : List String :=
  let keyOf := fun ref => ((componentOf components).get? ref).getD ref
  let parents := ((members.flatMap out).map keyOf).filter (fun k => k ≠ componentKey members)
  let seeds := match groupOf declared members with
    | some g => g.seeds.map (fun s => keyOf s.2)
    | none => []
  (Dict.fromKeys (parents ++ seeds)).insertionSort (· ≤ ·)

/-- The step of a component. -/
def stepOf (declared : List IterationGroup) (members : List String) : PlanStep :=
  match groupOf declared members with
  | some g => .group g
  | none => .node (componentKey members)

/-- The value of the item with the given key. -/
def byKey {α : Type} (items : List (String × α)) (default : α) (key : String) : α :=
  (Dict.get? items key).getD default

/-- `_iteration_plan`. -/
def iterationPlan (byId : Dict String Node) (dependencies dependents : Dict String (List String))
    (groups : List IterationGroup) : Except EngineError (List PlanStep) := do
  let out := listAt dependencies
  let inn := listAt dependents
  let components :=
    Components.components (dependencies.keys.insertionSort (· ≤ ·)) out inn
  let cyclic := components.filter (fun c => isCyclic out c)
  let declared ← groups.foldlM (declareGroup byId cyclic) []
  let missing := cyclic.filter (fun c => c ∉ declared.map (fun g => g.members))
  match missing with
  | c :: cs => .error (.cycle (findCycle (cs.foldl min c) out))
  | [] => do
    let prerequisites := components.map (fun c =>
      (componentKey c, prerequisitesOf components out declared c))
    let successors := components.map (fun p => (componentKey p, (components.filter (fun c =>
      componentKey p ∈ prerequisitesOf components out declared c)).map componentKey))
    let steps := components.map (fun c => (componentKey c, stepOf declared c))
    let order ← (topologicalOrder (components.map componentKey) (listAt prerequisites)
      (listAt successors)).mapError
        (fun _ => .iterationPolicy "seed prerequisites create an execution cycle")
    return order.map (fun key => byKey steps (.node key) key)

/-! ## Type check -/

/-- `_formula_unit`. -/
def formulaUnit (operator : Operator) : List TypedUnit → Except EngineError TypedUnit
  | [] => .error (.indexError "list index out of range")
  | u :: us => us.foldlM operator.unit u

/-- `_OVERRIDABLE`. -/
def overridable (kind : NodeKind) : Bool :=
  kind == .analystAssumption || kind == .operationalDriver || kind == .scenarioOverride

/-- `_check_types` on one node with its inputs. -/
def checkNodeTypes (node : Node) (inputs : List Node) : Except EngineError Unit :=
  match node.body with
  | .operationalDriver _ | .reportedFinancialOutput _ _ _ =>
    (inputs.take 1).forM (fun input => do
      requireUnit node input.unit
      requireSamePeriod node input)
  | .expressionFormula ast _ _ => do
    inputs.forM (requirePeriodKind node)
    let unit ← inferFormulaUnit ast (inputs.map (fun p => (p.nodeId, p.unit)))
    requireUnit node unit
  | .formula operator _ _ => do
    inputs.forM (requirePeriodKind node)
    let unit ← formulaUnit operator (inputs.map (fun p => p.unit))
    requireUnit node unit
  | .aggregation .sum _ => do
    inputs.forM (fun operand => requireUnit node operand.unit)
    inputs.forM (requireSamePeriod node)
  | .aggregation .rollupYear _ => do
    inputs.forM (fun operand => requireUnit node operand.unit)
    Except.raiseIf (node.period.kind ≠ .year)
      (.period (node.nodeId ++ ": rollup output must be a fiscal year"))
    Except.raiseIf
      (¬ ((∀ p ∈ inputs, p.period ∈ node.period.quarters)
        ∧ ∀ q ∈ node.period.quarters, q ∈ inputs.map (fun p => p.period)))
      (.period (node.nodeId ++ ": rollup needs exactly " ++ node.period.key ++ " Q1..Q4, got "
        ++ toString (((Dict.fromKeys (inputs.map (fun p => p.period))).map
          FiscalPeriod.key).insertionSort (· ≤ ·))))
  | .validationCheck _ _ _ =>
    inputs.forM (fun operand => do
      requireUnit node operand.unit
      requirePeriodKind node operand)
  | .scenarioOverride _ _ _ _ _ =>
    (inputs.take 1).forM (fun target => do
      Except.raiseIf (overridable target.kind = false)
        (.scenario (node.nodeId ++ ": overrides may target assumptions, drivers or "
          ++ "earlier overrides, not " ++ target.kind.text))
      requireUnit node target.unit
      requireSamePeriod node target)
  | _ => .ok ()

/-- `_check_types`. -/
def checkTypes (byId : Dict String Node) (order : List String) : Except EngineError Unit :=
  order.forM (fun nodeId => do
    let node ← lookup byId nodeId
    let inputs ← node.refs.mapM (lookup byId)
    checkNodeTypes node inputs)

/-! ## Construction -/

/-- One more node; a repeated id is refused. -/
def addNode (byId : Dict String Node) (node : Node) : Except EngineError (Dict String Node) := do
  Except.raiseIf (node.nodeId ∈ byId.keys)
    (.graph ("duplicate node id '" ++ node.nodeId ++ "'"))
  return byId.set node.nodeId node

/-- The dictionary of the nodes by id. -/
def indexNodes (nodes : List Node) : Except EngineError (Dict String Node) :=
  nodes.foldlM addNode []

/-- Every input of a node is in the graph. -/
def checkInputs (byId : Dict String Node) (node : Node) : Except EngineError Unit :=
  node.inputs.forM (fun input =>
    Except.raiseIf (input.2 ∉ Dict.keys byId)
      (.missingInput input.2 (node.nodeId ++ ": input '" ++ input.2 ++ "' (" ++ input.1
        ++ ") is not in the graph")))

/-- The nodes in the order of their ids. -/
def sortNodes (nodes : List Node) : List Node :=
  nodes.insertionSort (fun a b => a.nodeId ≤ b.nodeId)

/-- The reference lists of the nodes. -/
def dependenciesOf (sorted : List Node) : Dict String (List String) :=
  sorted.map (fun n => (n.nodeId, n.refs))

/-- For each node the nodes that reference it; references are distinct, so each once. -/
def dependentsOf (byId : Dict String Node) (sorted : List Node) : Dict String (List String) :=
  (Dict.keys byId).map (fun k =>
    (k, (sorted.filter (fun n => k ∈ n.refs)).map (fun n => n.nodeId)))

/-- The groups in the order of their ids. -/
def sortGroups (groups : List IterationGroup) : List IterationGroup :=
  groups.insertionSort (fun a b => a.groupId ≤ b.groupId)

/-- The plan of a graph: a topological order, or the plan of the declared groups. -/
def executionPlan (byId : Dict String Node) (dependencies dependents : Dict String (List String))
    (groups : List IterationGroup) : Except EngineError (List PlanStep) :=
  if groups = [] then do
    let order ← topologicalOrder (Dict.keys dependencies) (listAt dependencies) (listAt dependents)
    return order.map PlanStep.node
  else iterationPlan byId dependencies dependents groups

/-- The seed edges of the groups, as pairs of a member and its seed. -/
def seedPairs (groups : List IterationGroup) : List (String × String) :=
  groups.flatMap (fun g => g.seeds)

/-- A seed becomes a dependency of its member. -/
def addSeedDependency (dependencies : Dict String (List String)) (pair : String × String) :
    Dict String (List String) :=
  dependencies.set pair.1 (Dict.fromKeys (listAt dependencies pair.1 ++ [pair.2]))

/-- A member becomes a dependent of its seed. -/
def addSeedDependent (dependents : Dict String (List String)) (pair : String × String) :
    Dict String (List String) :=
  if pair.1 ∈ listAt dependents pair.2 then dependents
  else dependents.set pair.2 (listAt dependents pair.2 ++ [pair.1])

/-- The part of `ModelGraph.build` before the type check: the index, the sorted nodes and the
plan. -/
def buildPlan (nodes : List Node) (groups : List IterationGroup) :
    Except EngineError (List PlanStep) := do
  let byId ← indexNodes nodes
  let sorted := sortNodes nodes
  sorted.forM (checkInputs byId)
  executionPlan byId (dependenciesOf sorted) (dependentsOf byId sorted) (sortGroups groups)

/-- `ModelGraph.build`. -/
def ModelGraph.build (nodes : List Node) (groups : List IterationGroup) :
    Except EngineError ModelGraph := do
  let byId ← indexNodes nodes
  let sorted := sortNodes nodes
  let plan ← buildPlan nodes groups
  let order := plan.flatMap PlanStep.members
  checkTypes byId order
  let definitions ← sorted.mapM (fun n => do
    let text ← n.definition
    return (n.nodeId, text))
  let pairs := seedPairs (sortGroups groups)
  return {
    nodes := sorted
    edges := sorted.flatMap (fun n => n.inputs.map (fun i => ⟨i.2, n.nodeId, i.1⟩))
      ++ pairs.map (fun p => ⟨p.2, p.1, "iteration_seed"⟩)
    order := order
    byId := byId
    dependencies := pairs.foldl addSeedDependency (dependenciesOf sorted)
    dependents := pairs.foldl addSeedDependent (dependentsOf byId sorted)
    definitions := definitions
    iterationGroups := sortGroups groups
    executionPlan := plan }

end CalcEngine
