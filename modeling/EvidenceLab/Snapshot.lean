/-
# Content-addressed snapshots

`GraphSnapshot` (`snapshot.py`): a model graph with the identity of its contents.  A snapshot is
built from a node set, derived from an earlier one, or made from one by replacing nodes; each way
goes through `GraphSnapshot.build`, so a snapshot's graph was accepted by `ModelGraph.build`.
-/
import EvidenceLab.Plan

namespace CalcEngine

structure GraphSnapshot where
  snapshotId : String
  modelId : String
  version : ℤ
  parentSnapshotId : Option String
  scenarioId : Option String
  graph : ModelGraph

/-- `_payload`. -/
def snapshotPayload (modelId : String) (version : ℤ) (parentSnapshotId scenarioId : Option String)
    (graph : ModelGraph) : PyValue :=
  .dict ([(.str "schema",
        .str (if graph.usesV2 then "fel-calc-snapshot/v2" else "fel-calc-snapshot/v1")),
      (.str "model_id", .str modelId),
      (.str "version", .int version),
      (.str "parent_snapshot_id", PyValue.optStr parentSnapshotId),
      (.str "scenario_id", PyValue.optStr scenarioId),
      (.str "nodes", .list (graph.nodes.map (fun n => n.toPy)))]
    ++ if graph.usesV2 then
        [(.str "iteration_groups", .list (graph.iterationGroups.map (fun g => g.toPy)))]
      else [])

namespace GraphSnapshot

/-- The policies of a new snapshot: those given, else those of the parent. -/
def groupsFor (parent : Option GraphSnapshot) (iterationGroups : Option (List IterationGroup)) :
    List IterationGroup :=
  match iterationGroups, parent with
  | none, some p => p.graph.iterationGroups
  | some groups, _ => groups
  | none, none => []

/-- `GraphSnapshot.build`. -/
def build (sha : String → String) (modelId : String) (nodes : List Node)
    (parent : Option GraphSnapshot) (scenarioId : Option String)
    (iterationGroups : Option (List IterationGroup)) : Except EngineError GraphSnapshot := do
  requireSafeId modelId "model_id" .snapshot
  scenarioId.toList.forM (fun i => requireSafeId i "scenario_id" .snapshot)
  Except.raiseIf (∃ p ∈ parent, p.modelId ≠ modelId)
    (.snapshot "a snapshot cannot derive from another model's snapshot")
  let graph ← ModelGraph.build nodes (groupsFor parent iterationGroups)
  let version := match parent with
    | none => 1
    | some p => p.version + 1
  let parentId := parent.map snapshotId
  let id ← contentHash sha (snapshotPayload modelId version parentId scenarioId graph)
  return ⟨id, modelId, version, parentId, scenarioId, graph⟩

/-- `GraphSnapshot.derive`. -/
def derive (sha : String → String) (base : GraphSnapshot) (nodes : List Node)
    (scenarioId : Option String) (iterationGroups : Option (List IterationGroup)) :
    Except EngineError GraphSnapshot :=
  build sha base.modelId nodes (some base) scenarioId iterationGroups

/-- The nodes of a snapshot with some of them replaced by id, or added. -/
def mergeNodes (nodes replacements : List Node) : List Node :=
  ((replacements.foldl (fun d n => Dict.set d n.nodeId n)
    (nodes.map (fun n => (n.nodeId, n)))).map Prod.snd)

/-- `GraphSnapshot.with_nodes`. -/
def withNodes (sha : String → String) (base : GraphSnapshot) (replacements : List Node)
    (scenarioId : Option String) (iterationGroups : Option (List IterationGroup)) :
    Except EngineError GraphSnapshot :=
  base.derive sha (mergeNodes base.graph.nodes replacements) scenarioId iterationGroups

/-- What a build returned. -/
theorem graph_of_build {sha : String → String} {modelId : String} {nodes : List Node}
    {parent : Option GraphSnapshot} {scenarioId : Option String}
    {iterationGroups : Option (List IterationGroup)} {s : GraphSnapshot}
    (h : build sha modelId nodes parent scenarioId iterationGroups = .ok s) :
    ModelGraph.build nodes (groupsFor parent iterationGroups) = .ok s.graph := by
  obtain ⟨_, -, h⟩ := Except.bind_eq_ok_iff.mp h
  obtain ⟨_, -, h⟩ := Except.bind_eq_ok_iff.mp h
  obtain ⟨_, -, h⟩ := Except.bind_eq_ok_iff.mp h
  obtain ⟨graph, hgraph, h⟩ := Except.bind_eq_ok_iff.mp h
  obtain ⟨id, -, h⟩ := Except.bind_eq_ok_iff.mp h
  rw [Except.pure_eq_ok, Except.ok.injEq] at h
  rw [← h]
  exact hgraph

end GraphSnapshot

end CalcEngine
