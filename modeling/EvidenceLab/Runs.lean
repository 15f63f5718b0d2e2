/-
# Runs of the evaluation

What a walk over a part of an execution plan leaves behind.

* `ModelGraph.WellFormed` is what is known of a graph that was built, with the induction over its
  plan.
* `NodeRun` and `GroupRun` are the inversions of one step: everything a step read and computed.
* `Walked` says that the results of a part of the plan solve the equations of its steps; the step
  lemma `Walked.step` carries it over one step, and `walked_of_walk` over a whole walk.
-/
import EvidenceLab.Engine

namespace CalcEngine

open Decimal (numDigits)

/-! ## The graphs that were built -/

/-- What is known of a graph that `ModelGraph.build` returned. -/
structure ModelGraph.WellFormed (g : ModelGraph) : Prop where
  refs : RefsPresent g.nodes
  conditions : PlanConditions g.nodes g.iterationGroups
  plan : PlanOk g.nodes g.iterationGroups g.executionPlan
  order_eq : g.order = planIds g.executionPlan
  byId : ∀ {i : String} {n : Node}, g.byId.get? i = some n ↔ n ∈ g.nodes ∧ n.nodeId = i
  definitions : ∀ n ∈ g.nodes, ∃ d, n.definition = .ok d ∧ g.definitions.get? n.nodeId = some d
  types : ∀ n ∈ g.nodes, ∃ inputs,
    List.Forall₂ (fun r (m : Node) => m ∈ g.nodes ∧ m.nodeId = r) n.refs inputs
      ∧ checkNodeTypes n inputs = .ok ()

/-- The order of the nodes does not change their references. -/
theorem refsOf_perm {nodes nodes' : List Node} (h : nodes.Perm nodes') (hn : (idsOf nodes).Nodup) :
    refsOf nodes = refsOf nodes' := by
  have hn' : (idsOf nodes').Nodup := (idsOf_perm h).nodup_iff.mp hn
  funext i
  by_cases hi : i ∈ idsOf nodes
  · obtain ⟨n, hm, rfl⟩ := List.mem_map.mp hi
    rw [refsOf_of_mem hn hm, refsOf_of_mem hn' (h.mem_iff.mp hm)]
  · rw [refsOf_of_not_mem hi, refsOf_of_not_mem (fun h' => hi ((idsOf_perm h).mem_iff.mpr h'))]

theorem RefsPresent.perm {nodes nodes' : List Node} (hr : RefsPresent nodes)
    (h : nodes.Perm nodes') : RefsPresent nodes' :=
  ⟨(idsOf_perm h).nodup_iff.mp hr.ids_nodup, fun n hn r hrr =>
    (idsOf_perm h).mem_iff.mp (hr.refs_mem n (h.mem_iff.mpr hn) r hrr)⟩

/-- The order of the nodes does not change whether a plan exists. -/
theorem PlanConditions.perm_nodes {nodes nodes' : List Node} {groups : List IterationGroup}
    (hc : PlanConditions nodes groups) (hn : (idsOf nodes).Nodup) (h : nodes.Perm nodes') :
    PlanConditions nodes' groups := by
  have href := refsOf_perm h hn
  refine ⟨hc.members_nodup, href ▸ hc.members_exact, hc.ids_unique, ?_, ?_, ?_⟩
  · simpa only [h.mem_iff] using hc.arithmetic
  · simpa only [h.mem_iff] using hc.seeds
  · rw [← href]
    exact fun v hv => hc.acyclic v ((idsOf_perm h).mem_iff.mpr hv)

/-- The order of the nodes does not change whether a plan is right. -/
theorem PlanOk.perm_nodes {nodes nodes' : List Node} {groups : List IterationGroup}
    {plan : List PlanStep} (hp : PlanOk nodes groups plan) (hn : (idsOf nodes).Nodup)
    (h : nodes.Perm nodes') : PlanOk nodes' groups plan :=
  ⟨hp.ids.trans (idsOf_perm h), hp.groups_mem, hp.single, refsOf_perm h hn ▸ hp.earlier,
    hp.seeds_earlier⟩

/-- The parts of a graph that was built. -/
theorem ModelGraph.build_eq_ok {nodes : List Node} {groups : List IterationGroup} {g : ModelGraph}
    (h : ModelGraph.build nodes groups = .ok g) :
    buildPlan nodes groups = .ok g.executionPlan ∧ g.nodes = sortNodes nodes
      ∧ g.iterationGroups = sortGroups groups ∧ g.order = planIds g.executionPlan
      ∧ g.byId = nodes.map (fun n => (n.nodeId, n)) ∧ checkTypes g.byId g.order = .ok ()
      ∧ (sortNodes nodes).mapM (fun n => do
          let text ← n.definition
          return (n.nodeId, text)) = .ok g.definitions
      ∧ g.dependents = (seedPairs (sortGroups groups)).foldl addSeedDependent
          (dependentsOf g.byId (sortNodes nodes)) := by
  obtain ⟨byId, hindex, h⟩ := Except.bind_eq_ok_iff.mp h
  obtain ⟨plan, hplan, h⟩ := Except.bind_eq_ok_iff.mp h
  obtain ⟨⟨⟩, htypes, h⟩ := Except.bind_eq_ok_iff.mp h
  obtain ⟨definitions, hdefs, h⟩ := Except.bind_eq_ok_iff.mp h
  rw [Except.pure_eq_ok, Except.ok.injEq] at h
  obtain ⟨-, rfl⟩ := indexNodes_eq_ok_iff.mp hindex
  rw [← h]
  exact ⟨hplan, rfl, rfl, rfl, rfl, htypes, hdefs, rfl⟩

theorem bind_return_eq_ok_iff {α β : Type} {x : Except EngineError α} {f : α → β} {b : β} :
    (do let a ← x; return f a) = .ok b ↔ ∃ a, x = .ok a ∧ f a = b := by
  simp only [Except.bind_eq_ok_iff, Except.pure_eq_ok, Except.ok.injEq]

/-- A table that is computed entry by entry has the keys of its list. -/
theorem keys_of_mapM {α : Type} {key : α → String} {β : Type} {f : α → Except EngineError β}
    {l : List α} {d : Dict String β}
    (h : l.mapM (fun a => do let b ← f a; return (key a, b)) = .ok d) :
    Dict.keys d = l.map key := by
  rw [Except.mapM_eq_ok_iff] at h
  induction h with
  | nil => rfl
  | cons hab _ ih =>
      obtain ⟨b, -, rfl⟩ := bind_return_eq_ok_iff.mp hab
      rw [List.map_cons, ← ih]
      rfl

/-- **A graph that was built is well formed.** -/
theorem ModelGraph.wellFormed_of_build {nodes : List Node} {groups : List IterationGroup}
    {g : ModelGraph} (h : ModelGraph.build nodes groups = .ok g) : g.WellFormed := by
  obtain ⟨hplan, hnodes, hgroups, horder, hbyId, htypes, hdefs, -⟩ := ModelGraph.build_eq_ok h
  have hrefs := refsPresent_of_buildPlan hplan
  have hperm : nodes.Perm g.nodes := hnodes ▸ (sortNodes_perm nodes).symm
  have hgperm : groups.Perm g.iterationGroups := hgroups ▸ (sortGroups_perm groups).symm
  have hcond := ((buildPlan_isOk_iff hrefs).mp ⟨_, hplan⟩).perm hgperm
  have hok := (planOk_of_buildPlan hplan).perm hgperm
  have hget : ∀ {i : String} {n : Node}, g.byId.get? i = some n ↔ n ∈ g.nodes ∧ n.nodeId = i := by
    intro i n
    rw [hbyId, get?_index hrefs.ids_nodup, hperm.mem_iff]
  refine ⟨hrefs.perm hperm, hcond.perm_nodes hrefs.ids_nodup hperm,
    hok.perm_nodes hrefs.ids_nodup hperm, horder, hget, ?_, ?_⟩
  · intro n hn
    have hkeys : (Dict.keys g.definitions).Nodup := by
      rw [keys_of_mapM hdefs, ← hnodes]
      exact (hrefs.perm hperm).ids_nodup
    rw [Except.mapM_eq_ok_iff, ← hnodes] at hdefs
    obtain ⟨p, hp, hdef⟩ := mem_of_forall₂_right hdefs hn
    obtain ⟨d, hd, rfl⟩ := bind_return_eq_ok_iff.mp hdef
    exact ⟨d, hd, Dict.get?_of_mem hkeys hp⟩
  · intro n hn
    rw [checkTypes, Except.forM_eq_ok_iff] at htypes
    have hmem : n.nodeId ∈ g.order := by
      rw [horder, hok.ids.mem_iff, (idsOf_perm hperm).mem_iff]
      exact List.mem_map.mpr ⟨n, hn, rfl⟩
    have hn' := htypes _ hmem
    simp only [Except.bind_eq_ok_iff, lookup_eq_ok_iff, hget] at hn'
    obtain ⟨m, ⟨hm, hid⟩, inputs, hin, hcheck⟩ := hn'
    obtain rfl : m = n := List.inj_on_of_nodup_map (hrefs.perm hperm).ids_nodup hm hn hid
    rw [Except.mapM_eq_ok_iff] at hin
    refine ⟨inputs, hin.imp ?_, hcheck⟩
    intro r k hk
    rw [lookup_eq_ok_iff, hget] at hk
    exact hk

theorem exists_mapM {α β : Type} {f : α → Except EngineError β} {l : List α}
    (h : ∀ a ∈ l, ∃ b, f a = .ok b) : ∃ bs, l.mapM f = .ok bs := by
  induction l with
  | nil => exact ⟨[], rfl⟩
  | cons a l ih =>
      rw [List.forall_mem_cons] at h
      obtain ⟨b, hb⟩ := h.1
      obtain ⟨bs, hbs⟩ := ih h.2
      exact ⟨b :: bs, by rw [List.mapM_cons, hb, Except.ok_bind, hbs]; rfl⟩

/-- A node set with a plan and types, of nodes the encoder accepts, builds. -/
theorem ModelGraph.build_isOk {nodes : List Node} {groups : List IterationGroup}
    {plan : List PlanStep} (hplan : buildPlan nodes groups = .ok plan)
    (htypes : checkTypes (nodes.map (fun n => (n.nodeId, n))) (planIds plan) = .ok ())
    (hdefs : ∀ n ∈ nodes, ∀ v ∈ n.body.fieldsPy, InDomain v) :
    ∃ g, ModelGraph.build nodes groups = .ok g ∧ g.executionPlan = plan
      ∧ g.nodes = sortNodes nodes := by
  have hrefs := refsPresent_of_buildPlan hplan
  have hindex : indexNodes nodes = .ok (nodes.map (fun n => (n.nodeId, n))) :=
    indexNodes_eq_ok_iff.mpr ⟨hrefs.ids_nodup, rfl⟩
  obtain ⟨definitions, hd⟩ : ∃ ds, (sortNodes nodes).mapM (fun n => do
      let text ← n.definition
      return (n.nodeId, text)) = .ok ds := by
    apply exists_mapM
    intro n hn
    obtain ⟨d, hd⟩ := definition_isOk_iff.mpr (hdefs n ((sortNodes_perm nodes).mem_iff.mp hn))
    exact ⟨_, by rw [hd]; rfl⟩
  rw [planIds] at htypes
  obtain ⟨g, hg⟩ : ∃ g, ModelGraph.build nodes groups = .ok g := by
    simp only [ModelGraph.build, hindex, hplan, htypes, hd, Except.ok_bind]
    exact ⟨_, rfl⟩
  obtain ⟨hplan', hnodes, -⟩ := ModelGraph.build_eq_ok hg
  rw [hplan, Except.ok.injEq] at hplan'
  exact ⟨g, hg, hplan'.symm, hnodes⟩

namespace GraphSnapshot

/-- A graph without iteration groups has a snapshot. -/
theorem build_isOk {sha : String → String} {modelId : String} {nodes : List Node} {g : ModelGraph}
    (hid : isSafeId modelId = true) (h : ModelGraph.build nodes [] = .ok g) :
    ∃ s, build sha modelId nodes none none none = .ok s ∧ s.graph = g := by
  obtain ⟨-, hnodes, hgroups, -, -, -, hdefs, -⟩ := ModelGraph.build_eq_ok h
  have hitems : InDomain (.list (g.nodes.map (fun n => n.toPy))) := by
    refine itemsInDomain_iff.mpr ?_
    intro v hv
    obtain ⟨n, hn, rfl⟩ := List.mem_map.mp hv
    rw [hnodes] at hn
    obtain ⟨p, -, hp⟩ := mem_of_forall₂_right (Except.mapM_eq_ok_iff.mp hdefs) hn
    obtain ⟨d, hd, -⟩ := bind_return_eq_ok_iff.mp hp
    exact inDomain_node.mpr (definition_isOk_iff.mp ⟨d, hd⟩)
  have hpayload : InDomain (snapshotPayload modelId 1 none none g) := by
    have hgroups' : InDomain (.list (g.iterationGroups.map (fun g => g.toPy))) := by
      rw [hgroups]
      trivial
    have hone : (1 : ℤ).natAbs < 10 ^ maxIntDigits := @natAbs_lt_of_lt 1 (by decide)
    unfold snapshotPayload
    split_ifs
    · exact ⟨by simp, ⟨_, rfl, by decide⟩, trivial, ⟨_, rfl, by decide⟩, trivial,
        ⟨_, rfl, by decide⟩, hone, ⟨_, rfl, by decide⟩, trivial, ⟨_, rfl, by decide⟩, trivial,
        ⟨_, rfl, by decide⟩, hitems, ⟨_, rfl, by decide⟩, hgroups', trivial⟩
    · exact ⟨by simp, ⟨_, rfl, by decide⟩, trivial, ⟨_, rfl, by decide⟩, trivial,
        ⟨_, rfl, by decide⟩, hone, ⟨_, rfl, by decide⟩, trivial, ⟨_, rfl, by decide⟩, trivial,
        ⟨_, rfl, by decide⟩, hitems, trivial⟩
  obtain ⟨j, -, htext⟩ := canonicalJson_ok hpayload
  refine ⟨⟨sha (String.ofList j.sortKeys.dump), modelId, 1, none, none, g⟩, ?_, rfl⟩
  rw [build, (requireSafeId_eq_ok_iff (u := ())).mpr hid, Except.ok_bind]
  simp only [groupsFor, h, Option.map_none, contentHash, htext, Except.ok_bind]
  rfl

end GraphSnapshot

namespace ModelGraph.WellFormed

variable {g : ModelGraph}

/-- A node is known by its identifier. -/
theorem node_unique (hg : g.WellFormed) {n m : Node} (hn : n ∈ g.nodes) (hm : m ∈ g.nodes)
    (h : n.nodeId = m.nodeId) : n = m :=
  List.inj_on_of_nodup_map hg.refs.ids_nodup hn hm h

/-- No node is planned twice. -/
theorem planIds_nodup (hg : g.WellFormed) : (planIds g.executionPlan).Nodup :=
  hg.plan.ids.nodup_iff.mpr hg.refs.ids_nodup

/-- A node that is a step of its own does not reference itself. -/
theorem not_self_ref (hg : g.WellFormed) {i : String} (hi : PlanStep.node i ∈ g.executionPlan) :
    i ∉ refsOf g.nodes i := by
  intro hself
  have hcyc : Relation.TransGen (fun x y => y ∈ refsOf g.nodes x) i i :=
    Relation.TransGen.single hself
  have hids : i ∈ idsOf g.nodes := by
    rw [← hg.plan.ids.mem_iff]
    exact List.mem_flatMap.mpr ⟨_, hi, List.mem_singleton_self i⟩
  obtain ⟨c, hc, hic⟩ := (condensed_componentsOf hg.refs).exists_mem hids
  have hscc : CyclicScc (refsOf g.nodes) c :=
    ⟨((condensed_componentsOf hg.refs).areComponents c hc).1, i, hcyc,
      fun w => (condensed_componentsOf hg.refs).sameScc hc hic⟩
  obtain ⟨grp, hgrp, rfl⟩ := List.mem_map.mp ((hg.conditions.members_exact c).mpr hscc)
  exact hg.plan.single i hi grp hgrp hic

/-- **Induction over a plan**: a property of nodes holds when each step has it from what the step
needs. -/
theorem induction (hg : g.WellFormed) {P : String → Prop}
    (hnode : ∀ i, PlanStep.node i ∈ g.executionPlan → (∀ y ∈ refsOf g.nodes i, P y) → P i)
    (hgroup : ∀ grp ∈ g.iterationGroups,
      (∀ x ∈ grp.members, ∀ y ∈ refsOf g.nodes x, y ∉ grp.members → P y) →
      (∀ s ∈ grp.seeds, P s.2) → ∀ x ∈ grp.members, P x) :
    ∀ i ∈ idsOf g.nodes, P i := by
  have key : ∀ A B, g.executionPlan = A ++ B → ∀ i ∈ planIds A, P i := by
    intro A
    induction A using List.reverseRecOn with
    | nil => simp [planIds]
    | append_singleton A s ih =>
        intro B heq i hi
        have hsplit : g.executionPlan = A ++ s :: B := by simpa using heq
        have hA := ih (s :: B) hsplit
        have hs : s ∈ g.executionPlan := by rw [hsplit]; simp
        rw [planIds, List.flatMap_append, List.mem_append] at hi
        rcases hi with hi | hi
        · exact hA i hi
        · have hi : i ∈ s.members := by simpa using hi
          cases s with
          | node j =>
              obtain rfl : i = j := by simpa [PlanStep.members] using hi
              apply hnode i hs
              intro y hy
              rcases hg.plan.earlier A _ B hsplit i hi y hy with hself | hy'
              · rw [PlanStep.members, List.mem_singleton] at hself
                exact absurd (hself ▸ hy) (hg.not_self_ref hs)
              · exact hA y hy'
          | group grp =>
              refine hgroup grp ((hg.plan.groups_mem grp).mp hs) ?_ ?_ i hi
              · intro x hx y hy hout
                rcases hg.plan.earlier A _ B hsplit x hx y hy with hin | hy'
                · exact absurd hin hout
                · exact hA y hy'
              · intro p hp
                exact hA _ (hg.plan.seeds_earlier A _ B hsplit p.2
                  (List.mem_map.mpr ⟨p, hp, rfl⟩))
  intro i hi
  exact key g.executionPlan [] (by simp) i (hg.plan.ids.mem_iff.mpr hi)

end ModelGraph.WellFormed

/-! ## Inversion of one step -/

/-- A result is made if its number has few enough digits. -/
theorem CalcResult.make_eq_ok_iff {r r' : CalcResult} :
    r.make = .ok r' ↔ numDigits r.value.coeff ≤ calcContext.prec ∧ r' = r := by
  simp only [CalcResult.make, Except.bind_eq_ok_iff, requireDecimal_eq_ok_iff, Except.pure_eq_ok,
    Except.ok.injEq, exists_const]
  rw [eq_comm]

/-- One node over the results `R`: what it read and what it computed. -/
structure NodeRun (amb : AmbientContext) (cutoff : AwareDatetime) (R : Dict String CalcResult)
    (n : Node) where
  inputs : List CalcResult
  computed : Computed
  definition : String
  inputs_eq : n.refs.mapM (lookup R) = .ok inputs
  computed_eq : compute amb n inputs cutoff = .ok computed
  definition_eq : n.definition = .ok definition
  digits : numDigits computed.quantity.value.coeff ≤ calcContext.prec

section

variable {amb : AmbientContext} {cutoff : AwareDatetime} {R : Dict String CalcResult} {n : Node}

/-- The result of the node. -/
def NodeRun.result (e : NodeRun amb cutoff R n) (sha : String → String) : CalcResult :=
  resultOf sha cutoff n e.inputs e.computed e.definition

/-- The text the result id is the digest of. -/
def NodeRun.text (e : NodeRun amb cutoff R n) : String :=
  material cutoff (e.inputs.map (fun p => p.resultId)) e.definition (resultSchemaOf n)

end

/-- One group over the results `R`: the parts of its iteration. -/
structure GroupRun (sha : String → String) (g : ModelGraph) (grp : IterationGroup)
    (R : Dict String CalcResult) (cutoff : AwareDatetime) where
  externalIds : List String
  parents : List CalcResult
  availableAt : AwareDatetime
  lineage : Lineage
  previous : Dict String Quantity
  external : Dict String Quantity
  converged : Converged
  record : IterationRun
  text : String
  outputs : List ((String × CalcResult) × String)
  externalIds_eq : externalRefs g.byId grp = .ok externalIds
  parents_eq : (parentIds externalIds grp).mapM (lookup R) = .ok parents
  available_eq : maxAvailable parents = .ok availableAt
  lineage_eq : Lineage.make
    ⟨.derived, none, none, none, Dict.fromKeys (parents.map (fun p => p.resultId))⟩ = .ok lineage
  previous_eq : grp.seeds.mapM (fun s => do
    let r ← lookup R s.2
    return (s.1, r.quantity)) = .ok previous
  external_eq : externalIds.mapM (fun i => do
    let r ← lookup R i
    return (i, r.quantity)) = .ok external
  converged_eq : jacobi g.byId grp external grp.maxIterations 0 previous [] = .ok converged
  record_eq : iterationRecord g grp R cutoff externalIds converged = .ok record
  text_eq : canonicalJson record.payload = .ok text
  outputs_eq : grp.members.mapM (memberResult sha g.byId (sha text) availableAt lineage
    (Dict.fromKeys (parents.map (fun p => p.resultId))) converged.current) = .ok outputs

section

variable {sha : String → String} {g : ModelGraph} {grp : IterationGroup}
  {R : Dict String CalcResult} {cutoff : AwareDatetime}

/-- What the iteration returns. -/
def GroupRun.output (p : GroupRun sha g grp R cutoff) : IterationOutput :=
  ⟨p.outputs.map Prod.fst, { p.record with runId := sha p.text }, p.text :: p.outputs.map Prod.snd⟩

/-- An iteration returned exactly when all its parts did. -/
theorem iterate_eq_ok_iff {out : IterationOutput} :
    iterate sha g grp R cutoff = .ok out ↔ ∃ p : GroupRun sha g grp R cutoff, out = p.output := by
  constructor
  · intro h
    obtain ⟨externalIds, h1, h⟩ := Except.bind_eq_ok_iff.mp h
    obtain ⟨parents, h2, h⟩ := Except.bind_eq_ok_iff.mp h
    obtain ⟨availableAt, h3, h⟩ := Except.bind_eq_ok_iff.mp h
    obtain ⟨lineage, h4, h⟩ := Except.bind_eq_ok_iff.mp h
    obtain ⟨previous, h5, h⟩ := Except.bind_eq_ok_iff.mp h
    obtain ⟨external, h6, h⟩ := Except.bind_eq_ok_iff.mp h
    obtain ⟨converged, h7, h⟩ := Except.bind_eq_ok_iff.mp h
    obtain ⟨record, h8, h⟩ := Except.bind_eq_ok_iff.mp h
    obtain ⟨text, h9, h⟩ := Except.bind_eq_ok_iff.mp h
    obtain ⟨outputs, h10, h⟩ := Except.bind_eq_ok_iff.mp h
    rw [Except.pure_eq_ok, Except.ok.injEq] at h
    exact ⟨⟨externalIds, parents, availableAt, lineage, previous, external, converged, record, text,
      outputs, h1, h2, h3, h4, h5, h6, h7, h8, h9, h10⟩, h.symm⟩
  · rintro ⟨p, rfl⟩
    rw [iterate, p.externalIds_eq, Except.ok_bind, p.parents_eq, Except.ok_bind, p.available_eq,
      Except.ok_bind, p.lineage_eq, Except.ok_bind, p.previous_eq, Except.ok_bind, p.external_eq,
      Except.ok_bind, p.converged_eq, Except.ok_bind, p.record_eq, Except.ok_bind, p.text_eq,
      Except.ok_bind, p.outputs_eq, Except.ok_bind]
    rfl

end

/-- The state after one node. -/
def EvalState.afterNode (st : EvalState) (r : CalcResult) (text : String) : EvalState where
  results := st.results.set r.nodeId r
  iterationRuns := st.iterationRuns
  failed := if r.passed = some false then st.failed ++ [r.nodeId] else st.failed
  hashed := st.hashed ++ [text]

/-- The state after one group. -/
def EvalState.afterGroup (st : EvalState) (out : IterationOutput) : EvalState where
  results := st.results.update out.outputs
  iterationRuns := st.iterationRuns.set out.run.runId out.run
  failed := st.failed
  hashed := st.hashed ++ out.hashed

section

variable {sha : String → String} {amb : AmbientContext} {g : ModelGraph} {cutoff : AwareDatetime}
  {st st' : EvalState}

/-- A node step returned exactly when its node has a result. -/
theorem evalNode_eq_ok_iff (hg : g.WellFormed) {i : String} :
    evalNode sha amb g cutoff st i = .ok st' ↔ ∃ n ∈ g.nodes, n.nodeId = i
      ∧ ∃ e : NodeRun amb cutoff st.results n, st' = st.afterNode (e.result sha) e.text := by
  simp only [evalNode, Except.bind_eq_ok_iff, lookup_eq_ok_iff, hg.byId, CalcResult.make_eq_ok_iff,
    Except.pure_eq_ok, Except.ok.injEq]
  constructor
  · rintro ⟨n, ⟨hn, rfl⟩, inputs, hin, c, hc, d, hd, r, ⟨hdig, rfl⟩, rfl⟩
    obtain ⟨d', hd', hget⟩ := hg.definitions n hn
    rw [hget, Option.some.injEq] at hd
    subst hd
    exact ⟨n, hn, rfl, ⟨inputs, c, d', hin, hc, hd', hdig⟩, rfl⟩
  · rintro ⟨n, hn, rfl, ⟨inputs, c, d, hin, hc, hd, hdig⟩, rfl⟩
    obtain ⟨d', hd', hget⟩ := hg.definitions n hn
    rw [hd, Except.ok.injEq] at hd'
    subst hd'
    exact ⟨n, ⟨hn, rfl⟩, inputs, hin, c, hc, d, hget, _, ⟨hdig, rfl⟩, rfl⟩

/-- A group is evaluated by its iteration. -/
theorem evalGroup_eq_ok_iff {grp : IterationGroup} :
    evalGroup sha g cutoff st grp = .ok st' ↔
      ∃ out, iterate sha g grp st.results cutoff = .ok out ∧ st' = st.afterGroup out := by
  simp only [evalGroup, Except.bind_eq_ok_iff, Except.pure_eq_ok, Except.ok.injEq]
  constructor
  · rintro ⟨out, h, rfl⟩
    exact ⟨out, h, rfl⟩
  · rintro ⟨out, h, rfl⟩
    exact ⟨out, h, rfl⟩

end

/-! ## More results do not change what was computed -/

/-- `R'` has everything `R` has. -/
def Extends (R R' : Dict String CalcResult) : Prop :=
  ∀ k r, R.get? k = some r → R'.get? k = some r

/-- A map that succeeds does so with any function that agrees on the values. -/
theorem mapM_congr_ok {α β : Type} {f f' : α → Except EngineError β} {l : List α} {ys : List β}
    (hf : ∀ a ∈ l, ∀ b, f a = .ok b → f' a = .ok b) (h : l.mapM f = .ok ys) :
    l.mapM f' = .ok ys := by
  rw [Except.mapM_eq_ok_iff] at h ⊢
  induction h with
  | nil => exact .nil
  | cons hab _ ih =>
      exact .cons (hf _ List.mem_cons_self _ hab)
        (ih (fun a ha => hf a (List.mem_cons_of_mem _ ha)))

section

variable {R R' : Dict String CalcResult}

/-- A longer table has the results of a shorter one. -/
theorem Extends.lookup (h : Extends R R') {i : String} {r : CalcResult}
    (hr : CalcEngine.lookup R i = .ok r) : CalcEngine.lookup R' i = .ok r := by
  rw [lookup_eq_ok_iff] at hr ⊢
  exact h i r hr

theorem Extends.lookup_return (h : Extends R R') {β : Type} {i : String} {f : CalcResult → β}
    {b : β} (hr : (do let r ← CalcEngine.lookup R i; return f r) = .ok b) :
    (do let r ← CalcEngine.lookup R' i; return f r) = .ok b := by
  rw [bind_return_eq_ok_iff] at hr ⊢
  obtain ⟨r, hr, hb⟩ := hr
  exact ⟨r, h.lookup hr, hb⟩

/-- A node run over fewer results is one over more. -/
def NodeRun.mono (h : Extends R R') {amb : AmbientContext} {cutoff : AwareDatetime} {n : Node}
    (e : NodeRun amb cutoff R n) : NodeRun amb cutoff R' n :=
  { e with inputs_eq := mapM_congr_ok (fun _ _ _ => h.lookup) e.inputs_eq }

/-- A record that can be made from some results can be made from more. -/
theorem iterationRecord_mono (h : Extends R R') {g : ModelGraph} {grp : IterationGroup}
    {cutoff : AwareDatetime} {externalIds : List String} {c : Converged} {record : IterationRun}
    (hr : iterationRecord g grp R cutoff externalIds c = .ok record) :
    iterationRecord g grp R' cutoff externalIds c = .ok record := by
  obtain ⟨definitions, h1, hr⟩ := Except.bind_eq_ok_iff.mp hr
  obtain ⟨dependencies, h2, hr⟩ := Except.bind_eq_ok_iff.mp hr
  obtain ⟨seedIds, h3, hr⟩ := Except.bind_eq_ok_iff.mp hr
  obtain ⟨externalResultIds, h4, hr⟩ := Except.bind_eq_ok_iff.mp hr
  rw [iterationRecord, h1, Except.ok_bind, h2, Except.ok_bind,
    mapM_congr_ok (fun _ _ _ => h.lookup_return) h3, Except.ok_bind,
    mapM_congr_ok (fun _ _ _ => h.lookup_return) h4, Except.ok_bind]
  exact hr

/-- A group run over fewer results is one over more. -/
def GroupRun.mono (h : Extends R R') {sha : String → String} {g : ModelGraph}
    {grp : IterationGroup} {cutoff : AwareDatetime} (p : GroupRun sha g grp R cutoff) :
    GroupRun sha g grp R' cutoff :=
  { p with
    parents_eq := mapM_congr_ok (fun _ _ _ => h.lookup) p.parents_eq
    previous_eq := mapM_congr_ok (fun _ _ _ => h.lookup_return) p.previous_eq
    external_eq := mapM_congr_ok (fun _ _ _ => h.lookup_return) p.external_eq
    record_eq := iterationRecord_mono h p.record_eq }

end

/-! ## The walk as a solution of local equations -/

/-- A text the result id of the node `i` is the digest of. -/
def IdText (g : ModelGraph) (cutoff : AwareDatetime) (i t : String) : Prop :=
  (∃ n ∈ g.nodes, n.nodeId = i ∧ ∃ ids d, n.definition = .ok d
      ∧ t = material cutoff ids d (resultSchemaOf n))
    ∨ ∃ runId, canonicalJson (iterativeIdPayload runId i) = .ok t

/-- The results of a part of the plan solve the equations of its steps. -/
structure Walked (sha : String → String) (amb : AmbientContext) (g : ModelGraph)
    (cutoff : AwareDatetime) (done : List PlanStep) (st : EvalState) : Prop where
  keys : st.results.keys = planIds done
  node : ∀ i, PlanStep.node i ∈ done → ∃ n ∈ g.nodes, n.nodeId = i
    ∧ ∃ e : NodeRun amb cutoff st.results n, st.results.get? i = some (e.result sha)
  group : ∀ grp, PlanStep.group grp ∈ done → ∃ p : GroupRun sha g grp st.results cutoff,
    ∀ m ∈ grp.members, st.results.get? m = p.output.outputs.get? m
  texts : ∀ i r, st.results.get? i = some r →
    ∃ t ∈ st.hashed, r.resultId = sha t ∧ IdText g cutoff i t

section

variable {sha : String → String} {g : ModelGraph} {cutoff : AwareDatetime}

/-- The result of a member of a group. -/
structure MemberRun (sha : String → String) (g : ModelGraph) {grp : IterationGroup}
    {R : Dict String CalcResult} {cutoff : AwareDatetime} (p : GroupRun sha g grp R cutoff)
    (m : String) where
  node : Node
  text : String
  quantity : Quantity
  node_eq : g.byId.get? m = some node
  text_eq : canonicalJson (iterativeIdPayload (sha p.text) m) = .ok text
  quantity_eq : p.converged.current.get? m = some quantity
  digits : numDigits quantity.value.coeff ≤ calcContext.prec

/-- The result of the member. -/
def MemberRun.result {grp : IterationGroup} {R : Dict String CalcResult}
    {p : GroupRun sha g grp R cutoff} {m : String} (e : MemberRun sha g p m) : CalcResult where
  resultId := sha e.text
  nodeId := m
  kind := e.node.kind
  provenance := e.node.provenance
  value := e.quantity.value
  unit := e.node.unit
  period := e.node.period
  availableAt := p.availableAt
  lineage := p.lineage
  inputResultIds := Dict.fromKeys (p.parents.map (fun p => p.resultId))
  formulaVersion := e.node.body.formulaVersion?
  passed := none
  iterationRunId := some (sha p.text)
  schema := resultSchemaV2

variable {grp : IterationGroup} {R : Dict String CalcResult}

theorem memberResult_eq_ok_iff (p : GroupRun sha g grp R cutoff) {m : String}
    {o : (String × CalcResult) × String} :
    memberResult sha g.byId (sha p.text) p.availableAt p.lineage
        (Dict.fromKeys (p.parents.map (fun p => p.resultId))) p.converged.current m = .ok o ↔
      ∃ e : MemberRun sha g p m, o = ((m, e.result), e.text) := by
  simp only [memberResult, Except.bind_eq_ok_iff, lookup_eq_ok_iff, CalcResult.make_eq_ok_iff,
    Except.pure_eq_ok, Except.ok.injEq]
  constructor
  · rintro ⟨n, hn, text, ht, q, hq, r, ⟨hdig, rfl⟩, rfl⟩
    exact ⟨⟨n, text, q, hn, ht, hq, hdig⟩, rfl⟩
  · rintro ⟨⟨n, text, q, hn, ht, hq, hdig⟩, rfl⟩
    exact ⟨n, hn, text, ht, q, hq, _, ⟨hdig, rfl⟩, rfl⟩

/-- A group computes its members. -/
theorem GroupRun.keys_outputs (p : GroupRun sha g grp R cutoff) :
    p.output.outputs.keys = grp.members := by
  have hout := Except.mapM_eq_ok_iff.mp p.outputs_eq
  simp only [GroupRun.output, Dict.keys, List.map_map]
  refine List.Forall₂.rec ?_ ?_ hout
  · rfl
  · intro m o ms os hm _ ih
    obtain ⟨e, rfl⟩ := (memberResult_eq_ok_iff p).mp hm
    rw [List.map_cons, ih]
    rfl

/-- Every member has a result. -/
theorem GroupRun.member (p : GroupRun sha g grp R cutoff) (hnodup : grp.members.Nodup) {m : String}
    (hm : m ∈ grp.members) : ∃ e : MemberRun sha g p m,
      p.output.outputs.get? m = some e.result ∧ e.text ∈ p.output.hashed := by
  obtain ⟨o, ho, hmo⟩ := mem_of_forall₂_right (Except.mapM_eq_ok_iff.mp p.outputs_eq) hm
  obtain ⟨e, rfl⟩ := (memberResult_eq_ok_iff p).mp hmo
  refine ⟨e, ?_, List.mem_cons_of_mem _ (List.mem_map.mpr ⟨_, ho, rfl⟩)⟩
  apply Dict.get?_of_mem
  · rw [p.keys_outputs]
    exact hnodup
  · exact List.mem_map.mpr ⟨_, ho, rfl⟩

end

theorem IterationGroup.members_nodup (grp : IterationGroup) : grp.members.Nodup :=
  grp.ok.members_sorted.nodup

section

variable {sha : String → String} {amb : AmbientContext} {g : ModelGraph} {cutoff : AwareDatetime}
  {done : List PlanStep} {st : EvalState}

theorem extends_append {R S : Dict String CalcResult} : Extends R (R ++ S) := by
  intro k r hr
  rw [Dict.get?_append, hr]
  rfl

/-- The step lemma of a node. -/
theorem Walked.afterNode (h : Walked sha amb g cutoff done st) {n : Node} (hn : n ∈ g.nodes)
    (hnew : n.nodeId ∉ planIds done) (e : NodeRun amb cutoff st.results n) :
    Walked sha amb g cutoff (done ++ [.node n.nodeId]) (st.afterNode (e.result sha) e.text) := by
  have hset : (st.afterNode (e.result sha) e.text).results
      = st.results ++ [(n.nodeId, e.result sha)] := by
    apply Dict.set_of_not_mem
    rw [h.keys]
    exact hnew
  have hext : Extends st.results (st.afterNode (e.result sha) e.text).results := by
    rw [hset]
    exact extends_append
  have hself : (st.afterNode (e.result sha) e.text).results.get? n.nodeId = some (e.result sha) :=
    Dict.get?_set_self _ _ _
  refine ⟨?_, ?_, ?_, ?_⟩
  · rw [hset, Dict.keys_append, h.keys]
    simp [planIds, PlanStep.members, Dict.keys]
  · intro i hi
    rcases List.mem_append.mp hi with hi | hi
    · obtain ⟨m, hm, hid, e', he'⟩ := h.node i hi
      exact ⟨m, hm, hid, e'.mono hext, hext i _ he'⟩
    · rw [List.mem_singleton, PlanStep.node.injEq] at hi
      subst hi
      exact ⟨n, hn, rfl, e.mono hext, hself⟩
  · intro grp hgrp
    rcases List.mem_append.mp hgrp with hgrp | hgrp
    · obtain ⟨p, hp⟩ := h.group grp hgrp
      refine ⟨p.mono hext, ?_⟩
      intro m hm
      obtain ⟨e', he', -⟩ := p.member grp.members_nodup hm
      rw [hext m _ ((hp m hm).trans he')]
      exact he'.symm
    · simp at hgrp
  · intro i r hr
    by_cases hi : n.nodeId = i
    · subst hi
      rw [hself, Option.some.injEq] at hr
      subst hr
      exact ⟨e.text, List.mem_append_right _ (List.mem_singleton_self _), rfl,
        Or.inl ⟨n, hn, rfl, _, _, e.definition_eq, rfl⟩⟩
    · have hr' : st.results.get? i = some r := by
        rw [← hr]
        exact (Dict.get?_set_of_ne hi _).symm
      obtain ⟨t, ht, hid, htext⟩ := h.texts i r hr'
      exact ⟨t, List.mem_append_left _ ht, hid, htext⟩

/-- The step lemma of a group. -/
theorem Walked.afterGroup (h : Walked sha amb g cutoff done st) {grp : IterationGroup}
    (hnew : ∀ m ∈ grp.members, m ∉ planIds done) (p : GroupRun sha g grp st.results cutoff) :
    Walked sha amb g cutoff (done ++ [.group grp]) (st.afterGroup p.output) := by
  -- the members are new, so their results are appended
  have hset : (st.afterGroup p.output).results = st.results ++ p.output.outputs := by
    apply Dict.update_of_disjoint
    · rw [p.keys_outputs]
      exact grp.members_nodup
    · rw [p.keys_outputs, h.keys]
      exact hnew
  have hext : Extends st.results (st.afterGroup p.output).results := by
    rw [hset]
    exact extends_append
  -- a member has its result from the group
  have hmember : ∀ m ∈ grp.members,
      (st.afterGroup p.output).results.get? m = p.output.outputs.get? m := by
    intro m hm
    have hnone : st.results.get? m = none := by
      rw [Dict.get?_eq_none_iff, h.keys]
      exact hnew m hm
    rw [hset, Dict.get?_append, hnone, Option.none_or]
  refine ⟨?_, ?_, ?_, ?_⟩
  · rw [hset, Dict.keys_append, h.keys, p.keys_outputs]
    simp [planIds, PlanStep.members]
  · -- the nodes
    intro i hi
    rcases List.mem_append.mp hi with hi | hi
    · obtain ⟨m, hm, hid, e', he'⟩ := h.node i hi
      exact ⟨m, hm, hid, e'.mono hext, hext i _ he'⟩
    · simp at hi
  · -- the groups
    intro grp' hgrp
    rcases List.mem_append.mp hgrp with hgrp | hgrp
    · obtain ⟨p', hp'⟩ := h.group grp' hgrp
      refine ⟨p'.mono hext, ?_⟩
      intro m hm
      obtain ⟨e', he', -⟩ := p'.member grp'.members_nodup hm
      rw [hext m _ ((hp' m hm).trans he')]
      exact he'.symm
    · rw [List.mem_singleton, PlanStep.group.injEq] at hgrp
      subst hgrp
      exact ⟨p.mono hext, hmember⟩
  · -- the texts
    intro i r hr
    by_cases hi : i ∈ grp.members
    · obtain ⟨e, he, htext⟩ := p.member grp.members_nodup hi
      rw [hmember i hi, he, Option.some.injEq] at hr
      subst hr
      exact ⟨e.text, List.mem_append_right _ htext, rfl, Or.inr ⟨_, e.text_eq⟩⟩
    · have hr' : st.results.get? i = some r := by
        rw [hset, Dict.get?_append, Option.or_eq_some_iff] at hr
        rcases hr with hr | ⟨-, hr⟩
        · exact hr
        · have := Dict.mem_keys_of_get? hr
          rw [p.keys_outputs] at this
          exact absurd this hi
      obtain ⟨t, ht, hid, htext⟩ := h.texts i r hr'
      exact ⟨t, List.mem_append_left _ ht, hid, htext⟩

/-- A plan is walked step by step. -/
theorem walk_append_singleton {s : PlanStep} :
    walk sha amb g cutoff (done ++ [s])
      = walk sha amb g cutoff done >>= fun st => evalStep sha amb g cutoff st s := by
  rw [walk, List.foldlM_append, walk]
  congr 1
  funext st
  exact bind_pure _

/-- Nothing has been computed before the first step. -/
theorem Walked.initial : Walked sha amb g cutoff [] EvalState.initial :=
  ⟨rfl, by simp, by simp, by simp [EvalState.initial]⟩

/-- A step inside the plan comes after none of its own nodes. -/
theorem ModelGraph.WellFormed.not_mem_done (hg : g.WellFormed) {s : PlanStep}
    {rest : List PlanStep} (hplan : done ++ s :: rest = g.executionPlan) {m : String}
    (hm : m ∈ s.members) : m ∉ planIds done := by
  have hnodup := hg.planIds_nodup
  rw [← hplan, planIds, List.flatMap_append, List.nodup_append] at hnodup
  intro hdone
  exact hnodup.2.2 m hdone m (List.mem_flatMap.mpr ⟨s, List.mem_cons_self, hm⟩) rfl

/-- **The step lemma.** -/
theorem Walked.step (hg : g.WellFormed) {s : PlanStep} {rest : List PlanStep} {st' : EvalState}
    (hplan : done ++ s :: rest = g.executionPlan) (h : Walked sha amb g cutoff done st)
    (hs : evalStep sha amb g cutoff st s = .ok st') :
    Walked sha amb g cutoff (done ++ [s]) st' := by
  cases s with
  | node i =>
      obtain ⟨n, hn, rfl, e, rfl⟩ := (evalNode_eq_ok_iff hg).mp hs
      exact h.afterNode hn (hg.not_mem_done hplan (List.mem_singleton_self _)) e
  | group grp =>
      obtain ⟨out, hout, rfl⟩ := evalGroup_eq_ok_iff.mp hs
      obtain ⟨p, rfl⟩ := iterate_eq_ok_iff.mp hout
      exact h.afterGroup (fun m hm => hg.not_mem_done hplan hm) p

/-- **The run lemma**: what the walk over a part of the plan returned. -/
theorem walked_of_walk (hg : g.WellFormed) {rest : List PlanStep}
    (hplan : done ++ rest = g.executionPlan) (h : walk sha amb g cutoff done = .ok st) :
    Walked sha amb g cutoff done st := by
  refine Except.foldlM_ok_run (Walked sha amb g cutoff) ?_ Walked.initial h
  intro d s r s₁ s₂ hd hw hs
  have hplan' : d ++ s :: (r ++ rest) = g.executionPlan := by
    rw [← hplan, ← hd]
    simp
  exact hw.step hg hplan' hs

end

/-- What an evaluation that returned went through. -/
theorem evaluate_eq_ok {sha : String → String} {amb : AmbientContext} {s : GraphSnapshot}
    {cutoff : AwareDatetime} {res : EvaluationResult}
    (h : evaluate sha amb s cutoff = .ok res) :
    ∃ cutoffUtc st, cutoff.astimezoneUtc = .ok cutoffUtc
      ∧ walk sha amb s.graph cutoffUtc s.graph.executionPlan = .ok st
      ∧ res.results = st.results ∧ res.failedChecks = st.failed := by
  obtain ⟨cutoffUtc, hcut, h⟩ := Except.bind_eq_ok_iff.mp h
  obtain ⟨st, hwalk, h⟩ := Except.bind_eq_ok_iff.mp h
  obtain ⟨ids, -, h⟩ := Except.bind_eq_ok_iff.mp h
  obtain ⟨evaluationId, -, h⟩ := Except.bind_eq_ok_iff.mp h
  rw [Except.pure_eq_ok, Except.ok.injEq] at h
  exact ⟨cutoffUtc, st, hcut, hwalk, by rw [← h], by rw [← h]⟩

end CalcEngine
