/-
# Type soundness of the evaluation

A graph that builds can be evaluated.

* `walk_yields`: the walk over the plan keeps the results typed, step by step, and raises nothing
  but what arithmetic can cause.
* **`evaluate_sound_iff`**: in which ambient contexts and at which cutoffs every graph that builds
  is evaluated soundly.
-/
import EvidenceLab.GroupTyping

namespace CalcEngine

open Decimal (numDigits)

/-! ## Distinct results have distinct ids -/

section

variable {sha : String → String} {amb : AmbientContext} {g : ModelGraph} {cutoff : AwareDatetime}
  {done : List PlanStep} {st : EvalState}

/-- Results of one identifier are one where the hash has no collision. -/
theorem Walked.eq_of_resultId_eq (hw : Walked sha amb g cutoff done st)
    (hinj : Set.InjOn sha {t | t ∈ st.hashed}) {i j : String} {r r' : CalcResult}
    (hr : st.results.get? i = some r) (hr' : st.results.get? j = some r')
    (h : r.resultId = r'.resultId) : i = j := by
  obtain ⟨t, ht, hid, htext⟩ := hw.texts i r hr
  obtain ⟨t', ht', hid', htext'⟩ := hw.texts j r' hr'
  obtain rfl : t = t' := hinj ht ht' (by rw [← hid, ← hid', h])
  exact htext.unique htext'

/-- The results of typed nodes that are done. -/
theorem inputs_typed (hg : g.WellFormed) (hR : TypedResults g st.results) {ms : List Node}
    (hms : ∀ m ∈ ms, m ∈ g.nodes ∧ m.nodeId ∈ st.results.keys) :
    ∃ inputs, (ms.map (fun m => m.nodeId)).mapM (lookup st.results) = .ok inputs
      ∧ List.Forall₂ TypedResult ms inputs := by
  induction ms with
  | nil => exact ⟨[], rfl, .nil⟩
  | cons m ms ih =>
      rw [List.forall_mem_cons] at hms
      obtain ⟨r, hr⟩ := get?_of_mem_keys hms.1.2
      obtain ⟨inputs, hin, hall⟩ := ih hms.2
      refine ⟨r :: inputs, ?_, .cons (hR.typed hg hms.1.1 hr) hall⟩
      rw [List.map_cons, List.mapM_cons, lookup_eq_ok_iff.mpr hr, Except.ok_bind, hin]
      rfl

/-- The inputs of a node have distinct identifiers. -/
theorem inputIds_nodup (hw : Walked sha amb g cutoff done st)
    (hinj : Set.InjOn sha {t | t ∈ st.hashed}) {refs : List String} {inputs : List CalcResult}
    (hnodup : refs.Nodup) (hin : refs.mapM (lookup st.results) = .ok inputs) :
    (inputs.map CalcResult.resultId).Nodup := by
  rw [Except.mapM_eq_ok_iff] at hin
  induction hin with
  | nil => exact List.nodup_nil
  | cons hr hrest ih =>
      rw [List.nodup_cons] at hnodup
      rw [List.map_cons, List.nodup_cons]
      refine ⟨?_, ih hnodup.2⟩
      intro hmem
      obtain ⟨r', hr', heq⟩ := List.mem_map.mp hmem
      obtain ⟨j, hj, hlookup⟩ := mem_of_forall₂_left hrest hr'
      have := hw.eq_of_resultId_eq hinj (lookup_eq_ok_iff.mp hlookup) (lookup_eq_ok_iff.mp hr) heq
      exact hnodup.1 (this ▸ hj)

/-! ## One step -/

/-- A typed result keeps the table typed. -/
theorem typedResults_set (hR : TypedResults g st.results) {n : Node}
    (hn : n ∈ g.nodes) {r : CalcResult} (hr : TypedResult n r) :
    TypedResults g (st.results.set n.nodeId r) := by
  intro i r' hr'
  by_cases hi : n.nodeId = i
  · subst hi
    rw [Dict.get?_set_self, Option.some.injEq] at hr'
    exact ⟨n, hn, rfl, hr' ▸ hr⟩
  · rw [Dict.get?_set_of_ne hi] at hr'
    exact hR i r' hr'

/-- One node of the plan. -/
theorem evalNode_yields (hg : g.WellFormed) (hsafe : ∀ t, isSafeId (sha t) = true)
    (hw : Walked sha amb g cutoff done st) (hinj : Set.InjOn sha {t | t ∈ st.hashed})
    (hR : TypedResults g st.results) {n : Node} (hn : n ∈ g.nodes)
    (hamb : n.body.isEquality = true → amb.KeepsMagnitudes) (hdated : n.body.DatedBy cutoff)
    (hrefs : ∀ x ∈ n.refs, x ∈ st.results.keys) :
    (evalNode sha amb g cutoff st n.nodeId).Yields (fun st' => TypedResults g st'.results)
      (SoundError g) := by
  obtain ⟨ms, hids, hmem, hunits⟩ := node_inputs hg hn
  obtain ⟨inputs, hin, htyped⟩ := inputs_typed hg hR (fun m hm =>
    ⟨hmem m hm, hrefs _ (hids ▸ List.mem_map.mpr ⟨m, hm, rfl⟩)⟩)
  rw [hids] at hin
  obtain ⟨d, -, hd⟩ := hg.definitions n hn
  rw [evalNode, lookup_eq_ok_iff.mpr (hg.byId.mpr ⟨hn, rfl⟩), Except.ok_bind, hin, Except.ok_bind]
  refine Except.Yields.bind (compute_yields hamb hdated hids hunits htyped
    (inputIds_nodup hw hinj n.refs_nodup hin)) (fun c _ hc => ?_)
  rw [lookup_eq_ok_iff.mpr hd, Except.ok_bind, CalcResult.make_eq_ok_iff.mpr ⟨hc.2, rfl⟩,
    Except.ok_bind]
  exact typedResults_set hR hn ⟨rfl, hc.1, rfl, hc.2, hsafe _⟩

/-- The results of a group have the types of its members. -/
theorem GroupRun.typed (hg : g.WellFormed) (hsafe : ∀ t, isSafeId (sha t) = true)
    {grp : IterationGroup} {R : Dict String CalcResult} (p : GroupRun sha g grp R cutoff) :
    TypedResults g p.output.outputs := by
  intro i r hr
  have hi : i ∈ grp.members := p.keys_outputs ▸ Dict.mem_keys_of_get? hr
  obtain ⟨e, he, -⟩ := p.member grp.members_nodup hi
  rw [he, Option.some.injEq] at hr
  subst hr
  obtain ⟨hn, hid⟩ := hg.byId.mp e.node_eq
  exact ⟨e.node, hn, hid, hid.symm, rfl, rfl, e.digits, hsafe _⟩

/-- One group of the plan. -/
theorem evalGroup_yields (hg : g.WellFormed) (hsafe : ∀ t, isSafeId (sha t) = true)
    (hcut : cutoff.UtcRepresentable) (hR : TypedResults g st.results) {grp : IterationGroup}
    (hgrp : grp ∈ g.iterationGroups) (hnew : ∀ m ∈ grp.members, m ∉ st.results.keys)
    (hrefs : ∀ m ∈ grp.members, ∀ x ∈ refsOf g.nodes m, x ∉ grp.members → x ∈ st.results.keys)
    (hseeds : ∀ s ∈ grp.seeds, s.2 ∈ st.results.keys) :
    (evalGroup sha g cutoff st grp).Yields (fun st' => TypedResults g st'.results)
      (SoundError g) := by
  rw [evalGroup]
  refine Except.Yields.bind (iterate_yields hg hgrp hcut ⟨hR, hrefs, hseeds⟩) (fun out hout _ => ?_)
  obtain ⟨p, rfl⟩ := iterate_eq_ok_iff.mp hout
  have hset : st.results.update p.output.outputs = st.results ++ p.output.outputs := by
    apply Dict.update_of_disjoint
    · rw [p.keys_outputs]
      exact grp.members_nodup
    · rw [p.keys_outputs]
      exact hnew
  intro i r hr
  simp only [hset, Dict.get?_append, Option.or_eq_some_iff] at hr
  rcases hr with hr | ⟨-, hr⟩
  · exact hR i r hr
  · exact p.typed hg hsafe i r hr

/-! ## The walk -/

/-- No two texts hashed by a part of the walk have one digest. -/
def CollisionFree (sha : String → String) (amb : AmbientContext) (g : ModelGraph)
    (cutoff : AwareDatetime) : Prop :=
  ∀ done rest st, done ++ rest = g.executionPlan → walk sha amb g cutoff done = .ok st →
    Set.InjOn sha {t | t ∈ st.hashed}

/-- One step of the plan. -/
theorem evalStep_yields (hg : g.WellFormed) (hsafe : ∀ t, isSafeId (sha t) = true)
    (hamb : ∀ n ∈ g.nodes, n.body.isEquality = true → amb.KeepsMagnitudes)
    (hcut : cutoff.UtcRepresentable) (hdated : ∀ n ∈ g.nodes, n.body.DatedBy cutoff) {s : PlanStep}
    {rest : List PlanStep}
    (hplan : done ++ s :: rest = g.executionPlan) (hw : Walked sha amb g cutoff done st)
    (hinj : Set.InjOn sha {t | t ∈ st.hashed}) (hR : TypedResults g st.results) :
    (evalStep sha amb g cutoff st s).Yields (fun st' => TypedResults g st'.results)
      (SoundError g) := by
  have hs : s ∈ g.executionPlan := by rw [← hplan]; simp
  cases s with
  | node i =>
      have hi : i ∈ idsOf g.nodes := by
        rw [← hg.plan.ids.mem_iff]
        exact List.mem_flatMap.mpr ⟨_, hs, List.mem_singleton_self i⟩
      obtain ⟨n, hn, rfl⟩ := List.mem_map.mp hi
      refine evalNode_yields hg hsafe hw hinj hR hn (hamb n hn) (hdated n hn) ?_
      intro x hx
      rw [← refsOf_node hg hn] at hx
      rw [hw.keys]
      rcases hg.plan.earlier done _ rest hplan.symm n.nodeId (List.mem_singleton_self _) x hx
        with hself | hx'
      · rw [PlanStep.members, List.mem_singleton] at hself
        exact absurd (hself ▸ hx) (hg.not_self_ref hs)
      · exact hx'
  | group grp =>
      refine evalGroup_yields hg hsafe hcut hR ((hg.plan.groups_mem grp).mp hs) ?_ ?_ ?_
      · intro m hm
        rw [hw.keys]
        exact hg.not_mem_done hplan hm
      · intro m hm x hx hout
        rw [hw.keys]
        exact (hg.plan.earlier done _ rest hplan.symm m hm x hx).resolve_left hout
      · intro p hp
        rw [hw.keys]
        exact hg.plan.seeds_earlier done _ rest hplan.symm p.2 (List.mem_map.mpr ⟨p, hp, rfl⟩)

/-- **Soundness of the walk.** -/
theorem walk_yields (hg : g.WellFormed) (hsafe : ∀ t, isSafeId (sha t) = true)
    (hamb : ∀ n ∈ g.nodes, n.body.isEquality = true → amb.KeepsMagnitudes)
    (hcut : cutoff.UtcRepresentable) (hdated : ∀ n ∈ g.nodes, n.body.DatedBy cutoff)
    (hfree : CollisionFree sha amb g cutoff) :
    (walk sha amb g cutoff g.executionPlan).Yields
      (fun st => Walked sha amb g cutoff g.executionPlan st ∧ TypedResults g st.results)
      (SoundError g) := by
  have hrun : (walk sha amb g cutoff g.executionPlan).Yields (fun st =>
      walk sha amb g cutoff g.executionPlan = .ok st ∧ TypedResults g st.results)
      (SoundError g) := by
    refine Except.yields_foldlM (fun done st => walk sha amb g cutoff done = .ok st
      ∧ TypedResults g st.results) ?_ ⟨rfl, by simp [TypedResults, EvalState.initial]⟩
    rintro done s rest st hplan ⟨hwalk, hR⟩
    have hw := walked_of_walk hg hplan hwalk
    refine (evalStep_yields hg hsafe hamb hcut hdated hplan hw (hfree _ _ _ hplan hwalk) hR).mono
      (fun st' hst' hR' => ⟨?_, hR'⟩)
    rw [walk_append_singleton, hwalk]
    exact hst'
  exact hrun.mono (fun st _ h =>
    ⟨walked_of_walk hg (List.append_nil _) h.1, h.2⟩)

end

/-! ## Soundness -/

/-- The outcome of an evaluation is sound: a result of the right unit and period for every node, or
one of the errors a well-typed graph may raise. -/
def SoundOutcome (sha : String → String) (amb : AmbientContext) (s : GraphSnapshot)
    (cutoff : AwareDatetime) : Prop :=
  (evaluate sha amb s cutoff).Yields
    (fun res => ∀ n ∈ s.graph.nodes, ∃ r, res.results.get? n.nodeId = some r
      ∧ r.unit = n.unit ∧ r.period = n.period)
    (SoundError s.graph)

/-- The payload of an evaluation can be encoded. -/
theorem inDomain_evaluationPayload {g : ModelGraph} {snapshotId : String} {cutoff : AwareDatetime}
    {ids : List String} (hcut : cutoff.UtcRepresentable) :
    InDomain (evaluationPayload g snapshotId cutoff ids) := by
  have hitems : ∀ l : List String, ItemsInDomain (l.map PyValue.str) := by
    intro l
    induction l with
    | nil => trivial
    | cons s l ih => exact ⟨trivial, ih⟩
  refine ⟨by simp, ⟨_, rfl, by decide⟩, trivial, ⟨_, rfl, by decide⟩, trivial, ⟨_, rfl, by decide⟩,
    hcut, ⟨_, rfl, by decide⟩, hitems ids, trivial⟩

theorem utcRepresentable_of_astimezoneUtc {t u : AwareDatetime} (h : t.astimezoneUtc = .ok u) :
    u.UtcRepresentable := by
  obtain ⟨hr, hi, -⟩ := AwareDatetime.astimezoneUtc_eq_ok_iff.mp h
  rw [AwareDatetime.UtcRepresentable, hi]
  exact hr

/-- An evaluation returns what its walk returned. -/
theorem evaluate_of_walk {sha : String → String} {amb : AmbientContext} {s : GraphSnapshot}
    {cutoff u : AwareDatetime} (hg : s.graph.WellFormed) (hutc : cutoff.astimezoneUtc = .ok u)
    {st : EvalState} (hw : walk sha amb s.graph u s.graph.executionPlan = .ok st) :
    ∃ res, evaluate sha amb s cutoff = .ok res ∧ res.results = st.results
      ∧ res.failedChecks = st.failed := by
  have hwalked := walked_of_walk hg (List.append_nil _) hw
  obtain ⟨ids, hids⟩ : ∃ ids, s.graph.order.mapM (fun i => do
      let r ← lookup st.results i
      return r.resultId) = .ok ids := by
    apply exists_mapM
    intro i hi
    rw [hg.order_eq, ← hwalked.keys] at hi
    obtain ⟨r, hr⟩ := get?_of_mem_keys hi
    exact ⟨_, by rw [lookup_eq_ok_iff.mpr hr]; rfl⟩
  have hpayload : InDomain (evaluationPayload s.graph s.snapshotId u ids) :=
    inDomain_evaluationPayload (utcRepresentable_of_astimezoneUtc hutc)
  obtain ⟨j, -, htext⟩ := canonicalJson_ok hpayload
  obtain ⟨res, hres⟩ : ∃ res, evaluate sha amb s cutoff = .ok res := by
    simp only [evaluate, hutc, hw, hids, contentHash, htext, Except.ok_bind]
    exact ⟨_, rfl⟩
  obtain ⟨u', st', hu', hw', hresults, hfailed⟩ := evaluate_eq_ok hres
  rw [hutc, Except.ok.injEq] at hu'
  subst hu'
  rw [hw, Except.ok.injEq] at hw'
  subst hw'
  exact ⟨res, hres, hresults, hfailed⟩

/-- **Type soundness**, in a context that keeps magnitudes and at a cutoff with a UTC time. -/
theorem evaluate_yields {sha : String → String} {amb : AmbientContext} {s : GraphSnapshot}
    {cutoff u : AwareDatetime} (hg : s.graph.WellFormed) (hsafe : ∀ t, isSafeId (sha t) = true)
    (hamb : ∀ n ∈ s.graph.nodes, n.body.isEquality = true → amb.KeepsMagnitudes)
    (hutc : cutoff.astimezoneUtc = .ok u)
    (hdated : ∀ n ∈ s.graph.nodes, n.body.DatedBy cutoff)
    (hfree : CollisionFree sha amb s.graph u) : SoundOutcome sha amb s cutoff := by
  have hinstant := (AwareDatetime.astimezoneUtc_eq_ok_iff.mp hutc).2.1
  have hyields := walk_yields hg hsafe hamb (utcRepresentable_of_astimezoneUtc hutc)
    (fun n hn => NodeBody.DatedBy.mono hinstant.ge (hdated n hn)) hfree
  rw [SoundOutcome]
  cases hw : walk sha amb s.graph u s.graph.executionPlan with
  | error e =>
      rw [hw] at hyields
      simp only [evaluate, hutc, hw, Except.ok_bind]
      exact hyields
  | ok st =>
      rw [hw] at hyields
      obtain ⟨hwalked, hR⟩ := hyields
      obtain ⟨res, hres, hresults, -⟩ := evaluate_of_walk hg hutc hw
      rw [hres]
      intro n hn
      obtain ⟨r, hr⟩ : ∃ r, st.results.get? n.nodeId = some r := by
        apply get?_of_mem_keys
        rw [hwalked.keys, hg.plan.ids.mem_iff]
        exact List.mem_map.mpr ⟨n, hn, rfl⟩
      have htyped := hR.typed hg hn hr
      exact ⟨r, hresults ▸ hr, htyped.unit, htyped.period⟩

/-! ### A digest without collisions -/

open Classical in
/-- A digest that names the node a text belongs to. -/
noncomputable def nodeDigest (g : ModelGraph) (cutoff : AwareDatetime) (t : String) : String :=
  if h : ∃ i, IdText g cutoff i t ∧ isSafeId i = true then h.choose else "none"

section

variable {sha : String → String} {amb : AmbientContext} {g : ModelGraph} {cutoff : AwareDatetime}

/-- The digest of a node is a safe identifier. -/
theorem isSafeId_nodeDigest (t : String) : isSafeId (nodeDigest g cutoff t) = true := by
  unfold nodeDigest
  split_ifs with h
  · exact h.choose_spec.2
  · decide

/-- The digest of a text that identifies a node is its identifier. -/
theorem nodeDigest_eq {i t : String} (ht : IdText g cutoff i t) (hi : isSafeId i = true) :
    nodeDigest g cutoff t = i := by
  have h : ∃ i, IdText g cutoff i t ∧ isSafeId i = true := ⟨i, ht, hi⟩
  rw [nodeDigest, dif_pos h]
  exact h.choose_spec.1.unique ht

/-- A walk over single nodes hashes one text for each. -/
theorem hashed_of_walk (hg : g.WellFormed) (hgroups : g.iterationGroups = [])
    {done rest : List PlanStep} (hplan : done ++ rest = g.executionPlan) {st : EvalState}
    (h : walk sha amb g cutoff done = .ok st) :
    List.Forall₂ (fun i t => IdText g cutoff i t ∧ isSafeId i = true) (planIds done) st.hashed := by
  refine Except.foldlM_ok_run (fun done st => List.Forall₂
    (fun i t => IdText g cutoff i t ∧ isSafeId i = true) (planIds done) st.hashed) ?_ .nil h
  intro d s r st₁ st₂ hd hall hs
  have hmem : s ∈ g.executionPlan := by
    rw [← hplan, ← hd]
    simp
  cases s with
  | group grp =>
      have := (hg.plan.groups_mem grp).mp hmem
      rw [hgroups] at this
      exact absurd this List.not_mem_nil
  | node i =>
      obtain ⟨n, hn, rfl, e, rfl⟩ := (evalNode_eq_ok_iff hg).mp hs
      rw [planIds, List.flatMap_append]
      refine List.rel_append hall (.cons ⟨?_, n.safe_nodeId⟩ .nil)
      exact Or.inl ⟨n, hn, rfl, _, _, e.definition_eq, rfl⟩

/-- Such a digest is free of collisions on a graph without groups. -/
theorem collisionFree_nodeDigest (hg : g.WellFormed) (hgroups : g.iterationGroups = []) :
    CollisionFree (nodeDigest g cutoff) amb g cutoff := by
  intro done rest st hplan hw
  have hall := hashed_of_walk hg hgroups hplan hw
  have hnodup : (planIds done).Nodup := by
    have := hg.planIds_nodup
    rw [← hplan, planIds, List.flatMap_append, List.nodup_append] at this
    exact this.1
  have hmap : st.hashed.map (nodeDigest g cutoff) = planIds done := by
    rw [← List.forall₂_eq_eq_eq, List.forall₂_map_left_iff]
    exact hall.flip.imp (fun t i h => nodeDigest_eq h.1 h.2)
  exact List.inj_on_of_nodup_map (hmap ▸ hnodup)

end

/-! ### A magnitude the ambient context cannot show -/

theorem zero_lt_maxMicros : 0 < maxMicros := by decide

/-- The first instant a UTC time can have; no cutoff with a UTC time is before it. -/
def firstInstant : AwareDatetime := ⟨0, 0, zero_lt_maxMicros, start2024.offset_lt⟩

/-- The largest value a leaf can have. -/
def wideA : Node :=
  ⟨⟨"a", "", usd, fy2024, .analystAssumption ⟨false, 10 ^ 34 - 1, 250000⟩ firstInstant "a1"⟩,
    by decide⟩

/-- The largest decimal of the calculation context, as a product. -/
def wideAst : FormulaAST :=
  .binary .mul (.binary .mul (.binary .mul (.reference "a") (.literal ⟨false, 1, 250000⟩))
    (.literal ⟨false, 1, 250000⟩)) (.literal ⟨false, 1, 249966⟩)

def wideB : Node :=
  ⟨⟨"b", "", usd, fy2024, .expressionFormula wideAst "v1" grammarVersion⟩, by decide⟩

def wideZ : Node :=
  ⟨⟨"z", "", usd, fy2024, .analystAssumption (Decimal.ofNat 0) firstInstant "a1"⟩,
    by decide⟩

def wideD : Node :=
  ⟨⟨"d", "", usd, fy2024, .validationCheck .equals ["b", "z"] none⟩, by decide⟩

/-- An equality check of the largest decimal with zero. -/
def wideNodes : List Node := [wideA, wideB, wideZ, wideD]

theorem wideNodes_inDomain : ∀ n ∈ wideNodes, ∀ v ∈ n.body.fieldsPy, InDomain v := by
  have hmax : Encodable ⟨false, 10 ^ 34 - 1, 250000⟩ := ⟨by decide, by decide, by decide⟩
  have hzero : Encodable (Decimal.ofNat 0) := ⟨by decide, by decide, by decide⟩
  have hlit : Encodable ⟨false, 1, 250000⟩ := ⟨by decide, by decide, by decide⟩
  have hlit' : Encodable ⟨false, 1, 249966⟩ := ⟨by decide, by decide, by decide⟩
  have hdate : firstInstant.UtcRepresentable := by decide
  have hast : wideAst.Closed := ⟨⟨⟨by simp only [FormulaAST.Closed]; decide, hlit⟩, hlit⟩, hlit'⟩
  simp only [wideNodes, wideA, wideB, wideZ, wideD, List.forall_mem_cons, NodeBody.fieldsPy,
    List.not_mem_nil, false_imp_iff, implies_true, and_true]
  exact ⟨⟨hmax, hdate, trivial⟩, ⟨inDomain_ast hast, trivial, trivial⟩, ⟨hzero, hdate, trivial⟩,
    trivial, inDomain_strs _, trivial⟩

/-- The check is in a graph that builds. -/
theorem wideNodes_build : ∃ g, ModelGraph.build wideNodes [] = .ok g
    ∧ g.executionPlan = [.node "a", .node "b", .node "z", .node "d"]
    ∧ g.nodes = sortNodes wideNodes := by
  apply ModelGraph.build_isOk
  · rfl
  · decide
  · exact wideNodes_inDomain

/-- The wide formula has the largest value. -/
theorem wideAst_eval : evaluateFormula wideAst
    [("a", ⟨⟨false, 10 ^ 34 - 1, 250000⟩, usd⟩)] = .ok ⟨largest, usd⟩ := by
  decide

/-- The residual of the check is as large as the calculation context allows. -/
theorem wide_residual : ∃ r : Decimal,
    Quantity.combine .sub ⟨largest, usd⟩ ⟨Decimal.ofNat 0, usd⟩ = .ok ⟨r, usd⟩
      ∧ r.value = largest.value := by
  have hfits := calcContext.roundValue_of_fits fits_largest.digits fits_largest.exp_ge
    fits_largest.lt_max
  have hunit : Operator.unit .sub usd usd = .ok usd := by decide
  have hval := calcContext.subtract_value largest (Decimal.ofNat 0)
  rw [show (Decimal.ofNat 0).value = 0 from (Decimal.value_eq_zero_iff _).mpr rfl, sub_zero,
    hfits] at hval
  cases hr : calcContext.subtract largest (Decimal.ofNat 0) with
  | error s => simp [hr, Except.toOption] at hval
  | ok r =>
      refine ⟨r, Quantity.combine_eq_ok_iff.mpr ⟨hr, hunit⟩, ?_⟩
      simpa [hr, Except.toOption] using hval

/-- With fewer digits and a rule that can round up, that residual has no magnitude. -/
theorem wide_abs {amb : AmbientContext} (hprec : amb.prec < 34) (hmode : ¬ amb.rounding.Truncates)
    {r : Decimal} (hr : r.value = largest.value) :
    ambientAbs amb r = .error (.decimalSignal .overflow) := by
  have hval := amb.context.abs_value largest
  rw [abs_largest hprec hmode, ← hr] at hval
  rw [ambientAbs, amb.context.abs_eq_error_of hval.symm]

/-- A leaf that is available. -/
theorem compute_assumption {amb : AmbientContext} {n : Node} {cutoff t : AwareDatetime}
    {v : Decimal} {a : String} (hb : n.body = .analystAssumption v t a)
    (ht : t.instant ≤ cutoff.instant) :
    compute amb n [] cutoff
      = .ok ⟨⟨v, n.unit⟩, t, ⟨.assumption, none, some a, none, []⟩, none, none⟩ := by
  have hbody := n.bodyOk
  unfold NodeFields.BodyOk at hbody
  rw [hb] at hbody
  have hl : Lineage.make ⟨.assumption, none, some a, none, []⟩
      = .ok ⟨.assumption, none, some a, none, []⟩ := leafLineage_ok rfl (by simp [hbody.2]) rfl
  simp only [compute, hb, (requireAvailable_eq_ok_iff (u := ())).mpr ht, Except.ok_bind,
    computeLeaf, Quantity.make_eq_ok_iff.mpr ⟨hbody.1, rfl⟩, hl]
  rfl

section

variable {sha : String → String} {amb : AmbientContext} {g : ModelGraph} {u : AwareDatetime}

/-- One more node. -/
theorem walk_node (hg : g.WellFormed) {done : List PlanStep} {st : EvalState}
    (hw : walk sha amb g u done = .ok st) {n : Node} (hn : n ∈ g.nodes)
    (e : NodeRun amb u st.results n) :
    ∃ st', walk sha amb g u (done ++ [.node n.nodeId]) = .ok st'
      ∧ st'.results.get? n.nodeId = some (e.result sha)
      ∧ ∀ i, n.nodeId ≠ i → st'.results.get? i = st.results.get? i := by
  refine ⟨st.afterNode (e.result sha) e.text, ?_, Dict.get?_set_self _ _ _,
    fun i hi => Dict.get?_set_of_ne hi _⟩
  rw [walk_append_singleton, hw, Except.ok_bind]
  exact (evalNode_eq_ok_iff hg).mpr ⟨n, hn, rfl, e, rfl⟩

/-- The walk up to the check. -/
theorem wide_walk (hg : g.WellFormed) (hnodes : g.nodes = sortNodes wideNodes)
    (hsafe : ∀ t, isSafeId (sha t) = true) (hu : u.UtcRepresentable) :
    ∃ st rb rz, walk sha amb g u [.node "a", .node "b", .node "z"] = .ok st
      ∧ st.results.get? "b" = some rb ∧ st.results.get? "z" = some rz
      ∧ rb.quantity = ⟨largest, usd⟩ ∧ rz.quantity = ⟨Decimal.ofNat 0, usd⟩ := by
  have hmem : ∀ n ∈ wideNodes, n ∈ g.nodes := by
    intro n hn
    rw [hnodes]
    exact (sortNodes_perm _).mem_iff.mpr hn
  have hdef : ∀ n ∈ wideNodes, ∃ d, n.definition = .ok d := fun n hn =>
    definition_isOk_iff.mpr (wideNodes_inDomain n hn)
  have hdate : firstInstant.instant ≤ u.instant := hu.1
  have hA : wideA ∈ wideNodes := by simp [wideNodes]
  have hB : wideB ∈ wideNodes := by simp [wideNodes]
  have hZ : wideZ ∈ wideNodes := by simp [wideNodes]
  obtain ⟨da, hda⟩ := hdef _ hA
  obtain ⟨db, hdb⟩ := hdef _ hB
  obtain ⟨dz, hdz⟩ := hdef _ hZ
  -- the leaf `a`
  obtain ⟨st₁, ra, w₁, hra, hqa, hida, hta, hsafea⟩ : ∃ st ra, walk sha amb g u [.node "a"] = .ok st
      ∧ st.results.get? "a" = some ra ∧ ra.quantity = ⟨⟨false, 10 ^ 34 - 1, 250000⟩, usd⟩
      ∧ ra.nodeId = "a" ∧ ra.availableAt = firstInstant ∧ isSafeId ra.resultId = true := by
    let e : NodeRun amb u EvalState.initial.results wideA :=
      ⟨[], _, da, rfl, compute_assumption rfl hdate, hda, by decide⟩
    have hw₀ : walk sha amb g u [] = .ok EvalState.initial := rfl
    obtain ⟨st, hw, hr, -⟩ := walk_node hg hw₀ (hmem _ hA) e
    exact ⟨st, e.result sha, hw, hr, rfl, rfl, rfl, hsafe _⟩
  -- the product `b`
  have hcB : compute amb wideB [ra] u = .ok ⟨⟨largest, usd⟩, firstInstant,
      ⟨.derived, none, none, none, [ra.resultId]⟩, some "v1", none⟩ := by
    have hlineage : Lineage.make ⟨.derived, none, none, none, [ra.resultId]⟩
        = .ok ⟨.derived, none, none, none, [ra.resultId]⟩ :=
      derivedLineage_ok (by simp) (by simp) (by simpa using hsafea)
    have hmax : maxAvailable [ra] = .ok firstInstant := by rw [← hta]; rfl
    have hformula : evaluateFormula wideAst [(ra.nodeId, ra.quantity)] = .ok ⟨largest, usd⟩ := by
      rw [hida, hqa]
      exact wideAst_eval
    simp only [compute, wideB, List.map_cons, List.map_nil, hmax, hlineage, Except.ok_bind,
      computeDerived, hformula]
    rfl
  obtain ⟨st₂, rb, w₂, hrb, hqb⟩ : ∃ st rb, walk sha amb g u [.node "a", .node "b"] = .ok st
      ∧ st.results.get? "b" = some rb ∧ rb.quantity = ⟨largest, usd⟩ := by
    have hin : wideB.refs.mapM (lookup st₁.results) = .ok [ra] := by
      rw [show wideB.refs = ["a"] from rfl, List.mapM_cons, lookup_eq_ok_iff.mpr hra]
      rfl
    let e : NodeRun amb u st₁.results wideB := ⟨[ra], _, db, hin, hcB, hdb, fits_largest.digits⟩
    obtain ⟨st, hw, hr, -⟩ := walk_node hg w₁ (hmem _ hB) e
    exact ⟨st, e.result sha, hw, hr, rfl⟩
  -- the leaf `z`
  let e : NodeRun amb u st₂.results wideZ :=
    ⟨[], _, dz, rfl, compute_assumption rfl hdate, hdz, by decide⟩
  obtain ⟨st, hw, hr, hother⟩ := walk_node hg w₂ (hmem _ hZ) e
  have hne : wideZ.nodeId ≠ "b" := by decide
  exact ⟨st, rb, e.result sha, hw, (hother "b" hne).trans hrb, hr, hqb, rfl⟩

/-- **The check raises** when the ambient context cannot show its residual. -/
theorem wide_overflow (hg : g.WellFormed) (hnodes : g.nodes = sortNodes wideNodes)
    (hplan : g.executionPlan = [.node "a", .node "b", .node "z", .node "d"])
    (hsafe : ∀ t, isSafeId (sha t) = true) (hfree : CollisionFree sha amb g u)
    (hu : u.UtcRepresentable) (hprec : amb.prec < 34) (hmode : ¬ amb.rounding.Truncates) :
    walk sha amb g u g.executionPlan = .error (.decimalSignal .overflow) := by
  obtain ⟨st, rb, rz, hw, hb, hz, hqb, hqz⟩ := wide_walk hg hnodes hsafe hu
  have hsplit : [PlanStep.node "a", .node "b", .node "z"] ++ [.node "d"] = g.executionPlan :=
    hplan.symm
  have hwalked := walked_of_walk hg hsplit hw
  have hinj := hfree _ _ _ hsplit hw
  have hin : wideD.refs.mapM (lookup st.results) = .ok [rb, rz] := by
    rw [show wideD.refs = ["b", "z"] from rfl, List.mapM_cons, lookup_eq_ok_iff.mpr hb,
      Except.ok_bind, List.mapM_cons, lookup_eq_ok_iff.mpr hz]
    rfl
  have hids := inputIds_nodup hwalked hinj wideD.refs_nodup hin
  have hlineage : Lineage.make ⟨.derived, none, none, none, [rb.resultId, rz.resultId]⟩
      = .ok ⟨.derived, none, none, none, [rb.resultId, rz.resultId]⟩ := by
    refine derivedLineage_ok (by simp) hids ?_
    have htexts : ∀ i r, st.results.get? i = some r → isSafeId r.resultId = true := by
      intro i r hr
      obtain ⟨t, -, hid, -⟩ := hwalked.texts i r hr
      rw [hid]
      exact hsafe t
    simpa using ⟨htexts _ _ hb, htexts _ _ hz⟩
  obtain ⟨r, hr, hval⟩ := wide_residual
  have hcheck : check amb .equals none [rb, rz] = .error (.decimalSignal .overflow) := by
    rw [check_equals, hqb, hqz, hr, Except.ok_bind, wide_abs hprec hmode hval]
    rfl
  have hd : wideD ∈ g.nodes := by
    rw [hnodes]
    exact (sortNodes_perm _).mem_iff.mpr (by simp [wideNodes])
  have hcompute : compute amb wideD [rb, rz] u = .error (.decimalSignal .overflow) := by
    have hmax : maxAvailable [rb, rz] = .ok (rb.availableAt.max rz.availableAt) := rfl
    simp only [compute, wideD, List.map_cons, List.map_nil, hmax, hlineage, Except.ok_bind,
      computeDerived, hcheck]
    rfl
  have hget : g.byId.get? "d" = some wideD := hg.byId.mpr ⟨hd, rfl⟩
  rw [← hsplit, walk_append_singleton, hw, Except.ok_bind, evalStep, evalNode,
    lookup_eq_ok_iff.mpr hget, Except.ok_bind, hin, Except.ok_bind, hcompute]
  rfl

end

/-! ## When evaluation is sound -/

/-- Every graph that builds, with leaves dated by the cutoff, is evaluated soundly.  The digest
returns safe ids and has no collision on the texts of the evaluation; `equality` says whether the
graph may hold equality checks. -/
def SoundAt (amb : AmbientContext) (cutoff : AwareDatetime) (equality : Bool) : Prop :=
  ∀ (sha : String → String) (nodes : List Node) (groups : List IterationGroup) (s : GraphSnapshot),
    ModelGraph.build nodes groups = .ok s.graph →
    (∀ n ∈ nodes, n.body.DatedBy cutoff) →
    (∀ n ∈ nodes, n.body.isEquality = true → equality = true) →
    (∀ t, isSafeId (sha t) = true) →
    (∀ u, cutoff.astimezoneUtc = .ok u → CollisionFree sha amb s.graph u) →
    SoundOutcome sha amb s cutoff

theorem mem_nodes_of_build {nodes : List Node} {groups : List IterationGroup} {g : ModelGraph}
    (h : ModelGraph.build nodes groups = .ok g) {n : Node} : n ∈ g.nodes ↔ n ∈ nodes := by
  obtain ⟨-, hnodes, -⟩ := ModelGraph.build_eq_ok h
  rw [hnodes]
  exact (sortNodes_perm nodes).mem_iff

/-- The graph without nodes. -/
theorem build_nil : ∃ g, ModelGraph.build [] [] = .ok g := ⟨_, rfl⟩

/-- A cutoff without a UTC time is refused, whatever the graph. -/
theorem evaluate_overflowError {sha : String → String} {amb : AmbientContext} {s : GraphSnapshot}
    {cutoff : AwareDatetime} (h : ¬ cutoff.UtcRepresentable) :
    evaluate sha amb s cutoff = .error (.overflowError "date value out of range") := by
  rw [evaluate, AwareDatetime.astimezoneUtc_eq_error_iff.mpr ⟨h, rfl⟩]
  rfl

/-- The evaluation of the wide graph overflows where the ambient range is narrow. -/
theorem evaluate_wide {sha : String → String} {amb : AmbientContext}
    {s : GraphSnapshot} {cutoff : AwareDatetime} {g : ModelGraph} (hs : s.graph = g)
    (hbuild : ModelGraph.build wideNodes [] = .ok g) (hnodes : g.nodes = sortNodes wideNodes)
    (hplan : g.executionPlan = [.node "a", .node "b", .node "z", .node "d"])
    (hsafe : ∀ t, isSafeId (sha t) = true) {u : AwareDatetime} (hutc : cutoff.astimezoneUtc = .ok u)
    (hfree : CollisionFree sha amb g u) (hprec : amb.prec < 34)
    (hmode : ¬ amb.rounding.Truncates) :
    evaluate sha amb s cutoff = .error (.decimalSignal .overflow) := by
  have hg := ModelGraph.wellFormed_of_build hbuild
  have hwalk := wide_overflow hg hnodes hplan hsafe hfree (utcRepresentable_of_astimezoneUtc hutc)
    hprec hmode
  simp only [evaluate, hutc, Except.ok_bind, hs, hwalk]
  rfl

/-- **Type soundness.**  Every graph that builds is evaluated soundly exactly when the cutoff has a
UTC time and, if the graph may hold an equality check, the context of the caller has the digits of
the calculation context or never rounds a magnitude up. -/
theorem evaluate_sound_iff (amb : AmbientContext) (cutoff : AwareDatetime) (equality : Bool) :
    SoundAt amb cutoff equality ↔
      cutoff.UtcRepresentable ∧ (equality = true → 34 ≤ amb.prec ∨ amb.rounding.Truncates) := by
  constructor
  · intro h
    -- without a UTC time the empty graph fails
    have hutc : cutoff.UtcRepresentable := by
      by_contra hnot
      obtain ⟨g, hg⟩ := build_nil
      have hsound := h (fun _ => "a") [] [] ⟨"", "", 1, none, none, g⟩ hg (by simp) (by simp)
        (fun _ => by decide) (by
          intro u hu
          exact absurd (AwareDatetime.astimezoneUtc_eq_ok_iff.mp hu).1 hnot)
      rw [SoundOutcome, evaluate_overflowError hnot] at hsound
      exact hsound
    -- with a narrow context the wide graph fails: its check overflows
    refine ⟨hutc, ?_⟩
    intro heq
    by_contra hnot
    rw [not_or, not_le] at hnot
    obtain ⟨g, hbuild, hplan, hnodes⟩ := wideNodes_build
    have hg := ModelGraph.wellFormed_of_build hbuild
    have hgroups : g.iterationGroups = [] := (ModelGraph.build_eq_ok hbuild).2.2.1
    have hu : cutoff.astimezoneUtc = .ok (cutoff.utcAt hutc) := by
      rw [AwareDatetime.astimezoneUtc, dif_pos hutc]
    have hfree : CollisionFree (nodeDigest g (cutoff.utcAt hutc)) amb g (cutoff.utcAt hutc) :=
      collisionFree_nodeDigest hg hgroups
    have hdated : ∀ n ∈ wideNodes, n.body.DatedBy cutoff := by
      have h0 : firstInstant.instant ≤ cutoff.instant := hutc.1
      simp only [wideNodes, List.forall_mem_cons, List.not_mem_nil, false_imp_iff, implies_true,
        and_true]
      exact ⟨h0, trivial, h0, trivial⟩
    have hsound := h (nodeDigest g (cutoff.utcAt hutc)) wideNodes [] ⟨"", "", 1, none, none, g⟩
      hbuild hdated (fun _ _ _ => heq) isSafeId_nodeDigest (by
        intro u hu'
        rw [hu, Except.ok.injEq] at hu'
        exact hu' ▸ hfree)
    rw [SoundOutcome, evaluate_wide rfl hbuild hnodes hplan isSafeId_nodeDigest hu
      hfree hnot.1 hnot.2] at hsound
    exact hsound
  · -- a check is evaluated in the ambient context, and every node in the calculation context
    rintro ⟨hutc, hamb⟩ sha nodes groups s hbuild hdated heq hsafe hfree
    have hu : cutoff.astimezoneUtc = .ok (cutoff.utcAt hutc) := by
      rw [AwareDatetime.astimezoneUtc, dif_pos hutc]
    apply evaluate_yields (ModelGraph.wellFormed_of_build hbuild) hsafe _ hu _ (hfree _ hu)
    · intro n hn hbody
      exact AmbientContext.keepsMagnitudes_iff.mpr
        (hamb (heq n ((mem_nodes_of_build hbuild).mp hn) hbody))
    · intro n hn
      exact hdated n ((mem_nodes_of_build hbuild).mp hn)

/-- The decimal context of a thread that did not change it. -/
def defaultAmbient : AmbientContext := ⟨28, .halfEven, by decide⟩

/-- Under the default context of a thread, the check of a graph that builds raises
`decimal.Overflow`, whatever the digest and the snapshot. -/
theorem evaluate_default_context_overflows :
    ∃ g, ModelGraph.build wideNodes [] = .ok g ∧ (∀ n ∈ wideNodes, n.body.DatedBy start2024)
      ∧ (∃ sha : String → String, (∀ t, isSafeId (sha t) = true)
          ∧ CollisionFree sha defaultAmbient g start2024)
      ∧ ∀ (sha : String → String) (s : GraphSnapshot), s.graph = g →
          (∀ t, isSafeId (sha t) = true) → CollisionFree sha defaultAmbient g start2024 →
          evaluate sha defaultAmbient s start2024 = .error (.decimalSignal .overflow)
            ∧ ¬ SoundOutcome sha defaultAmbient s start2024 := by
  obtain ⟨g, hbuild, hplan, hnodes⟩ := wideNodes_build
  have hg := ModelGraph.wellFormed_of_build hbuild
  have hu : start2024.astimezoneUtc = .ok start2024 := by decide
  have hdated : ∀ n ∈ wideNodes, n.body.DatedBy start2024 := by
    have h0 : firstInstant.instant ≤ start2024.instant := by decide
    simp only [wideNodes, List.forall_mem_cons, List.not_mem_nil, false_imp_iff, implies_true,
      and_true]
    exact ⟨h0, trivial, h0, trivial⟩
  refine ⟨g, hbuild, hdated, ⟨nodeDigest g start2024, isSafeId_nodeDigest,
    collisionFree_nodeDigest hg (ModelGraph.build_eq_ok hbuild).2.2.1⟩, ?_⟩
  intro sha s hs hsafe hfree
  have heval : evaluate sha defaultAmbient s start2024 = .error (.decimalSignal .overflow) :=
    evaluate_wide hs hbuild hnodes hplan hsafe hu hfree (by decide) (by decide)
  refine ⟨heval, ?_⟩
  rw [SoundOutcome, heval]
  exact id

end CalcEngine
