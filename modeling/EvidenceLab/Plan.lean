/-
# Exact execution plans

What the plan construction of `ModelGraph.build` accepts and what an accepted plan looks like.

* `PlanConditions` says of a node set and its iteration groups that the groups are exactly the
  cyclic strongly connected components of the reference graph, with valid external seeds, and that
  the seeds add no cycle to the condensation.
* `PlanOk` says of a plan that every node occurs once and every external dependency and every seed
  of a step stands in an earlier step.

**`buildPlan_exact_components`**: the construction succeeds exactly under the conditions, and its
plans are in order.
-/
import EvidenceLab.Condensation

namespace CalcEngine

open Components (Reach SameScc)

/-! ## Conditions and plans -/

/-- What the plan construction requires of the groups. -/
structure PlanConditions (nodes : List Node) (groups : List IterationGroup) : Prop where
  members_nodup : (groups.map (fun g => g.members)).Nodup
  members_exact : ∀ m, m ∈ groups.map (fun g => g.members) ↔ CyclicScc (refsOf nodes) m
  ids_unique : (groups.map (fun g => g.groupId)).Nodup
  arithmetic : ∀ g ∈ groups, ∀ m ∈ g.members,
    ∃ n ∈ nodes, n.nodeId = m ∧ n.body.isArithmetic = true
  seeds : ∀ g ∈ groups, ∀ p ∈ g.seeds, p.2 ∉ g.members ∧
    ∃ m ∈ nodes, ∃ s ∈ nodes, m.nodeId = p.1 ∧ s.nodeId = p.2 ∧ s.unit = m.unit
      ∧ s.period = m.period
  acyclic : ∀ v ∈ idsOf nodes, ¬ Relation.TransGen (Waits (refsOf nodes) groups) v v

/-- The seeds a step waits for. -/
def PlanStep.seeds : PlanStep → List String
  | .node _ => []
  | .group g => g.seeds.map Prod.snd

/-- The ids of the steps of a plan. -/
def planIds (plan : List PlanStep) : List String := plan.flatMap PlanStep.members

/-- What an accepted plan looks like. -/
structure PlanOk (nodes : List Node) (groups : List IterationGroup) (plan : List PlanStep) :
    Prop where
  ids : (planIds plan).Perm (idsOf nodes)
  groups_mem : ∀ g, PlanStep.group g ∈ plan ↔ g ∈ groups
  single : ∀ i, PlanStep.node i ∈ plan → ∀ g ∈ groups, i ∉ g.members
  earlier : ∀ P s Q, plan = P ++ s :: Q → ∀ x ∈ s.members, ∀ y ∈ refsOf nodes x,
    y ∈ s.members ∨ y ∈ planIds P
  seeds_earlier : ∀ P s Q, plan = P ++ s :: Q → ∀ y ∈ s.seeds, y ∈ planIds P

/-! ## The plan of an order -/

namespace Condensed

variable {ids : List String} {out : String → List String} {comps : List (List String)}
  {groups : List IterationGroup}

/-- The plan read off an order of the component keys. -/
def planOf (comps : List (List String)) (groups : List IterationGroup) (order : List String) :
    List PlanStep :=
  order.map (fun key => byKey (comps.map (fun c => (componentKey c, stepOf groups c)))
    (.node key) key)

/-- The step of a component is found under its key. -/
theorem byKey_stepOf (h : Condensed ids out comps) {c : List String} (hc : c ∈ comps) :
    byKey (comps.map (fun c => (componentKey c, stepOf groups c))) (.node (componentKey c))
      (componentKey c) = stepOf groups c := by
  rw [byKey, Dict.get?_of_mem]
  · rfl
  · simpa [Dict.keys, Function.comp_def] using h.keys_nodup
  · exact List.mem_map.mpr ⟨c, hc, rfl⟩

/-- The group of a component has its members. -/
theorem groupOf_eq_some {c : List String} {g : IterationGroup} (hg : groupOf groups c = some g) :
    g ∈ groups ∧ g.members = c :=
  ⟨List.mem_of_find?_eq_some hg, by simpa using List.find?_some hg⟩

/-- A component without a group is declared by none. -/
theorem groupOf_eq_none {c : List String} (hg : groupOf groups c = none) :
    c ∉ groups.map (fun g => g.members) := by
  rw [groupOf, List.find?_eq_none] at hg
  intro hm
  obtain ⟨g, hgm, rfl⟩ := List.mem_map.mp hm
  exact hg g hgm (by simp)

/-- The step of a component has the members of the component. -/
theorem members_stepOf (h : Condensed ids out comps)
    (hcyc : ∀ c ∈ comps, isCyclic out c = true → c ∈ groups.map (fun g => g.members))
    {c : List String} (hc : c ∈ comps) : (stepOf groups c).members = c := by
  unfold stepOf
  cases hg : groupOf groups c with
  | some g => exact (groupOf_eq_some hg).2
  | none =>
      have hnot : isCyclic out c ≠ true := fun hcc => groupOf_eq_none hg (hcyc c hc hcc)
      match c, (h.areComponents c hc).2.1, hnot with
      | [v], _, _ => rfl
      | _ :: _ :: _, _, hnot => exact absurd rfl hnot

/-- **The plan of a sorted condensation**: every node once, prerequisites and seeds earlier. -/
theorem planOk_planOf {nodes : List Node} (h : Condensed (idsOf nodes) (refsOf nodes) comps)
    (hnodup : (groups.map (fun g => g.members)).Nodup)
    (hmembers : ∀ g ∈ groups, g.members ∈ comps)
    (hseeds : ∀ g ∈ groups, ∀ p ∈ g.seeds, p.2 ∈ idsOf nodes)
    (hcyc : ∀ c ∈ comps, isCyclic (refsOf nodes) c = true → c ∈ groups.map (fun g => g.members))
    {order : List String} (hperm : order.Perm (comps.map componentKey))
    (hsorted : TopologicalSort.Sorted (listAt (prerequisites comps (refsOf nodes) groups)) order) :
    PlanOk nodes groups (planOf comps groups order) := by
  have hstep : ∀ {k : String}, k ∈ order → ∃ c ∈ comps, componentKey c = k := fun hk =>
    List.mem_map.mp (hperm.mem_iff.mp hk)
  -- the steps of a plan are the steps of the components
  have hplan : (planOf comps groups order).Perm (comps.map (stepOf groups)) := by
    refine (hperm.map _).trans (List.Perm.of_eq ?_)
    rw [List.map_map]
    exact List.map_congr_left (fun c hc => h.byKey_stepOf hc)
  have hin : ∀ {s : PlanStep}, s ∈ planOf comps groups order ↔ ∃ c ∈ comps, stepOf groups c = s :=
    fun {s} => hplan.mem_iff.trans List.mem_map
  -- a component whose key stands in a part of the order has its members in that part of the plan
  have hmem : ∀ {A : List String} {c : List String} {y : String}, c ∈ comps →
      componentKey c ∈ A → y ∈ c → y ∈ planIds (planOf comps groups A) := by
    intro A c y hc hA hy
    refine List.mem_flatMap.mpr ⟨stepOf groups c, List.mem_map.mpr ⟨_, hA, h.byKey_stepOf hc⟩, ?_⟩
    rwa [h.members_stepOf hcyc hc]
  -- a cut of the plan is a cut of the order
  have hcut : ∀ {P : List PlanStep} {s : PlanStep} {Q : List PlanStep},
      planOf comps groups order = P ++ s :: Q → ∃ c ∈ comps, s = stepOf groups c ∧
        ∃ A, P = planOf comps groups A ∧ ∀ k ∈ prerequisitesOf comps (refsOf nodes) groups c,
          k ∈ A := by
    intro P s Q heq
    obtain ⟨A, B, hord, rfl, hB⟩ := List.map_eq_append_iff.mp heq
    obtain ⟨k, C, rfl, rfl, -⟩ := List.map_eq_cons_iff.mp hB
    have hk : k ∈ order := by
      rw [hord]
      exact List.mem_append_right A List.mem_cons_self
    obtain ⟨c, hc, rfl⟩ := hstep hk
    refine ⟨c, hc, h.byKey_stepOf hc, A, rfl, ?_⟩
    intro k hk
    apply hsorted A _ C hord
    rwa [prerequisites, h.listAt_map _ hc]
  refine ⟨?_, ?_, ?_, ?_, ?_⟩
  · have hflat : (comps.map (stepOf groups)).flatMap PlanStep.members = comps.flatten := by
      rw [List.flatMap_map, List.flatMap_congr (fun c hc => h.members_stepOf hcyc hc)]
      simp
    exact ((hplan.flatMap_right _).trans (List.Perm.of_eq hflat)).trans h.perm
  · intro g
    rw [hin]
    constructor
    · rintro ⟨c, -, hc⟩
      unfold stepOf at hc
      cases hg : groupOf groups c with
      | none => simp [hg] at hc
      | some g' =>
          simp only [hg, PlanStep.group.injEq] at hc
          exact hc ▸ (groupOf_eq_some hg).1
    · intro hg
      refine ⟨g.members, hmembers g hg, ?_⟩
      unfold stepOf
      cases hf : groupOf groups g.members with
      | none => exact absurd (List.mem_map.mpr ⟨g, hg, rfl⟩) (groupOf_eq_none hf)
      | some g' =>
          obtain ⟨hg', hmm⟩ := groupOf_eq_some hf
          rw [List.inj_on_of_nodup_map hnodup hg' hg hmm]
  · intro i hi g hg him
    obtain ⟨c, hc, hs⟩ := hin.mp hi
    have hic : i ∈ c := by
      rw [← h.members_stepOf hcyc hc, hs]
      exact List.mem_singleton_self i
    have hgc : g.members = c := h.eq_of_mem (hmembers g hg) hc him hic
    unfold stepOf at hs
    cases hf : groupOf groups c with
    | none => exact groupOf_eq_none hf (List.mem_map.mpr ⟨g, hg, hgc⟩)
    | some g' => simp [hf] at hs
  · intro P s Q heq x hx y hy
    obtain ⟨c, hc, rfl, A, rfl, hA⟩ := hcut heq
    rw [h.members_stepOf hcyc hc] at hx ⊢
    obtain ⟨c', hc', hyc'⟩ := h.exists_mem (h.closed x (h.mem_ids hc hx) y hy)
    by_cases hyc : y ∈ c
    · exact Or.inl hyc
    · right
      refine hmem hc' (hA _ ?_) hyc'
      rw [h.mem_prerequisitesOf_iff hnodup hmembers hseeds hc hc' hx hyc']
      exact Or.inl ⟨x, y, SameScc.refl _ x, SameScc.refl _ y, hy, fun hxy =>
        hyc ((h.sameScc hc hx).mpr hxy)⟩
  · intro P s Q heq y hy
    obtain ⟨c, hc, rfl, A, rfl, hA⟩ := hcut heq
    unfold stepOf at hy
    cases hg : groupOf groups c with
    | none => simp [hg, PlanStep.seeds] at hy
    | some g =>
        obtain ⟨hgm, rfl⟩ := groupOf_eq_some hg
        simp only [hg, PlanStep.seeds, List.mem_map] at hy
        obtain ⟨p, hp, rfl⟩ := hy
        obtain ⟨c', hc', hyc'⟩ := h.exists_mem (hseeds g hgm p hp)
        have hp1 : p.1 ∈ g.members := by
          rw [← g.ok.seeds_keys]
          exact List.mem_map.mpr ⟨p, hp, rfl⟩
        refine hmem hc' (hA _ ?_) hyc'
        rw [h.mem_prerequisitesOf_iff hnodup hmembers hseeds hc hc' hp1 hyc']
        exact Or.inr ⟨g, hgm, p, hp, SameScc.refl _ _, SameScc.refl _ _⟩

end Condensed

/-! ## The plan construction -/

/-- The components `_iteration_plan` finds. -/
def componentsOf (nodes : List Node) : List (List String) :=
  Components.components ((Dict.keys (dependenciesOf (sortNodes nodes))).insertionSort (· ≤ ·))
    (listAt (dependenciesOf (sortNodes nodes)))
    (listAt (dependentsOf (nodes.map (fun n => (n.nodeId, n))) (sortNodes nodes)))

/-- The dependencies of a node are its references. -/
theorem listAt_dependencies {nodes : List Node} (h : (idsOf nodes).Nodup) :
    listAt (dependenciesOf (sortNodes nodes)) = refsOf nodes :=
  funext (listAt_dependenciesOf h (sortNodes_perm nodes))

/-- **The components of the algorithm** are those of the graph. -/
theorem condensed_componentsOf {nodes : List Node} (h : RefsPresent nodes) :
    Condensed (idsOf nodes) (refsOf nodes) (componentsOf nodes) := by
  have hperm : ((Dict.keys (dependenciesOf (sortNodes nodes))).insertionSort (· ≤ ·)).Perm
      (idsOf nodes) := by
    rw [keys_dependenciesOf]
    exact (List.perm_insertionSort _ _).trans (idsOf_perm (sortNodes_perm nodes))
  have hinn : ∀ a ∈ (Dict.keys (dependenciesOf (sortNodes nodes))).insertionSort (· ≤ ·), ∀ b,
      b ∈ listAt (dependentsOf (nodes.map (fun n => (n.nodeId, n))) (sortNodes nodes)) a ↔
        b ∈ (Dict.keys (dependenciesOf (sortNodes nodes))).insertionSort (· ≤ ·)
          ∧ a ∈ refsOf nodes b := by
    intro a ha b
    rw [mem_listAt_dependentsOf h.ids_nodup (sortNodes_perm nodes) (hperm.mem_iff.mp ha),
      hperm.mem_iff]
  have hspec := Components.components_spec (hperm.nodup_iff.mpr h.ids_nodup)
    (fun x hx y hy => hperm.mem_iff.mpr (h.closed x (hperm.mem_iff.mp hx) y hy)) hinn
  rw [componentsOf, listAt_dependencies h.ids_nodup]
  exact ⟨h.closed, fun v hv => refsOf_of_not_mem hv, hspec.1.trans hperm,
    (hspec.1.trans hperm).nodup_iff.mpr h.ids_nodup, hspec.2⟩

/-- What `_iteration_plan` accepts of the groups, over the components found. -/
structure DeclaredOk (nodes : List Node) (groups : List IterationGroup) : Prop where
  ids_unique : (groups.map (fun g => g.groupId)).Nodup
  members_nodup : (groups.map (fun g => g.members)).Nodup
  cyclic : ∀ m, m ∈ groups.map (fun g => g.members) ↔
    m ∈ (componentsOf nodes).filter (fun c => isCyclic (refsOf nodes) c)
  seeds : ∀ g ∈ groups, ∀ p ∈ g.seeds,
    checkSeed (nodes.map (fun n => (n.nodeId, n))) g p = .ok ()

/-- The order of the component keys. -/
def keyOrder (nodes : List Node) (groups : List IterationGroup) : List String :=
  (TopologicalSort.kahn ((componentsOf nodes).map componentKey)
    (listAt (Condensed.prerequisites (componentsOf nodes) (refsOf nodes) groups))
    (listAt (Condensed.successors (componentsOf nodes) (refsOf nodes) groups))).order

section Declared

local instance members_lawful : LawfulBEq (List String) := inferInstance

/-- `_iteration_plan` after its loop over the groups. -/
def planDeclared (nodes : List Node) (declared : List IterationGroup) :
    Except EngineError (List PlanStep) :=
  match ((componentsOf nodes).filter (fun c => isCyclic (refsOf nodes) c)).filter
    (fun c => c ∉ declared.map (fun g => g.members)) with
  | c :: cs => .error (.cycle (findCycle (cs.foldl min c) (refsOf nodes)))
  | [] => (topologicalOrder ((componentsOf nodes).map componentKey)
      (listAt (Condensed.prerequisites (componentsOf nodes) (refsOf nodes) declared))
      (listAt (Condensed.successors (componentsOf nodes) (refsOf nodes) declared))).mapError
        (fun _ => .iterationPolicy "seed prerequisites create an execution cycle") >>=
      fun order => pure (Condensed.planOf (componentsOf nodes) declared order)

end Declared

/-- The result of `_iteration_plan`. -/
theorem iterationPlan_eq_ok_iff {nodes : List Node} (h : RefsPresent nodes)
    {groups : List IterationGroup} {plan : List PlanStep} :
    iterationPlan (nodes.map (fun n => (n.nodeId, n))) (dependenciesOf (sortNodes nodes))
        (dependentsOf (nodes.map (fun n => (n.nodeId, n))) (sortNodes nodes)) groups = .ok plan ↔
      DeclaredOk nodes groups
        ∧ (keyOrder nodes groups).length = (componentsOf nodes).length
        ∧ plan = Condensed.planOf (componentsOf nodes) groups (keyOrder nodes groups) := by
  -- the plan is made in two parts: the groups are declared, and the keys ordered
  have hfold : iterationPlan (nodes.map (fun n => (n.nodeId, n))) (dependenciesOf (sortNodes nodes))
      (dependentsOf (nodes.map (fun n => (n.nodeId, n))) (sortNodes nodes)) groups
      = (groups.foldlM (declareGroup (nodes.map (fun n => (n.nodeId, n)))
          ((componentsOf nodes).filter (fun c => isCyclic (refsOf nodes) c))) [])
          >>= planDeclared nodes := by
    unfold planDeclared
    rw [← listAt_dependencies h.ids_nodup]
    rfl
  -- a cycle of the keys is reported under another name only
  have hmap : ∀ {x : Except EngineError (List String)} {f : EngineError → EngineError}
      {l : List String}, x.mapError f = .ok l ↔ x = .ok l := by
    intro x f l
    cases x <;> simp [Except.mapError]
  rw [hfold, Except.bind_eq_ok_iff]
  constructor
  · rintro ⟨declared, hdecl, hrest⟩
    obtain ⟨rfl, hids, hmem, hall⟩ := foldlM_declareGroup.mp hdecl
    rw [planDeclared] at hrest
    split at hrest
    · cases hrest
    · rename_i hmissing
      obtain ⟨order, horder, hplan⟩ := Except.bind_eq_ok_iff.mp hrest
      obtain ⟨rfl, hlen⟩ := topologicalOrder_eq_ok_iff.mp (hmap.mp horder)
      rw [Except.pure_eq_ok, Except.ok.injEq] at hplan
      refine ⟨⟨hids, hmem, ?_, fun g hg => (hall g hg).2⟩, by rwa [List.length_map] at hlen,
        hplan.symm⟩
      -- the declared groups are the cyclic components: none is missing, none is no component
      intro m
      constructor
      · intro hm
        obtain ⟨g, hg, rfl⟩ := List.mem_map.mp hm
        exact (hall g hg).1
      · intro hm
        by_contra hnot
        rw [List.filter_eq_nil_iff] at hmissing
        exact hmissing m hm (by simpa using hnot)
  · rintro ⟨hd, hlen, rfl⟩
    refine ⟨groups, foldlM_declareGroup.mpr ⟨rfl, hd.ids_unique, hd.members_nodup, fun g hg =>
      ⟨(hd.cyclic _).mp (List.mem_map.mpr ⟨g, hg, rfl⟩), hd.seeds g hg⟩⟩, ?_⟩
    have hmissing : ((componentsOf nodes).filter (fun c => isCyclic (refsOf nodes) c)).filter
        (fun c => c ∉ groups.map (fun g => g.members)) = [] := by
      rw [List.filter_eq_nil_iff]
      intro m hm
      simpa using List.mem_map.mp ((hd.cyclic m).mpr hm)
    rw [planDeclared, hmissing, Except.bind_eq_ok_iff]
    exact ⟨_, hmap.mpr (topologicalOrder_eq_ok_iff.mpr ⟨rfl, by rwa [List.length_map]⟩), rfl⟩

section

variable {nodes : List Node} {groups : List IterationGroup}

theorem DeclaredOk.seed_mem (h : RefsPresent nodes) (hd : DeclaredOk nodes groups) :
    ∀ g ∈ groups, ∀ p ∈ g.seeds, p.2 ∈ idsOf nodes := by
  intro g hg p hp
  obtain ⟨-, -, -, s, hs, -, hsid, -⟩ := (checkSeed_eq_ok_iff h.ids_nodup).mp (hd.seeds g hg p hp)
  exact List.mem_map.mpr ⟨s, hs, hsid⟩

/-- Declared groups are components. -/
theorem DeclaredOk.members_mem (hd : DeclaredOk nodes groups) :
    ∀ g ∈ groups, g.members ∈ componentsOf nodes := by
  intro g hg
  exact (List.mem_filter.mp ((hd.cyclic _).mp (List.mem_map.mpr ⟨g, hg, rfl⟩))).1

/-- The checks on the groups and the completeness of the order are the stated conditions. -/
theorem declaredOk_iff (h : RefsPresent nodes) :
    DeclaredOk nodes groups ∧ (keyOrder nodes groups).length = (componentsOf nodes).length ↔
      PlanConditions nodes groups := by
  have hcond := condensed_componentsOf h
  have horder : DeclaredOk nodes groups →
      ((keyOrder nodes groups).length = (componentsOf nodes).length ↔
        ∀ v ∈ idsOf nodes, ¬ Relation.TransGen (Waits (refsOf nodes) groups) v v) := by
    intro hd
    rw [← hcond.acyclic_iff hd.members_nodup hd.members_mem (hd.seed_mem h),
      ← TopologicalSort.kahn_complete_iff (hcond.graph (hd.seed_mem h)), List.length_map, keyOrder]
  constructor
  · rintro ⟨hd, hlen⟩
    refine ⟨hd.members_nodup, fun m => (hd.cyclic m).trans hcond.mem_cyclic_iff, hd.ids_unique,
      ?_, ?_, (horder hd).mp hlen⟩
    · intro g hg m hm
      rw [← g.ok.seeds_keys] at hm
      obtain ⟨p, hp, rfl⟩ := List.mem_map.mp hm
      obtain ⟨-, n, hn, -, -, hid, -, harith, -⟩ :=
        (checkSeed_eq_ok_iff h.ids_nodup).mp (hd.seeds g hg p hp)
      exact ⟨n, hn, hid, harith⟩
    · intro g hg p hp
      obtain ⟨hext, m, hm, s, hs, hid, hsid, -, hunit, hperiod⟩ :=
        (checkSeed_eq_ok_iff h.ids_nodup).mp (hd.seeds g hg p hp)
      exact ⟨hext, m, hm, s, hs, hid, hsid, hunit, hperiod⟩
  · intro hc
    have hd : DeclaredOk nodes groups := by
      refine ⟨hc.ids_unique, hc.members_nodup,
        fun m => (hc.members_exact m).trans hcond.mem_cyclic_iff.symm, ?_⟩
      intro g hg p hp
      obtain ⟨hext, m, hm, s, hs, hid, hsid, hunit, hperiod⟩ := hc.seeds g hg p hp
      have hp1 : p.1 ∈ g.members := by
        rw [← g.ok.seeds_keys]
        exact List.mem_map.mpr ⟨p, hp, rfl⟩
      obtain ⟨n, hn, hnid, harith⟩ := hc.arithmetic g hg p.1 hp1
      obtain rfl : n = m := List.inj_on_of_nodup_map h.ids_nodup hn hm (hnid.trans hid.symm)
      exact (checkSeed_eq_ok_iff h.ids_nodup).mpr
        ⟨hext, n, hn, s, hs, hid, hsid, harith, hunit, hperiod⟩
    exact ⟨hd, (horder hd).mpr hc.acyclic⟩

/-- The plan of the declared groups is in order. -/
theorem DeclaredOk.planOk (h : RefsPresent nodes) (hd : DeclaredOk nodes groups)
    (hlen : (keyOrder nodes groups).length = (componentsOf nodes).length) :
    PlanOk nodes groups (Condensed.planOf (componentsOf nodes) groups (keyOrder nodes groups)) := by
  have hcond := condensed_componentsOf h
  obtain ⟨hnodup, hsub, hsorted⟩ := TopologicalSort.kahn_spec (hcond.graph (hd.seed_mem h))
  refine hcond.planOk_planOf hd.members_nodup hd.members_mem (hd.seed_mem h) ?_ ?_ hsorted
  · intro c hc hcyc
    exact (hd.cyclic c).mpr (List.mem_filter.mpr ⟨hc, hcyc⟩)
  · refine (List.subperm_of_subset hnodup hsub).perm_of_length_le ?_
    rw [List.length_map]
    exact hlen.ge

/-- The conditions do not depend on the order of the groups. -/
theorem PlanConditions.perm {groups' : List IterationGroup} (hc : PlanConditions nodes groups)
    (hperm : groups.Perm groups') : PlanConditions nodes groups' := by
  have hw : Waits (refsOf nodes) groups' = Waits (refsOf nodes) groups := by
    funext a b
    simp only [Waits, hperm.mem_iff]
  refine ⟨(hperm.map _).nodup_iff.mp hc.members_nodup, ?_, (hperm.map _).nodup_iff.mp hc.ids_unique,
    ?_, ?_, hw ▸ hc.acyclic⟩
  · exact fun m => ((hperm.map _).mem_iff.symm).trans (hc.members_exact m)
  · exact fun g hg => hc.arithmetic g (hperm.mem_iff.mpr hg)
  · exact fun g hg => hc.seeds g (hperm.mem_iff.mpr hg)

/-- The order of the groups does not change whether a plan is right. -/
theorem PlanOk.perm {groups' : List IterationGroup} {plan : List PlanStep}
    (hp : PlanOk nodes groups plan) (hperm : groups.Perm groups') : PlanOk nodes groups' plan :=
  ⟨hp.ids, fun g => (hp.groups_mem g).trans hperm.mem_iff,
    fun i hi g hg => hp.single i hi g (hperm.mem_iff.mpr hg), hp.earlier, hp.seeds_earlier⟩

theorem sortGroups_perm (groups : List IterationGroup) : (sortGroups groups).Perm groups :=
  List.perm_insertionSort _ groups

/-- A node set without groups is accepted exactly when it has no cycle. -/
theorem planConditions_nil_iff :
    PlanConditions nodes [] ↔
      ∀ v ∈ idsOf nodes, ¬ Relation.TransGen (fun x y => y ∈ refsOf nodes x) v v := by
  rw [← no_cyclicScc_iff]
  constructor
  · intro hc m hm
    simpa using (hc.members_exact m).mpr hm
  · intro hno
    refine ⟨by simp, ?_, by simp, by simp, by simp, fun v _ => not_transGen_waits_nil _ v⟩
    exact fun m => ⟨fun hm => by simp at hm, fun hm => absurd hm (hno m)⟩

/-- The plan of a sorted node set without groups. -/
theorem planOk_nodes {order : List String} (hperm : order.Perm (idsOf nodes))
    (hsorted : TopologicalSort.Sorted (refsOf nodes) order) :
    PlanOk nodes [] (order.map PlanStep.node) := by
  have hids : ∀ l : List String, planIds (l.map PlanStep.node) = l := by
    intro l
    simp [planIds, List.flatMap_map, PlanStep.members]
  refine ⟨by rwa [hids], by simp, by simp, ?_, ?_⟩
  · intro P s Q heq x hx y hy
    obtain ⟨A, B, hord, rfl, hB⟩ := List.map_eq_append_iff.mp heq
    obtain ⟨k, C, rfl, rfl, -⟩ := List.map_eq_cons_iff.mp hB
    rw [PlanStep.members, List.mem_singleton] at hx
    subst hx
    exact Or.inr ((hids A).symm ▸ hsorted A x C hord y hy)
  · intro P s Q heq y hy
    obtain ⟨A, B, -, -, hB⟩ := List.map_eq_append_iff.mp heq
    obtain ⟨k, C, -, rfl, -⟩ := List.map_eq_cons_iff.mp hB
    simp [PlanStep.seeds] at hy

/-- The plan construction succeeds exactly under the stated conditions. -/
theorem buildPlan_isOk_iff (h : RefsPresent nodes) :
    (∃ plan, buildPlan nodes groups = .ok plan) ↔ PlanConditions nodes groups := by
  rw [buildPlan_eq h, executionPlan]
  by_cases hg : sortGroups groups = []
  · obtain rfl := sortGroups_eq_nil.mp hg
    have hacyclic := TopologicalSort.kahn_complete_iff (graph_of_refs h)
    have hids := idsOf_perm (sortNodes_perm nodes)
    simp only [if_pos hg, Except.bind_eq_ok_iff, Except.pure_eq_ok, Except.ok.injEq,
      keys_dependenciesOf, topologicalOrder_eq_ok_iff, planConditions_nil_iff]
    rw [listAt_dependencies h.ids_nodup] at hacyclic ⊢
    constructor
    · rintro ⟨plan, order, ⟨-, hlen⟩, -⟩ v hv
      exact hacyclic.mp hlen v (hids.mem_iff.mpr hv)
    · intro hno
      exact ⟨_, _, ⟨rfl, hacyclic.mpr (fun v hv => hno v (hids.mem_iff.mp hv))⟩, rfl⟩
  · simp only [if_neg hg, iterationPlan_eq_ok_iff h]
    constructor
    · rintro ⟨plan, hd, hlen, -⟩
      exact ((declaredOk_iff h).mp ⟨hd, hlen⟩).perm (sortGroups_perm groups)
    · intro hc
      obtain ⟨hd, hlen⟩ := (declaredOk_iff h).mpr (hc.perm (sortGroups_perm groups).symm)
      exact ⟨_, hd, hlen, rfl⟩

/-- A plan that was constructed is in order. -/
theorem planOk_of_buildPlan {plan : List PlanStep} (hplan : buildPlan nodes groups = .ok plan) :
    PlanOk nodes groups plan := by
  have h := refsPresent_of_buildPlan hplan
  rw [buildPlan_eq h, executionPlan] at hplan
  by_cases hg : sortGroups groups = []
  · obtain rfl := sortGroups_eq_nil.mp hg
    have hids := idsOf_perm (sortNodes_perm nodes)
    simp only [if_pos hg, Except.bind_eq_ok_iff, Except.pure_eq_ok, Except.ok.injEq,
      keys_dependenciesOf, topologicalOrder_eq_ok_iff] at hplan
    obtain ⟨order, ⟨rfl, hlen⟩, rfl⟩ := hplan
    obtain ⟨hnodup, hsub, hsorted⟩ := TopologicalSort.kahn_spec (graph_of_refs h)
    have hperm := (List.subperm_of_subset hnodup hsub).perm_of_length_le hlen.ge
    rw [listAt_dependencies h.ids_nodup] at hsorted hperm ⊢
    exact planOk_nodes (hperm.trans hids) hsorted
  · rw [if_neg hg, iterationPlan_eq_ok_iff h] at hplan
    obtain ⟨hd, hlen, rfl⟩ := hplan
    exact (hd.planOk h hlen).perm (sortGroups_perm groups)

end

/-- **Exact-component plans.**  Over a node set with all references present, the plan construction
of `ModelGraph.build` succeeds exactly when the declared groups are the cyclic components of the
reference graph, with unique ids, arithmetic members, external seeds of the right unit and period
and no cycle through the seeds.  The plan then lists every node once, after everything it needs. -/
theorem buildPlan_exact_components (nodes : List Node) (groups : List IterationGroup)
    (h : RefsPresent nodes) :
    ((∃ plan, buildPlan nodes groups = .ok plan) ↔ PlanConditions nodes groups)
      ∧ ∀ plan, buildPlan nodes groups = .ok plan → PlanOk nodes groups plan :=
  ⟨buildPlan_isOk_iff h, fun _ hplan => planOk_of_buildPlan hplan⟩

/-! ### A two-node cycle -/

/-- Dollars. -/
def usd : TypedUnit := ⟨.currency, some "USD", none, by decide⟩

/-- Fiscal year 2024. -/
def fy2024 : FiscalPeriod := .year 2024 (by decide)

theorem offset_utc : |(0 : ℤ)| < Calendar.dayMicros := by decide

/-- The first instant of 2024. -/
def start2024 : AwareDatetime := ⟨738885 * 86400000000, 0, by decide, offset_utc⟩

/-- An assumption in dollars for 2024. -/
def assume (nodeId : String) (value : Decimal) : NodeFields :=
  ⟨nodeId, "", usd, fy2024, .analystAssumption value start2024 "a1"⟩

/-- A formula in dollars for 2024. -/
def formulaOf (nodeId : String) (op : Operator) (operands : List String) : NodeFields :=
  ⟨nodeId, "", usd, fy2024, .formula op operands "v1"⟩

/-- `x = y + s` and `y = x + s`. -/
def twoCycle : List Node :=
  [⟨formulaOf "y" .add ["x", "s"], by decide⟩, ⟨assume "s" (Decimal.ofNat 1), by decide⟩,
    ⟨formulaOf "x" .add ["y", "s"], by decide⟩]

def twoCycleGroup : IterationGroup :=
  ⟨⟨"g", ["x", "y"], [("x", "s"), ("y", "s")],
    [("x", Decimal.ofNat 1), ("y", Decimal.ofNat 1)], Decimal.ofNat 0, 10⟩, by decide⟩

theorem buildPlan_exact_components_twoCycle :
    RefsPresent twoCycle ∧ PlanConditions twoCycle [twoCycleGroup]
      ∧ PlanOk twoCycle [twoCycleGroup] [.node "s", .group twoCycleGroup]
      ∧ ¬ PlanConditions twoCycle [] := by
  have h : RefsPresent twoCycle := ⟨by decide, by decide⟩
  have hplan : buildPlan twoCycle [twoCycleGroup] = .ok [.node "s", .group twoCycleGroup] := by rfl
  have hnone : buildPlan twoCycle [] = .error (.cycle ["x", "y", "x"]) := by rfl
  obtain ⟨hiff, hok⟩ := buildPlan_exact_components twoCycle [twoCycleGroup] h
  refine ⟨h, hiff.mp ⟨_, hplan⟩, hok _ hplan, ?_⟩
  intro hc
  obtain ⟨plan, hp⟩ := (buildPlan_exact_components twoCycle [] h).1.mpr hc
  rw [hnone] at hp
  cases hp

end CalcEngine
