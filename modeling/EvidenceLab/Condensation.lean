/-
# The condensation of a reference graph

The reference graph of a node set, as the dictionaries of `ModelGraph.build` hold it, and its
strongly connected components as `_iteration_plan` orders them.

* `CyclicScc` is a cyclic component, and `Waits` the order the references between components and
  the seeds of the groups put on them.
* `Condensed` says that a list of lists is the list of components.  `mem_cyclic_iff`,
  `mem_prerequisitesOf_iff` and `acyclic_iff` connect what the code computes from it with the
  graph.
-/
import EvidenceLab.Graph

namespace CalcEngine

open Components (Reach SameScc)

/-! ## The reference graph -/

/-- The node ids. -/
def idsOf (nodes : List Node) : List String := nodes.map (fun n => n.nodeId)

/-- The references of the node with the given id. -/
def refsOf (nodes : List Node) (nodeId : String) : List String :=
  ((nodes.find? (fun n => n.nodeId = nodeId)).map (fun n => n.refs)).getD []

/-- A node set in which every reference is present. -/
structure RefsPresent (nodes : List Node) : Prop where
  ids_nodup : (idsOf nodes).Nodup
  refs_mem : ∀ n ∈ nodes, ∀ r ∈ n.refs, r ∈ idsOf nodes

/-- A cyclic strongly connected component, as the sorted list of its nodes. -/
def CyclicScc (out : String → List String) (members : List String) : Prop :=
  members.Pairwise (· < ·) ∧
    ∃ v, Relation.TransGen (fun x y => y ∈ out x) v v ∧ ∀ w, w ∈ members ↔ SameScc out v w

/-- The condensation with seed edges: the component of `a` waits for the component of `b` because
of a reference between them, or because a member of the one is seeded from the other. -/
def Waits (out : String → List String) (groups : List IterationGroup) (a b : String) : Prop :=
  (∃ a' b', SameScc out a a' ∧ SameScc out b b' ∧ b' ∈ out a' ∧ ¬ SameScc out a b) ∨
    ∃ g ∈ groups, ∃ p ∈ g.seeds, SameScc out a p.1 ∧ SameScc out b p.2

/-! ## The dictionaries of a graph -/

/-- The index exists if and only if the identifiers are distinct. -/
theorem indexNodes_eq_ok_iff {nodes : List Node} {byId : Dict String Node} :
    indexNodes nodes = .ok byId ↔
      (idsOf nodes).Nodup ∧ byId = nodes.map (fun n => (n.nodeId, n)) := by
  have hkeys : ∀ (acc : Dict String Node) (n : Node),
      Dict.keys (acc ++ [(n.nodeId, n)]) = Dict.keys acc ++ [n.nodeId] := by
    intro acc n
    simp [Dict.keys]
  have key : ∀ (todo : List Node) (acc : Dict String Node),
      todo.foldlM addNode acc = .ok byId ↔
        ((idsOf todo).Nodup ∧ ∀ i ∈ idsOf todo, i ∉ Dict.keys acc)
          ∧ byId = acc ++ todo.map (fun n => (n.nodeId, n)) := by
    intro todo
    induction todo with
    | nil => simp [idsOf, eq_comm]
    | cons n todo ih =>
        intro acc
        simp only [List.foldlM_cons, Except.bind_eq_ok_iff, ih]
        constructor
        · rintro ⟨acc', hacc, ⟨hnodup, hdisj⟩, rfl⟩
          obtain ⟨_, hn, hset⟩ := Except.bind_eq_ok_iff.mp hacc
          rw [Except.raiseIf_eq_ok_iff] at hn
          rw [Except.pure_eq_ok, Except.ok.injEq, Dict.set_of_not_mem hn] at hset
          subst hset
          rw [hkeys] at hdisj
          refine ⟨⟨List.nodup_cons.mpr ⟨fun hm => hdisj _ hm (by simp), hnodup⟩, ?_⟩, by simp⟩
          intro i hi
          rcases List.mem_cons.mp hi with rfl | hi
          · exact hn
          · exact fun hm => hdisj i hi (List.mem_append_left _ hm)
        · rintro ⟨⟨hnodup, hdisj⟩, rfl⟩
          have hn : n.nodeId ∉ Dict.keys acc := hdisj _ List.mem_cons_self
          refine ⟨acc ++ [(n.nodeId, n)], ?_, ⟨(List.nodup_cons.mp hnodup).2, ?_⟩, by simp⟩
          · rw [addNode, (Except.raiseIf_eq_ok_iff (u := ())).mpr hn, Except.ok_bind,
              Dict.set_of_not_mem hn]
            rfl
          · intro i hi hm
            rw [hkeys] at hm
            rcases List.mem_append.mp hm with hm | hm
            · exact hdisj i (List.mem_cons_of_mem _ hi) hm
            · rw [List.mem_singleton] at hm
              subst hm
              exact (List.nodup_cons.mp hnodup).1 hi
  rw [indexNodes, key nodes []]
  simp [Dict.keys]

/-- Sorting drops no node. -/
theorem sortNodes_perm (nodes : List Node) : (sortNodes nodes).Perm nodes :=
  List.perm_insertionSort _ nodes

theorem idsOf_perm {nodes nodes' : List Node} (h : nodes.Perm nodes') :
    (idsOf nodes).Perm (idsOf nodes') := h.map _

/-- The node with an id, found in a list of nodes with distinct ids. -/
theorem find?_eq_some_iff {nodes : List Node} (h : (idsOf nodes).Nodup) {i : String} {n : Node} :
    nodes.find? (fun n => n.nodeId = i) = some n ↔ n ∈ nodes ∧ n.nodeId = i := by
  constructor
  · intro hf
    exact ⟨List.mem_of_find?_eq_some hf, by simpa using List.find?_some hf⟩
  · rintro ⟨hn, rfl⟩
    cases hf : nodes.find? (fun m => m.nodeId = n.nodeId) with
    | none =>
        rw [List.find?_eq_none] at hf
        exact absurd (decide_eq_true rfl) (hf n hn)
    | some m =>
        have hm := List.mem_of_find?_eq_some hf
        have hid : m.nodeId = n.nodeId := by simpa using List.find?_some hf
        rw [List.inj_on_of_nodup_map h hm hn hid]

/-- A node is found under its identifier. -/
theorem refsOf_of_mem {nodes : List Node} (h : (idsOf nodes).Nodup) {n : Node} (hn : n ∈ nodes) :
    refsOf nodes n.nodeId = n.refs := by
  rw [refsOf, (find?_eq_some_iff h).mpr ⟨hn, rfl⟩]
  rfl

theorem refsOf_of_not_mem {nodes : List Node} {i : String} (hi : i ∉ idsOf nodes) :
    refsOf nodes i = [] := by
  have hf : nodes.find? (fun n => n.nodeId = i) = none := by
    rw [List.find?_eq_none]
    intro n hn heq
    exact hi (List.mem_map.mpr ⟨n, hn, by simpa using heq⟩)
  rw [refsOf, hf]
  rfl

/-- The index finds the nodes by their identifiers. -/
theorem get?_index {nodes : List Node} (h : (idsOf nodes).Nodup) {i : String} {n : Node} :
    Dict.get? (nodes.map (fun n => (n.nodeId, n))) i = some n ↔ n ∈ nodes ∧ n.nodeId = i := by
  have hkeys : (Dict.keys (nodes.map (fun n => (n.nodeId, n)))).Nodup := by
    simpa [Dict.keys, idsOf, Function.comp_def] using h
  constructor
  · intro hg
    obtain ⟨m, hm, heq⟩ := List.mem_map.mp (Dict.mem_of_get? hg)
    cases heq
    exact ⟨hm, rfl⟩
  · rintro ⟨hn, rfl⟩
    exact Dict.get?_of_mem hkeys (List.mem_map.mpr ⟨n, hn, rfl⟩)

theorem keys_index (nodes : List Node) :
    Dict.keys (nodes.map (fun n => (n.nodeId, n))) = idsOf nodes := by
  simp [Dict.keys, idsOf, Function.comp_def]

/-- The dependency lists are the reference lists. -/
theorem listAt_dependenciesOf {nodes sorted : List Node} (h : (idsOf nodes).Nodup)
    (hperm : sorted.Perm nodes) (i : String) :
    listAt (dependenciesOf sorted) i = refsOf nodes i := by
  have hs : (idsOf sorted).Nodup := (idsOf_perm hperm).nodup_iff.mpr h
  have hkeys : (Dict.keys (dependenciesOf sorted)).Nodup := by
    simpa [Dict.keys, dependenciesOf, idsOf, Function.comp_def] using hs
  by_cases hi : i ∈ idsOf nodes
  · obtain ⟨n, hn, rfl⟩ := List.mem_map.mp hi
    rw [listAt, refsOf_of_mem h hn, Dict.get?_of_mem hkeys
      (List.mem_map.mpr ⟨n, hperm.mem_iff.mpr hn, rfl⟩)]
    rfl
  · rw [refsOf_of_not_mem hi, listAt, Dict.get?_eq_none_iff.mpr]
    · rfl
    · intro hm
      apply hi
      rw [← (idsOf_perm hperm).mem_iff]
      simpa [Dict.keys, dependenciesOf, idsOf, Function.comp_def] using hm

/-- Every node has an entry of dependencies. -/
theorem keys_dependenciesOf (sorted : List Node) :
    Dict.keys (dependenciesOf sorted) = idsOf sorted := by
  simp [Dict.keys, dependenciesOf, idsOf, Function.comp_def]

/-- Every node has an entry of dependents. -/
theorem keys_dependentsOf (nodes sorted : List Node) :
    Dict.keys (dependentsOf (nodes.map (fun n => (n.nodeId, n))) sorted) = idsOf nodes := by
  rw [dependentsOf, Dict.keys, List.map_map, keys_index]
  simp [Function.comp_def]

/-- The dependents of a node are those that refer to it. -/
theorem listAt_dependentsOf {nodes sorted : List Node} (h : (idsOf nodes).Nodup) {a : String}
    (ha : a ∈ idsOf nodes) :
    listAt (dependentsOf (nodes.map (fun n => (n.nodeId, n))) sorted) a
      = (sorted.filter (fun n => a ∈ n.refs)).map (fun n => n.nodeId) := by
  have hkeys := keys_dependentsOf nodes sorted
  rw [listAt, Dict.get?_of_mem (hkeys ▸ h)]
  · rfl
  · rw [dependentsOf, keys_index]
    exact List.mem_map.mpr ⟨a, ha, rfl⟩

/-- The dependents of a node are the nodes that reference it. -/
theorem mem_listAt_dependentsOf {nodes sorted : List Node} (h : (idsOf nodes).Nodup)
    (hperm : sorted.Perm nodes) {a : String} (ha : a ∈ idsOf nodes) (b : String) :
    b ∈ listAt (dependentsOf (nodes.map (fun n => (n.nodeId, n))) sorted) a ↔
      b ∈ idsOf nodes ∧ a ∈ refsOf nodes b := by
  rw [listAt_dependentsOf h ha, List.mem_map]
  constructor
  · rintro ⟨n, hn, rfl⟩
    rw [List.mem_filter, hperm.mem_iff, decide_eq_true_eq] at hn
    exact ⟨List.mem_map.mpr ⟨n, hn.1, rfl⟩, by rw [refsOf_of_mem h hn.1]; exact hn.2⟩
  · rintro ⟨hb, hab⟩
    obtain ⟨n, hn, rfl⟩ := List.mem_map.mp hb
    rw [refsOf_of_mem h hn] at hab
    exact ⟨n, List.mem_filter.mpr ⟨hperm.mem_iff.mpr hn, by simpa using hab⟩, rfl⟩

/-- No dependent is listed twice. -/
theorem nodup_listAt_dependentsOf {nodes sorted : List Node} (h : (idsOf nodes).Nodup)
    (hperm : sorted.Perm nodes) {a : String} (ha : a ∈ idsOf nodes) :
    (listAt (dependentsOf (nodes.map (fun n => (n.nodeId, n))) sorted) a).Nodup := by
  rw [listAt_dependentsOf h ha]
  have hs : (idsOf sorted).Nodup := (idsOf_perm hperm).nodup_iff.mpr h
  exact (List.filter_sublist.map _).nodup hs

/-- The graph is closed under references. -/
theorem RefsPresent.closed {nodes : List Node} (h : RefsPresent nodes) :
    ∀ v ∈ idsOf nodes, ∀ d ∈ refsOf nodes v, d ∈ idsOf nodes := by
  intro v hv d hd
  obtain ⟨n, hn, rfl⟩ := List.mem_map.mp hv
  rw [refsOf_of_mem h.ids_nodup hn] at hd
  exact h.refs_mem n hn d hd

/-- No reference is listed twice. -/
theorem nodup_refsOf {nodes : List Node} (h : (idsOf nodes).Nodup) (v : String) :
    (refsOf nodes v).Nodup := by
  by_cases hv : v ∈ idsOf nodes
  · obtain ⟨n, hn, rfl⟩ := List.mem_map.mp hv
    rw [refsOf_of_mem h hn]
    exact n.refs_nodup
  · rw [refsOf_of_not_mem hv]
    exact List.nodup_nil

/-- What a plan construction that got to the plan works on. -/
theorem buildPlan_eq {nodes : List Node} (h : RefsPresent nodes) (groups : List IterationGroup) :
    buildPlan nodes groups = executionPlan (nodes.map (fun n => (n.nodeId, n)))
      (dependenciesOf (sortNodes nodes))
      (dependentsOf (nodes.map (fun n => (n.nodeId, n))) (sortNodes nodes))
      (sortGroups groups) := by
  have hindex : indexNodes nodes = .ok (nodes.map (fun n => (n.nodeId, n))) :=
    indexNodes_eq_ok_iff.mpr ⟨h.ids_nodup, rfl⟩
  have hinputs : (sortNodes nodes).forM (checkInputs (nodes.map (fun n => (n.nodeId, n))))
      = .ok () := by
    rw [Except.forM_eq_ok_iff]
    intro n hn
    rw [checkInputs, Except.forM_eq_ok_iff]
    intro input hin
    rw [Except.raiseIf_eq_ok_iff, not_not, keys_index]
    apply h.refs_mem n ((sortNodes_perm nodes).mem_iff.mp hn)
    rw [NodeFields.refs, ← NodeBody.map_snd_inputs]
    exact List.mem_map.mpr ⟨input, hin, rfl⟩
  rw [buildPlan, hindex, Except.ok_bind]
  simp only [hinputs, Except.ok_bind]

/-- A plan construction that returned had all references present. -/
theorem refsPresent_of_buildPlan {nodes : List Node} {groups : List IterationGroup}
    {plan : List PlanStep} (h : buildPlan nodes groups = .ok plan) : RefsPresent nodes := by
  obtain ⟨byId, hindex, h⟩ := Except.bind_eq_ok_iff.mp h
  obtain ⟨hnodup, rfl⟩ := indexNodes_eq_ok_iff.mp hindex
  obtain ⟨_, hinputs, -⟩ := Except.bind_eq_ok_iff.mp h
  rw [Except.forM_eq_ok_iff] at hinputs
  refine ⟨hnodup, ?_⟩
  intro n hn r hr
  have hin := hinputs n ((sortNodes_perm nodes).mem_iff.mpr hn)
  rw [checkInputs, Except.forM_eq_ok_iff] at hin
  rw [NodeFields.refs, ← NodeBody.map_snd_inputs] at hr
  obtain ⟨input, hmem, rfl⟩ := List.mem_map.mp hr
  have := hin input hmem
  rwa [Except.raiseIf_eq_ok_iff, not_not, keys_index] at this

/-! ## Plans without groups -/

/-- An order is returned if and only if Kahn's algorithm orders every vertex. -/
theorem topologicalOrder_eq_ok_iff {vertices : List String} {out inn : String → List String}
    {order : List String} :
    topologicalOrder vertices out inn = .ok order ↔
      order = (TopologicalSort.kahn vertices out inn).order
        ∧ (TopologicalSort.kahn vertices out inn).order.length = vertices.length := by
  unfold topologicalOrder
  simp only
  split_ifs with h
  · rw [Except.ok.injEq]
    exact ⟨fun heq => ⟨heq.symm, h⟩, fun heq => heq.1.symm⟩
  · simp [h]

/-- The reference graph as the topological sort sees it. -/
theorem graph_of_refs {nodes : List Node} (h : RefsPresent nodes) :
    TopologicalSort.Graph (idsOf (sortNodes nodes))
      (listAt (dependenciesOf (sortNodes nodes)))
      (listAt (dependentsOf (nodes.map (fun n => (n.nodeId, n))) (sortNodes nodes))) := by
  have hperm := sortNodes_perm nodes
  have hmem : ∀ v, v ∈ idsOf (sortNodes nodes) ↔ v ∈ idsOf nodes :=
    fun v => (idsOf_perm hperm).mem_iff
  refine ⟨(idsOf_perm hperm).nodup_iff.mpr h.ids_nodup, ?_, ?_, ?_, ?_⟩
  · intro v hv d hd
    rw [listAt_dependenciesOf h.ids_nodup hperm] at hd
    exact (hmem d).mpr (h.closed v ((hmem v).mp hv) d hd)
  · intro v _
    rw [listAt_dependenciesOf h.ids_nodup hperm]
    exact nodup_refsOf h.ids_nodup v
  · intro v hv
    exact nodup_listAt_dependentsOf h.ids_nodup hperm ((hmem v).mp hv)
  · intro v hv w
    rw [mem_listAt_dependentsOf h.ids_nodup hperm ((hmem v).mp hv), hmem,
      listAt_dependenciesOf h.ids_nodup hperm]

theorem sortGroups_eq_nil {groups : List IterationGroup} :
    sortGroups groups = [] ↔ groups = [] := by
  rw [← List.length_eq_zero_iff, sortGroups, List.length_insertionSort, List.length_eq_zero_iff]

/-- A component on a cycle is cyclic, and a cyclic component has a node on a cycle. -/
theorem transGen_of_ne {out : String → List String} {a b : String} (h : SameScc out a b)
    (hne : a ≠ b) : Relation.TransGen (fun x y => y ∈ out x) a a := by
  rcases Relation.reflTransGen_iff_eq_or_transGen.mp h.1 with heq | hab
  · exact absurd heq.symm hne
  · exact Relation.TransGen.trans_left hab h.2

/-- No cycle means no cyclic component. -/
theorem no_cyclicScc_iff {nodes : List Node} :
    (∀ m, ¬ CyclicScc (refsOf nodes) m) ↔
      ∀ v ∈ idsOf nodes, ¬ Relation.TransGen (fun x y => y ∈ refsOf nodes x) v v := by
  classical
  constructor
  · intro h v hv hcycle
    have hclosed : ∀ w, SameScc (refsOf nodes) v w → w ∈ idsOf nodes := by
      intro w hw
      by_contra hnot
      rcases Relation.reflTransGen_iff_eq_or_transGen.mp hw.2 with rfl | hwv
      · exact hnot hv
      · obtain ⟨b, hwb, -⟩ := Relation.TransGen.head'_iff.mp hwv
        rw [refsOf_of_not_mem hnot] at hwb
        exact absurd hwb List.not_mem_nil
    let m := (Dict.fromKeys ((idsOf nodes).filter
      (fun w => decide (SameScc (refsOf nodes) v w)))).insertionSort (· ≤ ·)
    refine h m ⟨?_, v, hcycle, ?_⟩
    · exact (List.pairwise_insertionSort (· ≤ ·) _).imp₂
        (fun a b hle hne => lt_of_le_of_ne hle hne)
        ((List.perm_insertionSort (· ≤ ·) _).nodup_iff.mpr (Dict.nodup_fromKeys _))
    · intro w
      rw [(List.perm_insertionSort (· ≤ ·) _).mem_iff, Dict.mem_fromKeys, List.mem_filter,
        decide_eq_true_eq]
      exact ⟨And.right, fun hw => ⟨hclosed w hw, hw⟩⟩
  · rintro h m ⟨-, v, hcycle, -⟩
    by_cases hv : v ∈ idsOf nodes
    · exact h v hv hcycle
    · obtain ⟨b, hvb, -⟩ := Relation.TransGen.head'_iff.mp hcycle
      rw [refsOf_of_not_mem hv] at hvb
      exact absurd hvb List.not_mem_nil

/-- The condensation of the reference graph has no cycle of its own. -/
theorem not_transGen_waits_nil (out : String → List String) (v : String) :
    ¬ Relation.TransGen (Waits out []) v v := by
  have hstep : ∀ {a b : String}, Waits out [] a b → Reach out a b ∧ ¬ SameScc out a b := by
    rintro a b (⟨a', b', ha, hb, hedge, hne⟩ | ⟨g, hg, -⟩)
    · exact ⟨(ha.1.tail hedge).trans hb.2, hne⟩
    · simp at hg
  have hreach : ∀ {a b : String}, Relation.TransGen (Waits out []) a b → Reach out a b := by
    intro a b hab
    induction hab with
    | single h => exact (hstep h).1
    | tail _ h ih => exact ih.trans (hstep h).1
  intro hcycle
  obtain ⟨b, hvb, hbv⟩ := Relation.TransGen.head'_iff.mp hcycle
  refine (hstep hvb).2 ⟨(hstep hvb).1, ?_⟩
  rcases Relation.reflTransGen_iff_eq_or_transGen.mp hbv with rfl | h
  · exact Relation.ReflTransGen.refl
  · exact hreach h

/-! ## Components and their keys -/

/-- Sorted lists with the same elements are equal. -/
theorem eq_of_sorted_of_mem_iff {l l' : List String} (hl : l.Pairwise (· < ·))
    (hl' : l'.Pairwise (· < ·)) (h : ∀ x, x ∈ l ↔ x ∈ l') : l = l' := by
  have hperm : l.Perm l' := (List.perm_ext_iff_of_nodup hl.nodup hl'.nodup).mpr h
  exact hperm.eq_of_pairwise (fun a b _ _ hab hba => absurd (lt_trans hab hba) (lt_irrefl a)) hl hl'

/-- The components of a closed graph over `ids`. -/
structure Condensed (ids : List String) (out : String → List String)
    (comps : List (List String)) : Prop where
  closed : ∀ v ∈ ids, ∀ d ∈ out v, d ∈ ids
  outside : ∀ v, v ∉ ids → out v = []
  perm : comps.flatten.Perm ids
  nodup : comps.flatten.Nodup
  areComponents : Components.AreComponents out comps

namespace Condensed

variable {ids : List String} {out : String → List String} {comps : List (List String)}

/-- Every node is in a component. -/
theorem exists_mem (h : Condensed ids out comps) {x : String} (hx : x ∈ ids) :
    ∃ c ∈ comps, x ∈ c :=
  List.mem_flatten.mp (h.perm.mem_iff.mpr hx)

/-- Components have nodes of the graph only. -/
theorem mem_ids (h : Condensed ids out comps) {c : List String} (hc : c ∈ comps) {x : String}
    (hx : x ∈ c) : x ∈ ids :=
  h.perm.mem_iff.mp (List.mem_flatten.mpr ⟨c, hc, hx⟩)

/-- A component is named by one of its nodes. -/
theorem key_mem (h : Condensed ids out comps) {c : List String} (hc : c ∈ comps) :
    componentKey c ∈ c := by
  cases c with
  | nil => exact absurd rfl (h.areComponents [] hc).2.1
  | cons x c => exact List.mem_cons_self

/-- **The nodes of a component** are those strongly connected with any of them. -/
theorem sameScc (h : Condensed ids out comps) {c : List String} (hc : c ∈ comps) {x y : String}
    (hx : x ∈ c) : y ∈ c ↔ SameScc out x y :=
  (h.areComponents c hc).2.2 x hx y

/-- Two components that share a node are equal. -/
theorem eq_of_mem (h : Condensed ids out comps) {c c' : List String} (hc : c ∈ comps)
    (hc' : c' ∈ comps) {x : String} (hx : x ∈ c) (hx' : x ∈ c') : c = c' :=
  eq_of_sorted_of_mem_iff (h.areComponents c hc).1 (h.areComponents c' hc').1
    (fun y => by rw [h.sameScc hc hx, h.sameScc hc' hx'])

/-- Components are known by their keys. -/
theorem key_injOn (h : Condensed ids out comps) :
    ∀ c ∈ comps, ∀ c' ∈ comps, componentKey c = componentKey c' → c = c' := by
  intro c hc c' hc' heq
  exact h.eq_of_mem hc hc' (h.key_mem hc) (heq ▸ h.key_mem hc')

theorem comps_nodup (h : Condensed ids out comps) : comps.Nodup := by
  rw [List.nodup_iff_pairwise_ne]
  have hpair := (List.nodup_flatten.mp h.nodup).2
  refine hpair.imp_of_mem ?_
  intro c c' hc _ hdisj heq
  exact hdisj (h.key_mem hc) (heq ▸ h.key_mem hc)

/-- No two components have one key. -/
theorem keys_nodup (h : Condensed ids out comps) : (comps.map componentKey).Nodup :=
  h.comps_nodup.map_on (fun c hc c' hc' heq => h.key_injOn c hc c' hc' heq)

/-- The component of a node is found under its key. -/
theorem get?_componentOf (h : Condensed ids out comps) {c : List String} (hc : c ∈ comps)
    {x : String} (hx : x ∈ c) : (componentOf comps).get? x = some (componentKey c) := by
  apply Dict.get?_of_mem
  · have hkeys : Dict.keys (componentOf comps) = comps.flatten := by
      simp [Dict.keys, componentOf, List.map_flatMap, Function.comp_def, List.flatMap_id']
    rw [hkeys]
    exact h.nodup
  · exact List.mem_flatMap.mpr ⟨c, hc, List.mem_map.mpr ⟨x, hx, rfl⟩⟩

/-- The components that the code calls cyclic are the cyclic ones. -/
theorem mem_cyclic_iff (h : Condensed ids out comps) {m : List String} :
    m ∈ comps.filter (fun c => isCyclic out c) ↔ CyclicScc out m := by
  rw [List.mem_filter]
  constructor
  · rintro ⟨hc, hcyc⟩
    obtain ⟨hsort, hne, hclass⟩ := h.areComponents m hc
    refine ⟨hsort, ?_⟩
    match m, hcyc with
    | [v], hcyc =>
        have hself : v ∈ out v := by simpa [isCyclic] using hcyc
        exact ⟨v, Relation.TransGen.single hself, hclass v (List.mem_singleton_self v)⟩
    | v :: w :: m, _ =>
        have hlt : v < w := List.rel_of_pairwise_cons hsort List.mem_cons_self
        have hvw : SameScc out v w :=
          (hclass v List.mem_cons_self w).mp (List.mem_cons_of_mem _ List.mem_cons_self)
        exact ⟨v, transGen_of_ne hvw hlt.ne, hclass v List.mem_cons_self⟩
  · rintro ⟨hsort, v, hcycle, hclass⟩
    have hv : v ∈ ids := by
      by_contra hv
      obtain ⟨b, hvb, -⟩ := Relation.TransGen.head'_iff.mp hcycle
      rw [h.outside v hv] at hvb
      exact absurd hvb List.not_mem_nil
    obtain ⟨c, hc, hvc⟩ := h.exists_mem hv
    obtain rfl : m = c := eq_of_sorted_of_mem_iff hsort (h.areComponents c hc).1
      (fun y => by rw [hclass, h.sameScc hc hvc])
    refine ⟨hc, ?_⟩
    match m, hvc, hclass with
    | [u], hvc, hclass =>
        obtain rfl : v = u := by simpa using hvc
        -- the first edge of the cycle stays inside the component
        obtain ⟨b, hvb, hbv⟩ := Relation.TransGen.head'_iff.mp hcycle
        have hb : b ∈ [v] := (hclass b).mpr ⟨Relation.ReflTransGen.single hvb, hbv⟩
        rw [List.mem_singleton] at hb
        subst hb
        simpa [isCyclic] using hvb
    | _ :: _ :: _, _, _ => rfl

/-- The component of `x` waits for the component of `y` exactly when the key of the one is among
the prerequisites of the other. -/
theorem mem_prerequisitesOf_iff (h : Condensed ids out comps) {groups : List IterationGroup}
    (hnodup : (groups.map (fun g => g.members)).Nodup)
    (hmembers : ∀ g ∈ groups, g.members ∈ comps)
    (hseeds : ∀ g ∈ groups, ∀ p ∈ g.seeds, p.2 ∈ ids)
    {c c' : List String} (hc : c ∈ comps) (hc' : c' ∈ comps) {x y : String} (hx : x ∈ c)
    (hy : y ∈ c') :
    componentKey c' ∈ prerequisitesOf comps out groups c ↔ Waits out groups x y := by
  -- the entry of an element is the key of its component
  have hkeyOf : ∀ {d : List String} {z : String}, d ∈ comps → z ∈ d →
      ((componentOf comps).get? z).getD z = componentKey d := by
    intro d z hd hz
    rw [h.get?_componentOf hd hz]
    rfl
  -- the group of a component is the one with its members
  have hgroup : ∀ {g : IterationGroup}, groupOf groups c = some g ↔ g ∈ groups ∧ g.members = c := by
    intro g
    constructor
    · intro hg
      exact ⟨List.mem_of_find?_eq_some hg, by simpa using List.find?_some hg⟩
    · rintro ⟨hg, rfl⟩
      cases hf : groupOf groups g.members with
      | none =>
          rw [groupOf, List.find?_eq_none] at hf
          exact absurd (decide_eq_true rfl) (hf g hg)
      | some g' =>
          have hg' := List.mem_of_find?_eq_some hf
          have hm : g'.members = g.members := by simpa using List.find?_some hf
          rw [List.inj_on_of_nodup_map hnodup hg' hg hm]
  simp only [prerequisitesOf, (List.perm_insertionSort _ _).mem_iff, Dict.mem_fromKeys,
    List.mem_append, List.mem_filter, List.mem_map, List.mem_flatMap]
  constructor
  · rintro (⟨⟨b, ⟨a, ha, hb⟩, hkey⟩, hne⟩ | hseed)
    · left
      obtain ⟨d, hd, hbd⟩ := h.exists_mem (h.closed a (h.mem_ids hc ha) b hb)
      rw [hkeyOf hd hbd] at hkey
      obtain rfl := h.key_injOn d hd c' hc' hkey
      refine ⟨a, b, (h.sameScc hc hx).mp ha, (h.sameScc hc' hy).mp hbd, hb, ?_⟩
      intro hxy
      have hcc : c = d := h.eq_of_mem hc hc' ((h.sameScc hc hx).mpr hxy) hy
      rw [hcc] at hne
      simp at hne
    · right
      cases hg : groupOf groups c with
      | none => simp [hg] at hseed
      | some g =>
          obtain ⟨hgm, rfl⟩ := hgroup.mp hg
          simp only [hg, List.mem_map] at hseed
          obtain ⟨p, hp, hkey⟩ := hseed
          obtain ⟨d, hd, hpd⟩ := h.exists_mem (hseeds g hgm p hp)
          rw [hkeyOf hd hpd] at hkey
          obtain rfl := h.key_injOn d hd c' hc' hkey
          have hp1 : p.1 ∈ g.members := by
            rw [← g.ok.seeds_keys]
            exact List.mem_map.mpr ⟨p, hp, rfl⟩
          exact ⟨g, hgm, p, hp, (h.sameScc hc hx).mp hp1, (h.sameScc hc' hy).mp hpd⟩
  · rintro (⟨a, b, hxa, hyb, hb, hne⟩ | ⟨g, hg, p, hp, hxp, hyp⟩)
    · left
      have ha : a ∈ c := (h.sameScc hc hx).mpr hxa
      have hbc : b ∈ c' := (h.sameScc hc' hy).mpr hyb
      refine ⟨⟨b, ⟨a, ha, hb⟩, hkeyOf hc' hbc⟩, ?_⟩
      rw [decide_eq_true_eq]
      intro heq
      have hcc : c' = c := h.key_injOn c' hc' c hc heq
      exact hne ((h.sameScc hc hx).mp (hcc ▸ hy))
    · right
      have hpc : p.1 ∈ c := (h.sameScc hc hx).mpr hxp
      have hp1 : p.1 ∈ g.members := by
        rw [← g.ok.seeds_keys]
        exact List.mem_map.mpr ⟨p, hp, rfl⟩
      have hgc : g.members = c := h.eq_of_mem (hmembers g hg) hc hp1 hpc
      simp only [hgroup.mpr ⟨hg, hgc⟩, List.mem_map]
      exact ⟨p, hp, hkeyOf hc' ((h.sameScc hc' hy).mpr hyp)⟩

end Condensed

/-! ## Declared groups -/

theorem requireUnit_eq_ok_iff {n : Node} {u : TypedUnit} {x : Unit} :
    requireUnit n u = .ok x ↔ u = n.unit := by
  rw [requireUnit, Except.raiseIf_eq_ok_iff, not_not]

theorem requireSamePeriod_eq_ok_iff {n m : Node} {x : Unit} :
    requireSamePeriod n m = .ok x ↔ m.period = n.period := by
  rw [requireSamePeriod, Except.raiseIf_eq_ok_iff, not_not]

theorem lookup_eq_ok_iff {α : Type} {d : Dict String α} {k : String} {a : α} :
    lookup d k = .ok a ↔ d.get? k = some a := by
  unfold lookup
  cases d.get? k <;> simp

/-- What the checks on a member and its seed accept. -/
theorem checkSeed_eq_ok_iff {nodes : List Node} (h : (idsOf nodes).Nodup) {g : IterationGroup}
    {p : String × String} {u : Unit} :
    checkSeed (nodes.map (fun n => (n.nodeId, n))) g p = .ok u ↔
      p.2 ∉ g.members ∧ ∃ m ∈ nodes, ∃ s ∈ nodes, m.nodeId = p.1 ∧ s.nodeId = p.2
        ∧ m.body.isArithmetic = true ∧ s.unit = m.unit ∧ s.period = m.period := by
  simp only [checkSeed, Except.bind_eq_ok_iff, lookup_eq_ok_iff, get?_index h,
    Except.raiseIf_eq_ok_iff, exists_const]
  constructor
  · rintro ⟨m, ⟨hm, hid⟩, harith, hs⟩
    cases hg : Dict.get? (nodes.map (fun n => (n.nodeId, n))) p.2 with
    | none => simp [hg] at hs
    | some s =>
        obtain ⟨hsm, hsid⟩ := (get?_index h).mp hg
        simp only [hg, Except.bind_eq_ok_iff, Except.raiseIf_eq_ok_iff, requireUnit_eq_ok_iff,
          requireSamePeriod_eq_ok_iff, exists_const] at hs
        exact ⟨hs.1, m, hm, s, hsm, hid, hsid, by simpa using harith, hs.2.1, hs.2.2⟩
  · rintro ⟨hext, m, hm, s, hs, hid, hsid, harith, hunit, hperiod⟩
    refine ⟨m, ⟨hm, hid⟩, by simpa using harith, ?_⟩
    rw [(get?_index h).mpr ⟨hs, hsid⟩]
    simp only [Except.bind_eq_ok_iff, Except.raiseIf_eq_ok_iff, requireUnit_eq_ok_iff,
      requireSamePeriod_eq_ok_iff, exists_const]
    exact ⟨hext, hunit, hperiod⟩

/-- What the loop over the declared groups accepts. -/
theorem foldlM_declareGroup {byId : Dict String Node} {cyclic : List (List String)}
    {groups declared : List IterationGroup} :
    groups.foldlM (declareGroup byId cyclic) [] = .ok declared ↔
      declared = groups ∧ (groups.map (fun g => g.groupId)).Nodup
        ∧ (groups.map (fun g => g.members)).Nodup
        ∧ ∀ g ∈ groups, g.members ∈ cyclic ∧ ∀ p ∈ g.seeds, checkSeed byId g p = .ok () := by
  -- by induction on the groups still to declare, with the declared ones in the accumulator
  have key : ∀ (todo acc : List IterationGroup),
      (acc.map (fun g => g.groupId)).Nodup → (acc.map (fun g => g.members)).Nodup →
      (todo.foldlM (declareGroup byId cyclic) acc = .ok declared ↔
        declared = acc ++ todo ∧ ((acc ++ todo).map (fun g => g.groupId)).Nodup
          ∧ ((acc ++ todo).map (fun g => g.members)).Nodup
          ∧ ∀ g ∈ todo, g.members ∈ cyclic ∧ ∀ p ∈ g.seeds, checkSeed byId g p = .ok ()) := by
    intro todo
    induction todo with
    | nil =>
        intro acc h1 h2
        simp only [List.foldlM_nil, Except.pure_eq_ok, Except.ok.injEq, List.append_nil,
          List.not_mem_nil, false_imp_iff, implies_true, and_true]
        exact ⟨fun h => ⟨h.symm, h1, h2⟩, fun h => h.1.symm⟩
    | cons g todo ih =>
        intro acc h1 h2
        have hsnoc : acc ++ g :: todo = (acc ++ [g]) ++ todo := by simp
        rw [List.foldlM_cons, Except.bind_eq_ok_iff]
        simp only [declareGroup, Except.bind_eq_ok_iff, Except.raiseIf_eq_ok_iff,
          Except.forM_eq_ok_iff, exists_const, Except.pure_eq_ok, Except.ok.injEq, not_or, not_not]
        constructor
        · rintro ⟨acc', ⟨⟨hid, hmem⟩, hcyc, hseeds, rfl⟩, h⟩
          have h1' : ((acc ++ [g]).map (fun g => g.groupId)).Nodup := by
            rw [List.map_append, List.nodup_append]
            refine ⟨h1, List.nodup_singleton _, ?_⟩
            intro a ha b hb hab
            rw [List.map_singleton, List.mem_singleton] at hb
            rw [hab, hb] at ha
            exact hid ha
          have h2' : ((acc ++ [g]).map (fun g => g.members)).Nodup := by
            rw [List.map_append, List.nodup_append]
            refine ⟨h2, List.nodup_singleton _, ?_⟩
            intro a ha b hb hab
            rw [List.map_singleton, List.mem_singleton] at hb
            rw [hab, hb] at ha
            exact hmem ha
          obtain ⟨rfl, h3, h4, h5⟩ := (ih (acc ++ [g]) h1' h2').mp h
          rw [hsnoc]
          exact ⟨rfl, h3, h4, List.forall_mem_cons.mpr ⟨⟨hcyc, hseeds⟩, h5⟩⟩
        · rintro ⟨rfl, h3, h4, h5⟩
          rw [List.forall_mem_cons] at h5
          rw [hsnoc] at h3 h4
          have h1' : ((acc ++ [g]).map (fun g => g.groupId)).Nodup :=
            ((List.sublist_append_left (acc ++ [g]) todo).map _).nodup h3
          have h2' : ((acc ++ [g]).map (fun g => g.members)).Nodup :=
            ((List.sublist_append_left (acc ++ [g]) todo).map _).nodup h4
          refine ⟨acc ++ [g], ⟨⟨?_, ?_⟩, h5.1.1, h5.1.2, rfl⟩, ?_⟩
          · rw [List.map_append, List.nodup_append] at h1'
            exact fun hm => h1'.2.2 _ hm _ (List.mem_singleton_self _) rfl
          · rw [List.map_append, List.nodup_append] at h2'
            exact fun hm => h2'.2.2 _ hm _ (List.mem_singleton_self _) rfl
          · rw [ih (acc ++ [g]) h1' h2', hsnoc]
            exact ⟨rfl, h3, h4, h5.2⟩
  rw [key groups [] List.nodup_nil List.nodup_nil]
  simp

/-! ## The order of the components -/

namespace Condensed

variable {ids : List String} {out : String → List String} {comps : List (List String)}
  {groups : List IterationGroup}

/-- The prerequisites of the component with a given key. -/
def prerequisites (comps : List (List String)) (out : String → List String)
    (groups : List IterationGroup) : Dict String (List String) :=
  comps.map (fun c => (componentKey c, prerequisitesOf comps out groups c))

/-- The components that wait for the component with a given key. -/
def successors (comps : List (List String)) (out : String → List String)
    (groups : List IterationGroup) : Dict String (List String) :=
  comps.map (fun p => (componentKey p, (comps.filter (fun c =>
    componentKey p ∈ prerequisitesOf comps out groups c)).map componentKey))

/-- What is computed for a component is found under its key. -/
theorem listAt_map (h : Condensed ids out comps) (f : List String → List String)
    {c : List String} (hc : c ∈ comps) :
    listAt (comps.map (fun c => (componentKey c, f c))) (componentKey c) = f c := by
  rw [listAt, Dict.get?_of_mem]
  · rfl
  · simpa [Dict.keys, Function.comp_def] using h.keys_nodup
  · exact List.mem_map.mpr ⟨c, hc, rfl⟩

/-- Prerequisites are keys of components. -/
theorem prerequisitesOf_sub (h : Condensed ids out comps)
    (hseeds : ∀ g ∈ groups, ∀ p ∈ g.seeds, p.2 ∈ ids) {c : List String} (hc : c ∈ comps)
    {k : String} (hk : k ∈ prerequisitesOf comps out groups c) :
    ∃ c' ∈ comps, componentKey c' = k := by
  have hkeyOf : ∀ {z : String}, z ∈ ids →
      ∃ d ∈ comps, componentKey d = ((componentOf comps).get? z).getD z := by
    intro z hz
    obtain ⟨d, hd, hzd⟩ := h.exists_mem hz
    exact ⟨d, hd, by rw [h.get?_componentOf hd hzd]; rfl⟩
  simp only [prerequisitesOf, (List.perm_insertionSort _ _).mem_iff, Dict.mem_fromKeys,
    List.mem_append, List.mem_filter, List.mem_map, List.mem_flatMap] at hk
  rcases hk with ⟨⟨b, ⟨a, ha, hb⟩, rfl⟩, -⟩ | hseed
  · exact hkeyOf (h.closed a (h.mem_ids hc ha) b hb)
  · cases hg : groupOf groups c with
    | none => simp [hg] at hseed
    | some g =>
        simp only [hg, List.mem_map] at hseed
        obtain ⟨p, hp, rfl⟩ := hseed
        exact hkeyOf (hseeds g (List.mem_of_find?_eq_some hg) p hp)

/-- The condensation as the topological sort sees it. -/
theorem graph (h : Condensed ids out comps)
    (hseeds : ∀ g ∈ groups, ∀ p ∈ g.seeds, p.2 ∈ ids) :
    TopologicalSort.Graph (comps.map componentKey) (listAt (prerequisites comps out groups))
      (listAt (successors comps out groups)) := by
  refine ⟨h.keys_nodup, ?_, ?_, ?_, ?_⟩
  · intro v hv d hd
    obtain ⟨c, hc, rfl⟩ := List.mem_map.mp hv
    rw [prerequisites, h.listAt_map _ hc] at hd
    obtain ⟨c', hc', rfl⟩ := h.prerequisitesOf_sub hseeds hc hd
    exact List.mem_map.mpr ⟨c', hc', rfl⟩
  · intro v hv
    obtain ⟨c, hc, rfl⟩ := List.mem_map.mp hv
    rw [prerequisites, h.listAt_map _ hc, prerequisitesOf]
    exact (List.perm_insertionSort _ _).nodup_iff.mpr (Dict.nodup_fromKeys _)
  · intro v hv
    obtain ⟨c, hc, rfl⟩ := List.mem_map.mp hv
    rw [successors, h.listAt_map _ hc]
    exact (List.filter_sublist.map _).nodup h.keys_nodup
  · intro v hv w
    obtain ⟨c, hc, rfl⟩ := List.mem_map.mp hv
    rw [successors, h.listAt_map _ hc, List.mem_map]
    constructor
    · rintro ⟨d, hd, rfl⟩
      rw [List.mem_filter, decide_eq_true_eq] at hd
      exact ⟨List.mem_map.mpr ⟨d, hd.1, rfl⟩, by
        rw [prerequisites, h.listAt_map _ hd.1]; exact hd.2⟩
    · rintro ⟨hw, hv⟩
      obtain ⟨d, hd, rfl⟩ := List.mem_map.mp hw
      rw [prerequisites, h.listAt_map _ hd] at hv
      exact ⟨d, List.mem_filter.mpr ⟨hd, by simpa using hv⟩, rfl⟩

/-- The condensation has a cycle exactly when the waiting relation has one. -/
theorem acyclic_iff (h : Condensed ids out comps)
    (hnodup : (groups.map (fun g => g.members)).Nodup)
    (hmembers : ∀ g ∈ groups, g.members ∈ comps)
    (hseeds : ∀ g ∈ groups, ∀ p ∈ g.seeds, p.2 ∈ ids) :
    (∀ k ∈ comps.map componentKey,
        ¬ Relation.TransGen (fun x y => y ∈ listAt (prerequisites comps out groups) x) k k) ↔
      ∀ v ∈ ids, ¬ Relation.TransGen (Waits out groups) v v := by
  have hwait := @mem_prerequisitesOf_iff ids out comps h groups hnodup hmembers hseeds
  -- the waiting relation stays inside the graph
  have hmem : ∀ {a b : String}, Waits out groups a b → a ∈ ids ∧ b ∈ ids := by
    have hback : ∀ {a b : String}, SameScc out a b → b ∈ ids → a ∈ ids := by
      intro a b hab hb
      obtain ⟨c, hc, hbc⟩ := h.exists_mem hb
      exact h.mem_ids hc ((h.sameScc hc hbc).mpr hab.symm)
    rintro a b (⟨a', b', ha, hb, hedge, -⟩ | ⟨g, hg, p, hp, ha, hb⟩)
    · have ha' : a' ∈ ids := by
        by_contra hnot
        rw [h.outside a' hnot] at hedge
        exact absurd hedge List.not_mem_nil
      exact ⟨hback ha ha', hback hb (h.closed a' ha' b' hedge)⟩
    · have hp1 : p.1 ∈ g.members := by
        rw [← g.ok.seeds_keys]
        exact List.mem_map.mpr ⟨p, hp, rfl⟩
      exact ⟨hback ha (h.mem_ids (hmembers g hg) hp1), hback hb (hseeds g hg p hp)⟩
  constructor
  · intro hk v hv hcycle
    obtain ⟨c, hc, hvc⟩ := h.exists_mem hv
    -- a wait between elements is one between the keys of their components
    have key : ∀ {a b : String}, Relation.TransGen (Waits out groups) a b →
        ∀ c ∈ comps, a ∈ c → ∀ d ∈ comps, b ∈ d →
          Relation.TransGen (fun x y => y ∈ listAt (prerequisites comps out groups) x)
            (componentKey c) (componentKey d) := by
      intro a b hab c hc hac
      induction hab with
      | single hstep =>
          intro d hd hbd
          apply Relation.TransGen.single
          rw [prerequisites, h.listAt_map _ hc]
          exact (hwait hc hd hac hbd).mpr hstep
      | tail _ hstep ih =>
          intro d hd hbd
          obtain ⟨e, he, hbe⟩ := h.exists_mem (hmem hstep).1
          refine (ih e he hbe).tail ?_
          rw [prerequisites, h.listAt_map _ he]
          exact (hwait he hd hbe hbd).mpr hstep
    exact hk _ (List.mem_map.mpr ⟨c, hc, rfl⟩) (key hcycle c hc hvc c hc hvc)
  · intro hv k hk hcycle
    obtain ⟨c, hc, rfl⟩ := List.mem_map.mp hk
    -- a wait between keys is one between them as elements
    have key : ∀ {a b : String},
        Relation.TransGen (fun x y => y ∈ listAt (prerequisites comps out groups) x) a b →
        a ∈ comps.map componentKey → b ∈ comps.map componentKey ∧
          Relation.TransGen (Waits out groups) a b := by
      have hstep : ∀ {a b : String}, b ∈ listAt (prerequisites comps out groups) a →
          a ∈ comps.map componentKey → b ∈ comps.map componentKey ∧ Waits out groups a b := by
        intro a b hb ha
        obtain ⟨c, hc, rfl⟩ := List.mem_map.mp ha
        rw [prerequisites, h.listAt_map _ hc] at hb
        obtain ⟨d, hd, rfl⟩ := h.prerequisitesOf_sub hseeds hc hb
        exact ⟨List.mem_map.mpr ⟨d, hd, rfl⟩,
          (hwait hc hd (h.key_mem hc) (h.key_mem hd)).mp hb⟩
      intro a b hab ha
      induction hab with
      | single hb =>
          obtain ⟨h1, h2⟩ := hstep hb ha
          exact ⟨h1, Relation.TransGen.single h2⟩
      | tail _ hb ih =>
          obtain ⟨h1, h2⟩ := hstep hb ih.1
          exact ⟨h1, ih.2.tail h2⟩
    exact hv _ (h.mem_ids hc (h.key_mem hc)) (key hcycle hk).2

end Condensed

end CalcEngine
