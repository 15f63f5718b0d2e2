/-
# Orders and reported cycles

`ModelGraph.build` without iteration groups: an acyclic node set gets the lexicographically least
topological order of its ids, whatever order it is supplied in; a cyclic one is refused with a
cycle.

* `searchCycle_finds`: among nodes that each need another of them, the search never backs up, and
  what it returns is a cycle.
* `ModelGraph.build_perm`, `evaluate_reindex`: the order of supply shows in no result.
* **`build_order_or_cycle`**.
-/
import EvidenceLab.Runs

namespace CalcEngine

/-! ## The reported cycle -/

/-- A path that returns to its start, each node among the inputs of the one before. -/
structure IsCycle (out : String → List String) (path : List String) : Prop where
  long : 2 ≤ path.length
  closed : path.head? = path.getLast?
  edges : path.IsChain (fun a b => b ∈ out a)

/-- What the search returns when the top of the stack needs a node on it. -/
theorem isCycle_of_stack {out : String → List String} {v d : String} {below : List String}
    (hchain : (v :: below).IsChain (fun a b => a ∈ out b)) (hd : d ∈ v :: below) (hvd : d ∈ out v) :
    IsCycle out (((v :: below).takeWhile (· ≠ d) ++ [d]).reverse ++ [d]) := by
  have hsplit : (v :: below).takeWhile (· ≠ d) ++ [d] <+: v :: below := by
    have hdrop : (v :: below).dropWhile (· ≠ d) ≠ [] := by
      rw [ne_eq, List.dropWhile_eq_nil_iff]
      intro h
      simpa using h d hd
    obtain ⟨x, rest, hx⟩ := List.exists_cons_of_ne_nil hdrop
    have hxd : x = d := by
      have hhead := List.head_dropWhile_not (· ≠ d) hdrop
      simp only [hx, List.head_cons] at hhead
      simpa using hhead
    refine ⟨rest, ?_⟩
    conv_rhs => rw [← List.takeWhile_append_dropWhile (p := (· ≠ d)) (l := v :: below), hx, hxd]
    simp
  -- the path up the stack, and back from its top
  have hpath :
      (((v :: below).takeWhile (· ≠ d) ++ [d]).reverse).IsChain (fun a b => b ∈ out a) := by
    apply List.isChain_reverse.mpr
    exact List.IsChain.prefix hchain hsplit
  have htop : (((v :: below).takeWhile (· ≠ d) ++ [d]).reverse).getLast? = some v := by
    rw [List.getLast?_reverse]
    obtain ⟨rest, hrest⟩ := hsplit
    cases htake : (v :: below).takeWhile (· ≠ d) ++ [d] with
    | nil => simp at htake
    | cons x xs =>
        rw [htake, List.cons_append] at hrest
        rw [List.head?_cons, (List.cons.inj hrest).1]
  refine ⟨by simp, ?_, ?_⟩
  · rw [List.getLast?_concat, List.reverse_append, List.reverse_singleton, List.singleton_append,
      List.cons_append, List.head?_cons]
  rw [List.isChain_append]
  refine ⟨hpath, List.isChain_singleton d, ?_⟩
  intro x hx y hy
  rw [htop] at hx
  obtain rfl : v = x := Option.some.inj hx
  obtain rfl : d = y := by simpa using hy
  exact hvd

section Search

variable {remaining : List String} {out : String → List String}

/-- The stack of a search that never backed up: a path through the visited nodes, and the top has no
open need among the inputs it passed. -/
structure Trail (remaining : List String) (out : String → List String) (visited : List String)
    (v : String) (ds : List String) (below : List String) : Prop where
  chain : (v :: below).IsChain (fun a b => a ∈ out b)
  top : v ∈ remaining
  visited_iff : ∀ x, x ∈ visited ↔ x ∈ v :: below
  passed : ∃ before, out v = before ++ ds ∧ ∀ d ∈ before, d ∉ remaining

/-- **The search finds a cycle** among nodes that each need another of them. -/
theorem searchCycle_finds (hnodup : remaining.Nodup)
    (hneed : ∀ v ∈ remaining, ∃ d ∈ out v, d ∈ remaining) :
    ∀ (n : ℕ) {visited ds : List String} {v : String} {rest : List (String × List String)},
      Trail remaining out visited v ds (rest.map Prod.fst) →
      ds.length + ((remaining.filter (fun x => x ∉ visited)).map (fun x => (out x).length + 1)).sum
      < n →
      ∃ path seen, searchCycle remaining out n visited ((v, ds) :: rest) = (some path, seen)
        ∧ IsCycle out path := by
  intro n
  induction n with
  | zero =>
      intro visited ds v rest _ hlt
      omega
  | succ n ih =>
      intro visited ds v rest h hlt
      obtain ⟨before, hout, hbefore⟩ := h.passed
      cases ds with
      | nil =>
          -- the top needs a remaining node, and it passed none
          obtain ⟨d, hd, hmem⟩ := hneed v h.top
          rw [hout, List.append_nil] at hd
          exact absurd hmem (hbefore d hd)
      | cons d ds =>
          rw [List.length_cons] at hlt
          have hd : d ∈ out v := by rw [hout]; simp
          rw [searchCycle]
          split_ifs with hmem hstack hvisited
          · exact ⟨_, _, rfl, isCycle_of_stack h.chain hstack hd⟩
          · exact absurd ((h.visited_iff d).mp hvisited) hstack
          · -- the search goes on from `d`
            have hpush :
                Trail remaining out (d :: visited) d (out d) (((v, ds) :: rest).map Prod.fst) := by
              refine ⟨?_, hmem, ?_, [], rfl, by simp⟩
              · rw [List.map_cons, List.isChain_cons_cons]
                exact ⟨hd, h.chain⟩
              · intro x
                rw [List.map_cons, List.mem_cons, h.visited_iff x, List.mem_cons (a := x) (b := d)]
            have hsum :=
              Components.sum_filter_visited (fun x => (out x).length + 1) hnodup hmem hvisited
            exact ih hpush (by omega)
          · have hskip : Trail remaining out visited v ds (rest.map Prod.fst) := by
              refine ⟨h.chain, h.top, h.visited_iff, before ++ [d], by simp [hout], ?_⟩
              intro x hx
              rcases List.mem_append.mp hx with hx | hx
              · exact hbefore x hx
              · rw [List.mem_singleton.mp hx]
                exact hmem
            exact ih hskip (by omega)

/-- **The report**: among nodes that each need another of them, `_find_cycle` reports a cycle. -/
theorem findCycle_isCycle (hnodup : remaining.Nodup) (hne : remaining ≠ [])
    (hneed : ∀ v ∈ remaining, ∃ d ∈ out v, d ∈ remaining) :
    IsCycle out (findCycle remaining out) := by
  have hsort : remaining.insertionSort (· ≤ ·) ≠ [] := by
    intro h
    exact hne (List.perm_nil.mp (h ▸ (List.perm_insertionSort _ remaining).symm))
  obtain ⟨start, starts, hstarts⟩ := List.exists_cons_of_ne_nil hsort
  have hstart : start ∈ remaining := by
    rw [← (List.perm_insertionSort (· ≤ ·) remaining).mem_iff, hstarts]
    exact List.mem_cons_self
  have htrail :
      Trail remaining out [start] start (out start)
        (([] : List (String × List String)).map Prod.fst) :=
    ⟨List.isChain_singleton start, hstart, fun x => Iff.rfl, [], rfl, by simp⟩
  -- the turns are enough
  have hfuel : (out start).length + ((remaining.filter (fun x => x ∉ [start])).map
      (fun x => (out x).length + 1)).sum < Components.fuel remaining out + 1 := by
    have hsum := Components.sum_filter_visited (fun x => (out x).length + 1) hnodup hstart
      (List.not_mem_nil (a := start))
    have hall : remaining.filter (fun x => decide (x ∉ ([] : List String))) = remaining := by simp
    rw [hall] at hsum
    rw [Components.fuel]
    omega
  obtain ⟨path, seen, hsearch, hcycle⟩ := searchCycle_finds hnodup hneed _ htrail hfuel
  rw [findCycle, hstarts, findCycleFrom, if_neg List.not_mem_nil, hsearch]
  exact hcycle

end Search

/-! ## The order of supply -/

section Supply

variable {nodes nodes' : List Node}

/-- Sorting forgets the order of supply. -/
theorem sortNodes_eq_of_perm (hn : (idsOf nodes).Nodup) (h : nodes.Perm nodes') :
    sortNodes nodes = sortNodes nodes' := by
  have htotal : Std.Total (fun a b : Node => a.nodeId ≤ b.nodeId) := ⟨fun a b => le_total _ _⟩
  have htrans : IsTrans Node (fun a b : Node => a.nodeId ≤ b.nodeId) := ⟨fun _ _ _ => le_trans⟩
  have hperm : (sortNodes nodes).Perm (sortNodes nodes') :=
    (sortNodes_perm nodes).trans (h.trans (sortNodes_perm nodes').symm)
  refine hperm.eq_of_pairwise ?_ (List.pairwise_insertionSort _ _) (List.pairwise_insertionSort _ _)
  intro a b ha hb hab hba
  have ha' : a ∈ nodes := (sortNodes_perm nodes).mem_iff.mp ha
  have hb' : b ∈ nodes := h.mem_iff.mpr ((sortNodes_perm nodes').mem_iff.mp hb)
  exact List.inj_on_of_nodup_map hn ha' hb' (le_antisymm hab hba)

/-- The index answers alike. -/
theorem lookup_index_perm (hn : (idsOf nodes).Nodup) (h : nodes.Perm nodes') :
    lookup (nodes'.map (fun n => (n.nodeId, n))) = lookup (nodes.map (fun n => (n.nodeId, n))) := by
  have hn' : (idsOf nodes').Nodup := (idsOf_perm h).nodup_iff.mp hn
  funext i
  have hget : Dict.get? (nodes'.map (fun n => (n.nodeId, n))) i
      = Dict.get? (nodes.map (fun n => (n.nodeId, n))) i := by
    apply Option.ext
    intro n
    rw [get?_index hn', get?_index hn, h.mem_iff]
  rw [lookup, lookup, hget]

theorem buildPlan_perm (hr : RefsPresent nodes) (h : nodes.Perm nodes') :
    buildPlan nodes' [] = buildPlan nodes [] := by
  have hr' := hr.perm h
  have hdependents : listAt (dependentsOf (nodes'.map (fun n => (n.nodeId, n))) (sortNodes nodes))
      = listAt (dependentsOf (nodes.map (fun n => (n.nodeId, n))) (sortNodes nodes)) := by
    funext i
    by_cases hi : i ∈ idsOf nodes
    · rw [listAt_dependentsOf hr.ids_nodup hi,
        listAt_dependentsOf hr'.ids_nodup ((idsOf_perm h).mem_iff.mp hi)]
    · have hnone : ∀ ns : List Node, i ∉ idsOf ns →
          listAt (dependentsOf (ns.map (fun n => (n.nodeId, n))) (sortNodes nodes)) i = [] := by
        intro ns hns
        rw [listAt, Dict.get?_eq_none_iff.mpr (by rwa [keys_dependentsOf]), Option.getD_none]
      rw [hnone nodes hi, hnone nodes' (fun hi' => hi ((idsOf_perm h).mem_iff.mpr hi'))]
  rw [buildPlan_eq hr, buildPlan_eq hr', ← sortNodes_eq_of_perm hr.ids_nodup h]
  simp only [executionPlan, sortGroups, List.insertionSort_nil, if_true, hdependents]

/-- A graph over nodes supplied in another order. -/
def ModelGraph.reindex (g : ModelGraph) (nodes : List Node) : ModelGraph :=
  { g with
    byId := nodes.map (fun n => (n.nodeId, n))
    dependents := dependentsOf (nodes.map (fun n => (n.nodeId, n))) g.nodes }

theorem ModelGraph.build_perm (hr : RefsPresent nodes) (h : nodes.Perm nodes') {g : ModelGraph}
    (hg : ModelGraph.build nodes [] = .ok g) :
    ModelGraph.build nodes' [] = .ok (g.reindex nodes') := by
  have hr' := hr.perm h
  have hindex : indexNodes nodes = .ok (nodes.map (fun n => (n.nodeId, n))) :=
    indexNodes_eq_ok_iff.mpr ⟨hr.ids_nodup, rfl⟩
  have hindex' : indexNodes nodes' = .ok (nodes'.map (fun n => (n.nodeId, n))) :=
    indexNodes_eq_ok_iff.mpr ⟨hr'.ids_nodup, rfl⟩
  rw [ModelGraph.build, hindex, Except.ok_bind] at hg
  simp only [Except.bind_eq_ok_iff] at hg
  obtain ⟨plan, hplan, ⟨⟩, htypes, definitions, hdefs, hg⟩ := hg
  rw [Except.pure_eq_ok, Except.ok.injEq] at hg
  have htypes' : checkTypes (nodes'.map (fun n => (n.nodeId, n))) (plan.flatMap PlanStep.members)
      = .ok () := by
    unfold checkTypes at htypes ⊢
    rw [lookup_index_perm hr.ids_nodup h]
    exact htypes
  rw [ModelGraph.build, hindex', Except.ok_bind, buildPlan_perm hr h, hplan, Except.ok_bind,
    ← sortNodes_eq_of_perm hr.ids_nodup h]
  simp only [htypes', hdefs, Except.ok_bind, ← hg]
  rfl

end Supply

/-- **Evaluation does not see the order of supply.** -/
theorem evaluate_reindex {sha : String → String} {nodes nodes' : List Node} (hr : RefsPresent nodes)
    (h : nodes.Perm nodes') {s : GraphSnapshot} (hg : ModelGraph.build nodes [] = .ok s.graph)
    (amb : AmbientContext) (cutoff : AwareDatetime) :
    evaluate sha amb { s with graph := s.graph.reindex nodes' } cutoff
    = evaluate sha amb s cutoff := by
  obtain ⟨hplan, -, -, -, hbyId, -⟩ := ModelGraph.build_eq_ok hg
  have hlookup : lookup (s.graph.reindex nodes').byId = lookup s.graph.byId := by
    rw [hbyId]
    exact lookup_index_perm hr.ids_nodup h
  -- the plan has no groups
  have hnodes : ∀ step ∈ s.graph.executionPlan, ∃ i, step = .node i := by
    intro step hstep
    cases step with
    | node i => exact ⟨i, rfl⟩
    | group grp =>
        exact absurd (((planOk_of_buildPlan hplan).groups_mem grp).mp hstep) List.not_mem_nil
  have hwalk : ∀ (plan : List PlanStep), (∀ step ∈ plan, ∃ i, step = .node i) → ∀ u st,
      plan.foldlM (evalStep sha amb (s.graph.reindex nodes') u) st
        = plan.foldlM (evalStep sha amb s.graph u) st := by
    intro plan
    induction plan with
    | nil =>
        intro _ u st
        rfl
    | cons step plan ih =>
        intro hall u st
        rw [List.forall_mem_cons] at hall
        obtain ⟨⟨i, rfl⟩, hall⟩ := hall
        have hstep : evalStep sha amb (s.graph.reindex nodes') u st (.node i)
            = evalStep sha amb s.graph u st (.node i) := by
          simp only [evalStep, evalNode, hlookup]
          rfl
        rw [List.foldlM_cons, List.foldlM_cons, hstep]
        simp only [ih hall]
  unfold evaluate walk
  simp only [show (s.graph.reindex nodes').executionPlan = s.graph.executionPlan from rfl,
    hwalk _ hnodes]
  rfl

/-- Snapshots of one node set, supplied in two orders. -/
theorem GraphSnapshot.build_perm {sha : String → String} {modelId : String}
    {nodes nodes' : List Node}
    {parent : Option GraphSnapshot} {scenarioId : Option String} {s : GraphSnapshot}
    (hr : RefsPresent nodes) (h : nodes.Perm nodes')
    (hs : GraphSnapshot.build sha modelId nodes parent scenarioId (some []) = .ok s) :
    GraphSnapshot.build sha modelId nodes' parent scenarioId (some [])
      = .ok { s with graph := s.graph.reindex nodes' } := by
  have hgraph : ModelGraph.build nodes [] = .ok s.graph := GraphSnapshot.graph_of_build hs
  have hgroups : GraphSnapshot.groupsFor parent (some []) = [] := by
    cases parent <;> rfl
  unfold GraphSnapshot.build at hs ⊢
  simp only [hgroups, hgraph, ModelGraph.build_perm hr h hgraph, Except.bind_eq_ok_iff,
    Except.ok_bind] at hs ⊢
  obtain ⟨u, hid, w, hscenario, x, hparent, id, hhash, hs⟩ := hs
  rw [Except.pure_eq_ok, Except.ok.injEq] at hs
  refine ⟨u, hid, w, hscenario, x, hparent, id, hhash, ?_⟩
  rw [← hs]
  rfl

/-! ## Orders and cycles -/

/-- The lexicographically least topological order of the ids. -/
def LeastOrder (nodes : List Node) (order : List String) : Prop :=
  TopologicalSort.IsTopological (idsOf nodes) (refsOf nodes) order
    ∧ ∀ l, TopologicalSort.IsTopological (idsOf nodes) (refsOf nodes) l →
      order = l ∨ List.Lex (· < ·) order l

section Plans

variable {nodes : List Node}

/-- What the plan construction does without groups. -/
theorem buildPlan_nil (hr : RefsPresent nodes) :
    buildPlan nodes [] = do
      let order ← topologicalOrder (idsOf (sortNodes nodes)) (refsOf nodes)
        (listAt (dependentsOf (nodes.map (fun n => (n.nodeId, n))) (sortNodes nodes)))
      return order.map PlanStep.node := by
  rw [buildPlan_eq hr, executionPlan, if_pos (by rfl), keys_dependenciesOf,
    listAt_dependencies hr.ids_nodup]

theorem graph_refs (hr : RefsPresent nodes) :
    TopologicalSort.Graph (idsOf (sortNodes nodes)) (refsOf nodes)
      (listAt (dependentsOf (nodes.map (fun n => (n.nodeId, n))) (sortNodes nodes))) :=
  listAt_dependencies hr.ids_nodup ▸ graph_of_refs hr

/-- **An acyclic node set gets its least order.** -/
theorem buildPlan_least (hr : RefsPresent nodes)
    (h : ∀ v ∈ idsOf nodes, ¬ Relation.TransGen (fun x y => y ∈ refsOf nodes x) v v) :
    ∃ order, buildPlan nodes [] = .ok (order.map PlanStep.node) ∧ LeastOrder nodes order := by
  have hids := idsOf_perm (sortNodes_perm nodes)
  have hlen := (TopologicalSort.kahn_complete_iff (graph_refs hr)).mpr
    (fun v hv => h v (hids.mem_iff.mp hv))
  obtain ⟨htop, hleast⟩ := TopologicalSort.kahn_least (graph_refs hr) hlen
  refine ⟨_, ?_, ⟨htop.perm.trans hids, htop.sorted⟩, ?_⟩
  · rw [buildPlan_nil hr, topologicalOrder_eq_ok_iff.mpr ⟨rfl, hlen⟩, Except.ok_bind]
    rfl
  · intro l hl
    exact hleast l ⟨hl.perm.trans hids.symm, hl.sorted⟩

/-- **A cyclic node set is refused with a cycle.** -/
theorem buildPlan_cycle (hr : RefsPresent nodes)
    (h : ∃ v ∈ idsOf nodes, Relation.TransGen (fun x y => y ∈ refsOf nodes x) v v) :
    ∃ path, buildPlan nodes [] = .error (.cycle path) ∧ IsCycle (refsOf nodes) path := by
  have hids := idsOf_perm (sortNodes_perm nodes)
  have hlen : (TopologicalSort.kahn (idsOf (sortNodes nodes)) (refsOf nodes)
      (listAt (dependentsOf (nodes.map (fun n => (n.nodeId, n))) (sortNodes nodes)))).order.length
        ≠ (idsOf (sortNodes nodes)).length := by
    rw [ne_eq, TopologicalSort.kahn_complete_iff (graph_refs hr)]
    intro hacyclic
    obtain ⟨v, hv, hcycle⟩ := h
    exact hacyclic v (hids.mem_iff.mpr hv) hcycle
  obtain ⟨hnodup, hne, hneed⟩ := TopologicalSort.remaining_spec (graph_refs hr) hlen
  refine ⟨_, ?_, findCycle_isCycle hnodup hne hneed⟩
  rw [buildPlan_nil hr, topologicalOrder]
  simp only [if_neg hlen]
  rfl

end Plans

/-- A cycle is no sorted list of distinct ids. -/
theorem IsCycle.ne_insertionSort {out : String → List String} {path ids : List String}
    (h : IsCycle out path) (hids : ids.Nodup) : path ≠ ids.insertionSort (· ≤ ·) := by
  intro heq
  have hnodup : path.Nodup := heq ▸ (List.perm_insertionSort _ ids).nodup_iff.mpr hids
  have hlong := h.long
  have hclosed := h.closed
  match path, hnodup, hlong, hclosed with
  | a :: b :: rest, hnodup, _, hclosed =>
      rw [List.head?_cons, List.getLast?_cons_cons] at hclosed
      exact (List.nodup_cons.mp hnodup).1 (List.mem_of_getLast? hclosed.symm)

/-- **Orders and cycles.**  Over a node set with all references present and no groups: without a
cycle the order of a built graph is the least topological order of its ids, and snapshots and
evaluations are the same whatever order the nodes are supplied in; with a cycle the construction
raises a `CycleError` whose path is one, and not the list of the nodes that are left. -/
theorem build_order_or_cycle (nodes : List Node) (hr : RefsPresent nodes) :
    ((∀ v ∈ idsOf nodes, ¬ Relation.TransGen (fun x y => y ∈ refsOf nodes x) v v) →
      (∃ order, buildPlan nodes [] = .ok (order.map PlanStep.node) ∧ LeastOrder nodes order)
        ∧ (∀ g, ModelGraph.build nodes [] = .ok g → LeastOrder nodes g.order)
        ∧ ∀ nodes', nodes.Perm nodes' → ∀ sha modelId parent scenarioId s,
          GraphSnapshot.build sha modelId nodes parent scenarioId (some []) = .ok s →
            ∃ s', GraphSnapshot.build sha modelId nodes' parent scenarioId (some []) = .ok s'
              ∧ s'.graph.order = s.graph.order ∧ s'.snapshotId = s.snapshotId
              ∧ ∀ amb cutoff, evaluate sha amb s' cutoff = evaluate sha amb s cutoff)
      ∧ ((∃ v ∈ idsOf nodes, Relation.TransGen (fun x y => y ∈ refsOf nodes x) v v) →
        ∃ path, ModelGraph.build nodes [] = .error (.cycle path) ∧ IsCycle (refsOf nodes) path
          ∧ ∀ ids : List String, ids.Nodup → path ≠ ids.insertionSort (· ≤ ·)) := by
  constructor
  · intro hacyclic
    obtain ⟨order, hplan, hleast⟩ := buildPlan_least hr hacyclic
    refine ⟨⟨order, hplan, hleast⟩, ?_, ?_⟩
    · intro g hg
      obtain ⟨hplan', -, -, horder, -⟩ := ModelGraph.build_eq_ok hg
      rw [hplan, Except.ok.injEq] at hplan'
      rw [horder, ← hplan', planIds, List.flatMap_map]
      simpa [PlanStep.members] using hleast
    · intro nodes' h sha modelId parent scenarioId s hs
      exact ⟨_, GraphSnapshot.build_perm hr h hs, rfl, rfl,
        fun amb cutoff => evaluate_reindex hr h (GraphSnapshot.graph_of_build hs) amb cutoff⟩
  · intro hcyclic
    obtain ⟨path, hplan, hcycle⟩ := buildPlan_cycle hr hcyclic
    refine ⟨path, ?_, hcycle, fun ids hids => hcycle.ne_insertionSort hids⟩
    rw [ModelGraph.build, indexNodes_eq_ok_iff.mpr ⟨hr.ids_nodup, rfl⟩, Except.ok_bind]
    simp only [hplan]
    rfl

theorem postInit_term : (assume "s" (Decimal.ofNat 1)).postInit = .ok () := by decide

/-- `t = s + r`, with its operands after it. -/
def twoTerms : List Node :=
  [⟨formulaOf "t" .add ["s", "r"], by decide⟩, ⟨assume "s" (Decimal.ofNat 1), postInit_term⟩,
    ⟨assume "r" (Decimal.ofNat 1), by decide⟩]

/-- Two terms and their sum are in order; two nodes that need each other are reported. -/
theorem build_order_or_cycle_twoTerms :
    (∃ order, buildPlan twoTerms [] = .ok (order.map PlanStep.node) ∧ LeastOrder twoTerms order)
      ∧ ∃ path, ModelGraph.build twoCycle [] = .error (.cycle path)
        ∧ IsCycle (refsOf twoCycle) path := by
  have hterms : RefsPresent twoTerms := ⟨by decide, by decide⟩
  have hcycle : RefsPresent twoCycle := ⟨by decide, by decide⟩
  have hacyclic :
      ∀ v ∈ idsOf twoTerms, ¬ Relation.TransGen (fun x y => y ∈ refsOf twoTerms x) v v := by
    intro v hv
    exact (TopologicalSort.kahn_complete_iff (graph_refs hterms)).mp (by decide) v
      ((idsOf_perm (sortNodes_perm twoTerms)).mem_iff.mpr hv)
  refine ⟨((build_order_or_cycle twoTerms hterms).1 hacyclic).1, ?_⟩
  obtain ⟨path, hbuild, hpath, -⟩ := (build_order_or_cycle twoCycle hcycle).2 ⟨"x", by decide,
    .tail (.single (show "y" ∈ refsOf twoCycle "x" by decide)) (show "x" ∈ refsOf twoCycle "y" by
      decide)⟩
  exact ⟨path, hbuild, hpath⟩

end CalcEngine
