/-
# Topological order by removing sources

The in-degree algorithm with a priority queue: the least vertex without open prerequisites is taken
next.  `out v` lists the prerequisites of `v`, `inn v` the vertices that have `v` as one.  The queue
is kept as a sorted list.

* `kahn_spec`: the order found is free of repetitions and puts every prerequisite first.
* **`kahn_complete_iff`**: it contains every vertex iff the graph has no cycle.
* **`kahn_least`**: a complete order is the lexicographically least one.
* `remaining_spec`: after an incomplete run, each vertex that is left needs another one.
-/
import EvidenceLab.Dict

namespace TopologicalSort

variable {α : Type} [LinearOrder α]

/-- The open prerequisites of each vertex, the queue and the order so far. -/
structure State (α : Type) where
  indegree : Dict α ℤ
  ready : List α
  order : List α

/-- `indegree[d] -= 1`, and `d` is queued when nothing is left. -/
def relax (s : Dict α ℤ × List α) (d : α) : Dict α ℤ × List α :=
  let k := (s.1.get? d).getD 0 - 1
  (s.1.set d k, if k = 0 then s.2.orderedInsert (· ≤ ·) d else s.2)

/-- Take the least ready vertex until none is left. -/
def loop (inn : α → List α) : ℕ → State α → State α
  | 0, s => s
  | n + 1, s => match s.ready with
    | [] => s
    | v :: ready =>
      let r := (inn v).foldl relax (s.indegree, ready)
      loop inn n ⟨r.1, r.2, s.order ++ [v]⟩

/-- The state before the first vertex is taken. -/
def start (vertices : List α) (out : α → List α) : State α :=
  let indegree := vertices.map (fun v => (v, ((out v).length : ℤ)))
  ⟨indegree, ((indegree.filter (fun p => p.2 = 0)).map Prod.fst).insertionSort (· ≤ ·), []⟩

/-- The whole run. -/
def kahn (vertices : List α) (out inn : α → List α) : State α :=
  loop inn vertices.length (start vertices out)

/-- The graph as both functions see it, without repeated edges. -/
structure Graph (vertices : List α) (out inn : α → List α) : Prop where
  nodup : vertices.Nodup
  closed : ∀ v ∈ vertices, ∀ d ∈ out v, d ∈ vertices
  out_nodup : ∀ v ∈ vertices, (out v).Nodup
  inn_nodup : ∀ v ∈ vertices, (inn v).Nodup
  mem_inn : ∀ v ∈ vertices, ∀ w, w ∈ inn v ↔ w ∈ vertices ∧ v ∈ out w

/-- Every prerequisite stands earlier. -/
def Sorted (out : α → List α) (l : List α) : Prop :=
  ∀ A v C, l = A ++ v :: C → ∀ d ∈ out v, d ∈ A

omit [LinearOrder α] in
/-- A vertex may come after what it points to. -/
theorem Sorted.append_singleton {out : α → List α} {l : List α} {v : α} (h : Sorted out l)
    (hv : ∀ d ∈ out v, d ∈ l) : Sorted out (l ++ [v]) := by
  intro A x C heq d hd
  rcases List.eq_nil_or_concat C with rfl | ⟨C', y, rfl⟩
  · obtain ⟨rfl, hx⟩ := List.append_inj' heq rfl
    obtain rfl : v = x := by simpa using hx
    exact hv d hd
  · rw [List.concat_eq_append, ← List.cons_append, ← List.append_assoc] at heq
    obtain ⟨rfl, -⟩ := List.append_inj' heq rfl
    exact h A x C' rfl d hd

/-- What decrementing a list of distinct vertices does. -/
theorem foldl_relax (ws : List α) (hws : ws.Nodup) (m : Dict α ℤ) (q : List α) :
    (∀ w, (ws.foldl relax (m, q)).1.get? w
        = if w ∈ ws then some ((m.get? w).getD 0 - 1) else m.get? w)
      ∧ (ws.foldl relax (m, q)).2.Perm
        (q ++ ws.filter (fun w => decide ((m.get? w).getD 0 - 1 = 0))) := by
  induction ws generalizing m q with
  | nil => simp
  | cons d ws ih =>
      rw [List.nodup_cons] at hws
      obtain ⟨h1, h2⟩ := ih hws.2 (relax (m, q) d).1 (relax (m, q) d).2
      have hget : ∀ w, w ≠ d → (relax (m, q) d).1.get? w = m.get? w := by
        intro w hw
        rw [relax]
        exact Dict.get?_set_of_ne hw.symm _
      rw [List.foldl_cons]
      constructor
      · intro w
        rw [h1]
        by_cases hwd : w = d
        · rw [hwd, if_neg hws.1, if_pos List.mem_cons_self, relax]
          exact Dict.get?_set_self _ _ _
        · rw [hget w hwd]
          simp [hwd]
      · refine h2.trans ?_
        have hfilter : ws.filter (fun w => decide (((relax (m, q) d).1.get? w).getD 0 - 1 = 0))
            = ws.filter (fun w => decide ((m.get? w).getD 0 - 1 = 0)) := by
          apply List.filter_congr
          intro w hw
          rw [hget w (fun h => hws.1 (h ▸ hw))]
        rw [hfilter]
        by_cases hd : (m.get? d).getD 0 - 1 = 0
        · rw [List.filter_cons_of_pos (by simpa using hd)]
          have hins : (relax (m, q) d).2 = q.orderedInsert (· ≤ ·) d := by
            rw [relax]
            exact if_pos hd
          rw [hins]
          exact ((List.perm_orderedInsert (· ≤ ·) d q).append_right _).trans
            (List.perm_middle (a := d)).symm
        · rw [List.filter_cons_of_neg (by simpa using hd)]
          have hins : (relax (m, q) d).2 = q := by
            rw [relax]
            exact if_neg hd
          rw [hins]

/-- The invariant of the run. -/
structure Inv (vertices : List α) (out : α → List α) (s : State α) : Prop where
  indegree : ∀ v ∈ vertices, s.indegree.get? v = some ((out v).countP (fun d => d ∉ s.order) : ℤ)
  ready_nodup : s.ready.Nodup
  ready_iff : ∀ v, v ∈ s.ready ↔ v ∈ vertices ∧ v ∉ s.order ∧ ∀ d ∈ out v, d ∈ s.order
  order_nodup : s.order.Nodup
  order_sub : ∀ v ∈ s.order, v ∈ vertices
  order_sorted : Sorted out s.order

variable {vertices : List α} {out inn : α → List α}

theorem countP_eq_zero_iff' {l order : List α} :
    ((l.countP (fun d => d ∉ order) : ℕ) : ℤ) = 0 ↔ ∀ d ∈ l, d ∈ order := by
  rw [Int.natCast_eq_zero, List.countP_eq_zero]
  simp

/-- Taking one more vertex closes one prerequisite of those that have it. -/
theorem countP_append_singleton {l order : List α} {v : α} (hl : l.Nodup) (hv : v ∉ order) :
    (l.countP (fun d => d ∉ order) : ℤ)
      = (l.countP (fun d => d ∉ order ++ [v]) : ℤ) + if v ∈ l then 1 else 0 := by
  induction l with
  | nil => simp
  | cons d l ih =>
      rw [List.nodup_cons] at hl
      have := ih hl.2
      by_cases hdv : d = v
      · subst hdv
        rw [List.countP_cons_of_pos (by simpa using hv), List.countP_cons_of_neg (by simp),
          if_pos List.mem_cons_self]
        rw [if_neg hl.1] at this
        push_cast
        omega
      · have hmem : v ∈ d :: l ↔ v ∈ l := by simp [Ne.symm hdv]
        by_cases hd : d ∈ order
        · rw [List.countP_cons_of_neg (by simpa using hd),
            List.countP_cons_of_neg (by simp [hd])]
          simpa only [hmem] using this
        · rw [List.countP_cons_of_pos (by simpa using hd),
            List.countP_cons_of_pos (by simp [hd, hdv])]
          simp only [hmem]
          push_cast
          omega

/-- **A step of Kahn's algorithm** keeps its invariant. -/
theorem Inv.next (hg : Graph vertices out inn) {s : State α} {v : α} {ready : List α}
    (h : Inv vertices out s) (hs : s.ready = v :: ready) :
    Inv vertices out ⟨((inn v).foldl relax (s.indegree, ready)).1,
      ((inn v).foldl relax (s.indegree, ready)).2, s.order ++ [v]⟩ := by
  obtain ⟨hvv, hvo, hvd⟩ := (h.ready_iff v).mp (by rw [hs]; exact List.mem_cons_self)
  obtain ⟨hget, hperm⟩ := foldl_relax (inn v) (hg.inn_nodup v hvv) s.indegree ready
  have hnodup := h.ready_nodup
  rw [hs, List.nodup_cons] at hnodup
  have hcount : ∀ w ∈ vertices, (s.indegree.get? w).getD 0
      = ((out w).countP (fun d => d ∉ s.order ++ [v]) : ℤ) + if v ∈ out w then 1 else 0 := by
    intro w hw
    rw [h.indegree w hw, Option.getD_some,
      countP_append_singleton (hg.out_nodup w hw) hvo]
  -- a vertex is queued now iff the taken one was its last open prerequisite
  have hfilter : ∀ w, w ∈ (inn v).filter
      (fun w => decide ((s.indegree.get? w).getD 0 - 1 = 0)) ↔
        w ∈ vertices ∧ v ∈ out w ∧ ∀ d ∈ out w, d ∈ s.order ++ [v] := by
    intro w
    rw [List.mem_filter, hg.mem_inn v hvv, decide_eq_true_eq]
    constructor
    · rintro ⟨⟨hw, hvw⟩, hz⟩
      rw [hcount w hw, if_pos hvw, add_sub_cancel_right, countP_eq_zero_iff'] at hz
      exact ⟨hw, hvw, hz⟩
    · rintro ⟨hw, hvw, hall⟩
      rw [hcount w hw, if_pos hvw, add_sub_cancel_right, countP_eq_zero_iff']
      exact ⟨⟨hw, hvw⟩, hall⟩
  refine ⟨?_, ?_, ?_, ?_, ?_, ?_⟩
  · intro w hw
    simp only [hget]
    by_cases hvw : v ∈ out w
    · rw [if_pos ((hg.mem_inn v hvv w).mpr ⟨hw, hvw⟩), hcount w hw, if_pos hvw,
        add_sub_cancel_right]
    · rw [if_neg (fun hm => hvw ((hg.mem_inn v hvv w).mp hm).2), h.indegree w hw,
        countP_append_singleton (hg.out_nodup w hw) hvo, if_neg hvw, add_zero]
  · rw [hperm.nodup_iff, List.nodup_append]
    refine ⟨hnodup.2, (hg.inn_nodup v hvv).filter _, ?_⟩
    intro a ha b hb hab
    subst hab
    have hall := ((h.ready_iff a).mp (by rw [hs]; exact List.mem_cons_of_mem _ ha)).2.2
    exact hvo (hall v ((hfilter a).mp hb).2.1)
  · intro w
    simp only [hperm.mem_iff, List.mem_append, hfilter]
    constructor
    · rintro (hw | ⟨hw, hvw, hall⟩)
      · obtain ⟨h1, h2, h3⟩ := (h.ready_iff w).mp (by rw [hs]; exact List.mem_cons_of_mem _ hw)
        refine ⟨h1, ?_, fun d hd => Or.inl (h3 d hd)⟩
        rw [not_or]
        exact ⟨h2, fun hm => hnodup.1 (List.mem_singleton.mp hm ▸ hw)⟩
      · refine ⟨hw, ?_, hall⟩
        rw [not_or]
        constructor
        · -- a taken vertex had all its prerequisites taken before
          intro hwo
          obtain ⟨A, C, hsplit⟩ := List.append_of_mem hwo
          exact hvo (hsplit ▸ List.mem_append_left _ (h.order_sorted A w C hsplit v hvw))
        · intro hm
          rw [List.mem_singleton] at hm
          exact hvo (hvd v (hm ▸ hvw))
    · rintro ⟨hw, hno, hall⟩
      rw [not_or, List.mem_singleton] at hno
      by_cases hvw : v ∈ out w
      · exact Or.inr ⟨hw, hvw, hall⟩
      · left
        have hall' : ∀ d ∈ out w, d ∈ s.order := by
          intro d hd
          rcases hall d hd with hd' | hd'
          · exact hd'
          · exact absurd (List.mem_singleton.mp hd' ▸ hd) hvw
        have hmem := (h.ready_iff w).mpr ⟨hw, hno.1, hall'⟩
        rw [hs] at hmem
        exact (List.mem_cons.mp hmem).resolve_left hno.2
  · rw [List.nodup_append]
    refine ⟨h.order_nodup, List.nodup_singleton v, ?_⟩
    intro a ha b hb hab
    rw [List.mem_singleton] at hb
    exact hvo (hb ▸ hab ▸ ha)
  · intro w hw
    rcases List.mem_append.mp hw with hw | hw
    · exact h.order_sub w hw
    · rw [List.mem_singleton.mp hw]
      exact hvv
  · exact h.order_sorted.append_singleton hvd

/-- The invariant holds at the start. -/
theorem inv_start (hg : Graph vertices out inn) : Inv vertices out (start vertices out) := by
  have hfilter : ∀ v, v ∈ ((vertices.map (fun v => (v, ((out v).length : ℤ)))).filter
      (fun p => p.2 = 0)).map Prod.fst ↔ v ∈ vertices ∧ out v = [] := by
    intro v
    simp
  refine ⟨?_, ?_, ?_, by simp [start], by simp [start], ?_⟩
  · intro v hv
    have hkeys : (Dict.keys (vertices.map (fun v => (v, ((out v).length : ℤ))))).Nodup := by
      simpa [Dict.keys, Function.comp_def] using hg.nodup
    rw [start, Dict.get?_of_mem hkeys (List.mem_map.mpr ⟨v, hv, rfl⟩)]
    simp
  · rw [start, (List.perm_insertionSort _ _).nodup_iff]
    have hsub : (((vertices.map (fun v => (v, ((out v).length : ℤ)))).filter
        (fun p => p.2 = 0)).map Prod.fst).Sublist
          ((vertices.map (fun v => (v, ((out v).length : ℤ)))).map Prod.fst) :=
      List.filter_sublist.map _
    refine hsub.nodup ?_
    simpa [Function.comp_def] using hg.nodup
  · intro v
    rw [start, (List.perm_insertionSort _ _).mem_iff, hfilter, List.eq_nil_iff_forall_not_mem]
    simp
  · intro A v C h
    simp [start] at h

/-- The run ends with an empty queue or with every vertex taken. -/
theorem loop_spec (hg : Graph vertices out inn) :
    ∀ (n : ℕ) {s : State α}, Inv vertices out s → vertices.length ≤ n + s.order.length →
      Inv vertices out (loop inn n s) ∧ ((loop inn n s).ready = []
        ∨ (loop inn n s).order.length = vertices.length)
  | 0, s, h, hn => by
      refine ⟨h, Or.inr ?_⟩
      have hle : s.order.length ≤ vertices.length :=
        (List.subperm_of_subset h.order_nodup h.order_sub).length_le
      rw [loop]
      omega
  | n + 1, s, h, hn => by
      rw [loop]
      split
      · rename_i hs
        exact ⟨h, Or.inl hs⟩
      · rename_i v ready hs
        apply loop_spec hg n (h.next hg hs)
        rw [List.length_append, List.length_singleton]
        omega

/-- Kahn's algorithm ends without a ready vertex, or with all of them in order. -/
theorem kahn_inv (hg : Graph vertices out inn) :
    Inv vertices out (kahn vertices out inn) ∧ ((kahn vertices out inn).ready = []
      ∨ (kahn vertices out inn).order.length = vertices.length) :=
  loop_spec hg vertices.length (inv_start hg) (by simp)

/-- **The order found** has no repetitions and puts every prerequisite first. -/
theorem kahn_spec (hg : Graph vertices out inn) :
    (kahn vertices out inn).order.Nodup
      ∧ (∀ v ∈ (kahn vertices out inn).order, v ∈ vertices)
      ∧ Sorted out (kahn vertices out inn).order :=
  ⟨(kahn_inv hg).1.order_nodup, (kahn_inv hg).1.order_sub, (kahn_inv hg).1.order_sorted⟩

/-- A sorted list has no cycle through its elements. -/
theorem Sorted.not_transGen {l : List α} (hl : l.Nodup) (h : Sorted out l) {v : α} (hv : v ∈ l) :
    ¬ Relation.TransGen (fun x y => y ∈ out x) v v := by
  have hlt : ∀ {a b : α}, a ∈ l → b ∈ out a → b ∈ l ∧ l.idxOf b < l.idxOf a := by
    intro a b ha hb
    obtain ⟨A, C, hsplit⟩ := List.append_of_mem ha
    have hbA := h A a C hsplit b hb
    have haA : a ∉ A := by
      intro haA
      rw [hsplit] at hl
      exact (List.nodup_append.mp hl).2.2 a haA a List.mem_cons_self rfl
    refine ⟨by rw [hsplit]; exact List.mem_append_left _ hbA, ?_⟩
    rw [hsplit, List.idxOf_append_of_mem hbA, List.idxOf_append_of_notMem haA]
    have := List.idxOf_lt_length_iff.mpr hbA
    omega
  have key : ∀ {a b : α}, Relation.TransGen (fun x y => y ∈ out x) a b → a ∈ l →
      b ∈ l ∧ l.idxOf b < l.idxOf a := by
    intro a b hab ha
    induction hab with
    | single hb => exact hlt ha hb
    | tail _ hbc ih =>
        obtain ⟨hc, hlt'⟩ := hlt ih.1 hbc
        exact ⟨hc, lt_trans hlt' ih.2⟩
  intro hcycle
  exact lt_irrefl _ (key hcycle hv).2

/-- **The order is complete iff the graph has no cycle.** -/
theorem kahn_complete_iff (hg : Graph vertices out inn) :
    (kahn vertices out inn).order.length = vertices.length ↔
      ∀ v ∈ vertices, ¬ Relation.TransGen (fun x y => y ∈ out x) v v := by
  obtain ⟨hinv, hend⟩ := kahn_inv hg
  have hsub := List.subperm_of_subset hinv.order_nodup hinv.order_sub
  constructor
  · intro hlen v hv
    have hperm := hsub.perm_of_length_le hlen.ge
    exact hinv.order_sorted.not_transGen hinv.order_nodup (hperm.mem_iff.mpr hv)
  · intro hacyclic
    rcases hend with hready | hlen
    · -- otherwise every vertex left has a prerequisite left, and there is no least one
      have hall : ∀ v ∈ vertices, v ∈ (kahn vertices out inn).order := by
        let R : {v // v ∈ vertices} → {v // v ∈ vertices} → Prop :=
          fun a b => Relation.TransGen (fun x y => y ∈ out x) b.1 a.1
        have hfin : Finite {v // v ∈ vertices} := List.finite_toSet vertices
        have htrans : IsTrans _ R := ⟨fun a b c hab hbc => hbc.trans hab⟩
        have hirrefl : Std.Irrefl R := ⟨fun a ha => hacyclic a.1 a.2 ha⟩
        have hwf : WellFounded R := Finite.wellFounded_of_trans_of_irrefl R
        have key : ∀ a : {v // v ∈ vertices}, a.1 ∈ (kahn vertices out inn).order := by
          intro a
          induction a using hwf.induction with
          | _ a ih =>
              by_contra hnot
              have hmem := (hinv.ready_iff a.1).mpr ⟨a.2, hnot, fun d hd =>
                ih ⟨d, hg.closed a.1 a.2 d hd⟩ (Relation.TransGen.single hd)⟩
              rw [hready] at hmem
              exact absurd hmem List.not_mem_nil
        exact fun v hv => key ⟨v, hv⟩
      exact le_antisymm hsub.length_le (List.subperm_of_subset hg.nodup hall).length_le
    · exact hlen

/-! ## The least order -/

/-- A topological order of all vertices. -/
structure IsTopological (vertices : List α) (out : α → List α) (l : List α) : Prop where
  perm : l.Perm vertices
  sorted : Sorted out l

/-- `p` begins `l`, or is smaller than `l` where the two first differ. -/
def Before (p l : List α) : Prop :=
  p <+: l ∨ ∃ common x y rest rest', p = common ++ x :: rest ∧ l = common ++ y :: rest' ∧ x < y

/-- The queue stays sorted. -/
theorem foldl_relax_sorted (ws : List α) (m : Dict α ℤ) {q : List α} (hq : q.Pairwise (· ≤ ·)) :
    (ws.foldl relax (m, q)).2.Pairwise (· ≤ ·) := by
  induction ws generalizing m q with
  | nil => exact hq
  | cons d ws ih =>
      rw [List.foldl_cons]
      apply ih
      split_ifs
      · exact hq.orderedInsert d q
      · exact hq

/-- **One step**: the vertex taken is the least that any topological order can take here. -/
theorem Before.next (hg : Graph vertices out inn) {s : State α} (h : Inv vertices out s) {v : α}
    {ready : List α} (hs : s.ready = v :: ready) (hsorted : s.ready.Pairwise (· ≤ ·)) {l : List α}
    (hl : IsTopological vertices out l) (hb : Before s.order l) : Before (s.order ++ [v]) l := by
  rcases hb with ⟨rest, rfl⟩ | ⟨common, x, y, rest, rest', hp, hl', hlt⟩
  · have hmem := (h.ready_iff v).mp (by rw [hs]; exact List.mem_cons_self)
    cases rest with
    | nil =>
        rw [List.append_nil] at hl
        exact absurd (hl.perm.mem_iff.mpr hmem.1) hmem.2.1
    | cons x rest =>
        -- the next vertex of the other order is ready too
        have hnodup := hl.perm.nodup_iff.mpr hg.nodup
        have hx : x ∈ s.ready := by
          refine (h.ready_iff x).mpr ⟨hl.perm.mem_iff.mp (by simp), ?_, hl.sorted _ _ _ rfl⟩
          intro hin
          exact (List.nodup_append.mp hnodup).2.2 x hin x List.mem_cons_self rfl
        rw [hs] at hx hsorted
        rcases List.mem_cons.mp hx with rfl | hx
        · exact .inl ⟨rest, by simp⟩
        · rcases (List.rel_of_pairwise_cons hsorted hx).lt_or_eq with hlt | rfl
          · exact .inr ⟨s.order, v, x, [], rest, rfl, rfl, hlt⟩
          · exact .inl ⟨rest, by simp⟩
  · exact .inr ⟨common, x, y, rest ++ [v], rest', by rw [hp]; simp, hl', hlt⟩

/-- **The order of the algorithm** is before every other topological order. -/
theorem before_loop (hg : Graph vertices out inn) {l : List α} (hl : IsTopological vertices out l) :
    ∀ (n : ℕ) {s : State α}, Inv vertices out s → s.ready.Pairwise (· ≤ ·) → Before s.order l →
      Before (loop inn n s).order l
  | 0, _, _, _, hb => hb
  | n + 1, s, h, hsorted, hb => by
      rw [loop]
      split
      · exact hb
      · rename_i v ready hs
        refine before_loop hg hl n (h.next hg hs) ?_ (hb.next hg h hs hsorted hl)
        rw [hs] at hsorted
        exact foldl_relax_sorted _ _ hsorted.of_cons

/-- **The order is the lexicographically least**: a complete order comes before any other
topological order. -/
theorem kahn_least (hg : Graph vertices out inn)
    (hlen : (kahn vertices out inn).order.length = vertices.length) :
    IsTopological vertices out (kahn vertices out inn).order
      ∧ ∀ l, IsTopological vertices out l →
        (kahn vertices out inn).order = l ∨ List.Lex (· < ·) (kahn vertices out inn).order l := by
  obtain ⟨hnodup, hsub, hsorted⟩ := kahn_spec hg
  refine ⟨⟨(List.subperm_of_subset hnodup hsub).perm_of_length_le hlen.ge, hsorted⟩, ?_⟩
  intro l hl
  have hb : Before (kahn vertices out inn).order l :=
    before_loop hg hl _ (inv_start hg) (List.pairwise_insertionSort _ _) (.inl (List.nil_prefix))
  rcases hb with hpre | ⟨common, x, y, rest, rest', hp, rfl, hlt⟩
  · exact .inl (hpre.eq_of_length (hlen.trans hl.perm.length_eq.symm))
  · rw [hp]
    exact .inr (List.Lex.append_left _ (List.Lex.rel hlt) _)

/-! ## What is left of a cyclic graph -/

theorem keys_foldl_relax (ws : List α) (m : Dict α ℤ) (q : List α) (h : ∀ w ∈ ws, w ∈ m.keys) :
    (ws.foldl relax (m, q)).1.keys = m.keys := by
  induction ws generalizing m q with
  | nil => rfl
  | cons d ws ih =>
      rw [List.forall_mem_cons] at h
      have hset : (relax (m, q) d).1.keys = m.keys := by
        rw [relax, Dict.keys_set, if_pos h.1]
      rw [List.foldl_cons, ih _ _ (hset ▸ h.2), hset]

theorem keys_loop (hg : Graph vertices out inn) :
    ∀ (n : ℕ) {s : State α}, Inv vertices out s → s.indegree.keys = vertices →
      (loop inn n s).indegree.keys = vertices
  | 0, _, _, hk => hk
  | n + 1, s, h, hk => by
      rw [loop]
      split
      · exact hk
      · rename_i v ready hs
        apply keys_loop hg n (h.next hg hs)
        have hv := (h.ready_iff v).mp (by rw [hs]; exact List.mem_cons_self)
        have hinn : ∀ w ∈ inn v, w ∈ s.indegree.keys := by
          intro w hw
          rw [hk]
          exact ((hg.mem_inn v hv.1 w).mp hw).1
        exact (keys_foldl_relax _ _ _ hinn).trans hk

/-- The algorithm counts the vertices and no others. -/
theorem keys_kahn (hg : Graph vertices out inn) :
    (kahn vertices out inn).indegree.keys = vertices :=
  keys_loop hg _ (inv_start hg) (by simp [start, Dict.keys, Function.comp_def])

/-- The vertices with open prerequisites after the run. -/
def remaining (vertices : List α) (out inn : α → List α) : List α :=
  ((kahn vertices out inn).indegree.filter (fun p => 0 < p.2)).map Prod.fst

/-- A vertex remains if it waits for one that was not ordered. -/
theorem mem_remaining_iff (hg : Graph vertices out inn) {v : α} :
    v ∈ remaining vertices out inn ↔
      v ∈ vertices ∧ ∃ d ∈ out v, d ∉ (kahn vertices out inn).order := by
  have hkeys := keys_kahn hg
  have hinv := (kahn_inv hg).1
  have hpos : ∀ v, 0 < ((out v).countP (fun d => d ∉ (kahn vertices out inn).order) : ℤ) ↔
      ∃ d ∈ out v, d ∉ (kahn vertices out inn).order := by
    intro v
    rw [Nat.cast_pos, List.countP_pos_iff]
    simp
  constructor
  · intro hv
    obtain ⟨p, hp, rfl⟩ := List.mem_map.mp hv
    obtain ⟨hp, hlt⟩ := List.mem_filter.mp hp
    have hmem : p.1 ∈ vertices := hkeys ▸ List.mem_map.mpr ⟨p, hp, rfl⟩
    have hget := Dict.get?_of_mem (by rw [hkeys]; exact hg.nodup) (show (p.1, p.2) ∈ _ from hp)
    rw [hinv.indegree p.1 hmem, Option.some.injEq] at hget
    exact ⟨hmem, (hpos p.1).mp (by rw [hget]; simpa using hlt)⟩
  · rintro ⟨hv, hd⟩
    have hp := Dict.mem_of_get? (hinv.indegree v hv)
    refine List.mem_map.mpr ⟨_, List.mem_filter.mpr ⟨hp, ?_⟩, rfl⟩
    simpa using (hpos v).mpr hd

/-- **What is left** of a graph with a cycle is not empty, and each of its vertices needs another.
-/
theorem remaining_spec (hg : Graph vertices out inn)
    (hlen : (kahn vertices out inn).order.length ≠ vertices.length) :
    (remaining vertices out inn).Nodup ∧ remaining vertices out inn ≠ []
      ∧ ∀ v ∈ remaining vertices out inn, ∃ d ∈ out v, d ∈ remaining vertices out inn := by
  obtain ⟨hinv, hend⟩ := kahn_inv hg
  have hready := hend.resolve_right hlen
  -- a vertex that was not taken has an open prerequisite
  have hopen : ∀ v ∈ vertices, v ∉ (kahn vertices out inn).order →
      v ∈ remaining vertices out inn := by
    intro v hv hnot
    rw [mem_remaining_iff hg]
    refine ⟨hv, ?_⟩
    by_contra hall
    push Not at hall
    have hmem := (hinv.ready_iff v).mpr ⟨hv, hnot, hall⟩
    rw [hready] at hmem
    exact List.not_mem_nil hmem
  refine ⟨?_, ?_, ?_⟩
  · have hsub : (remaining vertices out inn).Sublist (kahn vertices out inn).indegree.keys :=
      List.filter_sublist.map _
    rw [keys_kahn hg] at hsub
    exact hsub.nodup hg.nodup
  · intro hnil
    apply hlen
    have hall : ∀ v ∈ vertices, v ∈ (kahn vertices out inn).order := by
      intro v hv
      by_contra hnot
      exact List.not_mem_nil (hnil ▸ hopen v hv hnot)
    exact le_antisymm (List.subperm_of_subset hinv.order_nodup hinv.order_sub).length_le
      (List.subperm_of_subset hg.nodup hall).length_le
  · intro v hv
    obtain ⟨hmem, d, hd, hnot⟩ := (mem_remaining_iff hg).mp hv
    exact ⟨d, hd, hopen d (hg.closed v hmem d hd) hnot⟩

end TopologicalSort
