/-
# Strongly connected components by two depth-first passes

The iterative two-pass algorithm over a finite directed graph given by its successor lists `out`
and its predecessor lists `inn`.

* The first pass is a depth-first search with an explicit stack of vertices and the successors still
  to examine.  Its result is a `FinishOrder`: at the moment a vertex finishes, every edge out of the
  finished part stays inside it or leads to a vertex that reaches the one finishing.
* The second pass takes the vertices in reverse finishing order and collects backwards whatever is
  not yet taken.

**`components_spec`**: the result lists the strongly connected components, each once.
-/
import Mathlib

namespace Components

variable {α : Type}

/-- `b` is reachable from `a` along the edges of `out`. -/
abbrev Reach (out : α → List α) (a b : α) : Prop := Relation.ReflTransGen (fun x y => y ∈ out x) a b

/-- Mutual reachability. -/
def SameScc (out : α → List α) (a b : α) : Prop := Reach out a b ∧ Reach out b a

theorem SameScc.refl (out : α → List α) (a : α) : SameScc out a a :=
  ⟨Relation.ReflTransGen.refl, Relation.ReflTransGen.refl⟩

theorem SameScc.symm {out : α → List α} {a b : α} (h : SameScc out a b) : SameScc out b a :=
  ⟨h.2, h.1⟩

/-- Strong connection is transitive. -/
theorem SameScc.trans {out : α → List α} {a b c : α} (h : SameScc out a b)
    (h' : SameScc out b c) : SameScc out a c :=
  ⟨h.1.trans h'.1, h'.2.trans h.2⟩

/-! ## The first pass -/

/-- The state of the first pass: an entry of the stack is a vertex with the successors that are
still to be examined. -/
structure Pass (α : Type) where
  visited : List α
  finished : List α
  stack : List (α × List α)

variable [DecidableEq α]

/-- One turn of the inner loop. -/
def step (out : α → List α) (s : Pass α) : Pass α :=
  match s.stack with
  | [] => s
  | (v, []) :: rest => { s with finished := s.finished ++ [v], stack := rest }
  | (v, d :: ds) :: rest =>
    if d ∈ s.visited then { s with stack := (v, ds) :: rest }
    else { s with visited := d :: s.visited, stack := (d, out d) :: (v, ds) :: rest }

/-- The inner loop, until the stack is empty. -/
def run (out : α → List α) : ℕ → Pass α → Pass α
  | 0, s => s
  | n + 1, s => match s.stack with
    | [] => s
    | _ :: _ => run out n (step out s)

/-- The turns that are enough for a whole pass. -/
def fuel (vertices : List α) (out : α → List α) : ℕ :=
  (vertices.map (fun v => (out v).length + 1)).sum

/-- One turn of the outer loop. -/
def visit (vertices : List α) (out : α → List α) (s : Pass α) (start : α) : Pass α :=
  if start ∈ s.visited then s
  else run out (fuel vertices out)
    { visited := start :: s.visited, finished := s.finished, stack := [(start, out start)] }

/-- The vertices in the order in which they finish. -/
def finishOrder (vertices : List α) (out : α → List α) : List α :=
  (vertices.foldl (visit vertices out) ⟨[], [], []⟩).finished

/-- At the moment `v` finishes, an edge out of the finished part stays inside it or leads to a
vertex that reaches `v`. -/
def FinishOrder (out : α → List α) (l : List α) : Prop :=
  ∀ A v C, l = A ++ v :: C → ∀ b ∈ A ++ [v], ∀ d ∈ out b, d ∈ A ++ [v] ∨ Reach out d v

/-- The invariant of the first pass. -/
structure Inv (vertices : List α) (out : α → List α) (s : Pass α) : Prop where
  nodup : (s.finished ++ s.stack.map Prod.fst).Nodup
  visited_iff : ∀ x, x ∈ s.visited ↔ x ∈ s.finished ∨ x ∈ s.stack.map Prod.fst
  visited_sub : ∀ x ∈ s.visited, x ∈ vertices
  finished_out : ∀ f ∈ s.finished, ∀ d ∈ out f, d ∈ s.visited
  stack_out : ∀ e ∈ s.stack, ∀ d ∈ out e.1, d ∈ s.visited ∨ d ∈ e.2
  stack_rem : ∀ e ∈ s.stack, ∀ d ∈ e.2, d ∈ out e.1
  chain : (s.stack.map Prod.fst).Pairwise (fun upper lower => Reach out lower upper)
  order : FinishOrder out s.finished

omit [DecidableEq α] in
/-- A vertex may finish after what it points to. -/
theorem FinishOrder.append_singleton {out : α → List α} {l : List α} {v : α}
    (h : FinishOrder out l) (hv : ∀ b ∈ l ++ [v], ∀ d ∈ out b, d ∈ l ++ [v] ∨ Reach out d v) :
    FinishOrder out (l ++ [v]) := by
  intro A x C heq b hb d hd
  rcases List.eq_nil_or_concat C with rfl | ⟨C', y, rfl⟩
  · obtain ⟨rfl, hx⟩ := List.append_inj' heq rfl
    obtain rfl : v = x := by simpa using hx
    exact hv b hb d hd
  · rw [List.concat_eq_append, ← List.cons_append, ← List.append_assoc] at heq
    obtain ⟨rfl, -⟩ := List.append_inj' heq rfl
    exact h A x C' rfl b hb d hd

variable {vertices : List α} {out : α → List α}

omit [DecidableEq α] in
/-- The invariant after finishing the top of the stack. -/
theorem Inv.finish {s : Pass α} {v : α} {rest : List (α × List α)} (h : Inv vertices out s)
    (hs : s.stack = (v, []) :: rest) :
    Inv vertices out { s with finished := s.finished ++ [v], stack := rest } := by
  have hnodup := h.nodup
  have hvis := h.visited_iff
  have hchain := h.chain
  rw [hs, List.map_cons] at hnodup hchain
  simp only [hs, List.map_cons, List.mem_cons] at hvis
  have hmem : (v, []) ∈ s.stack := by rw [hs]; exact List.mem_cons_self
  refine ⟨?_, ?_, h.visited_sub, ?_, ?_, ?_, hchain.of_cons, ?_⟩
  · simpa using hnodup
  · intro x
    simp only [hvis, List.mem_append, List.mem_singleton]
    tauto
  · intro f hf d hd
    rcases List.mem_append.mp hf with hf | hf
    · exact h.finished_out f hf d hd
    · rw [List.mem_singleton.mp hf] at hd
      exact (h.stack_out _ hmem d hd).resolve_right (by simp)
  · intro e he d hd
    exact h.stack_out e (by rw [hs]; exact List.mem_cons_of_mem _ he) d hd
  · intro e he d hd
    exact h.stack_rem e (by rw [hs]; exact List.mem_cons_of_mem _ he) d hd
  · -- what is on the stack below `v` reaches `v`
    apply h.order.append_singleton
    intro b hb d hd
    have hdv : d ∈ s.visited := by
      rcases List.mem_append.mp hb with hb | hb
      · exact h.finished_out b hb d hd
      · rw [List.mem_singleton.mp hb] at hd
        exact (h.stack_out _ hmem d hd).resolve_right (by simp)
    rcases (hvis d).mp hdv with hf | rfl | hr
    · exact Or.inl (List.mem_append_left _ hf)
    · exact Or.inl (List.mem_append_right _ (List.mem_singleton_self d))
    · exact Or.inr (List.rel_of_pairwise_cons hchain hr)

omit [DecidableEq α] in
/-- The invariant after skipping a visited successor. -/
theorem Inv.skip {s : Pass α} {v d : α} {ds : List α} {rest : List (α × List α)}
    (h : Inv vertices out s) (hs : s.stack = (v, d :: ds) :: rest) (hd : d ∈ s.visited) :
    Inv vertices out { s with stack := (v, ds) :: rest } := by
  have hnodup := h.nodup
  have hvis := h.visited_iff
  have hchain := h.chain
  have hout := h.stack_out
  have hrem := h.stack_rem
  rw [hs] at hnodup hchain hout hrem
  simp only [hs] at hvis
  refine ⟨hnodup, hvis, h.visited_sub, h.finished_out, ?_, ?_, hchain, h.order⟩
  · intro e he x hx
    rcases List.mem_cons.mp he with rfl | he
    · rcases hout (v, d :: ds) List.mem_cons_self x hx with hv | hm
      · exact Or.inl hv
      · rcases List.mem_cons.mp hm with rfl | hm
        · exact Or.inl hd
        · exact Or.inr hm
    · exact hout e (List.mem_cons_of_mem _ he) x hx
  · intro e he x hx
    rcases List.mem_cons.mp he with rfl | he
    · exact hrem (v, d :: ds) List.mem_cons_self x (List.mem_cons_of_mem _ hx)
    · exact hrem e (List.mem_cons_of_mem _ he) x hx

omit [DecidableEq α] in
/-- The invariant after pushing an unvisited successor. -/
theorem Inv.push {s : Pass α} {v d : α} {ds : List α} {rest : List (α × List α)}
    (hclosed : ∀ x ∈ vertices, ∀ y ∈ out x, y ∈ vertices) (h : Inv vertices out s)
    (hs : s.stack = (v, d :: ds) :: rest) (hd : d ∉ s.visited) :
    Inv vertices out
      { s with visited := d :: s.visited, stack := (d, out d) :: (v, ds) :: rest } := by
  have hnodup := h.nodup
  have hvis := h.visited_iff
  have hchain := h.chain
  have hout := h.stack_out
  have hrem := h.stack_rem
  rw [hs] at hnodup hchain hout hrem
  simp only [hs, List.map_cons, List.mem_cons] at hvis
  have hedge : d ∈ out v := hrem (v, d :: ds) List.mem_cons_self d List.mem_cons_self
  have hvv : v ∈ s.visited := (hvis v).mpr (Or.inr (Or.inl rfl))
  -- the vertex that is pushed is on no stack and not finished
  have hfresh : d ∉ s.finished ∧ d ≠ v ∧ d ∉ rest.map Prod.fst := by
    have := mt (hvis d).mpr hd
    tauto
  refine ⟨?_, ?_, ?_, ?_, ?_, ?_, ?_, h.order⟩
  · -- nothing stands twice in the stack and among the finished
    simp only [List.map_cons] at hnodup ⊢
    rw [List.nodup_append] at hnodup ⊢
    refine ⟨hnodup.1, List.nodup_cons.mpr ⟨?_, hnodup.2.1⟩, ?_⟩
    · simp only [List.mem_cons, not_or]
      exact hfresh.2
    · intro a ha b hb
      rcases List.mem_cons.mp hb with rfl | hb
      · exact fun heq => hfresh.1 (heq ▸ ha)
      · exact hnodup.2.2 a ha b hb
  · -- what is visited is finished or on the stack
    intro x
    simp only [List.mem_cons, hvis, List.map_cons]
    tauto
  · intro x hx
    rcases List.mem_cons.mp hx with rfl | hx
    · exact hclosed v (h.visited_sub v hvv) x hedge
    · exact h.visited_sub x hx
  · intro f hf y hy
    exact List.mem_cons_of_mem _ (h.finished_out f hf y hy)
  · -- a vertex below has `d` behind it
    intro e he y hy
    rcases List.mem_cons.mp he with rfl | he
    · exact Or.inr hy
    rcases List.mem_cons.mp he with rfl | he
    · rcases hout (v, d :: ds) List.mem_cons_self y hy with hv | hm
      · exact Or.inl (List.mem_cons_of_mem _ hv)
      · rcases List.mem_cons.mp hm with rfl | hm
        · exact Or.inl List.mem_cons_self
        · exact Or.inr hm
    · exact (hout e (List.mem_cons_of_mem _ he) y hy).imp_left (List.mem_cons_of_mem _)
  · intro e he y hy
    rcases List.mem_cons.mp he with rfl | he
    · exact hy
    rcases List.mem_cons.mp he with rfl | he
    · exact hrem (v, d :: ds) List.mem_cons_self y (List.mem_cons_of_mem _ hy)
    · exact hrem e (List.mem_cons_of_mem _ he) y hy
  · -- the stack is a path to the new top
    simp only [List.map_cons] at hchain ⊢
    refine List.pairwise_cons.mpr ⟨?_, hchain⟩
    intro y hy
    have hyv : Reach out y v := by
      rcases List.mem_cons.mp hy with rfl | hy
      · exact Relation.ReflTransGen.refl
      · exact List.rel_of_pairwise_cons hchain hy
    exact hyv.tail hedge

/-- **A step of the search** keeps its invariant. -/
theorem Inv.step (hclosed : ∀ x ∈ vertices, ∀ y ∈ out x, y ∈ vertices) {s : Pass α}
    (h : Inv vertices out s) : Inv vertices out (step out s) := by
  unfold Components.step
  match hs : s.stack with
  | [] => exact h
  | (v, []) :: rest => exact h.finish hs
  | (v, d :: ds) :: rest =>
      simp only
      split_ifs with hd
      · exact h.skip hs hd
      · exact h.push hclosed hs hd

/-- Every number of steps keeps the invariant. -/
theorem Inv.run (hclosed : ∀ x ∈ vertices, ∀ y ∈ out x, y ∈ vertices) (n : ℕ) {s : Pass α}
    (h : Inv vertices out s) : Inv vertices out (run out n s) := by
  induction n generalizing s with
  | zero => exact h
  | succ n ih =>
      rw [Components.run]
      split
      · exact h
      · exact ih (h.step hclosed)

/-! ## The first pass ends -/

/-- The turns still to come. -/
def potential (vertices : List α) (out : α → List α) (s : Pass α) : ℕ :=
  (s.stack.map (fun e => e.2.length + 1)).sum
    + ((vertices.filter (fun v => v ∉ s.visited)).map (fun v => (out v).length + 1)).sum

theorem sum_filter_visited (f : α → ℕ) {l visited : List α} (hl : l.Nodup) {d : α} (hd : d ∈ l)
    (hv : d ∉ visited) :
    ((l.filter (fun v => v ∉ visited)).map f).sum
      = f d + ((l.filter (fun v => v ∉ d :: visited)).map f).sum := by
  induction l with
  | nil => simp at hd
  | cons x l ih =>
      rw [List.nodup_cons] at hl
      rcases List.mem_cons.mp hd with rfl | hd
      · have hrest : l.filter (fun v => decide (v ∉ d :: visited))
            = l.filter (fun v => decide (v ∉ visited)) := by
          apply List.filter_congr
          intro v hvl
          have hne : v ≠ d := fun h => hl.1 (h ▸ hvl)
          simp [hne]
        rw [List.filter_cons_of_pos (by simpa using hv), List.filter_cons_of_neg (by simp), hrest]
        simp
      · have hne : x ≠ d := fun h => hl.1 (h ▸ hd)
        have := ih hl.2 hd
        by_cases hx : x ∈ visited
        · rw [List.filter_cons_of_neg (by simpa using hx),
            List.filter_cons_of_neg (by simp [hx])]
          exact this
        · rw [List.filter_cons_of_pos (by simpa using hx),
            List.filter_cons_of_pos (by simp [hx, hne])]
          simp only [List.map_cons, List.sum_cons]
          omega

/-- Every turn on a nonempty stack uses up one unit. -/
theorem potential_step (hv : vertices.Nodup)
    (hclosed : ∀ x ∈ vertices, ∀ y ∈ out x, y ∈ vertices) {s : Pass α} (h : Inv vertices out s)
    (hs : s.stack ≠ []) :
    potential vertices out (step out s) + 1 = potential vertices out s := by
  unfold Components.step
  match hst : s.stack with
  | [] => exact absurd hst hs
  | (v, []) :: rest =>
      simp only [potential, hst, List.map_cons, List.sum_cons, List.length_nil]
      omega
  | (v, d :: ds) :: rest =>
      simp only
      split_ifs with hd
      · simp only [potential, hst, List.map_cons, List.sum_cons, List.length_cons]
        omega
      · have hmem : (v, d :: ds) ∈ s.stack := by rw [hst]; exact List.mem_cons_self
        have hvv : v ∈ s.visited :=
          (h.visited_iff v).mpr (Or.inr (List.mem_map.mpr ⟨_, hmem, rfl⟩))
        have hdv : d ∈ vertices := hclosed v (h.visited_sub v hvv) d
          (h.stack_rem _ hmem d List.mem_cons_self)
        have hsum := sum_filter_visited (fun v => (out v).length + 1) hv hdv hd
        simp only [potential, hst, List.map_cons, List.sum_cons, List.length_cons]
        omega

/-- With enough fuel the inner loop empties the stack. -/
theorem run_stack_nil (hv : vertices.Nodup)
    (hclosed : ∀ x ∈ vertices, ∀ y ∈ out x, y ∈ vertices) :
    ∀ (n : ℕ) {s : Pass α}, Inv vertices out s → potential vertices out s ≤ n →
      (run out n s).stack = []
  | 0, s, h, hn => by
      rw [run]
      match hst : s.stack with
      | [] => rfl
      | e :: rest =>
          simp only [potential, hst, List.map_cons, List.sum_cons] at hn
          omega
  | n + 1, s, h, hn => by
      rw [run]
      split
      · assumption
      · rename_i e rest hst
        have hstep := potential_step hv hclosed h (by rw [hst]; simp)
        exact run_stack_nil hv hclosed n (h.step hclosed) (by omega)

theorem visited_step (s : Pass α) : ∀ x ∈ s.visited, x ∈ (step out s).visited := by
  intro x hx
  unfold step
  split
  · exact hx
  · exact hx
  · split_ifs
    · exact hx
    · exact List.mem_cons_of_mem _ hx

theorem visited_run (n : ℕ) {s : Pass α} : ∀ x ∈ s.visited, x ∈ (run out n s).visited := by
  induction n generalizing s with
  | zero => exact fun x hx => hx
  | succ n ih =>
      intro x hx
      rw [run]
      split
      · exact hx
      · exact ih x (visited_step s x hx)

/-- One turn of the outer loop keeps the invariant, ends with an empty stack and visits its
start. -/
theorem visit_spec (hv : vertices.Nodup)
    (hclosed : ∀ x ∈ vertices, ∀ y ∈ out x, y ∈ vertices) {s : Pass α} (h : Inv vertices out s)
    (hs : s.stack = []) {start : α} (hstart : start ∈ vertices) :
    Inv vertices out (visit vertices out s start) ∧ (visit vertices out s start).stack = []
      ∧ start ∈ (visit vertices out s start).visited
      ∧ ∀ x ∈ s.visited, x ∈ (visit vertices out s start).visited := by
  unfold visit
  split_ifs with hmem
  · exact ⟨h, hs, hmem, fun x hx => hx⟩
  · -- on an empty stack every visited vertex is finished
    have hfin : ∀ x, x ∈ s.visited ↔ x ∈ s.finished := by
      intro x
      rw [h.visited_iff, hs]
      simp
    have hnodup : s.finished.Nodup := by
      have := h.nodup
      rw [hs] at this
      simpa using this
    have hinv : Inv vertices out
        { visited := start :: s.visited, finished := s.finished,
          stack := [(start, out start)] } := by
      -- the invariant of the pass that starts with this vertex alone
      refine ⟨?_, ?_, ?_, ?_, ?_, ?_, ?_, h.order⟩
      · rw [List.map_cons, List.map_nil, List.nodup_append]
        refine ⟨hnodup, List.nodup_singleton start, ?_⟩
        intro a ha b hb hab
        rw [List.mem_singleton] at hb
        rw [hab, hb] at ha
        exact hmem ((hfin start).mpr ha)
      · intro x
        simp only [List.mem_cons, hfin, List.map_cons, List.map_nil]
        tauto
      · intro x hx
        rcases List.mem_cons.mp hx with rfl | hx
        · exact hstart
        · exact h.visited_sub x hx
      · intro f hf d hd
        exact List.mem_cons_of_mem _ (h.finished_out f hf d hd)
      · intro e he d hd
        rw [List.mem_singleton.mp he] at hd ⊢
        exact Or.inr hd
      · intro e he d hd
        rw [List.mem_singleton.mp he] at hd ⊢
        exact hd
      · exact List.pairwise_singleton _ _
    refine ⟨hinv.run hclosed _, run_stack_nil hv hclosed _ hinv ?_, ?_, ?_⟩
    · -- the fuel is enough for what is left to visit
      have hsum := sum_filter_visited (fun v => (out v).length + 1) hv hstart hmem
      have hle : ((vertices.filter (fun v => v ∉ s.visited)).map
          (fun v => (out v).length + 1)).sum ≤ fuel vertices out := by
        unfold fuel
        exact (List.Sublist.map _ List.filter_sublist).sum_le_sum (by simp)
      simp only [potential, List.map_cons, List.map_nil, List.sum_cons, List.sum_nil]
      omega
    · exact visited_run _ start List.mem_cons_self
    · intro x hx
      exact visited_run _ x (List.mem_cons_of_mem _ hx)

omit [DecidableEq α] in
/-- The invariant holds before the search. -/
theorem inv_init (vertices : List α) (out : α → List α) : Inv vertices out ⟨[], [], []⟩ := by
  refine ⟨by simp, by simp, by simp, by simp, by simp, by simp, by simp, ?_⟩
  intro A v C h
  simp at h

/-- **The first pass** lists every vertex once, in a finishing order. -/
theorem finishOrder_spec (hv : vertices.Nodup)
    (hclosed : ∀ x ∈ vertices, ∀ y ∈ out x, y ∈ vertices) :
    FinishOrder out (finishOrder vertices out) ∧ (finishOrder vertices out).Perm vertices := by
  have key : ∀ (starts : List α) (s : Pass α), (∀ x ∈ starts, x ∈ vertices) →
      Inv vertices out s → s.stack = [] →
      Inv vertices out (starts.foldl (visit vertices out) s)
        ∧ (starts.foldl (visit vertices out) s).stack = []
        ∧ (∀ x, x ∈ starts ∨ x ∈ s.visited →
          x ∈ (starts.foldl (visit vertices out) s).visited) := by
    intro starts
    induction starts with
    | nil => exact fun s _ h hs => ⟨h, hs, by simp⟩
    | cons x starts ih =>
        intro s hsub h hs
        obtain ⟨h1, h2, h3, h4⟩ := visit_spec hv hclosed h hs (hsub x List.mem_cons_self)
        obtain ⟨i1, i2, i3⟩ := ih _ (fun y hy => hsub y (List.mem_cons_of_mem _ hy)) h1 h2
        refine ⟨i1, i2, ?_⟩
        rintro y (hy | hy)
        · rcases List.mem_cons.mp hy with rfl | hy
          · exact i3 y (Or.inr h3)
          · exact i3 y (Or.inl hy)
        · exact i3 y (Or.inr (h4 y hy))
  obtain ⟨h, hs, hall⟩ := key vertices ⟨[], [], []⟩ (fun x hx => hx) (inv_init vertices out) rfl
  refine ⟨h.order, ?_⟩
  have hnodup := h.nodup
  have hvis := h.visited_iff
  rw [hs] at hnodup hvis
  simp only [List.map_nil, List.append_nil, List.not_mem_nil, or_false] at hnodup hvis
  rw [finishOrder, List.perm_ext_iff_of_nodup hnodup hv]
  intro x
  rw [← hvis]
  exact ⟨h.visited_sub x, fun hx => hall x (Or.inl hx)⟩

/-! ## The second pass -/

/-- Push the vertices that are not visited yet. -/
def pushAll (ws : List α) (s : List α × List α) : List α × List α :=
  ws.foldl (fun s w => if w ∈ s.1 then s else (w :: s.1, w :: s.2)) s

/-- Collect backwards along `inn` from the pending vertices; returns the members and the visited
vertices. -/
def collect (inn : α → List α) : ℕ → List α → List α → List α → List α × List α
  | 0, visited, _, members => (members, visited)
  | _ + 1, visited, [], members => (members, visited)
  | n + 1, visited, v :: pending, members =>
    let s := pushAll (inn v) (visited, pending)
    collect inn n s.1 s.2 (members ++ [v])

/-- One turn of the outer loop of the second pass. -/
def gather [LinearOrder α] (vertices : List α) (inn : α → List α)
    (s : List α × List (List α)) (start : α) : List α × List (List α) :=
  if start ∈ s.1 then s
  else
    let r := collect inn vertices.length (start :: s.1) [start] []
    (r.2, s.2 ++ [r.1.insertionSort (· ≤ ·)])

/-- The strongly connected components, each sorted. -/
def components [LinearOrder α] (vertices : List α) (out inn : α → List α) : List (List α) :=
  ((finishOrder vertices out).reverse.foldl (gather vertices inn) ([], [])).2

/-- What `pushAll` does to the visited and the pending vertices. -/
theorem pushAll_spec (ws : List α) (visited pending : List α) :
    ∃ new, pushAll ws (visited, pending) = (new ++ visited, new ++ pending) ∧ new.Nodup
      ∧ (∀ x ∈ new, x ∈ ws ∧ x ∉ visited) ∧ ∀ x ∈ ws, x ∈ new ++ visited := by
  induction ws generalizing visited pending with
  | nil => exact ⟨[], by simp [pushAll]⟩
  | cons w ws ih =>
      rw [pushAll, List.foldl_cons]
      split_ifs with hw
      · obtain ⟨new, heq, hn, hnew, hall⟩ := ih visited pending
        rw [pushAll] at heq
        refine ⟨new, heq, hn, fun x hx => ⟨List.mem_cons_of_mem _ (hnew x hx).1, (hnew x hx).2⟩, ?_⟩
        intro x hx
        rcases List.mem_cons.mp hx with rfl | hx
        · exact List.mem_append_right _ hw
        · exact hall x hx
      · obtain ⟨new, heq, hn, hnew, hall⟩ := ih (w :: visited) (w :: pending)
        rw [pushAll] at heq
        refine ⟨new ++ [w], ?_, ?_, ?_, ?_⟩
        · rw [heq]
          simp
        · rw [List.nodup_append]
          refine ⟨hn, List.nodup_singleton w, ?_⟩
          intro a ha b hb hab
          rw [List.mem_singleton] at hb
          rw [hab, hb] at ha
          exact (hnew w ha).2 List.mem_cons_self
        · intro x hx
          rcases List.mem_append.mp hx with hx | hx
          · obtain ⟨h1, h2⟩ := hnew x hx
            exact ⟨List.mem_cons_of_mem _ h1, fun h => h2 (List.mem_cons_of_mem _ h)⟩
          · rw [List.mem_singleton] at hx
            rw [hx]
            exact ⟨List.mem_cons_self, hw⟩
        · intro x hx
          have hmem : x ∈ new ++ w :: visited := by
            rcases List.mem_cons.mp hx with rfl | hx
            · exact List.mem_append_right _ List.mem_cons_self
            · exact hall x hx
          simpa using hmem

section Collect

variable {inn : α → List α} {taken : List α} {start : α}

/-- Backward edges to vertices that were not taken before. -/
abbrev BackFree (inn : α → List α) (taken : List α) (a b : α) : Prop := b ∈ inn a ∧ b ∉ taken

/-- The invariant of the collection: `taken` is what was visited before it began. -/
structure CollectInv (vertices : List α) (inn : α → List α) (taken : List α) (start : α)
    (visited pending members : List α) : Prop where
  visited_iff : ∀ x, x ∈ visited ↔ x ∈ taken ∨ x ∈ members ∨ x ∈ pending
  nodup : (members ++ pending).Nodup
  free : ∀ x ∈ members ++ pending, x ∉ taken
  sub : ∀ x ∈ members ++ pending, x ∈ vertices
  reach : ∀ x ∈ members ++ pending, Relation.ReflTransGen (BackFree inn taken) start x
  closed : ∀ m ∈ members, ∀ w ∈ inn m, w ∈ visited
  start_mem : start ∈ members ++ pending

/-- **Collecting one more vertex** keeps the invariant. -/
theorem CollectInv.next (hinn : ∀ x ∈ vertices, ∀ y ∈ inn x, y ∈ vertices)
    {visited pending members : List α} {v : α}
    (h : CollectInv vertices inn taken start visited (v :: pending) members) :
    CollectInv vertices inn taken start (pushAll (inn v) (visited, pending)).1
      (pushAll (inn v) (visited, pending)).2 (members ++ [v]) := by
  obtain ⟨new, heq, hn, hnew, hall⟩ := pushAll_spec (inn v) visited pending
  rw [heq]
  have hv : v ∈ members ++ v :: pending := List.mem_append_right _ List.mem_cons_self
  have hold : ∀ x, x ∈ members ++ v :: pending → x ∈ visited := by
    intro x hx
    rw [h.visited_iff]
    exact Or.inr (List.mem_append.mp hx)
  have hmem : ∀ x, x ∈ (members ++ [v]) ++ (new ++ pending) ↔
      x ∈ new ∨ x ∈ members ++ v :: pending := by
    intro x
    simp only [List.mem_append, List.mem_cons, List.not_mem_nil, or_false]
    tauto
  refine ⟨?_, ?_, ?_, ?_, ?_, ?_, ?_⟩
  · intro x
    simp only [List.mem_append, h.visited_iff, List.mem_cons, List.not_mem_nil, or_false]
    tauto
  · -- no vertex is collected twice
    have hperm :
    ((members ++ [v]) ++ (new ++ pending)).Perm (new ++ (members ++ v :: pending)) := by
      have hswap :
          (((members ++ [v]) ++ new) ++ pending).Perm ((new ++ (members ++ [v])) ++ pending) :=
        List.perm_append_comm.append_right pending
      simpa using hswap
    rw [hperm.nodup_iff, List.nodup_append]
    refine ⟨hn, h.nodup, ?_⟩
    intro a ha b hb hab
    exact (hnew a ha).2 (hold a (hab ▸ hb))
  · -- what is pushed is not taken
    intro x hx
    rcases (hmem x).mp hx with hx | hx
    · intro ht
      exact (hnew x hx).2 ((h.visited_iff x).mpr (Or.inl ht))
    · exact h.free x hx
  · intro x hx
    rcases (hmem x).mp hx with hx | hx
    · exact hinn v (h.sub v hv) x (hnew x hx).1
    · exact h.sub x hx
  · -- and is reached from the start
    intro x hx
    rcases (hmem x).mp hx with hx | hx
    · refine (h.reach v hv).tail ⟨(hnew x hx).1, ?_⟩
      intro ht
      exact (hnew x hx).2 ((h.visited_iff x).mpr (Or.inl ht))
    · exact h.reach x hx
  · intro m hm w hw
    rcases List.mem_append.mp hm with hm | hm
    · exact List.mem_append_right _ (h.closed m hm w hw)
    · rw [List.mem_singleton.mp hm] at hw
      exact hall w hw
  · exact (hmem start).mpr (Or.inr h.start_mem)

/-- With enough fuel the collection ends with nothing pending. -/
theorem collect_inv (hinn : ∀ x ∈ vertices, ∀ y ∈ inn x, y ∈ vertices) :
    ∀ (n : ℕ) {visited pending members : List α},
      CollectInv vertices inn taken start visited pending members →
      vertices.length ≤ n + members.length →
      CollectInv vertices inn taken start (collect inn n visited pending members).2 []
        (collect inn n visited pending members).1
  | 0, visited, pending, members, h, hn => by
      have hle : (members ++ pending).length ≤ vertices.length :=
        (List.subperm_of_subset h.nodup h.sub).length_le
      rw [List.length_append] at hle
      obtain rfl : pending = [] := List.length_eq_zero_iff.mp (by omega)
      exact h
  | n + 1, visited, [], members, h, hn => h
  | n + 1, visited, v :: pending, members, h, hn => by
      rw [collect]
      apply collect_inv hinn n (h.next hinn)
      rw [List.length_append, List.length_singleton]
      omega

/-- **The collection** takes exactly what is reachable backwards through free vertices. -/
theorem collect_spec (hinn : ∀ x ∈ vertices, ∀ y ∈ inn x, y ∈ vertices) (hstart : start ∈ vertices)
    (hfree : start ∉ taken) :
    let r := collect inn vertices.length (start :: taken) [start] []
    r.1.Nodup ∧ (∀ x ∈ r.1, x ∈ vertices)
      ∧ (∀ x, x ∈ r.1 ↔ Relation.ReflTransGen (BackFree inn taken) start x)
      ∧ ∀ x, x ∈ r.2 ↔ x ∈ taken ∨ x ∈ r.1 := by
  intro r
  have hinit : CollectInv vertices inn taken start (start :: taken) [start] [] := by
    refine ⟨?_, by simp, ?_, ?_, ?_, by simp, by simp⟩
    · intro x
      simp only [List.mem_cons, List.not_mem_nil, or_false, false_or]
      exact or_comm
    · simpa using hfree
    · simpa using hstart
    · intro x hx
      have : x = start := by simpa using hx
      rw [this]
  have h := collect_inv hinn vertices.length hinit (by simp)
  have hvis : ∀ x, x ∈ r.2 ↔ x ∈ taken ∨ x ∈ r.1 := by
    intro x
    rw [h.visited_iff]
    simp [r]
  refine ⟨by simpa using h.nodup, fun x hx => h.sub x (List.mem_append_left _ hx), ?_, hvis⟩
  intro x
  constructor
  · exact fun hx => h.reach x (List.mem_append_left _ hx)
  · intro hx
    induction hx with
    | refl => simpa using h.start_mem
    | tail _ hedge ih =>
        exact ((hvis _).mp (h.closed _ ih _ hedge.1)).resolve_left hedge.2

end Collect

omit [DecidableEq α] in
/-- A vertex that finished before `v` and reaches `v` is in the component of `v`, or in that of a
vertex that finished after `v`. -/
theorem sameScc_or_later {out : α → List α} {A C : List α} {v w : α}
    (horder : FinishOrder out (A ++ v :: C)) (hnodup : (A ++ v :: C).Nodup) (hw : w ∈ A)
    (hall : ∀ x, Reach out w x → x ∈ A ++ v :: C) (hreach : Reach out w v) :
    Reach out v w ∨ ∃ x ∈ C, SameScc out w x := by
  classical
  by_contra hcon
  rw [not_or] at hcon
  obtain ⟨hnot, hlater⟩ := hcon
  -- the last vertex of the component of `w` to finish
  obtain ⟨A', x, C', hA, hx, hlast⟩ : ∃ A' x C', A = A' ++ x :: C' ∧ SameScc out w x
      ∧ ∀ y ∈ C', ¬ SameScc out w y := by
    have key : ∀ l : List α, (∃ y ∈ l, SameScc out w y) →
        ∃ A' x C', l = A' ++ x :: C' ∧ SameScc out w x ∧ ∀ y ∈ C', ¬ SameScc out w y := by
      intro l
      induction l with
      | nil => simp
      | cons a l ih =>
          intro h
          by_cases hl : ∃ y ∈ l, SameScc out w y
          · obtain ⟨A', x, C', rfl, hx, hlast⟩ := ih hl
            exact ⟨a :: A', x, C', rfl, hx, hlast⟩
          · obtain ⟨y, hy, hyw⟩ := h
            rcases List.mem_cons.mp hy with rfl | hy
            · exact ⟨[], y, l, rfl, hyw, fun z hz hzw => hl ⟨z, hz, hzw⟩⟩
            · exact absurd ⟨y, hy, hyw⟩ hl
    exact key A ⟨w, hw, SameScc.refl out w⟩
  have hsplit : A ++ v :: C = A' ++ x :: (C' ++ v :: C) := by rw [hA]; simp
  -- everything reachable from the finished part at `x` and reaching ... stays in it
  have hclosed : ∀ y, Reach out x y → y ∈ A' ++ [x] := by
    intro y hy
    induction hy with
    | refl => simp
    | tail hab hbc ih =>
        rename_i b d
        rcases horder A' x (C' ++ v :: C) hsplit b ih d hbc with hd | hd
        · exact hd
        · have hsame : SameScc out w d := hx.trans ⟨hab.tail hbc, hd⟩
          have hmem := hall d hsame.1
          rw [hsplit] at hmem
          rcases List.mem_append.mp hmem with hm | hm
          · exact List.mem_append_left _ hm
          rcases List.mem_cons.mp hm with rfl | hm
          · simp
          rcases List.mem_append.mp hm with hm | hm
          · exact absurd hsame (hlast d hm)
          rcases List.mem_cons.mp hm with rfl | hm
          · exact absurd hsame.2 hnot
          · exact absurd ⟨d, hm, hsame⟩ hlater
  have hvx : v ∈ A' ++ [x] := hclosed v (hx.2.trans hreach)
  rw [hA] at hnodup
  have hv : v ∈ A' ++ x :: C' := by
    rcases List.mem_append.mp hvx with h | h
    · exact List.mem_append_left _ h
    · rw [List.mem_singleton.mp h]
      simp
  exact (List.nodup_append.mp hnodup).2.2 v hv v List.mem_cons_self rfl

/-- A list of components: sorted, nonempty, each one class of mutual reachability. -/
def AreComponents [LinearOrder α] (out : α → List α) (cs : List (List α)) : Prop :=
  ∀ c ∈ cs, c.Pairwise (· < ·) ∧ c ≠ [] ∧ ∀ x ∈ c, ∀ y, y ∈ c ↔ SameScc out x y

/-- The invariant of the second pass. -/
structure GatherInv [LinearOrder α] (vertices : List α) (out : α → List α) (done : List α)
    (s : List α × List (List α)) : Prop where
  visited_iff : ∀ x, x ∈ s.1 ↔ x ∈ s.2.flatten
  nodup : s.2.flatten.Nodup
  sub : ∀ x ∈ s.2.flatten, x ∈ vertices
  comps : AreComponents out s.2
  done_sub : ∀ x ∈ done, x ∈ s.1

omit [DecidableEq α] in
/-- A taken vertex has its whole component taken. -/
theorem GatherInv.taken_of_sameScc [LinearOrder α] {done : List α} {s : List α × List (List α)}
    (h : GatherInv vertices out done s) {x y : α} (hx : x ∈ s.1) (hxy : SameScc out x y) :
    y ∈ s.1 := by
  rw [h.visited_iff, List.mem_flatten] at hx ⊢
  obtain ⟨c, hc, hxc⟩ := hx
  exact ⟨c, hc, ((h.comps c hc).2.2 x hxc y).mpr hxy⟩

omit [DecidableEq α] in
/-- What is reached is a vertex. -/
theorem mem_vertices_of_reach (hclosed : ∀ x ∈ vertices, ∀ y ∈ out x, y ∈ vertices) {a b : α}
    (ha : a ∈ vertices) (h : Reach out a b) : b ∈ vertices := by
  induction h with
  | refl => exact ha
  | tail _ hbc ih => exact hclosed _ ih _ hbc

/-- **One more component** keeps the invariant. -/
theorem GatherInv.next [LinearOrder α] {inn : α → List α} {done rest : List α} {start : α}
    {s : List α × List (List α)} (hv : vertices.Nodup)
    (hclosed : ∀ x ∈ vertices, ∀ y ∈ out x, y ∈ vertices)
    (hinn : ∀ a ∈ vertices, ∀ b, b ∈ inn a ↔ b ∈ vertices ∧ a ∈ out b)
    (horder : FinishOrder out (rest ++ start :: done))
    (hperm : (rest ++ start :: done).Perm vertices) (h : GatherInv vertices out done s) :
    GatherInv vertices out (start :: done) (gather vertices inn s start) := by
  unfold gather
  split_ifs with hmem
  · refine ⟨h.visited_iff, h.nodup, h.sub, h.comps, ?_⟩
    intro x hx
    rcases List.mem_cons.mp hx with rfl | hx
    · exact hmem
    · exact h.done_sub x hx
  · have hstart : start ∈ vertices := hperm.mem_iff.mp (by simp)
    obtain ⟨hnodup, hsub, hreach, hvis⟩ := collect_spec
      (fun x hx y hy => ((hinn x hx y).mp hy).1) hstart hmem
    -- what is collected is the component of the start
    have hclass : ∀ x, x ∈ (collect inn vertices.length (start :: s.1) [start] []).1 ↔
        SameScc out start x := by
      intro x
      rw [hreach]
      constructor
      · -- a vertex that reaches the start is in `rest`, and what finished later is taken already
        intro hx
        have hback : Reach out x start ∧ x ∉ s.1 ∧ x ∈ vertices := by
          induction hx with
          | refl => exact ⟨Relation.ReflTransGen.refl, hmem, hstart⟩
          | tail _ hedge ih =>
              obtain ⟨hin, hfree⟩ := hedge
              obtain ⟨hvb, hout⟩ := (hinn _ ih.2.2 _).mp hin
              exact ⟨ih.1.head hout, hfree, hvb⟩
        obtain ⟨hxs, hfree, hxv⟩ := hback
        by_cases heq : x = start
        · rw [heq]
          exact SameScc.refl out start
        · have hxrest : x ∈ rest := by
            have hxl : x ∈ rest ++ start :: done := hperm.mem_iff.mpr hxv
            rcases List.mem_append.mp hxl with hx | hx
            · exact hx
            rcases List.mem_cons.mp hx with hx | hx
            · exact absurd hx heq
            · exact absurd (h.done_sub x hx) hfree
          rcases sameScc_or_later horder (hperm.nodup_iff.mpr hv) hxrest
            (fun y hy => hperm.mem_iff.mpr (mem_vertices_of_reach hclosed hxv hy)) hxs
            with hsx | ⟨y, hy, hxy⟩
          · exact ⟨hsx, hxs⟩
          · exact absurd (h.taken_of_sameScc (h.done_sub y hy) hxy.symm) hfree
      · rintro ⟨hsx, hxs⟩
        -- every vertex on the way back is in the component, so none is taken
        induction hxs using Relation.ReflTransGen.head_induction_on with
        | refl => exact Relation.ReflTransGen.refl
        | head hedge hrest ih =>
            rename_i a b
            refine (ih (hsx.tail hedge)).tail ⟨?_, ?_⟩
            · have hav := mem_vertices_of_reach hclosed hstart hsx
              exact (hinn b (hclosed a hav b hedge) a).mpr ⟨hav, hedge⟩
            · intro ha
              exact hmem (h.taken_of_sameScc ha ⟨(Relation.ReflTransGen.single hedge).trans hrest,
                hsx⟩)
    set r := collect inn vertices.length (start :: s.1) [start] [] with hr
    have hsort : ∀ x, x ∈ r.1.insertionSort (· ≤ ·) ↔ x ∈ r.1 :=
      fun x => (List.perm_insertionSort (· ≤ ·) r.1).mem_iff
    have hflat : ∀ x, x ∈ (s.2 ++ [r.1.insertionSort (· ≤ ·)]).flatten ↔
        x ∈ s.2.flatten ∨ x ∈ r.1 := by
      intro x
      simp only [List.flatten_append, List.flatten_cons, List.flatten_nil, List.append_nil,
        List.mem_append, hsort]
    -- the invariant after the component
    refine ⟨?_, ?_, ?_, ?_, ?_⟩
    · intro x
      rw [hvis, hflat, h.visited_iff]
    · rw [List.flatten_append, List.flatten_cons, List.flatten_nil, List.append_nil,
        List.nodup_append]
      refine ⟨h.nodup, (List.perm_insertionSort _ r.1).nodup_iff.mpr hnodup, ?_⟩
      intro a ha b hb hab
      rw [hab, ← h.visited_iff] at ha
      rw [hsort, hclass] at hb
      exact hmem (h.taken_of_sameScc ha hb.symm)
    · intro x hx
      rcases (hflat x).mp hx with hx | hx
      · exact h.sub x hx
      · exact hsub x hx
    · intro c hc
      rcases List.mem_append.mp hc with hc | hc
      · exact h.comps c hc
      · rw [List.mem_singleton] at hc
        subst hc
        refine ⟨?_, ?_, ?_⟩
        · exact (List.pairwise_insertionSort (· ≤ ·) r.1).imp₂
            (fun a b hle hne => lt_of_le_of_ne hle hne)
            ((List.perm_insertionSort (· ≤ ·) r.1).nodup_iff.mpr hnodup)
        · exact List.ne_nil_of_mem ((hsort start).mpr ((hclass start).mpr (SameScc.refl out start)))
        · intro x hx y
          rw [hsort, hclass] at hx ⊢
          exact ⟨fun hy => hx.symm.trans hy, fun hy => hx.trans hy⟩
    · intro x hx
      rw [hvis]
      rcases List.mem_cons.mp hx with rfl | hx
      · exact Or.inr ((hclass x).mpr (SameScc.refl out x))
      · exact Or.inl (h.done_sub x hx)

/-- **The components**: they partition the vertices, and each is one class of mutual
reachability. -/
theorem components_spec [LinearOrder α] {inn : α → List α} (hv : vertices.Nodup)
    (hclosed : ∀ x ∈ vertices, ∀ y ∈ out x, y ∈ vertices)
    (hinn : ∀ a ∈ vertices, ∀ b, b ∈ inn a ↔ b ∈ vertices ∧ a ∈ out b) :
    (components vertices out inn).flatten.Perm vertices
      ∧ AreComponents out (components vertices out inn) := by
  obtain ⟨horder, hperm⟩ := finishOrder_spec hv hclosed
  have key : ∀ (todo done : List α) (s : List α × List (List α)),
      finishOrder vertices out = todo.reverse ++ done → GatherInv vertices out done s →
      GatherInv vertices out (todo.reverse ++ done) (todo.foldl (gather vertices inn) s) := by
    intro todo
    induction todo with
    | nil => exact fun done s _ h => h
    | cons start todo ih =>
        intro done s hl h
        rw [List.reverse_cons, List.append_assoc, List.singleton_append] at hl ⊢
        rw [List.foldl_cons]
        exact ih (start :: done) _ hl
          (h.next hv hclosed hinn (hl ▸ horder) (hl ▸ hperm))
  have hinit : GatherInv vertices out [] (([], []) : List α × List (List α)) :=
    ⟨by simp, by simp, by simp, fun c hc => absurd hc (by simp), by simp⟩
  have h := key (finishOrder vertices out).reverse [] ([], []) (by simp) hinit
  rw [List.reverse_reverse, List.append_nil] at h
  refine ⟨?_, h.comps⟩
  rw [components, List.perm_ext_iff_of_nodup h.nodup hv]
  intro x
  exact ⟨h.sub x, fun hx => (h.visited_iff x).mp (h.done_sub x (hperm.mem_iff.mpr hx))⟩

end Components
