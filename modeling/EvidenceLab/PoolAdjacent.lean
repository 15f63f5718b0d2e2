/-
# Pooling adjacent violators

A stack of blocks is fed one group at a time; while the two blocks on top violate the order they are
merged.  `pool_spec` is the rule for such a loop: every block stands for a run of consecutive groups
and no two neighbours violate the order.

The rest is the reason for the loop.  Groups have weights and masses, and a run of groups is `Heavy`
if none of its prefixes has a mean below the mean of the whole.  Runs stay heavy when the left mean
is not below the right one (`Heavy.append`), and over heavy runs no nondecreasing function has a
smaller cost than the means (`cost_means_add_le`).
-/
import Mathlib.Algebra.BigOperators.Group.List.Basic
import Mathlib.Algebra.Order.BigOperators.Group.List
import Mathlib.Algebra.Order.Field.Basic
import Mathlib.Data.List.Chain
import Mathlib.Tactic.FieldSimp
import Mathlib.Tactic.Linarith
import Mathlib.Tactic.Ring

namespace PoolAdjacent

/-! ## The loop -/

section Loop

variable {β : Type*} (violates : β → β → Prop) [DecidableRel violates] (merge : β → β → β)

/-- A new block on a stack, merged with the blocks below it while they violate the order. -/
def settle : List β → β → List β
  | [], b => [b]
  | a :: stack, b => if violates a b then settle stack (merge a b) else b :: a :: stack

/-- All groups through the stack; the bottom of the stack comes first. -/
def pool (groups : List β) : List β := (groups.foldl (settle violates merge) []).reverse

/-- A stack, top first, whose blocks stand for the runs of a list. -/
inductive Stands (S : List β → β → Prop) : List β → List β → Prop
  | nil : Stands S [] []
  | cons {stack groups run : List β} {b : β} : Stands S stack groups → S run b →
      Stands S (b :: stack) (groups ++ run)

variable {violates merge} {S : List β → β → Prop}

/-- The stack stands for consecutive runs of the groups. -/
theorem Stands.runs {stack groups : List β} (h : Stands S stack groups) :
    ∃ runs : List (List β), runs.flatten = groups ∧ List.Forall₂ S runs stack.reverse := by
  induction h with
  | nil => exact ⟨[], rfl, .nil⟩
  | @cons _ _ run _ _ hb ih =>
      obtain ⟨runs, hflat, hruns⟩ := ih
      refine ⟨runs ++ [run], ?_, ?_⟩
      · rw [List.flatten_append, hflat, List.flatten_singleton]
      · rw [List.reverse_cons]
        exact List.rel_append hruns (.cons hb .nil)

/-- One turn: merging keeps what the blocks stand for. -/
theorem Stands.settle (hmerge : ∀ l r a b, S l a → S r b → violates a b → S (l ++ r) (merge a b)) :
    ∀ {stack groups run : List β} {b : β}, Stands S stack groups → S run b →
      Stands S (settle violates merge stack b) (groups ++ run)
  | [], _, _, _, h, hb => .cons h hb
  | a :: stack, _, run, b, .cons h ha, hb => by
      rw [PoolAdjacent.settle]
      split_ifs with hab
      · rw [List.append_assoc]
        exact Stands.settle hmerge h (hmerge _ _ a b ha hb hab)
      · exact .cons (.cons h ha) hb

/-- One turn: no two neighbours violate the order. -/
theorem isChain_settle : ∀ {stack : List β} (b : β), stack.IsChain (fun b a => ¬ violates a b) →
    (settle violates merge stack b).IsChain (fun b a => ¬ violates a b)
  | [], b, _ => List.isChain_singleton b
  | a :: stack, b, h => by
      rw [settle]
      split_ifs with hab
      · exact isChain_settle _ h.tail
      · exact List.isChain_cons_cons.mpr ⟨hab, h⟩

/-- **The loop rule.**  The blocks stand for consecutive runs of the groups, and no two neighbours
violate the order. -/
theorem pool_spec {groups : List β} (hone : ∀ g ∈ groups, S [g] g)
    (hmerge : ∀ l r a b, S l a → S r b → violates a b → S (l ++ r) (merge a b)) :
    (∃ runs : List (List β), runs.flatten = groups ∧
      List.Forall₂ S runs (pool violates merge groups))
      ∧ (pool violates merge groups).IsChain (fun a b => ¬ violates a b) := by
  have hfold : ∀ (rest stack done : List β), (∀ g ∈ rest, S [g] g) → Stands S stack done →
      stack.IsChain (fun b a => ¬ violates a b) →
      Stands S (rest.foldl (settle violates merge) stack) (done ++ rest)
        ∧ (rest.foldl (settle violates merge) stack).IsChain (fun b a => ¬ violates a b) := by
    intro rest
    induction rest with
    | nil =>
        intro stack done _ hstands hchain
        rw [List.append_nil]
        exact ⟨hstands, hchain⟩
    | cons g rest ih =>
        intro stack done hall hstands hchain
        rw [List.forall_mem_cons] at hall
        have hnext := ih (settle violates merge stack g) (done ++ [g]) hall.2
          (hstands.settle hmerge hall.1) (isChain_settle g hchain)
        rw [List.append_assoc, List.singleton_append] at hnext
        exact hnext
  obtain ⟨hstands, hchain⟩ := hfold groups [] [] hone .nil List.isChain_nil
  exact ⟨hstands.runs, List.isChain_reverse.mpr hchain⟩

end Loop

/-! ## Means of runs -/

section Means

variable {ι K : Type*} [Field K] (w p : ι → K)

def weight (l : List ι) : K := (l.map w).sum

def mass (l : List ι) : K := (l.map p).sum

def mean (l : List ι) : K := mass p l / weight w l

/-- No prefix has a mean below the mean of the run. -/
def Heavy [LinearOrder K] (l : List ι) : Prop :=
  ∀ l1 l2, l = l1 ++ l2 → mean w p l * weight w l1 ≤ mass p l1

variable {w p}

/-- Weights add up. -/
@[simp] theorem weight_append (l r : List ι) : weight w (l ++ r) = weight w l + weight w r := by
  rw [weight, List.map_append, List.sum_append, weight, weight]

@[simp] theorem mass_append (l r : List ι) : mass p (l ++ r) = mass p l + mass p r := by
  rw [mass, List.map_append, List.sum_append, mass, mass]

variable [LinearOrder K] [IsStrictOrderedRing K]

theorem weight_nonneg {l : List ι} (hw : ∀ i ∈ l, 0 < w i) : 0 ≤ weight w l :=
  List.sum_nonneg (by simpa using fun i hi => (hw i hi).le)

/-- A run of heavy groups is heavy. -/
theorem weight_pos {l : List ι} (hne : l ≠ []) (hw : ∀ i ∈ l, 0 < w i) : 0 < weight w l := by
  obtain ⟨i, l, rfl⟩ := List.exists_cons_of_ne_nil hne
  rw [List.forall_mem_cons] at hw
  rw [weight, List.map_cons, List.sum_cons]
  exact add_pos_of_pos_of_nonneg hw.1 (weight_nonneg hw.2)

/-- The mean times the weight is the mass. -/
theorem mean_mul_weight {l : List ι} (hne : l ≠ []) (hw : ∀ i ∈ l, 0 < w i) :
    mean w p l * weight w l = mass p l :=
  div_mul_cancel₀ _ (weight_pos hne hw).ne'

theorem heavy_singleton {i : ι} (hi : 0 < w i) : Heavy w p [i] := by
  intro l1 l2 h
  have hmean : mean w p [i] * weight w [i] = mass p [i] :=
    mean_mul_weight (List.cons_ne_nil i []) (by simpa using hi)
  rcases List.append_eq_singleton_iff.mp h.symm with ⟨rfl, -⟩ | ⟨rfl, -⟩
  · simp [weight, mass]
  · exact hmean.le

/-- The mean of two runs lies between their means. -/
theorem mean_append_mem {l r : List ι} (hl : l ≠ []) (hr : r ≠ []) (hw : ∀ i ∈ l ++ r, 0 < w i)
    (h : mean w p r ≤ mean w p l) :
    mean w p r ≤ mean w p (l ++ r) ∧ mean w p (l ++ r) ≤ mean w p l := by
  have hwl := fun i hi => hw i (List.mem_append_left r hi)
  have hwr := fun i hi => hw i (List.mem_append_right l hi)
  have hWl := weight_pos hl hwl
  have hWr := weight_pos hr hwr
  have hml := mean_mul_weight (p := p) hl hwl
  have hmr := mean_mul_weight (p := p) hr hwr
  have hsum : 0 < weight w (l ++ r) := by
    rw [weight_append]
    exact add_pos hWl hWr
  constructor
  · show mean w p r ≤ mass p (l ++ r) / weight w (l ++ r)
    rw [le_div_iff₀ hsum, weight_append, mass_append, mul_add, hmr]
    have hscale := mul_le_mul_of_nonneg_right h hWl.le
    rw [hml] at hscale
    linarith
  · show mass p (l ++ r) / weight w (l ++ r) ≤ mean w p l
    rw [div_le_iff₀ hsum, weight_append, mass_append, mul_add, hml]
    have hscale := mul_le_mul_of_nonneg_right h hWr.le
    rw [hmr] at hscale
    linarith

/-- **Heavy runs merge**, if the left mean is not below the right one. -/
theorem Heavy.append {l r : List ι} (hl : Heavy w p l) (hr : Heavy w p r)
    (hlne : l ≠ []) (hrne : r ≠ [])
    (hw : ∀ i ∈ l ++ r, 0 < w i) (h : mean w p r ≤ mean w p l) : Heavy w p (l ++ r) := by
  obtain ⟨hlow, hhigh⟩ := mean_append_mem hlne hrne hw h
  intro l1 l2 hsplit
  rcases List.append_eq_append_iff.mp hsplit with ⟨r1, rfl, rfl⟩ | ⟨l3, rfl, rfl⟩
  · -- the prefix ends in the right run: what is left of it has at most the right mean
    have hwhole := mean_mul_weight (p := p) (List.append_ne_nil_of_left_ne_nil hlne _) hw
    have hright := mean_mul_weight (p := p) hrne (fun i hi => hw i (List.mem_append_right l hi))
    have hpre := hr r1 l2 rfl
    have hrest : mean w p (r1 ++ l2) * weight w l2 ≤ mean w p (l ++ (r1 ++ l2)) * weight w l2 :=
      mul_le_mul_of_nonneg_right hlow
        (weight_nonneg fun i hi => hw i (List.mem_append_right l (List.mem_append_right r1 hi)))
    simp only [weight_append, mass_append, mul_add] at hwhole hright ⊢
    linarith
  · -- the prefix ends in the left run
    have hpre := hl l1 l3 rfl
    have hscale := mul_le_mul_of_nonneg_right hhigh
      (weight_nonneg fun i hi => hw i (List.mem_append_left r (List.mem_append_left l3 hi)))
    exact hscale.trans hpre

end Means

/-! ## Costs -/

section Costs

variable {ι K : Type*} [Field K] {w p : ι → K}

/-- The squared error of a function up to a constant: `w` observations with sum `p`. -/
def cost (w p f : ι → K) (l : List ι) : K := (l.map fun i => w i * f i ^ 2 - 2 * p i * f i).sum

/-- The weighted squared distance of two functions. -/
def distance (w f g : ι → K) (l : List ι) : K := (l.map fun i => w i * (f i - g i) ^ 2).sum

/-- Costs add up. -/
theorem cost_append (f : ι → K) (l r : List ι) :
    cost w p f (l ++ r) = cost w p f l + cost w p f r := by
  rw [cost, List.map_append, List.sum_append, cost, cost]

theorem distance_append (f g : ι → K) (l r : List ι) :
    distance w f g (l ++ r) = distance w f g l + distance w f g r := by
  rw [distance, List.map_append, List.sum_append, distance, distance]

/-- The cost depends on the values on the run only. -/
theorem cost_congr {f g : ι → K} {l : List ι} (h : ∀ i ∈ l, f i = g i) :
    cost w p f l = cost w p g l := by
  unfold cost
  rw [List.map_congr_left fun i hi => by rw [h i hi]]

theorem distance_congr {f g g' : ι → K} {l : List ι} (h : ∀ i ∈ l, g i = g' i) :
    distance w f g l = distance w f g' l := by
  unfold distance
  rw [List.map_congr_left fun i hi => by rw [h i hi]]

/-- The error of a function on a run against the error of a constant. -/
theorem cost_eq (f : ι → K) (m : K) (l : List ι) :
    cost w p f l = cost w p (fun _ => m) l + distance w f (fun _ => m) l
      + 2 * ((l.map fun i => (w i * m - p i) * f i).sum - m * (m * weight w l - mass p l)) := by
  induction l with
  | nil => simp [cost, distance, weight, mass]
  | cons i l ih =>
      simp only [cost, distance, weight, mass, List.map_cons, List.sum_cons] at ih ⊢
      rw [ih]
      ring

/-- The excess of a constant over the masses of a run. -/
theorem sum_excess (m : K) (l : List ι) :
    (l.map fun i => w i * m - p i).sum = m * weight w l - mass p l := by
  induction l with
  | nil => simp [weight, mass]
  | cons i l ih =>
      simp only [weight, mass, List.map_cons, List.sum_cons] at ih ⊢
      rw [ih]
      ring

variable [LinearOrder K] [IsStrictOrderedRing K]

/-- Summation by parts: coefficients whose prefix sums are at most zero, and which sum to zero, pair
with a nondecreasing function to at least zero. -/
theorem sum_mul_nonneg {f : ι → K} (a : ι → K) : ∀ (l : List ι) (c f0 : K),
    (∀ l1 l2, l = l1 ++ l2 → c + (l1.map a).sum ≤ 0) → c + (l.map a).sum = 0 → (∀ i ∈ l, f0 ≤ f i) →
    l.Pairwise (fun i j => f i ≤ f j) → 0 ≤ c * f0 + (l.map fun i => a i * f i).sum
  | [], c, f0, _, hzero, _, _ => by
      rw [List.map_nil, List.sum_nil, add_zero] at hzero
      simp [hzero]
  | i :: l, c, f0, hpre, hzero, hlow, hmono => by
      rw [List.forall_mem_cons] at hlow
      rw [List.pairwise_cons] at hmono
      rw [List.map_cons, List.sum_cons, ← add_assoc] at hzero
      have hc : c ≤ 0 := by simpa using hpre [] (i :: l) rfl
      have hnext := sum_mul_nonneg a l (c + a i) (f i)
        (fun l1 l2 h => by simpa [add_assoc] using hpre (i :: l1) l2 (by rw [h]; rfl))
        hzero hmono.1 hmono.2
      have hstart := mul_le_mul_of_nonpos_left hlow.1 hc
      rw [List.map_cons, List.sum_cons]
      linarith [add_mul c (a i) (f i)]

/-- **The mean of a heavy run is the best constant against nondecreasing functions.** -/
theorem Heavy.cost_le {l : List ι} (h : Heavy w p l) (hne : l ≠ []) (hw : ∀ i ∈ l, 0 < w i)
    {f : ι → K}
    (hf : l.Pairwise (fun i j => f i ≤ f j)) :
    cost w p (fun _ => mean w p l) l + distance w f (fun _ => mean w p l) l ≤ cost w p f l := by
  have hmean : mean w p l * weight w l = mass p l := mean_mul_weight hne hw
  obtain ⟨i, rest, hl⟩ := List.exists_cons_of_ne_nil hne
  have hparts : 0 ≤ 0 * f i + (l.map fun i => (w i * mean w p l - p i) * f i).sum := by
    apply sum_mul_nonneg
    · intro l1 l2 hsplit
      rw [zero_add, sum_excess]
      linarith [h l1 l2 hsplit]
    · rw [zero_add, sum_excess, hmean, sub_self]
    · intro j hj
      rw [hl] at hf hj
      rcases List.mem_cons.mp hj with rfl | hj
      · exact le_rfl
      · exact (List.pairwise_cons.mp hf).1 j hj
    · exact hf
  rw [cost_eq f (mean w p l), hmean, sub_self, mul_zero, sub_zero]
  linarith

/-- **The means of heavy runs are best** among the functions that do not decrease. -/
theorem cost_means_add_le {f fit : ι → K} : ∀ {runs : List (List ι)},
    (∀ run ∈ runs, run ≠ [] ∧ Heavy w p run ∧ ∀ i ∈ run, 0 < w i ∧ fit i = mean w p run) →
    runs.flatten.Pairwise (fun i j => f i ≤ f j) →
    cost w p fit runs.flatten + distance w f fit runs.flatten ≤ cost w p f runs.flatten
  | [], _, _ => by simp [cost, distance]
  | run :: runs, hruns, hf => by
      rw [List.forall_mem_cons] at hruns
      rw [List.flatten_cons, List.pairwise_append] at hf
      obtain ⟨hne, hheavy, hall⟩ := hruns.1
      have hhead := hheavy.cost_le hne (fun i hi => (hall i hi).1) hf.1
      rw [← cost_congr (fun i hi => (hall i hi).2), ← distance_congr (fun i hi => (hall i hi).2)]
        at hhead
      have htail := cost_means_add_le hruns.2 hf.2.1
      rw [List.flatten_cons, cost_append, cost_append, distance_append]
      linarith

/-- A distance is not negative. -/
theorem distance_nonneg {f g : ι → K} {l : List ι} (hw : ∀ i ∈ l, 0 < w i) : 0 ≤ distance w f g l :=
  List.sum_nonneg (by simpa using fun i hi => mul_nonneg (hw i hi).le (sq_nonneg (f i - g i)))

/-- Functions at distance zero agree. -/
theorem eq_of_distance_le_zero {f g : ι → K} : ∀ {l : List ι}, (∀ i ∈ l, 0 < w i) →
    distance w f g l ≤ 0 →
    ∀ i ∈ l, f i = g i
  | [], _, _ => by simp
  | i :: l, hw, h => by
      rw [List.forall_mem_cons] at hw ⊢
      rw [distance, List.map_cons, List.sum_cons, ← distance] at h
      have hhead : 0 ≤ w i * (f i - g i) ^ 2 := mul_nonneg hw.1.le (sq_nonneg _)
      have htail : 0 ≤ distance w f g l := distance_nonneg hw.2
      refine ⟨?_, eq_of_distance_le_zero hw.2 (by linarith)⟩
      have hsq : w i * (f i - g i) ^ 2 = 0 := by linarith
      rw [mul_eq_zero, or_iff_right hw.1.ne', sq_eq_zero_iff, sub_eq_zero] at hsq
      exact hsq

end Costs

end PoolAdjacent
