/-
# Calibration metrics

`evaluate` on enough held-out samples: the Brier score, the expected calibration error and the ten
bins.

The sums of `_evaluation` are exact; every number it emits is a fraction with a denominator of at
most `100000 * 10 ^ 24`, which is small enough for the two roundings of `_ratio12` to agree with one
(`ratio12_nearest`).  **`evaluate_rounded`** collects this.
-/
import EvidenceLab.Calibration

namespace Isotonic

open CalcEngine (PyValue)
open Decimal (NearestEven)

/-! ## The exact quantities -/

/-- The bin of a probability: its tenths, with 1 in the last bin. -/
def binOf (p : ℚ) : ℕ := if p = 1 then 9 else ⌊10 * p⌋.toNat

section Exact

variable (prob : Score → ℚ) (samples : List Sample)

/-- The mean squared distance of probability and outcome. -/
def exactBrier : ℚ := (samples.map fun s => (prob s.score - s.outcome.val) ^ 2).sum / samples.length

/-- The samples of a bin. -/
def inBin (i : ℕ) : List Sample := samples.filter (fun s => binOf (prob s.score) = i)

/-- The sum of the probabilities of a bin. -/
def binProb (i : ℕ) : ℚ := ((inBin prob samples i).map fun s => prob s.score).sum

/-- The number of positive samples of a bin. -/
def binPositive (i : ℕ) : ℕ := ((inBin prob samples i).map fun s => s.outcome.val).sum

def binMean (i : ℕ) : ℚ := binProb prob samples i / (inBin prob samples i).length

def binRate (i : ℕ) : ℚ := binPositive prob samples i / (inBin prob samples i).length

/-- The expected calibration error: the distance of mean and rate in every bin, weighted by its
share of the samples. -/
def exactEce : ℚ :=
  ((List.range 10).map fun i => (inBin prob samples i).length
    * |binMean prob samples i - binRate prob samples i|).sum
    / samples.length

end Exact

/-- The text of a number rounded half to even at twelve places. -/
def Rounded (text : String) (v : ℚ) : Prop :=
  ∃ a : Decimal, text = emit12 (some a) ∧ a.exp = -12 ∧ NearestEven ((10 : ℚ) ^ (-12 : ℤ)) v a.value

/-- What a bin reports. -/
structure IsBin (prob : Score → ℚ) (samples : List Sample) (i : ℕ) (b : Bin) : Prop where
  index : b.index = i
  count : b.count = (inBin prob samples i).length
  empty : b.count = 0 → b.meanProbability = none ∧ b.positiveRate = none
  rounded :
    0 < b.count → (∃ text, b.meanProbability = some text ∧ Rounded text (binMean prob samples i))
    ∧ ∃ text, b.positiveRate = some text ∧ Rounded text (binRate prob samples i)

/-- What an evaluation reports. -/
structure Metrics (prob : Score → ℚ) (samples : List Sample) (e : Evaluation) : Prop where
  status : e.status = .evaluated
  brier : ∃ text, e.brier = some text ∧ Rounded text (exactBrier prob samples)
  ece : ∃ text, e.ece = some text ∧ Rounded text (exactEce prob samples)
  bins : ∀ i < 10, ∃ b, e.bins[i]? = some b ∧ IsBin prob samples i b
  ten : e.bins.length = 10
  total : (e.bins.map Bin.count).sum = samples.length

/-! ## Fractions with a common denominator -/

/-- A fraction with the denominator `D`. -/
def OnGrid (D : ℕ) (v : ℚ) : Prop := ∃ z : ℤ, v = z / D

/-- Sums of numbers of a grid are on it. -/
theorem onGrid_sum {D : ℕ} {l : List ℚ} (h : ∀ v ∈ l, OnGrid D v) : OnGrid D l.sum := by
  induction l with
  | nil => exact ⟨0, by simp⟩
  | cons v l ih =>
      rw [List.forall_mem_cons] at h
      obtain ⟨z, hz⟩ := h.1
      obtain ⟨y, hy⟩ := ih h.2
      refine ⟨z + y, ?_⟩
      rw [List.sum_cons, hz, hy]
      push_cast
      ring

/-- Dividing makes the grid finer by the divisor. -/
theorem OnGrid.div_nat {D : ℕ} {v : ℚ} (h : OnGrid D v) (n : ℕ) : OnGrid (D * n) (v / n) := by
  obtain ⟨z, rfl⟩ := h
  exact ⟨z, by push_cast; rw [div_div]⟩

/-- Integers are on every grid. -/
theorem OnGrid.sub_nat {D : ℕ} (hD : 0 < D) {v : ℚ} (h : OnGrid D v) (n : ℕ) :
    OnGrid D (v - n) := by
  obtain ⟨z, rfl⟩ := h
  have hD' : (D : ℚ) ≠ 0 := by exact_mod_cast hD.ne'
  refine ⟨z - n * D, ?_⟩
  push_cast
  field_simp

/-- Squaring squares the grid. -/
theorem OnGrid.sq {D : ℕ} {v : ℚ} (h : OnGrid D v) : OnGrid (D ^ 2) (v ^ 2) := by
  obtain ⟨z, rfl⟩ := h
  refine ⟨z ^ 2, ?_⟩
  push_cast
  rw [div_pow]

theorem OnGrid.abs {D : ℕ} {v : ℚ} (h : OnGrid D v) : OnGrid D |v| := by
  obtain ⟨z, rfl⟩ := h
  refine ⟨|z|, ?_⟩
  rw [abs_div, Int.cast_abs, Nat.abs_cast]

/-- **What is emitted is rounded correctly.** -/
theorem rounded_emit12 {v : ℚ} (h0 : 0 ≤ v) (h1 : v ≤ 1) {D : ℕ} (hD : 0 < D) (hsmall : D < 10 ^ 37)
    (hv : OnGrid D v) : Rounded (emit12 (fraction12 v)) v := by
  obtain ⟨z, hz⟩ := hv
  obtain ⟨r, hr, hexp, hnear⟩ := ratio12_nearest h0 h1 hD hsmall hz v.den_nz (Rat.num_div_den v)
  exact ⟨r, by rw [fraction12, hr], hexp, hnear⟩

/-! ## The sums of the loop -/

/-- A probability as `_left_step` returns it. -/
structure IsProbability (p : ℚ) : Prop where
  nonneg : 0 ≤ p
  le_one : p ≤ 1
  places : OnGrid (10 ^ 12) p

/-- The bin of a probability is that of its value. -/
theorem binIndex_eq {p : ℚ} (h : IsProbability p) : binIndex p = binOf p := by
  have hfloor : (p * 10).num / (p * 10).den = ⌊10 * p⌋ := by rw [mul_comm, Rat.floor_def']
  rw [binIndex, binOf, hfloor]
  by_cases hone : p = 1
  · rw [if_pos hone, hone]
    norm_num
    rfl
  · rw [if_neg hone, min_eq_right]
    have hlt : (10 * p : ℚ) < 10 := by linarith [lt_of_le_of_ne h.le_one hone]
    have hfloor_lt : ⌊10 * p⌋ < 10 := Int.floor_lt.mpr (by exact_mod_cast hlt)
    omega

/-- There are ten bins. -/
theorem binOf_lt {p : ℚ} (h : IsProbability p) : binOf p < 10 := by
  rw [← binIndex_eq h, binIndex]
  have hmin : min 9 ((p * 10).num / ((p * 10).den : ℤ)) ≤ 9 := min_le_left _ _
  omega

/-- One entry of a tabulated list is changed. -/
theorem modify_map_range {α : Type} (n k : ℕ) (g : ℕ → α) (f : α → α) :
    ((List.range n).map g).modify k f
    = (List.range n).map (fun i => if k = i then f (g i) else g i) := by
  apply List.ext_getElem?
  intro i
  rw [List.getElem?_modify, List.getElem?_map, List.getElem?_map]
  by_cases hi : i < n
  · by_cases hk : k = i
    · simp [List.getElem?_range hi, hk]
    · simp [List.getElem?_range hi, hk]
  · simp [List.getElem?_eq_none (by simpa using hi : (List.range n).length ≤ i)]

/-- One more sample falls into its bin. -/
theorem inBin_append (prob : Score → ℚ) (samples : List Sample) (s : Sample) (i : ℕ) :
    inBin prob (samples ++ [s]) i = inBin prob samples i ++ if binOf (prob s.score) = i then [s]
    else [] := by
  rw [inBin, List.filter_append, ← inBin]
  congr 1
  by_cases h : binOf (prob s.score) = i
  · simp [h]
  · simp [h]

/-- **The sums of the loop are exact.** -/
theorem sums_eq {prob : Score → ℚ} (hprob : ∀ s, IsProbability (prob s)) (samples : List Sample) :
    (samples.map (fun s => (prob s.score, s))).foldl Sums.add Sums.start
      = ⟨(samples.map fun s => (prob s.score - s.outcome.val) ^ 2).sum,
          (List.range 10).map (fun i => (inBin prob samples i).length),
          (List.range 10).map (binProb prob samples),
          (List.range 10).map (binPositive prob samples)⟩ := by
  induction samples using List.reverseRecOn with
  | nil => rfl
  | append_singleton samples s ih =>
      rw [List.map_append, List.foldl_append, ih]
      simp only [List.map_cons, List.map_nil, List.foldl_cons, List.foldl_nil, Sums.add,
        binIndex_eq (hprob s.score),
        modify_map_range, List.map_append, List.sum_append, List.sum_cons, List.sum_nil,
        add_zero, Sums.mk.injEq,
        true_and]
      refine ⟨?_, ?_, ?_⟩
      · refine List.map_congr_left fun i _ => ?_
        rw [inBin_append, List.length_append]
        split_ifs <;> rfl
      · refine List.map_congr_left fun i _ => ?_
        rw [binProb, binProb, inBin_append, List.map_append, List.sum_append]
        split_ifs <;> simp
      · refine List.map_congr_left fun i _ => ?_
        rw [binPositive, binPositive, inBin_append, List.map_append, List.sum_append]
        split_ifs <;> simp

/-- The order of the samples does not change the evaluation. -/
theorem evaluated_perm {prob : Score → ℚ} (hprob : ∀ s, IsProbability (prob s))
    {samples samples' : List Sample}
    (h : samples.Perm samples') : evaluated prob samples = evaluated prob samples' := by
  have hbin : ∀ i, (inBin prob samples i).Perm (inBin prob samples' i) := fun i => h.filter _
  have hcounts :
      (fun i => (inBin prob samples i).length) = fun i => (inBin prob samples' i).length :=
    funext fun i => (hbin i).length_eq
  have hprobs : binProb prob samples = binProb prob samples' :=
    funext fun i => ((hbin i).map _).sum_eq
  have hpositives : binPositive prob samples = binPositive prob samples' :=
    funext fun i => ((hbin i).map _).sum_eq
  rw [evaluated, evaluated, sums_eq hprob, sums_eq hprob, hcounts, hprobs, hpositives, h.length_eq,
    (h.map fun s => (prob s.score - s.outcome.val) ^ 2).sum_eq,
    (h.map fun s => s.outcome.val).sum_eq]

/-! ## Bounds -/

/-- A sum of numbers up to one is at most their number. -/
theorem sum_le_length {α : Type} {f : α → ℚ} {l : List α} (h : ∀ a ∈ l, f a ≤ 1) :
    (l.map f).sum ≤ l.length := by
  induction l with
  | nil => simp
  | cons a l ih =>
      rw [List.forall_mem_cons] at h
      rw [List.map_cons, List.sum_cons, List.length_cons]
      push_cast
      linarith [h.1, ih h.2]

theorem sum_nonneg_of {α : Type} {f : α → ℚ} {l : List α} (h : ∀ a ∈ l, 0 ≤ f a) :
    0 ≤ (l.map f).sum := by
  apply List.sum_nonneg
  intro x hx
  obtain ⟨a, ha, rfl⟩ := List.mem_map.mp hx
  exact h a ha

/-- Every sample is in one bin. -/
theorem sum_lengths_inBin {prob : Score → ℚ} (hprob : ∀ s, IsProbability (prob s))
    (samples : List Sample) :
    ((List.range 10).map fun i => (inBin prob samples i).length).sum = samples.length := by
  induction samples using List.reverseRecOn with
  | nil => rfl
  | append_singleton samples s ih =>
      have hsplit : ∀ i, (inBin prob (samples ++ [s]) i).length
          = (inBin prob samples i).length + if binOf (prob s.score) = i then 1 else 0 := by
        intro i
        rw [inBin_append, List.length_append]
        split_ifs <;> rfl
      have hone :
          ((List.range 10).map fun i => if binOf (prob s.score) = i then 1 else 0).sum = 1 := by
        rw [← List.sum_toFinset _ List.nodup_range, Finset.sum_ite_eq, if_pos]
        simpa using binOf_lt (hprob s.score)
      simp only [hsplit, List.sum_map_add, ih, hone, List.length_append, List.length_singleton]

section Bounds

variable {prob : Score → ℚ} (hprob : ∀ s, IsProbability (prob s)) {samples : List Sample}

include hprob

/-- The probabilities of a bin sum to a number on the grid, at most its size. -/
theorem binProb_bounds (i : ℕ) :
    0 ≤ binProb prob samples i ∧ binProb prob samples i ≤ (inBin prob samples i).length
    ∧ OnGrid (10 ^ 12) (binProb prob samples i) := by
  refine ⟨sum_nonneg_of fun s _ => (hprob s.score).nonneg,
    sum_le_length fun s _ => (hprob s.score).le_one,
    onGrid_sum fun v hv => ?_⟩
  obtain ⟨s, -, rfl⟩ := List.mem_map.mp hv
  exact (hprob s.score).places

omit hprob in
/-- The positives of a bin are some of its samples. -/
theorem binPositive_le (i : ℕ) : binPositive prob samples i ≤ (inBin prob samples i).length :=
  sum_outcomes_le _

omit hprob in
/-- The share of a bin in the calibration error, before the division. -/
theorem share_eq (i : ℕ) :
    (inBin prob samples i).length * |binMean prob samples i - binRate prob samples i|
    = |binProb prob samples i - binPositive prob samples i| := by
  by_cases hzero : (inBin prob samples i).length = 0
  · have hnil : inBin prob samples i = [] := List.eq_nil_of_length_eq_zero hzero
    rw [binProb, binPositive, hnil]
    simp
  · have hpos :
    (0 : ℚ) < (inBin prob samples i).length := by exact_mod_cast Nat.pos_of_ne_zero hzero
    rw [binMean, binRate, ← sub_div, abs_div, abs_of_pos hpos, mul_div_cancel₀ _ hpos.ne']

/-- The gap of a bin is at most its size. -/
theorem share_le (i : ℕ) :
    |binProb prob samples i - binPositive prob samples i| ≤ (inBin prob samples i).length := by
  obtain ⟨h0, h1, -⟩ := @binProb_bounds prob hprob samples i
  have hpos : (binPositive prob samples i : ℚ) ≤ (inBin prob samples i).length := by
    exact_mod_cast binPositive_le i
  have hnonneg : (0 : ℚ) ≤ binPositive prob samples i := Nat.cast_nonneg _
  rw [abs_le]
  constructor <;> linarith

variable (hn : 0 < samples.length) (hle : samples.length ≤ maxSamples)

include hn hle

/-- **The Brier score** is the rounded exact one. -/
theorem exactBrier_rounded :
    Rounded (emit12 (fraction12 (exactBrier prob samples))) (exactBrier prob samples) := by
  have hlen : (0 : ℚ) < samples.length := by exact_mod_cast hn
  have hterm : ∀ s ∈ samples, 0 ≤ (prob s.score - s.outcome.val) ^ 2 ∧
      (prob s.score - s.outcome.val) ^ 2 ≤ 1 := by
    intro s _
    obtain ⟨h0, h1, -⟩ := hprob s.score
    have ho : (s.outcome.val : ℚ) ≤ 1 := by exact_mod_cast Nat.le_of_lt_succ s.outcome.isLt
    have ho0 : (0 : ℚ) ≤ s.outcome.val := Nat.cast_nonneg _
    refine ⟨sq_nonneg _, (sq_le_one_iff_abs_le_one _).mpr (abs_le.mpr ⟨?_, ?_⟩)⟩ <;> linarith
  refine rounded_emit12 (D := (10 ^ 12) ^ 2 * samples.length) ?_ ?_ (by positivity) ?_ ?_
  · exact div_nonneg (sum_nonneg_of fun s hs => (hterm s hs).1) hlen.le
  · rw [exactBrier, div_le_one hlen]
    exact sum_le_length fun s hs => (hterm s hs).2
  · calc (10 ^ 12) ^ 2 * samples.length ≤ (10 ^ 12) ^ 2 * maxSamples := Nat.mul_le_mul_left _ hle
      _ < 10 ^ 37 := by norm_num [maxSamples]
  · apply OnGrid.div_nat
    apply onGrid_sum
    intro v hv
    obtain ⟨s, -, rfl⟩ := List.mem_map.mp hv
    exact ((hprob s.score).places.sub_nat (by norm_num) _).sq

/-- **The calibration error** is the rounded exact one. -/
theorem exactEce_rounded :
    Rounded (emit12 (fraction12 (exactEce prob samples))) (exactEce prob samples) := by
  have hlen : (0 : ℚ) < samples.length := by exact_mod_cast hn
  have hece : exactEce prob samples
      = ((List.range 10).map fun i => |binProb prob samples i - binPositive prob samples i|).sum /
        samples.length := by
    rw [exactEce]
    simp only [share_eq]
  have hsum :
      ((List.range 10).map fun i => |binProb prob samples i - binPositive prob samples i|).sum
      ≤ samples.length := by
    rw [← sum_lengths_inBin hprob samples, Nat.cast_list_sum, List.map_map]
    exact List.sum_le_sum fun i _ => share_le hprob i
  rw [hece]
  refine rounded_emit12 (D := 10 ^ 12 * samples.length) ?_ ?_ (by positivity) ?_ ?_
  · exact div_nonneg (sum_nonneg_of fun i _ => abs_nonneg _) hlen.le
  · rw [div_le_one hlen]
    exact hsum
  · calc 10 ^ 12 * samples.length ≤ 10 ^ 12 * maxSamples := Nat.mul_le_mul_left _ hle
      _ < 10 ^ 37 := by norm_num [maxSamples]
  · apply OnGrid.div_nat
    apply onGrid_sum
    intro v hv
    obtain ⟨i, -, rfl⟩ := List.mem_map.mp hv
    exact ((binProb_bounds hprob i).2.2.sub_nat (by norm_num) _).abs

omit hn in
/-- **The means of a bin** are the rounded exact ones. -/
theorem bin_rounded {i : ℕ} (hi : 0 < (inBin prob samples i).length) :
    Rounded (emit12 (fraction12 (binMean prob samples i))) (binMean prob samples i)
      ∧ Rounded (emit12 (fraction12 (binRate prob samples i))) (binRate prob samples i) := by
  have hpos : (0 : ℚ) < (inBin prob samples i).length := by exact_mod_cast hi
  have hcount : (inBin prob samples i).length ≤ maxSamples := (List.length_filter_le _ _).trans hle
  obtain ⟨h0, h1, hgrid⟩ := @binProb_bounds prob hprob samples i
  constructor
  · refine rounded_emit12 (div_nonneg h0 hpos.le) ((div_le_one hpos).mpr h1) ?_ ?_ (hgrid.div_nat _)
    · positivity
    · calc 10 ^ 12 * (inBin prob samples i).length ≤ 10 ^ 12 * maxSamples :=
        Nat.mul_le_mul_left _ hcount
        _ < 10 ^ 37 := by norm_num [maxSamples]
  · have hle' : (binPositive prob samples i : ℚ) ≤ (inBin prob samples i).length := by
      exact_mod_cast binPositive_le i
    refine rounded_emit12 (D := (inBin prob samples i).length)
      (div_nonneg (Nat.cast_nonneg _) hpos.le)
      ((div_le_one hpos).mpr hle') hi (hcount.trans_lt (by norm_num [maxSamples])) ?_
    exact ⟨binPositive prob samples i, by rw [binRate, Int.cast_natCast]⟩

end Bounds

/-! ## The evaluation -/

/-- **The metrics of enough samples are rounded correctly.** -/
theorem metrics_evaluated {prob : Score → ℚ} (hprob : ∀ s, IsProbability (prob s))
    {samples : List Sample}
    (hn : 0 < samples.length) (hle : samples.length ≤ maxSamples) :
    Metrics prob samples (evaluated prob samples) := by
  -- the bins of the loop, with the exact sums
  have hbin : ∀ i < 10, IsBin prob samples i
      (((samples.map (fun s => (prob s.score, s))).foldl Sums.add Sums.start).bin i).1
      ∧ (((samples.map (fun s => (prob s.score, s))).foldl Sums.add Sums.start).bin i).2
        = (inBin prob samples i).length * |binMean prob samples i - binRate prob samples i| := by
    intro i hi
    have hget : ∀ {α : Type} (g : ℕ → α) (d : α), ((List.range 10).map g).getD i d = g i := by
      intro α g d
      simp [List.getD_eq_getElem?_getD, List.getElem?_range hi]
    rw [sums_eq hprob, Sums.bin]
    simp only [hget]
    by_cases hzero : (inBin prob samples i).length = 0
    · rw [if_pos hzero]
      refine ⟨⟨rfl, hzero.symm, fun _ => ⟨rfl, rfl⟩, fun h => absurd h (lt_irrefl 0)⟩, ?_⟩
      simp [hzero]
    · rw [if_neg hzero]
      obtain ⟨hmean, hrate⟩ := bin_rounded hprob hle (Nat.pos_of_ne_zero hzero)
      exact ⟨⟨rfl, rfl, fun h => absurd h hzero, fun _ => ⟨⟨_, rfl, hmean⟩, ⟨_, rfl, hrate⟩⟩⟩, rfl⟩
  constructor
  · rfl
  · refine ⟨_, rfl, ?_⟩
    rw [sums_eq hprob]
    exact exactBrier_rounded hprob hn hle
  · refine ⟨_, rfl, ?_⟩
    have hsum : (((List.range 10).map
        ((samples.map (fun s => (prob s.score, s))).foldl Sums.add Sums.start).bin).map
        Prod.snd).sum / samples.length
        = exactEce prob samples := by
      rw [exactEce, List.map_map]
      congr 2
      exact List.map_congr_left fun i hi => (hbin i (List.mem_range.mp hi)).2
    rw [hsum]
    exact exactEce_rounded hprob hn hle
  · intro i hi
    refine ⟨_, ?_, (hbin i hi).1⟩
    simp [evaluated, List.getElem?_range hi]
  · simp [evaluated]
  · rw [← sum_lengths_inBin hprob samples]
    simp only [evaluated, List.map_map]
    congr 1
    exact List.map_congr_left fun i hi => (hbin i (List.mem_range.mp hi)).1.count

/-- A fitted step function takes probabilities. -/
theorem isProbability_of_leftStep {blocks : List Block} (h : Checked .fitted blocks)
    {prob : Score → ℚ}
    (hprob : Probabilities blocks prob) (s : Score) : IsProbability (prob s) := by
  cases h with
  | fitted hne hvalid hchain =>
      obtain ⟨v, hv, hpredicts, k, hk, -⟩ := leftStep_spec hne hvalid hchain s
      obtain ⟨w, hw, hvalue⟩ := hprob s
      cases hv.symm.trans hw
      rw [← hvalue]
      refine ⟨hpredicts.nonneg, hpredicts.le_one, k, ?_⟩
      rw [hk, zpow_neg, ← div_eq_mul_inv]
      norm_num

/-- Parsed samples are those of the rows, as many as allowed. -/
theorem length_of_parseSamples {tuple : Bool} {rows : List PyValue} {parsed : List Sample}
    (h : parseSamples (.seq tuple rows) = .ok parsed) :
    rows.mapM parseRow = .ok parsed ∧ parsed.length ≤ maxSamples := by
  simp only [parseSamples, Except.bind_eq_ok_iff, Except.raiseIf_eq_ok_iff, not_lt] at h
  obtain ⟨-, hle, hrows⟩ := h
  refine ⟨hrows, ?_⟩
  rw [← (Except.mapM_eq_ok_iff.mp hrows).length_eq]
  exact hle

/-- **The metrics of an evaluation are correctly rounded**, and the order of the samples does not
matter. -/
theorem evaluate_rounded {artifact : PyValue} {blocks : List Block} {tuple : Bool}
    {rows : List PyValue}
    {parsed : List Sample} (hartifact : validateArtifact artifact = .ok (.fitted, blocks))
    (hparsed : parseSamples (.seq tuple rows) = .ok parsed)
    (henough : support parsed.length (parsed.map (fun s => s.outcome.val)).sum
      (parsed.length - (parsed.map (fun s => s.outcome.val)).sum) = true) :
    ∃ (prob : Score → ℚ) (e : Evaluation),
      (∀ s : Score, ∃ v, predict artifact (.str s.text) = .ok (some v) ∧ v.value = prob s)
      ∧ evaluate artifact (.seq tuple rows) = .ok e ∧ Metrics prob parsed e
      ∧ ∀ tuple' rows', rows.Perm rows' → evaluate artifact (.seq tuple' rows') = .ok e := by
  have hchecked := checked_of_validateArtifact hartifact
  obtain ⟨prob, hprob⟩ := probabilities_of_checked hchecked
  have hisprob := isProbability_of_leftStep hchecked hprob
  obtain ⟨hrows, hle⟩ := length_of_parseSamples hparsed
  have hn : 0 < parsed.length := by
    simp only [support, Bool.and_eq_true, decide_eq_true_eq] at henough
    obtain ⟨⟨hmin, -⟩, -⟩ := henough
    exact lt_of_lt_of_le (by decide) hmin
  refine ⟨prob, evaluated prob parsed, ?_, ?_, metrics_evaluated hisprob hn hle, ?_⟩
  · intro s
    obtain ⟨v, hv, hvalue⟩ := hprob s
    have hscore : canonicalScore (.str s.text) .invalidSample = .ok s :=
      canonicalScore_eq_ok.mpr rfl
    refine ⟨v, ?_, hvalue⟩
    simp only [predict, hartifact, hscore, Except.ok_bind]
    exact hv
  · rw [evaluate_eq hartifact hparsed, evaluation_fitted hprob parsed henough]
  · intro tuple' rows' hp
    obtain ⟨parsed', hrows', hperm⟩ := Except.mapM_perm hp hrows
    have hparsed' : parseSamples (.seq tuple' rows') = .ok parsed' := by
      simp only [parseSamples, Except.bind_eq_ok_iff, Except.raiseIf_eq_ok_iff, not_lt] at hparsed ⊢
      obtain ⟨u, hlen, -⟩ := hparsed
      exact ⟨u, hp.length_eq ▸ hlen, hrows'⟩
    rw [evaluate_eq hartifact hparsed', evaluated_perm hisprob hperm]
    apply evaluation_fitted hprob
    rwa [← hperm.length_eq, ← (hperm.map fun s => s.outcome.val).sum_eq]

set_option maxRecDepth 20000 in
theorem evaluate_rounded_decreasingRows :
    ∃ artifact parsed, fit (.list decreasingRows) = .ok artifact
      ∧ parseSamples (.list decreasingRows) = .ok parsed ∧ parsed.length = 100
      ∧ ∃ prob e, evaluate artifact.public (.list decreasingRows) = .ok e
      ∧ Metrics prob parsed e := by
  have hfit : ∃ artifact, fit (.list decreasingRows) = .ok artifact ∧ artifact.status = .fitted :=
    ⟨_, rfl, by decide⟩
  have hparsed : ∃ parsed, parseSamples (.list decreasingRows) = .ok parsed ∧ parsed.length = 100
      ∧ support parsed.length (parsed.map (fun s => s.outcome.val)).sum
        (parsed.length - (parsed.map (fun s => s.outcome.val)).sum) = true :=
    ⟨_, rfl, by decide, by decide⟩
  obtain ⟨artifact, hartifact, hstatus⟩ := hfit
  obtain ⟨parsed, hsamples, hlen, henough⟩ := hparsed
  have haccepted := validateArtifact_fit hartifact
  rw [hstatus] at haccepted
  obtain ⟨prob, e, -, he, hmetrics, -⟩ := evaluate_rounded haccepted hsamples henough
  exact ⟨artifact, parsed, hartifact, hsamples, hlen, prob, e, he, hmetrics⟩

end Isotonic
