/-
# Isotonic calibration

The model of `isotonic.py` as far as `fit`: canonical scores, samples, aggregation and pooling.
`stepFunction` is the step function of fitted blocks, with the exact means.

`fit_isotonic`: the blocks partition the scores of the samples into consecutive runs with exact
counts and strictly increasing means, and the step function is the only minimiser of the squared
error among the functions that do not decrease; the order of the samples does not matter.
-/
import EvidenceLab.Bisection
import EvidenceLab.Canonical
import EvidenceLab.Dict
import EvidenceLab.ExceptRules
import EvidenceLab.PoolAdjacent
import Mathlib.Data.Real.Basic

namespace Isotonic

open CalcEngine (PyValue)

/-! ## Scores -/

/-- The characters of a text that matches `_SCORE`. -/
def isScoreText : List Char → Bool
  | ['0'] => true
  | ['1'] => true
  | '0' :: '.' :: digits => digits.length ≤ 12 && digits.all Char.isDigit && digits.getLast?
      ∉ [none, some '0']
  | _ => false

/-- A canonical score. -/
structure Score where
  text : String
  valid : isScoreText text.toList = true
  deriving DecidableEq

/-- `Decimal(score)`. -/
def Score.decimal (s : Score) : Decimal :=
  ⟨false, Nat.ofDigitChars 10 (s.text.toList.filter (· ≠ '.')) 0,
    -(((s.text.toList.dropWhile (· ≠ '.')).length - 1 : ℕ) : ℤ)⟩

def Score.value (s : Score) : ℚ := s.decimal.value

/-- A score is zero, one, or a fraction without trailing zeros. -/
theorem isScoreText_cases {cs : List Char} (h : isScoreText cs = true) :
    cs = ['0'] ∨ cs = ['1'] ∨ ∃ ds d, cs = '0' :: '.' :: (ds ++ [d]) ∧
    (∀ c ∈ ds ++ [d], c.isDigit = true)
      ∧ d ≠ '0' := by
  unfold isScoreText at h
  split at h
  · exact .inl rfl
  · exact .inr (.inl rfl)
  · rename_i digits
    simp only [Bool.and_eq_true, List.all_eq_true, decide_eq_true_eq, List.mem_cons,
      List.not_mem_nil,
      or_false, not_or] at h
    obtain ⟨⟨-, hall⟩, hnone, hzero⟩ := h
    have hne : digits ≠ [] := fun h0 => hnone (by rw [h0]; rfl)
    refine .inr (.inr ⟨digits.dropLast, digits.getLast hne, ?_, ?_, ?_⟩)
    · rw [List.dropLast_append_getLast hne]
    · rw [List.dropLast_append_getLast hne]
      exact hall
    · rw [List.getLast?_eq_some_getLast hne] at hzero
      exact fun h0 => hzero (by rw [h0])
  · cases h

/-- A digit is below ten. -/
theorem digit_lt {c : Char} (h : c.isDigit = true) :
    c.toNat - '0'.toNat < 10 ∧ '0'.toNat ≤ c.toNat := by
  have h' : '0'.val ≤ c.val ∧ c.val ≤ '9'.val := by
    rw [Char.isDigit, Bool.and_eq_true, decide_eq_true_eq, decide_eq_true_eq] at h
    exact h
  have hlow : '0'.toNat ≤ c.toNat := h'.1
  have hhigh : c.toNat ≤ '9'.toNat := h'.2
  have h0 : '0'.toNat = 48 := rfl
  have h9 : '9'.toNat = 57 := rfl
  omega

/-- Digits of one length with one number are the same digits. -/
theorem ofDigitChars_inj : ∀ {cs cs' : List Char} {init init' : ℕ}, cs.length = cs'.length →
    (∀ c ∈ cs, c.isDigit = true) → (∀ c ∈ cs', c.isDigit = true) →
    Nat.ofDigitChars 10 cs init = Nat.ofDigitChars 10 cs' init' → init = init' ∧ cs = cs'
  | [], [], _, _, _, _, _, h => ⟨h, rfl⟩
  | c :: cs, c' :: cs', init, init', hlen, hcs, hcs', h => by
      rw [List.forall_mem_cons] at hcs hcs'
      rw [Nat.ofDigitChars_cons, Nat.ofDigitChars_cons] at h
      obtain ⟨hinit, htail⟩ := ofDigitChars_inj (by simpa using hlen) hcs.2 hcs'.2 h
      obtain ⟨hlt, hge⟩ := digit_lt hcs.1
      obtain ⟨hlt', hge'⟩ := digit_lt hcs'.1
      have hchar : c.toNat = c'.toNat := by omega
      rw [Char.toNat_inj] at hchar
      exact ⟨by omega, by rw [hchar, htail]⟩

/-- The coefficient and the exponent of a fraction. -/
theorem decimal_fraction {s : Score} {ds : List Char} (htext : s.text.toList = '0' :: '.' :: ds)
    (hds : ∀ c ∈ ds, c.isDigit = true) :
    s.decimal = ⟨false, Nat.ofDigitChars 10 ds 0, -(ds.length : ℤ)⟩ := by
  obtain ⟨hfilter, -⟩ := Decimal.filter_point_of_digits hds
  have hf : ('0' :: '.' :: ds).filter (· ≠ '.') = '0' :: ds := by
    rw [List.filter_cons_of_pos (by decide), List.filter_cons_of_neg (by decide), hfilter]
  have hd : ('0' :: '.' :: ds).dropWhile (· ≠ '.') = '.' :: ds := rfl
  rw [Score.decimal, htext, hf, hd, Nat.ofDigitChars_cons]
  rfl

/-- The spelling of a canonical score is normal: a fraction ends in a nonzero digit. -/
theorem decimal_cases (s : Score) :
    (s.text.toList = ['0'] ∧ s.decimal = ⟨false, 0, 0⟩) ∨
    (s.text.toList = ['1'] ∧ s.decimal = ⟨false, 1, 0⟩)
      ∨ ∃ ds, ds ≠ [] ∧ s.text.toList = '0' :: '.' :: ds ∧ (∀ c ∈ ds, c.isDigit = true)
        ∧ s.decimal = ⟨false, Nat.ofDigitChars 10 ds 0, -(ds.length : ℤ)⟩
        ∧ Nat.ofDigitChars 10 ds 0 % 10 ≠ 0 := by
  rcases isScoreText_cases s.valid with htext | htext | ⟨ds, d, htext, hds, hd⟩
  · exact .inl ⟨htext, by rw [Score.decimal, htext]; rfl⟩
  · exact .inr (.inl ⟨htext, by rw [Score.decimal, htext]; rfl⟩)
  · refine .inr (.inr ⟨ds ++ [d], List.append_ne_nil_of_right_ne_nil _ (List.cons_ne_nil _ _),
      htext, hds,
      decimal_fraction htext hds, ?_⟩)
    obtain ⟨hlt, hge⟩ := digit_lt (hds d (by simp))
    have hne : d.toNat ≠ '0'.toNat := fun h => hd (Char.toNat_inj.mp h)
    rw [Nat.ofDigitChars_append, Nat.ofDigitChars_cons, Nat.ofDigitChars_nil, Nat.mul_add_mod]
    omega

/-- The decimal of a score has no trailing zeros. -/
theorem Score.decimal_normal (s : Score) : s.decimal.Normal := by
  rcases decimal_cases s with ⟨-, h⟩ | ⟨-, h⟩ | ⟨ds, -, -, -, h, hmod⟩
  · rw [h]
    exact ⟨fun _ => rfl, fun h0 => absurd rfl h0⟩
  · rw [h]
    exact ⟨fun h0 => absurd h0 one_ne_zero, fun _ => by decide⟩
  · rw [h]
    refine ⟨fun h0 => absurd ?_ hmod, fun _ => hmod⟩
    simp only at h0
    rw [h0, Nat.zero_mod]

/-- The text is determined by its decimal. -/
theorem Score.decimal_inj {s t : Score} (h : s.decimal = t.decimal) : s = t := by
  have htext : s.text.toList = t.text.toList := by
    rcases decimal_cases s with ⟨hs, hsd⟩ | ⟨hs, hsd⟩ | ⟨ds, hne, hs, hds, hsd, -⟩ <;>
      rcases decimal_cases t with ⟨ht, htd⟩ | ⟨ht, htd⟩ | ⟨ds', hne', ht, hds', htd, -⟩ <;>
        rw [hsd, htd, Decimal.mk.injEq] at h <;> rw [hs, ht]
    all_goals try have hlen := List.length_pos_of_ne_nil hne
    all_goals try have hlen' := List.length_pos_of_ne_nil hne'
    all_goals try omega
    -- two fractions of one length
    have hlength : ds.length = ds'.length := by omega
    rw [(ofDigitChars_inj hlength hds hds' h.2.1).2]
  obtain ⟨s, hs⟩ := s
  obtain ⟨t, ht⟩ := t
  simp only at htext
  rw [Score.mk.injEq]
  exact String.toList_inj.mp htext

/-- Canonical scores have one text for every number. -/
theorem Score.value_inj {s t : Score} (h : s.value = t.value) : s = t := by
  apply Score.decimal_inj
  by_cases hzero : s.value = 0
  · have hs := (Decimal.value_eq_zero_iff _).mp hzero
    have ht := (Decimal.value_eq_zero_iff _).mp (h.symm.trans hzero)
    show (⟨false, s.decimal.coeff, s.decimal.exp⟩ : Decimal)
      = ⟨false, t.decimal.coeff, t.decimal.exp⟩
    rw [hs, ht, s.decimal_normal.1 hs, t.decimal_normal.1 ht]
  · exact Decimal.Normal.eq_of_value_eq s.decimal_normal t.decimal_normal h hzero

/-! ## Samples -/

inductive ErrorCode where
  | invalidSample
  | limitExceeded
  | invalidArtifact
  deriving DecidableEq

/-- `_MESSAGES`. -/
def ErrorCode.message : ErrorCode → String
  | .invalidSample => "Calibration sample input is invalid"
  | .limitExceeded => "Calibration resource bound is exceeded"
  | .invalidArtifact => "Calibration artifact is invalid"

structure CalibrationError where
  message : String
  code : ErrorCode
  deriving DecidableEq

/-- `_fail`. -/
def fail (code : ErrorCode) : CalibrationError := ⟨code.message, code⟩

structure Sample where
  score : Score
  outcome : Fin 2
  deriving DecidableEq

def maxSamples : ℕ := 100000

/-- `_canonical_score`. -/
def canonicalScore (value : PyValue) (code : ErrorCode) : Except CalibrationError Score :=
  match value with
  | .str s => if h : isScoreText s.toList = true then .ok ⟨s, h⟩ else .error (fail code)
  | _ => .error (fail code)

/-- `_actual_int`; a `bool` is not an `int` here. -/
def actualInt (value : PyValue) (code : ErrorCode) : Except CalibrationError ℤ :=
  match value with
  | .int i => .ok i
  | _ => .error (fail code)

/-- One row of `_parse_samples`. -/
def parseRow (row : PyValue) : Except CalibrationError Sample :=
  match row with
  | .seq _ [first, second] => do
      let score ← canonicalScore first .invalidSample
      let outcome ← actualInt second .invalidSample
      if outcome = 0 then return ⟨score, 0⟩
      if outcome = 1 then return ⟨score, 1⟩
      .error (fail .invalidSample)
  | _ => .error (fail .invalidSample)

/-- `_parse_samples`. -/
def parseSamples (samples : PyValue) : Except CalibrationError (List Sample) :=
  match samples with
  | .seq _ rows => do
      Except.raiseIf (maxSamples < rows.length) (fail .limitExceeded)
      rows.mapM parseRow
  | _ => .error (fail .invalidSample)

/-! ## Blocks -/

/-- A run of scores with the number of its samples and of the positive ones. -/
structure Block where
  lower : Score
  upper : Score
  count : ℕ
  positive : ℕ
  deriving DecidableEq

/-- `_should_merge`. -/
def shouldMerge (left right : Block) : Prop :=
  right.positive * left.count ≤ left.positive * right.count

instance : DecidableRel shouldMerge := fun _ _ => inferInstanceAs (Decidable (_ ≤ _))

def mergeBlocks (left right : Block) : Block :=
  ⟨left.lower, right.upper, left.count + right.count, left.positive + right.positive⟩

/-- `_pool`. -/
def pool (groups : List Block) : List Block := PoolAdjacent.pool shouldMerge mergeBlocks groups

/-- The two dictionaries of `_aggregate`. -/
def tally (samples : List Sample) : Dict Score ℕ × Dict Score ℕ :=
  samples.foldl (fun (counts, positives) s =>
    (counts.set s.score ((counts.get? s.score).getD 0 + 1),
      positives.set s.score ((positives.get? s.score).getD 0 + s.outcome))) ([], [])

/-- `sorted(counts, key=Decimal)`. -/
def sortScores (scores : List Score) : List Score :=
  scores.insertionSort (fun s t => s.value ≤ t.value)

/-- `_aggregate`: one block for every score, in the order of the scores. -/
def aggregate (samples : List Sample) : List Block :=
  (sortScores (tally samples).1.keys).map (fun score =>
    ⟨score, score, ((tally samples).1.get? score).getD 0, ((tally samples).2.get? score).getD 0⟩)

/-! ## Fitting -/

inductive FitStatus where
  | fitted
  | insufficientData
  deriving DecidableEq

structure Artifact where
  schemaVersion : String
  status : FitStatus
  n : ℕ
  positive : ℕ
  negative : ℕ
  blocks : List Block
  deriving DecidableEq

def minN : ℕ := 100

def minClass : ℕ := 20

/-- `_support`. -/
def support (n positive negative : ℕ) : Bool :=
  minN ≤ n && minClass ≤ positive && minClass ≤ negative

/-- `fit` of parsed samples. -/
def fitParsed (samples : List Sample) : Artifact :=
  let n := samples.length
  let positive := (samples.map (fun s => s.outcome.val)).sum
  let negative := n - positive
  let enough := support n positive negative
  ⟨"isotonic-v1", if enough then .fitted else .insufficientData, n, positive, negative,
    if enough then pool (aggregate samples) else []⟩

def fit (samples : PyValue) : Except CalibrationError Artifact := do
  let parsed ← parseSamples samples
  return fitParsed parsed

/-- The block `_left_step` takes the mean of. -/
def leftBlock (blocks : List Block) (q : ℚ) : Option Block :=
  blocks[Bisection.bisectRight (blocks.map (fun b => b.lower.value)) q - 1]?

/-- The exact mean of a block. -/
def Block.mean (b : Block) : ℚ := b.positive / b.count

/-- The step function of blocks. -/
def stepFunction (blocks : List Block) (q : ℚ) : ℚ := ((leftBlock blocks q).map Block.mean).getD 0

/-! ## Aggregation -/

/-- One more sample is counted under its score. -/
theorem tally_append (samples : List Sample) (s : Sample) :
    tally (samples ++ [s]) =
      ((tally samples).1.set s.score (((tally samples).1.get? s.score).getD 0 + 1),
        (tally samples).2.set s.score (((tally samples).2.get? s.score).getD 0 + s.outcome)) := by
  rw [tally, List.foldl_append]
  rfl

theorem nodup_keys_tally (samples : List Sample) : (tally samples).1.keys.Nodup := by
  induction samples using List.reverseRecOn with
  | nil => exact List.nodup_nil
  | append_singleton samples s ih =>
      rw [tally_append]
      exact Dict.nodup_keys_set ih _ _

/-- The scores that are counted are those of the samples. -/
theorem mem_keys_tally {samples : List Sample} {k : Score} :
    k ∈ (tally samples).1.keys ↔ ∃ s ∈ samples, s.score = k := by
  induction samples using List.reverseRecOn with
  | nil => simp [tally, Dict.keys]
  | append_singleton samples s ih =>
      rw [tally_append, Dict.mem_keys_set, ih]
      simp only [List.mem_append, List.mem_singleton]
      constructor
      · rintro (rfl | ⟨t, ht, rfl⟩)
        · exact ⟨s, .inr rfl, rfl⟩
        · exact ⟨t, .inl ht, rfl⟩
      · rintro ⟨t, ht | rfl, rfl⟩
        · exact .inr ⟨t, ht, rfl⟩
        · exact .inl rfl

/-- The samples with a score. -/
def samplesAt (samples : List Sample) (k : Score) : List Sample :=
  samples.filter (fun s => s.score = k)

/-- The count of a score is the number of its samples. -/
theorem count_tally (samples : List Sample) (k : Score) :
    ((tally samples).1.get? k).getD 0 = (samplesAt samples k).length := by
  induction samples using List.reverseRecOn with
  | nil => rfl
  | append_singleton samples s ih =>
      rw [tally_append, samplesAt, List.filter_append, List.length_append, ← samplesAt, ← ih]
      by_cases h : s.score = k
      · simp [h]
      · simp [h, Dict.get?_set_of_ne h]

/-- The positives of a score are the sum of its outcomes. -/
theorem positive_tally (samples : List Sample) (k : Score) :
    ((tally samples).2.get? k).getD 0
    = ((samplesAt samples k).map (fun s => s.outcome.val)).sum := by
  induction samples using List.reverseRecOn with
  | nil => rfl
  | append_singleton samples s ih =>
      rw [tally_append, samplesAt, List.filter_append, List.map_append, List.sum_append,
        ← samplesAt, ← ih]
      by_cases h : s.score = k
      · simp [h]
      · simp [h, Dict.get?_set_of_ne h]

/-- The scores of samples in order. -/
def scoresOf (samples : List Sample) : List Score := sortScores (tally samples).1.keys

/-- The scores are those of the samples. -/
theorem mem_scoresOf {samples : List Sample} {k : Score} :
    k ∈ scoresOf samples ↔ ∃ s ∈ samples, s.score = k := by
  rw [scoresOf, sortScores, (List.perm_insertionSort _ _).mem_iff, mem_keys_tally]

theorem nodup_scoresOf (samples : List Sample) : (scoresOf samples).Nodup :=
  (List.perm_insertionSort _ _).nodup_iff.mpr (nodup_keys_tally samples)

/-- The scores are sorted, and they have distinct values. -/
theorem scoresOf_sorted (samples : List Sample) :
    (scoresOf samples).Pairwise (fun s t => s.value < t.value) := by
  have hle : (scoresOf samples).Pairwise (fun s t => s.value ≤ t.value) := by
    have : Std.Total (fun s t : Score => s.value ≤ t.value) := ⟨fun s t => le_total _ _⟩
    have : IsTrans Score (fun s t => s.value ≤ t.value) := ⟨fun _ _ _ => le_trans⟩
    exact List.pairwise_insertionSort _ _
  refine (hle.and (nodup_scoresOf samples)).imp ?_
  rintro s t ⟨hst, hne⟩
  exact lt_of_le_of_ne hst fun h => hne (Score.value_inj h)

/-- The block of one score. -/
def groupAt (samples : List Sample) (k : Score) : Block :=
  ⟨k, k, (samplesAt samples k).length, ((samplesAt samples k).map (fun s => s.outcome.val)).sum⟩

/-- **Aggregation** gives one block for each score, in increasing order. -/
theorem aggregate_eq (samples : List Sample) :
    aggregate samples = (scoresOf samples).map (groupAt samples) := by
  rw [aggregate]
  exact List.map_congr_left fun k _ => by rw [count_tally, positive_tally, groupAt]

/-- **Aggregation does not see the order of the samples.** -/
theorem aggregate_perm {samples samples' : List Sample} (h : samples.Perm samples') :
    aggregate samples = aggregate samples' := by
  have hscores : scoresOf samples = scoresOf samples' := by
    refine @List.Perm.eq_of_pairwise Score (fun s t => s.value < t.value) _ _ ?_ ?_ ?_ ?_
    · intro s t _ _ hst hts
      exact absurd hst hts.asymm
    · exact scoresOf_sorted samples
    · exact scoresOf_sorted samples'
    · rw [List.perm_ext_iff_of_nodup (nodup_scoresOf _) (nodup_scoresOf _)]
      intro k
      simp only [mem_scoresOf, h.mem_iff]
  have hgroup : groupAt samples = groupAt samples' := by
    funext k
    have hat : (samplesAt samples k).Perm (samplesAt samples' k) := h.filter _
    rw [groupAt, groupAt, hat.length_eq, (hat.map _).sum_eq]
  rw [aggregate_eq, aggregate_eq, hscores, hgroup]

/-- The order of the samples does not change the fit. -/
theorem fitParsed_perm {samples samples' : List Sample} (h : samples.Perm samples') :
    fitParsed samples = fitParsed samples' := by
  rw [fitParsed, fitParsed, aggregate_perm h, h.length_eq, (h.map (fun s => s.outcome.val)).sum_eq]

/-- A row order that is accepted is accepted in every order, with the same artifact. -/
theorem fit_perm {tuple tuple' : Bool} {rows rows' : List PyValue} (hp : rows.Perm rows')
    {artifact : Artifact}
    (h : fit (.seq tuple rows) = .ok artifact) : fit (.seq tuple' rows') = .ok artifact := by
  simp only [fit, parseSamples, Except.bind_eq_ok_iff, Except.raiseIf_eq_ok_iff, Except.pure_eq_ok,
    Except.ok.injEq] at h ⊢
  obtain ⟨samples, ⟨u, hlen, hrows⟩, rfl⟩ := h
  obtain ⟨samples', hrows', hsamples⟩ := Except.mapM_perm hp hrows
  exact ⟨samples', ⟨u, hp.length_eq ▸ hlen, hrows'⟩, (fitParsed_perm hsamples).symm⟩

/-! ## Pooling -/

section Pooling

open PoolAdjacent (Heavy mean weight mass)

/-- The weight and the mass of a block. -/
def weightOf (b : Block) : ℝ := b.count

def massOf (b : Block) : ℝ := b.positive

/-- A block that stands for a run of groups. -/
structure StandsFor (run : List Block) (b : Block) : Prop where
  lower : run.head?.map Block.lower = some b.lower
  upper : run.getLast?.map Block.upper = some b.upper
  count : b.count = (run.map Block.count).sum
  positive : b.positive = (run.map Block.positive).sum
  counted : ∀ g ∈ run, 0 < g.count
  heavy : Heavy weightOf massOf run

theorem StandsFor.ne_nil {run : List Block} {b : Block} (h : StandsFor run b) : run ≠ [] := by
  rintro rfl
  exact absurd h.lower (by simp)

theorem StandsFor.weight_pos {run : List Block} {b : Block} (h : StandsFor run b) :
    ∀ g ∈ run, 0 < weightOf g :=
  fun g hg => Nat.cast_pos.mpr (h.counted g hg)

/-- A block has the weight of what it stands for. -/
theorem StandsFor.weight_eq {run : List Block} {b : Block} (h : StandsFor run b) :
    weight weightOf run = b.count := by
  rw [h.count, Nat.cast_list_sum, List.map_map]
  rfl

theorem StandsFor.count_pos {run : List Block} {b : Block} (h : StandsFor run b) : 0 < b.count := by
  have hpos := PoolAdjacent.weight_pos h.ne_nil h.weight_pos
  rw [h.weight_eq] at hpos
  exact Nat.cast_pos.mp hpos

/-- The mean of a run is the mean of its block. -/
theorem StandsFor.mean_eq {run : List Block} {b : Block} (h : StandsFor run b) :
    mean weightOf massOf run = (b.mean : ℝ) := by
  have hmass : mass massOf run = b.positive := by
    rw [h.positive, Nat.cast_list_sum, List.map_map]
    rfl
  rw [mean, h.weight_eq, hmass, Block.mean]
  push_cast
  rfl

/-- The code compares means by cross-multiplication. -/
theorem shouldMerge_iff {a b : Block} (ha : 0 < a.count) (hb : 0 < b.count) :
    shouldMerge a b ↔ b.mean ≤ a.mean := by
  have ha' : (0 : ℚ) < a.count := Nat.cast_pos.mpr ha
  have hb' : (0 : ℚ) < b.count := Nat.cast_pos.mpr hb
  rw [Block.mean, Block.mean, div_le_div_iff₀ hb' ha', shouldMerge]
  exact_mod_cast Iff.rfl

/-- A block stands for itself. -/
theorem standsFor_singleton {g : Block} (hg : 0 < g.count) : StandsFor [g] g where
  lower := rfl
  upper := rfl
  count := by simp
  positive := by simp
  counted := by simpa using hg
  heavy := PoolAdjacent.heavy_singleton (Nat.cast_pos.mpr hg)

/-- **Merged blocks** stand for the two runs together. -/
theorem StandsFor.merge {l r : List Block} {a b : Block} (hl : StandsFor l a) (hr : StandsFor r b)
    (h : shouldMerge a b) : StandsFor (l ++ r) (mergeBlocks a b) where
  lower := by
    rw [List.head?_append_of_ne_nil _ hl.ne_nil]
    exact hl.lower
  upper := by
    rw [List.getLast?_append_of_ne_nil _ hr.ne_nil]
    exact hr.upper
  count := by
    rw [List.map_append, List.sum_append, ← hl.count, ← hr.count]
    rfl
  positive := by
    rw [List.map_append, List.sum_append, ← hl.positive, ← hr.positive]
    rfl
  counted := List.forall_mem_append.mpr ⟨hl.counted, hr.counted⟩
  heavy := by
    refine hl.heavy.append hr.heavy hl.ne_nil hr.ne_nil
      (List.forall_mem_append.mpr ⟨hl.weight_pos, hr.weight_pos⟩) ?_
    rw [hl.mean_eq, hr.mean_eq]
    exact_mod_cast (shouldMerge_iff hl.count_pos hr.count_pos).mp h

/-- **The blocks of the pool** stand for runs of the groups, and their means increase. -/
theorem pool_runs {groups : List Block} (hgroups : ∀ g ∈ groups, 0 < g.count) :
    ∃ runs : List (List Block), runs.flatten = groups ∧ List.Forall₂ StandsFor runs (pool groups)
      ∧ (pool groups).Pairwise (fun a b => a.mean < b.mean) := by
  have hspec :
      (∃ runs : List (List Block), runs.flatten = groups ∧
      List.Forall₂ StandsFor runs (pool groups))
      ∧ (pool groups).IsChain (fun a b => ¬ shouldMerge a b) :=
    PoolAdjacent.pool_spec (fun g hg => standsFor_singleton (hgroups g hg))
      (fun l r a b hl hr h => StandsFor.merge hl hr h)
  obtain ⟨⟨runs, hflat, hruns⟩, hchain⟩ := hspec
  refine ⟨runs, hflat, hruns, ?_⟩
  have hcount : ∀ b ∈ pool groups, 0 < b.count := by
    intro b hb
    obtain ⟨run, -, hrun⟩ := mem_of_forall₂_left hruns hb
    exact hrun.count_pos
  have hmeans : (pool groups).IsChain (fun a b => a.mean < b.mean) := by
    refine hchain.imp_of_mem_imp ?_
    intro a b ha hb hab
    rw [shouldMerge_iff (hcount a ha) (hcount b hb), not_le] at hab
    exact hab
  have : IsTrans Block (fun a b => a.mean < b.mean) :=
    ⟨fun _ _ _ => lt_trans⟩
  exact hmeans.pairwise

end Pooling

/-! ## The step function -/

section Step

/-- The block of a query: the lower scores up to it are not above the query, the later ones are. -/
theorem leftBlock_of_split {pre post : List Block} {b : Block} {q : ℚ}
    (hpre : ∀ a ∈ pre, a.lower.value ≤ q)
    (hb : b.lower.value ≤ q) (hpost : ∀ c ∈ post, q < c.lower.value) :
    leftBlock (pre ++ b :: post) q = some b := by
  have hfound : Bisection.bisectRight ((pre ++ b :: post).map (fun b => b.lower.value)) q
      = pre.length + 1 := by
    have hsplit : (pre ++ b :: post).map (fun b => b.lower.value)
        = (pre ++ [b]).map (fun b => b.lower.value) ++ post.map (fun b => b.lower.value) := by
      simp
    rw [hsplit, Bisection.bisectRight_append]
    · simp
    · intro k hk
      obtain ⟨a, ha, rfl⟩ := List.mem_map.mp hk
      rcases List.mem_append.mp ha with ha | ha
      · exact hpre a ha
      · rw [List.mem_singleton.mp ha]
        exact hb
    · intro k hk
      obtain ⟨c, hc, rfl⟩ := List.mem_map.mp hk
      exact hpost c hc
  rw [leftBlock, hfound]
  simp

/-- A block begins where one of its groups does. -/
theorem StandsFor.exists_lower {run : List Block} {b : Block} (h : StandsFor run b) :
    ∃ g ∈ run, g.lower = b.lower := by
  obtain ⟨g, hg, hlower⟩ := Option.map_eq_some_iff.mp h.lower
  exact ⟨g, List.mem_of_mem_head? hg, hlower⟩

/-- The lower score of a block is the first of its run. -/
theorem StandsFor.lower_le {run : List Block} {b : Block} (h : StandsFor run b)
    (hsorted : run.Pairwise (fun g g' => g.lower.value < g'.lower.value)) {g : Block}
    (hg : g ∈ run) :
    b.lower.value ≤ g.lower.value := by
  obtain ⟨first, hfirst, hlower⟩ := Option.map_eq_some_iff.mp h.lower
  obtain ⟨rest, rfl⟩ : ∃ rest, run = first :: rest := by
    cases run with
    | nil => cases hfirst
    | cons x rest =>
        rw [List.head?_cons, Option.some.injEq] at hfirst
        exact ⟨rest, by rw [hfirst]⟩
  rw [← hlower]
  rcases List.mem_cons.mp hg with rfl | hg
  · exact le_rfl
  · exact ((List.pairwise_cons.mp hsorted).1 g hg).le

/-- **Every score finds the block of its run.** -/
theorem leftBlock_of_run {runs : List (List Block)} {blocks : List Block}
    (h : List.Forall₂ StandsFor runs blocks)
    (hsorted : runs.flatten.Pairwise (fun g g' => g.lower.value < g'.lower.value)) :
    ∀ pre : List Block, (∀ a ∈ pre, ∀ g ∈ runs.flatten, a.lower.value ≤ g.lower.value) →
      List.Forall₂ (fun run b => StandsFor run b ∧ ∀ g ∈ run,
        leftBlock (pre ++ blocks) g.lower.value = some b)
        runs blocks := by
  induction h with
  | nil => exact fun _ _ => .nil
  | @cons run b runs blocks hrun hruns ih =>
      intro pre hpre
      rw [List.flatten_cons, List.pairwise_append] at hsorted
      obtain ⟨hhead, htail, hcross⟩ := hsorted
      rw [List.flatten_cons] at hpre
      refine .cons ⟨hrun, fun g hg => ?_⟩ ?_
      · apply leftBlock_of_split
        · exact fun a ha => hpre a ha g (List.mem_append_left _ hg)
        · exact hrun.lower_le hhead hg
        · intro c hc
          obtain ⟨run', hrun', hc'⟩ := mem_of_forall₂_left hruns hc
          obtain ⟨g', hg', hlower⟩ := hc'.exists_lower
          rw [← hlower]
          exact hcross g hg g' (List.mem_flatten.mpr ⟨run', hrun', hg'⟩)
      · have hnext := ih htail (pre ++ [b]) ?_
        · simpa using hnext
        · intro a ha g hg
          rcases List.mem_append.mp ha with ha | ha
          · exact hpre a ha g (List.mem_append_right _ hg)
          · obtain ⟨g0, hg0, hlower⟩ := hrun.exists_lower
            rw [List.mem_singleton.mp ha, ← hlower]
            exact (hcross g0 hg0 g hg).le

/-- The lower scores of the blocks increase. -/
theorem blocks_sorted {runs : List (List Block)} {blocks : List Block}
    (h : List.Forall₂ StandsFor runs blocks)
    (hsorted : runs.flatten.Pairwise (fun g g' => g.lower.value < g'.lower.value)) :
    blocks.Pairwise (fun a b => a.lower.value < b.lower.value) := by
  induction h with
  | nil => exact .nil
  | @cons run b runs blocks hrun hruns ih =>
      rw [List.flatten_cons, List.pairwise_append] at hsorted
      refine .cons ?_ (ih hsorted.2.1)
      intro c hc
      obtain ⟨run', hrun', hc'⟩ := mem_of_forall₂_left hruns hc
      obtain ⟨g, hg, hlower⟩ := hrun.exists_lower
      obtain ⟨g', hg', hlower'⟩ := hc'.exists_lower
      rw [← hlower, ← hlower']
      exact hsorted.2.2 g hg g' (List.mem_flatten.mpr ⟨run', hrun', hg'⟩)

/-- **The step function does not decrease.** -/
theorem stepFunction_monotone {blocks : List Block}
    (hlower : blocks.Pairwise (fun a b => a.lower.value < b.lower.value))
    (hmeans : blocks.Pairwise (fun a b => a.mean < b.mean)) : Monotone (stepFunction blocks) := by
  intro q q' hq
  have hkeys : (blocks.map (fun b => b.lower.value)).Pairwise (· ≤ ·) :=
    List.pairwise_map.mpr (hlower.imp fun h => h.le)
  obtain ⟨l, r, hsplit, hfound, hl, -⟩ := Bisection.bisectRight_split hkeys q
  obtain ⟨l', r', hsplit', hfound', -, hr'⟩ := Bisection.bisectRight_split hkeys q'
  have hlen : l.length ≤ l'.length := by
    by_contra hlt
    rw [not_le] at hlt
    -- the key after the shorter part is at most `q` and above `q'`
    have hget : l[l'.length]? = r'[0]? := by
      rw [← List.getElem?_append_left hlt, ← hsplit, hsplit', List.getElem?_append_right le_rfl,
        Nat.sub_self]
    rw [List.getElem?_eq_getElem hlt] at hget
    have hle := hl _ (List.getElem_mem hlt)
    have hgt := hr' _ (List.mem_of_getElem? hget.symm)
    linarith
  have hsize : l'.length ≤ blocks.length := by
    have hcount := congrArg List.length hsplit'
    rw [List.length_map, List.length_append] at hcount
    omega
  rw [stepFunction, stepFunction, leftBlock, leftBlock, hfound, hfound']
  by_cases hempty : blocks = []
  · rw [hempty]
    rfl
  · have hpos := List.length_pos_of_ne_nil hempty
    have hi : l.length - 1 < blocks.length := by omega
    have hi' : l'.length - 1 < blocks.length := by omega
    rw [List.getElem?_eq_getElem hi, List.getElem?_eq_getElem hi']
    rcases Nat.lt_or_ge (l.length - 1) (l'.length - 1) with hlt | hge
    · exact (List.pairwise_iff_getElem.mp hmeans _ _ hi hi' hlt).le
    · have heq : l.length - 1 = l'.length - 1 := by omega
      simp only [heq]
      exact le_rfl

end Step

/-! ## Sums over samples -/

/-- A sum over samples, score by score. -/
theorem sum_fibers {M : Type*} [AddCommMonoid M] (F : Sample → M) {keys : List Score}
    (hkeys : keys.Nodup) :
    ∀ samples : List Sample, (∀ s ∈ samples, s.score ∈ keys) →
      (keys.map fun k => ((samplesAt samples k).map F).sum).sum = (samples.map F).sum
  | [], _ => by simp [samplesAt]
  | s :: samples, h => by
      rw [List.forall_mem_cons] at h
      have hsplit : ∀ k, ((samplesAt (s :: samples) k).map F).sum
          = (if s.score = k then F s else 0) + ((samplesAt samples k).map F).sum := by
        intro k
        by_cases hk : s.score = k
        · simp [samplesAt, hk]
        · simp [samplesAt, hk]
      have hone : (keys.map fun k => if s.score = k then F s else 0).sum = F s := by
        rw [← List.sum_toFinset _ hkeys, Finset.sum_ite_eq, if_pos (List.mem_toFinset.mpr h.1)]
      simp only [hsplit, List.sum_map_add, hone, sum_fibers F hkeys samples h.2]
      rw [List.map_cons, List.sum_cons]

/-- Samples outside a run do not count in it. -/
theorem samplesAt_filter {samples : List Sample} {run : List Score} {k : Score} (hk : k ∈ run) :
    samplesAt (samples.filter (fun s => s.score ∈ run)) k = samplesAt samples k := by
  rw [samplesAt, List.filter_filter, samplesAt]
  refine List.filter_congr fun s _ => ?_
  by_cases h : s.score = k
  · simp [h, hk]
  · simp [h]

/-- A sum over the groups of a run is a sum over the samples with a score of the run. -/
theorem sum_run {M : Type*} [AddCommMonoid M] (F : Sample → M) (samples : List Sample)
    {run : List Score}
    (hrun : run.Nodup) :
    (run.map fun k => ((samplesAt samples k).map F).sum).sum
      = ((samples.filter (fun s => s.score ∈ run)).map F).sum := by
  rw [← sum_fibers F hrun _ (fun s hs => by simpa using (List.mem_filter.mp hs).2)]
  exact congrArg List.sum (List.map_congr_left fun k hk => by rw [samplesAt_filter hk])

/-- The squared error of a function of the score. -/
noncomputable def squaredError (samples : List Sample) (f : ℚ → ℝ) : ℝ :=
  (samples.map fun s => (f s.score.value - s.outcome.val) ^ 2).sum

/-- The squared error of the samples is the cost of the groups, up to a constant. -/
theorem squaredError_eq (samples : List Sample) (f : ℚ → ℝ) :
    squaredError samples f
      = PoolAdjacent.cost weightOf massOf (fun g => f g.lower.value) (aggregate samples)
        + (samples.map fun s => (s.outcome.val : ℝ) ^ 2).sum := by
  have hmem : ∀ s ∈ samples, s.score ∈ scoresOf samples := fun s hs => mem_scoresOf.mpr ⟨s, hs, rfl⟩
  have hgroup : ∀ k, ((samplesAt samples k).map fun s => (f s.score.value - s.outcome.val) ^ 2).sum
      = (((samplesAt samples k).length : ℝ) * f k.value ^ 2
          - 2 * (((samplesAt samples k).map fun s => s.outcome.val).sum : ℕ) * f k.value)
        + ((samplesAt samples k).map fun s => (s.outcome.val : ℝ) ^ 2).sum := by
    intro k
    have hscore : ∀ s ∈ samplesAt samples k, s.score = k :=
      fun s hs => by simpa using (List.mem_filter.mp hs).2
    generalize samplesAt samples k = at_k at hscore
    induction at_k with
    | nil => simp
    | cons s at_k ih =>
        rw [List.forall_mem_cons] at hscore
        simp only [List.map_cons, List.sum_cons, List.length_cons, ih hscore.2, hscore.1]
        push_cast
        ring
  rw [squaredError, ← sum_fibers _ (nodup_scoresOf samples) samples hmem,
    ← sum_fibers (fun s => (s.outcome.val : ℝ) ^ 2) (nodup_scoresOf samples) samples hmem]
  simp only [hgroup, List.sum_map_add]
  rw [aggregate_eq, PoolAdjacent.cost, List.map_map]
  rfl

/-! ## The fit -/

/-- A block has the first and the last score of a run and the exact numbers of its samples. -/
structure CountsRun (samples : List Sample) (run : List Score) (b : Block) : Prop where
  lower : run.head? = some b.lower
  upper : run.getLast? = some b.upper
  count : b.count = samples.countP (fun s => s.score ∈ run)
  positive : b.positive = samples.countP (fun s => s.score ∈ run ∧ s.outcome = 1)

/-- The sum of the outcomes is the number of positives. -/
theorem sum_outcomes (samples : List Sample) :
    (samples.map fun s => s.outcome.val).sum = samples.countP (fun s => s.outcome = 1) := by
  induction samples with
  | nil => rfl
  | cons s samples ih =>
      rw [List.map_cons, List.sum_cons, ih, List.countP_cons]
      rcases Fin.exists_fin_two.mp ⟨s.outcome, rfl⟩ with h | h
      · simp [h]
      · simp [h, Nat.add_comm]

/-- A block that stands for groups of samples counts their scores. -/
theorem StandsFor.countsRun {samples : List Sample} {run : List Block} {b : Block}
    (h : StandsFor run b)
    (hrun : ∀ g ∈ run, g = groupAt samples g.lower) (hnodup : (run.map Block.lower).Nodup) :
    CountsRun samples (run.map Block.lower) b where
  lower := by
    rw [List.head?_map]
    exact h.lower
  upper := by
    rw [List.getLast?_map, ← h.upper]
    cases hlast : run.getLast? with
    | none => rfl
    | some g =>
        have hg := hrun g (List.mem_of_getLast? hlast)
        rw [Option.map_some, Option.map_some, hg]
        rfl
  count := by
    have hcounts : run.map Block.count
        = (run.map Block.lower).map fun k => ((samplesAt samples k).map fun _ => 1).sum := by
      rw [List.map_map]
      refine List.map_congr_left fun g hg => ?_
      rw [hrun g hg]
      simp [groupAt]
    rw [h.count, hcounts, sum_run _ samples hnodup, List.countP_eq_length_filter]
    simp
  positive := by
    have hpositives : run.map Block.positive
        = (run.map Block.lower).map fun k =>
          ((samplesAt samples k).map fun s => s.outcome.val).sum := by
      rw [List.map_map]
      refine List.map_congr_left fun g hg => ?_
      rw [hrun g hg]
      rfl
    rw [h.positive, hpositives, sum_run _ samples hnodup, sum_outcomes, List.countP_filter]
    simp only [Bool.decide_and, Bool.and_comm]

/-- What the blocks of sufficient samples are. -/
structure IsotonicFit (samples : List Sample) (blocks : List Block) : Prop where
  partition : ∃ runs : List (List Score), runs.flatten.Pairwise (fun s t => s.value < t.value)
    ∧ (∀ k, k ∈ runs.flatten ↔ ∃ s ∈ samples, s.score = k)
      ∧ List.Forall₂ (CountsRun samples) runs blocks
  means : blocks.Pairwise (fun a b => a.mean < b.mean)
  monotone : Monotone (stepFunction blocks)
  minimal : ∀ f : ℚ → ℝ, MonotoneOn f {q | ∃ s ∈ samples, s.score.value = q} →
    squaredError samples (fun q => stepFunction blocks q) ≤ squaredError samples f
  unique : ∀ f : ℚ → ℝ, MonotoneOn f {q | ∃ s ∈ samples, s.score.value = q} →
    squaredError samples f ≤ squaredError samples (fun q => stepFunction blocks q) →
    ∀ s ∈ samples, f s.score.value = stepFunction blocks s.score.value

/-- A group is that of the samples of its score. -/
theorem mem_aggregate {samples : List Sample} {g : Block} (hg : g ∈ aggregate samples) :
    g = groupAt samples g.lower ∧ ∃ s ∈ samples, s.score = g.lower := by
  rw [aggregate_eq] at hg
  obtain ⟨k, hk, rfl⟩ := List.mem_map.mp hg
  exact ⟨rfl, mem_scoresOf.mp hk⟩

theorem count_pos_of_mem_aggregate {samples : List Sample} {g : Block}
    (hg : g ∈ aggregate samples) :
    0 < g.count := by
  obtain ⟨hgroup, s, hs, hscore⟩ := mem_aggregate hg
  rw [hgroup]
  exact List.length_pos_of_mem (List.mem_filter.mpr ⟨hs, by simpa using hscore⟩)

theorem lower_aggregate (samples : List Sample) :
    (aggregate samples).map Block.lower = scoresOf samples := by
  rw [aggregate_eq, List.map_map]
  exact List.map_id' _

/-- Groups are in increasing order of their scores. -/
theorem aggregate_sorted (samples : List Sample) :
    (aggregate samples).Pairwise (fun g g' => g.lower.value < g'.lower.value) := by
  have h := scoresOf_sorted samples
  rw [← lower_aggregate, List.pairwise_map] at h
  exact h

section Runs

variable {samples : List Sample} {runs : List (List Block)} {blocks : List Block}
  (hflat : runs.flatten = aggregate samples) (hruns : List.Forall₂ StandsFor runs blocks)

include hflat hruns

/-- The runs of scores behind the blocks. -/
theorem partition_of_runs :
    ∃ runs : List (List Score), runs.flatten.Pairwise (fun s t => s.value < t.value)
    ∧ (∀ k, k ∈ runs.flatten ↔ ∃ s ∈ samples, s.score = k)
    ∧ List.Forall₂ (CountsRun samples) runs blocks := by
  have hscores : (runs.map (fun run => run.map Block.lower)).flatten = scoresOf samples := by
    rw [← List.map_flatten, hflat, lower_aggregate]
  refine ⟨runs.map (fun run => run.map Block.lower), ?_, ?_, ?_⟩
  · rw [hscores]
    exact scoresOf_sorted samples
  · intro k
    rw [hscores, mem_scoresOf]
  · rw [List.forall₂_map_left_iff]
    have hboth : List.Forall₂ (fun run b => run ∈ runs ∧ StandsFor run b) runs blocks :=
      (List.forall₂_and_left _ _).mpr ⟨fun run hrun => hrun, hruns⟩
    refine hboth.imp ?_
    rintro run b ⟨hrun, hstands⟩
    refine hstands.countsRun (fun g hg => ?_) ?_
    · exact (mem_aggregate (hflat ▸ List.mem_flatten.mpr ⟨run, hrun, hg⟩)).1
    · have hnodup := nodup_scoresOf samples
      rw [← hscores, List.nodup_flatten] at hnodup
      exact hnodup.1 _ (List.mem_map_of_mem hrun)

/-- On the scores of a run the step function is the mean of the run. -/
theorem step_eq_mean : ∀ run ∈ runs, run ≠ [] ∧ PoolAdjacent.Heavy weightOf massOf run ∧
    ∀ g ∈ run, 0 < weightOf g
      ∧ ((stepFunction blocks g.lower.value : ℚ) : ℝ) = PoolAdjacent.mean weightOf massOf run := by
  intro run hrun
  obtain ⟨b, -, hstands, hleft⟩ :=
    mem_of_forall₂_right (leftBlock_of_run hruns (hflat ▸ aggregate_sorted samples) [] (by simp))
      hrun
  refine ⟨hstands.ne_nil, hstands.heavy, fun g hg => ⟨hstands.weight_pos g hg, ?_⟩⟩
  have hg' : leftBlock blocks g.lower.value = some b := hleft g hg
  rw [stepFunction, hg', hstands.mean_eq]
  rfl

/-- A function that does not decrease has the error of the step function and its distance from it.
-/
theorem squaredError_step_le {f : ℚ → ℝ}
    (hf : MonotoneOn f {q | ∃ s ∈ samples, s.score.value = q}) :
    squaredError samples (fun q => stepFunction blocks q)
      + PoolAdjacent.distance weightOf (fun g => f g.lower.value)
        (fun g => stepFunction blocks g.lower.value) (aggregate samples)
      ≤ squaredError samples f := by
  have hfmono : runs.flatten.Pairwise (fun g g' => f g.lower.value ≤ f g'.lower.value) := by
    rw [hflat]
    refine (aggregate_sorted samples).imp_of_mem ?_
    intro g g' hg hg' hlt
    obtain ⟨-, s, hs, hscore⟩ := mem_aggregate hg
    obtain ⟨-, s', hs', hscore'⟩ := mem_aggregate hg'
    exact hf ⟨s, hs, by rw [hscore]⟩ ⟨s', hs', by rw [hscore']⟩ hlt.le
  have hle := PoolAdjacent.cost_means_add_le (step_eq_mean hflat hruns) hfmono
  rw [hflat] at hle
  rw [squaredError_eq, squaredError_eq]
  linarith

/-- **Blocks that stand for runs** with increasing means are the isotonic fit. -/
theorem isotonicFit_of_runs (hmeans : blocks.Pairwise (fun a b => a.mean < b.mean)) :
    IsotonicFit samples blocks := by
  have hweight : ∀ g ∈ aggregate samples, 0 < weightOf g :=
    fun g hg => Nat.cast_pos.mpr (count_pos_of_mem_aggregate hg)
  refine ⟨partition_of_runs hflat hruns, hmeans,
    stepFunction_monotone (blocks_sorted hruns (hflat ▸ aggregate_sorted samples)) hmeans, ?_, ?_⟩
  · intro f hf
    have hcost := squaredError_step_le hflat hruns hf
    have hdistance : 0 ≤ PoolAdjacent.distance weightOf (fun g => f g.lower.value)
        (fun g => (stepFunction blocks g.lower.value : ℝ)) (aggregate samples) :=
      PoolAdjacent.distance_nonneg hweight
    linarith
  · intro f hf hle s hs
    have hcost := squaredError_step_le hflat hruns hf
    have hgroup : groupAt samples s.score ∈ aggregate samples := by
      rw [aggregate_eq]
      exact List.mem_map_of_mem (mem_scoresOf.mpr ⟨s, hs, rfl⟩)
    exact PoolAdjacent.eq_of_distance_le_zero hweight (by linarith) (groupAt samples s.score) hgroup

end Runs

/-- **Pooling computes the isotonic regression.** -/
theorem isotonicFit_pool (samples : List Sample) :
    IsotonicFit samples (pool (aggregate samples)) := by
  obtain ⟨runs, hflat, hruns, hmeans⟩ := pool_runs fun g hg => count_pos_of_mem_aggregate hg
  exact isotonicFit_of_runs hflat hruns hmeans

/-- **A fit of sufficient samples is the isotonic regression**, whatever their order. -/
theorem fit_isotonic {tuple : Bool} {rows : List PyValue} {artifact : Artifact}
    (h : fit (.seq tuple rows) = .ok artifact) (hstatus : artifact.status = .fitted) :
    (∃ samples, rows.mapM parseRow = .ok samples ∧ IsotonicFit samples artifact.blocks)
      ∧ ∀ tuple' rows', rows.Perm rows' → fit (.seq tuple' rows') = .ok artifact := by
  refine ⟨?_, fun tuple' rows' hp => fit_perm hp h⟩
  simp only [fit, parseSamples, Except.bind_eq_ok_iff, Except.raiseIf_eq_ok_iff, Except.pure_eq_ok,
    Except.ok.injEq] at h
  obtain ⟨samples, ⟨-, -, hrows⟩, rfl⟩ := h
  refine ⟨samples, hrows, ?_⟩
  simp only [fitParsed] at hstatus ⊢
  split_ifs at hstatus ⊢ with henough
  exact isotonicFit_pool samples

/-- Fifty positive samples below fifty negative ones. -/
def decreasingRows : List PyValue :=
  List.replicate 50 (.tuple [.str "0.1", .int 1]) ++ List.replicate 50 (.tuple [.str "0.9", .int 0])

theorem fit_isotonic_decreasingRows :
    ∃ artifact, fit (.list decreasingRows) = .ok artifact
      ∧ artifact.blocks = [⟨⟨"0.1", by decide⟩, ⟨"0.9", by decide⟩, 100, 50⟩]
      ∧ ∃ samples, decreasingRows.mapM parseRow = .ok samples
      ∧ IsotonicFit samples artifact.blocks := by
  have hfit : ∃ artifact, fit (.list decreasingRows) = .ok artifact ∧ artifact.status = .fitted
      ∧ artifact.blocks = [⟨⟨"0.1", by decide⟩, ⟨"0.9", by decide⟩, 100, 50⟩] :=
    ⟨_, rfl, by decide +kernel, by decide +kernel⟩
  obtain ⟨artifact, h, hstatus, hblocks⟩ := hfit
  exact ⟨artifact, h, hblocks, (fit_isotonic h hstatus).1⟩

end Isotonic
