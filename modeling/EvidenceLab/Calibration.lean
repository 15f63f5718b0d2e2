/-
# Calibrated prediction

The model of the second half of `isotonic.py`: ratios with twelve places, the check of an artifact
that comes back from storage, `predict` and `evaluate`.

* `ratio12_nearest`: a ratio between 0 and 1 with a small denominator is rounded correctly, although
  it is rounded twice.
* `checked_of_validateArtifact`: the order facts that the check implies; `validateArtifact_fit`: the
  artifact of a fit passes it.
* **`predict_total_monotone`**: what `predict` returns for every artifact that the check accepts.
-/
import EvidenceLab.HalfEven
import EvidenceLab.Isotonic

namespace Isotonic

open CalcEngine (PyValue DictKey)
open Decimal (NearestEven)

/-! ## Ratios with twelve places -/

/-- `_isolated`.  No signal is trapped. -/
def isolated : Decimal.Context := ⟨50, .halfEven, -999999, 999999, by decide⟩

/-- `_QUANT`. -/
def quant : Decimal := ⟨false, 1, -12⟩

/-- `_ratio12`; `none` stands for a result that is not a finite number. -/
def ratio12 (numerator : ℤ) (denominator : ℕ) : Option Decimal := do
  let value ← (isolated.divide ⟨decide (numerator < 0), numerator.natAbs,
    0⟩ (Decimal.ofNat denominator)).toOption
  (isolated.quantize value quant).toOption

/-- `_fraction12`. -/
def fraction12 (value : ℚ) : Option Decimal := ratio12 value.num value.den

/-! ## Artifacts -/

/-- A member of a dictionary that has the key. -/
def field (items : Dict DictKey PyValue) (key : String) : PyValue :=
  (items.get? (.str key)).getD .none

/-- `set(items) == keys`. -/
def keysAre (items : Dict DictKey PyValue) (keys : List String) : Bool :=
  items.keys.all (fun k => k ∈ keys.map DictKey.str)
    && keys.all (fun k => DictKey.str k ∈ items.keys)

def maxDepth : ℕ := 16

mutual

/-- `_check_depth`. -/
def checkDepth : PyValue → ℕ → Except CalibrationError Unit
  | .dict items, depth => do
      Except.raiseIf (maxDepth < depth) (fail .limitExceeded)
      checkDepthMembers items (depth + 1)
  | .seq false items, depth => do
      Except.raiseIf (maxDepth < depth) (fail .limitExceeded)
      checkDepthItems items (depth + 1)
  | _, _ => .ok ()

def checkDepthMembers : List (DictKey × PyValue) → ℕ → Except CalibrationError Unit
  | [], _ => .ok ()
  | (_, inner) :: items, depth => do
      checkDepth inner depth
      checkDepthMembers items depth

def checkDepthItems : List PyValue → ℕ → Except CalibrationError Unit
  | [], _ => .ok ()
  | inner :: items, depth => do
      checkDepth inner depth
      checkDepthItems items depth

end

/-- `_bounded_count`. -/
def boundedCount (value : PyValue) (code : ErrorCode) : Except CalibrationError ℕ := do
  let number ← actualInt value code
  Except.raiseIf (number < 0 ∨ (maxSamples : ℤ) < number) (fail code)
  return number.toNat

/-- `_BLOCK_KEYS`. -/
def blockKeys : List String := ["lower_score", "upper_score", "count", "positive"]

/-- `_ARTIFACT_KEYS`. -/
def artifactKeys : List String :=
  ["schema_version", "status", "n", "positive", "negative", "blocks"]

/-- `_block_tuple`. -/
def blockTuple (value : PyValue) : Except CalibrationError Block :=
  match value with
  | .dict items => do
      Except.raiseIf (keysAre items blockKeys = false) (fail .invalidArtifact)
      let lower ← canonicalScore (field items "lower_score") .invalidArtifact
      let upper ← canonicalScore (field items "upper_score") .invalidArtifact
      Except.raiseIf (upper.value < lower.value) (fail .invalidArtifact)
      let count ← boundedCount (field items "count") .invalidArtifact
      let positive ← boundedCount (field items "positive") .invalidArtifact
      Except.raiseIf (count < 1 ∨ count < positive) (fail .invalidArtifact)
      return ⟨lower, upper, count, positive⟩
  | _ => .error (fail .invalidArtifact)

def FitStatus.text : FitStatus → String
  | .fitted => "fitted"
  | .insufficientData => "insufficient_data"

def fitSchema : String := "isotonic-v1"

/-- The test of `schema_version`. -/
def checkSchema (value : PyValue) : Except CalibrationError Unit :=
  match value with
  | .str s => Except.raiseIf (s ≠ fitSchema) (fail .invalidArtifact)
  | _ => .error (fail .invalidArtifact)

/-- The test of `status`. -/
def checkStatus (value : PyValue) : Except CalibrationError FitStatus :=
  match value with
  | .str s =>
      if s = FitStatus.fitted.text then .ok .fitted
      else if s = FitStatus.insufficientData.text then .ok .insufficientData
      else .error (fail .invalidArtifact)
  | _ => .error (fail .invalidArtifact)

/-- The blocks of `blocks`, which must be a list. -/
def rawBlocks (value : PyValue) : Except CalibrationError (List Block) :=
  match value with
  | .seq false items => items.mapM blockTuple
  | _ => .error (fail .invalidArtifact)

/-- The loop over the blocks of a fitted artifact: scores and means increase from one block to the
next. -/
def checkBlocks : Option Block → List Block → Except CalibrationError Unit
  | _, [] => .ok ()
  | none, block :: blocks => checkBlocks (some block) blocks
  | some previous, block :: blocks => do
      Except.raiseIf (block.lower.value ≤ previous.upper.value ∨ shouldMerge previous block)
        (fail .invalidArtifact)
      checkBlocks (some block) blocks

/-- The tests of `_validate_artifact` that depend on the status. -/
def checkSupport (status : FitStatus) (n positive negative : ℕ) (blocks : List Block) :
    Except CalibrationError Unit :=
  match status with
  | .insufficientData => Except.raiseIf (blocks ≠ [] ∨ support n positive negative = true)
      (fail .invalidArtifact)
  | .fitted => do
      Except.raiseIf (blocks = [] ∨ support n positive negative = false ∨
        (blocks.map Block.count).sum ≠ n
        ∨ (blocks.map Block.positive).sum ≠ positive) (fail .invalidArtifact)
      checkBlocks none blocks

/-- `_validate_artifact`. -/
def validateArtifact (artifact : PyValue) : Except CalibrationError (FitStatus × List Block) := do
  checkDepth artifact 1
  match artifact with
  | .dict items =>
      Except.raiseIf (keysAre items artifactKeys = false) (fail .invalidArtifact)
      checkSchema (field items "schema_version")
      let status ← checkStatus (field items "status")
      let n ← boundedCount (field items "n") .invalidArtifact
      let positive ← boundedCount (field items "positive") .invalidArtifact
      let negative ← boundedCount (field items "negative") .invalidArtifact
      Except.raiseIf (positive + negative ≠ n) (fail .invalidArtifact)
      let blocks ← rawBlocks (field items "blocks")
      checkSupport status n positive negative blocks
      return (status, blocks)
  | _ => .error (fail .invalidArtifact)

/-- One entry of `_public_blocks`. -/
def Block.public (b : Block) : PyValue :=
  .dict [(.str "lower_score", .str b.lower.text), (.str "upper_score", .str b.upper.text),
    (.str "count", .int b.count), (.str "positive", .int b.positive)]

/-- The dictionary `fit` returns. -/
def Artifact.public (a : Artifact) : PyValue :=
  .dict [(.str "schema_version", .str a.schemaVersion), (.str "status", .str a.status.text),
    (.str "n", .int a.n),
    (.str "positive", .int a.positive), (.str "negative", .int a.negative),
    (.str "blocks", .list (a.blocks.map Block.public))]

/-! ## Prediction -/

/-- `_mean`. -/
def mean (block : Block) : Option Decimal := ratio12 block.positive block.count

/-- `_left_step`. -/
def leftStep (blocks : List Block) (score : Score) : Except CalibrationError (Option Decimal) :=
  match leftBlock blocks score.value with
  | none => .error (fail .invalidArtifact)
  | some block => .ok (mean block)

def predict (artifact score : PyValue) : Except CalibrationError (Option Decimal) := do
  let (status, blocks) ← validateArtifact artifact
  let canonical ← canonicalScore score .invalidSample
  match status with
  | .insufficientData => return some (Decimal.ofNat 0)
  | .fitted => leftStep blocks canonical

/-! ## Evaluation -/

inductive EvalStatus where
  | evaluated
  | insufficientCalibration
  | insufficientEvaluation
  deriving DecidableEq

structure Bin where
  index : ℕ
  count : ℕ
  meanProbability : Option String
  positiveRate : Option String
  deriving DecidableEq

structure Evaluation where
  schemaVersion : String
  status : EvalStatus
  n : ℕ
  positive : ℕ
  negative : ℕ
  sufficient : Bool
  brier : Option String
  ece : Option String
  bins : List Bin
  deriving DecidableEq

/-- What an evaluation can raise: `Fraction` takes finite numbers only. -/
inductive Raised where
  | calibration (e : CalibrationError)
  | notFinite
  deriving DecidableEq

/-- `_emit12`. -/
def emit12 : Option Decimal → String
  | some a => String.ofList a.fixedText
  | none => "NaN"

/-- `Fraction(probability)`. -/
def fraction : Option Decimal → Except Raised ℚ
  | some a => .ok a.value
  | none => .error .notFinite

/-- `_bin_index`. -/
def binIndex (probability : ℚ) : ℕ :=
  let scaled := probability * 10
  (min 9 (scaled.num / scaled.den)).toNat

/-- The sums of `_evaluation`. -/
structure Sums where
  brier : ℚ
  counts : List ℕ
  probabilities : List ℚ
  positives : List ℕ

def Sums.start : Sums := ⟨0, List.replicate 10 0, List.replicate 10 0, List.replicate 10 0⟩

/-- One turn of the loop over the samples. -/
def Sums.add (t : Sums) (turn : ℚ × Sample) : Sums :=
  let (prob, s) := turn
  let index := binIndex prob
  ⟨t.brier + (prob - s.outcome.val) ^ 2, t.counts.modify index (· + 1),
    t.probabilities.modify index (· + prob), t.positives.modify index (· + s.outcome.val)⟩

/-- The bin of an index and its share of the calibration error. -/
def Sums.bin (t : Sums) (index : ℕ) : Bin × ℚ :=
  let count := t.counts.getD index 0
  if count = 0 then (⟨index, 0, none, none⟩, 0)
  else
    let meanProbability := t.probabilities.getD index 0 / count
    let positiveRate : ℚ := t.positives.getD index 0 / count
    (⟨index, count, some (emit12 (fraction12 meanProbability)),
      some (emit12 (fraction12 positiveRate))⟩,
      count * |meanProbability - positiveRate|)

def evalSchema : String := "isotonic-evaluation/v1"

/-- `_evaluation`. -/
def evaluation (status : FitStatus) (blocks : List Block) (samples : List Sample) :
    Except Raised Evaluation :=
  let n := samples.length
  let positive := (samples.map (fun s => s.outcome.val)).sum
  let negative := n - positive
  let evalStatus : EvalStatus := match status with
    | .insufficientData => .insufficientCalibration
    | .fitted => if support n positive negative then .evaluated else .insufficientEvaluation
  if evalStatus ≠ .evaluated then
    .ok ⟨evalSchema, evalStatus, n, positive, negative, false, none, none, []⟩
  else do
    let predictions ← (samples.mapM (fun s => leftStep blocks s.score)).mapError Raised.calibration
    let probabilities ← predictions.mapM fraction
    let sums := (probabilities.zip samples).foldl Sums.add Sums.start
    let bins := (List.range 10).map sums.bin
    let eceSum := (bins.map Prod.snd).sum
    return ⟨evalSchema, .evaluated, n, positive, negative, true,
      some (emit12 (fraction12 (sums.brier / n))),
      some (emit12 (fraction12 (eceSum / n))), bins.map Prod.fst⟩

def evaluate (artifact samples : PyValue) : Except Raised Evaluation := do
  let (status, blocks) ← (validateArtifact artifact).mapError Raised.calibration
  let parsed ← (parseSamples samples).mapError Raised.calibration
  evaluation status blocks parsed

/-! ## Rounding twice -/

/-- A number between 0 and 1 stays there. -/
theorem nearestEven_unit {k : ℕ} {v r : ℚ} (h : NearestEven ((10 : ℚ) ^ (-(k : ℤ))) v r)
    (h0 : 0 ≤ v) (h1 : v ≤ 1) :
    0 ≤ r ∧ r ≤ 1 := by
  have hq : (0 : ℚ) < (10 : ℚ) ^ (-(k : ℤ)) := by positivity
  have hzero : NearestEven ((10 : ℚ) ^ (-(k : ℤ))) 0 0 := by
    have h := Decimal.nearestEven_multiple hq 0
    rwa [Int.cast_zero, zero_mul] at h
  have hone : NearestEven ((10 : ℚ) ^ (-(k : ℤ))) 1 1 := by
    have h := Decimal.nearestEven_multiple hq (10 ^ k)
    have hk : (((10 ^ k : ℤ) : ℚ)) * (10 : ℚ) ^ (-(k : ℤ)) = 1 := by
      push_cast
      rw [zpow_neg, zpow_natCast, mul_inv_cancel₀ (by positivity)]
    rwa [hk] at h
  exact ⟨hzero.mono hq h h0, h.mono hq hone h1⟩

/-- The last place kept of a positive number up to 1. -/
theorem lastPlace_isolated {v : ℚ} (h0 : 0 < v) (h1 : v ≤ 1) :
    ∃ k : ℕ, isolated.lastPlace v = -(k : ℤ) ∧ 49 ≤ k := by
  have hlog : Int.log 10 |v| ≤ 0 := by
    rw [abs_of_pos h0]
    have hmono := Int.log_mono_right (b := 10) h0 h1
    rwa [Int.log_one_right] at hmono
  have hplace : isolated.lastPlace v ≤ -49 := by
    rw [Decimal.Context.lastPlace]
    apply max_le
    · show Int.log 10 |v| - (50 - 1) ≤ -49
      omega
    · decide
  exact ⟨(-isolated.lastPlace v).toNat, by omega, by omega⟩

/-- Dividing with fifty digits: the nearest multiple of a place that is fine enough. -/
theorem divide_nearest {v : ℚ} (h0 : 0 ≤ v) (h1 : v ≤ 1) {a b : Decimal} (hb : b.value ≠ 0)
    (hv : a.value / b.value = v) :
    ∃ w, isolated.divide a b = .ok w ∧ ∃ k : ℕ, 49 ≤ k ∧
    NearestEven ((10 : ℚ) ^ (-(k : ℤ))) v w.value := by
  have hvalue := isolated.divide_value a b
  rw [if_neg hb, hv] at hvalue
  -- the quotient is within the range of the context
  have hround : ∃ x, isolated.roundValue v = some x ∧ ∃ k : ℕ, 49 ≤ k ∧
      NearestEven ((10 : ℚ) ^ (-(k : ℤ))) v x := by
    rcases h0.eq_or_lt with rfl | hpos
    · refine ⟨0, by simp [Decimal.Context.roundValue], 49, le_rfl, ?_⟩
      have h :=
        Decimal.nearestEven_multiple (by positivity : (0 : ℚ) < (10 : ℚ) ^ (-((49 : ℕ) : ℤ))) 0
      rwa [Int.cast_zero, zero_mul] at h
    · obtain ⟨k, hk, hk49⟩ := lastPlace_isolated hpos h1
      have hnear : NearestEven ((10 : ℚ) ^ (-(k : ℤ))) v (isolated.roundMagnitude v) := by
        rw [Decimal.Context.roundMagnitude, hk, abs_of_pos hpos]
        exact Decimal.roundRat_nearestEven _ (by positivity) h0
      have hsmall : isolated.roundMagnitude v < (10 : ℚ) ^ (isolated.emax + 1) := by
        refine (nearestEven_unit hnear h0 h1).2.trans_lt ?_
        exact one_lt_zpow₀ (by norm_num) (by decide)
      refine ⟨isolated.roundMagnitude v, ?_, k, hk49, hnear⟩
      rw [Decimal.Context.roundValue, if_neg hpos.ne', if_neg (not_le.mpr hsmall),
        if_neg (not_lt.mpr h0)]
  obtain ⟨x, hx, k, hk, hnear⟩ := hround
  rw [hx] at hvalue
  obtain ⟨w, hw, rfl⟩ := Option.map_eq_some_iff.mp hvalue
  cases hdiv : isolated.divide a b with
  | error e =>
      rw [hdiv] at hw
      cases hw
  | ok w' =>
      rw [hdiv] at hw
      cases hw
      exact ⟨w, rfl, k, hk, hnear⟩

/-- Quantizing a number between 0 and 1 always fits. -/
theorem quantize_unit {a : Decimal} (h0 : 0 ≤ a.value) (h1 : a.value ≤ 1) :
    ∃ r, isolated.quantize a quant = .ok r ∧ r.exp = -12
      ∧ NearestEven ((10 : ℚ) ^ (-12 : ℤ)) a.value r.value := by
  have hvalue := isolated.quantize_value a quant
  have hnear :=
    Decimal.roundRat_nearestEven (decide (a.value < 0)) (by positivity : (0 : ℚ)
      < (10 : ℚ) ^ (-12 : ℤ)) h0
  have hle := (nearestEven_unit hnear h0 h1).2
  have hcoeff : Decimal.roundRat .halfEven (decide (a.value < 0)) (a.value / (10 : ℚ) ^ (-12 : ℤ))
      ≤ 10 ^ 12 := by
    have hscale :
        (Decimal.roundRat .halfEven (decide (a.value < 0)) (a.value / (10 : ℚ) ^ (-12 : ℤ)) : ℚ)
        ≤ (10 : ℚ) ^ 12 := by
      rw [zpow_neg, ← div_eq_mul_inv, div_le_one (by positivity)] at hle
      exact_mod_cast hle
    exact_mod_cast hscale
  have hdigits : Decimal.numDigits
      (Decimal.roundRat .halfEven (decide (a.value < 0)) (a.value / (10 : ℚ) ^ (-12 : ℤ)))
      ≤ 13 := by
    rw [Decimal.numDigits_le_iff (by norm_num)]
    exact hcoeff.trans_lt (by norm_num)
  have hfits : isolated.quantizeValue a.value quant.exp ≠ none := by
    rw [Decimal.Context.quantizeValue, abs_of_nonneg h0]
    show (if _ then _ else _) ≠ none
    rw [if_neg (by decide), if_neg]
    · exact Option.some_ne_none _
    · have hdigits' : Decimal.numDigits (Decimal.roundRat isolated.rounding (decide (a.value < 0))
          (a.value / (10 : ℚ) ^ quant.exp)) ≤ 13 := hdigits
      have hprec : isolated.prec = 50 := rfl
      have hemax : isolated.emax = 999999 := rfl
      have hexp : quant.exp = -12 := rfl
      omega
  cases hq : isolated.quantize a quant with
  | error e =>
      rw [hq] at hvalue
      exact absurd hvalue.symm hfits
  | ok r =>
      refine ⟨r, rfl, ?_, Decimal.quantize_nearestEven rfl hq⟩
      unfold Decimal.Context.quantize at hq
      simp only at hq
      split_ifs at hq
      rw [← Except.ok.inj hq]
      rfl

/-- **A ratio is rounded correctly** when it has a denominator below `10 ^ 37`: a number that is not
a tie at twelve places is further from every tie than the first rounding reaches. -/
theorem ratio12_nearest {v : ℚ} (h0 : 0 ≤ v) (h1 : v ≤ 1) {D : ℕ} (hD : 0 < D)
    (hsmall : D < 10 ^ 37) {z : ℤ}
    (hz : v = z / D) {numerator : ℤ} {denominator : ℕ} (hden : denominator ≠ 0)
    (hv : (numerator : ℚ) / denominator = v) :
    ∃ r, ratio12 numerator denominator = some r ∧ r.exp = -12
      ∧ NearestEven ((10 : ℚ) ^ (-12 : ℤ)) v r.value := by
  -- the operands are integers
  have ha : (⟨decide (numerator < 0), numerator.natAbs, 0⟩ : Decimal).value = numerator := by
    rw [Decimal.value_eq_signed, zpow_zero, mul_one, Decimal.signed]
    congr 1
    by_cases hneg : numerator < 0
    · rw [decide_eq_true hneg, if_pos rfl]
      show -(numerator.natAbs : ℤ) = numerator
      omega
    · rw [decide_eq_false hneg, if_neg Bool.false_ne_true]
      show (numerator.natAbs : ℤ) = numerator
      omega
  have hb : (Decimal.ofNat denominator).value = denominator := Decimal.value_ofNat denominator
  have hb0 : (Decimal.ofNat denominator).value ≠ 0 := by
    rw [hb]
    exact_mod_cast hden
  -- the division rounds at a fine step, the quantization at twelve places
  obtain ⟨w, hw, k, hk, hfirst⟩ := divide_nearest h0 h1 hb0 (by rw [ha, hb, hv])
  obtain ⟨hw0, hw1⟩ := nearestEven_unit hfirst h0 h1
  obtain ⟨r, hr, hexp, hsecond⟩ := quantize_unit hw0 hw1
  refine ⟨r, by simp [ratio12, hw, hr, Except.toOption], hexp, ?_⟩
  refine hfirst.trans (by positivity) ?_ ?_ hsecond
  · -- half of a step at twelve places is a multiple of the finer step
    refine ⟨5 * 10 ^ (k - 13), ?_⟩
    have hsplit : (10 : ℚ) ^ k = 10 ^ (k - 13) * 10 ^ 13 := by
      rw [← pow_add]
      congr 1
      omega
    push_cast
    rw [zpow_neg, zpow_neg, zpow_natCast, hsplit]
    have hpos : (10 : ℚ) ^ (k - 13) ≠ 0 := by positivity
    field_simp
    norm_num
  · -- a quotient of these integers is not so close to a tie without being one
    intro j hj
    have htie : (2 * j + 1 : ℚ) * ((10 : ℚ) ^ (-12 : ℤ) / 2)
        = ((2 * j + 1 : ℤ) : ℚ) / ((2 * 10 ^ 12 : ℕ) : ℚ) := by
      push_cast
      rw [zpow_neg]
      norm_num
      ring
    rw [htie, hz] at hj ⊢
    refine Decimal.eq_of_near hD (by norm_num) (hj.trans_lt ?_)
    have hD' : (D : ℚ) < 10 ^ 37 := by exact_mod_cast hsmall
    have hDpos : (0 : ℚ) < D := by exact_mod_cast hD
    have hp : (10 : ℚ) ^ (-(k : ℤ)) ≤ (10 : ℚ) ^ (-49 : ℤ) :=
      zpow_le_zpow_right₀ (by norm_num) (by omega)
    calc (10 : ℚ) ^ (-(k : ℤ)) / 2 ≤ (10 : ℚ) ^ (-49 : ℤ) / 2 := by gcongr
      _ = 1 / (10 ^ 37 * ((2 * 10 ^ 12 : ℕ) : ℚ)) := by norm_num
      _ < 1 / (D * ((2 * 10 ^ 12 : ℕ) : ℚ)) := by
          apply one_div_lt_one_div_of_lt (by positivity)
          gcongr

/-! ## What the check accepts -/

/-- A block that `_block_tuple` returns. -/
structure Block.Valid (b : Block) : Prop where
  scores : b.lower.value ≤ b.upper.value
  count_pos : 0 < b.count
  count_le : b.count ≤ maxSamples
  positive_le : b.positive ≤ b.count

/-- One block stands before another: its scores and its mean are smaller. -/
structure Block.Before (a b : Block) : Prop where
  scores : a.upper.value < b.lower.value
  means : ¬ shouldMerge a b

/-- The status and the blocks that `_validate_artifact` returns. -/
inductive Checked : FitStatus → List Block → Prop where
  | insufficient : Checked .insufficientData []
  | fitted {blocks : List Block} (hne : blocks ≠ []) (hvalid : ∀ b ∈ blocks, b.Valid)
      (hchain : blocks.IsChain Block.Before) : Checked .fitted blocks

/-- A count is an integer within the bound. -/
theorem boundedCount_eq_ok {value : PyValue} {code : ErrorCode} {n : ℕ} :
    boundedCount value code = .ok n ↔ value = .int n ∧ n ≤ maxSamples := by
  rw [boundedCount, Except.bind_eq_ok_iff]
  constructor
  · rintro ⟨i, hi, h⟩
    unfold actualInt at hi
    split at hi
    · cases hi
      simp only [Except.bind_eq_ok_iff, Except.raiseIf_eq_ok_iff, Except.pure_eq_ok,
        Except.ok.injEq, not_or,
        not_lt] at h
      obtain ⟨-, ⟨hpos, hle⟩, rfl⟩ := h
      exact ⟨by rw [Int.toNat_of_nonneg hpos], by omega⟩
    · cases hi
  · rintro ⟨rfl, hle⟩
    refine ⟨n, rfl, ?_⟩
    simp only [Except.bind_eq_ok_iff, Except.raiseIf_eq_ok_iff, Except.pure_eq_ok,
      Except.ok.injEq, not_or, not_lt]
    exact ⟨(), ⟨by omega, by omega⟩, Int.toNat_natCast n⟩

/-- A block that is read is valid. -/
theorem valid_of_blockTuple {value : PyValue} {b : Block} (h : blockTuple value = .ok b) :
    b.Valid := by
  unfold blockTuple at h
  split at h
  · simp only [Except.bind_eq_ok_iff, Except.raiseIf_eq_ok_iff, Except.pure_eq_ok, Except.ok.injEq,
      boundedCount_eq_ok, not_or, not_lt] at h
    obtain ⟨-, -, lower, -, upper, -, -, hscores, count, ⟨-, hcount⟩, positive, -, -,
      ⟨hpos, hle⟩, rfl⟩ := h
    exact ⟨hscores, hpos, hcount, hle⟩
  · cases h

theorem checkBlocks_some_iff {previous : Block} {blocks : List Block} :
    checkBlocks (some previous) blocks = .ok () ↔ (previous :: blocks).IsChain Block.Before := by
  induction blocks generalizing previous with
  | nil => simp [checkBlocks]
  | cons b blocks ih =>
      rw [checkBlocks, List.isChain_cons_cons, ← ih]
      simp only [Except.bind_eq_ok_iff, Except.raiseIf_eq_ok_iff, not_or, not_le]
      constructor
      · rintro ⟨-, ⟨hscores, hmeans⟩, h⟩
        exact ⟨⟨hscores, hmeans⟩, h⟩
      · rintro ⟨⟨hscores, hmeans⟩, h⟩
        exact ⟨(), ⟨hscores, hmeans⟩, h⟩

/-- The blocks pass if each one comes before the next. -/
theorem checkBlocks_none_iff {blocks : List Block} :
    checkBlocks none blocks = .ok () ↔ blocks.IsChain Block.Before := by
  cases blocks with
  | nil => simp [checkBlocks]
  | cons b blocks => rw [checkBlocks, checkBlocks_some_iff]

/-- **The check implies the order facts** that the search relies on. -/
theorem checked_of_validateArtifact {artifact : PyValue} {status : FitStatus} {blocks : List Block}
    (h : validateArtifact artifact = .ok (status, blocks)) : Checked status blocks := by
  unfold validateArtifact at h
  rw [Except.bind_eq_ok_iff] at h
  obtain ⟨-, -, h⟩ := h
  split at h
  · simp only [Except.bind_eq_ok_iff, Except.pure_eq_ok, Except.ok.injEq, Prod.mk.injEq] at h
    obtain ⟨-, -, -, -, status', -, n, -, positive, -, negative, -, -, -, blocks', hblocks, u,
      hsupport, rfl, rfl⟩ := h
    have hvalid : ∀ b ∈ blocks', b.Valid := by
      unfold rawBlocks at hblocks
      split at hblocks
      · intro b hb
        obtain ⟨value, -, hvalue⟩ := Except.exists_of_mem_mapM hblocks hb
        exact valid_of_blockTuple hvalue
      · cases hblocks
    cases status' with
    | insufficientData =>
        simp only [checkSupport, Except.raiseIf_eq_ok_iff, not_or, not_not] at hsupport
        rw [hsupport.1]
        exact .insufficient
    | fitted =>
        simp only [checkSupport, Except.bind_eq_ok_iff, Except.raiseIf_eq_ok_iff, not_or]
          at hsupport
        obtain ⟨-, ⟨hne, -⟩, hchain⟩ := hsupport
        exact .fitted hne hvalid (checkBlocks_none_iff.mp hchain)
  · cases h

/-- In accepted blocks the lower scores and the means increase. -/
theorem sorted_of_chain {blocks : List Block} (hvalid : ∀ b ∈ blocks, b.Valid)
    (hchain : blocks.IsChain Block.Before) :
    blocks.Pairwise (fun a b => a.lower.value < b.lower.value) ∧
    blocks.Pairwise (fun a b => a.mean < b.mean) := by
  constructor
  · have : IsTrans Block (fun a b => a.lower.value < b.lower.value) := ⟨fun _ _ _ => lt_trans⟩
    apply List.IsChain.pairwise
    refine hchain.imp_of_mem_imp ?_
    intro a b ha _ hab
    exact (hvalid a ha).scores.trans_lt hab.scores
  · have : IsTrans Block (fun a b => a.mean < b.mean) := ⟨fun _ _ _ => lt_trans⟩
    apply List.IsChain.pairwise
    refine hchain.imp_of_mem_imp ?_
    intro a b ha hb hab
    have hmeans := hab.means
    rwa [shouldMerge_iff (hvalid a ha).count_pos (hvalid b hb).count_pos, not_le] at hmeans

/-! ## What is predicted -/

/-- The block of a score: the last one whose lower score is not above it, or the first when all are
above. -/
def IsLeftBlock (blocks : List Block) (q : ℚ) (b : Block) : Prop :=
  (∃ pre post, blocks = pre ++ b :: post ∧ b.lower.value ≤ q ∧ ∀ c ∈ post, q < c.lower.value)
    ∨ blocks.head? = some b ∧ ∀ c ∈ blocks, q < c.lower.value

/-- The block to the left of a score, or the first one. -/
theorem leftBlock_spec {blocks : List Block} (hne : blocks ≠ [])
    (hlower : blocks.Pairwise (fun a b => a.lower.value < b.lower.value)) (q : ℚ) :
    ∃ b ∈ blocks, leftBlock blocks q = some b ∧ IsLeftBlock blocks q b := by
  have hkeys : (blocks.map (fun b => b.lower.value)).Pairwise (· ≤ ·) :=
    List.pairwise_map.mpr (hlower.imp fun h => h.le)
  obtain ⟨l, r, hsplit, hfound, hl, hr⟩ := Bisection.bisectRight_split hkeys q
  obtain ⟨pre, post, rfl, rfl, rfl⟩ := List.map_eq_append_iff.mp hsplit
  rw [List.length_map] at hfound
  rcases List.eq_nil_or_concat pre with rfl | ⟨pre, b, rfl⟩
  · -- every lower score is above the query
    obtain ⟨b, post, rfl⟩ := List.exists_cons_of_ne_nil hne
    refine ⟨b, List.mem_cons_self, ?_, .inr ⟨rfl, fun c hc => hr _ (List.mem_map_of_mem hc)⟩⟩
    rw [leftBlock, hfound]
    rfl
  · refine ⟨b, by simp, ?_, .inl ⟨pre, post, by simp, hl _ (List.mem_map_of_mem (by simp)),
      fun c hc => hr _ (List.mem_map_of_mem hc)⟩⟩
    rw [leftBlock, hfound]
    simp

/-- The mean of a block is a probability. -/
theorem Block.Valid.mean_unit {b : Block} (h : b.Valid) : 0 ≤ b.mean ∧ b.mean ≤ 1 := by
  have hcount : (0 : ℚ) < b.count := by exact_mod_cast h.count_pos
  constructor
  · rw [Block.mean]
    positivity
  · rw [Block.mean, div_le_one hcount]
    exact_mod_cast h.positive_le

/-- The mean of a valid block is rounded correctly. -/
theorem mean_nearest {b : Block} (h : b.Valid) :
    ∃ r, mean b = some r ∧ r.exp = -12 ∧ NearestEven ((10 : ℚ) ^ (-12 : ℤ)) b.mean r.value := by
  have hsmall : b.count < 10 ^ 37 := h.count_le.trans_lt (by norm_num [maxSamples])
  have hmean : b.mean = ((b.positive : ℤ) : ℚ) / b.count := by
    rw [Block.mean, Int.cast_natCast]
  exact ratio12_nearest h.mean_unit.1 h.mean_unit.2 h.count_pos hsmall hmean
    h.count_pos.ne' hmean.symm

/-- What is predicted for a score: a value for the left block, or 0 without blocks. -/
structure Predicts (status : FitStatus) (blocks : List Block) (q : ℚ) (value : Decimal) : Prop where
  nonneg : 0 ≤ value.value
  le_one : value.value ≤ 1
  step : status = .fitted →
    ∃ b, IsLeftBlock blocks q b ∧ NearestEven ((10 : ℚ) ^ (-12 : ℤ)) b.mean value.value
  zero : status = .insufficientData → blocks = [] ∧ value = Decimal.ofNat 0

/-- A score is accepted in its canonical text only. -/
theorem canonicalScore_eq_ok {value : PyValue} {code : ErrorCode} {s : Score} :
    canonicalScore value code = .ok s ↔ value = .str s.text := by
  constructor
  · intro h
    unfold canonicalScore at h
    split at h
    · split_ifs at h
      cases h
      rfl
    · cases h
  · rintro rfl
    rw [canonicalScore, dif_pos s.valid]

/-- The step of a fitted artifact. -/
theorem leftStep_spec {blocks : List Block} (hne : blocks ≠ []) (hvalid : ∀ b ∈ blocks, b.Valid)
    (hchain : blocks.IsChain Block.Before) (s : Score) :
    ∃ v, leftStep blocks s = .ok (some v) ∧ Predicts .fitted blocks s.value v
      ∧ NearestEven ((10 : ℚ) ^ (-12 : ℤ)) (stepFunction blocks s.value) v.value := by
  obtain ⟨b, hb, hleft, hspec⟩ := leftBlock_spec hne (sorted_of_chain hvalid hchain).1 s.value
  obtain ⟨v, hv, -, hnear⟩ := mean_nearest (hvalid b hb)
  have hunit := nearestEven_unit (k := 12) hnear (hvalid b hb).mean_unit.1 (hvalid b hb).mean_unit.2
  refine ⟨v, by rw [leftStep, hleft]; exact congrArg _ hv,
    ⟨hunit.1, hunit.2, fun _ => ⟨b, hspec, hnear⟩, by rintro ⟨⟩⟩, ?_⟩
  rw [stepFunction, hleft]
  exact hnear

/-- **Prediction is total** on accepted artifacts. -/
theorem predict_spec {artifact : PyValue} {status : FitStatus} {blocks : List Block}
    (h : validateArtifact artifact = .ok (status, blocks)) (s : Score) :
    ∃ v, predict artifact (.str s.text) = .ok (some v) ∧ Predicts status blocks s.value v := by
  have hscore : canonicalScore (.str s.text) .invalidSample = .ok s := canonicalScore_eq_ok.mpr rfl
  simp only [predict, h, hscore, Except.ok_bind]
  cases checked_of_validateArtifact h with
  | insufficient =>
      refine ⟨Decimal.ofNat 0, rfl, ⟨?_, ?_, by rintro ⟨⟩, fun _ => ⟨rfl, rfl⟩⟩⟩
      · rw [Decimal.value_ofNat]
        norm_num
      · rw [Decimal.value_ofNat]
        norm_num
  | fitted hne hvalid hchain =>
      obtain ⟨v, hv, hpredicts, -⟩ := leftStep_spec hne hvalid hchain s
      exact ⟨v, hv, hpredicts⟩

/-- **Prediction respects the order of the scores**; rounding does not break it. -/
theorem predict_mono {artifact : PyValue} {status : FitStatus} {blocks : List Block}
    (h : validateArtifact artifact = .ok (status, blocks)) {s t : Score} (hst : s.value ≤ t.value)
    {v w : Decimal}
    (hv : predict artifact (.str s.text) = .ok (some v))
    (hw : predict artifact (.str t.text) = .ok (some w)) :
    v.value ≤ w.value := by
  have hs : canonicalScore (.str s.text) .invalidSample = .ok s := canonicalScore_eq_ok.mpr rfl
  have ht : canonicalScore (.str t.text) .invalidSample = .ok t := canonicalScore_eq_ok.mpr rfl
  simp only [predict, h, hs, ht, Except.ok_bind] at hv hw
  cases checked_of_validateArtifact h with
  | insufficient =>
      cases hv
      cases hw
      exact le_rfl
  | fitted hne hvalid hchain =>
      obtain ⟨v', hv', -, hnear⟩ := leftStep_spec hne hvalid hchain s
      obtain ⟨w', hw', -, hnear'⟩ := leftStep_spec hne hvalid hchain t
      cases hv'.symm.trans hv
      cases hw'.symm.trans hw
      obtain ⟨hlower, hmeans⟩ := sorted_of_chain hvalid hchain
      exact hnear.mono (by positivity) hnear' (stepFunction_monotone hlower hmeans hst)

/-! ## The artifact of a fit is accepted -/

theorem checkDepth_blocks (blocks : List Block) (depth : ℕ) (hdepth : depth ≤ maxDepth) :
    checkDepthItems (blocks.map Block.public) depth = .ok () := by
  induction blocks with
  | nil => rfl
  | cons b blocks ih =>
      have hblock : checkDepth b.public depth = .ok () := by
        rw [Block.public, checkDepth, Except.raiseIf, if_neg (not_lt.mpr hdepth)]
        rfl
      rw [List.map_cons, checkDepthItems, hblock, Except.ok_bind, ih]

/-- A valid block is read back. -/
theorem blockTuple_public {b : Block} (h : b.Valid) : blockTuple b.public = .ok b := by
  simp only [blockTuple, Block.public, Except.bind_eq_ok_iff, Except.raiseIf_eq_ok_iff,
    Except.pure_eq_ok,
    Except.ok.injEq, canonicalScore_eq_ok, boundedCount_eq_ok]
  have hpos := h.count_pos
  have hle := h.positive_le
  exact ⟨(), by simp [keysAre, blockKeys, Dict.keys], b.lower, rfl, b.upper, rfl, (),
    not_lt.mpr h.scores, b.count,
    ⟨rfl, h.count_le⟩, b.positive, ⟨rfl, hle.trans h.count_le⟩, (), by omega, rfl⟩

/-- Blocks that pass the tests, with their totals, make an artifact that is accepted. -/
theorem validateArtifact_public {a : Artifact} (hschema : a.schemaVersion = fitSchema)
    (hn : a.n ≤ maxSamples)
    (htotal : a.positive + a.negative = a.n) (hvalid : ∀ b ∈ a.blocks, b.Valid)
    (hsupport : checkSupport a.status a.n a.positive a.negative a.blocks = .ok ()) :
    validateArtifact a.public = .ok (a.status, a.blocks) := by
  have hdepth : checkDepth a.public 1 = .ok () := by
    have hblocks := checkDepth_blocks a.blocks 3 (by decide)
    simp [Artifact.public, checkDepth, checkDepthMembers, Except.raiseIf, maxDepth, hblocks]
  have hstatus : checkStatus (.str a.status.text) = .ok a.status := by
    cases a.status with
    | fitted => rfl
    | insufficientData => rfl
  have hblocks : rawBlocks (.list (a.blocks.map Block.public)) = .ok a.blocks := by
    show (a.blocks.map Block.public).mapM blockTuple = .ok a.blocks
    rw [Except.mapM_eq_ok_iff, List.forall₂_map_left_iff, List.forall₂_same]
    exact fun b hb => blockTuple_public (hvalid b hb)
  unfold validateArtifact
  rw [hdepth, Except.ok_bind]
  simp only [Artifact.public, Except.bind_eq_ok_iff, Except.raiseIf_eq_ok_iff, Except.pure_eq_ok,
    Except.ok.injEq, boundedCount_eq_ok]
  refine ⟨(), by simp [keysAre, artifactKeys, Dict.keys], (), ?_, a.status, hstatus, a.n,
    ⟨rfl, hn⟩, a.positive,
    ⟨rfl, by omega⟩, a.negative, ⟨rfl, by omega⟩, (), by omega, a.blocks, hblocks,
    (), hsupport, rfl⟩
  show Except.raiseIf (a.schemaVersion ≠ fitSchema) _ = .ok ()
  exact Except.raiseIf_eq_ok_iff.mpr (not_not.mpr hschema)

section Fitted

variable {runs : List (List Block)} {blocks : List Block}

/-- A sum over the blocks is the sum over the groups of their runs. -/
theorem sum_of_runs (f : Block → ℕ) (hf : ∀ run b, StandsFor run b → f b = (run.map f).sum)
    (h : List.Forall₂ StandsFor runs blocks) : (blocks.map f).sum = (runs.flatten.map f).sum := by
  induction h with
  | nil => rfl
  | @cons run b runs blocks hrun hruns ih =>
      rw [List.map_cons, List.sum_cons, List.flatten_cons, List.map_append, List.sum_append,
        ih, hf run b hrun]

/-- A block ends where one of its groups does. -/
theorem StandsFor.exists_upper {run : List Block} {b : Block} (h : StandsFor run b) :
    ∃ g ∈ run, g.upper = b.upper := by
  obtain ⟨g, hg, hupper⟩ := Option.map_eq_some_iff.mp h.upper
  exact ⟨g, List.mem_of_getLast? hg, hupper⟩

/-- The scores of a block are below those of the later ones. -/
theorem blocks_apart (h : List.Forall₂ StandsFor runs blocks)
    (hsorted : runs.flatten.Pairwise (fun g g' => g.lower.value < g'.lower.value))
    (hsingle : ∀ g ∈ runs.flatten, g.upper = g.lower) :
    blocks.Pairwise (fun a b => a.upper.value < b.lower.value) := by
  induction h with
  | nil => exact .nil
  | @cons run b runs blocks hrun hruns ih =>
      rw [List.flatten_cons] at hsorted hsingle
      rw [List.pairwise_append] at hsorted
      rw [List.forall_mem_append] at hsingle
      refine .cons ?_ (ih hsorted.2.1 hsingle.2)
      intro c hc
      obtain ⟨run', hrun', hc'⟩ := mem_of_forall₂_left hruns hc
      obtain ⟨g, hg, hupper⟩ := hrun.exists_upper
      obtain ⟨g', hg', hlower'⟩ := hc'.exists_lower
      rw [← hupper, ← hlower', hsingle.1 g hg]
      exact hsorted.2.2 g hg g' (List.mem_flatten.mpr ⟨run', hrun', hg'⟩)

end Fitted

/-- The groups count every sample. -/
theorem sum_count_aggregate (samples : List Sample) :
    ((aggregate samples).map Block.count).sum = samples.length := by
  have hmem : ∀ s ∈ samples, s.score ∈ scoresOf samples := fun s hs => mem_scoresOf.mpr ⟨s, hs, rfl⟩
  have h := sum_fibers (fun _ => 1) (nodup_scoresOf samples) samples hmem
  rw [aggregate_eq, List.map_map]
  simpa [Function.comp_def, groupAt] using h

/-- The groups count every positive. -/
theorem sum_positive_aggregate (samples : List Sample) :
    ((aggregate samples).map Block.positive).sum = (samples.map (fun s => s.outcome.val)).sum := by
  have hmem : ∀ s ∈ samples, s.score ∈ scoresOf samples := fun s hs => mem_scoresOf.mpr ⟨s, hs, rfl⟩
  rw [← sum_fibers (fun s => s.outcome.val) (nodup_scoresOf samples) samples hmem,
    aggregate_eq, List.map_map]
  rfl

theorem sum_outcomes_le (samples : List Sample) :
    (samples.map (fun s => s.outcome.val)).sum ≤ samples.length := by
  rw [sum_outcomes]
  exact List.countP_le_length

/-- What a block of a pool is: a valid block, apart from the others. -/
theorem pool_valid (samples : List Sample) (hn : samples.length ≤ maxSamples) :
    (∀ b ∈ pool (aggregate samples), b.Valid) ∧ (pool (aggregate samples)).IsChain Block.Before
      ∧ ((pool (aggregate samples)).map Block.count).sum = samples.length
      ∧ ((pool (aggregate samples)).map Block.positive).sum
      = (samples.map (fun s => s.outcome.val)).sum := by
  have hgroups : ∀ g ∈ aggregate samples, 0 < g.count := fun g hg => count_pos_of_mem_aggregate hg
  obtain ⟨runs, hflat, hruns, hmeans⟩ := pool_runs hgroups
  have hsorted : runs.flatten.Pairwise (fun g g' => g.lower.value < g'.lower.value) :=
    hflat ▸ aggregate_sorted samples
  have hsingle : ∀ g ∈ runs.flatten, g.upper = g.lower := by
    intro g hg
    rw [hflat] at hg
    rw [(mem_aggregate hg).1]
    rfl
  have hcount : ((pool (aggregate samples)).map Block.count).sum = samples.length := by
    rw [sum_of_runs Block.count (fun run b h => h.count) hruns, hflat, sum_count_aggregate]
  have hvalid : ∀ b ∈ pool (aggregate samples), b.Valid := by
    intro b hb
    obtain ⟨run, hrun, hstands⟩ := mem_of_forall₂_left hruns hb
    have hrun_sorted : run.Pairwise (fun g g' => g.lower.value < g'.lower.value) :=
      (List.pairwise_flatten.mp hsorted).1 run hrun
    refine ⟨?_, hstands.count_pos, ?_, ?_⟩
    · obtain ⟨g, hg, hupper⟩ := hstands.exists_upper
      rw [← hupper, hsingle g (List.mem_flatten.mpr ⟨run, hrun, hg⟩)]
      exact hstands.lower_le hrun_sorted hg
    · have hle : b.count ≤ ((pool (aggregate samples)).map Block.count).sum :=
        List.single_le_sum (by simp) _ (List.mem_map_of_mem hb)
      omega
    · rw [hstands.count, hstands.positive]
      apply List.sum_le_sum
      intro g hg
      have hmem : g ∈ aggregate samples := by
        rw [← hflat]
        exact List.mem_flatten.mpr ⟨run, hrun, hg⟩
      rw [(mem_aggregate hmem).1]
      exact sum_outcomes_le _
  refine ⟨hvalid, ?_, hcount, ?_⟩
  · have hboth := ((blocks_apart hruns hsorted hsingle).and hmeans).isChain
    refine hboth.imp_of_mem_imp ?_
    intro a b ha hb hab
    refine ⟨hab.1, ?_⟩
    rw [shouldMerge_iff (hvalid a ha).count_pos (hvalid b hb).count_pos, not_le]
    exact hab.2
  · rw [sum_of_runs Block.positive (fun run b h => h.positive) hruns, hflat, sum_positive_aggregate]

/-- **What `fit` returns is accepted.** -/
theorem validateArtifact_fit {samples : PyValue} {a : Artifact} (h : fit samples = .ok a) :
    validateArtifact a.public = .ok (a.status, a.blocks) := by
  obtain ⟨parsed, hparsed, rfl⟩ :
      ∃ parsed, parseSamples samples = .ok parsed ∧ fitParsed parsed = a := by
    simpa [fit, Except.bind_eq_ok_iff] using h
  have hlen : parsed.length ≤ maxSamples := by
    unfold parseSamples at hparsed
    split at hparsed
    · simp only [Except.bind_eq_ok_iff, Except.raiseIf_eq_ok_iff, not_lt] at hparsed
      obtain ⟨-, hle, hrows⟩ := hparsed
      rw [← (Except.mapM_eq_ok_iff.mp hrows).length_eq]
      exact hle
    · cases hparsed
  have hpositive := sum_outcomes_le parsed
  obtain ⟨hvalid, hchain, hcount, hpos⟩ := pool_valid parsed hlen
  apply validateArtifact_public
  · rfl
  · exact hlen
  · show (parsed.map (fun s => s.outcome.val)).sum
      + (parsed.length - (parsed.map (fun s => s.outcome.val)).sum)
      = parsed.length
    omega
  · intro b hb
    simp only [fitParsed] at hb
    split_ifs at hb
    · exact hvalid b hb
    · cases hb
  · simp only [fitParsed]
    split_ifs with henough
    · have hne : pool (aggregate parsed) ≠ [] := by
        intro hnil
        rw [hnil] at hcount
        have hmin : minN ≤ parsed.length := by
          simp only [support, Bool.and_eq_true, decide_eq_true_eq] at henough
          exact henough.1.1
        simp [minN] at hcount hmin
        omega
      simp [checkSupport, Except.raiseIf, hne, henough, hcount, hpos,
        checkBlocks_none_iff.mpr hchain]
    · simp [checkSupport, Except.raiseIf, henough]

/-! ## Evaluation returns -/

/-- The predicted probabilities of samples, as fractions. -/
def Probabilities (blocks : List Block) (prob : Score → ℚ) : Prop :=
  ∀ s : Score, ∃ v, leftStep blocks s = .ok (some v) ∧ v.value = prob s

/-- What `_evaluation` computes of enough samples, with the probabilities of the blocks. -/
def evaluated (prob : Score → ℚ) (samples : List Sample) : Evaluation :=
  let n := samples.length
  let positive := (samples.map (fun s => s.outcome.val)).sum
  let sums := (samples.map (fun s => (prob s.score, s))).foldl Sums.add Sums.start
  let bins := (List.range 10).map sums.bin
  ⟨evalSchema, .evaluated, n, positive, n - positive, true,
    some (emit12 (fraction12 (sums.brier / n))),
    some (emit12 (fraction12 ((bins.map Prod.snd).sum / n))), bins.map Prod.fst⟩

/-- The evaluation of a fitted artifact. -/
theorem evaluation_fitted {blocks : List Block} {prob : Score → ℚ}
    (hprob : Probabilities blocks prob)
    (samples : List Sample)
    (henough : support samples.length (samples.map (fun s => s.outcome.val)).sum
      (samples.length - (samples.map (fun s => s.outcome.val)).sum) = true) :
    evaluation .fitted blocks samples = .ok (evaluated prob samples) := by
  choose v hv hvalue using hprob
  have hpredictions : samples.mapM (fun s => leftStep blocks s.score)
      = .ok (samples.map (fun s => some (v s.score))) := by
    rw [Except.mapM_eq_ok_iff, List.forall₂_map_right_iff, List.forall₂_same]
    exact fun s _ => hv s.score
  have hfractions : (samples.map (fun s => some (v s.score))).mapM fraction
      = .ok (samples.map (fun s => prob s.score)) := by
    rw [Except.mapM_eq_ok_iff, List.forall₂_map_left_iff, List.forall₂_map_right_iff,
      List.forall₂_same]
    exact fun s _ => congrArg _ (hvalue s.score)
  have hzip : (samples.map (fun s => prob s.score)).zip samples
      = samples.map (fun s => (prob s.score, s)) := by
    conv_lhs => rw [← List.map_id samples, List.map_map, List.zip_map']
    rfl
  simp only [evaluation, henough, if_true, ne_eq, not_true_eq_false, if_false, hpredictions,
    Except.mapError,
    Except.ok_bind, hfractions, hzip]
  rfl

/-- Checked blocks define a probability for each score. -/
theorem probabilities_of_checked {blocks : List Block} (h : Checked .fitted blocks) :
    ∃ prob : Score → ℚ, Probabilities blocks prob := by
  cases h with
  | fitted hne hvalid hchain =>
      choose v hv using leftStep_spec hne hvalid hchain
      exact ⟨fun s => (v s).value, fun s => ⟨v s, (hv s).1, rfl⟩⟩

/-- **Evaluation returns** for every accepted artifact and every list of samples. -/
theorem evaluation_total {status : FitStatus} {blocks : List Block} (h : Checked status blocks)
    (samples : List Sample) : ∃ e, evaluation status blocks samples = .ok e := by
  cases status with
  | insufficientData => exact ⟨_, rfl⟩
  | fitted =>
      obtain ⟨prob, hprob⟩ := probabilities_of_checked h
      by_cases henough : support samples.length (samples.map (fun s => s.outcome.val)).sum
          (samples.length - (samples.map (fun s => s.outcome.val)).sum) = true
      · exact ⟨_, evaluation_fitted hprob samples henough⟩
      · simp [evaluation, henough]

/-- An artifact that validates is evaluated on parsed samples. -/
theorem evaluate_eq {artifact samples : PyValue} {status : FitStatus} {blocks : List Block}
    {parsed : List Sample}
    (h : validateArtifact artifact = .ok (status, blocks))
    (hparsed : parseSamples samples = .ok parsed) :
    evaluate artifact samples = evaluation status blocks parsed := by
  simp [evaluate, h, hparsed, Except.mapError]

/-- **Prediction is total and monotone on every artifact that is accepted**, and a fitted one among
them predicts the rounded mean of the left block; everything else raises a calibration error. -/
theorem predict_total_monotone :
    (∀ samples a, fit samples = .ok a →
      (∀ s : Score, ∃ v, predict a.public (.str s.text) = .ok (some v))
        ∧ ∀ held parsed, parseSamples held = .ok parsed → ∃ e, evaluate a.public held = .ok e)
    ∧ (∀ artifact status blocks, validateArtifact artifact = .ok (status, blocks) →
      ∀ s t : Score, s.value ≤ t.value → ∃ v w, predict artifact (.str s.text) = .ok (some v)
        ∧ predict artifact (.str t.text) = .ok (some w) ∧ Predicts status blocks s.value v
        ∧ Predicts status blocks t.value w ∧ v.value ≤ w.value)
    ∧ (∀ artifact score, ((∃ accepted, validateArtifact artifact = .ok accepted) ∧ ∃ s : Score,
      score = .str s.text)
      ∨ ∃ e : CalibrationError, predict artifact score = .error e)
    ∧ ∀ artifact held, (∃ e, evaluate artifact held = .ok e)
      ∨ ∃ e : CalibrationError, evaluate artifact held = .error (.calibration e) := by
  refine ⟨?_, ?_, ?_, ?_⟩
  · intro samples a h
    have haccepted := validateArtifact_fit h
    constructor
    · intro s
      obtain ⟨v, hv, -⟩ := predict_spec haccepted s
      exact ⟨v, hv⟩
    · intro held parsed hparsed
      rw [evaluate_eq haccepted hparsed]
      exact evaluation_total (checked_of_validateArtifact haccepted) parsed
  · intro artifact status blocks h s t hst
    obtain ⟨v, hv, hpredicts⟩ := predict_spec h s
    obtain ⟨w, hw, hpredicts'⟩ := predict_spec h t
    exact ⟨v, w, hv, hw, hpredicts, hpredicts', predict_mono h hst hv hw⟩
  · intro artifact score
    cases h : validateArtifact artifact with
    | error e => exact .inr ⟨e, by rw [predict, h, Except.error_bind]⟩
    | ok accepted =>
        cases hscore : canonicalScore score .invalidSample with
        | error e => exact .inr ⟨e, by rw [predict, h, Except.ok_bind, hscore]; rfl⟩
        | ok s => exact .inl ⟨⟨accepted, rfl⟩, s, canonicalScore_eq_ok.mp hscore⟩
  · intro artifact held
    cases h : validateArtifact artifact with
    | error e => exact .inr ⟨e, by rw [evaluate, h]; rfl⟩
    | ok accepted =>
        obtain ⟨status, blocks⟩ := accepted
        cases hparsed : parseSamples held with
        | error e => exact .inr ⟨e, by simp [evaluate, h, hparsed, Except.mapError]⟩
        | ok parsed =>
            rw [evaluate_eq h hparsed]
            exact .inl (evaluation_total (checked_of_validateArtifact h) parsed)

/-- An artifact without blocks predicts 0, which is the mean of no block. -/
theorem insufficient_predicts_zero :
    ¬ ∀ artifact status blocks, validateArtifact artifact = .ok (status, blocks) → ∀ s : Score,
      ∃ v, predict artifact (.str s.text) = .ok (some v)
        ∧ ∃ b, IsLeftBlock blocks s.value b
        ∧ NearestEven ((10 : ℚ) ^ (-12 : ℤ)) b.mean v.value := by
  intro h
  have hfit : fit (.list []) = .ok ⟨"isotonic-v1", .insufficientData, 0, 0, 0, []⟩ := rfl
  obtain ⟨v, -, b, hleft, -⟩ := h _ _ _ (validateArtifact_fit hfit) ⟨"0", by decide⟩
  rcases hleft with ⟨pre, post, hblocks, -⟩ | ⟨hhead, -⟩
  · exact absurd hblocks (by simp)
  · cases hhead

end Isotonic
