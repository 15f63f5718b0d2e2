/-
# Reported values

`parse_fact_value`: the format of an inline fact selects a transform from a closed registry, the
transform reads the text as a decimal, and parentheses, sign and scale are applied in the decimal
context of the thread.

* `exact_value_iff` says when the value is exact: negating and scaling round to the context, and an
  overflow is no error of the normalizer.
-/
import EvidenceLab.DecimalExact
import EvidenceLab.DecimalParse
import EvidenceLab.FilingParser

namespace Xbrl

open Filing (InlineFact)
open Decimal (Reading Signal Context)

/-! ## Errors -/

/-- The reason codes of the normalizer. -/
inductive ReasonCode where
  | invalidPeriodStructure
  | emptyFactValue
  | unparseableFactValue
  | nonfiniteFactValue
  | unknownFormat
  | inconsistentDuplicate
  deriving DecidableEq, Repr

namespace ReasonCode

def value : ReasonCode → String
  | .invalidPeriodStructure => "INVALID_PERIOD_STRUCTURE"
  | .emptyFactValue => "EMPTY_FACT_VALUE"
  | .unparseableFactValue => "UNPARSEABLE_FACT_VALUE"
  | .nonfiniteFactValue => "NONFINITE_FACT_VALUE"
  | .unknownFormat => "UNKNOWN_FORMAT"
  | .inconsistentDuplicate => "INCONSISTENT_DUPLICATE"

end ReasonCode

/-- `NormalizationError`. -/
structure NormalizationError where
  reasonCode : ReasonCode
  diagnostic : String
  deriving DecidableEq, Repr

/-- What the normalizer raises. -/
inductive Failure where
  | normalization (e : NormalizationError)
  /-- A signal of the decimal context that no handler takes. -/
  | signal (s : Signal)
  | keyError (key : String)
  deriving DecidableEq, Repr

/-- What a transform raises. -/
inductive Rejection where
  /-- `_ValueRejected`. -/
  | valueRejected (reasonCode : ReasonCode) (detail : String)
  | invalidOperation
  deriving DecidableEq, Repr

/-! ## Transforms -/

/-- `_DASH_TEXTS`. -/
def dashTexts : List (List Char) := [['-'], ['\u2010'], ['\u2013'], ['\u2014'], ['\u2212']]

section Dashes

local instance dashes_lawful : LawfulBEq (List Char) := inferInstance

/-- `_numeric`. -/
def numeric (thousands decimalSep : Char) (text : List Char) : Except Rejection Reading :=
  if text ∈ dashTexts then .ok (.finite (Decimal.ofNat 0))
  else
    let cleaned := ((text.filter (· != ' ')).filter (· != '\u00a0')).filter (· != thousands)
    let cleaned := if decimalSep ≠ '.' then cleaned.map fun c => if c = decimalSep then '.'
      else c else cleaned
    if cleaned = [] then .error (.valueRejected .emptyFactValue "has no numeric text")
    else Except.orRaise (Decimal.ofText cleaned) .invalidOperation

end Dashes

/-- `_num_dot_decimal`. -/
def numDotDecimal (text : List Char) : Except Rejection Reading := numeric ',' '.' text

/-- `_num_comma_decimal`. -/
def numCommaDecimal (text : List Char) : Except Rejection Reading := numeric '.' ',' text

/-- `_fixed_zero`. -/
def fixedZero (_ : List Char) : Except Rejection Reading := .ok (.finite (Decimal.ofNat 0))

/-- `_fixed_empty`. -/
def fixedEmpty (_ : List Char) : Except Rejection Reading :=
  .error (.valueRejected .emptyFactValue
    "uses ixt:fixed-empty (declares no numeric value); registry policy is reject, not zero")

/-- `_FORMAT_TRANSFORMS`. -/
def formatTransforms : Dict String (List Char → Except Rejection Reading) :=
  [("num-dot-decimal", numDotDecimal), ("numdotdecimal", numDotDecimal),
    ("num-comma-decimal", numCommaDecimal),
    ("numcommadecimal", numCommaDecimal), ("fixed-zero", fixedZero), ("fixedzero", fixedZero),
    ("fixed-empty", fixedEmpty), ("fixedempty", fixedEmpty), ("zerodash", fixedZero),
    ("numdash", fixedZero)]

/-- `format.rsplit(":", 1)[-1].strip().lower()`. -/
def localName (format : String) : String :=
  String.ofList (PyText.lower (String.ofList (PyText.strip (format.toList.rtakeWhile (· != ':')))))

/-- The transform of a format, and the plain one without a format. -/
def transformOf (format : Option String) : Option (List Char → Except Rejection Reading) :=
  match format with
  | none => some numDotDecimal
  | some format => formatTransforms.get? (localName format)

/-! ## Values -/

theorem contextPrec_pos : 0 < 28 := by decide

/-- The decimal context of a thread that did not change it. -/
def context : Context := ⟨28, .halfEven, -999999, 999999, contextPrec_pos⟩

/-- The text stands in parentheses. -/
def isNegative (text : List Char) : Bool :=
  2 ≤ text.length && text.head? == some '(' && text.getLast? == some ')'

/-- The text without its parentheses. -/
def unwrapped (text : List Char) : List Char :=
  if isNegative text then PyText.strip text.tail.dropLast else text

/-- The sign turned or not. -/
def negateIf (turn : Bool) (d : Decimal) : Except Signal Decimal :=
  if turn then context.minus d else .ok d

/-- Parentheses, sign and scale on a magnitude. -/
def scaled (negative signed : Bool) (scale : ℤ) (magnitude : Decimal) : Except Signal Decimal := do
  let magnitude ← negateIf negative magnitude
  let magnitude ← negateIf signed magnitude
  context.shift magnitude scale

section Facts

variable (repr : String → String) (fact : InlineFact)

def unknownFormat (format : String) : NormalizationError :=
  ⟨.unknownFormat, "fact '" ++ fact.concept ++ "' uses unregistered iXBRL format " ++ repr format
    ++
      "; add a transform to the registry before ingesting (fail closed — a guessed locale corrupts "
    ++ "magnitudes silently)"⟩

def nonFinite : NormalizationError :=
  ⟨.nonfiniteFactValue, "fact '" ++ fact.concept ++ "' has non-finite value "
    ++ repr (String.ofList fact.rawText)
    ++ "; NaN/Infinity are never storable"⟩

def unparseable : NormalizationError :=
  ⟨.unparseableFactValue, "fact '" ++ fact.concept ++ "' has unparseable value "
    ++ repr (String.ofList fact.rawText)⟩

def rejected (reasonCode : ReasonCode) (detail : String) : NormalizationError :=
  ⟨reasonCode, "fact '" ++ fact.concept ++ "' at chars " ++ toString fact.startChar ++ "-"
    ++ toString fact.endChar
    ++ " " ++ detail⟩

/-- The handler of `InvalidOperation`; no other signal has one. -/
def handled (result : Except Signal Decimal) : Except Failure Decimal :=
  match result with
  | .ok d => .ok d
  | .error .invalidOperation => .error (.normalization (unparseable repr fact))
  | .error s => .error (.signal s)

/-- `parse_fact_value`. -/
def parseFactValue : Except Failure Decimal :=
  match transformOf fact.format with
  | none => .error (.normalization (unknownFormat repr fact (fact.format.getD "")))
  | some transform =>
      let text := PyText.strip fact.rawText
      match transform (unwrapped text) with
      | .error (.valueRejected reasonCode detail) =>
          .error (.normalization (rejected fact reasonCode detail))
      | .error .invalidOperation => .error (.normalization (unparseable repr fact))
      | .ok .special => .error (.normalization (nonFinite repr fact))
      | .ok (.finite magnitude) =>
          handled repr fact (scaled (isNegative text) (fact.sign == some "-") fact.scale magnitude)

end Facts

/-! ## Exact values -/

/-- The number that the text of a fact denotes under its transform. -/
def magnitude? (fact : InlineFact) : Option Decimal :=
  match transformOf fact.format with
  | none => none
  | some transform =>
      match transform (unwrapped (PyText.strip fact.rawText)) with
      | .ok (.finite magnitude) => some magnitude
      | _ => none

/-- How often the number is negated. -/
def negations (fact : InlineFact) : ℕ :=
  (if isNegative (PyText.strip fact.rawText) then 1 else 0)
  + (if fact.sign = some "-" then 1 else 0)

/-- The value is exact, or the fact is rejected by an error of the normalizer. -/
def ExactValue (repr : String → String) (fact : InlineFact) : Prop :=
  (∃ e, parseFactValue repr fact = .error (.normalization e))
    ∨ ∃ m d, magnitude? fact = some m ∧ parseFactValue repr fact = .ok d
      ∧ d.value = (-1) ^ negations fact * m.value * 10 ^ fact.scale

/-- The context holds what it has to: a scale beyond its bound is rejected, but a negation before it
must not overflow; with any other scale the number that is negated and the scaled one must be held.
-/
def Holds (fact : InlineFact) (m : ℚ) : Prop :=
  if 2000054 < |fact.scale| then negations fact ≠ 0 → ¬ context.Overflows m
  else (negations fact ≠ 0 → context.HoldsValue m) ∧ context.HoldsValue (m * 10 ^ fact.scale)

theorem etiny_le_emax : context.etiny ≤ context.emax := by decide

/-- The negations of a fact. -/
def turned (negative signed : Bool) (m : Decimal) : Except Signal Decimal := do
  let m ← negateIf negative m
  negateIf signed m

def turns (negative signed : Bool) : ℕ := (if negative then 1 else 0) + (if signed then 1 else 0)

/-- A power of minus one is one or minus one. -/
theorem sign_cases (k : ℕ) : (-1 : ℚ) ^ k = 1 ∨ (-1 : ℚ) ^ k = -1 := neg_one_pow_eq_or ℚ k

/-- Rounding to even does not depend on the sign. -/
theorem roundValue_sign (k : ℕ) (v : ℚ) :
    context.roundValue ((-1) ^ k * v) = (context.roundValue v).map ((-1) ^ k * ·) := by
  rcases sign_cases k with h | h <;> rw [h]
  · simp
  · rw [neg_one_mul, Context.roundValue_neg rfl]
    simp

/-- A number is held if its opposite is. -/
theorem holdsValue_sign (k : ℕ) (v : ℚ) : context.HoldsValue ((-1) ^ k * v) ↔
    context.HoldsValue v := by
  rcases sign_cases k with h | h <;> rw [h]
  · rw [one_mul]
  · rw [neg_one_mul, Context.holdsValue_neg_iff]

/-- What the negation of a decimal is. -/
theorem minus_spec (m : Decimal) :
    (context.roundValue m.value = none ∧ context.minus m = .error .overflow)
      ∨ ∃ w b, context.roundValue m.value = some w ∧ context.minus m = .ok b
      ∧ Context.Result context b ∧ b.value = -w := by
  have hvalue := context.minus_value m
  rw [Context.roundValue_neg rfl] at hvalue
  cases hb : context.minus m with
  | error s =>
      rw [hb] at hvalue
      obtain rfl := Context.finalize_eq_error hb
      refine .inl ⟨?_, rfl⟩
      cases hw : context.roundValue m.value with
      | none => rfl
      | some w =>
          rw [hw] at hvalue
          cases hvalue
  | ok b =>
      rw [hb] at hvalue
      cases hw : context.roundValue m.value with
      | none =>
          rw [hw] at hvalue
          cases hvalue
      | some w =>
          rw [hw] at hvalue
          exact .inr ⟨w, b, rfl, rfl, Context.result_of_finalize etiny_le_emax hb,
            Option.some.inj hvalue⟩

/-- **The negations of a fact**: without one nothing is rounded, else the magnitude is rounded once.
-/
theorem turned_spec (negative signed : Bool) (m : Decimal) :
    (turns negative signed = 0 ∧ turned negative signed m = .ok m)
      ∨ (turns negative signed ≠ 0 ∧ context.roundValue m.value = none
        ∧ turned negative signed m = .error .overflow)
      ∨ ∃ w b, turns negative signed ≠ 0 ∧ context.roundValue m.value = some w
      ∧ turned negative signed m = .ok b
        ∧ Context.Result context b ∧ b.value = (-1) ^ turns negative signed * w := by
  cases negative with
  | false =>
      cases signed with
      | false => exact .inl ⟨rfl, rfl⟩
      | true =>
          rcases minus_spec m with ⟨hw, hm⟩ | ⟨w, b, hw, hm, hb, hvalue⟩
          · exact .inr (.inl ⟨one_ne_zero, hw, hm⟩)
          · exact .inr (.inr ⟨w, b, one_ne_zero, hw, hm, hb, by rw [hvalue]; simp [turns]⟩)
  | true =>
      rcases minus_spec m with ⟨hw, hm⟩ | ⟨w, b, hw, hm, hb, hvalue⟩
      · refine .inr (.inl ⟨by cases signed <;> decide, hw, ?_⟩)
        rw [turned, negateIf, if_pos rfl, hm]
        rfl
      · have hfirst : turned true signed m = negateIf signed b := by
          rw [turned, negateIf, if_pos rfl, hm]
          rfl
        cases signed with
        | false =>
            exact .inr (.inr ⟨w, b, one_ne_zero, hw, hfirst, hb, by rw [hvalue]; simp [turns]⟩)
        | true =>
            rcases minus_spec b with ⟨hw', -⟩ | ⟨w', b', hw', hm', hb', hvalue'⟩
            · rw [hb.roundValue] at hw'
              cases hw'
            · refine .inr (.inr ⟨w, b', two_ne_zero, hw, hfirst.trans hm', hb', ?_⟩)
              rw [hb.roundValue] at hw'
              rw [hvalue', ← Option.some.inj hw', hvalue]
              simp [turns]

theorem scaled_eq (negative signed : Bool) (scale : ℤ) (m : Decimal) :
    scaled negative signed scale m = turned negative signed m >>= fun b =>
    context.shift b scale := by
  rw [scaled, turned, bind_assoc]

/-- The result of a fact whose text denotes a number. -/
theorem parseFactValue_eq {repr : String → String} {fact : InlineFact} {m : Decimal}
    (h : magnitude? fact = some m) :
    parseFactValue repr fact
      = handled repr fact (scaled (isNegative (PyText.strip fact.rawText)) (fact.sign == some "-")
        fact.scale m) := by
  unfold magnitude? at h
  unfold parseFactValue
  cases ht : transformOf fact.format with
  | none =>
      rw [ht] at h
      cases h
  | some transform =>
      rw [ht] at h
      simp only at h ⊢
      split at h
      · rename_i magnitude heq
        rw [heq, Option.some.inj h]
      · cases h

/-- A fact whose text denotes no number is rejected. -/
theorem rejected_of_magnitude? {repr : String → String} {fact : InlineFact}
    (h : magnitude? fact = none) :
    ∃ e, parseFactValue repr fact = .error (.normalization e) := by
  unfold magnitude? at h
  unfold parseFactValue
  cases ht : transformOf fact.format with
  | none => exact ⟨_, rfl⟩
  | some transform =>
      rw [ht] at h
      simp only at h ⊢
      cases hread : transform (unwrapped (PyText.strip fact.rawText)) with
      | error e => cases e <;> exact ⟨_, rfl⟩
      | ok reading =>
          cases reading with
          | special => exact ⟨_, rfl⟩
          | finite magnitude =>
              rw [hread] at h
              cases h

section Scaled

variable {repr : String → String} {fact : InlineFact} {m : Decimal}

/-- Only invalid operations become normalization errors. -/
theorem handled_eq_normalization_iff {x : Except Signal Decimal} :
    (∃ e, handled repr fact x = .error (.normalization e)) ↔ x = .error .invalidOperation := by
  unfold handled
  cases x with
  | ok d => simp
  | error s => cases s <;> simp

theorem handled_eq_ok_iff {x : Except Signal Decimal} {d : Decimal} :
    handled repr fact x = .ok d ↔ x = .ok d := by
  unfold handled
  cases x with
  | ok d => simp
  | error s => cases s <;> simp

/-- A scale out of range is an invalid operation. -/
theorem shift_of_large {scale : ℤ} (hscale : 2000054 < |scale|) (b : Decimal) :
    context.shift b scale = .error .invalidOperation := if_pos hscale

/-- With a scale beyond the bound only the negations matter. -/
theorem scaled_of_large {negative signed : Bool} {scale : ℤ} (hscale : 2000054 < |scale|) :
    scaled negative signed scale m = .error .invalidOperation
      ↔ (turns negative signed ≠ 0 → ¬ context.Overflows m.value) := by
  have hshift := shift_of_large hscale
  rw [scaled_eq]
  rcases turned_spec negative signed m with ⟨hk, hm⟩ | ⟨hk, hw, hm⟩ | ⟨w, b, hk, hw, hm, -, -⟩
  · simp [hm, hk, hshift, Except.ok_bind]
  · simp only [hm, Context.Overflows, hw]
    simp [hk, bind, Except.bind]
  · simp [hm, hk, hshift, Except.ok_bind, Context.Overflows, hw]

/-- A scale out of range gives no value. -/
theorem scaled_ne_ok {negative signed : Bool} {scale : ℤ} (hscale : 2000054 < |scale|)
    (d : Decimal) :
    scaled negative signed scale m ≠ .ok d := by
  rw [scaled_eq, ne_eq, Except.bind_eq_ok_iff]
  rintro ⟨b, -, hb⟩
  rw [shift_of_large hscale] at hb
  cases hb

/-- A scale in range is a plain shift. -/
theorem shift_of_small {scale : ℤ} (hscale : ¬ 2000054 < |scale|) (b : Decimal) :
    context.shift b scale = context.scaleb b scale := if_neg hscale

/-- With a scale within the bound the result is never an invalid operation. -/
theorem scaled_ne_invalid {negative signed : Bool} {scale : ℤ} (hscale : ¬ 2000054 < |scale|) :
    scaled negative signed scale m ≠ .error .invalidOperation := by
  rw [scaled_eq]
  have hscaleb : ∀ b, context.scaleb b scale ≠ .error .invalidOperation := by
    intro b hb
    cases Context.finalize_eq_error hb
  rcases turned_spec negative signed m with ⟨-, hm⟩ | ⟨-, -, hm⟩ | ⟨w, b, -, -, hm, -, -⟩
  · rw [hm, Except.ok_bind, shift_of_small hscale]
    exact hscaleb m
  · rw [hm]
    nofun
  · rw [hm, Except.ok_bind, shift_of_small hscale]
    exact hscaleb b

/-- With a scale within the bound the result is exact when the context holds the numbers on the way.
-/
theorem scaled_exact_iff {negative signed : Bool} {scale : ℤ} (hscale : ¬ 2000054 < |scale|) :
    (∃ d, scaled negative signed scale m = .ok d ∧ d.value = (-1) ^ turns negative signed
      * m.value * 10 ^ scale)
      ↔ (turns negative signed ≠ 0 → context.HoldsValue m.value) ∧
      context.HoldsValue (m.value * 10 ^ scale) := by
  -- an exact result stands in the context
  have hholds : ∀ {b d : Decimal}, context.scaleb b scale = .ok d →
      d.value = (-1) ^ turns negative signed * m.value * 10 ^ scale →
        context.HoldsValue (m.value * 10 ^ scale) := by
    intro b d hd hvalue
    rw [← holdsValue_sign (turns negative signed), ← mul_assoc, ← hvalue]
    exact ⟨d, Context.result_of_finalize etiny_le_emax hd, rfl⟩
  -- what stands there is scaled exactly
  have hresult : ∀ {b : Decimal}, b.value = (-1) ^ turns negative signed * m.value →
      context.HoldsValue (m.value * 10 ^ scale) → ∃ d, context.scaleb b scale = .ok d
        ∧ d.value = (-1) ^ turns negative signed * m.value * 10 ^ scale := by
    intro b hb hm
    rw [← holdsValue_sign (turns negative signed), ← mul_assoc, ← hb] at hm
    obtain ⟨a, ha, hvalue⟩ := hm
    have hround := context.scaleb_value b scale
    rw [← hvalue, ha.roundValue] at hround
    obtain ⟨d, hd, hdvalue⟩ := Context.exists_of_toOption hround
    exact ⟨d, hd, by rw [hdvalue, hvalue, hb]⟩
  rw [scaled_eq]
  rcases turned_spec negative signed m with ⟨hk, hm⟩ | ⟨hk, hw, hm⟩ | ⟨w, b, hk, hw,
    hm, hb, hbvalue⟩
  · -- no turn
    simp only [hm, Except.ok_bind, shift_of_small hscale, hk, ne_eq, not_true,
    false_imp_iff, true_and]
    rw [hk] at hholds hresult
    constructor
    · rintro ⟨d, hd, hvalue⟩
      exact hholds hd hvalue
    · exact hresult (by simp)
  · -- the turn overflows
    constructor
    · rintro ⟨d, hd, -⟩
      rw [hm] at hd
      cases hd
    · rintro ⟨hneg, -⟩
      exact absurd hw (hneg hk).not_overflows
  · -- the turn is rounded, and the scaling is exact of a number that was not
    simp only [hm, Except.ok_bind, shift_of_small hscale]
    have hround : context.roundValue ((-1) ^ turns negative signed * m.value) = some b.value := by
      rw [roundValue_sign, hw, hbvalue]
      rfl
    constructor
    · rintro ⟨d, hd, hvalue⟩
      refine ⟨fun _ => ?_, hholds hd hvalue⟩
      have hexact := Context.exact_of_shift etiny_le_emax hb hround hd hvalue
      rw [← holdsValue_sign (turns negative signed)]
      exact ⟨b, hb, hexact⟩
    · rintro ⟨hneg, hshift⟩
      have hself : context.roundValue m.value = some m.value :=
        (Context.roundValue_eq_self_iff etiny_le_emax).mpr (hneg hk)
      rw [hself] at hw
      exact hresult (by rw [hbvalue, Option.some.inj hw]) hshift

/-- The signs of a fact are its turns. -/
theorem turns_eq :
    turns (isNegative (PyText.strip fact.rawText)) (fact.sign == some "-") = negations fact := by
  simp only [turns, negations, beq_iff_eq]

/-- **Exact values.**  The value of a fact is exact, or an error of the normalizer, exactly when the
context holds the number that its text denotes where it is negated, and the scaled one. -/
theorem exact_value_iff (repr : String → String) (fact : InlineFact) :
    ExactValue repr fact ↔ ∀ m, magnitude? fact = some m → Holds fact m.value := by
  cases hm : magnitude? fact with
  | none =>
      refine iff_of_true (.inl (rejected_of_magnitude? hm)) ?_
      rintro m ⟨⟩
  | some m =>
      unfold ExactValue Holds
      rw [parseFactValue_eq hm, handled_eq_normalization_iff]
      simp only [hm, Option.some.injEq, forall_eq', handled_eq_ok_iff, exists_eq_left',
        exists_and_left]
      rw [← turns_eq]
      split_ifs with hscale
      · rw [← scaled_of_large hscale]
        constructor
        · rintro (h | ⟨d, hd, -⟩)
          · exact h
          · exact absurd hd (scaled_ne_ok hscale d)
        · exact .inl
      · rw [← scaled_exact_iff hscale]
        exact or_iff_right (scaled_ne_invalid hscale)

end Scaled

/-- A figure of twenty-nine digits in parentheses. -/
def longFact : InlineFact where
  concept := "us-gaap:Assets"
  contextRef := "c1"
  unitRef := "usd"
  scale := 0
  decimals := none
  sign := none
  format := none
  rawText := "(12345678901234567890123456789)".toList
  spanId := "span"
  sectionId := "section"
  startChar := 0
  endChar := 31

/-- Its last digit is lost. -/
theorem long_fact_rounded (repr : String → String) :
    magnitude? longFact = some ⟨false, 12345678901234567890123456789, 0⟩
      ∧ parseFactValue repr longFact = .ok ⟨true, 1234567890123456789012345679, 1⟩ := by
  have hm : magnitude? longFact = some ⟨false, 12345678901234567890123456789, 0⟩ := by
    decide
  refine ⟨hm, ?_⟩
  rw [parseFactValue_eq hm, handled_eq_ok_iff]
  decide

/-- A long figure is stored with another value than the one reported. -/
theorem long_fact_not_exact : ¬ ExactValue id longFact := by
  obtain ⟨hm, hd⟩ := long_fact_rounded id
  rintro (⟨e, he⟩ | ⟨m, d, hm', hd', hvalue⟩)
  · rw [hd] at he
    cases he
  · rw [hm, Option.some.injEq] at hm'
    rw [hd, Except.ok.injEq] at hd'
    subst hm' hd'
    have hn : negations longFact = 1 := by decide
    rw [hn, show longFact.scale = 0 from rfl] at hvalue
    simp only [Decimal.value] at hvalue
    norm_num at hvalue

end Xbrl
