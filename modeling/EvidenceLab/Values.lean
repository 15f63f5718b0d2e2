/-
# Decimal quantities, timestamps and lineage

The value layer of the calculation engine (`values.py`, `rounding.py` and the parts of
`datetime` the engine relies on).

* Arithmetic runs under `calcContext`: 34 digits, half-even, every inexact-or-invalid condition
  that matters trapped.  A `Quantity` pairs a decimal with a typed unit, and its operations
  compose both.
* `canonicalDecimal` is the text a decimal is hashed as: one text for one number
  (`canonicalDecimal_eq_iff`), inside the digit and exponent bounds of the encoder.
* `AwareDatetime` is a wall clock with a UTC offset; everything the engine does with it goes
  through its instant.
-/
import EvidenceLab.ExceptRules
import EvidenceLab.Units
import EvidenceLab.DecimalText
import EvidenceLab.Calendar

namespace CalcEngine

open Decimal (Signal Context Rounding numDigits)

/-! ## Contexts -/

/-- `CALC_CONTEXT`. -/
def calcContext : Context := ⟨34, .halfEven, -999999, 999999, by decide⟩

/-- The calling thread's context: its precision and rounding rule; range and traps are the
defaults of `decimal`. -/
structure AmbientContext where
  prec : ℕ
  rounding : Rounding
  prec_pos : 0 < prec

/-- The ambient context as an arithmetic context. -/
def AmbientContext.context (amb : AmbientContext) : Context :=
  ⟨amb.prec, amb.rounding, -999999, 999999, amb.prec_pos⟩

/-- The name of the exception class a trapped condition raises. -/
def signalName : Signal → String
  | .invalidOperation => "InvalidOperation"
  | .divisionByZero => "DivisionByZero"
  | .overflow => "Overflow"

/-! ## Identifiers and values -/

/-- Letters and digits of ASCII. -/
def isAlnum (c : Char) : Bool :=
  ('A' ≤ c && c ≤ 'Z') || ('a' ≤ c && c ≤ 'z') || ('0' ≤ c && c ≤ '9')

/-- `SAFE_ID`: an alphanumeric character, then at most 127 of `A-Za-z0-9._:@-`. -/
def isSafeId (s : String) : Bool :=
  match s.toList with
  | [] => false
  | c :: cs => isAlnum c && decide (cs.length ≤ 127)
      && cs.all (fun d => isAlnum d || d == '.' || d == '_' || d == ':' || d == '@' || d == '-')

/-- `require_safe_id`, raising the exception class the caller names. -/
def requireSafeId (value field : String) (error : String → EngineError) : Except EngineError Unit :=
  if isSafeId value then .ok ()
  else .error (error (field
    ++ " must match '^[A-Za-z0-9][A-Za-z0-9._:@-]\x7b0,127\x7d$', got '" ++ value ++ "'"))

/-- `require_decimal` on a finite decimal: at most 34 digits. -/
def requireDecimal (value : Decimal) (field : String) : Except EngineError Unit :=
  if numDigits value.coeff ≤ calcContext.prec then .ok ()
  else .error (.valueType (field ++ " looks like a binary float converted to Decimal; "
    ++ "construct from a decimal string"))

/-- `canonical_decimal`: normalized in the calculation context, in plain notation. -/
def canonicalDecimal (value : Decimal) : Except Signal String := do
  let r ← calcContext.normalize value
  let text := r.fixedText
  return String.ofList (if text = ['-', '0'] ∨ text = ['0'] then ['0'] else text)

/-- An identifier is accepted if it is safe. -/
theorem requireSafeId_eq_ok_iff {value field : String} {error : String → EngineError} {u : Unit} :
    requireSafeId value field error = .ok u ↔ isSafeId value = true := by
  unfold requireSafeId
  split_ifs with h <;> simp [h]

/-- A number is accepted if it has few enough digits. -/
theorem requireDecimal_eq_ok_iff {value : Decimal} {field : String} {u : Unit} :
    requireDecimal value field = .ok u ↔ numDigits value.coeff ≤ calcContext.prec := by
  unfold requireDecimal
  split_ifs with h <;> simp [h]

/-- The bounds inside which a decimal is encoded: the digits of the calculation context and an
exponent of at most a quarter of a million either way. -/
structure Encodable (d : Decimal) : Prop where
  digits : numDigits d.coeff ≤ calcContext.prec
  exp_ge : -250000 ≤ d.exp
  exp_le : d.exp ≤ 250000

/-- A number that can be encoded fits the context. -/
theorem Encodable.holds {d : Decimal} (h : Encodable d) : calcContext.Holds d := by
  obtain ⟨hd, hlo, hhi⟩ := h
  refine ⟨hd, ?_, ?_⟩
  · simp only [Context.etiny, calcContext]
    omega
  · simp only [calcContext]
    omega

/-- The canonical text of an encodable decimal reads back as its value, and is the text of its
normal spelling unless it is zero. -/
theorem canonicalDecimal_spec {d : Decimal} (h : Encodable d) :
    ∃ t, canonicalDecimal d = .ok t ∧ Decimal.readFixed t.toList = d.value ∧
      ∃ r : Decimal, r.Normal ∧ r.value = d.value ∧
        t.toList = if r.value = 0 then ['0'] else r.fixedText := by
  obtain ⟨r, hr, hval, hnorm⟩ := Context.normalize_of_holds h.holds
  have hread := Decimal.readFixed_fixedText r
  have hread0 : ∀ neg : Bool, Decimal.readFixed (Decimal.fixedText ⟨neg, 0, 0⟩) = 0 := by
    intro neg
    rw [Decimal.readFixed_fixedText, Decimal.value_eq_zero_iff]
  have hzero : (r.fixedText = ['-', '0'] ∨ r.fixedText = ['0']) ↔ r.value = 0 := by
    constructor
    · rintro (ht | ht)
      · rw [← hread, ht]
        exact hread0 true
      · rw [← hread, ht]
        exact hread0 false
    · intro hv
      have hc := (Decimal.value_eq_zero_iff r).mp hv
      have he := hnorm.1 hc
      cases hneg : r.neg with
      | true =>
          left
          simp [Decimal.fixedText, Decimal.fixedBody, hneg, hc, he]
      | false =>
          right
          simp [Decimal.fixedText, Decimal.fixedBody, hneg, hc, he]
  refine ⟨String.ofList (if r.value = 0 then ['0'] else r.fixedText), ?_, ?_, r, hnorm, hval, ?_⟩
  · simp only [canonicalDecimal, hr, Except.ok_bind, Except.pure_eq_ok, hzero]
  · rw [String.toList_ofList]
    split_ifs with hv
    · rw [← hval, hv]
      exact hread0 false
    · rw [hread, hval]
  · rw [String.toList_ofList]

/-- **One text for one number.** -/
theorem canonicalDecimal_eq_iff {d d' : Decimal} (h : Encodable d) (h' : Encodable d') :
    canonicalDecimal d = canonicalDecimal d' ↔ d.value = d'.value := by
  obtain ⟨t, ht, hread, r, hnorm, hval, htext⟩ := canonicalDecimal_spec h
  obtain ⟨t', ht', hread', r', hnorm', hval', htext'⟩ := canonicalDecimal_spec h'
  rw [ht, ht', Except.ok.injEq]
  constructor
  · intro heq
    rw [← hread, ← hread', heq]
  · intro heq
    have hrr : r.value = r'.value := by rw [hval, hval', heq]
    apply String.toList_injective
    rw [htext, htext', hrr]
    by_cases hv : r'.value = 0
    · rw [if_pos hv, if_pos hv]
    · rw [if_neg hv, if_neg hv, hnorm.eq_of_value_eq hnorm' hrr (by rw [hrr]; exact hv)]

/-! ## Timestamps -/

/-- Microseconds from the start of year 1 to the end of year 9999. -/
def maxMicros : ℕ := 3652059 * Calendar.dayMicros

/-- A timezone-aware `datetime`: its wall clock, in microseconds since the start of year one, and
the UTC offset of its `tzinfo`. -/
structure AwareDatetime where
  wall : ℕ
  offset : ℤ
  wall_lt : wall < maxMicros
  offset_lt : |offset| < Calendar.dayMicros
  deriving DecidableEq

namespace AwareDatetime

/-- The instant, in microseconds of UTC since the start of year one.  Comparisons of aware
datetimes compare instants. -/
def instant (t : AwareDatetime) : ℤ := t.wall - t.offset

/-- The instants `datetime` can show in UTC: the years 1 to 9999. -/
def UtcRepresentable (t : AwareDatetime) : Prop := 0 ≤ t.instant ∧ t.instant < maxMicros

instance (t : AwareDatetime) : Decidable t.UtcRepresentable := inferInstanceAs (Decidable (_ ∧ _))

/-- The datetime of UTC at a representable instant. -/
def utcAt (t : AwareDatetime) (h : t.UtcRepresentable) : AwareDatetime where
  wall := t.instant.toNat
  offset := 0
  wall_lt := by
    obtain ⟨h1, h2⟩ := h
    omega
  offset_lt := by
    rw [abs_zero]
    decide

/-- `t.astimezone(UTC)`; it overflows outside the years 1 to 9999. -/
def astimezoneUtc (t : AwareDatetime) : Except EngineError AwareDatetime :=
  if h : t.UtcRepresentable then .ok (t.utcAt h)
  else .error (.overflowError "date value out of range")

/-- `max` of two datetimes: the second only when it is strictly later. -/
def max (s t : AwareDatetime) : AwareDatetime := if s.instant < t.instant then t else s

@[simp] theorem instant_utcAt (t : AwareDatetime) (h : t.UtcRepresentable) :
    (t.utcAt h).instant = t.instant := by
  have h1 := h.1
  rw [instant, utcAt, sub_zero, Int.toNat_of_nonneg h1]

/-- A time is known by its instant and its offset. -/
theorem ext_of_instant {t u : AwareDatetime} (hi : t.instant = u.instant)
    (ho : t.offset = u.offset) : t = u := by
  obtain ⟨w, o, hw, hol⟩ := t
  obtain ⟨w', o', hw', hol'⟩ := u
  simp only [instant] at hi ho
  subst ho
  simp only [mk.injEq, and_true]
  omega

/-- A time is moved to UTC where that has a date. -/
theorem astimezoneUtc_eq_ok_iff {t u : AwareDatetime} :
    t.astimezoneUtc = .ok u ↔ t.UtcRepresentable ∧ u.instant = t.instant ∧ u.offset = 0 := by
  unfold astimezoneUtc
  split_ifs with h
  · rw [Except.ok.injEq]
    constructor
    · rintro rfl
      exact ⟨h, instant_utcAt t h, rfl⟩
    · rintro ⟨-, hi, ho⟩
      exact ext_of_instant ((instant_utcAt t h).trans hi.symm) ho.symm
  · simp [h]

/-- Moving a time to UTC overflows where that has no date. -/
theorem astimezoneUtc_eq_error_iff {t : AwareDatetime} {e : EngineError} :
    t.astimezoneUtc = .error e ↔
      ¬ t.UtcRepresentable ∧ e = .overflowError "date value out of range" := by
  unfold astimezoneUtc
  split_ifs with h
  · simp [h]
  · simp [h, eq_comm]

end AwareDatetime

/-! ## Lineage -/

/-- `Provenance`. -/
inductive Provenance where
  | reported
  | assumption
  | derived
  | forecast
  deriving DecidableEq, Repr

def Provenance.text : Provenance → String
  | .reported => "reported"
  | .assumption => "assumption"
  | .derived => "derived"
  | .forecast => "forecast"

/-- `Lineage`: exactly one lineage field, selected by the provenance. -/
structure Lineage where
  provenance : Provenance
  sourceSpanId : Option String
  assumptionId : Option String
  forecastRunId : Option String
  derivedFrom : List String
  deriving DecidableEq, Repr

/-- Which lineage fields are present. -/
def Lineage.present (l : Lineage) : Bool × Bool × Bool × Bool :=
  (l.sourceSpanId.isSome, l.assumptionId.isSome, l.forecastRunId.isSome, !l.derivedFrom.isEmpty)

/-- Which lineage fields the provenance requires. -/
def Provenance.expected : Provenance → Bool × Bool × Bool × Bool
  | .reported => (true, false, false, false)
  | .assumption => (false, true, false, false)
  | .forecast => (false, false, true, false)
  | .derived => (false, false, false, true)

/-- `Lineage.__post_init__`. -/
def Lineage.make (l : Lineage) : Except EngineError Lineage := do
  Except.raiseIf (l.present ≠ l.provenance.expected)
    (.lineage (l.provenance.text ++ " lineage must carry exactly its own lineage field"))
  (l.sourceSpanId.toList ++ l.assumptionId.toList ++ l.forecastRunId.toList).forM
    (fun i => requireSafeId i "lineage id" .lineage)
  l.derivedFrom.forM (fun i => requireSafeId i "derived_from id" .lineage)
  Except.raiseIf (¬ l.derivedFrom.Nodup)
    (.lineage "derived_from must not repeat a parent")
  return l

/-- A lineage is accepted if it names exactly what its provenance expects. -/
theorem Lineage.make_eq_ok_iff {l l' : Lineage} :
    l.make = .ok l' ↔ l' = l ∧ l.present = l.provenance.expected
      ∧ (∀ i ∈ l.sourceSpanId.toList ++ l.assumptionId.toList ++ l.forecastRunId.toList,
          isSafeId i = true)
      ∧ (∀ i ∈ l.derivedFrom, isSafeId i = true) ∧ l.derivedFrom.Nodup := by
  simp only [Lineage.make, Except.bind_eq_ok_iff, Except.raiseIf_eq_ok_iff, Except.forM_eq_ok_iff,
    requireSafeId_eq_ok_iff, Except.pure_eq_ok, Except.ok.injEq, exists_const, ne_eq, not_not]
  tauto

/-! ## Quantities -/

/-- `Operator`, and the operation names of `_operate`. -/
inductive Operator where
  | add
  | sub
  | mul
  | div
  deriving DecidableEq, Repr

def Operator.text : Operator → String
  | .add => "add"
  | .sub => "sub"
  | .mul => "mul"
  | .div => "div"

/-- The operation of the calculation context. -/
def Operator.run : Operator → Decimal → Decimal → Except Signal Decimal
  | .add => calcContext.add
  | .sub => calcContext.subtract
  | .mul => calcContext.multiply
  | .div => calcContext.divide

/-- The operation of the unit algebra. -/
def Operator.unit : Operator → TypedUnit → TypedUnit → Except EngineError TypedUnit
  | .add => TypedUnit.add
  | .sub => TypedUnit.sub
  | .mul => TypedUnit.mul
  | .div => TypedUnit.div

/-- `_operate`: a trapped condition becomes a `FormulaError`. -/
def operate (op : Operator) (left right : Decimal) : Except EngineError Decimal :=
  match op.run left right with
  | .ok r => .ok r
  | .error s =>
    .error (.arithmetic op.text (op.text ++ " could not be completed exactly: " ++ signalName s))

/-- Results of operators have few enough digits. -/
theorem Operator.run_numDigits {op : Operator} {a b r : Decimal} (h : op.run a b = .ok r) :
    numDigits r.coeff ≤ calcContext.prec := by
  cases op with
  | add => exact calcContext.add_numDigits h
  | sub => exact calcContext.subtract_numDigits h
  | mul => exact calcContext.multiply_numDigits h
  | div => exact calcContext.divide_numDigits h

theorem operate_eq_ok_iff {op : Operator} {a b r : Decimal} :
    operate op a b = .ok r ↔ op.run a b = .ok r := by
  unfold operate
  cases op.run a b <;> simp

/-- `_operate` raises nothing but an arithmetic error. -/
theorem operate_error {op : Operator} {a b : Decimal} {e : EngineError}
    (h : operate op a b = .error e) : ∃ message, e = .arithmetic op.text message := by
  unfold operate at h
  cases hr : op.run a b with
  | ok r => simp [hr] at h
  | error s =>
      rw [hr] at h
      exact ⟨_, (Except.error.inj h).symm⟩

/-- `Quantity`: a finite decimal with a typed unit. -/
structure Quantity where
  value : Decimal
  unit : TypedUnit
  deriving DecidableEq

namespace Quantity

/-- `Quantity.__post_init__`. -/
def make (value : Decimal) (unit : TypedUnit) : Except EngineError Quantity := do
  requireDecimal value "Quantity.value"
  return ⟨value, unit⟩

/-- The four arithmetic operators of `Quantity`: the value first, then the unit. -/
def combine (op : Operator) (a b : Quantity) : Except EngineError Quantity := do
  let value ← operate op a.value b.value
  let unit ← op.unit a.unit b.unit
  make value unit

/-- `Quantity.quantize`. -/
def quantize (a : Quantity) (quantum : Decimal) : Except EngineError Quantity := do
  requireDecimal quantum "quantum"
  match calcContext.quantize a.value quantum with
  | .ok value => make value a.unit
  | .error _ => throw (.quantize a.value quantum)

/-- A quantity is accepted if its number has few enough digits. -/
theorem make_eq_ok_iff {value : Decimal} {unit : TypedUnit} {q : Quantity} :
    make value unit = .ok q ↔ numDigits value.coeff ≤ calcContext.prec ∧ q = ⟨value, unit⟩ := by
  simp only [make, Except.bind_eq_ok_iff, requireDecimal_eq_ok_iff, Except.pure_eq_ok,
    Except.ok.injEq, exists_const]
  rw [eq_comm]

/-- A combination returned: value and unit did, and they are its parts. -/
theorem combine_eq_ok_iff {op : Operator} {a b q : Quantity} :
    combine op a b = .ok q ↔
      op.run a.value b.value = .ok q.value ∧ op.unit a.unit b.unit = .ok q.unit := by
  simp only [combine, Except.bind_eq_ok_iff, operate_eq_ok_iff, make_eq_ok_iff]
  constructor
  · rintro ⟨v, hv, u, hu, -, rfl⟩
    exact ⟨hv, hu⟩
  · rintro ⟨hv, hu⟩
    exact ⟨q.value, hv, q.unit, hu, Operator.run_numDigits hv, rfl⟩

/-- Where the units combine, a combination raises nothing but an arithmetic error. -/
theorem combine_error {op : Operator} {a b : Quantity} {u : TypedUnit} {e : EngineError}
    (hu : op.unit a.unit b.unit = .ok u) (h : combine op a b = .error e) :
    ∃ message, e = .arithmetic op.text message := by
  unfold combine at h
  rcases Except.bind_eq_error_iff.mp h with h | ⟨v, hv, h⟩
  · exact operate_error h
  · have hd := Operator.run_numDigits (operate_eq_ok_iff.mp hv)
    rw [hu, Except.ok_bind, make_eq_ok_iff.mpr ⟨hd, rfl⟩] at h
    cases h

/-- A quantity is rounded as its number is. -/
theorem quantize_eq_ok_iff {a r : Quantity} {quantum : Decimal}
    (hq : numDigits quantum.coeff ≤ calcContext.prec) :
    a.quantize quantum = .ok r ↔
      calcContext.quantize a.value quantum = .ok r.value ∧ r.unit = a.unit := by
  unfold quantize
  rw [(requireDecimal_eq_ok_iff (u := ())).mpr hq, Except.ok_bind]
  cases hv : calcContext.quantize a.value quantum with
  | error s => simp
  | ok v =>
      rw [make_eq_ok_iff]
      constructor
      · rintro ⟨-, rfl⟩
        exact ⟨rfl, rfl⟩
      · rintro ⟨hr, hu⟩
        rw [Except.ok.injEq] at hr
        refine ⟨calcContext.quantize_numDigits hv, ?_⟩
        cases r
        simp_all

/-- The only error of a rounding is its own. -/
theorem quantize_error {a : Quantity} {quantum : Decimal} {e : EngineError}
    (hq : numDigits quantum.coeff ≤ calcContext.prec) (h : a.quantize quantum = .error e) :
    e = .quantize a.value quantum := by
  unfold quantize at h
  rw [(requireDecimal_eq_ok_iff (u := ())).mpr hq, Except.ok_bind] at h
  cases hv : calcContext.quantize a.value quantum with
  | error s =>
      rw [hv] at h
      exact (Except.error.inj h).symm
  | ok v =>
      rw [hv] at h
      simp only [make_eq_ok_iff.mpr ⟨calcContext.quantize_numDigits hv, rfl⟩] at h
      cases h

end Quantity

/-! ## Minor units -/

/-- The currencies with two decimal places. -/
def twoPlaceCurrencies : List String :=
  ["AED", "AFN", "ALL", "AMD", "ANG", "AOA", "ARS", "AUD", "AWG", "AZN", "BAM", "BBD", "BDT",
    "BGN", "BMD", "BND", "BOB", "BRL", "BSD", "BTN", "BWP", "BYN", "BZD", "CAD", "CDF", "CHF",
    "CNY", "COP", "CRC", "CUP", "CVE", "CZK", "DKK", "DOP", "DZD", "EGP", "ERN", "ETB", "EUR",
    "FJD", "FKP", "GBP", "GEL", "GHS", "GIP", "GMD", "GTQ", "GYD", "HKD", "HNL", "HTG", "HUF",
    "IDR", "ILS", "INR", "IRR", "JMD", "KES", "KGS", "KHR", "KYD", "KZT", "LAK", "LBP", "LKR",
    "LRD", "LSL", "MAD", "MDL", "MGA", "MKD", "MMK", "MNT", "MOP", "MRU", "MUR", "MVR", "MWK",
    "MXN", "MYR", "MZN", "NAD", "NGN", "NIO", "NOK", "NPR", "NZD", "PAB", "PEN", "PGK", "PHP",
    "PKR", "PLN", "QAR", "RON", "RSD", "RUB", "SAR", "SBD", "SCR", "SDG", "SEK", "SGD", "SHP",
    "SLE", "SOS", "SRD", "SSP", "STN", "SVC", "SYP", "SZL", "THB", "TJS", "TMT", "TOP", "TRY",
    "TTD", "TWD", "TZS", "UAH", "USD", "UYU", "UZS", "WST", "YER", "ZAR", "ZMW", "ZWG"]

/-- `_MINOR_UNITS`: decimal places of the known currencies. -/
def minorUnits (currency : String) : Option ℕ :=
  if currency ∈ twoPlaceCurrencies then some 2
  else if currency ∈ ["BIF", "CLP", "DJF", "GNF", "ISK", "JPY", "KMF", "KRW", "PYG", "RWF", "UGX",
    "VND", "VUV", "XAF", "XOF", "XPF"] then some 0
  else if currency ∈ ["BHD", "IQD", "JOD", "KWD", "LYD", "OMR", "TND"] then some 3
  else if currency ∈ ["CLF", "UYW"] then some 4
  else none

/-- `minor_unit_quantum`; `scaleb` runs in the ambient context. -/
def minorUnitQuantum (amb : AmbientContext) (currency : String) : Except EngineError Decimal :=
  match minorUnits currency with
  | none => .error (.unknownMinorUnit currency)
  | some digits =>
    match amb.context.scaleb (Decimal.ofNat 1) (-digits) with
    | .ok q => .ok q
    | .error s => .error (.decimalSignal s)

/-- The quantum is exact in every ambient context. -/
theorem minorUnitQuantum_eq (amb : AmbientContext) (currency : String) :
    minorUnitQuantum amb currency = match minorUnits currency with
      | none => .error (.unknownMinorUnit currency)
      | some digits => .ok ⟨false, 1, -digits⟩ := by
  unfold minorUnitQuantum
  cases h : minorUnits currency with
  | none => rfl
  | some digits =>
      have hdigits : digits ≤ 4 := by
        unfold minorUnits at h
        split_ifs at h <;> cases h <;> decide
      have hone : numDigits 1 = 1 := rfl
      have hprec := amb.prec_pos
      have hscale : amb.context.scaleb (Decimal.ofNat 1) (-digits) = .ok ⟨false, 1, -digits⟩ := by
        rw [Context.scaleb, Decimal.ofNat]
        simp only [zero_add]
        apply amb.context.finalize_of_fits
        · rw [hone]
          exact hprec
        · simp only [Context.etiny, AmbientContext.context, hone]
          omega
        · simp only [AmbientContext.context, hone]
          omega
      simp only [hscale]

end CalcEngine
