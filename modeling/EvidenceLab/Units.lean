/-
# Errors, typed units and fiscal periods

The vocabulary of the calculation engine (`errors.py`, `units.py`, `periods.py`).

* `EngineError` has one constructor for each exception class of `errors.py` that the
  modelled functions raise, with the message or the data the message shows, and five more
  for the built-in exceptions that can escape them.
* `TypedUnit` is the unit algebra: a kind, an ISO 4217 code exactly for currencies, and an
  optional per-period denominator.  `add`, `sub`, `mul` and `div` are the closed table.
* `FiscalPeriod` is a quarter or a year with a four-digit fiscal year.
-/
import EvidenceLab.DecimalArith

namespace CalcEngine

/-! ## Errors -/

/-- What a call of the engine can raise. -/
inductive EngineError where
  | unit (message : String)
  | unknownMinorUnit (currency : String)
  | period (message : String)
  | valueType (message : String)
  | nodeValidation (message : String)
  | lineage (message : String)
  | graph (message : String)
  | missingInput (missing : String) (message : String)
  | cycle (path : List String)
  | cutoffViolation (message : String)
  | formula (message : String)
  | arithmetic (operation : String) (message : String)
  | quantize (value quantum : Decimal)
  | iterationPolicy (message : String)
  | iterationConvergence (groupId : String) (iterations : ℕ) (residuals : List (String × Decimal))
  | scenario (message : String)
  | canonicalization (message : String)
  | snapshot (message : String)
  -- built-in exceptions that are no `CalculationEngineError`
  | keyError (key : String)
  | indexError (message : String)
  | valueError (message : String)
  | overflowError (message : String)
  | decimalSignal (signal : Decimal.Signal)
  deriving DecidableEq, Repr

/-! ## Fiscal periods -/

/-- Granularity of a fiscal period; also the denominator of a per-period rate. -/
inductive PeriodKind where
  | quarter
  | year
  deriving DecidableEq, Repr

/-- `PeriodKind.value`. -/
def PeriodKind.text : PeriodKind → String
  | .quarter => "quarter"
  | .year => "year"

/-- The bound `FiscalPeriod.__post_init__` puts on a fiscal year. -/
def FourDigitYear (y : ℕ) : Prop := 1000 ≤ y ∧ y ≤ 9999

instance (y : ℕ) : Decidable (FourDigitYear y) := inferInstanceAs (Decidable (_ ∧ _))

/-- A typed fiscal period: `FiscalQuarter` or `FiscalYear`. -/
inductive FiscalPeriod where
  | quarter (fiscalYear quarter : ℕ) (hyear : FourDigitYear fiscalYear)
      (hquarter : 1 ≤ quarter ∧ quarter ≤ 4)
  | year (fiscalYear : ℕ) (hyear : FourDigitYear fiscalYear)
  deriving DecidableEq

namespace FiscalPeriod

def kind : FiscalPeriod → PeriodKind
  | .quarter .. => .quarter
  | .year .. => .year

/-- `FY2024Q3` or `FY2024`. -/
def key : FiscalPeriod → String
  | .quarter y q _ _ => "FY" ++ toString y ++ "Q" ++ toString q
  | .year y _ => "FY" ++ toString y

/-- The quarters of a fiscal year; empty for a quarter, which has none. -/
def quarters : FiscalPeriod → List FiscalPeriod
  | .quarter .. => []
  | .year y hy =>
    [.quarter y 1 hy (by decide), .quarter y 2 hy (by decide), .quarter y 3 hy (by decide),
      .quarter y 4 hy (by decide)]

end FiscalPeriod

/-! ## Typed units -/

inductive UnitKind where
  | currency
  | count
  | percent
  | ratio
  deriving DecidableEq, Repr

/-- `UnitKind.value`. -/
def UnitKind.text : UnitKind → String
  | .currency => "currency"
  | .count => "count"
  | .percent => "percent"
  | .ratio => "ratio"

/-- `_ISO_4217`: three capital letters. -/
def isIso4217 (code : String) : Bool :=
  code.length == 3 && code.toList.all (fun c => 'A' ≤ c && c ≤ 'Z')

/-- `Unit.__post_init__`: a code exactly for currencies, and then a well-formed one. -/
def currencyOk (kind : UnitKind) (currency : Option String) : Bool :=
  match currency with
  | some code => kind == .currency && isIso4217 code
  | none => kind != .currency

/-- `Unit`: a kind, the currency code, and the period a rate is `per`. -/
structure TypedUnit where
  kind : UnitKind
  currency : Option String
  perPeriod : Option PeriodKind
  currency_ok : currencyOk kind currency = true
  deriving DecidableEq

namespace TypedUnit

/-- `RATIO`. -/
def ratio : TypedUnit := ⟨.ratio, none, none, rfl⟩

/-- The canonical key, such as `currency:USD/quarter`. -/
def key (u : TypedUnit) : String :=
  let base := match u.kind, u.currency with
    | .currency, some code => u.kind.text ++ ":" ++ code
    | _, _ => u.kind.text
  match u.perPeriod with
  | none => base
  | some p => base ++ "/" ++ p.text

def add (u v : TypedUnit) : Except EngineError TypedUnit :=
  if u = v then .ok u
  else .error (.unit ("cannot add " ++ u.key ++ " and " ++ v.key))

def sub (u v : TypedUnit) : Except EngineError TypedUnit :=
  if u = v then .ok u
  else .error (.unit ("cannot subtract " ++ v.key ++ " from " ++ u.key))

/-- `self.per_period or other.per_period`. -/
def joinPeriods (u v : TypedUnit) : Option PeriodKind := u.perPeriod <|> v.perPeriod

def mul (u v : TypedUnit) : Except EngineError TypedUnit :=
  if u.kind = .percent ∨ v.kind = .percent then
    .error (.unit ("percent must be normalized to a ratio before multiplying: "
      ++ u.key ++ " * " ++ v.key))
  else if u.perPeriod.isSome ∧ v.perPeriod.isSome then
    .error (.unit ("cannot multiply two rates: " ++ u.key ++ " * " ++ v.key))
  else if u.kind = .ratio then .ok ⟨v.kind, v.currency, u.joinPeriods v, v.currency_ok⟩
  else if v.kind = .ratio then .ok ⟨u.kind, u.currency, u.joinPeriods v, u.currency_ok⟩
  -- currency times count, in either order, keeps the code of the currency side
  else if u.kind = .currency ∧ v.kind = .count then
    .ok ⟨u.kind, u.currency, u.joinPeriods v, u.currency_ok⟩
  else if u.kind = .count ∧ v.kind = .currency then
    .ok ⟨v.kind, v.currency, u.joinPeriods v, v.currency_ok⟩
  else .error (.unit ("no unit for " ++ u.key ++ " * " ++ v.key))

/-- The table of quotient kinds, once the per-period denominator is settled. -/
def divKinds (u v : TypedUnit) (perPeriod : Option PeriodKind) : Except EngineError TypedUnit :=
  if v.kind = .ratio then .ok ⟨u.kind, u.currency, perPeriod, u.currency_ok⟩
  else if u.kind = .currency ∧ v.kind = .currency then
    if u.currency ≠ v.currency then
      .error (.unit ("cross-currency division: " ++ u.key ++ " / " ++ v.key))
    else .ok ⟨.ratio, none, perPeriod, rfl⟩
  else if u.kind = .currency ∧ v.kind = .count then
    .ok ⟨u.kind, u.currency, perPeriod, u.currency_ok⟩
  else if u.kind = .count ∧ v.kind = .count then .ok ⟨.ratio, none, perPeriod, rfl⟩
  else .error (.unit ("no unit for " ++ u.key ++ " / " ++ v.key))

def div (u v : TypedUnit) : Except EngineError TypedUnit :=
  if u.kind = .percent ∨ v.kind = .percent then
    .error (.unit ("percent must be normalized to a ratio before dividing: "
      ++ u.key ++ " / " ++ v.key))
  else if v.perPeriod.isSome then
    if u.perPeriod ≠ v.perPeriod then
      .error (.unit ("rate denominators differ: " ++ u.key ++ " / " ++ v.key))
    else u.divKinds v none
  else u.divKinds v u.perPeriod

/-- A currency unit carries its code. -/
theorem currency_isSome {u : TypedUnit} (h : u.kind = .currency) :
    ∃ code, u.currency = some code := by
  have hok := u.currency_ok
  cases hc : u.currency with
  | none => simp [currencyOk, hc, h] at hok
  | some code => exact ⟨code, rfl⟩

end TypedUnit

end CalcEngine
