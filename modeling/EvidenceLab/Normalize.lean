/-
# Normalized payloads

`normalize_payload` brings a proposed payload into the form of the contract: the period, the
dimensions and the qualifiers are put in order, each numeric field becomes a decimal text under one
shared exponent, and what is wrong without being fatal is recorded as a blocker in the payload
itself.
-/
import EvidenceLab.Citations
import EvidenceLab.Fingerprints
import EvidenceLab.IsoDates
import EvidenceLab.NumericText

namespace Extraction

namespace Normalize

/-! ## Failures -/

/-- What `normalize_payload` raises: a `ValueError` with its message, what `parse_numeric` raises,
the `TypeError` of a set that is asked for a list or a dictionary, or a signal of the decimal
arithmetic. -/
inductive Failure where
  | value (message : String)
  | numeric (f : Numeric.Failure)
  | unhashable
  | signal (s : Decimal.Signal)

/-- `except ValueError`. -/
def Failure.isValueError : Failure → Bool
  | .value _ => true
  | .numeric (.unknownSuffix _) => false
  | .numeric (.signal _) => false
  | .numeric _ => true
  | .unhashable => false
  | .signal _ => false

/-- `d in names` for a set of texts. -/
def oneOf (d : Doc) (names : List String) : Except Failure Bool :=
  match d with
  | .str s => .ok (names.contains s)
  | .arr _ => .error .unhashable
  | .obj _ => .error .unhashable
  | _ => .ok false

/-- `s.strip()`. -/
def stripped (s : String) : String := String.ofList (PyText.strip s.toList)

/-! ## Units and currencies -/

/-- The codes of `currency-codes.json`. -/
def currencyCodes : List String :=
  ["AED", "AFN", "ALL", "AMD", "AOA", "ARS", "AUD", "AWG", "AZN", "BAM", "BBD", "BDT",
    "BHD", "BIF", "BMD",
    "BND", "BOB", "BOV", "BRL", "BSD", "BTN", "BWP", "BYN", "BZD", "CAD", "CDF",
    "CHE", "CHF", "CHW",
    "CLF", "CLP", "CNY", "COP", "COU", "CRC", "CUP", "CVE", "CZK", "DJF", "DKK",
    "DOP", "DZD", "EGP",
    "ERN", "ETB", "EUR", "FJD", "FKP", "GBP", "GEL", "GHS", "GIP", "GMD", "GNF",
    "GTQ", "GYD", "HKD",
    "HNL", "HTG", "HUF", "IDR", "ILS", "INR", "IQD", "IRR", "ISK", "JMD", "JOD",
    "JPY", "KES", "KGS",
    "KHR", "KMF", "KPW", "KRW", "KWD", "KYD", "KZT", "LAK", "LBP", "LKR", "LRD",
    "LSL", "LYD", "MAD",
    "MDL", "MGA", "MKD", "MMK", "MNT", "MOP", "MRU", "MUR", "MVR", "MWK", "MXN",
    "MXV", "MYR", "MZN",
    "NAD", "NGN", "NIO", "NOK", "NPR", "NZD", "OMR", "PAB", "PEN", "PGK", "PHP",
    "PKR", "PLN", "PYG",
    "QAR", "RON", "RSD", "RUB", "RWF", "SAR", "SBD", "SCR", "SDG", "SEK", "SGD",
    "SHP", "SLE", "SOS",
    "SRD", "SSP", "STN", "SVC", "SYP", "SZL", "THB", "TJS", "TMT", "TND", "TOP",
    "TRY", "TTD", "TWD",
    "TZS", "UAH", "UGX", "USD", "USN", "UYI", "UYU", "UYW", "UZS", "VED", "VES",
    "VND", "VUV", "WST",
    "XAD", "XAF", "XAG", "XAU", "XBA", "XBB", "XBC", "XBD", "XCD", "XCG", "XDR",
    "XOF", "XPD", "XPF",
    "XPT", "XSU", "XTS", "XUA", "XXX", "YER", "ZAR", "ZMW", "ZWG"]

/-- `_ALIASES` of the units. -/
def unitAliases : List (String × String) :=
  [("count", "count"), ("currency", "currency"), ("pure", "pure"), ("ratio", "ratio"),
    ("shares", "shares"),
    ("customers", "customers"), ("percent", "percent"), ("percentage_points", "percentage_points"),
    ("%", "percent"), ("pct", "percent"), ("percentage", "percent"), ("pp", "percentage_points")]

/-- The text before the first slash. -/
def numerator (unit : List Char) : List Char := unit.takeWhile (· != '/')

/-- `canonical_unit` of a text. -/
def canonicalUnit (value : String) : List Char :=
  let text := PyText.strip value.toList
  let head := numerator text
  let rest := text.dropWhile (· != '/')
  if head.all fun c => c.toNat ≤ 127 then
    let upper := head.map Char.toUpper
    let lower := head.map Char.toLower
    if currencyCodes.any fun code => code.toList == upper then upper ++ rest
    else if lower = "currency".toList then lower ++ rest
    else
      match unitAliases.find? fun entry => rest.isEmpty && entry.1.toList == lower with
      | some entry => entry.2.toList
      | none => text
  else text

/-- `is_monetary_unit`. -/
def isMonetaryUnit (value : String) : Bool :=
  let head := numerator (canonicalUnit value)
  head == "currency".toList || currencyCodes.any fun code => code.toList == head

section Normalize

variable (repr : Doc → String)

/-- `_ISO_4217.fullmatch`. -/
def isIso4217 (s : String) : Bool :=
  s.toList.length == 3 && s.toList.all fun c => 'A' ≤ c && c ≤ 'Z'

/-- `normalize_currency`. -/
def normalizeCurrency (currency : Doc) (unit : String) :
    Except Failure (Option String × List String) :=
  match currency with
  | .null => .ok (none, if isMonetaryUnit unit then ["currency_missing_for_monetary"] else [])
  | .str s =>
      if isIso4217 s then .ok (some (String.ofList (s.toList.map Char.toUpper)), [])
      else .error (.value ("currency must be ISO-4217 alpha-3 or null: " ++ repr currency))
  | d => .error (.value ("currency must be ISO-4217 alpha-3 or null: " ++ repr d))

/-! ## Dimensions and qualifiers -/

/-- The keys of a dictionary in their order. -/
def sortedKeys (members : List (String × Doc)) : List String :=
  ((members.map Prod.fst).dedup).insertionSort (· ≤ ·)

def isText : Doc → Bool
  | .str _ => true
  | _ => false

/-- `normalize_dimensions`. -/
def normalizeDimensions (dimensions : Doc) : Except Failure (Doc × List String) :=
  match dimensions with
  | .null => .ok (.obj [], [])
  | .obj members =>
      let keys := sortedKeys members
      .ok (.obj ((keys.filter fun k => isText (dimensions.field k)).map fun k =>
        (k, dimensions.field k)),
        if keys.all fun k => isText (dimensions.field k) then [] else ["dimensions_non_string"])
  | _ => .error (.value "dimensions must be an object")

/-- `_normalize_qualifiers`. -/
def normalizeQualifiers (quals : Doc) : Except Failure Doc :=
  match quals with
  | .null => .ok (.obj [])
  | .obj members => .ok (.obj ((sortedKeys members).map fun k => (k, quals.field k)))
  | _ => .error (.value "qualifiers must be an object")

/-! ## Periods -/

def periodTypes : List String := ["instant", "duration", "trailing_window", "forecast"]

/-- `_normalize_date`. -/
def normalizeDate (value : String) : Except Failure String :=
  match Calendar.fromIsoFormat (PyText.strip value.toList) with
  | some d => .ok (String.ofList d.isoFormat)
  | none => .error (.value ("invalid ISO date: " ++ repr (.str value)))

/-- One of the dates of a period. -/
def dateEntry (period : Doc) (key : String) : Except Failure (List (String × Doc)) :=
  match period.field key with
  | .null => .ok []
  | d => do
      let text ← normalizeDate repr (d.toText repr)
      return [(key, .str text)]

/-- The fiscal period, as the issuer wrote it. -/
def fiscalEntry (period : Doc) : List (String × Doc) :=
  match period.get? "fiscal_period" with
  | none => []
  | some .null => [("fiscal_period", .null)]
  | some d =>
      let text := stripped (d.toText repr)
      [("fiscal_period", if text = "" then .null else .str text)]

/-- `_validate_shape`. -/
def validateShape (ptype : String) (period : Doc) : Except Failure Unit := do
  let has := fun key => (period.get? key).isSome
  Except.raiseIf (ptype = "instant" ∧ ¬ has "instant")
    (.value "instant period requires instant date")
  Except.raiseIf ((ptype = "duration" ∨ ptype = "trailing_window") ∧ ¬ (has "start" ∧ has "end"))
    (.value (ptype ++ " period requires start and end"))
  Except.raiseIf (ptype = "forecast" ∧ ¬ has "end" ∧ ¬ has "instant")
    (.value "forecast period requires end or instant")
  match period.field "start", period.field "end" with
  | .str start,
      .str stop => Except.raiseIf (stop < start) (.value "period.start must be <= period.end")
  | _, _ => .ok ()

/-- `normalize_period`. -/
def normalizePeriod (period : Doc) : Except Failure Doc :=
  match period with
  | .obj _ => do
      let known ← oneOf (period.field "type") periodTypes
      match known, period.field "type" with
      | true, .str ptype =>
          let starts ← dateEntry repr period "instant"
          let middles ← dateEntry repr period "start"
          let ends ← dateEntry repr period "end"
          let out :=
            Doc.obj (("type", .str ptype) :: (starts ++ middles ++ ends ++ fiscalEntry repr period))
          validateShape ptype out
          return out
      | _, d => .error (.value ("unknown period.type: " ++ repr d))
  | _ => .error (.value "period must be an object")

/-! ## Blockers -/

/-- Texts appended to others, each of them once. -/
def mergeTexts (merged : List String) (texts : List String) : List String :=
  texts.foldl (fun merged text => if text ∈ merged then merged else merged ++ [text]) merged

/-- The blockers that a payload carries. -/
def carried (out : Doc) : List String := (out.listAt normalizerBlockersKey).map (Doc.toText repr)

/-- `_record_blockers`. -/
def recordBlockers (out : Doc) (blockers : List String) : Doc :=
  let merged := mergeTexts [] (carried repr out ++ blockers)
  if merged = [] then out else Doc.set normalizerBlockersKey (.arr (merged.map .str)) out

/-- `scale_blockers`. -/
def scaleBlockers (scale : Doc) : Except Failure (List String) :=
  match scale with
  | .null => .ok []
  | d =>
      match d.int? with
      | none => .ok ["scale must be int"]
      | some i =>
          if i < 0 ∨ 12 < i then
            match Fingerprint.formatInt i with
            | .ok text => .ok ["scale out of range: " ++ String.ofList text]
            | .error _ =>
                .error (.value "Exceeds the limit (4300 digits) for integer string conversion")
          else .ok []

/-! ## Numeric fields -/

variable (isWord : Char → Bool)

/-- `_effective_scale`. -/
def effectiveScale (parsed : ℕ) (hint : Option ℤ) : ℤ := if parsed ≠ 0 then parsed else hint.getD 0

/-- The Python name of a type, as an error shows it. -/
def typeName : Doc → String
  | .null => "NoneType"
  | .bool _ => "bool"
  | .num _ => "float"
  | .str _ => "str"
  | .arr _ => "list"
  | .obj _ => "dict"

/-- A numeric text as mantissa and exponent. -/
def readText (hint : Option ℤ) (text : String) : Except Failure (Decimal × ℤ) :=
  match Numeric.parseNumeric isWord text.toList with
  | .ok (value, scale, _) => .ok (value, effectiveScale scale hint)
  | .error f => .error (.numeric f)

/-- An integer as a decimal. -/
def ofInt (i : ℤ) : Decimal := ⟨decide (i < 0), i.natAbs, 0⟩

/-- What a numeric field is read from: itself, or the raw text for a shape with one value. -/
def fieldSource (out : Doc) (single : Bool) (key : String) : Doc :=
  match out.field key, single with
  | .null, true => out.field "raw_value"
  | d, _ => d

/-- A numeric field as mantissa and exponent, from its source. -/
def readSource (hint : Option ℤ) (key : String) (source : Doc) : Except Failure (Decimal × ℤ) :=
  match source with
  | .null => .error (.value ("missing numeric field " ++ key))
  | .str text => readText isWord hint text
  | d =>
      match d.int? with
      | some i => .ok (ofInt i, effectiveScale 0 hint)
      | none => .error (.value (key ++ " must be a decimal string (got " ++ typeName d ++ ")"))

/-- One numeric field as mantissa and exponent. -/
def readField (out : Doc) (single : Bool) (hint : Option ℤ) (key : String) :
    Except Failure (Decimal × ℤ) :=
  readSource isWord hint key (fieldSource out single key)

/-- A signal of the arithmetic, raised. -/
def raised {α : Type} (result : Except Decimal.Signal α) : Except Failure α :=
  match result with
  | .ok d => .ok d
  | .error s => .error (.signal s)

/-- The least exponent of the fields. -/
def commonScale {α : Type} (mantissas : List (α × ℤ)) : ℤ :=
  match mantissas with
  | [] => 0
  | (_, scale) :: rest => rest.foldl (fun least m => min least m.2) scale

/-- One mantissa restated against the common exponent. -/
def restate (common : ℤ) (m : Decimal × ℤ) : Except Failure Decimal :=
  if m.2 ≠ common then raised (Retrieval.defaultContext.scaleb m.1 (m.2 - common)) else .ok m.1

/-- `<` of two decimals. -/
def lt (a b : Decimal) : Bool := !b.le a

/-- An inverted, wholly negative range is turned around. -/
def orderBounds (keys : List String) (restated : List Decimal) : List Decimal :=
  match restated with
  | [low, high] => if keys = ["low", "high"] ∧ lt high low ∧
      lt low (Decimal.ofNat 0) then [high, low] else [low, high]
  | _ => restated

/-- Trailing zeros and a trailing point off, where there is a point. -/
def stripZeros (text : List Char) : List Char :=
  if '.' ∈ text then ((text.rdropWhile (· == '0')).rdropWhile (· == '.')) else text

/-- The value that `format_decimal` writes. -/
def normalized (value : Decimal) : Except Failure Decimal :=
  if value.coeff ≠ 0 then raised (Retrieval.defaultContext.normalize value)
    else .ok (Decimal.ofNat 0)

/-- `format_decimal`. -/
def formatDecimal (value : Decimal) : Except Failure (List Char) := do
  let normalized ← normalized value
  let text := stripZeros normalized.fixedText
  return if text = [] then ['0'] else text

/-- A sign, as the payload spells it. -/
def signName : Numeric.SignWord → String
  | .positive => "positive"
  | .negative => "negative"
  | .zero => "zero"

/-- The blockers of a declared sign. -/
def signBlockers (declared : Doc) (derived : String) : Except Failure (List String) := do
  let known ← oneOf declared ["positive", "negative", "zero"]
  match known, declared with
  | true, .str s =>
      return if s ≠ derived
        then ["sign contradicts value: declared " ++ s ++ ", value is " ++ derived] else []
  | _, .null => return []
  | _, d => return ["sign must be positive/negative/zero: " ++ repr d]

/-- The fields written under their keys. -/
def setFields (out : Doc) (entries : List (String × Doc)) : Doc :=
  entries.foldl (fun out e => Doc.set e.1 e.2 out) out

/-- The declared exponent, when it is a plausible one. -/
def scaleHint (declared : Doc) (blockers : List String) : Option ℤ :=
  if blockers = [] then declared.int? else none

/-- The unit, which a numeric payload must have. -/
def requiredUnit (out : Doc) : Except Failure String :=
  match out.field "unit" with
  | .str s => if stripped s = "" then .error (.value "unit required for numeric payloads")
      else .ok (stripped s)
  | _ => .error (.value "unit required for numeric payloads")

/-- The document with its unit, and with its currency where it declares one. -/
def withUnit (unit : String) (currency : Option String) (out : Doc) : Doc :=
  match currency with
  | some code => Doc.set "currency" (.str code) (Doc.set "unit" (.str unit) out)
  | none => Doc.set "unit" (.str unit) out

/-- The document with its numeric fields and, unless the declared one was refused, their exponent.
-/
def withFigures (keys : List String) (texts : List (List Char)) (blockers : List String)
    (common : ℤ) (out : Doc) : Doc :=
  let out := setFields out (keys.zip (texts.map fun text => .str (String.ofList text)))
  if blockers = [] then Doc.set "scale" (.num (toString common)) out else out

/-- The sign of the first bound. -/
def derivedSign (ordered : List Decimal) : String :=
  signName (Numeric.signWord (ordered.headD (Decimal.ofNat 0)))

/-- `_normalize_numeric_fields`. -/
def normalizeNumericFields (keys : List String) (out : Doc) : Except Failure Doc := do
  let unit ← requiredUnit out
  let currency ← normalizeCurrency repr (out.field "currency") unit
  let out := withUnit unit currency.1 out
  let blockers ← scaleBlockers (out.field "scale")
  let mantissas ← keys.mapM
    (readField isWord out (keys.length = 1) (scaleHint (out.field "scale") blockers))
  let restated ← mantissas.mapM (restate (commonScale mantissas))
  let ordered := orderBounds keys restated
  let texts ← ordered.mapM formatDecimal
  let out := withFigures keys texts blockers (commonScale mantissas) out
  let signs ← signBlockers repr (out.field "sign") (derivedSign ordered)
  return recordBlockers repr (Doc.set "sign" (.str (derivedSign ordered)) out)
    (blockers ++ signs ++ currency.2)

/-! ## The payload -/

def driverCategories : List String :=
  ["price", "volume", "mix", "acquisition", "retention", "usage", "seats", "fx", "services",
  "cost", "other"]

/-- A text that must not be blank, stripped. -/
def requiredText (key message : String) (out : Doc) : Except Failure Doc :=
  match out.field key with
  | .str s => if stripped s = "" then .error (.value message)
      else .ok (Doc.set key (.str (stripped s)) out)
  | _ => .error (.value message)

/-- The keys of the numeric fields of a guidance shape. -/
def shapeKeys : List (String × List String) :=
  [("point", ["value"]), ("range", ["low", "high"]), ("floor", ["low"]), ("ceiling", ["high"])]

/-- The part of `normalize_payload` for a guidance. -/
def normalizeGuidance (out : Doc) : Except Failure Doc := do
  let out ← match out.field "shape" with
    | .str "qualitative" => requiredText "text" "qualitative guidance requires text" out
    | .str shape =>
        match shapeKeys.find? fun entry => entry.1 == shape with
        | some (_, keys) => normalizeNumericFields repr isWord keys out
        | none => .error (.value ("unknown guidance shape: " ++ repr (.str shape)))
    | d => .error (.value ("unknown guidance shape: " ++ repr d))
  return Doc.set "reported_or_derived" (.str "management_assertion") out

/-- The targets of a driver: their texts in order, each of them once. -/
def normalizeTargets (targets : Doc) : Except Failure Doc :=
  match targets with
  | .arr (x :: xs) =>
      .ok (.arr (((((x :: xs).map (Doc.toText repr)).dedup).insertionSort (· ≤ ·)).map .str))
  | _ => .error (.value "revenue_driver requires target_metric_ids")

/-- The part of `normalize_payload` for a revenue driver. -/
def normalizeDriver (out : Doc) : Except Failure Doc := do
  let known ← oneOf (out.field "category") driverCategories
  Except.raiseIf (known = false)
    (.value ("unknown revenue_driver category: " ++ repr (out.field "category")))
  let out ← requiredText "description" "revenue_driver requires description" out
  let direction := (out.get? "direction").getD (.str "unknown")
  let known ← oneOf direction ["positive", "negative", "mixed", "unknown"]
  Except.raiseIf (known = false) (.value ("unknown direction: " ++ repr direction))
  let out := Doc.set "direction" direction out
  let targets ← normalizeTargets repr (out.field "target_metric_ids")
  let out := Doc.set "target_metric_ids" targets out
  return Doc.set "reported_or_derived" (.str "management_assertion") out

/-- The period, where there is one. -/
def setPeriod (out : Doc) : Except Failure Doc :=
  match out.get? "period" with
  | some period => do
      let period ← normalizePeriod repr period
      return Doc.set "period" period out
  | none => .ok out

/-- The dimensions, with their blockers. -/
def setDimensions (out : Doc) : Except Failure Doc := do
  let (dimensions, blockers) ← normalizeDimensions (out.field "dimensions")
  return recordBlockers repr (Doc.set "dimensions" dimensions out) blockers

def setQualifiers (out : Doc) : Except Failure Doc := do
  let qualifiers ← normalizeQualifiers (out.field "qualifiers")
  return Doc.set "qualifiers" qualifiers out

/-- The checks at the head of `normalize_payload`. -/
def checkKind (out : Doc) : Except Failure Doc := do
  let known ← oneOf (out.field "kind") ["kpi", "guidance", "revenue_driver"]
  Except.raiseIf (known = false) (.value ("unknown kind: " ++ repr (out.field "kind")))
  match out.field "raw_value" with
  | .str raw => return Doc.set "raw_value" (.str raw) out
  | _ => .error (.value "raw_value must be a string")

/-- What the kinds share. -/
def normalizeShared (out : Doc) : Except Failure Doc := do
  let out ← checkKind repr out
  let out ← setPeriod repr out
  let out ← setDimensions repr out
  setQualifiers out

/-- The part of `normalize_payload` for the kind of the payload. -/
def normalizeKind (out : Doc) : Except Failure Doc :=
  match out.field "kind" with
  | .str "kpi" => normalizeNumericFields repr isWord ["value"] out
  | .str "guidance" => normalizeGuidance repr isWord out
  | _ => normalizeDriver repr out

/-- `normalize_payload`. -/
def normalizePayload (raw : Doc) : Except Failure Doc :=
  match raw with
  | .obj _ => do
      let out ← normalizeShared repr (Doc.set "schema_version" (.str "extraction-payload/v1") raw)
      let out ← normalizeKind repr isWord out
      return Doc.set "_normalizer_version" (.str "normalize/v2") out
  | _ => .error (.value "payload must be an object")

end Normalize

end Normalize

/-! ## Fields that are settled -/

/-- The field is there, and each of its entries holds the value. -/
def Doc.Settled (key : String) (v : Doc) : Doc → Prop
  | .obj members => (members.any (·.1 == key)) = true ∧ ∀ m ∈ members, m.1 = key → m.2 = v
  | _ => False

namespace Doc

variable {key key' : String} {v v' d : Doc}

/-- Writing a key keeps an object an object. -/
theorem isObj_set (h : d.isObj = true) : (Doc.set key v d).isObj = true := by
  cases d with
  | obj members =>
      rw [Doc.set]
      split_ifs <;> rfl
  | _ => cases h

/-- A key that is written is settled. -/
theorem settled_set (h : d.isObj = true) : Settled key v (Doc.set key v d) := by
  cases d with
  | obj members =>
      rw [Doc.set]
      split_ifs with hany
      · refine ⟨?_, ?_⟩
        · obtain ⟨m, hm, hkey⟩ := List.any_eq_true.mp hany
          refine List.any_eq_true.mpr ⟨(key, v), List.mem_map.mpr ⟨m, hm, if_pos hkey⟩, by simp⟩
        · intro m hm hkey
          obtain ⟨m', hm', rfl⟩ := List.mem_map.mp hm
          by_cases h' : (m'.1 == key) = true
          · rw [if_pos h']
          · rw [if_neg h'] at hkey
            exact absurd (by simpa using hkey) h'
      · refine ⟨by simp, ?_⟩
        intro m hm hkey
        rcases List.mem_append.mp hm with hm | hm
        · exact absurd (List.any_eq_true.mpr ⟨m, hm, by simpa using hkey⟩) hany
        · rw [List.mem_singleton.mp hm]
  | _ => cases h

theorem Settled.isObj (h : Settled key v d) : d.isObj = true := by
  cases d with
  | obj members => rfl
  | _ => exact absurd h (by simp [Settled])

/-- Writing the value again changes nothing. -/
theorem Settled.set_eq (h : Settled key v d) : Doc.set key v d = d := by
  cases d with
  | obj members =>
      obtain ⟨hany, hall⟩ := h
      rw [Doc.set, if_pos hany]
      congr 1
      conv_rhs => rw [← List.map_id members]
      apply List.map_congr_left
      intro m hm
      by_cases hkey : (m.1 == key) = true
      · rw [if_pos hkey]
        have hkey' : m.1 = key := by simpa using hkey
        rw [← hkey', ← hall m hm hkey']
        rfl
      · rw [if_neg hkey]
        rfl
  | _ => exact absurd h (by simp [Settled])

theorem Settled.get? (h : Settled key v d) : d.get? key = some v := by
  cases d with
  | obj members =>
      obtain ⟨hany, hall⟩ := h
      have hsome : (members.find? fun kv => kv.1 == key).isSome := by
        rw [List.find?_isSome]
        exact List.any_eq_true.mp hany
      obtain ⟨m, hm⟩ := Option.isSome_iff_exists.mp hsome
      rw [Doc.get?, hm, Option.map_some,
        hall m (List.mem_of_find?_eq_some hm) (by simpa using List.find?_some hm)]
  | _ => exact absurd h (by simp [Settled])

/-- A settled field is read as it was written. -/
theorem Settled.field (h : Settled key v d) : d.field key = v := by
  rw [Doc.field, h.get?]
  rfl

/-- Writing another key keeps a settled one. -/
theorem Settled.set_of_ne (hne : key ≠ key') (h : Settled key v d) :
    Settled key v (Doc.set key' v' d) := by
  cases d with
  | obj members =>
      obtain ⟨hany, hall⟩ := h
      rw [Doc.set]
      split_ifs with hany'
      · obtain ⟨m, hm, hkey⟩ := List.any_eq_true.mp hany
        have hkey' : m.1 = key := by simpa using hkey
        refine ⟨List.any_eq_true.mpr ⟨m, List.mem_map.mpr ⟨m, hm, if_neg (by simp [hkey', hne])⟩,
          hkey⟩, ?_⟩
        intro m hm hk
        obtain ⟨m', hm', rfl⟩ := List.mem_map.mp hm
        by_cases h' : (m'.1 == key') = true
        · rw [if_pos h'] at hk
          exact absurd hk.symm hne
        · rw [if_neg h'] at hk ⊢
          exact hall m' hm' hk
      · refine ⟨by rw [List.any_append, hany, Bool.true_or], ?_⟩
        intro m hm hk
        rcases List.mem_append.mp hm with hm | hm
        · exact hall m hm hk
        · rw [List.mem_singleton.mp hm] at hk
          exact absurd hk.symm hne
  | _ => exact absurd h (by simp [Settled])

/-- Writing a key does not change the others. -/
theorem get?_set_of_ne (hne : key ≠ key') : (Doc.set key v d).get? key' = d.get? key' := by
  cases d with
  | obj members =>
      rw [Doc.set]
      split_ifs with hany
      · clear hany
        induction members with
        | nil => rfl
        | cons m members ih =>
            by_cases hm : m.1 = key
            · simpa [Doc.get?, hm, hne] using ih
            · by_cases hm' : m.1 = key'
              · simp [Doc.get?, hm', Ne.symm hne]
              · simpa [Doc.get?, hm, hm'] using ih
      · simp only [Doc.get?, List.find?_append]
        rw [show ([(key, v)].find? fun kv => kv.1 == key') = none by simp [hne], Option.or_none]
  | _ => rfl

/-- Two documents agree on all but some fields. -/
def Agree (keys : List String) (d d' : Doc) : Prop := ∀ key, key ∉ keys → d'.get? key = d.get? key

theorem agree_set : Agree [key] d (Doc.set key v d) := fun _ h =>
  get?_set_of_ne fun heq => h (by simp [heq])

theorem Agree.refl (keys : List String) (d : Doc) : Agree keys d d := fun _ _ => rfl

/-- Documents that agree outside two lists of keys agree outside both. -/
theorem Agree.trans {keys keys' : List String} {d₁ d₂ d₃ : Doc} (h : Agree keys d₁ d₂)
    (h' : Agree keys' d₂ d₃) :
    Agree (keys ++ keys') d₁ d₃ := by
  intro key hkey
  rw [List.mem_append, not_or] at hkey
  rw [h' key hkey.2, h key hkey.1]

/-- Agreeing outside some keys is agreeing outside more. -/
theorem Agree.mono {keys keys' : List String} (h : Agree keys d v) (hsub : keys ⊆ keys') :
    Agree keys' d v :=
  fun key hkey => h key fun hmem => hkey (hsub hmem)

/-- Documents that agree outside some keys have the other fields in common. -/
theorem Agree.field {keys : List String} (h : Agree keys d v) (hkey : key ∉ keys) :
    v.field key = d.field key := by
  rw [Doc.field, Doc.field, h key hkey]

end Doc

namespace Normalize

/-! ## What each part writes -/

section Normalize

variable {repr : Doc → String} {isWord : Char → Bool} {d out out' : Doc}

/-- Recording blockers writes one key. -/
theorem agree_recordBlockers (blockers : List String) :
    Doc.Agree [normalizerBlockersKey] d (recordBlockers repr d blockers) := by
  unfold recordBlockers
  simp only
  split_ifs
  · exact Doc.Agree.refl _ _
  · exact Doc.agree_set

theorem isObj_recordBlockers (blockers : List String) (h : d.isObj = true) :
    (recordBlockers repr d blockers).isObj = true := by
  unfold recordBlockers
  simp only
  split_ifs
  · exact h
  · exact Doc.isObj_set h

/-- A payload passes with a known kind and a raw text. -/
theorem checkKind_eq_ok (h : checkKind repr d = .ok out) :
    oneOf (d.field "kind") ["kpi", "guidance", "revenue_driver"] = .ok true
      ∧ ∃ raw, d.field "raw_value" = .str raw ∧ out = Doc.set "raw_value" (.str raw) d := by
  simp only [checkKind, Except.bind_eq_ok_iff, Except.raiseIf_eq_ok_iff, Bool.not_eq_false] at h
  obtain ⟨_, hkind, -, rfl, h⟩ := h
  refine ⟨hkind, ?_⟩
  split at h
  next raw hraw => exact ⟨raw, hraw, (Except.ok.inj h).symm⟩
  next => cases h

/-- The period is normalized where there is one. -/
theorem setPeriod_eq_ok (h : setPeriod repr d = .ok out) : (d.get? "period" = none ∧ out = d)
    ∨ ∃ period period', d.get? "period" = some period ∧ normalizePeriod repr period = .ok period'
      ∧ out = Doc.set "period" period' d := by
  unfold setPeriod at h
  split at h
  next period hperiod =>
      obtain ⟨period', hp, hout⟩ := Except.bind_eq_ok_iff.mp h
      exact Or.inr ⟨period, period', hperiod, hp, (Except.ok.inj hout).symm⟩
  next hperiod => exact Or.inl ⟨hperiod, (Except.ok.inj h).symm⟩

/-- The dimensions are normalized, and their blockers recorded. -/
theorem setDimensions_eq_ok (h : setDimensions repr d = .ok out) : ∃ dimensions blockers,
    normalizeDimensions (d.field "dimensions") = .ok (dimensions, blockers)
      ∧ out = recordBlockers repr (Doc.set "dimensions" dimensions d) blockers := by
  obtain ⟨⟨dimensions, blockers⟩, hd, hout⟩ := Except.bind_eq_ok_iff.mp h
  exact ⟨dimensions, blockers, hd, (Except.ok.inj hout).symm⟩

/-- The qualifiers are normalized. -/
theorem setQualifiers_eq_ok (h : setQualifiers d = .ok out) : ∃ qualifiers,
    normalizeQualifiers (d.field "qualifiers") = .ok qualifiers ∧
    out = Doc.set "qualifiers" qualifiers d := by
  obtain ⟨qualifiers, hq, hout⟩ := Except.bind_eq_ok_iff.mp h
  exact ⟨qualifiers, hq, (Except.ok.inj hout).symm⟩

/-- The shared normalizer runs its four steps in order. -/
theorem normalizeShared_eq_ok (h : normalizeShared repr d = .ok out) :
    ∃ d₁ d₂ d₃, checkKind repr d = .ok d₁
    ∧ setPeriod repr d₁ = .ok d₂ ∧ setDimensions repr d₂ = .ok d₃ ∧ setQualifiers d₃ = .ok out := by
  simp only [normalizeShared, Except.bind_eq_ok_iff] at h
  obtain ⟨d₁, h₁, d₂, h₂, d₃, h₃, h₄⟩ := h
  exact ⟨d₁, d₂, d₃, h₁, h₂, h₃, h₄⟩

/-- The keys that `normalizeShared` may change. -/
def sharedKeys : List String := ["period", "dimensions", normalizerBlockersKey, "qualifiers"]

/-- The check of the kind changes no field. -/
theorem agree_checkKind (h : checkKind repr d = .ok out) : Doc.Agree [] d out := by
  obtain ⟨-, raw, hraw, rfl⟩ := checkKind_eq_ok h
  intro key _
  by_cases hkey : "raw_value" = key
  · subst hkey
    have hget : d.get? "raw_value" = some (.str raw) := by
      rw [Doc.field] at hraw
      cases hd : d.get? "raw_value" with
      | none =>
          rw [hd] at hraw
          cases hraw
      | some v =>
          rw [hd] at hraw
          exact congrArg some hraw
    have hobj : d.isObj = true := by
      cases d with
      | obj members => rfl
      | _ => cases hget
    rw [(Doc.settled_set hobj).get?, hget]
  · exact Doc.get?_set_of_ne hkey

/-- The head leaves the other fields alone. -/
theorem agree_normalizeShared (h : normalizeShared repr d = .ok out) :
    Doc.Agree sharedKeys d out := by
  obtain ⟨d₁, d₂, d₃, h₁, h₂, h₃, h₄⟩ := normalizeShared_eq_ok h
  have a₁ := agree_checkKind h₁
  have a₂ : Doc.Agree ["period"] d₁ d₂ := by
    rcases setPeriod_eq_ok h₂ with ⟨-, rfl⟩ | ⟨_, _, -, -, rfl⟩
    · exact Doc.Agree.refl _ _
    · exact Doc.agree_set
  have a₃ : Doc.Agree (["dimensions"] ++ [normalizerBlockersKey]) d₂ d₃ := by
    obtain ⟨_, blockers, -, rfl⟩ := setDimensions_eq_ok h₃
    exact Doc.agree_set.trans (agree_recordBlockers blockers)
  have a₄ : Doc.Agree ["qualifiers"] d₃ out := by
    obtain ⟨_, -, rfl⟩ := setQualifiers_eq_ok h₄
    exact Doc.agree_set
  exact ((a₁.trans a₂).trans a₃).trans a₄

/-! ## The numeric part -/

/-- The keys of numeric fields. -/
structure NumericKeys (keys : List String) : Prop where
  subset : keys ⊆ ["value", "low", "high"]
  nodup : keys.Nodup
  ne_nil : keys ≠ []

/-- What the numeric part has computed when it returns. -/
structure NumericRun (repr : Doc → String) (isWord : Char → Bool) (keys : List String)
    (d : Doc) where
  unit : String
  currency : Option String × List String
  blockers : List String
  mantissas : List (Decimal × ℤ)
  restated : List Decimal
  texts : List (List Char)
  signs : List String
  unit_eq : requiredUnit d = .ok unit
  currency_eq : normalizeCurrency repr (d.field "currency") unit = .ok currency
  blockers_eq : scaleBlockers (d.field "scale") = .ok blockers
  mantissas_eq :
    keys.mapM (readField isWord d (keys.length = 1) (scaleHint (d.field "scale") blockers))
      = .ok mantissas
  restated_eq : mantissas.mapM (restate (commonScale mantissas)) = .ok restated
  texts_eq : (orderBounds keys restated).mapM formatDecimal = .ok texts
  signs_eq :
    signBlockers repr (d.field "sign") (derivedSign (orderBounds keys restated)) = .ok signs

namespace NumericRun

variable {keys : List String} (r : NumericRun repr isWord keys d)

/-- The bounds in their order. -/
def ordered : List Decimal := orderBounds keys r.restated

/-- The document with its figures. -/
def figures : Doc :=
  withFigures keys r.texts r.blockers (commonScale r.mantissas) (withUnit r.unit r.currency.1 d)

/-- The document that is returned. -/
def result : Doc :=
  recordBlockers repr (Doc.set "sign" (.str (derivedSign r.ordered)) r.figures)
    (r.blockers ++ r.signs ++ r.currency.2)

end NumericRun

/-- The unit and the currency are written and nothing else. -/
theorem agree_withUnit (unit : String) (currency : Option String) :
    Doc.Agree ["unit", "currency"] d (withUnit unit currency d) := by
  cases currency with
  | none => exact Doc.agree_set.mono (by simp)
  | some code => exact Doc.agree_set.trans Doc.agree_set

/-- Writing fields changes these only. -/
theorem agree_setFields (entries : List (String × Doc)) :
    Doc.Agree (entries.map Prod.fst) d (setFields d entries) := by
  induction entries generalizing d with
  | nil => exact Doc.Agree.refl _ _
  | cons e entries ih => exact Doc.agree_set.trans ih

/-- The figures and their scale are written and nothing else. -/
theorem agree_withFigures (keys : List String) (texts : List (List Char)) (blockers : List String)
    (common : ℤ) :
    Doc.Agree (keys ++ ["scale"]) d (withFigures keys texts blockers common d) := by
  have hfields :
      Doc.Agree keys d
        (setFields d (keys.zip (texts.map fun text => .str (String.ofList text)))) := by
    refine (agree_setFields _).mono fun key hkey => ?_
    obtain ⟨e, he, rfl⟩ := List.mem_map.mp hkey
    exact (List.of_mem_zip he).1
  unfold withFigures
  simp only
  split_ifs
  · exact hfields.trans Doc.agree_set
  · exact hfields.mono (by simp)

/-- A field is read alike from payloads that agree on it and on the raw text. -/
theorem readField_congr {keys : List String} (h : Doc.Agree keys d out) {single : Bool}
    {hint : Option ℤ} {key : String}
    (hkey : key ∉ keys) (hraw : "raw_value" ∉ keys) :
    readField isWord out single hint key = readField isWord d single hint key := by
  unfold readField fieldSource
  rw [h.field hkey, h.field hraw]

/-- The keys of figures are three. -/
theorem NumericKeys.not_mem {keys : List String} (h : NumericKeys keys) {key : String}
    (hkey : key ∉ ["value", "low", "high"]) :
    key ∉ keys := fun hmem => hkey (h.subset hmem)

/-- **The numeric part**, taken apart. -/
theorem normalizeNumericFields_eq_ok {keys : List String} (hkeys : NumericKeys keys) :
    normalizeNumericFields repr isWord keys d = .ok out ↔ ∃ r : NumericRun repr isWord keys d,
    out = r.result := by
  have hscale : ∀ unit currency, (withUnit unit currency d).field "scale" = d.field "scale" :=
    fun unit currency => (agree_withUnit unit currency).field (by simp)
  have hread : ∀ unit currency hint,
      keys.mapM (readField isWord (withUnit unit currency d) (keys.length = 1) hint)
      = keys.mapM (readField isWord d (keys.length = 1) hint) := by
    intro unit currency hint
    apply Except.mapM_congr
    intro key hkey
    have hfigure := hkeys.subset hkey
    refine readField_congr (agree_withUnit unit currency) ?_ (by simp)
    rintro hunit
    rcases List.mem_cons.mp hunit with rfl | hunit
    · revert hfigure
      simp
    · rw [List.mem_singleton.mp hunit] at hfigure
      revert hfigure
      simp
  have hsign : ∀ unit currency texts blockers common,
      (withFigures keys texts blockers common (withUnit unit currency d)).field "sign"
      = d.field "sign" := by
    intro unit currency texts blockers common
    rw [(agree_withFigures keys texts blockers common).field, (agree_withUnit unit currency).field]
    · simp
    · rw [List.mem_append, not_or]
      exact ⟨hkeys.not_mem (by simp), by simp⟩
  simp only [normalizeNumericFields, Except.bind_eq_ok_iff, Except.pure_eq_ok, Except.ok.injEq,
    hscale, hread, hsign]
  constructor
  · rintro ⟨unit, hunit, currency, hcurrency, blockers, hblockers, mantissas, hmantissas, restated,
      hrestated, texts, htexts,
      signs, hsigns, rfl⟩
    exact ⟨⟨unit, currency, blockers, mantissas, restated, texts, signs, hunit, hcurrency,
      hblockers, hmantissas, hrestated,
      htexts, hsigns⟩, rfl⟩
  · rintro ⟨r, rfl⟩
    exact ⟨r.unit, r.unit_eq, r.currency, r.currency_eq, r.blockers, r.blockers_eq, r.mantissas,
      r.mantissas_eq, r.restated,
      r.restated_eq, r.texts, r.texts_eq, r.signs, r.signs_eq, rfl⟩

/-! ## The numeric fields of a payload -/

/-- The numeric fields of a guidance. -/
def guidanceKeys (d : Doc) : List String :=
  match d.field "shape" with
  | .str shape => ((shapeKeys.find? fun entry => entry.1 == shape).map Prod.snd).getD []
  | _ => []

/-- The numeric fields of a payload. -/
def numericKeys (d : Doc) : List String :=
  match d.field "kind" with
  | .str "kpi" => ["value"]
  | .str "guidance" => guidanceKeys d
  | _ => []

/-- Every shape has keys of figures. -/
theorem numericKeys_of_shape {shape : String} {keys : List String}
    (h : (shapeKeys.find? fun entry => entry.1 == shape) = some (shape, keys)) :
    NumericKeys keys := by
  have hmem := List.mem_of_find?_eq_some h
  simp only [shapeKeys, List.mem_cons, List.not_mem_nil, or_false, Prod.mk.injEq] at hmem
  rcases hmem with ⟨-, rfl⟩ | ⟨-, rfl⟩ | ⟨-, rfl⟩ | ⟨-, rfl⟩
  all_goals exact ⟨by simp, by simp, by simp⟩

/-- The rest of `normalize_payload` writes constants. -/
def stamp (kind : Doc) (out : Doc) : Doc :=
  Doc.set "_normalizer_version" (.str "normalize/v2")
    (match kind with
    | .str "kpi" => out
    | _ => Doc.set "reported_or_derived" (.str "management_assertion") out)

/-- A payload with figures is a KPI, or guidance of a shape with bounds. -/
theorem numericKeys_cases (h : numericKeys d ≠ []) :
    (d.field "kind" = .str "kpi" ∧ numericKeys d = ["value"])
    ∨ (d.field "kind" = .str "guidance" ∧ ∃ shape, d.field "shape" = .str shape
      ∧ (shapeKeys.find? fun entry => entry.1 == shape) = some (shape, numericKeys d)) := by
  unfold numericKeys at h ⊢
  split at h
  next hk => exact Or.inl ⟨hk, rfl⟩
  next hk =>
      refine Or.inr ⟨hk, ?_⟩
      unfold guidanceKeys at h ⊢
      split at h
      next shape hshape =>
          refine ⟨shape, hshape, ?_⟩
          cases hfind : shapeKeys.find? fun entry => entry.1 == shape with
          | none =>
              rw [hfind] at h
              exact absurd rfl h
          | some entry =>
              have hkey := List.find?_some hfind
              rw [beq_iff_eq] at hkey
              rw [← hkey]
              rfl
      next => exact absurd rfl h
  next => exact absurd rfl h

/-- The keys of a payload are keys of figures. -/
theorem numericKeys_ok (h : numericKeys d ≠ []) : NumericKeys (numericKeys d) := by
  rcases numericKeys_cases h with ⟨-, hkeys⟩ | ⟨-, shape, -, hfind⟩
  · rw [hkeys]
    exact ⟨by simp, by simp, by simp⟩
  · exact numericKeys_of_shape hfind

theorem agree_schema :
    Doc.Agree ["schema_version"] d (Doc.set "schema_version" (.str "extraction-payload/v1") d) :=
  Doc.agree_set

/-- A payload with figures goes through the numeric normalizer. -/
theorem normalizeKind_numeric (h : numericKeys d ≠ []) : normalizeKind repr isWord d
    = (normalizeNumericFields repr isWord (numericKeys d) d).bind fun out =>
    .ok (match d.field "kind" with
      | .str "kpi" => out
      | _ => Doc.set "reported_or_derived" (.str "management_assertion") out) := by
  unfold normalizeKind
  rcases numericKeys_cases h with ⟨hk, hkeys⟩ | ⟨hk, shape, hshape, hfind⟩
  · rw [hk, hkeys]
    simp only
    cases normalizeNumericFields repr isWord ["value"] d <;> rfl
  · rw [hk]
    simp only [normalizeGuidance, hshape]
    have hne : shape ≠ "qualitative" := by
      rintro rfl
      revert hfind
      simp [shapeKeys]
    split
    next heq =>
        cases heq
        exact absurd rfl hne
    next heq =>
        cases heq
        rw [hfind]
        rfl
    next hno => exact absurd rfl (hno shape)

/-- **A payload with numeric fields**, taken apart. -/
theorem normalizePayload_numeric (hkeys : numericKeys d ≠ []) :
    normalizePayload repr isWord d = .ok out ↔
    ∃ shared, normalizeShared repr (Doc.set "schema_version" (.str "extraction-payload/v1") d)
    = .ok shared
      ∧ ∃ r : NumericRun repr isWord (numericKeys d) shared,
      out = stamp (d.field "kind") r.result := by
  obtain ⟨members, rfl⟩ : ∃ members, d = .obj members := by
    cases d with
    | obj members => exact ⟨members, rfl⟩
    | _ => exact absurd rfl hkeys
  unfold normalizePayload
  simp only [Except.bind_eq_ok_iff, Except.pure_eq_ok, Except.ok.injEq]
  apply exists_congr
  intro shared
  apply and_congr_right
  intro hshared
  have hagree := agree_schema.trans (agree_normalizeShared hshared)
  have hkind : shared.field "kind" = (Doc.obj members).field "kind" :=
    hagree.field (by simp [sharedKeys, normalizerBlockersKey])
  have hshape : shared.field "shape" = (Doc.obj members).field "shape" :=
    hagree.field (by simp [sharedKeys, normalizerBlockersKey])
  have hsame : numericKeys shared = numericKeys (.obj members) := by
    simp only [numericKeys, guidanceKeys, hkind, hshape]
  rw [normalizeKind_numeric (by rw [hsame]; exact hkeys), hsame, hkind]
  constructor
  · rintro ⟨a, ha, rfl⟩
    obtain ⟨out, hout, hok⟩ := Except.bind_eq_ok_iff.mp ha
    obtain ⟨r, rfl⟩ := (normalizeNumericFields_eq_ok (numericKeys_ok hkeys)).mp hout
    exact ⟨r, by rw [← Except.ok.inj hok]; rfl⟩
  · rintro ⟨r, rfl⟩
    exact ⟨_, Except.bind_eq_ok_iff.mpr ⟨r.result,
      (normalizeNumericFields_eq_ok (numericKeys_ok hkeys)).mpr ⟨r, rfl⟩, rfl⟩, rfl⟩

end Normalize

end Normalize

end Extraction
