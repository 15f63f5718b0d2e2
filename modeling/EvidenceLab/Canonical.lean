/-
# Typed canonical JSON and content hashes

The encoder of `canonical.py` over a model of the Python values it meets.

* `PyValue` is a Python value: scalars, decimals, datetimes, dates, enum members, sequences,
  dictionaries and instances of the engine's dataclasses, together with what the encoder refuses.
* `encode` is `_encode`, and `canonicalJson` the sorted, compact, ASCII text of its result.
* `InDomain` is the domain of the encoder, and `Same` the documented quotient: decimals up to
  their number, datetimes up to their instant, lists and tuples alike, an enum member and its
  value alike, dictionaries up to the order of their keys.

**`canonicalJson_eq_iff`**: inside the domain two values have one text iff they are the same.
-/
import EvidenceLab.JsonText
import EvidenceLab.Values

namespace CalcEngine

open Decimal (numDigits)

/-! ## The engine's dataclasses -/

/-- A dataclass field: its name and, for a field marked `canonical_omit_default`, its default
(`none` for `None`, a text otherwise). -/
structure FieldSpec where
  name : String
  omitDefault : Option (Option String)
  deriving DecidableEq, Repr

/-- The dataclasses of the engine. -/
inductive EngineClass where
  | unit | fiscalQuarter | fiscalYear | fiscalCalendar | lineage | quantity
  | reference | literal | unary | binary
  | sourceFactNode | analystAssumptionNode | forecastModelOutputNode | scenarioOverrideNode
  | operationalDriverNode | formulaNode | expressionFormulaNode | aggregationNode
  | validationCheckNode | reportedFinancialOutputNode
  | edge | modelGraph | iterationGroup | iterationRun | scenario | graphSnapshot
  | calcResult | evaluationResult
  deriving DecidableEq, Repr

namespace EngineClass

/-- `type(value).__name__`. -/
def name : EngineClass → String
  | .unit => "Unit"
  | .fiscalQuarter => "FiscalQuarter"
  | .fiscalYear => "FiscalYear"
  | .fiscalCalendar => "FiscalCalendar"
  | .lineage => "Lineage"
  | .quantity => "Quantity"
  | .reference => "Reference"
  | .literal => "Literal"
  | .unary => "Unary"
  | .binary => "Binary"
  | .sourceFactNode => "SourceFactNode"
  | .analystAssumptionNode => "AnalystAssumptionNode"
  | .forecastModelOutputNode => "ForecastModelOutputNode"
  | .scenarioOverrideNode => "ScenarioOverrideNode"
  | .operationalDriverNode => "OperationalDriverNode"
  | .formulaNode => "FormulaNode"
  | .expressionFormulaNode => "ExpressionFormulaNode"
  | .aggregationNode => "AggregationNode"
  | .validationCheckNode => "ValidationCheckNode"
  | .reportedFinancialOutputNode => "ReportedFinancialOutputNode"
  | .edge => "Edge"
  | .modelGraph => "ModelGraph"
  | .iterationGroup => "IterationGroup"
  | .iterationRun => "IterationRun"
  | .scenario => "Scenario"
  | .graphSnapshot => "GraphSnapshot"
  | .calcResult => "CalcResult"
  | .evaluationResult => "EvaluationResult"

/-- The fields every node kind starts with. -/
def nodeFields : List String := ["node_id", "label", "unit", "period"]

/-- The fields every leaf kind starts with. -/
def leafFields : List String := nodeFields ++ ["value", "as_of"]

/-- The fields that are always encoded, in declaration order. -/
def plainFields : EngineClass → List String
  | .unit => ["kind", "currency", "per_period"]
  | .fiscalQuarter => ["fiscal_year", "quarter"]
  | .fiscalYear => ["fiscal_year"]
  | .fiscalCalendar => ["year_end_month"]
  | .lineage =>
    ["provenance", "source_span_id", "assumption_id", "forecast_run_id", "derived_from"]
  | .quantity => ["value", "unit"]
  | .reference => ["node_id"]
  | .literal => ["value"]
  | .unary => ["operator", "operand"]
  | .binary => ["operator", "left", "right"]
  | .sourceFactNode => leafFields ++ ["source_span_id", "fact_id"]
  | .analystAssumptionNode => leafFields ++ ["assumption_id"]
  | .forecastModelOutputNode =>
    leafFields ++ ["forecast_run_id", "dataset_cutoff", "dataset_version"]
  | .scenarioOverrideNode => leafFields ++ ["target", "scenario_id", "assumption_id"]
  | .operationalDriverNode => nodeFields ++ ["seed"]
  | .formulaNode => nodeFields ++ ["operator", "operands", "formula_version"]
  | .expressionFormulaNode => nodeFields ++ ["ast", "formula_version", "grammar_version"]
  | .aggregationNode => nodeFields ++ ["operator", "operands"]
  | .validationCheckNode => nodeFields ++ ["check", "operands", "tolerance"]
  | .reportedFinancialOutputNode => nodeFields ++ ["source", "metric_id", "quantum"]
  | .edge => ["source", "target", "role"]
  | .modelGraph =>
    ["nodes", "edges", "order", "by_id", "_dependencies", "_dependents", "definitions",
      "iteration_groups", "execution_plan"]
  | .iterationGroup =>
    ["group_id", "members", "seeds", "absolute_tolerances", "relative_tolerance",
      "max_iterations"]
  | .iterationRun =>
    ["run_id", "policy", "member_definitions", "dependencies", "seed_result_ids",
      "external_result_ids", "cutoff", "iterations", "values", "residuals"]
  | .scenario => ["scenario_id", "label", "overrides", "as_of"]
  | .graphSnapshot =>
    ["snapshot_id", "model_id", "version", "parent_snapshot_id", "scenario_id", "graph"]
  | .calcResult =>
    ["result_id", "node_id", "kind", "provenance", "value", "unit", "period", "available_at",
      "lineage", "input_result_ids", "formula_version", "passed"]
  | .evaluationResult =>
    ["evaluation_id", "snapshot_id", "cutoff", "order", "results", "failed_checks",
      "iteration_runs"]

/-- The fields marked `canonical_omit_default`, which stand last, with their defaults. -/
def omittableFields : EngineClass → List (String × Option String)
  | .calcResult => [("iteration_run_id", none), ("schema", some "fel-calc-result/v1")]
  | .evaluationResult => [("schema", some "fel-calc-evaluation/v1")]
  | _ => []

/-- `dataclasses.fields`. -/
def fields (c : EngineClass) : List FieldSpec :=
  c.plainFields.map (fun n => ⟨n, none⟩) ++ c.omittableFields.map (fun f => ⟨f.1, some f.2⟩)

end EngineClass

/-! ## Python values -/

/-- A dictionary key: a string, or something else of the named type. -/
inductive DictKey where
  | str (s : String)
  | other (typeName : String)
  deriving DecidableEq, Repr

/-- A Python value as the encoder sees it.  `seq` is a tuple or a list; `unsupported` is any
other object, by the name of its type. -/
inductive PyValue where
  | none
  | bool (b : Bool)
  | int (i : ℤ)
  | str (s : String)
  | enum (value : PyValue)
  | float
  | decimal (d : Decimal)
  | nonFiniteDecimal (text : String)
  | datetime (t : AwareDatetime)
  | naiveDatetime
  | date (day : ℕ)
  | dataclass (cls : EngineClass) (fields : List PyValue)
  | dict (items : List (DictKey × PyValue))
  | seq (tuple : Bool) (items : List PyValue)
  | unsupported (typeName : String)

namespace PyValue

abbrev list (items : List PyValue) : PyValue := .seq false items

abbrev tuple (items : List PyValue) : PyValue := .seq true items

/-- `None` or a string. -/
def optStr : Option String → PyValue
  | Option.none => .none
  | some s => .str s

/-- `item == field.default` for a default that is `None` or a text. -/
def equalsDefault (item : PyValue) (default : Option String) : Bool :=
  match item, default with
  | .none, Option.none => true
  | .str s, some d => s == d
  | _, _ => false

end PyValue

/-- A field marked `canonical_omit_default` that holds its default. -/
def FieldSpec.omits (spec : FieldSpec) (item : PyValue) : Bool :=
  match spec.omitDefault with
  | some d => item.equalsDefault d
  | none => false

/-! ## The encoder -/

/-- `RESERVED_PREFIX`. -/
def reservedKey (k : String) : Bool := k.toList.head? == some '$'

/-- `_MAX_EXPONENT`. -/
def maxExponent : ℕ := 1000000 / 4

/-- `_encode` on a finite decimal. -/
def encodeDecimal (d : Decimal) : Except EngineError Json :=
  if calcContext.prec < numDigits d.coeff then
    .error (.canonicalization ("Decimal with " ++ toString (numDigits d.coeff)
      ++ " significant digits exceeds the " ++ toString calcContext.prec
      ++ "-digit calculation precision and cannot be "
      ++ "canonicalized without rounding, which would not be injective"))
  else if ¬ (-(maxExponent : ℤ) ≤ d.exp ∧ d.exp ≤ maxExponent) then
    .error (.canonicalization ("Decimal exponent " ++ toString d.exp ++ " is outside +/-"
      ++ toString maxExponent
      ++ "; expanding it would produce a megabyte-scale encoding or overflow"))
  else match canonicalDecimal d with
    | .ok text => .ok (.obj [("$decimal", .str text)])
    | .error s => .error (.decimalSignal s)

/-- `value.astimezone(UTC).isoformat()`. -/
def utcIsoformat (t : AwareDatetime) : Except EngineError String := do
  return String.ofList (Calendar.isoDateTimeUtc (← t.astimezoneUtc).wall)

mutual

/-- `_encode`. -/
def encode : PyValue → Except EngineError Json
  | .none => .ok .null
  | .bool b => .ok (.bool b)
  | .int i => .ok (.int i)
  | .str s => .ok (.str s)
  | .enum v => encode v
  | .float => .error (.canonicalization "floats cannot be canonicalized; use Decimal")
  | .nonFiniteDecimal text =>
    .error (.canonicalization ("non-finite Decimal " ++ text ++ " cannot be canonicalized"))
  | .decimal d => encodeDecimal d
  | .naiveDatetime => .error (.canonicalization "naive datetimes cannot be canonicalized")
  | .datetime t => do
    let text ← utcIsoformat t
    return .obj [("$datetime", .str text)]
  | .date day => .ok (.obj [("$date", .str (String.ofList (Calendar.isoDate day)))])
  | .dataclass cls fields => do
    let members ← encodeFields fields cls.fields
    return .obj (("$type", .str cls.name) :: members)
  | .dict items => do
    let members ← encodeMembers items
    return .obj members
  | .seq _ items => do
    let js ← encodeItems items
    return .arr js
  | .unsupported typeName => .error (.canonicalization ("cannot canonicalize " ++ typeName))

/-- The fields of a dataclass, without those that hold their omittable default. -/
def encodeFields : List PyValue → List FieldSpec → Except EngineError (List (String × Json))
  | item :: items, spec :: specs =>
    if spec.omits item then encodeFields items specs
    else do
      let j ← encode item
      let members ← encodeFields items specs
      return (spec.name, j) :: members
  | _, _ => .ok []

/-- The items of a dictionary. -/
def encodeMembers : List (DictKey × PyValue) → Except EngineError (List (String × Json))
  | [] => .ok []
  | (.other typeName, _) :: _ =>
    .error (.canonicalization ("dict keys must be str, got " ++ typeName))
  | (.str k, item) :: items =>
    if reservedKey k then
      .error (.canonicalization ("key '" ++ k ++ "' uses the reserved '$' prefix"))
    else do
      let j ← encode item
      let members ← encodeMembers items
      return (k, j) :: members

/-- The items of a list or tuple. -/
def encodeItems : List PyValue → Except EngineError (List Json)
  | [] => .ok []
  | item :: items => do
    let j ← encode item
    let js ← encodeItems items
    return j :: js

end

/-- The digits `json.dumps` converts an integer with. -/
def maxIntDigits : ℕ := 4300

/-- `json.dumps` with sorted keys, compact separators and ASCII only; an integer of more than
`maxIntDigits` digits has no text. -/
def dumps (j : Json) : Except EngineError String :=
  if j.intsBelow (10 ^ maxIntDigits) then .ok (String.ofList j.sortKeys.dump)
  else .error (.valueError "Exceeds the limit (4300 digits) for integer string conversion")

/-- `canonical_json`. -/
def canonicalJson (v : PyValue) : Except EngineError String := do
  dumps (← encode v)

/-- `content_hash`, over the digest function `sha` (`sha256_hex`). -/
def contentHash (sha : String → String) (v : PyValue) : Except EngineError String := do
  return sha (← canonicalJson v)

/-! ## The domain and the quotient -/

mutual

/-- The domain of the encoder. -/
def InDomain : PyValue → Prop
  | .none => True
  | .bool _ => True
  | .int i => i.natAbs < 10 ^ maxIntDigits
  | .str _ => True
  | .enum v => InDomain v
  | .decimal d => Encodable d
  | .datetime t => t.UtcRepresentable
  | .date _ => True
  | .dataclass cls fields => FieldsInDomain fields cls.fields
  | .dict items => (items.map Prod.fst).Nodup ∧ MembersInDomain items
  | .seq _ items => ItemsInDomain items
  | .float => False
  | .nonFiniteDecimal _ => False
  | .naiveDatetime => False
  | .unsupported _ => False

/-- One value for each field; an omittable field holds `None` or a text. -/
def FieldsInDomain : List PyValue → List FieldSpec → Prop
  | [], [] => True
  | item :: items, spec :: specs =>
    InDomain item ∧ (spec.omitDefault.isSome → ∃ o, item = PyValue.optStr o)
      ∧ FieldsInDomain items specs
  | _, _ => False

/-- String keys outside the reserved prefix. -/
def MembersInDomain : List (DictKey × PyValue) → Prop
  | [] => True
  | (k, item) :: items =>
    (∃ s, k = .str s ∧ reservedKey s = false) ∧ InDomain item ∧ MembersInDomain items

def ItemsInDomain : List PyValue → Prop
  | [] => True
  | item :: items => InDomain item ∧ ItemsInDomain items

end

/-- A value without its enum wrappers. -/
def PyValue.core : PyValue → PyValue
  | .enum v => v.core
  | v => v

mutual

/-- **The documented quotient**: decimals up to their number, datetimes up to their instant, lists
and tuples alike, an enum member and its value alike, dictionaries up to the order of keys. -/
def Same : PyValue → PyValue → Prop
  | .enum v, w => Same v w
  | .decimal d, w => ∃ d', w.core = .decimal d' ∧ d.value = d'.value
  | .datetime t, w => ∃ t', w.core = .datetime t' ∧ t.instant = t'.instant
  | .dataclass cls fields, w => ∃ fields', w.core = .dataclass cls fields' ∧
      SameItems fields fields'
  | .dict items, w =>
    ∃ items', w.core = .dict items' ∧ items.length = items'.length ∧ SameInto items items'
  | .seq _ items, w => ∃ t items', w.core = .seq t items' ∧ SameItems items items'
  | .none, w => w.core = .none
  | .bool b, w => w.core = .bool b
  | .int i, w => w.core = .int i
  | .str s, w => w.core = .str s
  | .date day, w => w.core = .date day
  | .float, w => w.core = .float
  | .nonFiniteDecimal text, w => w.core = .nonFiniteDecimal text
  | .naiveDatetime, w => w.core = .naiveDatetime
  | .unsupported typeName, w => w.core = .unsupported typeName

/-- Position by position. -/
def SameItems : List PyValue → List PyValue → Prop
  | [], [] => True
  | v :: vs, w :: ws => Same v w ∧ SameItems vs ws
  | _, _ => False

/-- Every item has its key in the other dictionary, with the same value. -/
def SameInto : List (DictKey × PyValue) → List (DictKey × PyValue) → Prop
  | [], _ => True
  | (k, v) :: items, items' => (∃ w, (k, w) ∈ items' ∧ Same v w) ∧ SameInto items items'

end

/-! ## What an encoding looks like -/

/-- Enumerations are encoded as their values. -/
theorem encode_core : ∀ v : PyValue, encode v.core = encode v
  | .enum v => by rw [PyValue.core, encode, encode_core v]
  | .none | .bool _ | .int _ | .str _ | .float | .decimal _ | .nonFiniteDecimal _ | .datetime _
  | .naiveDatetime | .date _ | .dataclass _ _ | .dict _ | .seq _ _ | .unsupported _ => rfl

/-- Enumerations are in the domain with their values. -/
theorem inDomain_core : ∀ v : PyValue, InDomain v.core ↔ InDomain v
  | .enum v => by rw [PyValue.core, InDomain, inDomain_core v]
  | .none | .bool _ | .int _ | .str _ | .float | .decimal _ | .nonFiniteDecimal _ | .datetime _
  | .naiveDatetime | .date _ | .dataclass _ _ | .dict _ | .seq _ _ | .unsupported _ => Iff.rfl

theorem core_ne_enum : ∀ v w : PyValue, v.core ≠ .enum w
  | .enum v, w => by rw [PyValue.core]; exact core_ne_enum v w
  | .none, _ | .bool _, _ | .int _, _ | .str _, _ | .float, _ | .decimal _, _
  | .nonFiniteDecimal _, _ | .datetime _, _ | .naiveDatetime, _ | .date _, _ | .dataclass _ _, _
  | .dict _, _ | .seq _ _, _ | .unsupported _, _ => by simp [PyValue.core]

/-- A decimal in range is encoded as its canonical text. -/
theorem encodeDecimal_of_encodable {d : Decimal} (h : Encodable d) :
    ∃ text, canonicalDecimal d = .ok text ∧
      encodeDecimal d = .ok (.obj [("$decimal", .str text)]) := by
  obtain ⟨text, ht, -⟩ := canonicalDecimal_spec h
  refine ⟨text, ht, ?_⟩
  have h1 : ¬ calcContext.prec < numDigits d.coeff := not_lt.mpr h.digits
  have h2 : -(maxExponent : ℤ) ≤ d.exp ∧ d.exp ≤ maxExponent := by
    have hm : maxExponent = 250000 := rfl
    rw [hm]
    exact ⟨h.exp_ge, h.exp_le⟩
  rw [encodeDecimal, if_neg h1, if_neg (not_not.mpr h2), ht]

/-- A representable time is written in UTC. -/
theorem utcIsoformat_eq {t : AwareDatetime} (h : t.UtcRepresentable) :
    utcIsoformat t = .ok (String.ofList (Calendar.isoDateTimeUtc t.instant.toNat)) := by
  rw [utcIsoformat, AwareDatetime.astimezoneUtc, dif_pos h]
  rfl

mutual

/-- Inside the domain the encoder returns, with integers that have a text. -/
theorem encode_ok : ∀ v : PyValue, InDomain v →
    ∃ j, encode v = .ok j ∧ j.intsBelow (10 ^ maxIntDigits) = true
  | .none, _ => ⟨_, rfl, rfl⟩
  | .bool _, _ => ⟨_, rfl, rfl⟩
  | .int i, h => ⟨_, rfl, by rw [InDomain] at h; rw [Json.intsBelow]; exact decide_eq_true h⟩
  | .str _, _ => ⟨_, rfl, rfl⟩
  | .enum v, h => by
      rw [InDomain] at h
      rw [encode]
      exact encode_ok v h
  | .decimal d, h => by
      rw [InDomain] at h
      obtain ⟨text, -, he⟩ := encodeDecimal_of_encodable h
      exact ⟨_, by rw [encode, he], rfl⟩
  | .datetime t, h => by
      rw [InDomain] at h
      exact ⟨_, by rw [encode, utcIsoformat_eq h]; rfl, rfl⟩
  | .date _, _ => ⟨_, rfl, rfl⟩
  | .dataclass cls fields, h => by
      rw [InDomain] at h
      obtain ⟨ms, hms, hb⟩ := encodeFields_ok fields cls.fields h
      exact ⟨_, by rw [encode, hms]; rfl, by simp [Json.intsBelow, Json.membersBelow, hb]⟩
  | .dict items, h => by
      rw [InDomain] at h
      obtain ⟨ms, hms, hb⟩ := encodeMembers_ok items h.2
      exact ⟨_, by rw [encode, hms]; rfl, by simp [Json.intsBelow, hb]⟩
  | .seq _ items, h => by
      rw [InDomain] at h
      obtain ⟨js, hjs, hb⟩ := encodeItems_ok items h
      exact ⟨_, by rw [encode, hjs]; rfl, by simp [Json.intsBelow, hb]⟩
  | .float, h => by rw [InDomain] at h; exact h.elim
  | .nonFiniteDecimal _, h => by rw [InDomain] at h; exact h.elim
  | .naiveDatetime, h => by rw [InDomain] at h; exact h.elim
  | .unsupported _, h => by rw [InDomain] at h; exact h.elim

/-- Fields of the domain are encoded, with short integers only. -/
theorem encodeFields_ok : ∀ (fields : List PyValue) (specs : List FieldSpec),
    FieldsInDomain fields specs →
      ∃ ms, encodeFields fields specs = .ok ms ∧ Json.membersBelow (10 ^ maxIntDigits) ms = true
  | [], [], _ => ⟨[], by rw [encodeFields]; simp, rfl⟩
  | [], _ :: _, h => by rw [FieldsInDomain] at h; exact h.elim; all_goals simp
  | _ :: _, [], h => by rw [FieldsInDomain] at h; exact h.elim; all_goals simp
  | item :: items, spec :: specs, h => by
      rw [FieldsInDomain] at h
      obtain ⟨j, hj, hjb⟩ := encode_ok item h.1
      obtain ⟨ms, hms, hb⟩ := encodeFields_ok items specs h.2.2
      rw [encodeFields]
      simp only [hj, hms, Except.ok_bind, Except.pure_eq_ok]
      split_ifs
      · exact ⟨ms, rfl, hb⟩
      · exact ⟨_, rfl, by simp [Json.membersBelow, hb, hjb]⟩

/-- Members of the domain are encoded, with short integers only. -/
theorem encodeMembers_ok : ∀ items : List (DictKey × PyValue), MembersInDomain items →
    ∃ ms, encodeMembers items = .ok ms ∧ Json.membersBelow (10 ^ maxIntDigits) ms = true
  | [], _ => ⟨[], rfl, rfl⟩
  | (k, item) :: items, h => by
      rw [MembersInDomain] at h
      obtain ⟨⟨s, rfl, hs⟩, hitem, hitems⟩ := h
      obtain ⟨j, hj, hjb⟩ := encode_ok item hitem
      obtain ⟨ms, hms, hb⟩ := encodeMembers_ok items hitems
      refine ⟨(s, j) :: ms, ?_, by simp [Json.membersBelow, hb, hjb]⟩
      rw [encodeMembers, hs]
      simp only [Bool.false_eq_true, if_false, hj, hms, Except.ok_bind, Except.pure_eq_ok]

/-- Items of the domain are encoded, with short integers only. -/
theorem encodeItems_ok : ∀ items : List PyValue, ItemsInDomain items →
    ∃ js, encodeItems items = .ok js ∧ Json.itemsBelow (10 ^ maxIntDigits) js = true
  | [], _ => ⟨[], rfl, rfl⟩
  | item :: items, h => by
      rw [ItemsInDomain] at h
      obtain ⟨j, hj, hjb⟩ := encode_ok item h.1
      obtain ⟨js, hjs, hb⟩ := encodeItems_ok items h.2
      refine ⟨j :: js, ?_, by simp [Json.itemsBelow, hb, hjb]⟩
      rw [encodeItems, hj, hjs]
      rfl

end

/-! ## Types are told apart -/

/-- The type a JSON tree stands for, read off its shape and its reserved key. -/
def jsonTag : Json → ℕ
  | .null => 0
  | .bool _ => 1
  | .int _ => 2
  | .str _ => 3
  | .arr _ => 4
  | .obj members =>
    if "$decimal" ∈ members.map Prod.fst then 5
    else if "$datetime" ∈ members.map Prod.fst then 6
    else if "$date" ∈ members.map Prod.fst then 7
    else if "$type" ∈ members.map Prod.fst then 8
    else 9

/-- The tag of the encoding of a value without enum wrappers. -/
def PyValue.tag : PyValue → ℕ
  | .none => 0
  | .bool _ => 1
  | .int _ => 2
  | .str _ => 3
  | .seq _ _ => 4
  | .decimal _ => 5
  | .datetime _ => 6
  | .date _ => 7
  | .dataclass _ _ => 8
  | .dict _ => 9
  | _ => 10

/-- Sorting keeps the tag of a value. -/
theorem jsonTag_sortKeys (j : Json) : jsonTag j.sortKeys = jsonTag j := by
  cases j with
  | obj ms =>
      have hkeys :
          ∀ k, k ∈ ((Json.sortMembers ms).insertionSort (fun a b => a.1 ≤ b.1)).map Prod.fst
          ↔ k ∈ ms.map Prod.fst := by
        intro k
        rw [((List.perm_insertionSort _ (Json.sortMembers ms)).map Prod.fst).mem_iff,
          Json.keys_sortMembers]
      simp only [Json.sortKeys, jsonTag, hkeys]
  | _ => rfl

/-- The members of a dictionary keep their keys, none of them reserved. -/
theorem encodeMembers_keys : ∀ {items : List (DictKey × PyValue)} {ms : List (String × Json)},
    encodeMembers items = .ok ms →
      items.map Prod.fst = ms.map (fun m => DictKey.str m.1)
        ∧ ∀ m ∈ ms, reservedKey m.1 = false
  | [], ms, h => by
      rw [encodeMembers, Except.ok.injEq] at h
      rw [← h]
      simp
  | (.other _, _) :: _, ms, h => by
      rw [encodeMembers] at h
      cases h
  | (.str k, item) :: items, ms, h => by
      rw [encodeMembers] at h
      split_ifs at h with hk
      obtain ⟨j, -, h⟩ := Except.bind_eq_ok_iff.mp h
      obtain ⟨ms', hms, h⟩ := Except.bind_eq_ok_iff.mp h
      rw [Except.pure_eq_ok, Except.ok.injEq] at h
      obtain ⟨hkeys, hres⟩ := encodeMembers_keys hms
      rw [← h]
      refine ⟨by simp [hkeys], ?_⟩
      intro m hm
      rcases List.mem_cons.mp hm with rfl | hm
      · simpa using hk
      · exact hres m hm

/-- The members of a dataclass are among its fields, in their order. -/
theorem encodeFields_keys : ∀ {fields : List PyValue} {specs : List FieldSpec}
    {ms : List (String × Json)}, encodeFields fields specs = .ok ms →
      (ms.map Prod.fst).Sublist (specs.map FieldSpec.name)
  | [], specs, ms, h => by
      rw [encodeFields, Except.ok.injEq] at h
      · rw [← h]
        simp
      · simp
  | _ :: _, [], ms, h => by
      rw [encodeFields, Except.ok.injEq] at h
      · rw [← h]
        simp
      · simp
  | item :: items, spec :: specs, ms, h => by
      rw [encodeFields] at h
      split_ifs at h with homit
      · exact (encodeFields_keys h).cons _
      · obtain ⟨j, -, h⟩ := Except.bind_eq_ok_iff.mp h
        obtain ⟨ms', hms, h⟩ := Except.bind_eq_ok_iff.mp h
        rw [Except.pure_eq_ok, Except.ok.injEq] at h
        rw [← h]
        exact (encodeFields_keys hms).cons_cons _

/-- Field names are distinct and never reserved. -/
theorem EngineClass.fields_names (c : EngineClass) :
    ("$type" :: c.fields.map FieldSpec.name).Nodup
      ∧ ∀ n ∈ c.fields.map FieldSpec.name, reservedKey n = false := by
  cases c <;> decide

theorem EngineClass.name_injective : Function.Injective EngineClass.name := by
  intro c c' h
  cases c <;> cases c' <;> first | rfl | (exact absurd h (by decide))

/-- **The tag of an encoding** tells the kind of the value. -/
theorem jsonTag_encode {v : PyValue} {j : Json} (hv : ∀ w, v ≠ .enum w) (h : encode v = .ok j) :
    jsonTag j = v.tag := by
  -- the names of fields and keys are no reserved ones, so that the tag of a node is its own
  have hres : ∀ {l : List String} {k : String}, (∀ n ∈ l, reservedKey n = false) →
      reservedKey k = true → k ∉ l := by
    intro l k hl hk hmem
    rw [hl k hmem] at hk
    cases hk
  cases v with
  | enum w => exact absurd rfl (hv w)
  | decimal d =>
      rw [encode, encodeDecimal] at h
      split_ifs at h
      cases hc : canonicalDecimal d with
      | error s =>
          rw [hc] at h
          cases h
      | ok text =>
          rw [hc] at h
          cases h
          simp [jsonTag, PyValue.tag]
  | datetime t =>
      rw [encode] at h
      obtain ⟨text, -, h⟩ := Except.bind_eq_ok_iff.mp h
      cases h
      simp [jsonTag, PyValue.tag]
  | date day =>
      cases h
      simp [jsonTag, PyValue.tag]
  | dataclass cls fields =>
      rw [encode] at h
      obtain ⟨ms, hms, h⟩ := Except.bind_eq_ok_iff.mp h
      cases h
      have hnames : ∀ n ∈ ms.map Prod.fst, reservedKey n = false :=
        fun n hn => cls.fields_names.2 n ((encodeFields_keys hms).subset hn)
      have h1 := hres hnames (k := "$decimal") (by decide)
      have h2 := hres hnames (k := "$datetime") (by decide)
      have h3 := hres hnames (k := "$date") (by decide)
      simp [jsonTag, PyValue.tag, -List.mem_map, h1, h2, h3]
  | dict items =>
      rw [encode] at h
      obtain ⟨ms, hms, h⟩ := Except.bind_eq_ok_iff.mp h
      cases h
      have hnames : ∀ n ∈ ms.map Prod.fst, reservedKey n = false := by
        intro n hn
        obtain ⟨m, hm, rfl⟩ := List.mem_map.mp hn
        exact (encodeMembers_keys hms).2 m hm
      have h1 := hres hnames (k := "$decimal") (by decide)
      have h2 := hres hnames (k := "$datetime") (by decide)
      have h3 := hres hnames (k := "$date") (by decide)
      have h4 := hres hnames (k := "$type") (by decide)
      simp [jsonTag, PyValue.tag, -List.mem_map, h1, h2, h3, h4]
  | seq t items =>
      rw [encode] at h
      obtain ⟨js, -, h⟩ := Except.bind_eq_ok_iff.mp h
      cases h
      rfl
  | none | bool | int | str =>
      cases h
      rfl
  | float | nonFiniteDecimal | naiveDatetime | unsupported =>
      cases h

/-- Two encodings with one sorted form have one type. -/
theorem tag_eq_of_sortKeys {v w : PyValue} {j k : Json} (hj : encode v = .ok j)
    (hk : encode w = .ok k) (h : j.sortKeys = k.sortKeys) : v.core.tag = w.core.tag := by
  rw [← encode_core] at hj hk
  rw [← jsonTag_encode (core_ne_enum v) hj, ← jsonTag_encode (core_ne_enum w) hk,
    ← jsonTag_sortKeys j, h, jsonTag_sortKeys]

/-! ## One text for one value -/

/-- The encoded members are the encodings of the members. -/
theorem mem_encodeMembers : ∀ {items : List (DictKey × PyValue)} {ms : List (String × Json)},
    encodeMembers items = .ok ms → ∀ {k : String} {j : Json},
      (k, j) ∈ ms ↔ ∃ v, (DictKey.str k, v) ∈ items ∧ encode v = .ok j
  | [], ms, h, k, j => by
      rw [encodeMembers, Except.ok.injEq] at h
      rw [← h]
      simp
  | (.other _, _) :: _, ms, h, k, j => by
      rw [encodeMembers] at h
      cases h
  | (.str s, item) :: items, ms, h, k, j => by
      rw [encodeMembers] at h
      split_ifs at h
      obtain ⟨j', hj', h⟩ := Except.bind_eq_ok_iff.mp h
      obtain ⟨ms', hms, h⟩ := Except.bind_eq_ok_iff.mp h
      rw [Except.pure_eq_ok, Except.ok.injEq] at h
      rw [← h, List.mem_cons, mem_encodeMembers hms]
      constructor
      · rintro (heq | ⟨v, hv, hj⟩)
        · cases heq
          exact ⟨item, List.mem_cons_self, hj'⟩
        · exact ⟨v, List.mem_cons_of_mem _ hv, hj⟩
      · rintro ⟨v, hv, hj⟩
        rcases List.mem_cons.mp hv with heq | hv
        · cases heq
          rw [hj'] at hj
          cases hj
          exact Or.inl rfl
        · exact Or.inr ⟨v, hv, hj⟩

/-- The values of a dictionary in the domain are in it. -/
theorem membersInDomain_mem : ∀ {items : List (DictKey × PyValue)}, MembersInDomain items →
    ∀ {k : DictKey} {v : PyValue}, (k, v) ∈ items → InDomain v
  | [], _, _, _, hmem => by simp at hmem
  | (k', v') :: items, h, k, v, hmem => by
      rw [MembersInDomain] at h
      rcases List.mem_cons.mp hmem with heq | hmem
      · cases heq
        exact h.2.1
      · exact membersInDomain_mem h.2.2 hmem

/-- The keys of the encoded members are distinct when those of the dictionary are. -/
theorem nodup_encodeMembers {items : List (DictKey × PyValue)} {ms : List (String × Json)}
    (h : encodeMembers items = .ok ms) (hn : (items.map Prod.fst).Nodup) :
    (ms.map Prod.fst).Nodup := by
  rw [(encodeMembers_keys h).1] at hn
  have hmap : ms.map (fun m => DictKey.str m.1) = (ms.map Prod.fst).map DictKey.str := by
    rw [List.map_map]
    rfl
  rw [hmap] at hn
  exact hn.of_map _

/-- Dictionaries with distinct keys: the same number of items, each found in the other. -/
theorem perm_iff_length_subset {l l' : List (String × Json)} (hl : (l.map Prod.fst).Nodup) :
    l.Perm l' ↔ l.length = l'.length ∧ ∀ m ∈ l, m ∈ l' := by
  constructor
  · intro h
    exact ⟨h.length_eq, fun m hm => h.mem_iff.mp hm⟩
  · rintro ⟨hlen, hsub⟩
    exact (List.subperm_of_subset hl.of_map hsub).perm_of_length_le hlen.ge

/-- Cancelling the member of one key on both sides. -/
theorem perm_cons_key {k : String} {x x' : Json} {l l' : List (String × Json)}
    (hl' : k ∉ l'.map Prod.fst) :
    ((k, x) :: l).Perm ((k, x') :: l') ↔ x = x' ∧ l.Perm l' := by
  constructor
  · intro h
    have hmem : (k, x) ∈ (k, x') :: l' := h.mem_iff.mp List.mem_cons_self
    rcases List.mem_cons.mp hmem with heq | hmem
    · cases heq
      exact ⟨rfl, h.cons_inv⟩
    · exact absurd (List.mem_map.mpr ⟨_, hmem, rfl⟩) hl'
  · rintro ⟨rfl, h⟩
    exact h.cons _

/-- An optional text is left out if it equals its default. -/
theorem equalsDefault_optStr (o d : Option String) :
    (PyValue.optStr o).equalsDefault d = true ↔ o = d := by
  cases o <;> cases d <;> simp [PyValue.optStr, PyValue.equalsDefault]

/-- Optional texts are written alike only if they are equal. -/
theorem same_optStr {o o' : Option String} :
    Same (PyValue.optStr o) (PyValue.optStr o') ↔ o = o' := by
  cases o <;> cases o' <;> simp [PyValue.optStr, Same, PyValue.core, eq_comm]

/-- The same values are omitted alike. -/
theorem omits_eq_of_same {spec : FieldSpec} {x y : PyValue}
    (hx : spec.omitDefault.isSome → ∃ o, x = PyValue.optStr o)
    (hy : spec.omitDefault.isSome → ∃ o, y = PyValue.optStr o) (h : Same x y) :
    spec.omits x = spec.omits y := by
  unfold FieldSpec.omits
  cases hd : spec.omitDefault with
  | none => rfl
  | some d =>
      obtain ⟨o, rfl⟩ := hx (by rw [hd]; rfl)
      obtain ⟨o', rfl⟩ := hy (by rw [hd]; rfl)
      rw [same_optStr.mp h]

/-- Two omitted values of one field are the same. -/
theorem same_of_omits {spec : FieldSpec} {x y : PyValue}
    (hx : spec.omitDefault.isSome → ∃ o, x = PyValue.optStr o)
    (hy : spec.omitDefault.isSome → ∃ o, y = PyValue.optStr o)
    (hox : spec.omits x = true) (hoy : spec.omits y = true) : Same x y := by
  unfold FieldSpec.omits at hox hoy
  cases hd : spec.omitDefault with
  | none => simp [hd] at hox
  | some d =>
      obtain ⟨o, rfl⟩ := hx (by rw [hd]; rfl)
      obtain ⟨o', rfl⟩ := hy (by rw [hd]; rfl)
      simp only [hd, equalsDefault_optStr] at hox hoy
      rw [same_optStr, hox, hoy]

/-! ### One constructor at a time -/

/-- A value that is the same as itself only: its encoding is that of no other core. -/
theorem sorted_iff_core_eq {v w : PyValue} {j k : Json} (hj : encode v = .ok j)
    (hk : encode w = .ok k)
    (key : v.core.tag = w.core.tag → encode w.core = .ok k → j.sortKeys = k.sortKeys → w.core = v) :
    j.sortKeys = k.sortKeys ↔ w.core = v := by
  have hk' : encode w.core = .ok k := by rw [encode_core, hk]
  constructor
  · intro h
    exact key (tag_eq_of_sortKeys hj hk h) hk' h
  · intro hc
    rw [hc, hj] at hk'
    cases hk'
    rfl

/-- A value that is compared with the cores of one constructor `C`: the tag of its encoding tells
the constructor, and `key` compares two values of it. -/
theorem sorted_iff_exists_core {α : Type} {C : α → PyValue} {R : α → Prop} {v w : PyValue}
    {j k : Json} (hw : InDomain w) (hj : encode v = .ok j) (hk : encode w = .ok k)
    (hform : v.core.tag = w.core.tag → ∃ a, w.core = C a)
    (key : ∀ a, InDomain (C a) → encode (C a) = .ok k → (j.sortKeys = k.sortKeys ↔ R a)) :
    j.sortKeys = k.sortKeys ↔ ∃ a, w.core = C a ∧ R a := by
  rw [← encode_core w] at hk
  rw [← inDomain_core w] at hw
  constructor
  · intro h
    rw [encode_core] at hk
    obtain ⟨a, ha⟩ := hform (tag_eq_of_sortKeys hj hk h)
    rw [← encode_core w, ha] at hk
    exact ⟨a, ha, (key a (ha ▸ hw) hk).mp h⟩
  · rintro ⟨a, ha, hR⟩
    rw [ha] at hk
    exact (key a (ha ▸ hw) hk).mpr hR

/-- Decimals are compared by their canonical texts, which agree exactly when the numbers do. -/
theorem sorted_decimal_iff {d d' : Decimal} {j k : Json} (hd : InDomain (.decimal d))
    (hd' : InDomain (.decimal d')) (hj : encode (.decimal d) = .ok j)
    (hk : encode (.decimal d') = .ok k) : j.sortKeys = k.sortKeys ↔ d.value = d'.value := by
  rw [InDomain] at hd hd'
  obtain ⟨text, htext, he⟩ := encodeDecimal_of_encodable hd
  obtain ⟨text', htext', he'⟩ := encodeDecimal_of_encodable hd'
  rw [encode, he] at hj
  rw [encode, he'] at hk
  cases hj
  cases hk
  rw [← canonicalDecimal_eq_iff hd hd', htext, htext']
  simp [Json.sortKeys, Json.sortMembers]

/-- Times are compared by their texts in UTC. -/
theorem sorted_datetime_iff {t t' : AwareDatetime} {j k : Json} (ht : InDomain (.datetime t))
    (ht' : InDomain (.datetime t')) (hj : encode (.datetime t) = .ok j)
    (hk : encode (.datetime t') = .ok k) : j.sortKeys = k.sortKeys ↔ t.instant = t'.instant := by
  rw [InDomain] at ht ht'
  rw [encode, utcIsoformat_eq ht] at hj
  rw [encode, utcIsoformat_eq ht'] at hk
  cases hj
  cases hk
  constructor
  · intro h
    have htext : Calendar.isoDateTimeUtc t.instant.toNat
        = Calendar.isoDateTimeUtc t'.instant.toNat := by
      simpa [Json.sortKeys, Json.sortMembers, String.ofList_inj] using h
    have hnat := Calendar.isoDateTimeUtc_inj htext
    have hpos := ht.1
    have hpos' := ht'.1
    omega
  · intro h
    rw [h]

/-- The fields of a dataclass have names of their own, and none of them is the name of the type. -/
theorem fields_nodup {cls : EngineClass} {fields : List PyValue} {ms : List (String × Json)}
    (h : encodeFields fields cls.fields = .ok ms) :
    "$type" ∉ ms.map Prod.fst ∧ (ms.map Prod.fst).Nodup := by
  have hn := List.nodup_cons.mp cls.fields_names.1
  exact ⟨fun hmem => hn.1 ((encodeFields_keys h).subset hmem), (encodeFields_keys h).nodup hn.2⟩

/-- Dataclasses are compared by their names and by their fields. -/
theorem sorted_dataclass_iff {cls cls' : EngineClass} {fields fields' : List PyValue} {j k : Json}
    (hw : InDomain (.dataclass cls' fields')) (hj : encode (.dataclass cls fields) = .ok j)
    (hk : encode (.dataclass cls' fields') = .ok k)
    (hfields : ∀ ms ms', FieldsInDomain fields' cls.fields →
      encodeFields fields cls.fields = .ok ms →
      encodeFields fields' cls.fields = .ok ms' →
        ((Json.sortMembers ms).Perm (Json.sortMembers ms') ↔ SameItems fields fields')) :
    j.sortKeys = k.sortKeys ↔ cls = cls' ∧ SameItems fields fields' := by
  rw [InDomain] at hw
  rw [encode] at hj hk
  obtain ⟨ms, hms, hj⟩ := Except.bind_eq_ok_iff.mp hj
  obtain ⟨ms', hms', hk⟩ := Except.bind_eq_ok_iff.mp hk
  cases hj
  cases hk
  rw [Json.sortKeys_obj_eq_iff (by rw [List.map_cons, List.nodup_cons]; exact fields_nodup hms),
    Json.sortMembers, Json.sortMembers,
    perm_cons_key (by rw [Json.keys_sortMembers]; exact (fields_nodup hms').1)]
  simp only [Json.sortKeys, Json.str.injEq]
  constructor
  · rintro ⟨hname, hperm⟩
    obtain rfl := EngineClass.name_injective hname
    exact ⟨rfl, (hfields ms ms' hw hms hms').mp hperm⟩
  · rintro ⟨rfl, hsame⟩
    exact ⟨rfl, (hfields ms ms' hw hms hms').mpr hsame⟩

/-- Dictionaries are compared by their numbers of items and item by item. -/
theorem sorted_dict_iff {items items' : List (DictKey × PyValue)} {j k : Json}
    (hv : InDomain (.dict items)) (hw : InDomain (.dict items')) (hj : encode (.dict items) = .ok j)
    (hk : encode (.dict items') = .ok k)
    (hmembers : ∀ ms ms', MembersInDomain items' → encodeMembers items = .ok ms →
      encodeMembers items' = .ok ms' →
        ((∀ m ∈ Json.sortMembers ms, m ∈ Json.sortMembers ms') ↔ SameInto items items')) :
    j.sortKeys = k.sortKeys ↔ items.length = items'.length ∧ SameInto items items' := by
  rw [InDomain] at hv hw
  rw [encode] at hj hk
  obtain ⟨ms, hms, hj⟩ := Except.bind_eq_ok_iff.mp hj
  obtain ⟨ms', hms', hk⟩ := Except.bind_eq_ok_iff.mp hk
  cases hj
  cases hk
  have hlen : ∀ {items : List (DictKey × PyValue)} {ms : List (String × Json)},
      encodeMembers items = .ok ms → items.length = ms.length := by
    intro items ms h
    simpa using congrArg List.length (encodeMembers_keys h).1
  have hn := nodup_encodeMembers hms hv.1
  rw [Json.sortKeys_obj_eq_iff hn,
    perm_iff_length_subset (by rw [Json.keys_sortMembers]; exact hn), hmembers ms ms' hw.2 hms hms',
    Json.sortMembers_eq_map, Json.sortMembers_eq_map, List.length_map, List.length_map, hlen hms,
    hlen hms']

/-- Lists and tuples are compared item by item. -/
theorem sorted_seq_iff {b b' : Bool} {items items' : List PyValue} {j k : Json}
    (hw : InDomain (.seq b' items')) (hj : encode (.seq b items) = .ok j)
    (hk : encode (.seq b' items') = .ok k)
    (hitems : ∀ js ks, ItemsInDomain items' → encodeItems items = .ok js →
      encodeItems items' = .ok ks →
      (Json.sortItems js = Json.sortItems ks ↔ SameItems items items')) :
    j.sortKeys = k.sortKeys ↔ SameItems items items' := by
  rw [InDomain] at hw
  rw [encode] at hj hk
  obtain ⟨js, hjs, hj⟩ := Except.bind_eq_ok_iff.mp hj
  obtain ⟨ks, hks, hk⟩ := Except.bind_eq_ok_iff.mp hk
  cases hj
  cases hk
  rw [Json.sortKeys, Json.sortKeys, Json.arr.injEq]
  exact hitems js ks hw hjs hks

mutual

/-- **The encoder respects and reflects the quotient.** -/
theorem sortKeys_eq_iff_same : ∀ (v w : PyValue) (j k : Json), InDomain v → InDomain w →
    encode v = .ok j → encode w = .ok k → (j.sortKeys = k.sortKeys ↔ Same v w)
  | .enum v, w, j, k, hv, hw, hj, hk => by
      rw [InDomain] at hv
      -- an enum member stands for its value
      rw [encode] at hj
      rw [Same]
      exact sortKeys_eq_iff_same v w j k hv hw hj hk
  | .none, w, j, k, _, _, hj, hk => by
      rw [Same]
      refine sorted_iff_core_eq hj hk fun htag _ _ => ?_
      cases hc : w.core <;> simp [hc, PyValue.core, PyValue.tag] at htag ⊢
  | .bool b, w, j, k, _, _, hj, hk => by
      rw [Same]
      refine sorted_iff_core_eq hj hk fun htag hk' h => ?_
      cases hc : w.core <;> simp [hc, PyValue.core, PyValue.tag] at htag ⊢
      rw [hc] at hk'
      cases hj
      cases hk'
      simpa [Json.sortKeys, eq_comm] using h
  | .int i, w, j, k, _, _, hj, hk => by
      rw [Same]
      refine sorted_iff_core_eq hj hk fun htag hk' h => ?_
      cases hc : w.core <;> simp [hc, PyValue.core, PyValue.tag] at htag ⊢
      rw [hc] at hk'
      cases hj
      cases hk'
      simpa [Json.sortKeys, eq_comm] using h
  | .str s, w, j, k, _, _, hj, hk => by
      rw [Same]
      refine sorted_iff_core_eq hj hk fun htag hk' h => ?_
      cases hc : w.core <;> simp [hc, PyValue.core, PyValue.tag] at htag ⊢
      rw [hc] at hk'
      cases hj
      cases hk'
      simpa [Json.sortKeys, eq_comm] using h
  | .date day, w, j, k, _, _, hj, hk => by
      rw [Same]
      refine sorted_iff_core_eq hj hk fun htag hk' h => ?_
      cases hc : w.core <;> simp [hc, PyValue.core, PyValue.tag] at htag ⊢
      rename_i day'
      rw [hc] at hk'
      cases hj
      cases hk'
      have htext : Calendar.isoDate day = Calendar.isoDate day' := by
        simpa [Json.sortKeys, Json.sortMembers, String.ofList_inj] using h
      rw [Calendar.isoDate_inj htext]
  -- the leaves whose text has to be read back
  | .decimal d, w, j, k, hv, hw, hj, hk => by
      rw [Same]
      refine sorted_iff_exists_core hw hj hk (fun htag => ?_)
        fun d' hd' hk' => sorted_decimal_iff hv hd' hj hk'
      cases hc : w.core <;> simp [hc, PyValue.core, PyValue.tag] at htag ⊢
  | .datetime t, w, j, k, hv, hw, hj, hk => by
      rw [Same]
      refine sorted_iff_exists_core hw hj hk (fun htag => ?_)
        fun t' ht' hk' => sorted_datetime_iff hv ht' hj hk'
      cases hc : w.core <;> simp [hc, PyValue.core, PyValue.tag] at htag ⊢
  -- the nodes: the tag is the class, and the parts agree by the theorems below
  | .dataclass cls fields, w, j, k, hv, hw, hj, hk => by
      rw [InDomain] at hv
      have h : j.sortKeys = k.sortKeys ↔
          ∃ a : EngineClass × List PyValue, w.core = .dataclass a.1 a.2 ∧ cls = a.1 ∧
            SameItems fields a.2 := by
        refine sorted_iff_exists_core hw hj hk (fun htag => ?_) fun a ha hk' =>
          sorted_dataclass_iff ha hj hk' fun ms ms' hdomain hms hms' =>
            encodeFields_perm_iff fields a.2 cls.fields ms ms'
              (List.nodup_cons.mp cls.fields_names.1).2 hv hdomain hms hms'
        cases hc : w.core <;> simp [hc, PyValue.core, PyValue.tag] at htag ⊢
      rw [h, Same]
      constructor
      · rintro ⟨⟨_, fields'⟩, hc, rfl, hsame⟩
        exact ⟨fields', hc, hsame⟩
      · rintro ⟨fields', hc, hsame⟩
        exact ⟨⟨cls, fields'⟩, hc, rfl, hsame⟩
  | .dict items, w, j, k, hv, hw, hj, hk => by
      rw [Same]
      refine sorted_iff_exists_core hw hj hk (fun htag => ?_) fun items' hitems' hk' =>
        sorted_dict_iff hv hitems' hj hk' fun ms ms' hdomain hms hms' =>
          encodeMembers_subset_iff items items' ms ms' (by rw [InDomain] at hv; exact hv.2) hdomain
            hms hms'
      cases hc : w.core <;> simp [hc, PyValue.core, PyValue.tag] at htag ⊢
  | .seq b items, w, j, k, hv, hw, hj, hk => by
      rw [InDomain] at hv
      have h : j.sortKeys = k.sortKeys ↔
          ∃ a : Bool × List PyValue, w.core = .seq a.1 a.2 ∧ SameItems items a.2 := by
        refine sorted_iff_exists_core hw hj hk (fun htag => ?_) fun a ha hk' =>
          sorted_seq_iff ha hj hk' fun js ks hdomain hjs hks =>
            encodeItems_eq_iff items a.2 js ks hv hdomain hjs hks
        cases hc : w.core <;> simp [hc, PyValue.core, PyValue.tag] at htag ⊢
      rw [h, Same, Prod.exists]
  | .float, _, _, _, hv, _, _, _ => by rw [InDomain] at hv; exact hv.elim
  | .nonFiniteDecimal _, _, _, _, hv, _, _, _ => by rw [InDomain] at hv; exact hv.elim
  | .naiveDatetime, _, _, _, hv, _, _, _ => by rw [InDomain] at hv; exact hv.elim
  | .unsupported _, _, _, _, hv, _, _, _ => by rw [InDomain] at hv; exact hv.elim

theorem encodeItems_eq_iff : ∀ (xs ys : List PyValue) (js ks : List Json), ItemsInDomain xs →
    ItemsInDomain ys → encodeItems xs = .ok js → encodeItems ys = .ok ks →
      (Json.sortItems js = Json.sortItems ks ↔ SameItems xs ys)
  | [], [], js, ks, _, _, hjs, hks => by
      cases hjs
      cases hks
      simp [SameItems]
  | [], y :: ys, js, ks, _, _, hjs, hks => by
      cases hjs
      rw [encodeItems] at hks
      obtain ⟨k, -, hks⟩ := Except.bind_eq_ok_iff.mp hks
      obtain ⟨ks', -, hks⟩ := Except.bind_eq_ok_iff.mp hks
      cases hks
      simp [Json.sortItems, SameItems]
  | x :: xs, [], js, ks, _, _, hjs, hks => by
      cases hks
      rw [encodeItems] at hjs
      obtain ⟨j, -, hjs⟩ := Except.bind_eq_ok_iff.mp hjs
      obtain ⟨js', -, hjs⟩ := Except.bind_eq_ok_iff.mp hjs
      cases hjs
      simp [Json.sortItems, SameItems]
  | x :: xs, y :: ys, js, ks, hx, hy, hjs, hks => by
      rw [ItemsInDomain] at hx hy
      rw [encodeItems] at hjs hks
      obtain ⟨j, hj, hjs⟩ := Except.bind_eq_ok_iff.mp hjs
      obtain ⟨js', hjs', hjs⟩ := Except.bind_eq_ok_iff.mp hjs
      obtain ⟨k, hk, hks⟩ := Except.bind_eq_ok_iff.mp hks
      obtain ⟨ks', hks', hks⟩ := Except.bind_eq_ok_iff.mp hks
      cases hjs
      cases hks
      rw [Json.sortItems, Json.sortItems, List.cons.injEq, SameItems,
        sortKeys_eq_iff_same x y j k hx.1 hy.1 hj hk,
        encodeItems_eq_iff xs ys js' ks' hx.2 hy.2 hjs' hks']

theorem encodeFields_perm_iff : ∀ (xs ys : List PyValue) (specs : List FieldSpec)
    (ms ms' : List (String × Json)), (specs.map FieldSpec.name).Nodup →
    FieldsInDomain xs specs → FieldsInDomain ys specs → encodeFields xs specs = .ok ms →
    encodeFields ys specs = .ok ms' →
      ((Json.sortMembers ms).Perm (Json.sortMembers ms') ↔ SameItems xs ys)
  | [], [], [], ms, ms', _, _, _, hms, hms' => by
      simp only [encodeFields, Except.ok.injEq] at hms hms'
      rw [← hms, ← hms']
      simp [SameItems]
  | [], _, _ :: _, _, _, _, hx, _, _, _ => by simp [FieldsInDomain] at hx
  | _ :: _, _, [], _, _, _, hx, _, _, _ => by simp [FieldsInDomain] at hx
  | _, [], _ :: _, _, _, _, _, hy, _, _ => by simp [FieldsInDomain] at hy
  | _, _ :: _, [], _, _, _, _, hy, _, _ => by simp [FieldsInDomain] at hy
  | x :: xs, y :: ys, spec :: specs, ms, ms', hn, hx, hy, hms, hms' => by
      rw [FieldsInDomain] at hx hy
      rw [encodeFields] at hms hms'
      rw [List.map_cons, List.nodup_cons] at hn
      -- the name of this field is not among the names that follow
      have habsent : ∀ {zs : List PyValue} {l : List (String × Json)},
          encodeFields zs specs = .ok l → spec.name ∉ (Json.sortMembers l).map Prod.fst := by
        intro zs l hl hmem
        rw [Json.keys_sortMembers] at hmem
        exact hn.1 ((encodeFields_keys hl).subset hmem)
      rw [SameItems]
      split_ifs at hms hms' with hox hoy hoy
      · rw [encodeFields_perm_iff xs ys specs ms ms' hn.2 hx.2.2 hy.2.2 hms hms']
        exact ⟨fun h => ⟨same_of_omits hx.2.1 hy.2.1 hox hoy, h⟩, And.right⟩
      · -- only the second value writes the field
        obtain ⟨k, hk, hms'⟩ := Except.bind_eq_ok_iff.mp hms'
        obtain ⟨l', hl', hms'⟩ := Except.bind_eq_ok_iff.mp hms'
        cases hms'
        constructor
        · intro h
          have hmem : spec.name ∈ (Json.sortMembers ms).map Prod.fst :=
            (h.map Prod.fst).mem_iff.mpr (by simp [Json.sortMembers])
          exact absurd hmem (habsent hms)
        · rintro ⟨h, -⟩
          rw [omits_eq_of_same hx.2.1 hy.2.1 h] at hox
          exact absurd hox hoy
      · -- only the first one does
        obtain ⟨j, hj, hms⟩ := Except.bind_eq_ok_iff.mp hms
        obtain ⟨l, hl, hms⟩ := Except.bind_eq_ok_iff.mp hms
        cases hms
        constructor
        · intro h
          have hmem : spec.name ∈ (Json.sortMembers ms').map Prod.fst :=
            (h.map Prod.fst).mem_iff.mp (by simp [Json.sortMembers])
          exact absurd hmem (habsent hms')
        · rintro ⟨h, -⟩
          rw [omits_eq_of_same hx.2.1 hy.2.1 h] at hox
          exact absurd hoy hox
      · -- both do
        obtain ⟨j, hj, hms⟩ := Except.bind_eq_ok_iff.mp hms
        obtain ⟨l, hl, hms⟩ := Except.bind_eq_ok_iff.mp hms
        obtain ⟨k, hk, hms'⟩ := Except.bind_eq_ok_iff.mp hms'
        obtain ⟨l', hl', hms'⟩ := Except.bind_eq_ok_iff.mp hms'
        cases hms
        cases hms'
        rw [Json.sortMembers, Json.sortMembers, perm_cons_key (habsent hl'),
          sortKeys_eq_iff_same x y j k hx.1 hy.1 hj hk,
          encodeFields_perm_iff xs ys specs l l' hn.2 hx.2.2 hy.2.2 hl hl']

theorem encodeMembers_subset_iff : ∀ (items items' : List (DictKey × PyValue))
    (ms ms' : List (String × Json)), MembersInDomain items → MembersInDomain items' →
    encodeMembers items = .ok ms → encodeMembers items' = .ok ms' →
      ((∀ m ∈ Json.sortMembers ms, m ∈ Json.sortMembers ms') ↔ SameInto items items')
  | [], items', ms, ms', _, _, hms, _ => by
      cases hms
      simp [Json.sortMembers, SameInto]
  | (key, v) :: items, items', ms, ms', hd, hd', hms, hms' => by
      rw [MembersInDomain] at hd
      obtain ⟨⟨s, rfl, hs⟩, hv, hitems⟩ := hd
      rw [encodeMembers, hs] at hms
      simp only [Bool.false_eq_true, if_false] at hms
      obtain ⟨j, hj, hms⟩ := Except.bind_eq_ok_iff.mp hms
      obtain ⟨l, hl, hms⟩ := Except.bind_eq_ok_iff.mp hms
      cases hms
      have hhead : (s, j.sortKeys) ∈ Json.sortMembers ms' ↔
          ∃ w, (DictKey.str s, w) ∈ items' ∧ Same v w := by
        rw [Json.sortMembers_eq_map, List.mem_map]
        constructor
        · rintro ⟨⟨s', k⟩, hmem, heq⟩
          rw [Prod.mk.injEq] at heq
          obtain ⟨w, hw, hk⟩ := (mem_encodeMembers hms').mp hmem
          obtain rfl : s' = s := heq.1
          exact ⟨w, hw, (sortKeys_eq_iff_same v w j k hv (membersInDomain_mem hd' hw) hj hk).mp
            heq.2.symm⟩
        · rintro ⟨w, hw, hsame⟩
          obtain ⟨k, hk, -⟩ := encode_ok w (membersInDomain_mem hd' hw)
          exact ⟨(s, k), (mem_encodeMembers hms').mpr ⟨w, hw, hk⟩, by
            rw [(sortKeys_eq_iff_same v w j k hv (membersInDomain_mem hd' hw) hj hk).mpr hsame]⟩
      rw [Json.sortMembers, List.forall_mem_cons, SameInto, hhead,
        encodeMembers_subset_iff items items' l ms' hitems hd' hl hms']

end

/-- Inside the domain the canonical text exists. -/
theorem canonicalJson_ok {v : PyValue} (hv : InDomain v) :
    ∃ j, encode v = .ok j ∧ canonicalJson v = .ok (String.ofList j.sortKeys.dump) := by
  obtain ⟨j, hj, hb⟩ := encode_ok v hv
  exact ⟨j, hj, by rw [canonicalJson, hj, Except.ok_bind, dumps, if_pos hb]⟩

/-- Values with one text are the same. -/
theorem same_of_canonicalJson_eq {v w : PyValue} {s : String} (hv : InDomain v) (hw : InDomain w)
    (hs : canonicalJson v = .ok s) (ht : canonicalJson w = .ok s) : Same v w := by
  obtain ⟨j, hj, hs'⟩ := canonicalJson_ok hv
  obtain ⟨k, hk, ht'⟩ := canonicalJson_ok hw
  rw [hs'] at hs
  rw [ht', ← hs, Except.ok.injEq, String.ofList_inj] at ht
  exact (sortKeys_eq_iff_same v w j k hv hw hj hk).mp (Json.dump_injective ht.symm)

/-- The same values have one text. -/
theorem canonicalJson_congr {v w : PyValue} (hv : InDomain v) (hw : InDomain w) (h : Same v w) :
    canonicalJson v = canonicalJson w := by
  obtain ⟨j, hj, hs⟩ := canonicalJson_ok hv
  obtain ⟨k, hk, ht⟩ := canonicalJson_ok hw
  rw [hs, ht, (sortKeys_eq_iff_same v w j k hv hw hj hk).mpr h]

/-- **Canonical JSON is injective modulo the documented quotient**: every value of the domain has a
text, and two of them have one text exactly when they are the same. -/
theorem canonicalJson_eq_iff (v w : PyValue) (hv : InDomain v) (hw : InDomain w) :
    (∃ s, canonicalJson v = .ok s) ∧ (∃ t, canonicalJson w = .ok t)
      ∧ (canonicalJson v = canonicalJson w ↔ Same v w) := by
  obtain ⟨j, -, hs⟩ := canonicalJson_ok hv
  obtain ⟨k, -, ht⟩ := canonicalJson_ok hw
  refine ⟨⟨_, hs⟩, ⟨_, ht⟩, ?_, canonicalJson_congr hv hw⟩
  intro h
  exact same_of_canonicalJson_eq hv hw hs (h ▸ hs)

/-- Two spellings of `1.5` under keys in another order, a list for a tuple, an enum member for its
value: one text. -/
theorem canonicalJson_eq_iff_spellings :
    canonicalJson (.dict [(.str "b", .tuple [.str "sum"]), (.str "a", .decimal ⟨false, 150, -2⟩)])
      = canonicalJson (.dict [(.str "a", .decimal ⟨false, 15, -1⟩),
          (.str "b", .list [.enum (.str "sum")])]) := by
  have hd : Encodable ⟨false, 150, -2⟩ := ⟨by decide, by decide, by decide⟩
  have hd' : Encodable ⟨false, 15, -1⟩ := ⟨by decide, by decide, by decide⟩
  refine (canonicalJson_eq_iff _ _ ?_ ?_).2.2.mpr ?_
  · exact ⟨by decide, ⟨_, rfl, by decide⟩, ⟨trivial, trivial⟩, ⟨_, rfl, by decide⟩, hd, trivial⟩
  · exact ⟨by decide, ⟨_, rfl, by decide⟩, hd', ⟨_, rfl, by decide⟩, ⟨trivial, trivial⟩, trivial⟩
  · refine ⟨_, rfl, rfl, ⟨_, by simp; rfl, false, _, rfl, ?_⟩, ⟨_, by simp; rfl, _, rfl, ?_⟩, ?_⟩
    · simp [SameItems, Same, PyValue.core]
    · norm_num [Decimal.value]
    · simp [SameInto]

/-! ## Where the encoder returned -/

mutual

/-- A value as Python builds it: one value for each dataclass field, distinct dictionary keys. -/
def Formed : PyValue → Prop
  | .enum v => Formed v
  | .dataclass cls fields => FieldsFormed fields cls.fields
  | .dict items => (items.map Prod.fst).Nodup ∧ MembersFormed items
  | .seq _ items => ItemsFormed items
  | _ => True

def FieldsFormed : List PyValue → List FieldSpec → Prop
  | [], [] => True
  | item :: items, spec :: specs =>
    Formed item ∧ (spec.omitDefault.isSome → ∃ o, item = PyValue.optStr o)
      ∧ FieldsFormed items specs
  | _, _ => False

def MembersFormed : List (DictKey × PyValue) → Prop
  | [] => True
  | (_, item) :: items => Formed item ∧ MembersFormed items

def ItemsFormed : List PyValue → Prop
  | [] => True
  | item :: items => Formed item ∧ ItemsFormed items

end

/-- A decimal that is encoded is in range. -/
theorem encodable_of_encodeDecimal {d : Decimal} {j : Json} (h : encodeDecimal d = .ok j) :
    Encodable d := by
  unfold encodeDecimal at h
  split_ifs at h with h1 h2
  have hm : maxExponent = 250000 := rfl
  rw [hm] at h2
  exact ⟨not_lt.mp h1, h2.1, h2.2⟩

/-- A time that is written is representable. -/
theorem utc_of_utcIsoformat {t : AwareDatetime} {s : String} (h : utcIsoformat t = .ok s) :
    t.UtcRepresentable := by
  obtain ⟨u, hu, -⟩ := Except.bind_eq_ok_iff.mp h
  exact (AwareDatetime.astimezoneUtc_eq_ok_iff.mp hu).1

mutual

/-- A well-formed value whose encoding returned lies in the domain. -/
theorem inDomain_of_encode : ∀ (v : PyValue) (j : Json), Formed v → encode v = .ok j →
    j.intsBelow (10 ^ maxIntDigits) = true → InDomain v
  | .none, _, _, _, _ => trivial
  | .bool _, _, _, _, _ => trivial
  -- the text of an integer is bounded
  | .int i, j, _, h, hb => by
      cases h
      rw [InDomain]
      simpa [Json.intsBelow] using hb
  | .str _, _, _, _, _ => trivial
  | .enum v, j, hf, h, hb => by
      rw [Formed] at hf
      rw [encode] at h
      rw [InDomain]
      exact inDomain_of_encode v j hf h hb
  -- a `Decimal` and a time of day are encoded where they have a text
  | .decimal d, j, _, h, _ => encodable_of_encodeDecimal h
  | .datetime t, j, _, h, _ => by
      rw [encode] at h
      obtain ⟨s, hs, -⟩ := Except.bind_eq_ok_iff.mp h
      exact utc_of_utcIsoformat hs
  | .date _, _, _, _, _ => trivial
  | .dataclass cls fields, j, hf, h, hb => by
      rw [Formed] at hf
      rw [encode] at h
      obtain ⟨ms, hms, h⟩ := Except.bind_eq_ok_iff.mp h
      cases h
      rw [InDomain]
      simp only [Json.intsBelow, Json.membersBelow, Bool.true_and] at hb
      exact fieldsInDomain_of_encode fields cls.fields ms hf hms hb
  | .dict items, j, hf, h, hb => by
      rw [Formed] at hf
      rw [encode] at h
      obtain ⟨ms, hms, h⟩ := Except.bind_eq_ok_iff.mp h
      cases h
      rw [InDomain]
      rw [Json.intsBelow] at hb
      exact ⟨hf.1, membersInDomain_of_encode items ms hf.2 hms hb⟩
  | .seq _ items, j, hf, h, hb => by
      rw [Formed] at hf
      rw [encode] at h
      obtain ⟨js, hjs, h⟩ := Except.bind_eq_ok_iff.mp h
      cases h
      rw [InDomain]
      rw [Json.intsBelow] at hb
      exact itemsInDomain_of_encode items js hf hjs hb
  | .float, _, _, h, _ => by cases h
  | .nonFiniteDecimal _, _, _, h, _ => by cases h
  | .naiveDatetime, _, _, h, _ => by cases h
  | .unsupported _, _, _, h, _ => by cases h

theorem fieldsInDomain_of_encode : ∀ (fields : List PyValue) (specs : List FieldSpec)
    (ms : List (String × Json)), FieldsFormed fields specs → encodeFields fields specs = .ok ms →
    Json.membersBelow (10 ^ maxIntDigits) ms = true → FieldsInDomain fields specs
  | [], [], _, _, _, _ => trivial
  | [], _ :: _, _, hf, _, _ => by simp [FieldsFormed] at hf
  | _ :: _, [], _, hf, _, _ => by simp [FieldsFormed] at hf
  | item :: items, spec :: specs, ms, hf, h, hb => by
      rw [FieldsFormed] at hf
      rw [encodeFields] at h
      rw [FieldsInDomain]
      split_ifs at h with ho
      · -- an omitted default is `None` or a text
        have hsome : spec.omitDefault.isSome := by
          unfold FieldSpec.omits at ho
          cases hd : spec.omitDefault with
          | none => simp [hd] at ho
          | some d => rfl
        obtain ⟨o, ho⟩ := hf.2.1 hsome
        refine ⟨?_, hf.2.1, fieldsInDomain_of_encode items specs ms hf.2.2 h hb⟩
        rw [ho]
        cases o <;> trivial
      · obtain ⟨j, hj, h⟩ := Except.bind_eq_ok_iff.mp h
        obtain ⟨ms', hms, h⟩ := Except.bind_eq_ok_iff.mp h
        cases h
        rw [Json.membersBelow, Bool.and_eq_true] at hb
        exact ⟨inDomain_of_encode item j hf.1 hj hb.1, hf.2.1,
          fieldsInDomain_of_encode items specs ms' hf.2.2 hms hb.2⟩

theorem membersInDomain_of_encode : ∀ (items : List (DictKey × PyValue))
    (ms : List (String × Json)), MembersFormed items → encodeMembers items = .ok ms →
    Json.membersBelow (10 ^ maxIntDigits) ms = true → MembersInDomain items
  | [], _, _, _, _ => trivial
  | (.other _, _) :: _, _, _, h, _ => by
      rw [encodeMembers] at h
      cases h
  | (.str k, item) :: items, ms, hf, h, hb => by
      rw [MembersFormed] at hf
      rw [encodeMembers] at h
      split_ifs at h with hk
      obtain ⟨j, hj, h⟩ := Except.bind_eq_ok_iff.mp h
      obtain ⟨ms', hms, h⟩ := Except.bind_eq_ok_iff.mp h
      cases h
      rw [Json.membersBelow, Bool.and_eq_true] at hb
      exact ⟨⟨k, rfl, by simpa using hk⟩, inDomain_of_encode item j hf.1 hj hb.1,
        membersInDomain_of_encode items ms' hf.2 hms hb.2⟩

theorem itemsInDomain_of_encode : ∀ (items : List PyValue) (js : List Json), ItemsFormed items →
    encodeItems items = .ok js → Json.itemsBelow (10 ^ maxIntDigits) js = true →
      ItemsInDomain items
  | [], _, _, _, _ => trivial
  | item :: items, js, hf, h, hb => by
      rw [ItemsFormed] at hf
      rw [encodeItems] at h
      obtain ⟨j, hj, h⟩ := Except.bind_eq_ok_iff.mp h
      obtain ⟨js', hjs, h⟩ := Except.bind_eq_ok_iff.mp h
      cases h
      rw [Json.itemsBelow, Bool.and_eq_true] at hb
      exact ⟨inDomain_of_encode item j hf.1 hj hb.1,
        itemsInDomain_of_encode items js' hf.2 hjs hb.2⟩

end

/-- **What has a canonical text is in the domain.** -/
theorem inDomain_of_canonicalJson {v : PyValue} {s : String} (hf : Formed v)
    (h : canonicalJson v = .ok s) : InDomain v := by
  rw [canonicalJson] at h
  obtain ⟨j, hj, h⟩ := Except.bind_eq_ok_iff.mp h
  unfold dumps at h
  split_ifs at h with hb
  exact inDomain_of_encode v j hf hj hb

end CalcEngine
