/-
# Company-facts snapshots

A snapshot is the JSON document of the companyfacts API.  `canonicalCompanyFactsBytes` are the bytes
that are stored for a fetched one.  `parseCompanyFacts` writes a stored one again, line by line and
with sorted keys, and records on the way where every concept and every observation stands in the
text.
-/
import EvidenceLab.Ingestion
import EvidenceLab.PlainNumbers

namespace CompanyFacts

open Filing (Section SourceSpan rootHeading spanName sectionName)
open Ingestion (DeriveError IngestError ReasonCode Tools)
open JsonReader (Hooks Style write writeStr)
open PyJson (byKey member)
open Xbrl (CompanyFactsObservation decimalStr)

/-! ## Renderings -/

theorem lexesValue_decimalStr (d : Decimal) :
    JsonReader.LexesValue (decimalStr d) [JsonReader.plainToken d] := by
  rw [Xbrl.decimalStr_eq]
  exact JsonReader.lexesValue_plainText d

theorem endsNumber_comma (rest : List Char) : JsonReader.EndsNumber (',' :: rest) :=
  JsonReader.endsNumber_cons (by decide) rest

theorem lexes_commaBlank : JsonReader.Lexes [',', ' '] [.comma] :=
  JsonReader.lexes_comma.append (JsonReader.lexes_blank (by decide))

theorem lexes_colonBlank : JsonReader.Lexes [':', ' '] [.colon] :=
  JsonReader.lexes_colon.append (JsonReader.lexes_blank (by decide))

/-- The separators of `_compact_json_value`. -/
def compactStyle : Style where
  comma := [',']
  colon := [':']
  decimal := decimalStr
  token := JsonReader.plainToken
  comma_lexes := JsonReader.lexes_comma
  comma_ends := endsNumber_comma
  colon_lexes := JsonReader.lexes_colon
  decimal_lexes := lexesValue_decimalStr

/-- The separators of `_render_json_value`. -/
def lineStyle : Style where
  comma := [',', ' ']
  colon := [':', ' ']
  decimal := decimalStr
  token := JsonReader.plainToken
  comma_lexes := lexes_commaBlank
  comma_ends rest := endsNumber_comma (' ' :: rest)
  colon_lexes := lexes_colonBlank
  decimal_lexes := lexesValue_decimalStr

/-- `_compact_json_value`.  Values that are no JSON, binary floats among them, are not modelled. -/
def compactJsonValue (v : PyJson) : List Char := write compactStyle v.sortKeys

/-- `_render_json_value`. -/
def renderJsonValue (v : PyJson) : List Char := write lineStyle v.sortKeys

mutual

/-- The texts of a value have characters only. -/
def encodable : PyJson → Bool
  | .str (.lone _) => false
  | .arr items => encodableItems items
  | .obj members => encodableMembers members
  | _ => true

def encodableItems : List PyJson → Bool
  | [] => true
  | v :: vs => encodable v && encodableItems vs

def encodableMembers : List (PyStr × PyJson) → Bool
  | [] => true
  | (.text _, v) :: members => encodable v && encodableMembers members
  | (.lone _, _) :: _ => false

end

/-- `canonical_company_facts_bytes`, `none` for a `UnicodeEncodeError`. -/
def canonicalCompanyFactsBytes (payload : PyJson) : Option (List UInt8) :=
  if encodable payload then some ((compactJsonValue payload).flatMap String.utf8EncodeChar)
    else none

/-! ## Decoding -/

/-- What the interpreter prints. -/
structure Interpreter where
  repr : PyJson → String
  /-- `str` of a value that is neither a text nor an integer. -/
  str : PyJson → List Char
  /-- The line, the column and the message of a `JSONDecodeError`. -/
  jsonError : List Char → String
  /-- The offset of a `UnicodeDecodeError`. -/
  utf8Error : List UInt8 → ℕ
  /-- The containers that the decoder may nest. -/
  maxDepth : ℕ

/-- `json.loads(decoded, parse_float=Decimal, parse_constant=_reject_non_finite)`. -/
def decoder (S : Tools) (py : Interpreter) (text : List Char) : Hooks DeriveError where
  int literal :=
    -- the digits that `int` converts
    if 4300 < (literal.filter Char.isDigit).length then .error .uncaught
      else .ok (.int (JsonReader.readInt literal))
  float literal :=
    match Decimal.ofText literal with
    | some (.finite d) => .ok (.decimal d)
    | _ => .error .uncaught
  constant name :=
    .error
      (.ingest ⟨.nonfiniteFactValue, "companyfacts payload contains the non-finite JSON constant "
    ++ S.repr name ++ "; NaN/Infinity are never storable"⟩)
  pairs members := .ok (.obj (Dict.update [] members))
  malformed :=
    .ingest ⟨.malformedJson, "companyfacts payload is not valid JSON (" ++ py.jsonError text ++ ")"⟩
  tooDeep := .uncaught
  maxDepth := py.maxDepth

/-! ## The builder -/

/-- `_CanonicalBuilder`. -/
structure Builder where
  parts : List (List Char) := []
  pos : ℕ := 0
  sections : List Section := []
  spans : List SourceSpan := []
  observations : List CompanyFactsObservation := []
  diagnostics : List String := []

def Builder.emit (b : Builder) (piece : List Char) : Builder :=
  { b with parts := b.parts ++ [piece], pos := b.pos + piece.length }

def Builder.text (b : Builder) : List Char := b.parts.flatten

/-- A loop that ends the lines of its rounds with a comma, but for the last one. -/
def eachLine {α : Type} (round : Builder → List Char → α → Except DeriveError Builder) :
    Builder → List α → Except DeriveError Builder
  | b, [] => .ok b
  | b, [x] => round b ['\n'] x
  | b, x :: y :: rest => do
      let b ← round b [',', '\n'] x
      eachLine round b (y :: rest)

/-- A text of an encodable value. -/
def textOf : PyStr → String
  | .text s => s
  | .lone _ => ""

/-- `type(value).__name__`. -/
def typeName : PyJson → String
  | .null => "NoneType"
  | .bool _ => "bool"
  | .int _ => "int"
  | .decimal _ => "Decimal"
  | .str _ => "str"
  | .arr _ => "list"
  | .obj _ => "dict"

/-- The number of an `int` or a `Decimal`. -/
def magnitude : PyJson → Option Decimal
  | .int i => some (PyJson.ofInt i)
  | .decimal d => some d
  | _ => none

/-- `_PROVENANCE_KEYS`. -/
def provenanceKeys : List String := ["accn", "form", "fy", "fp", "frame"]

def malformed (diagnostic : String) : DeriveError := .ingest ⟨.malformedJson, diagnostic⟩

section Walk

variable (S : Tools) (py : Interpreter) (seed : String)

/-- `text_hash`. -/
def textHash (covered : List Char) : String :=
  "sha256:" ++ S.sha256Hex (covered.flatMap String.utf8EncodeChar)

/-- `str(value)`. -/
def strOf : PyJson → List Char
  | .str s => (textOf s).toList
  | .int i => Json.intText i
  | v => py.str v

/-- `_iso_date`. -/
def isoDate (value : PyJson) (concept field : String) : Except DeriveError Calendar.CivilDate :=
  match value with
  | .str s =>
      Except.orRaise (Calendar.fromIsoFormat (textOf s).toList) (.ingest ⟨.invalidPeriodDate,
        "companyfacts observation for '" ++ concept ++ "' has unparseable " ++ field ++ " value "
          ++ py.repr value
          ++ "; expected an ISO date"⟩)
  | _ =>
      .error (.ingest ⟨.invalidPeriodStructure,
        "companyfacts observation for '" ++ concept ++ "' has a non-string " ++ S.repr field
          ++ " period field ("
          ++ py.repr value ++ "); every observation must carry ISO period dates"⟩)

/-- The date of a field that may be missing. -/
def optionalDate (value : PyJson) (concept field : String) :
    Except DeriveError (Option Calendar.CivilDate) :=
  match value with
  | .null => .ok none
  | value => do return some (← isoDate S py value concept field)

/-- The reporting provenance of an observation. -/
def dimensionsOf (observation : List (PyStr × PyJson)) : Dict String (List Char) :=
  provenanceKeys.filterMap fun key =>
    match member observation key with
    | .null => none
    | value => some (key, strOf py value)

/-- `_record_observation`. -/
def recordObservation (qualified : String) (label : Option String) (unit : PyStr)
    (sectionId : String)
    (observation : List (PyStr × PyJson)) (covered : List Char) (start stop : ℕ) (b : Builder) :
    Except DeriveError Builder := do
  let spanId := S.uuid5 (spanName seed start stop)
  let span : SourceSpan := ⟨spanId, sectionId, start, stop, textHash S covered, covered⟩
  let b := { b with spans := b.spans ++ [span] }
  let periodEnd ← isoDate S py (member observation "end") qualified "end"
  let periodStart ← optionalDate S py (member observation "start") qualified "start"
  let place := "for '" ++ qualified ++ "' at chars " ++ toString start ++ "-" ++ toString stop
  match Dict.get? observation (.text "val") with
  | none => return { b with diagnostics := b.diagnostics
      ++ ["skipped observation without 'val' " ++ place] }
  | some value =>
      match magnitude value with
      | none =>
          return { b with diagnostics := b.diagnostics ++
            ["skipped non-numeric (" ++ typeName value ++ ") observation " ++ place] }
      | some magnitude =>
          let observed : CompanyFactsObservation :=
            { taxonomy := String.ofList (qualified.toList.takeWhile (· ≠ ':'))
              concept := qualified
              label := label
              unit := (textOf unit).toList
              value := magnitude
              periodStart := periodStart
              periodEnd := periodEnd
              dimensions := dimensionsOf py observation
              spanId := spanId
              startChar := start
              endChar := stop }
          return { b with observations := b.observations ++ [observed] }

/-- One observation of a unit. -/
def renderObservation (qualified : String) (label : Option String) (unit : PyStr)
    (sectionId : String) (b : Builder)
    (separator : List Char) (observation : PyJson) : Except DeriveError Builder :=
  match observation with
  | .obj members =>
      let fragment := renderJsonValue observation
      let b := b.emit "            ".toList
      let start := b.pos
      let b := b.emit fragment
      let stop := b.pos
      recordObservation S py seed qualified label unit sectionId members fragment start stop
        (b.emit separator)
  | _ => .error (malformed ("companyfacts concept " ++ qualified ++ " unit " ++ S.repr (textOf unit)
      ++ " contains a non-object observation"))

/-- One unit of a concept. -/
def renderUnit (qualified : String) (label : Option String) (sectionId : String) (b : Builder)
    (separator : List Char)
    (unit : PyStr × PyJson) : Except DeriveError Builder :=
  match unit.2 with
  | .arr observations => do
      let b ← eachLine (renderObservation S py seed qualified label unit.1 sectionId)
        (((b.emit "          ".toList).emit (writeStr unit.1)).emit ": [\n".toList) observations
      return (b.emit "          ]".toList).emit separator
  | _ =>
      .error (malformed ("companyfacts concept " ++ qualified ++ " unit " ++ S.repr (textOf unit.1)
      ++ " is not a JSON array of observations"))

/-- `_render_units`. -/
def renderUnits (qualified : String) (label : Option String) (sectionId : String)
    (units : PyJson) (b : Builder) :
    Except DeriveError Builder :=
  match units with
  | .obj [] => .ok (b.emit "\x7b\x7d".toList)
  | .obj members => do
      let b ← eachLine (renderUnit S py seed qualified label sectionId) (b.emit "\x7b\n".toList)
        (byKey members)
      return b.emit "        \x7d".toList
  | _ => .error
      (malformed ("companyfacts concept " ++ qualified ++ " has a non-object 'units' member"))

/-- One member of a concept. -/
def renderConceptMember (qualified : String) (label : Option String) (sectionId : String)
    (b : Builder)
    (separator : List Char) (m : PyStr × PyJson) : Except DeriveError Builder := do
  let b := ((b.emit "        ".toList).emit (writeStr m.1)).emit ": ".toList
  let b ←
    if m.1 = .text "units" then renderUnits S py seed qualified label sectionId m.2 b
    else .ok (b.emit (renderJsonValue m.2))
  return b.emit separator

def labelOf (concept : List (PyStr × PyJson)) : Option String :=
  match member concept "label" with
  | .str s => some (textOf s)
  | _ => none

/-- `_render_concept`. -/
def renderConcept (taxonomy : PyStr) (b : Builder) (separator : List Char)
    (concept : PyStr × PyJson) :
    Except DeriveError Builder :=
  let qualified := textOf taxonomy ++ ":" ++ textOf concept.1
  match concept.2 with
  | .obj members => do
      let b := b.emit "      ".toList
      let start := b.pos
      -- the root has the order 0
      let order := b.sections.length + 1
      let sectionId := S.uuid5 (sectionName seed order)
      let b := (b.emit (writeStr concept.1)).emit ": \x7b\n".toList
      let b ← eachLine (renderConceptMember S py seed qualified (labelOf members) sectionId)
        b (byKey members)
      let b := b.emit "      \x7d".toList
      let written : Section :=
        { id := sectionId
          parentId := some (S.uuid5 (sectionName seed 0))
          heading := (textOf concept.1).toList
          headingPath := [rootHeading, (textOf taxonomy).toList, (textOf concept.1).toList]
          order := order
          startChar := start
          endChar := b.pos }
      return { b with sections := b.sections ++ [written] }.emit separator
  | _ => .error (malformed ("companyfacts concept " ++ qualified ++ " is not a JSON object"))

/-- One taxonomy. -/
def renderTaxonomy (b : Builder) (separator : List Char) (taxonomy : PyStr × PyJson) :
    Except DeriveError Builder :=
  match taxonomy.2 with
  | .obj concepts => do
      let b := ((b.emit "    ".toList).emit (writeStr taxonomy.1)).emit ": \x7b\n".toList
      let b ← eachLine (renderConcept S py seed taxonomy.1) b (byKey concepts)
      return (b.emit "    \x7d".toList).emit separator
  | _ =>
      .error (malformed ("companyfacts taxonomy " ++ S.repr (textOf taxonomy.1)
        ++ " is not a JSON object of concepts"))

/-- `_render_facts`. -/
def renderFacts (facts : PyJson) (b : Builder) : Except DeriveError Builder :=
  match facts with
  | .obj [] => .ok (b.emit "\x7b\x7d".toList)
  | .obj members => do
      let b ← eachLine (renderTaxonomy S py seed) (b.emit "\x7b\n".toList) (byKey members)
      return b.emit "  \x7d".toList
  | _ => .error (malformed
      "companyfacts 'facts' member is not a JSON object; the payload does not have the companyfacts API shape")

/-- One member of the document. -/
def renderMember (b : Builder) (separator : List Char) (m : PyStr × PyJson) :
    Except DeriveError Builder := do
  let b := ((b.emit "  ".toList).emit (writeStr m.1)).emit ": ".toList
  let b ← if m.1 = .text "facts" then renderFacts S py seed m.2 b
    else .ok (b.emit (renderJsonValue m.2))
  return b.emit separator

/-- `render_document`. -/
def renderDocument (payload : List (PyStr × PyJson)) (b : Builder) : Except DeriveError Builder :=
  do
  let b ← eachLine (renderMember S py seed) (b.emit "\x7b\n".toList) (byKey payload)
  return b.emit "\x7d".toList

/-- `ParsedCompanyFacts`. -/
structure ParsedCompanyFacts where
  contentHash : String
  parserVersion : String
  text : List Char
  sections : List Section
  spans : List SourceSpan
  observations : List CompanyFactsObservation
  diagnostics : List String

/-- The members of a decoded snapshot. -/
def decodePayload (raw : List UInt8) : Except DeriveError (List (PyStr × PyJson)) := do
  let decoded ← Except.orRaise (ByteArray.mk raw.toArray).utf8Decode? (.ingest ⟨.encodingError,
    "companyfacts payload is not valid UTF-8 (byte offset " ++ toString (py.utf8Error raw) ++ ")"⟩)
  match ← JsonReader.decode (decoder S py decoded.toList) decoded.toList with
  | .obj [] => .error (.ingest ⟨.emptyDocument,
      "companyfacts payload is an empty JSON object; the source is likely truncated"⟩)
  | .obj payload => return payload
  | _ =>
      .error
        (malformed
        "companyfacts payload is not a JSON object; the source is not a companyfacts API response")

/-- `parse_company_facts`. -/
def parseCompanyFacts (contentHash : String) (raw : List UInt8) :
    Except DeriveError ParsedCompanyFacts := do
  let payload ← decodePayload S py raw
  -- the source renders a lone surrogate and raises where its text is hashed or stored; here the
  -- whole call raises at once
  Except.raiseIf (encodableMembers payload = false) .uncaught
  let b ← renderDocument S py seed payload {}
  let root : Section :=
    { id := S.uuid5 (sectionName seed 0)
      parentId := none
      heading := rootHeading
      headingPath := [rootHeading]
      order := 0
      startChar := 0
      endChar := b.text.length }
  return {
    contentHash := contentHash
    parserVersion := "fel-companyfacts-parser/1.0.0"
    text := b.text
    sections := root :: b.sections
    spans := b.spans
    observations := b.observations
    diagnostics := b.diagnostics }

end Walk

end CompanyFacts
