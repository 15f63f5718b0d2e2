/-
# The filing parser

`parse_filing` walks over the tags and texts of a filing once.  It writes a canonical text with one
space between words and a newline between blocks, opens a section at each heading, and notes the
ranges of paragraphs and of inline facts; from these it makes the sections, spans, tables and facts
of the document.

The events are what the HTML parser of the standard library reports; the identifiers and hashes of
texts are parameters.
-/
import EvidenceLab.Dict
import EvidenceLab.ExceptRules
import EvidenceLab.IsoDates
import EvidenceLab.StableSort

namespace PyText

/-! ## Integers -/

/-- Decimal digits with single underscores between them, as a number. -/
def readInt (n : ℕ) : List Char → Option ℕ
  | [] => some n
  | '_' :: c :: cs => (digitValue? c).bind fun d => readInt (10 * n + d) cs
  | c :: cs => (digitValue? c).bind fun d => readInt (10 * n + d) cs

/-- The digits after the sign. -/
def readDigits (cs : List Char) : Option ℕ :=
  match cs with
  | [] => none
  | '_' :: _ => none
  | cs => if 4300 < (cs.filter (· != '_')).length then none else readInt 0 cs

/-- `int(s)`, `none` for a `ValueError`. -/
def int? (s : String) : Option ℤ :=
  match strip s.toList with
  | '-' :: cs => (readDigits cs).map fun n => -(n : ℤ)
  | '+' :: cs => (readDigits cs).map fun n => (n : ℤ)
  | cs => (readDigits cs).map fun n => (n : ℤ)

end PyText

namespace Filing

/-! ## Events -/

/-- What the HTML parser reports. -/
inductive Event where
  | startTag (tag : String) (attrs : List (String × Option String))
  | endTag (tag : String)
  | data (text : String)

/-- `_HEADING_LEVELS`. -/
def headingLevel (tag : String) : Option ℕ :=
  Dict.get? [("h1", 1), ("h2", 2), ("h3", 3), ("h4", 4), ("h5", 5), ("h6", 6)] tag

/-- `_BLOCK_TAGS`. -/
def isBlock (tag : String) : Bool :=
  ["p", "div", "li", "tr", "table", "caption"].contains tag || (headingLevel tag).isSome

def rootHeading : List Char := "(document)".toList

/-- `attr_map.get(name)`: the last of the attributes with the name counts. -/
def attrValue (attrs : List (String × Option String)) (name : String) : Option String :=
  ((attrs.filter fun a => a.1 == name).getLast?).bind Prod.snd

/-! ## The state of the walk -/

structure MutableSection where
  heading : List Char
  headingPath : List (List Char)
  level : ℕ
  order : ℕ
  startChar : ℕ
  parentIndex : Option ℕ
  deriving DecidableEq

/-- The attributes of an inline fact. -/
structure FactAttrs where
  name : Option String
  contextref : Option String
  unitref : Option String
  scale : Option String
  decimals : Option String
  sign : Option String
  format : Option String
  nil : Option String
  deriving DecidableEq

structure RawFactState where
  attrs : FactAttrs
  start : ℕ
  stop : ℕ
  sectionIndex : ℕ
  deriving DecidableEq

structure TableState where
  order : ℕ
  sectionIndex : ℕ
  caption : Option (List Char) := none
  headers : List (List Char) := []
  rows : List (List (List Char)) := []
  currentRow : Option (List (List Char)) := none
  currentRowIsHeader : Bool := true
  cellParts : Option (List (List Char)) := none
  inCaption : Bool := false

structure XbrlContext where
  id : String
  instant : Option Calendar.CivilDate
  start : Option Calendar.CivilDate
  stop : Option Calendar.CivilDate
  dimensions : Dict String (List Char)

inductive ReasonCode where
  | emptyDocument
  | incompleteFact
  | unknownContext
  | unknownUnit
  | invalidScale
  | invalidPeriodDate
  deriving DecidableEq

structure ParseError where
  reasonCode : ReasonCode
  diagnostic : String

def rootSection : MutableSection := ⟨rootHeading, [rootHeading], 0, 0, 0, none⟩

/-- `_FilingHTMLParser`.  The stacks have their top at the head. -/
structure State where
  parts : List (List Char) := []
  pos : ℕ := 0
  sections : List MutableSection := [rootSection]
  sectionStack : List ℕ := [0]
  paragraphRanges : List (ℕ × ℕ × ℕ) := []
  tables : List TableState := []
  tableStack : List TableState := []
  tableCount : ℕ := 0
  rawFacts : List RawFactState := []
  factStack : List (FactAttrs × ℕ) := []
  headingStart : Option ℕ := none
  headingLevel : ℕ := 0
  blockStart : Option ℕ := none
  inIxHeader : Bool := false
  contexts : Dict String XbrlContext := []
  units : Dict String (List Char) := []
  contextId : Option String := none
  contextPeriod : Dict String Calendar.CivilDate := []
  contextDims : Dict String (List Char) := []
  unitId : Option String := none
  captureKind : Option String := none
  captureParts : List (List Char) := []
  captureDimension : Option String := none

/-! ## The canonical text -/

/-- `_append`. -/
def append (piece : List Char) (st : State) : State :=
  { st with parts := st.parts ++ [piece], pos := st.pos + piece.length }

/-- The last character of the last piece. -/
def lastChar (st : State) : Option Char := st.parts.getLast?.bind List.getLast?

/-- `_append_data`. -/
def appendData (data : String) (st : State) : State :=
  let normalized := PyText.joinWords data
  if normalized = [] then st
  else
    let spaced := if st.parts ≠ [] ∧ lastChar st ≠ some ' ' ∧
      lastChar st ≠ some '\n' then append [' '] st else st
    append normalized spaced

/-- `_newline`. -/
def newline (st : State) : State :=
  if st.parts ≠ [] ∧ lastChar st ≠ some '\n' then append ['\n'] st else st

def newlineIf (block : Bool) (st : State) : State := if block then newline st else st

/-- `canonical_text`. -/
def State.canonicalText (st : State) : List Char := st.parts.flatten

/-- `text[start:stop]`. -/
def slice (text : List Char) (start stop : ℕ) : List Char := (text.take stop).drop start

/-! ## Headings -/

/-- The sections that a heading of the level closes. -/
def popSections (sections : List MutableSection) (level : ℕ) : List ℕ → List ℕ
  | top :: next :: rest =>
      if level ≤ ((sections[top]?).map MutableSection.level).getD 0
        then popSections sections level (next :: rest)
      else top :: next :: rest
  | stack => stack

/-- The section that is open. -/
def State.openSection (st : State) : ℕ := st.sectionStack.headD 0

/-- The text of the heading that is open. -/
def State.heading (st : State) : List Char :=
  PyText.strip (slice st.canonicalText (st.headingStart.getD st.pos) st.pos)

/-- `_close_heading`. -/
def closeHeading (st : State) : State :=
  let start := st.headingStart.getD st.pos
  let heading := st.heading
  let level := st.headingLevel
  if heading = [] then { st with headingStart := none }
  else
    let stack := popSections st.sections level st.sectionStack
    let parent := stack.headD 0
    let opened : MutableSection :=
      { heading := heading
        headingPath := ((st.sections[parent]?).map MutableSection.headingPath).getD [] ++ [heading]
        level := level
        order := st.sections.length
        startChar := start
        parentIndex := some parent }
    { st with
      headingStart := none
      sections := st.sections ++ [opened]
      sectionStack := opened.order :: stack }

/-! ## Tables -/

/-- The innermost table, changed. -/
def onTable (f : TableState → TableState) (st : State) : State :=
  match st.tableStack with
  | [] => st
  | table :: rest => { st with tableStack := f table :: rest }

/-- `"".join(parts or []).strip()`. -/
def cellText (parts : Option (List (List Char))) : List Char := PyText.strip (parts.getD []).flatten

/-- The end of a row: the first header row, or one of the body. -/
def closeRow (table : TableState) : TableState :=
  match table.currentRow with
  | none => { table with currentRow := none }
  | some row =>
      if table.currentRowIsHeader ∧
        table.headers = [] then { table with headers := row, currentRow := none }
      else { table with rows := table.rows ++ [row], currentRow := none }

/-- A word of a cell. -/
def cellData (data : String) (table : TableState) : TableState :=
  match table.cellParts with
  | none => table
  | some parts =>
      let normalized := PyText.joinWords data
      if normalized = [] then table
      else
        let spaced := if parts ≠ [] ∧ parts.getLast?.bind List.getLast? ≠ some ' ' then parts
          ++ [[' ']] else parts
        { table with cellParts := some (spaced ++ [normalized]) }

/-! ## The header of the inline facts -/

/-- `_start_header_tag`. -/
def startHeaderTag (tag : String) (attrs : List (String × Option String)) (st : State) : State :=
  if tag = "xbrli:context"
    then { st with contextId := attrValue attrs "id", contextPeriod := [], contextDims := [] }
  else if tag = "xbrli:instant" then { st with captureKind := some "instant", captureParts := [] }
  else if tag = "xbrli:startdate"
    then { st with captureKind := some "startdate", captureParts := [] }
  else if tag = "xbrli:enddate" then { st with captureKind := some "enddate", captureParts := [] }
  else if tag = "xbrldi:explicitmember" then
    { st with
      captureKind := some "dimension-member"
      captureParts := []
      captureDimension := attrValue attrs "dimension" }
  else if tag = "xbrli:unit" then { st with unitId := attrValue attrs "id" }
  else if tag = "xbrli:measure" then { st with captureKind := some "measure", captureParts := [] }
  else st

section Parser

variable (repr : String → String)

/-- The end of a date of a context. -/
def endPeriodTag (kind : String) (captured : List Char) (st : State) : Except ParseError State :=
  match Calendar.fromIsoFormat captured with
  | some d => .ok { st with contextPeriod := st.contextPeriod.set kind d, captureKind := none }
  | none =>
      .error ⟨.invalidPeriodDate, "context '" ++ st.contextId.getD "None" ++ "' has unparseable "
        ++ kind ++ " value "
        ++ repr (String.ofList captured) ++ "; expected an ISO date"⟩

/-- A text that is there and not empty. -/
def given (text : Option String) : Option String := text.filter (· ≠ "")

/-- `_end_header_tag`. -/
def endHeaderTag (tag : String) (st : State) : Except ParseError State :=
  let captured := PyText.strip st.captureParts.flatten
  if tag = "xbrli:instant" then endPeriodTag repr "instant" captured st
  else if tag = "xbrli:startdate" then endPeriodTag repr "startdate" captured st
  else if tag = "xbrli:enddate" then endPeriodTag repr "enddate" captured st
  else if tag = "xbrldi:explicitmember" then
    let dims :=
      match given st.captureDimension with
      | some dimension => if captured = [] then st.contextDims
          else st.contextDims.set dimension captured
      | none => st.contextDims
    .ok { st with contextDims := dims, captureKind := none, captureDimension := none }
  else if tag = "xbrli:measure" then
    let units :=
      match given st.unitId with
      | some unit => if captured = [] then st.units else st.units.set unit captured
      | none => st.units
    .ok { st with units := units, captureKind := none }
  else if tag = "xbrli:context" then
    let contexts :=
      match given st.contextId with
      | some context =>
          st.contexts.set context ⟨context, st.contextPeriod.get? "instant",
            st.contextPeriod.get? "startdate",
            st.contextPeriod.get? "enddate", st.contextDims⟩
      | none => st.contexts
    .ok { st with contexts := contexts, contextId := none }
  else if tag = "xbrli:unit" then .ok { st with unitId := none }
  else .ok st

/-! ## The hooks -/

/-- The attributes that an inline fact keeps. -/
def factAttrs (attrs : List (String × Option String)) : FactAttrs :=
  ⟨attrValue attrs "name", attrValue attrs "contextref", attrValue attrs "unitref",
    attrValue attrs "scale",
    attrValue attrs "decimals", attrValue attrs "sign", attrValue attrs "format",
    attrValue attrs "xsi:nil"⟩

/-- What an opening tag does to the tables. -/
def openTableTag (tag : String) (st : State) : State :=
  if tag = "table" then
    { st with
      tableStack := { order := st.tableCount, sectionIndex := st.openSection } :: st.tableStack
      tableCount := st.tableCount + 1 }
  else if tag = "caption"
    then onTable (fun table => { table with inCaption := true, cellParts := some [] }) st
  else if tag = "tr"
    then onTable (fun table => { table with currentRow := some [], currentRowIsHeader := true }) st
  else if tag = "td" ∨ tag = "th" then
    onTable (fun table =>
      { table with
        cellParts := some []
        currentRowIsHeader := if tag = "td" then false else table.currentRowIsHeader }) st
  else st

/-- What an opening tag outside of the header opens. -/
def openTag (tag : String) (attrs : List (String × Option String)) (st : State) : State :=
  match headingLevel tag with
  | some level => { st with headingStart := some st.pos, headingLevel := level }
  | none =>
      if tag = "p" then { st with blockStart := some st.pos }
      else if tag = "ix:nonfraction"
        then { st with factStack := (factAttrs attrs, st.pos) :: st.factStack }
      else openTableTag tag st

/-- `handle_starttag`. -/
def handleStartTag (tag : String) (attrs : List (String × Option String)) (st : State) : State :=
  if tag = "ix:header" then { st with inIxHeader := true }
  else if st.inIxHeader then startHeaderTag tag attrs st
  else openTag tag attrs (newlineIf (isBlock tag) st)

/-- The end of a paragraph. -/
def closeParagraph (st : State) : State :=
  match st.blockStart with
  | none => st
  | some start =>
      { st with
        paragraphRanges :=
          if start < st.pos then st.paragraphRanges ++ [(st.openSection, start, st.pos)]
            else st.paragraphRanges
        blockStart := none }

/-- The end of the innermost fact. -/
def closeFact (st : State) : State :=
  match st.factStack with
  | [] => st
  | (attrs, start) :: rest =>
      { st with factStack := rest, rawFacts :=
      st.rawFacts ++ [⟨attrs, start, st.pos, st.openSection⟩] }

/-- The end of the innermost table. -/
def closeTable (st : State) : State :=
  match st.tableStack with
  | [] => st
  | table :: rest => { st with tables := st.tables ++ [table], tableStack := rest }

/-- What a closing tag does to the tables. -/
def closeTableTag (tag : String) (st : State) : State :=
  if tag = "caption" then
    onTable (fun table =>
      { table with
        caption := if cellText table.cellParts = [] then none else some (cellText table.cellParts)
        cellParts := none
        inCaption := false }) st
  else if tag = "td" ∨ tag = "th" then
    onTable (fun table =>
      { table with
        currentRow := table.currentRow.map fun row => row ++ [cellText table.cellParts]
        cellParts := none }) st
  else if tag = "tr" then onTable closeRow st
  else if tag = "table" then closeTable st
  else st

/-- What a closing tag outside of the header closes. -/
def closeTag (tag : String) (st : State) : State :=
  if (headingLevel tag).isSome ∧ st.headingStart.isSome then closeHeading st
  else if tag = "p" then closeParagraph st
  else if tag = "ix:nonfraction" then closeFact st
  else closeTableTag tag st

/-- `handle_endtag`. -/
def handleEndTag (tag : String) (st : State) : Except ParseError State :=
  if tag = "ix:header" then .ok { st with inIxHeader := false }
  else if st.inIxHeader then endHeaderTag repr tag st
  else .ok (newlineIf (isBlock tag) (closeTag tag st))

/-- `handle_data`. -/
def handleData (data : String) (st : State) : State :=
  if st.inIxHeader then
    if st.captureKind.isSome then { st with captureParts := st.captureParts ++ [data.toList] }
      else st
  else appendData data (onTable (cellData data) st)

/-- One event. -/
def step (st : State) : Event → Except ParseError State
  | .startTag tag attrs => .ok (handleStartTag tag attrs st)
  | .endTag tag => handleEndTag repr tag st
  | .data text => .ok (handleData text st)

/-- `parser.feed(html)`. -/
def feed (events : List Event) : Except ParseError State := events.foldlM (step repr) {}

end Parser

/-! ## The document -/

structure Section where
  id : String
  parentId : Option String
  heading : List Char
  headingPath : List (List Char)
  order : ℕ
  startChar : ℕ
  endChar : ℕ
  deriving DecidableEq

structure SourceSpan where
  id : String
  sectionId : String
  startChar : ℕ
  endChar : ℕ
  textHash : String
  text : List Char
  deriving DecidableEq

structure ExtractedTable where
  id : String
  sectionId : String
  order : ℕ
  caption : Option (List Char)
  headers : List (List Char)
  rows : List (List (List Char))

structure InlineFact where
  concept : String
  contextRef : String
  unitRef : String
  scale : ℤ
  decimals : Option String
  sign : Option String
  format : Option String
  rawText : List Char
  spanId : String
  sectionId : String
  startChar : ℕ
  endChar : ℕ

structure ParsedDocument where
  contentHash : String
  parserVersion : String
  text : List Char
  sections : List Section
  spans : List SourceSpan
  tables : List ExtractedTable
  contexts : Dict String XbrlContext
  units : Dict String (List Char)
  facts : List InlineFact
  diagnostics : List String

/-- `_trim_range`. -/
def trimRange (text : List Char) (start stop : ℕ) : ℕ × ℕ :=
  let first := start + ((slice text start stop).takeWhile PyText.isSpace).length
  (first, stop - ((slice text first stop).reverse.takeWhile PyText.isSpace).length)

/-- The names that the identifiers are made from. -/
def sectionName (seed : String) (order : ℕ) : String := seed ++ "|section|" ++ toString order

def spanName (seed : String) (start stop : ℕ) : String :=
  seed ++ "|span|" ++ toString start ++ "|" ++ toString stop

def tableName (seed : String) (order : ℕ) : String := seed ++ "|table|" ++ toString order

/-- A fact that is marked as nil. -/
def FactAttrs.isNil (attrs : FactAttrs) : Bool :=
  let text := PyText.lower (String.ofList (PyText.strip (attrs.nil.getD "").toList))
  text == "true".toList || text == "1".toList

section Document

variable (uuid5 : String → String) (sha256Hex : List Char → String) (repr : String → String)
    (seed : String) (text : List Char)

/-- `text_hash`. -/
def textHash (covered : List Char) : String := "sha256:" ++ sha256Hex covered

/-- The sections with their ends and identifiers. -/
def makeSections (ordered : List MutableSection) : List Section :=
  ordered.zipIdx.map fun (s, index) =>
    { id := uuid5 (sectionName seed s.order)
      parentId := s.parentIndex.map fun parent => uuid5 (sectionName seed parent)
      heading := s.heading
      headingPath := s.headingPath
      order := s.order
      startChar := s.startChar
      endChar := ((ordered[index + 1]?).map MutableSection.startChar).getD text.length }

/-- A span over a range of the text. -/
def makeSpan (sectionIndex start stop : ℕ) : SourceSpan :=
  { id := uuid5 (spanName seed start stop)
    sectionId := uuid5 (sectionName seed sectionIndex)
    startChar := start
    endChar := stop
    textHash := textHash sha256Hex (slice text start stop)
    text := slice text start stop }

/-- The span of a paragraph that is not blank. -/
def paragraphSpan (range : ℕ × ℕ × ℕ) : Option SourceSpan :=
  let trimmed := trimRange text range.2.1 range.2.2
  if trimmed.2 ≤ trimmed.1 then none
    else some (makeSpan uuid5 sha256Hex seed text range.1 trimmed.1 trimmed.2)

/-- What the loop over the facts has collected. -/
structure Collected where
  spans : List SourceSpan
  spanByRange : Dict (ℕ × ℕ) String
  facts : List InlineFact := []
  diagnostics : List String := []

/-- `int(scale_text) if scale_text else 0`. -/
def readScale (concept : String) (scaleText : Option String) : Except ParseError ℤ :=
  match given scaleText with
  | none => .ok 0
  | some t =>
      match PyText.int? t with
      | some scale => .ok scale
      | none =>
          .error ⟨.invalidScale, "inline fact '" ++ concept ++ "' has non-integer scale " ++ repr t⟩

/-- The diagnostic of a fact that is skipped. -/
def skipped (attrs : FactAttrs) (start stop : ℕ) : String :=
  "skipped " ++ (if attrs.isNil then "nil" else "empty") ++ " inline fact '"
    ++ (given attrs.name).getD "(unnamed)"
    ++ "' at chars " ++ toString start ++ "-" ++ toString stop

/-- The references that an inline fact must have. -/
def requireRefs (attrs : FactAttrs) (start stop : ℕ) :
    Except ParseError (String × String × String) :=
  match given attrs.name, given attrs.contextref, given attrs.unitref with
  | some concept, some contextRef, some unitRef => .ok (concept, contextRef, unitRef)
  | _, _, _ =>
      .error ⟨.incompleteFact, "inline fact at chars " ++ toString start ++ "-" ++ toString stop
        ++ " is missing one of name/contextRef/unitRef; the iXBRL markup is malformed"⟩

/-- The span of a range, where there is none yet. -/
def addSpan (sectionIndex start stop : ℕ) (c : Collected) : Collected :=
  match c.spanByRange.get? (start, stop) with
  | some _ => c
  | none =>
      { c with
        spans := c.spans ++ [makeSpan uuid5 sha256Hex seed text sectionIndex start stop]
        spanByRange := c.spanByRange.set (start, stop) (uuid5 (spanName seed start stop)) }

/-- One inline fact. -/
def addFact (contexts : Dict String XbrlContext) (units : Dict String (List Char)) (c : Collected)
    (raw : RawFactState) :
    Except ParseError Collected :=
  let (start, stop) := trimRange text raw.start raw.stop
  if raw.attrs.isNil ∨
    stop ≤ start then .ok { c with diagnostics := c.diagnostics ++ [skipped raw.attrs start stop] }
  else do
    let (concept, contextRef, unitRef) ← requireRefs raw.attrs start stop
    Except.raiseIf ((contexts.get? contextRef).isNone)
      ⟨.unknownContext, "inline fact '" ++ concept ++ "' references undefined context '"
        ++ contextRef
        ++ "'; the ix:header resources are missing or truncated"⟩
    Except.raiseIf ((units.get? unitRef).isNone)
      ⟨.unknownUnit, "inline fact '" ++ concept ++ "' references undefined unit '" ++ unitRef
        ++ "'; the ix:header resources are missing or truncated"⟩
    let scale ← readScale repr concept raw.attrs.scale
    let c := addSpan uuid5 sha256Hex seed text raw.sectionIndex start stop c
    return { c with
      facts := c.facts ++ [
        { concept := concept
          contextRef := contextRef
          unitRef := unitRef
          scale := scale
          decimals := raw.attrs.decimals
          sign := raw.attrs.sign
          format := raw.attrs.format
          rawText := slice text start stop
          spanId := (c.spanByRange.get? (start, stop)).getD ""
          sectionId := uuid5 (sectionName seed raw.sectionIndex)
          startChar := start
          endChar := stop }] }

/-- The facts in the order of the document: an outer fact before the facts inside of it. -/
def orderedFacts (rawFacts : List RawFactState) : List RawFactState :=
  StableSort.sortBy (fun f => toLex (f.start, -(f.stop : ℤ))) rawFacts

def makeTable (table : TableState) : ExtractedTable :=
  { id := uuid5 (tableName seed table.order)
    sectionId := uuid5 (sectionName seed table.sectionIndex)
    order := table.order
    caption := table.caption
    headers := table.headers
    rows := table.rows }

/-- The document that a finished walk leads to. -/
def finish (contentHash : String) (st : State) : Except ParseError ParsedDocument := do
  let text := st.canonicalText
  Except.raiseIf (PyText.strip text = []) ⟨.emptyDocument,
    "no textual content found after parsing; the source is likely truncated or not an HTML filing"⟩
  let spans := st.paragraphRanges.filterMap (paragraphSpan uuid5 sha256Hex seed text)
  let spanByRange :=
    Dict.update [] (spans.map fun span => ((span.startChar, span.endChar), span.id))
  let collected ← (orderedFacts st.rawFacts).foldlM
    (addFact uuid5 sha256Hex repr seed text st.contexts st.units)
    { spans := spans, spanByRange := spanByRange }
  return {
    contentHash := contentHash
    parserVersion := "fel-parser/1.0.0"
    text := text
    sections := makeSections uuid5 seed text st.sections
    spans := collected.spans
    tables := (StableSort.sortBy TableState.order st.tables).map (makeTable uuid5 seed)
    contexts := st.contexts
    units := st.units
    facts := collected.facts
    diagnostics := collected.diagnostics }

/-- `parse_filing`, after the HTML parser. -/
def parseFiling (contentHash : String) (events : List Event) : Except ParseError ParsedDocument :=
  do
  let st ← feed repr events
  finish uuid5 sha256Hex repr seed contentHash st

end Document

end Filing
