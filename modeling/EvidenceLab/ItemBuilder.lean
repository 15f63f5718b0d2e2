/-
# The items of the retrieval index

`build_items`: each span, fact and table row of a parsed corpus becomes an item of the index or a
rejection. An item is accepted when the canonical text holds the content of its span at its offsets,
and when the hash is the one of the span.

* `builder_accounts` says that nothing is lost or taken twice, that every item repeats its span,
  that the identifiers are distinct, and that the order of the corpus does not matter.
-/
import EvidenceLab.Borders
import EvidenceLab.Fusion
import EvidenceLab.JsonText
import EvidenceLab.PyText
import EvidenceLab.Tabulated

namespace ItemBuilder

open StableSort (sortBy)

/-! ## The corpus -/

/-- A heading path as the corpus gives it. -/
inductive PathValue where
  | none
  | parts (parts : List String)
  | single (part : String)

/-- A row of `source_spans`. -/
structure SourceSpan where
  id : String
  sectionId : String
  startChar : ℤ
  endChar : ℤ
  text : String
  textHash : String
  headingPath : PathValue

/-- A row of `financial_facts`. -/
structure FinancialFact where
  id : String
  sourceSpanId : String
  period : Option String

/-- A row of `tables`, with the spans of its rows. -/
structure CorpusTable where
  id : String
  sectionId : String
  headingPath : PathValue
  rows : List (Option String)

/-- The parsed-corpus view. -/
structure Corpus where
  entityId : String
  documentId : String
  documentVersionId : String
  form : Option String
  canonicalText : String
  sourceSpans : List SourceSpan
  financialFacts : List FinancialFact
  tables : List CorpusTable

/-! ## Items and rejections -/

inductive Kind where
  | passage
  | fact
  | tableRow
  deriving DecidableEq

def Kind.value : Kind → String
  | .passage => "passage"
  | .fact => "fact"
  | .tableRow => "table_row"

inductive Code where
  | offsetMismatch
  | hashMismatch
  | unanchoredFact
  | unanchoredTableRow
  deriving DecidableEq

def Code.value : Code → String
  | .offsetMismatch => "OFFSET_MISMATCH"
  | .hashMismatch => "HASH_MISMATCH"
  | .unanchoredFact => "UNANCHORED_FACT"
  | .unanchoredTableRow => "UNANCHORED_TABLE_ROW"

structure Rejection where
  code : Code
  reason : String
  kind : Kind
  sourceSpanId : Option String := none
  tableId : Option String := none
  tableRowIndex : Option ℕ := none
  financialFactId : Option String := none
  deriving DecidableEq

structure RetrievalItemDraft where
  id : String
  indexVersionId : String
  kind : Kind
  entityId : String
  documentId : String
  documentVersionId : String
  sectionId : String
  sourceSpanId : String
  content : String
  contentSha256 : String
  headingPath : List String
  startChar : ℤ
  endChar : ℤ
  tokenCount : ℕ
  sourceAnchor : String
  financialFactId : Option String := none
  tableId : Option String := none
  tableRowIndex : Option ℕ := none
  form : Option String := none
  period : Option String := none
  deriving DecidableEq

structure BuildResult where
  items : List RetrievalItemDraft
  rejections : List Rejection
  chunkerVersion : String
  configHash : String
  deriving DecidableEq

/-! ## Candidates -/

structure PassageCandidate where
  sourceSpanId : String
  sectionId : String
  startChar : ℤ
  endChar : ℤ
  content : String
  textHash : String
  headingPath : List String

structure FactCandidate where
  financialFactId : String
  sourceSpanId : String
  sectionId : String
  startChar : ℤ
  endChar : ℤ
  content : String
  textHash : String
  headingPath : List String
  period : Option String

structure TableRowCandidate where
  tableId : String
  tableRowIndex : ℕ
  sourceSpanId : Option String
  sectionId : String
  startChar : Option ℤ
  endChar : Option ℤ
  content : Option String
  textHash : Option String
  headingPath : List String

/-- `_path`. -/
def path : PathValue → List String
  | .none => []
  | .parts parts => parts
  | .single part => [part]

/-- `passage_candidates`. -/
def passageCandidates (corpus : Corpus) : List PassageCandidate :=
  corpus.sourceSpans.map fun span =>
    { sourceSpanId := span.id
      sectionId := span.sectionId
      startChar := span.startChar
      endChar := span.endChar
      content := span.text
      textHash := span.textHash
      headingPath := path span.headingPath }

/-- The spans by their identifier; a later span replaces an earlier one. -/
def spansById (corpus : Corpus) : Dict String SourceSpan :=
  Dict.update [] (corpus.sourceSpans.map fun s => (s.id, s))

/-- The candidate of a fact, where its span is there. -/
def factCandidate (spans : Dict String SourceSpan) (fact : FinancialFact) : Option FactCandidate :=
  (spans.get? fact.sourceSpanId).map fun span =>
    { financialFactId := fact.id
      sourceSpanId := span.id
      sectionId := span.sectionId
      startChar := span.startChar
      endChar := span.endChar
      content := span.text
      textHash := span.textHash
      headingPath := path span.headingPath
      period := fact.period }

/-- `fact_candidates`. -/
def factCandidates (corpus : Corpus) : List FactCandidate :=
  corpus.financialFacts.filterMap (factCandidate (spansById corpus))

/-- The candidate of a row. -/
def rowCandidate (spans : Dict String SourceSpan) (table : CorpusTable) (index : ℕ)
    (spanId : Option String) :
    TableRowCandidate :=
  match spanId.bind spans.get? with
  | none =>
      { tableId := table.id
        tableRowIndex := index
        sourceSpanId := spanId
        sectionId := table.sectionId
        startChar := none
        endChar := none
        content := none
        textHash := none
        headingPath := path table.headingPath }
  | some span =>
      { tableId := table.id
        tableRowIndex := index
        sourceSpanId := some span.id
        sectionId := span.sectionId
        startChar := some span.startChar
        endChar := some span.endChar
        content := some span.text
        textHash := some span.textHash
        headingPath :=
          if path table.headingPath = [] then path span.headingPath else path table.headingPath }

/-- `table_row_candidates`. -/
def tableRowCandidates (corpus : Corpus) : List TableRowCandidate :=
  corpus.tables.flatMap fun table =>
    table.rows.zipIdx.map fun (spanId, index) => rowCandidate (spansById corpus) table index spanId

/-! ## Hashes and identifiers -/

/-- `CHUNKER_VERSION`. -/
def chunkerVersion : String := "fel-chunker/1.0.0"

/-- `_DEFAULT_CONFIG`. -/
def defaultConfig : Dict String Json :=
  [("chunker_version", .str chunkerVersion),
  ("kinds", .arr [.str "passage", .str "fact", .str "table_row"])]

/-- `effective_chunker_config`. -/
def effectiveChunkerConfig (chunkerConfig : Dict String Json) : Dict String Json :=
  defaultConfig.update chunkerConfig

/-- `canonical_text[start_char:end_char]`, for offsets in range. -/
def slice (text : String) (start stop : ℤ) : String :=
  String.ofList ((text.toList.take stop.toNat).drop start.toNat)

/-- `_approx_tokens`. -/
def approxTokens (text : String) : ℕ :=
  (PyText.runs (fun c => !PyText.isSpace c) text.toList).length

/-- What an item or a rejection is about. -/
inductive Subject where
  | span (id : String)
  | fact (id : String)
  | row (tableId : String) (index : ℕ)
  deriving DecidableEq

/-- `source_anchor` with the arguments that each kind requires. -/
def sourceAnchor : Subject → String
  | .span sourceSpanId => "span:" ++ sourceSpanId
  | .fact financialFactId => "fact:" ++ financialFactId
  | .row tableId tableRowIndex => "table:" ++ tableId ++ ":" ++ toString tableRowIndex

section Build

variable (uuid5 : String → String) (sha256Hex : String → String)

/-- `content_sha256`. -/
def contentSha256 (text : String) : String := "sha256:" ++ sha256Hex text

/-- `config_hash`. -/
def configHash (config : Dict String Json) : String :=
  "sha256:" ++ sha256Hex (String.ofList (Json.obj config).sortKeys.dump)

/-- `verify_span_slice`. -/
def verifySpanSlice (canonicalText : String) (startChar endChar : ℤ)
    (expectedContent expectedHash : String) :
    Option Code :=
  if startChar < 0 ∨ endChar < startChar ∨ (canonicalText.length : ℤ) < endChar
    then some .offsetMismatch
  else
    let sliced := slice canonicalText startChar endChar
    if sliced ≠ expectedContent then some .hashMismatch
    else if contentSha256 sha256Hex sliced ≠ expectedHash then some .hashMismatch
    else if expectedHash ≠ contentSha256 sha256Hex expectedContent then some .hashMismatch
    else none

variable (indexVersionId : String)

/-- `item_id`. -/
def itemId (kind : Kind) (anchor digest : String) : String :=
  uuid5 (indexVersionId ++ "|" ++ kind.value ++ "|" ++ anchor ++ "|" ++ digest)

/-! ## The builder -/

/-- What a candidate becomes. -/
inductive Outcome where
  | item (draft : RetrievalItemDraft)
  | rejection (r : Rejection)

def Outcome.item? : Outcome → Option RetrievalItemDraft
  | .item draft => some draft
  | .rejection _ => none

def Outcome.rejection? : Outcome → Option Rejection
  | .item _ => none
  | .rejection r => some r

variable (corpus : Corpus)

def passageOutcome (passage : PassageCandidate) : Outcome :=
  match verifySpanSlice sha256Hex corpus.canonicalText passage.startChar
      passage.endChar passage.content
      passage.textHash with
  | some code =>
      .rejection
        { code := code
          reason := "passage span " ++ passage.sourceSpanId ++ " failed re-verify"
          kind := .passage
          sourceSpanId := some passage.sourceSpanId }
  | none =>
      let digest := contentSha256 sha256Hex passage.content
      let anchor := sourceAnchor (.span passage.sourceSpanId)
      .item
        { id := itemId uuid5 indexVersionId .passage anchor digest
          indexVersionId := indexVersionId
          kind := .passage
          entityId := corpus.entityId
          documentId := corpus.documentId
          documentVersionId := corpus.documentVersionId
          sectionId := passage.sectionId
          sourceSpanId := passage.sourceSpanId
          content := passage.content
          contentSha256 := digest
          headingPath := passage.headingPath
          startChar := passage.startChar
          endChar := passage.endChar
          tokenCount := approxTokens passage.content
          sourceAnchor := anchor
          form := corpus.form }

/-- A fact whose span is not returned. -/
def unanchoredFact (fact : FinancialFact) : Rejection :=
  { code := .unanchoredFact
    reason := "fact " ++ fact.id ++ " references span " ++ fact.sourceSpanId
      ++ " not present in source_spans"
    kind := .fact
    sourceSpanId := some fact.sourceSpanId
    financialFactId := some fact.id }

def factOutcome (fact : FactCandidate) : Outcome :=
  match verifySpanSlice sha256Hex corpus.canonicalText fact.startChar fact.endChar fact.content
    fact.textHash with
  | some code =>
      .rejection
        { code := code
          reason := "fact " ++ fact.financialFactId ++ " span failed re-verify"
          kind := .fact
          sourceSpanId := some fact.sourceSpanId
          financialFactId := some fact.financialFactId }
  | none =>
      let digest := contentSha256 sha256Hex fact.content
      let anchor := sourceAnchor (.fact fact.financialFactId)
      .item
        { id := itemId uuid5 indexVersionId .fact anchor digest
          indexVersionId := indexVersionId
          kind := .fact
          entityId := corpus.entityId
          documentId := corpus.documentId
          documentVersionId := corpus.documentVersionId
          sectionId := fact.sectionId
          sourceSpanId := fact.sourceSpanId
          content := fact.content
          contentSha256 := digest
          headingPath := fact.headingPath
          startChar := fact.startChar
          endChar := fact.endChar
          tokenCount := approxTokens fact.content
          sourceAnchor := anchor
          financialFactId := some fact.financialFactId
          form := corpus.form
          period := fact.period }

/-- A row that is rejected. -/
def rejectedRow (row : TableRowCandidate) (code : Code) (what : String) : Rejection :=
  { code := code
    reason := "table " ++ row.tableId ++ " row " ++ toString row.tableRowIndex ++ what
    kind := .tableRow
    tableId := some row.tableId
    tableRowIndex := some row.tableRowIndex
    sourceSpanId := row.sourceSpanId }

def rowOutcome (row : TableRowCandidate) : Outcome :=
  match row.sourceSpanId, row.startChar, row.endChar, row.content, row.textHash with
  | some sourceSpanId, some startChar, some endChar, some content, some textHash =>
      match verifySpanSlice sha256Hex corpus.canonicalText startChar endChar content textHash with
      | some code => .rejection (rejectedRow row code " span failed re-verify")
      | none =>
          let digest := contentSha256 sha256Hex content
          let anchor := sourceAnchor (.row row.tableId row.tableRowIndex)
          .item
            { id := itemId uuid5 indexVersionId .tableRow anchor digest
              indexVersionId := indexVersionId
              kind := .tableRow
              entityId := corpus.entityId
              documentId := corpus.documentId
              documentVersionId := corpus.documentVersionId
              sectionId := row.sectionId
              sourceSpanId := sourceSpanId
              content := content
              contentSha256 := digest
              headingPath := row.headingPath
              startChar := startChar
              endChar := endChar
              tokenCount := approxTokens content
              sourceAnchor := anchor
              tableId := some row.tableId
              tableRowIndex := some row.tableRowIndex
              form := corpus.form }
  | _, _, _, _, _ => .rejection (rejectedRow row .unanchoredTableRow " has no unique span")

/-- The facts whose span is not among the known ones. -/
def danglingFacts : List FinancialFact :=
  corpus.financialFacts.filter fun fact => !(corpus.sourceSpans.map SourceSpan.id).contains
    fact.sourceSpanId

/-- The outcomes in the order of the loops. -/
def outcomes : List Outcome :=
  (passageCandidates corpus).map (passageOutcome uuid5 sha256Hex indexVersionId corpus)
    ++ (danglingFacts corpus).map (fun fact => .rejection (unanchoredFact fact))
    ++ (factCandidates corpus).map (factOutcome uuid5 sha256Hex indexVersionId corpus)
    ++ (tableRowCandidates corpus).map (rowOutcome uuid5 sha256Hex indexVersionId corpus)

def itemKey (item : RetrievalItemDraft) : String ×ₗ String ×ₗ ℤ ×ₗ String :=
  toLex (item.kind.value, toLex (item.sourceAnchor, toLex (item.startChar, item.id)))

def rejectionKey (r : Rejection) : String ×ₗ String ×ₗ String ×ₗ String ×ₗ ℤ ×ₗ String :=
  toLex (r.code.value, toLex (r.kind.value, toLex (r.sourceSpanId.getD "", toLex (r.tableId.getD "",
    toLex ((r.tableRowIndex.map fun n => (n : ℤ)).getD (-1), r.financialFactId.getD "")))))

/-- `build_items`. -/
def buildItems (chunkerConfig : Dict String Json) : BuildResult :=
  let all := outcomes uuid5 sha256Hex indexVersionId corpus
  { items := sortBy itemKey (all.filterMap Outcome.item?)
    rejections := sortBy rejectionKey (all.filterMap Outcome.rejection?)
    chunkerVersion := chunkerVersion
    configHash := configHash sha256Hex (effectiveChunkerConfig chunkerConfig) }

end Build

/-! ## Subjects -/

def RetrievalItemDraft.subject (item : RetrievalItemDraft) : Option Subject :=
  match item.kind with
  | .passage => some (.span item.sourceSpanId)
  | .fact => item.financialFactId.map .fact
  | .tableRow => item.tableId.bind fun tableId => item.tableRowIndex.map (.row tableId)

def Rejection.subject (r : Rejection) : Option Subject :=
  match r.kind with
  | .passage => r.sourceSpanId.map .span
  | .fact => r.financialFactId.map .fact
  | .tableRow => r.tableId.bind fun tableId => r.tableRowIndex.map (.row tableId)

def Outcome.subject : Outcome → Option Subject
  | .item draft => draft.subject
  | .rejection r => r.subject

/-- The spans, the facts and the table rows of a corpus. -/
def subjects (corpus : Corpus) : List Subject :=
  corpus.sourceSpans.map (fun s => .span s.id) ++ corpus.financialFacts.map (fun f => .fact f.id)
    ++ corpus.tables.flatMap fun t => t.rows.zipIdx.map fun row => .row t.id row.2

/-- Spans, facts and tables have distinct identifiers. -/
structure DistinctIds (corpus : Corpus) : Prop where
  spans : (corpus.sourceSpans.map SourceSpan.id).Nodup
  facts : (corpus.financialFacts.map FinancialFact.id).Nodup
  tables : (corpus.tables.map CorpusTable.id).Nodup

section Accounts

variable {uuid5 sha256Hex : String → String} {indexVersionId : String} {corpus : Corpus}

/-- The index finds the spans by their identifiers. -/
theorem get?_spansById (h : DistinctIds corpus) {id : String} {span : SourceSpan} :
    (spansById corpus).get? id = some span ↔ span ∈ corpus.sourceSpans ∧ span.id = id := by
  have hkeys : (corpus.sourceSpans.map fun s => (s.id, s)).map Prod.fst
      = corpus.sourceSpans.map SourceSpan.id := by
    rw [List.map_map]
    rfl
  have hnodup : Dict.keys (corpus.sourceSpans.map fun s => (s.id, s)) |>.Nodup := by
    rw [Dict.keys, hkeys]
    exact h.spans
  have hself : spansById corpus = corpus.sourceSpans.map fun s => (s.id, s) :=
    Dict.update_of_disjoint hnodup (by simp [Dict.keys])
  rw [hself]
  constructor
  · intro hget
    obtain ⟨s, hs, hpair⟩ := List.mem_map.mp (Dict.mem_of_get? hget)
    obtain ⟨rfl, rfl⟩ := Prod.mk.inj hpair
    exact ⟨hs, rfl⟩
  · rintro ⟨hspan, rfl⟩
    exact Dict.get?_of_mem hnodup (List.mem_map.mpr ⟨span, hspan, rfl⟩)

theorem isSome_spansById (h : DistinctIds corpus) (id : String) :
    ((spansById corpus).get? id).isSome = (corpus.sourceSpans.map SourceSpan.id).contains id := by
  rw [Bool.eq_iff_iff, Option.isSome_iff_exists, List.contains_iff_mem, List.mem_map]
  simp only [get?_spansById h]

theorem subject_passageOutcome (passage : PassageCandidate) :
    (passageOutcome uuid5 sha256Hex indexVersionId corpus passage).subject
    = some (.span passage.sourceSpanId) := by
  unfold passageOutcome
  split <;> rfl

theorem subject_factOutcome (fact : FactCandidate) :
    (factOutcome uuid5 sha256Hex indexVersionId corpus fact).subject
    = some (.fact fact.financialFactId) := by
  unfold factOutcome
  split <;> rfl

theorem subject_rowOutcome (row : TableRowCandidate) :
    (rowOutcome uuid5 sha256Hex indexVersionId corpus row).subject
    = some (.row row.tableId row.tableRowIndex) := by
  unfold rowOutcome
  split
  · split <;> rfl
  · rfl

/-- A candidate of a row names its table and its place. -/
theorem rowCandidate_row (spans : Dict String SourceSpan) (table : CorpusTable) (index : ℕ)
    (spanId : Option String) :
    (rowCandidate spans table index spanId).tableId = table.id
      ∧ (rowCandidate spans table index spanId).tableRowIndex = index := by
  unfold rowCandidate
  split <;> exact ⟨rfl, rfl⟩

/-- The facts with a span, by their identifiers. -/
theorem map_factCandidate (spans : Dict String SourceSpan) (facts : List FinancialFact) :
    (facts.filterMap (factCandidate spans)).map (fun c => some (Subject.fact c.financialFactId))
      = (facts.filter fun f => (spans.get? f.sourceSpanId).isSome).map fun f =>
      some (.fact f.id) := by
  induction facts with
  | nil => rfl
  | cons fact facts ih =>
      rw [List.filterMap_cons, List.filter_cons, factCandidate]
      cases spans.get? fact.sourceSpanId with
      | none => exact ih
      | some span => exact congrArg (some (Subject.fact fact.id) :: ·) ih

/-- **Every subject has one outcome.** -/
theorem subjects_outcomes (h : DistinctIds corpus) :
    ((outcomes uuid5 sha256Hex indexVersionId corpus).map Outcome.subject).Perm
    ((subjects corpus).map some) := by
  have hpassages :
      ((passageCandidates corpus).map (passageOutcome uuid5 sha256Hex indexVersionId corpus)).map
      Outcome.subject = corpus.sourceSpans.map fun s => some (.span s.id) := by
    rw [passageCandidates, List.map_map, List.map_map]
    exact List.map_congr_left fun s _ => subject_passageOutcome _
  have hdangling :
      ((danglingFacts corpus).map fun fact => Outcome.rejection (unanchoredFact fact)).map
      Outcome.subject
      = (corpus.financialFacts.filter fun f => !((spansById corpus).get? f.sourceSpanId).isSome).map
          fun f => some (.fact f.id) := by
    rw [danglingFacts, List.map_map]
    simp only [isSome_spansById h]
    rfl
  have hfacts :
      ((factCandidates corpus).map (factOutcome uuid5 sha256Hex indexVersionId corpus)).map
      Outcome.subject
      = (corpus.financialFacts.filter fun f => ((spansById corpus).get? f.sourceSpanId).isSome).map
          fun f => some (.fact f.id) := by
    rw [factCandidates, ← map_factCandidate, List.map_map]
    exact List.map_congr_left fun f _ => subject_factOutcome f
  have hrows :
      ((tableRowCandidates corpus).map (rowOutcome uuid5 sha256Hex indexVersionId corpus)).map
      Outcome.subject
      = corpus.tables.flatMap fun t => t.rows.zipIdx.map fun row => some (.row t.id row.2) := by
    rw [tableRowCandidates, List.map_map, List.map_flatMap]
    refine List.flatMap_congr fun t _ => ?_
    rw [List.map_map]
    refine List.map_congr_left fun row _ => ?_
    obtain ⟨htable, hindex⟩ := rowCandidate_row (spansById corpus) t row.2 row.1
    simp only [Function.comp_apply, subject_rowOutcome, htable, hindex]
  have hall : (subjects corpus).map some = corpus.sourceSpans.map (fun s => some (.span s.id))
      ++ corpus.financialFacts.map (fun f => some (.fact f.id))
      ++ corpus.tables.flatMap fun t => t.rows.zipIdx.map fun row => some (.row t.id row.2) := by
    simp only [subjects, List.map_append, List.map_map, List.map_flatMap]
    rfl
  rw [outcomes, List.map_append, List.map_append, List.map_append, hpassages, hdangling,
    hfacts, hrows, hall]
  refine List.Perm.append_right _ ?_
  rw [List.append_assoc, ← List.map_append]
  refine List.Perm.append_left _ (List.Perm.map _ ?_)
  exact List.perm_append_comm.trans (List.filter_append_perm _ _)

/-- **The subjects of a corpus** are distinct. -/
theorem nodup_subjects (h : DistinctIds corpus) : (subjects corpus).Nodup := by
  have hspans : (corpus.sourceSpans.map fun s => Subject.span s.id).Nodup := by
    have hmap := h.spans.map (f := Subject.span) fun a b hab => Subject.span.inj hab
    rwa [List.map_map] at hmap
  have hfacts : (corpus.financialFacts.map fun f => Subject.fact f.id).Nodup := by
    have hmap := h.facts.map (f := Subject.fact) fun a b hab => Subject.fact.inj hab
    rwa [List.map_map] at hmap
  have hrows :
      (corpus.tables.flatMap fun t => t.rows.zipIdx.map fun row =>
        Subject.row t.id row.2).Nodup := by
    refine List.nodup_flatMap.mpr ⟨fun t _ => ?_, ?_⟩
    · have hindex : (t.rows.zipIdx.map Prod.snd).Nodup := by
        rw [List.zipIdx_map_snd]
        exact List.nodup_range'
      have hmap := hindex.map (f := Subject.row t.id) fun a b hab => (Subject.row.inj hab).2
      rwa [List.map_map] at hmap
    · refine (List.pairwise_map.mp h.tables).imp ?_
      intro t t' hne s hs hs'
      obtain ⟨row, -, rfl⟩ := List.mem_map.mp hs
      obtain ⟨row', -, heq⟩ := List.mem_map.mp hs'
      exact hne (Subject.row.inj heq).1.symm
  refine List.Nodup.append (List.Nodup.append hspans hfacts ?_) hrows ?_
  · intro s hs hs'
    obtain ⟨a, -, rfl⟩ := List.mem_map.mp hs
    obtain ⟨b, -, heq⟩ := List.mem_map.mp hs'
    cases heq
  · intro s hs hs'
    obtain ⟨t, -, hrow⟩ := List.mem_flatMap.mp hs'
    obtain ⟨row, -, rfl⟩ := List.mem_map.mp hrow
    rcases List.mem_append.mp hs with hs | hs
    · obtain ⟨a, -, heq⟩ := List.mem_map.mp hs
      cases heq
    · obtain ⟨a, -, heq⟩ := List.mem_map.mp hs
      cases heq

/-! ## Items -/

/-- A slice is verified if its bounds, its text and its hash are right. -/
theorem verifySpanSlice_eq_none_iff {text : String} {start stop : ℤ} {content hash : String} :
    verifySpanSlice sha256Hex text start stop content hash = none
      ↔ (0 ≤ start ∧ start ≤ stop ∧ stop ≤ (text.length : ℤ)) ∧ slice text start stop = content
        ∧ contentSha256 sha256Hex content = hash := by
  unfold verifySpanSlice
  dsimp only
  split_ifs with hrange hcontent hslice hexpected
  · simp only [false_iff]
    rintro ⟨h, -⟩
    omega
  · simp only [false_iff]
    rintro ⟨-, h, -⟩
    exact hcontent h
  · simp only [false_iff]
    rintro ⟨-, h, h'⟩
    exact hslice (by rw [h, h'])
  · simp only [false_iff]
    rintro ⟨-, -, h⟩
    exact hexpected h.symm
  · push Not at hrange hcontent hslice hexpected
    exact iff_of_true rfl ⟨⟨hrange.1, hrange.2.1, hrange.2.2⟩, hcontent, hexpected.symm⟩

/-- An item repeats its span: the canonical text at its offsets, with the hash of both. -/
def RepeatsSpan (sha256Hex : String → String) (corpus : Corpus) (item : RetrievalItemDraft) :
    Prop :=
  ∃ span ∈ corpus.sourceSpans, span.id = item.sourceSpanId
    ∧ (0 ≤ item.startChar ∧ item.startChar ≤ item.endChar
      ∧ item.endChar ≤ (corpus.canonicalText.length : ℤ))
    ∧ item.content = slice corpus.canonicalText item.startChar item.endChar
    ∧ item.contentSha256
      = contentSha256 sha256Hex (slice corpus.canonicalText item.startChar item.endChar)
    ∧ item.contentSha256 = span.textHash

/-- What is known of an accepted item. -/
structure Accepted (uuid5 sha256Hex : String → String) (indexVersionId : String) (corpus : Corpus)
    (item : RetrievalItemDraft) : Prop where
  repeats : RepeatsSpan sha256Hex corpus item
  anchor : ∃ s, item.subject = some s ∧ item.sourceAnchor = sourceAnchor s
  id : item.id = itemId uuid5 indexVersionId item.kind item.sourceAnchor item.contentSha256
  digest : item.contentSha256 = contentSha256 sha256Hex item.content

/-- A span that was verified is repeated. -/
theorem repeatsSpan_of_verified {span : SourceSpan} (hspan : span ∈ corpus.sourceSpans)
    (h : verifySpanSlice sha256Hex corpus.canonicalText span.startChar span.endChar span.text
      span.textHash = none)
    {item : RetrievalItemDraft} (hid : item.sourceSpanId = span.id)
    (hstart : item.startChar = span.startChar)
    (hstop : item.endChar = span.endChar) (hcontent : item.content = span.text)
    (hdigest : item.contentSha256 = contentSha256 sha256Hex span.text) :
    RepeatsSpan sha256Hex corpus item := by
  obtain ⟨hrange, hslice, hhash⟩ := verifySpanSlice_eq_none_iff.mp h
  refine ⟨span, hspan, hid.symm, ?_, ?_, ?_, hdigest.trans hhash⟩
  · rw [hstart, hstop]
    exact hrange
  · rw [hcontent, hstart, hstop, hslice]
  · rw [hdigest, hstart, hstop, hslice]

/-- **An item of a passage** covers its slice and names its evidence. -/
theorem accepted_of_passage {passage : PassageCandidate} (hmem : passage ∈ passageCandidates corpus)
    {item : RetrievalItemDraft}
    (h : passageOutcome uuid5 sha256Hex indexVersionId corpus passage = .item item) :
    Accepted uuid5 sha256Hex indexVersionId corpus item := by
  obtain ⟨span, hspan, rfl⟩ := List.mem_map.mp hmem
  unfold passageOutcome at h
  split at h
  · cases h
  · rename_i hverify
    obtain rfl := (Outcome.item.inj h)
    exact ⟨repeatsSpan_of_verified hspan hverify rfl rfl rfl rfl rfl, ⟨_, rfl, rfl⟩, rfl, rfl⟩

/-- **An item of a fact** covers its slice and names its evidence. -/
theorem accepted_of_fact (hids : DistinctIds corpus) {fact : FactCandidate}
    (hmem : fact ∈ factCandidates corpus)
    {item : RetrievalItemDraft}
    (h : factOutcome uuid5 sha256Hex indexVersionId corpus fact = .item item) :
    Accepted uuid5 sha256Hex indexVersionId corpus item := by
  obtain ⟨f, -, hcandidate⟩ := List.mem_filterMap.mp hmem
  obtain ⟨span, hget, rfl⟩ := Option.map_eq_some_iff.mp hcandidate
  obtain ⟨hspan, -⟩ := (get?_spansById hids).mp hget
  unfold factOutcome at h
  split at h
  · cases h
  · rename_i hverify
    obtain rfl := (Outcome.item.inj h)
    exact ⟨repeatsSpan_of_verified hspan hverify rfl rfl rfl rfl rfl, ⟨_, rfl, rfl⟩, rfl, rfl⟩

/-- **An item of a row** covers its slice and names its evidence. -/
theorem accepted_of_row (hids : DistinctIds corpus) {row : TableRowCandidate}
    (hmem : row ∈ tableRowCandidates corpus)
    {item : RetrievalItemDraft}
    (h : rowOutcome uuid5 sha256Hex indexVersionId corpus row = .item item) :
    Accepted uuid5 sha256Hex indexVersionId corpus item := by
  obtain ⟨table, -, hrow⟩ := List.mem_flatMap.mp hmem
  obtain ⟨⟨spanId, index⟩, -, rfl⟩ := List.mem_map.mp hrow
  cases hfound : spanId.bind (spansById corpus).get? with
  | none =>
      simp only [rowCandidate, hfound, rowOutcome] at h
      cases h
  | some span =>
      obtain ⟨id, -, hget⟩ := Option.bind_eq_some_iff.mp hfound
      obtain ⟨hspan, -⟩ := (get?_spansById hids).mp hget
      simp only [rowCandidate, hfound, rowOutcome] at h
      split at h
      · cases h
      · rename_i hverify
        obtain rfl := (Outcome.item.inj h)
        exact ⟨repeatsSpan_of_verified hspan hverify rfl rfl rfl rfl rfl, ⟨_, rfl, rfl⟩, rfl, rfl⟩

/-- **An accepted item** repeats its span and is named after its kind, anchor and hash. -/
theorem accepted_of_mem (hids : DistinctIds corpus) {item : RetrievalItemDraft}
    (h : Outcome.item item ∈ outcomes uuid5 sha256Hex indexVersionId corpus) :
    Accepted uuid5 sha256Hex indexVersionId corpus item := by
  rw [outcomes, List.mem_append, List.mem_append, List.mem_append] at h
  rcases h with ((h | h) | h) | h
  · obtain ⟨passage, hmem, heq⟩ := List.mem_map.mp h
    exact accepted_of_passage hmem heq
  · obtain ⟨fact, -, heq⟩ := List.mem_map.mp h
    cases heq
  · obtain ⟨fact, hmem, heq⟩ := List.mem_map.mp h
    exact accepted_of_fact hids hmem heq
  · obtain ⟨row, hmem, heq⟩ := List.mem_map.mp h
    exact accepted_of_row hids hmem heq

/-! ## Anchors and identifiers -/

theorem Kind.value_injective : Function.Injective Kind.value := by
  intro k k' h
  cases k <;> cases k' <;> first | rfl | exact absurd h (by decide)

theorem Code.value_injective : Function.Injective Code.value := by
  intro c c' h
  cases c <;> cases c' <;> first | rfl | exact absurd h (by decide)

/-- The kind of a subject. -/
def Subject.kind : Subject → Kind
  | .span _ => .passage
  | .fact _ => .fact
  | .row _ _ => .tableRow

/-- The kind of an item is that of its subject. -/
theorem RetrievalItemDraft.kind_of_subject {item : RetrievalItemDraft} {s : Subject}
    (h : item.subject = some s) :
    item.kind = s.kind := by
  unfold subject at h
  cases hkind : item.kind with
  | passage =>
      rw [hkind] at h
      rw [← Option.some.inj h, Subject.kind]
  | fact =>
      rw [hkind] at h
      obtain ⟨id, -, rfl⟩ := Option.map_eq_some_iff.mp h
      rfl
  | tableRow =>
      rw [hkind] at h
      obtain ⟨tableId, -, hrow⟩ := Option.bind_eq_some_iff.mp h
      obtain ⟨index, -, rfl⟩ := Option.map_eq_some_iff.mp hrow
      rfl

theorem toList_index (n : ℕ) : (toString n).toList = Nat.toDigits 10 n := by
  rw [Nat.toString_eq_ofList_toDigits, String.toList_ofList]

theorem not_mem_index {c : Char} (hc : c.isDigit = false) (n : ℕ) : c ∉ (toString n).toList := by
  intro hmem
  rw [toList_index] at hmem
  rw [Json.isDigit_toDigits n c hmem] at hc
  cases hc

/-- A number is known by its text. -/
theorem index_injective {n n' : ℕ} (h : (toString n).toList = (toString n').toList) : n = n' := by
  rw [toList_index, toList_index] at h
  rw [← Nat.ofDigitChars_ten_toDigits (n := n), h, Nat.ofDigitChars_ten_toDigits]

/-- The anchor of a row; its index is behind the last colon. -/
theorem toList_rowAnchor (tableId : String) (index : ℕ) :
    (sourceAnchor (.row tableId index)).toList
      = "table:".toList ++ (tableId.toList ++ ':' :: (toString index).toList) := by
  simp only [sourceAnchor, String.toList_append]
  rw [List.append_assoc, List.append_assoc]
  rfl

/-- **Different subjects of one kind have different anchors.** -/
theorem sourceAnchor_injective {s s' : Subject} (hkind : s.kind = s'.kind)
    (h : sourceAnchor s = sourceAnchor s') :
    s = s' := by
  cases s with
  | span id =>
      cases s' with
      | span id' => exact congrArg Subject.span ((String.append_right_inj _).mp h)
      | fact id' => cases hkind
      | row tableId index => cases hkind
  | fact id =>
      cases s' with
      | span id' => cases hkind
      | fact id' => exact congrArg Subject.fact ((String.append_right_inj _).mp h)
      | row tableId index => cases hkind
  | row tableId index =>
      cases s' with
      | span id' => cases hkind
      | fact id' => cases hkind
      | row tableId' index' =>
          have htexts := congrArg String.toList h
          rw [toList_rowAnchor, toList_rowAnchor] at htexts
          -- the index has no colon, so the last colon is the border on both sides
          rcases Delimited.border_cases (List.append_cancel_left htexts) with ⟨hid, hindex⟩ | ⟨m, -,
            hm⟩ | ⟨m, -, hm⟩
          · rw [String.toList_inj.mp hid, index_injective hindex]
          · exact absurd (hm ▸ List.mem_append_right m List.mem_cons_self) (not_mem_index rfl index)
          · exact absurd (hm ▸ List.mem_append_right m List.mem_cons_self)
              (not_mem_index rfl index')

theorem not_mem_kind (kind : Kind) : '|' ∉ kind.value.toList := by
  cases kind <;> decide

/-- A digest is text of hexadecimal digits. -/
def HexDigests (sha256Hex : String → String) : Prop :=
  ∀ text, ∀ c ∈ (sha256Hex text).toList, c.isDigit ∨ ('a' ≤ c ∧ c ≤ 'f')

theorem not_mem_contentSha256 (hhex : HexDigests sha256Hex) (text : String) :
    '|' ∉ (contentSha256 sha256Hex text).toList := by
  rw [contentSha256, String.toList_append, List.mem_append]
  rintro (h | h)
  · exact absurd h (by decide)
  · rcases hhex text '|' h with h | ⟨-, h⟩
    · exact absurd h (by decide)
    · exact absurd h (by decide)

/-- The text behind an identifier. -/
theorem toList_itemName (kind : Kind) (anchor digest : String) :
    (indexVersionId ++ "|" ++ kind.value ++ "|" ++ anchor ++ "|" ++ digest).toList
      = (indexVersionId ++ "|").toList
      ++ (kind.value.toList ++ '|' :: (anchor.toList ++ '|' :: digest.toList)) := by
  simp only [String.toList_append, List.append_assoc]
  rfl

/-- **One identifier** is that of one kind and one anchor. -/
theorem itemId_inj (huuid : Function.Injective uuid5) {kind kind' : Kind}
    {anchor anchor' digest digest' : String}
    (hdigest : '|' ∉ digest.toList) (hdigest' : '|' ∉ digest'.toList)
    (h : itemId uuid5 indexVersionId kind anchor digest
      = itemId uuid5 indexVersionId kind' anchor' digest') :
    kind = kind' ∧ anchor = anchor' := by
  have hnames := congrArg String.toList (huuid h)
  rw [toList_itemName, toList_itemName] at hnames
  obtain ⟨hkind, hanchor⟩ :=
    Delimited.border_unique (not_mem_kind kind) (not_mem_kind kind')
      (List.append_cancel_left hnames)
  refine ⟨Kind.value_injective (String.toList_inj.mp hkind), ?_⟩
  rcases Delimited.border_cases hanchor with ⟨ha, -⟩ | ⟨m, -, hm⟩ | ⟨m, -, hm⟩
  · exact String.toList_inj.mp ha
  · exact absurd (hm ▸ List.mem_append_right m List.mem_cons_self) hdigest
  · exact absurd (hm ▸ List.mem_append_right m List.mem_cons_self) hdigest'

/-- **Items with one identifier are about one subject.** -/
theorem subject_of_id (huuid : Function.Injective uuid5) (hhex : HexDigests sha256Hex)
    {item item' : RetrievalItemDraft}
    (h : Accepted uuid5 sha256Hex indexVersionId corpus item)
    (h' : Accepted uuid5 sha256Hex indexVersionId corpus item') (hid : item.id = item'.id) :
    item.subject = item'.subject := by
  rw [h.id, h'.id] at hid
  obtain ⟨hkind, hanchor⟩ := itemId_inj huuid (h.digest ▸ not_mem_contentSha256 hhex _)
    (h'.digest ▸ not_mem_contentSha256 hhex _) hid
  obtain ⟨s, hs, ha⟩ := h.anchor
  obtain ⟨s', hs', ha'⟩ := h'.anchor
  rw [ha, ha'] at hanchor
  rw [hs, hs', sourceAnchor_injective _ hanchor]
  rw [← item.kind_of_subject hs, ← item'.kind_of_subject hs', hkind]

/-! ## Outcomes by their subjects -/

/-- Each outcome is counted once, among the items or among the rejections. -/
theorem countP_outcomes (all : List Outcome) (s : Subject) :
    (all.filterMap Outcome.item?).countP (fun i => i.subject = some s)
        + (all.filterMap Outcome.rejection?).countP (fun r => r.subject = some s)
      = (all.map Outcome.subject).count (some s) := by
  induction all with
  | nil => rfl
  | cons o all ih =>
      rw [List.map_cons, List.count_cons, ← ih]
      cases o with
      | item draft =>
          simp only [List.filterMap_cons, Outcome.item?, Outcome.rejection?, List.countP_cons,
            Outcome.subject,
            decide_eq_true_eq, beq_iff_eq]
          omega
      | rejection r =>
          simp only [List.filterMap_cons, Outcome.item?, Outcome.rejection?, List.countP_cons,
            Outcome.subject,
            decide_eq_true_eq, beq_iff_eq]
          omega

/-- No subject has two outcomes. -/
theorem nodup_outcomes (h : DistinctIds corpus) :
    ((outcomes uuid5 sha256Hex indexVersionId corpus).map Outcome.subject).Nodup :=
  (subjects_outcomes h).nodup_iff.mpr ((nodup_subjects h).map (Option.some_injective _))

/-- An outcome is known by its subject. -/
theorem eq_of_subject (h : DistinctIds corpus) {o o' : Outcome}
    (ho : o ∈ outcomes uuid5 sha256Hex indexVersionId corpus)
    (ho' : o' ∈ outcomes uuid5 sha256Hex indexVersionId corpus) (heq : o.subject = o'.subject) :
    o = o' :=
  List.inj_on_of_nodup_map (nodup_outcomes h) ho ho' heq

/-- Every outcome is about a subject of the corpus. -/
theorem exists_subject (h : DistinctIds corpus) {o : Outcome}
    (ho : o ∈ outcomes uuid5 sha256Hex indexVersionId corpus) :
    ∃ s ∈ subjects corpus, o.subject = some s := by
  obtain ⟨s, hs, heq⟩ := List.mem_map.mp ((subjects_outcomes h).mem_iff.mp (List.mem_map_of_mem ho))
  exact ⟨s, hs, heq.symm⟩

/-- The items are the outcomes of that kind. -/
theorem mem_items_iff {all : List Outcome} {item : RetrievalItemDraft} :
    item ∈ all.filterMap Outcome.item? ↔ .item item ∈ all := by
  rw [List.mem_filterMap]
  constructor
  · rintro ⟨o, ho, heq⟩
    cases o with
    | item draft => rwa [← Option.some.inj heq]
    | rejection r => cases heq
  · exact fun ho => ⟨_, ho, rfl⟩

/-- The rejections are the outcomes of that kind. -/
theorem mem_rejections_iff {all : List Outcome} {r : Rejection} :
    r ∈ all.filterMap Outcome.rejection? ↔ .rejection r ∈ all := by
  rw [List.mem_filterMap]
  constructor
  · rintro ⟨o, ho, heq⟩
    cases o with
    | item draft => cases heq
    | rejection r' => rwa [← Option.some.inj heq]
  · exact fun ho => ⟨_, ho, rfl⟩

/-- The items are distinct in their identifiers. -/
theorem nodup_ids (hids : DistinctIds corpus) (huuid : Function.Injective uuid5)
    (hhex : HexDigests sha256Hex) :
    (((outcomes uuid5 sha256Hex indexVersionId corpus).filterMap Outcome.item?).map
      RetrievalItemDraft.id).Nodup := by
  have hitems :
      ((outcomes uuid5 sha256Hex indexVersionId corpus).filterMap Outcome.item?).Nodup := by
    refine List.Nodup.filterMap ?_ (List.Nodup.of_map _ (nodup_outcomes hids))
    intro o o' item ho ho'
    cases o with
    | item draft =>
        cases o' with
        | item draft' => rw [Option.some.inj ho, Option.some.inj ho']
        | rejection r => cases ho'
    | rejection r => cases ho
  refine List.Nodup.map_on ?_ hitems
  intro item hitem item' hitem' hid
  have hmem := mem_items_iff.mp hitem
  have hmem' := mem_items_iff.mp hitem'
  have hsubject :=
    subject_of_id huuid hhex (accepted_of_mem hids hmem) (accepted_of_mem hids hmem') hid
  exact Outcome.item.inj (eq_of_subject hids hmem hmem' hsubject)

/-! ## The order of the corpus -/

/-- The key of an item tells its subject. -/
theorem subject_of_itemKey {item item' : RetrievalItemDraft}
    (h : Accepted uuid5 sha256Hex indexVersionId corpus item)
    (h' : Accepted uuid5 sha256Hex indexVersionId corpus item')
    (hkey : itemKey item = itemKey item') :
    item.subject = item'.subject := by
  obtain ⟨hkind, hrest⟩ := Prod.mk.inj (congrArg ofLex hkey)
  obtain ⟨hanchor, -⟩ := Prod.mk.inj (congrArg ofLex hrest)
  obtain ⟨s, hs, ha⟩ := h.anchor
  obtain ⟨s', hs', ha'⟩ := h'.anchor
  rw [ha, ha'] at hanchor
  rw [hs, hs', sourceAnchor_injective _ hanchor]
  rw [← item.kind_of_subject hs, ← item'.kind_of_subject hs', Kind.value_injective hkind]

/-- The key of a rejection tells its subject. -/
theorem subject_of_rejectionKey {r r' : Rejection} {s s' : Subject} (h : r.subject = some s)
    (h' : r'.subject = some s') (hkey : rejectionKey r = rejectionKey r') :
    r.subject = r'.subject := by
  obtain ⟨-, hkey⟩ := Prod.mk.inj (congrArg ofLex hkey)
  obtain ⟨hkind, hkey⟩ := Prod.mk.inj (congrArg ofLex hkey)
  obtain ⟨hspan, hkey⟩ := Prod.mk.inj (congrArg ofLex hkey)
  obtain ⟨htable, hkey⟩ := Prod.mk.inj (congrArg ofLex hkey)
  obtain ⟨hindex, hfact⟩ := Prod.mk.inj (congrArg ofLex hkey)
  unfold Rejection.subject at h h' ⊢
  rw [← Kind.value_injective hkind] at h' ⊢
  cases hk : r.kind with
  | passage =>
      rw [hk] at h h'
      obtain ⟨id, hid, -⟩ := Option.map_eq_some_iff.mp h
      obtain ⟨id', hid', -⟩ := Option.map_eq_some_iff.mp h'
      rw [hid, hid'] at hspan ⊢
      exact congrArg (fun id => some (Subject.span id)) hspan
  | fact =>
      rw [hk] at h h'
      obtain ⟨id, hid, -⟩ := Option.map_eq_some_iff.mp h
      obtain ⟨id', hid', -⟩ := Option.map_eq_some_iff.mp h'
      rw [hid, hid'] at hfact ⊢
      exact congrArg (fun id => some (Subject.fact id)) hfact
  | tableRow =>
      rw [hk] at h h'
      obtain ⟨tableId, hid, hrow⟩ := Option.bind_eq_some_iff.mp h
      obtain ⟨tableId', hid', hrow'⟩ := Option.bind_eq_some_iff.mp h'
      obtain ⟨index, hn, -⟩ := Option.map_eq_some_iff.mp hrow
      obtain ⟨index', hn', -⟩ := Option.map_eq_some_iff.mp hrow'
      rw [hid, hid'] at htable
      rw [hn, hn'] at hindex
      have heq : index = index' := Int.ofNat.inj hindex
      rw [hid, hid', hn, hn', show tableId = tableId' from htable, heq]

/-- A corpus with the same rows in another order. -/
structure Reordered (corpus corpus' : Corpus) : Prop where
  spans : corpus'.sourceSpans.Perm corpus.sourceSpans
  facts : corpus'.financialFacts.Perm corpus.financialFacts
  tables : corpus'.tables.Perm corpus.tables
  rest : corpus' = { corpus with
    sourceSpans := corpus'.sourceSpans, financialFacts := corpus'.financialFacts, tables :=
      corpus'.tables }

/-- Reordering a corpus keeps its identifiers distinct. -/
theorem DistinctIds.reordered {corpus' : Corpus} (h : DistinctIds corpus)
    (hperm : Reordered corpus corpus') :
    DistinctIds corpus' :=
  ⟨(hperm.spans.map _).nodup_iff.mpr h.spans, (hperm.facts.map _).nodup_iff.mpr h.facts,
    (hperm.tables.map _).nodup_iff.mpr h.tables⟩

/-- Reordering a corpus keeps what the index finds. -/
theorem get?_reordered {corpus' : Corpus} (h : DistinctIds corpus)
    (hperm : Reordered corpus corpus') (id : String) :
    (spansById corpus').get? id = (spansById corpus).get? id := by
  ext span
  rw [get?_spansById h, get?_spansById (h.reordered hperm), hperm.spans.mem_iff]

/-- **The outcomes** of a reordered corpus are the same ones. -/
theorem outcomes_reordered {corpus' : Corpus} (h : DistinctIds corpus)
    (hperm : Reordered corpus corpus') :
    (outcomes uuid5 sha256Hex indexVersionId corpus').Perm
    (outcomes uuid5 sha256Hex indexVersionId corpus) := by
  have hget : (spansById corpus').get? = (spansById corpus).get? := funext (get?_reordered h hperm)
  have hpassage : passageOutcome uuid5 sha256Hex indexVersionId corpus'
      = passageOutcome uuid5 sha256Hex indexVersionId corpus := by
    rw [hperm.rest]
    rfl
  have hfact : factOutcome uuid5 sha256Hex indexVersionId corpus'
      = factOutcome uuid5 sha256Hex indexVersionId corpus := by
    rw [hperm.rest]
    rfl
  have hrow : rowOutcome uuid5 sha256Hex indexVersionId corpus'
      = rowOutcome uuid5 sha256Hex indexVersionId corpus := by
    rw [hperm.rest]
    rfl
  have hdangling : (danglingFacts corpus').Perm (danglingFacts corpus) := by
    have hpred :
        (fun fact : FinancialFact => !(corpus'.sourceSpans.map SourceSpan.id).contains
        fact.sourceSpanId)
        = fun fact => !(corpus.sourceSpans.map SourceSpan.id).contains fact.sourceSpanId := by
      funext fact
      rw [← isSome_spansById h, ← isSome_spansById (h.reordered hperm), hget]
    rw [danglingFacts, danglingFacts, hpred]
    exact hperm.facts.filter _
  have hfacts : (factCandidates corpus').Perm (factCandidates corpus) := by
    have hcandidate : factCandidate (spansById corpus') = factCandidate (spansById corpus) := by
      funext fact
      rw [factCandidate, factCandidate, hget]
    rw [factCandidates, factCandidates, hcandidate]
    exact hperm.facts.filterMap _
  have hrows : (tableRowCandidates corpus').Perm (tableRowCandidates corpus) := by
    have hcandidate : rowCandidate (spansById corpus') = rowCandidate (spansById corpus) := by
      funext table index spanId
      rw [rowCandidate, rowCandidate, hget]
    rw [tableRowCandidates, tableRowCandidates, hcandidate]
    exact hperm.tables.flatMap_right _
  rw [outcomes, outcomes, hpassage, hfact, hrow]
  exact (((hperm.spans.map _).map _).append (hdangling.map _)).append (hfacts.map _)
    |>.append (hrows.map _)

/-- **The order of the corpus** does not matter. -/
theorem buildItems_reordered {corpus' : Corpus} (h : DistinctIds corpus)
    (hperm : Reordered corpus corpus')
    (chunkerConfig : Dict String Json) :
    buildItems uuid5 sha256Hex indexVersionId corpus' chunkerConfig
      = buildItems uuid5 sha256Hex indexVersionId corpus chunkerConfig := by
  have hall :
      (outcomes uuid5 sha256Hex indexVersionId corpus').Perm
      (outcomes uuid5 sha256Hex indexVersionId corpus) :=
    outcomes_reordered h hperm
  have hitems :
      sortBy itemKey ((outcomes uuid5 sha256Hex indexVersionId corpus').filterMap Outcome.item?)
      = sortBy itemKey
        ((outcomes uuid5 sha256Hex indexVersionId corpus).filterMap Outcome.item?) := by
    refine StableSort.sortBy_eq_of_perm (hall.filterMap _) fun item hitem item' hitem' hkey => ?_
    have hmem := hall.mem_iff.mp (mem_items_iff.mp hitem)
    have hmem' := hall.mem_iff.mp (mem_items_iff.mp hitem')
    have hsubject := subject_of_itemKey (accepted_of_mem h hmem) (accepted_of_mem h hmem') hkey
    exact Outcome.item.inj (eq_of_subject h hmem hmem' hsubject)
  have hrejections :
      sortBy rejectionKey
        ((outcomes uuid5 sha256Hex indexVersionId corpus').filterMap Outcome.rejection?)
      = sortBy rejectionKey
        ((outcomes uuid5 sha256Hex indexVersionId corpus).filterMap Outcome.rejection?) := by
    refine StableSort.sortBy_eq_of_perm (hall.filterMap _) fun r hr r' hr' hkey => ?_
    have hmem := hall.mem_iff.mp (mem_rejections_iff.mp hr)
    have hmem' := hall.mem_iff.mp (mem_rejections_iff.mp hr')
    obtain ⟨s, -, hs⟩ := exists_subject h hmem
    obtain ⟨s', -, hs'⟩ := exists_subject h hmem'
    exact Outcome.rejection.inj (eq_of_subject h hmem hmem' (subject_of_rejectionKey hs hs' hkey))
  simp only [buildItems, hitems, hrejections]

/-! ## The accounts -/

/-- What the builder accounts for: every subject has one item or one rejection and nothing else has,
every item repeats its span, the identifiers are distinct, and a reordered corpus has the same
result. -/
structure Accounts (uuid5 sha256Hex : String → String) (indexVersionId : String) (corpus : Corpus)
    (chunkerConfig : Dict String Json) (result : BuildResult) : Prop where
  once : ∀ s ∈ subjects corpus, result.items.countP (fun i => i.subject = some s)
    + result.rejections.countP (fun r => r.subject = some s) = 1
  items : ∀ item ∈ result.items, ∃ s ∈ subjects corpus, item.subject = some s
  rejections : ∀ r ∈ result.rejections, ∃ s ∈ subjects corpus, r.subject = some s
  repeats : ∀ item ∈ result.items, RepeatsSpan sha256Hex corpus item
  ids : (result.items.map RetrievalItemDraft.id).Nodup
  reordered : ∀ corpus', Reordered corpus corpus' →
    buildItems uuid5 sha256Hex indexVersionId corpus' chunkerConfig = result

end Accounts

section

variable (uuid5 sha256Hex : String → String) (indexVersionId : String) (corpus : Corpus)

/-- **The builder accounts for everything.** -/
theorem builder_accounts (huuid : Function.Injective uuid5) (hhex : HexDigests sha256Hex)
    (hids : DistinctIds corpus)
    (chunkerConfig : Dict String Json) :
    Accounts uuid5 sha256Hex indexVersionId corpus chunkerConfig
      (buildItems uuid5 sha256Hex indexVersionId corpus chunkerConfig) where
  once s hs := by
    rw [buildItems, (StableSort.sortBy_perm itemKey _).countP_eq,
      (StableSort.sortBy_perm rejectionKey _).countP_eq,
      countP_outcomes, (subjects_outcomes hids).count_eq]
    exact List.count_eq_one_of_mem ((nodup_subjects hids).map (Option.some_injective _))
      (List.mem_map_of_mem hs)
  items item hitem :=
    exists_subject hids (mem_items_iff.mp (StableSort.mem_sortBy.mp hitem))
  rejections r hr :=
    exists_subject hids (mem_rejections_iff.mp (StableSort.mem_sortBy.mp hr))
  repeats item hitem :=
    (accepted_of_mem hids (mem_items_iff.mp (StableSort.mem_sortBy.mp hitem))).repeats
  ids := ((StableSort.sortBy_perm itemKey _).map _).nodup_iff.mpr (nodup_ids hids huuid hhex)
  reordered _ hperm := buildItems_reordered hids hperm chunkerConfig

end

/-! ### A corpus -/

/-- A corpus with one good span, a fact that dangles and a row without a span. -/
def revenueCorpus : Corpus where
  entityId := "e1"
  documentId := "d1"
  documentVersionId := "dv1"
  form := some "10-K"
  canonicalText := "Revenue 12"
  sourceSpans :=
    [{ id := "s1", sectionId := "sec", startChar := 0, endChar := 10, text := "Revenue 12",
       textHash := "sha256:1f68449f523a176f9bf31ad0d4c8c9bd4e6457cd8662c9490b4b036714d88749",
       headingPath := .single "Income" },
     { id := "s2", sectionId := "sec", startChar := 0, endChar := 11, text := "Revenue 12",
       textHash := "sha256:1f68449f523a176f9bf31ad0d4c8c9bd4e6457cd8662c9490b4b036714d88749",
       headingPath := .none }]
  financialFacts :=
    [{ id := "f1", sourceSpanId := "s1", period := some "2023" },
    { id := "f2", sourceSpanId := "s9", period := none }]
  tables := [{ id := "t1", sectionId := "sec", headingPath := .none, rows := [some "s1", none] }]

/-- The digests of the texts of the corpus. -/
def knownHex (text : String) : String :=
  if text = "Revenue 12" then "1f68449f523a176f9bf31ad0d4c8c9bd4e6457cd8662c9490b4b036714d88749"
  else "236238ef9c37b3a30de1049913aefc211a9edd8fd49b82cb9f27fb38f6564a41"

/-- The identifiers of the items of the corpus. -/
def knownIds : Dict String String :=
  [("v1|passage|span:s1|sha256:1f68449f523a176f9bf31ad0d4c8c9bd4e6457cd8662c9490b4b036714d88749",
      "3611abb0-c62e-5c6a-b9c8-73e40579a8ae"),
    ("v1|fact|fact:f1|sha256:1f68449f523a176f9bf31ad0d4c8c9bd4e6457cd8662c9490b4b036714d88749",
      "8b986d24-b1e6-5cd5-a2d3-106516b1e77f"),
    ("v1|table_row|table:t1:0|sha256:1f68449f523a176f9bf31ad0d4c8c9bd4e6457cd8662c9490b4b036714d88749",
      "4674fbd1-40f5-5ec3-890d-e4e4089e1375")]

theorem hexDigests_knownHex : HexDigests knownHex := by
  have hall : ∀ text,
      ((knownHex text).toList.all fun c => c.isDigit || (decide ('a' ≤ c) && decide (c ≤ 'f')))
      = true := by
    intro text
    unfold knownHex
    split <;> decide
  intro text c hc
  simpa using List.all_eq_true.mp (hall text) c hc

/-- Three items and three rejections, and everything is accounted for. -/
theorem revenue_accounts :
    ((buildItems (tabulated knownIds) knownHex "v1" revenueCorpus []).items.map
          fun item => (item.sourceAnchor, item.id))
        = [("fact:f1", "8b986d24-b1e6-5cd5-a2d3-106516b1e77f"),
          ("span:s1", "3611abb0-c62e-5c6a-b9c8-73e40579a8ae"),
          ("table:t1:0", "4674fbd1-40f5-5ec3-890d-e4e4089e1375")]
      ∧ ((buildItems (tabulated knownIds) knownHex "v1" revenueCorpus []).rejections.map fun r =>
        (r.code, r.kind))
        = [(.offsetMismatch, .passage), (.unanchoredFact, .fact), (.unanchoredTableRow, .tableRow)]
      ∧ Accounts (tabulated knownIds) knownHex "v1" revenueCorpus []
          (buildItems (tabulated knownIds) knownHex "v1" revenueCorpus []) :=
  ⟨by decide, by decide,
    builder_accounts (tabulated knownIds) knownHex "v1" revenueCorpus
      (tabulated_injective (by decide) (by decide)) hexDigests_knownHex ⟨by decide, by
        decide, by decide⟩ []⟩

end ItemBuilder
