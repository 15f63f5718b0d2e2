/-
# Review of extraction proposals

The tables that review commands, corrections and the worker's persistence write, and the commands
themselves: each is one transaction that holds the locks of the runs it reads, so it is one function
of the database.

* A proposal is open until a review disposes it; a conflict is open until a review resolves it.
* An approved record is a chain of immutable versions with a head.
* `Revalidation` is what the commands use of the deterministic validator: hashes of facts, the
  drafts of a list of rows, etags and size bounds.
-/
import Mathlib.Data.List.Sort
import Mathlib.Data.List.Dedup
import EvidenceLab.ExceptRules
import EvidenceLab.Workflow

namespace Extraction

open Except

/-! ## Errors -/

/-- `api_error`. -/
structure ApiError where
  status : ℕ
  code : String
  message : String
  /-- `details["resource_id"]`. -/
  resource : Option String
  deriving DecidableEq

/-- What a command can raise. -/
inductive Failure where
  | api (e : ApiError)
  /-- `DiscoveryChanged`, `SerializationFailure`, `DeadlockDetected`. -/
  | retry
  /-- Any other exception. -/
  | other (type : String)

namespace Failure

def notFound (message : String) : Failure := .api ⟨404, "NOT_FOUND", message, none⟩
def conflict (message : String) : Failure := .api ⟨409, "CONFLICT", message, none⟩
def precondition (message : String) : Failure := .api ⟨412, "PRECONDITION_FAILED", message, none⟩

/-- `reads.too_large`. -/
def tooLarge (id : String) : Failure :=
  .api ⟨413, "EXTRACTION_TOO_LARGE", "Extraction resource exceeds the read limit.", some id⟩

/-- `validation.invalid`. -/
def invalid (id : String) : Failure :=
  .api ⟨422, "VALIDATION_ERROR", "Extraction failed revalidation.", some id⟩

end Failure

/-! ## The tables -/

inductive ProposalState where
  | proposed
  | needsReview
  | accepted
  | rejected
  | superseded
  deriving DecidableEq, Repr

def ProposalState.isOpen : ProposalState → Bool
  | .proposed | .needsReview => true
  | .accepted | .rejected | .superseded => false

structure ReviewRun where
  id : String
  workspaceId : String
  status : RunStatus
  /-- The manifest's `conflict_occurrence_policy` is `run/v1`. -/
  perRun : Bool
  deriving DecidableEq

structure Proposal where
  id : String
  runId : String
  workspaceId : String
  metricId : String
  payload : Doc
  evidence : List Doc
  summary : Doc
  state : ProposalState
  version : ℕ

inductive ConflictStatus where
  | opened
  | resolved
  deriving DecidableEq, Repr

/-- A row of `extraction_conflicts` with its members. -/
structure Conflict where
  id : String
  workspaceId : String
  conflictKey : String
  reasonCodes : List String
  occurrenceRunId : Option String
  status : ConflictStatus
  members : List String

/-- An entry of a review's `resolutions`. -/
structure Resolution where
  reviewId : String
  selectedWinnerIds : List String
  approvedRecordIds : List String
  reason : String

structure ApprovedVersion where
  id : String
  version : ℕ
  parent : Option String
  origin : String
  payload : Doc
  comparability : Option String
  evidence : List Doc
  /-- The runs of `validation_context["source_runs"]`. -/
  sourceRuns : List String

structure ApprovedRecord where
  id : String
  kind : String
  metricId : String
  versions : List ApprovedVersion
  currentVersionId : String

inductive ActionName where
  | accept
  | edit
  | reject
  | merge
  deriving DecidableEq, Repr

def ActionName.text : ActionName → String
  | .accept => "accept"
  | .edit => "edit"
  | .reject => "reject"
  | .merge => "merge"

/-- A row of `extraction_reviews`. -/
structure ReviewRow where
  id : String
  action : ActionName
  inputIds : List String
  resolutions : List (String × Resolution)
  resultIds : List String

structure ReviewDb where
  runs : List ReviewRun
  proposals : List Proposal
  conflicts : List Conflict
  records : List ApprovedRecord
  reviews : List ReviewRow

namespace ReviewDb

def run? (s : ReviewDb) (id : String) : Option ReviewRun := s.runs.find? fun r => r.id == id

def proposal? (s : ReviewDb) (id : String) : Option Proposal :=
  s.proposals.find? fun p => p.id == id

def conflict? (s : ReviewDb) (id : String) : Option Conflict :=
  s.conflicts.find? fun c => c.id == id

def record? (s : ReviewDb) (id : String) : Option ApprovedRecord :=
  s.records.find? fun r => r.id == id

/-- A proposal of the run is open. -/
def hasOpenProposal (s : ReviewDb) (run : String) : Bool :=
  s.proposals.any fun p => p.runId == run && p.state.isOpen

/-- The conflict has a member in the run. -/
def reaches (s : ReviewDb) (run : String) (c : Conflict) : Bool :=
  s.proposals.any fun p => p.runId == run && c.members.contains p.id

/-- A conflict with a member in the run is open. -/
def hasOpenConflict (s : ReviewDb) (run : String) : Bool :=
  s.conflicts.any fun c => c.status == .opened && s.reaches run c

/-- `fel_assert_extraction_run_open`. -/
def runIsOpen (s : ReviewDb) (run : String) : Bool :=
  match s.run? run with
  | some r => !r.status.isTerminal
  | none => false

end ReviewDb

/-- The version that the record points at. -/
def ApprovedRecord.head? (r : ApprovedRecord) : Option ApprovedVersion :=
  r.versions.find? fun v => v.id == r.currentVersionId

/-! ## Facts and their readings -/

/-- A row of the comparison set. -/
structure Row where
  id : String
  runId : String
  metricId : String
  state : ProposalState
  version : ℕ
  payload : Doc
  evidence : List Doc
  summary : Doc
  sourceRunIds : List String

def Proposal.row (p : Proposal) : Row :=
  ⟨p.id, p.runId, p.metricId, p.state, p.version, p.payload, p.evidence, p.summary, []⟩

/-- What the validator returns for a row. -/
structure DraftBody where
  kind : String
  metricId : String
  payload : Doc
  /-- `comparability_key["key"]`. -/
  comparability : Option String
  blockers : List String
  duplicate : Bool
  evidence : List Doc

/-- A draft under the id of its row. -/
structure Draft extends DraftBody where
  id : String

/-- `conflicts.detail`, without its etag. -/
structure ConflictDetail where
  id : String
  conflictKey : String
  occurrenceRunId : Option String
  status : ConflictStatus
  reasonCodes : List String
  memberVersions : List (String × ℕ)
  resolution : Option Resolution

/-- What the commands use of the validator and of the storage. -/
structure Revalidation where
  /-- `hash_json`. -/
  hash : Doc → String
  /-- `canonical_unit`. -/
  canonicalUnit : Doc → Doc
  /-- `canonical_magnitude`. -/
  magnitude : Doc → Doc → Doc
  /-- `load_saas_metrics().metrics`. -/
  knownMetrics : List String
  /-- `serializers.etag` of a conflict. -/
  etag : ConflictDetail → String
  /-- `serializers.etag` of an approved version. -/
  versionEtag : ApprovedVersion → String
  /-- The evidence checks, the normalizer and `validate_proposals`. -/
  validated : List Row → Except Failure (List DraftBody)
  /-- The source pins of a head are those of its runs. -/
  pinsCurrent : ApprovedVersion → Bool
  /-- The stored texts of the rows are within the read limits. -/
  fits : List Row → Bool
  /-- `==` of two JSON values. -/
  same : Doc → Doc → Bool

/-- `payload.get(key)`. -/
def Doc.field (key : String) (d : Doc) : Doc := (d.get? key).getD .null

/-- `bool(d)`; a number is false when its digits are zeros. -/
def Doc.truthy : Doc → Bool
  | .null => false
  | .bool b => b
  | .num literal =>
      (literal.toList.takeWhile fun c => c != 'e' && c != 'E').any fun c =>
      !("0.-+".toList.contains c)
  | .str s => s != ""
  | .arr xs => !xs.isEmpty
  | .obj members => !members.isEmpty

/-- `d or {}`. -/
def Doc.orEmpty (d : Doc) : Doc := if d.truthy then d else .obj []

variable (T : Revalidation)

/-- `comparability_key_for`. -/
def Revalidation.comparabilityKeyFor (payload : Doc) : List (String × Doc) :=
  [("kind", payload.field "kind"), ("metric_id", payload.field "metric_id"),
    ("entity_id", payload.field "entity_id"), ("period", payload.field "period"),
    ("unit", T.canonicalUnit (payload.field "unit")), ("currency", payload.field "currency"),
    ("dimensions", (payload.field "dimensions").orEmpty),
    ("qualifiers", (payload.field "qualifiers").orEmpty)]

/-- `conflict_key_for`. -/
def Revalidation.conflictKeyFor (payload : Doc) (ontologyKey : Option String) : String :=
  let identity := T.comparabilityKeyFor payload
  let identity := match ontologyKey with
    | some key =>
        if key = "" then identity
        else (identity.filter fun kv => kv.1 != "metric_id" && kv.1 != "qualifiers")
          ++ [("comparability", .str key)]
    | none => identity
  T.hash (.obj [("unit_policy_version", .str "unit-comparison/v1"),
    ("range_policy_version", .str "guidance-range-order/v1"), ("identity", .obj identity)])

/-- `value_fingerprint`. -/
def Revalidation.valueFingerprint (payload : Doc) : String :=
  let scale := payload.field "scale"
  T.hash (.obj [("value", T.magnitude (payload.field "value") scale),
    ("low", T.magnitude (payload.field "low") scale),
    ("high", T.magnitude (payload.field "high") scale), ("text", payload.field "text"),
    ("category", payload.field "category"), ("direction", payload.field "direction")])

/-- The key that groups a draft. -/
def Revalidation.draftKey (d : Draft) : String := T.conflictKeyFor d.payload d.comparability

structure Detected where
  conflictKey : String
  reasonCodes : List String
  memberProposalIds : List String

/-- The reasons of a group of drafts with one key. -/
def Revalidation.conflictReasons (members : List Draft) : List String :=
  let fingerprints := (members.map fun m => T.valueFingerprint m.payload).dedup
  (if fingerprints.length = 1 || members.any (fun m => m.duplicate) then ["duplicate_candidate"]
    else [])
    ++ if 2 ≤ fingerprints.length then ["value_disagreement"] else []

/-- `detect_conflicts`. -/
def Revalidation.detectConflicts (drafts : List Draft) : List Detected :=
  ((drafts.map T.draftKey).dedup.insertionSort (· ≤ ·)).filterMap fun key =>
    let members := drafts.filter fun d => T.draftKey d == key
    let reasons := T.conflictReasons members
    if members.length < 2 ∨ reasons = [] then none
    else some ⟨key, reasons, (members.map Draft.id).insertionSort (· ≤ ·)⟩

/-- The blockers of a stored summary that a replacement does not undo. -/
def irreversible (blocker : String) : Bool :=
  blocker == "dimensions_non_string" || blocker.startsWith "sign contradicts value:"
    || blocker.startsWith "sign must be positive/negative/zero:"

/-- The draft of a row: the findings of the validator and those that the row carries. -/
def Row.draft (row : Row) (body : DraftBody) : Draft :=
  let carried := (row.summary.listAt "blockers").filterMap fun b =>
    match b with
    | .str s => if irreversible s then some s else none
    | _ => none
  { body with
    id := row.id
    blockers := carried.foldl (fun bs b => if bs.contains b then bs else bs ++ [b]) body.blockers }

/-- `validation.evaluate`: the drafts of the rows; their conflicts are `detectConflicts` of them. -/
def Revalidation.evaluate (rows : List Row) : Except Failure (List Draft) := do
  let first := (rows.head?.map Row.id).getD ""
  raiseIf (rows.length > 200) (.tooLarge first)
  let bodies ← T.validated rows
  raiseIf (bodies.length ≠ rows.length) (.invalid first)
  return List.zipWith Row.draft rows bodies

/-! ## What a command reads -/

/-- `conflicts.detail`. -/
def ReviewDb.detail (s : ReviewDb) (id : String) : Except Failure ConflictDetail := do
  let c ← orRaise (s.conflict? id) (.notFound "Extraction conflict not found.")
  let members := s.proposals.filter fun p => c.members.contains p.id
  raiseIf (members.length > 200) (.tooLarge id)
  raiseIf (members.length < 2) (.conflict "Conflict membership is incomplete.")
  raiseIf (c.reasonCodes.length > 20) (.tooLarge id)
  let resolutions :=
    s.reviews.filterMap fun r => (r.resolutions.find? fun e => e.1 == id).map Prod.snd
  raiseIf (resolutions.length > 1) (.conflict "Conflict resolution history is ambiguous.")
  return ⟨c.id, c.conflictKey, c.occurrenceRunId, c.status, c.reasonCodes,
    members.map fun p => (p.id, p.version), resolutions.head?⟩

/-- The members of a group. -/
def ConflictDetail.members (g : ConflictDetail) : List String := g.memberVersions.map Prod.fst

/-- The heads whose origin or whose sources lie in the runs. -/
def ReviewDb.heads (s : ReviewDb) (runIds : List String) :
    List (ApprovedRecord × ApprovedVersion) :=
  s.records.filterMap fun r =>
    match r.head? with
    | none => none
    | some v =>
        match s.proposal? v.origin with
        | none => none
        | some p =>
            if runIds.contains p.runId || v.sourceRuns.any fun rid => runIds.contains rid
              then some (r, v)
            else none

/-- `expand_runs`: the runs that the heads of the runs draw in, with a bound on the rounds. -/
def ReviewDb.expandRuns (s : ReviewDb) : ℕ → List String → Except Failure (List String)
  | 0, _ => throw (.conflict "Approved extraction dependencies changed.")
  | rounds + 1, runIds => do
      let current := s.heads runIds
      raiseIf (current.length > 200) (.tooLarge "")
      let origins := current.filterMap fun h => (s.proposal? h.2.origin).map Proposal.runId
      let added := (((current.flatMap fun h => h.2.sourceRuns) ++ origins).filter fun r =>
        !runIds.contains r).dedup
      raiseIf ((runIds ++ added).length > 100) (.tooLarge (runIds.head?.getD ""))
      if added = [] then return runIds.insertionSort (· ≤ ·)
      else s.expandRuns rounds (runIds ++ added)

/-- `_discover`: the runs to lock and the groups that the proposals are in, in the order of their
ids. -/
def ReviewDb.discover (s : ReviewDb) (ids : List String) :
    Except Failure (List String × List ConflictDetail) := do
  let selected := s.proposals.filter fun p => ids.contains p.id
  raiseIf (¬ ids.all fun id => selected.any fun p => p.id == id)
    (.notFound "Extraction proposal not found.")
  raiseIf ((selected.map Proposal.workspaceId).dedup.length ≠ 1)
    (.conflict "Review inputs must share a workspace.")
  let conflicts := s.conflicts.filter fun c => c.members.any fun m => ids.contains m
  raiseIf (conflicts.length > 100) (.tooLarge (ids.head?.getD ""))
  let groups ← ((conflicts.map Conflict.id).insertionSort (· ≤ ·)).mapM s.detail
  let members := groups.flatMap ConflictDetail.members
  let runs := ((s.proposals.filter fun p => ids.contains p.id || members.contains p.id).map
    Proposal.runId).dedup
  raiseIf (runs.length > 100) (.tooLarge (ids.head?.getD ""))
  let runIds ← s.expandRuns 100 runs
  return (runIds, groups)

/-- `_locked_rows`: the proposals of the locked runs. -/
def ReviewDb.lockedRows (s : ReviewDb) (runIds : List String) : Except Failure (List Row) := do
  let rows := (s.proposals.filter fun p => runIds.contains p.runId).map Proposal.row
  raiseIf (rows.length > 200) (.tooLarge "")
  raiseIf (T.fits rows = false) (.tooLarge "")
  return rows

/-- The row of a proposal with the content of its approved head. -/
def Row.withHead (row : Row) (v : ApprovedVersion) : Row :=
  { row with
    payload := v.payload
    evidence := v.evidence
    summary := .obj []
    sourceRunIds := v.sourceRuns }

/-- `current_rows`: accepted inputs and merged survivors under their current heads, and the origins
of the records. -/
def ReviewDb.currentRows (s : ReviewDb) (rows : List Row) (runIds : List String) :
    Except Failure (List Row × List (String × String)) := do
  let current := s.heads runIds
  raiseIf (current.length > 200) (.tooLarge "")
  raiseIf (current.any fun h => h.2.sourceRuns.any fun rid => !runIds.contains rid) .retry
  raiseIf (current.any fun h => !(rows.any fun row => row.id == h.2.origin)) (.invalid "")
  raiseIf (¬ (current.map fun h => h.2.origin).Nodup) (.invalid "")
  raiseIf (current.any fun h => !T.pinsCurrent h.2) (.invalid "")
  let result := rows.filterMap fun row =>
    match current.find? fun h => h.2.origin == row.id with
    | some h => some (row.withHead h.2)
    | none => if row.state = .rejected ∨ row.state = .superseded then none else some row
  return (result, current.map fun h => (h.1.id, h.2.origin))

/-- `relevant_rows`: the rows that the rules can compare with the selected ones. -/
def Revalidation.relevantRows (rows : List Row) (selected required : List String) :
    Except Failure (List Row) := do
  let chosen := rows.filter fun row => selected.contains row.id
  raiseIf (chosen.length ≠ selected.length) (.invalid (selected.head?.getD ""))
  let metrics := chosen.filterMap fun row => row.payload.strAt "metric_id"
  let families := [["rpo", "crpo"], ["revenue", "cogs", "gross_profit"]].filter fun family =>
    family.any fun m => metrics.contains m
  let metrics := metrics ++ families.flatten
  return rows.filter fun row =>
    selected.contains row.id || required.contains row.id
      || match row.payload.strAt "metric_id" with
        | none => true
        | some metric =>
            metric == "" || metric != row.metricId
              || !(["kpi", "guidance", "revenue_driver"].contains
                ((row.payload.strAt "kind").getD ""))
              || (row.payload.strAt "kind" == some "kpi" && !T.knownMetrics.contains metric)
              || metrics.contains metric

/-! ## Commands -/

/-- An entry of `conflict_resolution`. -/
structure ConflictDecision where
  conflictId : String
  expectedEtag : String
  memberVersions : List (String × ℕ)
  selectedWinnerIds : List String
  reason : String

/-- An entry of an edit's `patch`. -/
structure Replacement where
  extractionId : String
  payload : Doc
  evidence : List Doc

/-- The action of a review with its `patch`. -/
inductive ReviewAction where
  | accept
  | edit (patch : List Replacement)
  | reject
  | merge (payloadSourceId : String)

def ReviewAction.name : ReviewAction → ActionName
  | .accept => .accept
  | .edit _ => .edit
  | .reject => .reject
  | .merge _ => .merge

/-- A review command; `conflict_resolution` is absent when it is empty. -/
structure ReviewBody where
  action : ReviewAction
  extractionIds : List String
  expectedVersions : List (String × ℕ)
  reason : String
  conflictResolution : List ConflictDecision
  /-- `unique_ids`. -/
  unique : extractionIds.Nodup

/-- Equality of two dictionaries. -/
def sameEntries (a b : List (String × ℕ)) : Bool := a.all b.contains && b.all a.contains

/-- `decisions_for`: one decision for each open group, with winners that the action allows. -/
def Revalidation.decisionsFor (groups : List ConflictDetail) (body : ReviewBody) (rows : List Row) :
    Except Failure Unit := do
  let decisions := body.conflictResolution
  let decided := decisions.map ConflictDecision.conflictId
  let opened := (groups.filter fun g => g.status == .opened).map ConflictDetail.id
  raiseIf (¬ decided.Nodup ∨ ¬ decided.all opened.contains ∨ ¬ opened.all decided.contains)
    (.precondition "Complete open conflict decisions are required.")
  decisions.forM fun d => do
    let group ← orRaise (groups.find? fun g => g.id == d.conflictId) (.other "KeyError")
    raiseIf (sameEntries d.memberVersions group.memberVersions = false ∨
      d.expectedEtag ≠ T.etag group)
      (.precondition "Conflict membership changed.")
    let inputs := group.members.filter body.extractionIds.contains
    raiseIf (¬ d.selectedWinnerIds.all inputs.contains)
      (.conflict "Conflict winner must be a selected group member.")
    raiseIf ((body.action.name = .accept ∨ body.action.name = .edit)
        ∧ ¬ inputs.all d.selectedWinnerIds.contains)
      (.conflict "Every accepted group input must be an explicit winner.")
    raiseIf (d.selectedWinnerIds = [] ∧ ¬ group.members.all fun pid =>
        (rows.any fun row => row.id == pid && (row.state == .rejected || row.state == .superseded))
          || (body.extractionIds.contains pid
            && (body.action.name == .reject || body.action.name == .merge)))
      (.conflict "An empty winner set requires all members disposed.")

/-- `result.drafts[pid]`. -/
def draftOf (drafts : List Draft) (pid : String) : Except Failure Draft :=
  orRaise (drafts.find? fun d => d.id == pid) (.other "KeyError")

/-- The current origins of a resolution's records that are members of the group. -/
def currentWinners (origins : List (String × String)) (g : ConflictDetail) (r : Resolution) :
    List String :=
  origins.filterMap fun o =>
    if r.approvedRecordIds.contains o.1 && g.members.contains o.2 then some o.2 else none

/-- A selected member of a resolved group against one of its winners: an edit may repeat the
winner's value. -/
def Revalidation.againstWinner (drafts : List Draft) (edit : Bool) (pid winner : String) :
    Except Failure (List String) := do
  let d ← draftOf drafts pid
  let w ← draftOf drafts winner
  if (T.detectConflicts [d, w]).isEmpty then return []
  raiseIf (edit = false ∨ T.valueFingerprint d.payload ≠ T.valueFingerprint w.payload)
    (.conflict "Proposal contradicts the recorded winner.")
  return [pid]

/-- The selected members of the groups that are resolved already. -/
def Revalidation.againstResolved (drafts : List Draft) (selected : List String) (edit : Bool)
    (origins : List (String × String)) (g : ConflictDetail) : Except Failure (List String) := do
  let touched := g.members.filter selected.contains
  if g.status = .opened ∨ touched = [] then return []
  let resolution ← orRaise g.resolution (.conflict "Historical conflict lacks winner provenance.")
  let winners := currentWinners origins g resolution
  raiseIf (winners = []) (.conflict "Historical conflict lacks current winner provenance.")
  let waived ← touched.mapM fun pid => do
    let each ← winners.mapM fun winner => T.againstWinner drafts edit pid winner
    return each.flatten
  return waived.flatten

/-- A group that covers a detected conflict. -/
def coverStep (action : ActionName) (decisions : List ConflictDecision)
    (members touched : List String)
    (waived : List String) (g : ConflictDetail) : Except Failure (List String) :=
  match g.status with
  | .opened => do
      let d ← orRaise (decisions.find? fun d => d.conflictId == g.id) (.other "KeyError")
      let competing := members.filter d.selectedWinnerIds.contains
      raiseIf (competing.length > 1 ∧ action ≠ .merge)
        (.conflict "Conflicting winners cannot be approved together.")
      if touched.all d.selectedWinnerIds.contains ∨ action = .merge then return waived ++ touched
      else return waived
  | .resolved => do
      raiseIf (¬ touched.all waived.contains)
        (.conflict "Proposal contradicts the recorded winner.")
      return waived

/-- A detected conflict of a selected proposal is covered by a stored group. -/
def detectedStep (action : ActionName) (groups : List ConflictDetail)
    (decisions : List ConflictDecision) (selected : List String) (waived : List String)
    (c : Detected) :
    Except Failure (List String) := do
  let touched := c.memberProposalIds.filter selected.contains
  if touched = [] then return waived
  let covering := groups.filter fun g => c.memberProposalIds.all g.members.contains
  raiseIf (covering = []) (.conflict "Comparable proposals require adjudication.")
  covering.foldlM (coverStep action decisions c.memberProposalIds touched) waived

/-- `check_evaluated`: the duplicates that an adjudication discharges. -/
def Revalidation.checkEvaluated (drafts : List Draft) (selected : List String)
    (groups : List ConflictDetail) (decisions : List ConflictDecision) (action : ActionName)
    (origins : List (String × String)) : Except Failure (List String) := do
  let recorded ← groups.mapM (T.againstResolved drafts selected (action == .edit) origins)
  (T.detectConflicts drafts).foldlM (detectedStep action groups decisions selected) recorded.flatten

end Extraction
