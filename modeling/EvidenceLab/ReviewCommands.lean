/-
# The commands on proposals

`review._apply`, `corrections._apply`, `runs.cancel` and the worker's `persist_outputs_atomic` and
status writes, as functions of the database, and the system in which they run one after another.

* A command checks first and writes last: `planReview` finds what to write, `commitReview` writes
  it.
* A command that raises is rolled back: the database stays as it was.
-/
import EvidenceLab.Review
import EvidenceLab.RunLog

namespace Extraction

open Except Transitions

variable (T : Revalidation)

/-! ## Reviews -/

/-- What a review writes. -/
structure ReviewPlan where
  groups : List ConflictDetail
  /-- The runs of the selected proposals. -/
  runs : List String
  /-- The drafts to approve, with the runs of their sources. -/
  approvals : List (Draft × List String)

/-- The text that orders the edges of a manifest. -/
def edgeKey (edge : Doc) : String :=
  String.intercalate "\x00" (["source_span_id", "document_version_id", "role"].map fun key =>
    (edge.strAt key).getD "")

/-- The edges of all inputs of a merge, each once. -/
def mergedEvidence (edges : List Doc) : List Doc :=
  ((edges.map edgeKey).dedup.insertionSort (· ≤ ·)).filterMap fun key =>
    edges.reverse.find? fun edge => edgeKey edge == key

/-- The patch of an edit put over the rows. -/
def Row.patched (patch : List Replacement) (row : Row) : Row :=
  match patch.find? fun r => r.extractionId == row.id with
  | some r => { row with payload := r.payload, evidence := r.evidence, summary := .obj [] }
  | none => row

/-- The comparison set of an action. -/
def patchedRows (action : ReviewAction) (ids : List String) (rows : List Row) :
    Except Failure (List Row) :=
  match action with
  | .edit patch => do
      let patches := patch.map Replacement.extractionId
      raiseIf (¬ patches.Nodup ∨ ¬ patches.all ids.contains ∨ ¬ ids.all patches.contains)
        (.precondition "Complete selected replacements required.")
      return rows.map (Row.patched patch)
  | _ => return rows

/-- The one draft that a merge approves. -/
def Revalidation.mergedDraft (drafts : List Draft) (ids : List String) (source : String) :
    Except Failure Draft := do
  raiseIf (¬ ids.contains source)
    (.precondition "Merge payload source must be selected.")
  let d ← draftOf drafts source
  let inputs ← ids.mapM (draftOf drafts)
  raiseIf (inputs.any fun i =>
      !(T.same (.obj (T.comparabilityKeyFor i.payload)) (.obj (T.comparabilityKeyFor d.payload))
        && T.same (i.payload.field "definition") (d.payload.field "definition")
        && i.comparability == d.comparability))
    (.conflict "Merge inputs are not comparable.")
  let evidence := mergedEvidence (inputs.flatMap fun i => i.evidence)
  raiseIf (evidence.length > 200) (.tooLarge source)
  return { d with evidence := evidence }

/-- The drafts that a review approves: the selected proposals have to pass revalidation among the
current figures of the locked runs. -/
def Revalidation.approvals (s : ReviewDb) (body : ReviewBody) (runIds : List String)
    (groups : List ConflictDetail) (rows : List Row) :
    Except Failure (List (Draft × List String)) := do
  let ids := body.extractionIds
  let (current, origins) ← s.currentRows T rows runIds
  let patched ← patchedRows body.action ids current
  let relevant ← T.relevantRows patched ids (groups.flatMap ConflictDetail.members)
  let drafts ← T.evaluate relevant
  let waived ← T.checkEvaluated drafts ids groups body.conflictResolution body.action.name origins
  ids.forM fun pid => do
    let d ← draftOf drafts pid
    raiseIf (d.blockers.any fun b => b != "duplicate_candidate" || !waived.contains pid)
      (.invalid pid)
  let runsOf := fun pids : List String =>
    ((rows.filter fun row => pids.contains row.id).map Row.runId).dedup.insertionSort (· ≤ ·)
  match body.action with
  | .merge source => do
      let d ← T.mergedDraft drafts ids source
      return [(d, runsOf ids)]
  | _ => do
      raiseIf (ids.length > 100) (.tooLarge "")
      ids.mapM fun pid => do
        let d ← draftOf drafts pid
        return (d, runsOf [pid])

/-- A rejection approves nothing and revalidates nothing. -/
def Revalidation.approvalsFor (s : ReviewDb) (body : ReviewBody) (runIds : List String)
    (groups : List ConflictDetail) (rows : List Row) :
    Except Failure (List (Draft × List String)) :=
  match body.action with
  | .reject => .ok []
  | _ => T.approvals s body runIds groups rows

/-- The checks of `review._apply`. -/
def Revalidation.planReview (s : ReviewDb) (body : ReviewBody) : Except Failure ReviewPlan := do
  let ids := body.extractionIds
  let (runIds, groups) ← s.discover ids
  let rows ← s.lockedRows T runIds
  let selected := rows.filter fun row => ids.contains row.id
  raiseIf (sameEntries body.expectedVersions (selected.map fun row => (row.id, row.version))
    = false)
    (.precondition "Selected proposals changed.")
  raiseIf (selected.any fun row => !row.state.isOpen) (.conflict "Selected proposal is terminal.")
  raiseIf (selected.any fun row => (s.run? row.runId).map ReviewRun.status != some .waitingReview)
    (.conflict "Extraction is not awaiting review.")
  T.decisionsFor groups body rows
  let approvals ← T.approvalsFor s body runIds groups rows
  return ⟨groups, (selected.map Row.runId).dedup.insertionSort (· ≤ ·), approvals⟩

/-- The payload of an approved version: without `WORKER_EXTENSION_KEYS`. -/
def Doc.stripped : Doc → Doc
  | .obj members => .obj (members.filter fun kv => kv.1 != "evidence" && kv.1 != "source_span_ids")
  | d => d

/-- A version of a draft. -/
def Draft.version (d : Draft) (id : String) (version : ℕ) (parent : Option String)
    (sourceRuns : List String) : ApprovedVersion :=
  ⟨id, version, parent, d.id, d.payload.stripped, d.comparability, d.evidence, sourceRuns⟩

/-- `approved.create`, also as `create_many` writes it. -/
def Draft.record (d : Draft) (recordId versionId : String) (sourceRuns : List String) :
    ApprovedRecord :=
  ⟨recordId, d.kind, d.metricId, [d.version versionId 1 none sourceRuns], versionId⟩

/-- The ids that a review draws. -/
structure FreshIds where
  reviewId : String
  recordIds : List String
  versionIds : List String

def newRecords (approvals : List (Draft × List String)) (fresh : FreshIds) : List ApprovedRecord :=
  List.zipWith (fun (ids : String × String) a => a.1.record ids.1 ids.2 a.2)
    (fresh.recordIds.zip fresh.versionIds) approvals

/-- The state that an action gives the selected proposals. -/
def ActionName.disposition : ActionName → ProposalState
  | .accept | .edit => .accepted
  | .reject => .rejected
  | .merge => .superseded

/-- `approved_record_ids` of a decision. -/
def approvedFor (action : ActionName) (ids : List String) (records : List ApprovedRecord)
    (winners : List String) : List String :=
  match action with
  | .merge => records.map ApprovedRecord.id
  | _ => ((records.zip ids).filter fun r => winners.contains r.2).map fun r => r.1.id

/-- The resolutions that a review records, in the order of the groups. -/
def resolutionsOf (body : ReviewBody) (records : List ApprovedRecord) (reviewId : String) :
    List (String × Resolution) :=
  (body.conflictResolution.insertionSort fun a b => a.conflictId ≤ b.conflictId).map fun d =>
    (d.conflictId, ⟨reviewId, d.selectedWinnerIds,
      approvedFor body.action.name body.extractionIds records d.selectedWinnerIds, d.reason⟩)

/-- `UPDATE extraction_proposals SET state, version = version + 1`. -/
def Proposal.disposed (ids : List String) (state : ProposalState) (p : Proposal) : Proposal :=
  if ids.contains p.id then { p with state := state, version := p.version + 1 } else p

/-- `UPDATE extraction_conflicts SET status = 'resolved'`. -/
def Conflict.resolvedBy (ids : List String) (c : Conflict) : Conflict :=
  if ids.contains c.id then { c with status := .resolved } else c

/-- `finish_review`: a run with nothing open has succeeded. -/
def ReviewDb.finishReview (s : ReviewDb) (run : String) : ReviewDb :=
  if s.hasOpenProposal run || s.hasOpenConflict run then s
  else
    { s with runs := s.runs.map fun r =>
        if r.id = run ∧ r.status = .waitingReview then { r with status := .succeeded } else r }

/-- The rows that `review._apply` writes. -/
def ReviewDb.reviewWritten (s : ReviewDb) (body : ReviewBody) (plan : ReviewPlan)
    (fresh : FreshIds) :
    ReviewDb :=
  let records := newRecords plan.approvals fresh
  let resolutions := resolutionsOf body records fresh.reviewId
  { s with
    proposals := s.proposals.map (Proposal.disposed body.extractionIds body.action.name.disposition)
    conflicts := s.conflicts.map (Conflict.resolvedBy (resolutions.map Prod.fst))
    records := s.records ++ records
    reviews := s.reviews ++ [⟨fresh.reviewId, body.action.name, body.extractionIds, resolutions,
      records.map ApprovedRecord.id⟩] }

/-- The writes of `review._apply`, and `finish_review` of the runs of its inputs. -/
def ReviewDb.commitReview (s : ReviewDb) (body : ReviewBody) (plan : ReviewPlan)
    (fresh : FreshIds) :
    ReviewDb :=
  plan.runs.foldl ReviewDb.finishReview (s.reviewWritten body plan fresh)

/-! ## Corrections -/

/-- A `CorrectionCommand` with its `If-Match`. -/
structure Correction where
  recordId : String
  expectedEtag : String
  payload : Doc
  evidence : List Doc
  reason : String

/-- The checks of `corrections._apply`: the head and the draft that replaces it. -/
def Revalidation.planCorrection (s : ReviewDb) (c : Correction) :
    Except Failure (ApprovedVersion × Draft) := do
  let record ← orRaise (s.record? c.recordId) (.notFound "Approved extraction not found.")
  let old ← orRaise record.head? (.notFound "Approved extraction not found.")
  raiseIf (old.sourceRuns = [] ∨ old.sourceRuns.length > 100 ∨ ¬ old.sourceRuns.Nodup)
    (.invalid c.recordId)
  let (peerRuns, groups) ← s.discover [old.origin]
  let runIds := (peerRuns ++ old.sourceRuns).dedup.insertionSort (· ≤ ·)
  raiseIf (T.pinsCurrent old = false) (.invalid c.recordId)
  let rows ← s.lockedRows T runIds
  let (current, _) ← s.currentRows T rows runIds
  raiseIf (T.versionEtag old ≠ c.expectedEtag) (.precondition "Approved extraction changed.")
  let source ← orRaise (rows.find? fun row => row.id == old.origin) (.other "StopIteration")
  let replacement : Row :=
    { source with
      payload := c.payload
      evidence := c.evidence
      summary := .obj []
      sourceRunIds := old.sourceRuns }
  let others := current.filter fun row => row.id != old.origin
  let relevant ← T.relevantRows (others ++ [replacement]) [old.origin]
    (groups.flatMap ConflictDetail.members)
  let drafts ← T.evaluate relevant
  let d ← draftOf drafts old.origin
  raiseIf (d.blockers ≠ []) (.invalid c.recordId)
  raiseIf ((T.detectConflicts drafts).any fun g => g.memberProposalIds.contains old.origin)
    (.conflict "Correction conflicts with another extraction.")
  raiseIf (d.kind ≠ record.kind ∨ d.metricId ≠ record.metricId)
    (.conflict "Correction must preserve the logical record identity.")
  return (old, d)

/-- `append_version` on the head. -/
def ApprovedRecord.appended (r : ApprovedRecord) (v : ApprovedVersion) : ApprovedRecord :=
  { r with versions := r.versions ++ [v], currentVersionId := v.id }

/-- The writes of `corrections._apply`. -/
def ReviewDb.commitCorrection (s : ReviewDb) (recordId : String) (old : ApprovedVersion) (d : Draft)
    (versionId : String) : ReviewDb :=
  { s with records := s.records.map fun r =>
      if r.id = recordId then
        r.appended (d.version versionId (old.version + 1) (some old.id) old.sourceRuns)
      else r }

/-! ## The worker -/

/-- What `persist_proposals` stores of a draft. -/
structure NewProposal where
  id : String
  metricId : String
  payload : Doc
  evidence : List Doc
  summary : Doc

/-- What `persist_conflicts` stores of a group. -/
structure NewConflict where
  id : String
  conflictKey : String
  reasonCodes : List String
  memberProposalIds : List String

/-- `INSERT INTO extraction_proposals … ON CONFLICT (id) DO NOTHING`. -/
def ReviewDb.insertProposal (run : ReviewRun) (s : ReviewDb) (d : NewProposal) : ReviewDb :=
  if (s.proposal? d.id).isSome then s
  else
    { s with proposals := s.proposals ++
        [⟨d.id, run.id, run.workspaceId, d.metricId, d.payload, d.evidence, d.summary,
        .needsReview, 1⟩] }

/-- `_occurrence_run`: the run of a group whose members have opted in. -/
def ReviewDb.occurrenceRun (s : ReviewDb) (workspaceId : String) (members : List String) :
    Except Failure (Option String) := do
  raiseIf (members.dedup.length < 2) (.other "ValueError")
  let found := s.proposals.filter fun p => members.contains p.id && p.workspaceId == workspaceId
  raiseIf (¬ members.all fun m => found.any fun p => p.id == m) (.other "StepFailed")
  let runs := (found.map Proposal.runId).dedup
  let optedIn := runs.filter fun id => (s.run? id).any ReviewRun.perRun
  raiseIf (optedIn ≠ [] ∧ runs.length ≠ 1) (.other "StepFailed")
  return optedIn.head?

/-- The new members of a group; the guard refuses those of a run that is closed. -/
def ReviewDb.joinConflict (s : ReviewDb) (c : Conflict) (members : List String) :
    Except Failure Conflict := do
  let joining := (members.filter fun m => !c.members.contains m).dedup
  raiseIf (¬ joining.all fun m => (s.proposal? m).any fun p => s.runIsOpen p.runId)
    (.other "RaiseException")
  return { c with members := c.members ++ joining }

/-- One group of `persist_conflicts`. -/
def ReviewDb.persistConflict (workspaceId : String) (s : ReviewDb) (d : NewConflict) :
    Except Failure ReviewDb := do
  let occurrence ← s.occurrenceRun workspaceId d.memberProposalIds
  match s.conflicts.find? fun c => c.workspaceId == workspaceId && c.conflictKey == d.conflictKey
      && c.occurrenceRunId == occurrence with
  | some c => do
      raiseIf (c.status ≠ .opened) (.other "StepFailed")
      let joined ← s.joinConflict c d.memberProposalIds
      return { s with conflicts := s.conflicts.map fun c' => if c'.id = c.id then joined else c' }
  | none => do
      -- the draft's id is a fresh uuid
      raiseIf ((s.conflict? d.id).isSome) (.other "UniqueViolation")
      let joined ← s.joinConflict
        ⟨d.id, workspaceId, d.conflictKey, d.reasonCodes, occurrence, .opened,
          []⟩ d.memberProposalIds
      return { s with conflicts := s.conflicts ++ [joined] }

/-- `persist_outputs_atomic`. -/
def ReviewDb.persistOutputs (s : ReviewDb) (runId : String) (proposals : List NewProposal)
    (conflicts : List NewConflict) : Except Failure ReviewDb := do
  let run ← orRaise (s.run? runId) (.other "RaiseException")
  raiseIf (run.status.isTerminal = true) (.other "RaiseException")
  let s := proposals.foldl (ReviewDb.insertProposal run) s
  conflicts.foldlM (ReviewDb.persistConflict run.workspaceId) s

/-- `set_run_status` and `mark_running`. -/
def ReviewDb.setRunStatus (s : ReviewDb) (runId : String) (status : RunStatus) :
    Except Failure ReviewDb := do
  let run ← orRaise (s.run? runId) (.other "KeyError")
  raiseIf (run.status.isTerminal = true) (.other "RunAlreadyTerminal")
  raiseIf (run.status.canBecome status = false) (.other "RaiseException")
  return { s with runs := s.runs.map fun r => if r.id = runId then { r with status := status }
    else r }

/-- `runs.cancel`: a run that waits for review is closed; any other gets a marker for its worker. -/
def ReviewDb.cancelRun (s : ReviewDb) (runId : String) : Except Failure ReviewDb := do
  let run ← orRaise (s.run? runId) (.notFound "Extraction run not found.")
  raiseIf (run.status.isTerminal = true) (.conflict "Extraction run is terminal.")
  if run.status = .waitingReview then s.setRunStatus runId .cancelled
  else return s

/-! ## The system -/

/-- The database, the runs that reviews have completed and the runs that reviews have touched. -/
structure Desk where
  db : ReviewDb
  finished : List String
  reviewed : List String

def Desk.init : Desk := ⟨⟨[], [], [], [], []⟩, [], []⟩

inductive DeskAct where
  | createRun (run : ReviewRun)
  | persist (runId : String) (proposals : List NewProposal) (conflicts : List NewConflict)
  | setStatus (runId : String) (status : RunStatus)
  | cancel (runId : String)
  | review (body : ReviewBody) (fresh : FreshIds)
  | correct (c : Correction) (versionId : String)

/-- A uuid that no record and no version has. -/
def ReviewDb.isFreshId (s : ReviewDb) (id : String) : Bool :=
  s.records.all fun r => r.id != id && r.versions.all fun v => v.id != id

/-- The ids that a review draws are new. -/
def ReviewDb.areFresh (s : ReviewDb) (fresh : FreshIds) (n : ℕ) : Bool :=
  decide (fresh.recordIds ++ fresh.versionIds).Nodup
    && (fresh.recordIds ++ fresh.versionIds).all s.isFreshId
    && s.reviews.all (fun r => r.id != fresh.reviewId)
    && fresh.recordIds.length == n && fresh.versionIds.length == n

/-- The runs that a review touches: those of its inputs and of the groups it resolves. -/
def touchedRuns (s : ReviewDb) (body : ReviewBody) : List String :=
  let resolved := body.conflictResolution.map ConflictDecision.conflictId
  let members := (s.conflicts.filter fun c => resolved.contains c.id).flatMap Conflict.members
  (s.proposals.filter fun p => body.extractionIds.contains p.id || members.contains p.id).map
    Proposal.runId

/-- The runs of a plan that have succeeded. -/
def finishedRuns (s : ReviewDb) (plan : ReviewPlan) : List String :=
  plan.runs.filter fun id => (s.run? id).map ReviewRun.status == some .succeeded

/-- A command that raises changes nothing. -/
def Desk.step (k : Desk) : DeskAct → Option Desk
  | .createRun run =>
      if run.status = .queued ∧ (k.db.run? run.id).isNone then
        some { k with db := { k.db with runs := k.db.runs ++ [run] } }
      else none
  | .persist runId proposals conflicts =>
      match k.db.persistOutputs runId proposals conflicts with
      | .ok db => some { k with db := db }
      | .error _ => some k
  | .setStatus runId status =>
      match k.db.setRunStatus runId status with
      | .ok db => some { k with db := db }
      | .error _ => some k
  | .cancel runId =>
      match k.db.cancelRun runId with
      | .ok db => some { k with db := db }
      | .error _ => some k
  | .review body fresh =>
      match T.planReview k.db body with
      | .ok plan =>
          if k.db.areFresh fresh plan.approvals.length then
            let db := k.db.commitReview body plan fresh
            some ⟨db, k.finished ++ finishedRuns db plan, k.reviewed ++ touchedRuns k.db body⟩
          else none
      | .error _ => some k
  | .correct c versionId =>
      match T.planCorrection k.db c with
      | .ok (old, d) =>
          if k.db.isFreshId versionId then
            some { k with db := k.db.commitCorrection c.recordId old d versionId }
          else none
      | .error _ => some k

end Extraction
