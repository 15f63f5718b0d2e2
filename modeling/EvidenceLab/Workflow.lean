/-
# The extraction workflow

`run_extraction_workflow`, its stages and its checkpoints, as a program over the requests it makes
of its stores, its provider and its lease.

* `Doc` is a JSON document, as payloads and stage outputs are.
* `Call` lists the requests that can raise; `Op` adds the lease check and the clock, which cannot.
* `Tools` are the pure collaborators: hashes, prompts, the schema checks of a role, the normalizer
  and the validator.
* The state of an attempt is `Ctx`.  It survives an exception, as a mutable object does, so an
  exception of the program carries it (`Raised`).
-/
import EvidenceLab.Effects
import EvidenceLab.Dict

namespace Extraction

open Effects

/-! ## Data -/

/-- A JSON document. -/
inductive Doc where
  | null
  | bool (b : Bool)
  | num (literal : String)
  | str (s : String)
  | arr (xs : List Doc)
  | obj (members : List (String × Doc))
  deriving Inhabited

namespace Doc

/-- `d.get(key)` of a dictionary. -/
def get? (key : String) : Doc → Option Doc
  | .obj members => (members.find? fun kv => kv.1 == key).map Prod.snd
  | _ => none

/-- `isinstance(d, dict)`. -/
def isObj : Doc → Bool
  | .obj _ => true
  | _ => false

/-- The elements of a list, and none of anything else. -/
def items : Doc → List Doc
  | .arr xs => xs
  | _ => []

/-- `d.get(key) or []`, as a list: what is no list counts as empty. -/
def listAt (key : String) (d : Doc) : List Doc := ((d.get? key).getD .null).items

/-- `d[key] = v` on a dictionary. -/
def set (key : String) (v : Doc) : Doc → Doc
  | .obj members =>
      if members.any (·.1 == key) then
        .obj (members.map fun kv => if kv.1 == key then (key, v) else kv)
      else .obj (members ++ [(key, v)])
  | d => d

/-- `d.setdefault(key, v)`. -/
def setDefault (key : String) (v : Doc) (d : Doc) : Doc :=
  if (d.get? key).isSome then d else Doc.set key v d

def ofNat (n : ℕ) : Doc := .num (toString n)

def ofOption : Option String → Doc
  | some s => .str s
  | none => .null

/-- `d.get(key)` when it is a string. -/
def strAt (key : String) (d : Doc) : Option String :=
  match d.get? key with
  | some (.str s) => some s
  | _ => none

end Doc

/-- The values of `extraction_runs.status`. -/
inductive RunStatus where
  | queued
  | running
  | waitingReview
  | succeeded
  | failed
  | cancelled
  deriving DecidableEq, Repr

def RunStatus.name : RunStatus → String
  | .queued => "queued"
  | .running => "running"
  | .waitingReview => "waiting_review"
  | .succeeded => "succeeded"
  | .failed => "failed"
  | .cancelled => "cancelled"

/-- `TERMINAL_RUN_STATUSES`. -/
def RunStatus.isTerminal : RunStatus → Bool
  | .succeeded | .failed | .cancelled => true
  | .queued | .running | .waitingReview => false

/-- `ALLOWED_EVENT_TYPES`. -/
inductive EventType where
  | runQueued
  | runStarted
  | stepStarted
  | stepCompleted
  | stepFailed
  | budgetUpdated
  | proposalsPersisted
  | reviewWaiting
  | reviewCompleted
  | runSucceeded
  | runFailed
  | runCancelled
  | heartbeat
  deriving DecidableEq, Repr

/-- The run status an event of the type announces as final. -/
def EventType.terminal? : EventType → Option RunStatus
  | .runSucceeded => some .succeeded
  | .runFailed => some .failed
  | .runCancelled => some .cancelled
  | _ => none

structure Event where
  type : EventType
  payload : Doc

inductive Mode where
  | kpi
  | guidance
  | revenueDriver
  deriving DecidableEq, Repr

def Mode.name : Mode → String
  | .kpi => "kpi"
  | .guidance => "guidance"
  | .revenueDriver => "revenue_driver"

inductive Role where
  | classifier
  | factCandidates
  | kpi
  | guidance
  | driverMapper
  deriving DecidableEq, Repr

inductive Stage where
  | validateRequest
  | assembleEvidence
  | classify
  | collectCandidates
  | extract (mode : Mode)
  | normalize
  | validate
  | verifyCitations
  | detectConflicts
  | persistProposals
  deriving DecidableEq, Repr

def Stage.name : Stage → String
  | .validateRequest => "validate_request"
  | .assembleEvidence => "assemble_evidence"
  | .classify => "classify"
  | .collectCandidates => "collect_candidates"
  | .extract mode => "extract_" ++ mode.name
  | .normalize => "normalize"
  | .validate => "validate"
  | .verifyCitations => "verify_citations"
  | .detectConflicts => "detect_conflicts"
  | .persistProposals => "persist_proposals"

/-- `STAGE_ORDER`. -/
def stageOrder : List Stage :=
  [.validateRequest, .assembleEvidence, .classify, .collectCandidates, .extract .kpi,
    .extract .guidance, .extract .revenueDriver, .normalize, .validate, .verifyCitations,
    .detectConflicts, .persistProposals]

/-- A `datetime`; only two of one kind can be compared. -/
structure Datetime where
  micros : ℤ
  aware : Bool
  deriving DecidableEq

structure EvidenceBlock where
  sourceSpanId : String
  documentVersionId : String
  text : String
  textHash : String
  publishedAt : Option Datetime
  deriving DecidableEq

/-- The pins of a run. -/
structure Request where
  runId : String
  orgId : String
  workspaceId : String
  entityId : String
  modes : List Mode
  asOf : Datetime
  corpusVersionId : String
  ontologyVersion : String
  workflowVersion : String
  provider : String
  model : String
  inputManifest : Doc
  inputHash : String
  maxCalls : ℕ
  maxInputTokens : ℕ
  maxOutputTokens : ℕ
  maxCostUsd : ℚ
  maxWallSeconds : ℕ
  issuerLabel : String

def workflowVersion : String := "extraction-workflow/v3"

structure Usage where
  callsUsed : ℕ
  inputTokensUsed : ℕ
  outputTokensUsed : ℕ
  costUsd : ℚ
  wallSecondsUsed : ℚ

inductive StepStatus where
  | succeeded
  | failed
  | skipped
  deriving DecidableEq, Repr

structure StageRecord where
  stage : Stage
  attempt : ℕ
  status : StepStatus
  inputHash : String
  outputHash : Option String
  providerResponseId : Option String
  inputTokens : ℕ
  outputTokens : ℕ
  costUsd : ℚ
  error : Option Doc
  output : Option Doc

/-- A record with only its identity. -/
def StageRecord.plain (stage : Stage) (status : StepStatus) (inputHash : String) : StageRecord where
  stage := stage
  attempt := 1
  status := status
  inputHash := inputHash
  outputHash := none
  providerResponseId := none
  inputTokens := 0
  outputTokens := 0
  costUsd := 0
  error := none
  output := none

/-- A citation row of a draft: the row as the model gave it, and its grade. -/
structure CitationRow where
  row : Doc
  citationStatus : String

structure ProposalDraft where
  kind : Mode
  metricId : String
  payload : Doc
  rawPayloadHash : String
  definitionHash : String
  comparabilityKey : Doc
  validationSummary : Doc
  reviewPriority : String
  evidence : List CitationRow
  id : String

structure ConflictDraft where
  conflictKey : String
  reasonCodes : List String
  memberProposalIds : List String

/-! ## Exceptions -/

/-- What an attempt can raise, as the `except` clauses of the source tell it apart. -/
inductive Exc where
  | leaseLost (message : String)
  | cancelled (message : String)
  | runAlreadyTerminal (runId : String) (status : RunStatus)
  /-- Any other `ExtractionError`, with its `code`. -/
  | extraction (code message : String)
  /-- `queue.PermanentFailure`. -/
  | permanentFailure (message : String)
  /-- Any other `Exception`. -/
  | untyped (type message : String)
  /-- A `BaseException` that is no `Exception`. -/
  | base (type : String)

namespace Exc

/-- `getattr(exc, "code", None)`. -/
def code? : Exc → Option String
  | .leaseLost _ => some "lease_lost"
  | .cancelled _ => some "cancelled"
  | .runAlreadyTerminal _ _ => some "run_terminal"
  | .extraction code _ => some code
  | .permanentFailure _ => none
  | .untyped _ _ => none
  | .base _ => none

/-- `type(exc).__name__`. -/
def typeName : Exc → String
  | .leaseLost _ => "LeaseLost"
  | .cancelled _ => "Cancelled"
  | .runAlreadyTerminal _ _ => "RunAlreadyTerminal"
  | .extraction _ _ => "ExtractionError"
  | .permanentFailure _ => "PermanentFailure"
  | .untyped type _ => type
  | .base type => type

/-- `str(exc)`. -/
def message : Exc → String
  | .leaseLost m => m
  | .cancelled m => m
  | .runAlreadyTerminal runId status =>
      "extraction run " ++ runId ++ " is already " ++ status.name ++ ": terminal runs are final"
  | .extraction _ m => m
  | .permanentFailure m => m
  | .untyped _ m => m
  | .base _ => ""

def stepFailed (message : String) : Exc := .extraction "step_failed" message

def budgetExceeded (message : String) : Exc := .extraction "budget_exceeded" message

def integrityError (message : String) : Exc := .extraction "integrity_error" message

end Exc

/-! ## Requests -/

structure ModelRequest where
  role : Role
  messages : List Doc
  maxOutputTokens : ℕ

structure ModelResult where
  provider : String
  model : String
  responseId : String
  refused : Bool
  refusal : Option String
  parsed : Option Doc
  inputTokens : ℕ
  outputTokens : ℕ
  costUsd : ℚ

/-- The requests that can raise. -/
inductive Call where
  | cancelCheck
  | loadUsage
  | loadEvidence
  | loadSucceeded (stage : Stage) (inputHash : String)
  | rejectLoaded (record : StageRecord)
  | generate (request : ModelRequest)
  | append (event : Event)
  | commitAtomic (record : StageRecord) (payload : Doc)
  | commitSucceeded (record : StageRecord)
  | commitFailed (record : StageRecord)
  | recordUsage (usage : Usage)
  | persistOutputs (proposals : List ProposalDraft) (conflicts : List ConflictDraft)
  | setRunStatus (status : RunStatus) (error : Option Doc)

/-- What a request returns when it does not raise. -/
def Call.Val : Call → Type
  | .cancelCheck => Bool
  | .loadUsage => Usage
  | .loadEvidence => List EvidenceBlock
  | .loadSucceeded _ _ => Option StageRecord
  | .rejectLoaded _ => Unit
  | .generate _ => ModelResult
  | .append _ => Unit
  | .commitAtomic _ _ => StageRecord
  | .commitSucceeded _ => StageRecord
  | .commitFailed _ => Unit
  | .recordUsage _ => Unit
  | .persistOutputs _ _ => List ProposalDraft × List ConflictDraft
  | .setRunStatus _ _ => Unit

inductive Op where
  | leaseCheck
  /-- The seconds since the attempt's budget was made. -/
  | monotonic
  | call (c : Call)

def workflowSig : Sig where
  Op := Op
  Ans
    | .leaseCheck => Bool
    | .monotonic => ℚ
    | .call c => Except Exc c.Val

/-- The requests that write a step row, an event, the usage, the proposals with their conflicts, or
the run's status. -/
def Call.isWrite : Call → Bool
  | .append _ | .commitAtomic _ _ | .commitSucceeded _ | .commitFailed _ | .recordUsage _
  | .persistOutputs _ _ | .setRunStatus _ _ => true
  | .cancelCheck | .loadUsage | .loadEvidence | .loadSucceeded _ _ | .rejectLoaded _
  | .generate _ => false

/-! ## The state of an attempt -/

/-- The counters and caps of `RunBudget`. -/
structure Budget where
  maxCalls : ℕ
  maxInputTokens : ℕ
  maxOutputTokens : ℕ
  maxCostUsd : ℚ
  maxWallSeconds : ℕ
  callsUsed : ℕ
  inputTokensUsed : ℕ
  outputTokensUsed : ℕ
  costUsd : ℚ
  wallSecondsUsed : ℚ

/-- The provenance of one model step. -/
structure ModelAudit where
  providerResponseId : Option String
  inputTokens : ℕ
  outputTokens : ℕ
  costUsd : ℚ
  attempts : ℕ
  instructionsHash : String
  attemptRequestHashes : List String
  responseIds : List String

structure WorkflowState where
  evidence : List EvidenceBlock
  classification : Doc
  candidates : List Doc
  rawProposals : List Doc
  normalized : List Doc
  validated : List ProposalDraft
  conflicts : List ConflictDraft
  stages : Dict Stage StageRecord
  status : RunStatus
  error : Option Doc
  abstained : Bool

def WorkflowState.init (evidence : List EvidenceBlock) : WorkflowState where
  evidence := evidence
  classification := .obj []
  candidates := []
  rawProposals := []
  normalized := []
  validated := []
  conflicts := []
  stages := []
  status := .running
  error := none
  abstained := false

structure Ctx where
  state : WorkflowState
  budget : Budget
  newlyCommitted : ℕ
  modelAudit : Option ModelAudit

/-- An exception with the state it leaves behind. -/
structure Raised where
  exc : Exc
  ctx : Ctx

abbrev W (α : Type) := Prog workflowSig Raised α

/-- The pure collaborators of the workflow. -/
structure Tools (Ontology : Type) where
  hashJson : Doc → String
  sha256Hex : String → String
  /-- `len(canonical_json(d))`. -/
  canonicalLength : Doc → ℕ
  isoformat : Datetime → String
  /-- `datetime.fromisoformat(s.replace("Z", "+00:00"))`. -/
  fromIsoformat : String → Except Exc Datetime
  buildMessages : Role → List EvidenceBlock → Except Exc (List Doc)
  envelopeErrors : Role → Doc → List String
  /-- `_proposal_item_errors`; roles without proposals have none. -/
  itemErrors : Role → Doc → Option (List String)
  requestHash : Role → List Doc → ℕ → String
  instructionsHash : Role → String
  /-- `json.dumps(d, sort_keys=True)`. -/
  dumps : Doc → String
  normalizePayload : Doc → Except Exc (Doc × List String)
  validateProposals : String → List Doc → List EvidenceBlock → Ontology →
    Except Exc (List ProposalDraft × List ConflictDraft)
  citationStatusFor : Doc → List EvidenceBlock → String
  redactErrorText : String → String
  /-- `load_saas_metrics()`, the ontology of the package. -/
  defaultOntology : Ontology

/-- What the attempt was given besides its stores. -/
structure Deps (Ontology : Type) where
  tools : Tools Ontology
  request : Request
  ontology : Option Ontology
  /-- The checkpoint store is the one of the database: it commits a stage with its event. -/
  durable : Bool
  hasEvidenceLoader : Bool
  crashAfterStages : Option ℕ

variable {Ontology : Type}

/-- `deps.ontology or load_saas_metrics()`. -/
def Deps.runOntology (deps : Deps Ontology) : Ontology :=
  deps.ontology.getD deps.tools.defaultOntology

/-! ## Requests from a state -/

/-- Ask a request that can raise; the exception carries the state of the attempt. -/
def call (ctx : Ctx) (c : Call) : W c.Val :=
  .ask (.call c) fun
    | .ok v => .ret v
    | .error e => .raise ⟨e, ctx⟩

def leaseCheck : W Bool := .ask .leaseCheck .ret

def monotonic : W ℚ := .ask .monotonic .ret

def raise {α : Type} (ctx : Ctx) (e : Exc) : W α := .raise ⟨e, ctx⟩

def cancelCheck (ctx : Ctx) : W Bool := call ctx .cancelCheck

def loadEvidence (ctx : Ctx) : W (List EvidenceBlock) := call ctx .loadEvidence

def rejectLoaded (ctx : Ctx) (record : StageRecord) : W Unit := call ctx (.rejectLoaded record)

def commitAtomic (ctx : Ctx) (record : StageRecord) (payload : Doc) : W StageRecord :=
  call ctx (.commitAtomic record payload)

def commitSucceeded (ctx : Ctx) (record : StageRecord) : W StageRecord :=
  call ctx (.commitSucceeded record)

/-- `deps.events.append`. -/
def append (ctx : Ctx) (type : EventType) (payload : Doc) : W Unit :=
  call ctx (.append ⟨type, payload⟩)

/-! ## The budget -/

/-- `elapsed_seconds() > max_wall_seconds`. -/
def Budget.wallExceeded (b : Budget) (sinceStart : ℚ) : Bool :=
  decide (b.maxWallSeconds < b.wallSecondsUsed + sinceStart)

def Budget.wallMessage (b : Budget) : String :=
  "wall clock cap " ++ toString b.maxWallSeconds ++ "s reached"

/-- `RunBudget.precheck`. -/
def precheck (ctx : Ctx) (reserve : ℕ) : W Unit := do
  let t ← monotonic
  let b := ctx.budget
  if b.wallExceeded t then raise ctx (.budgetExceeded b.wallMessage)
  else if b.maxCalls ≤ b.callsUsed then
    raise ctx (.budgetExceeded ("call cap " ++ toString b.maxCalls ++ " reached"))
  else if b.maxOutputTokens < b.outputTokensUsed + reserve then
    raise ctx (.budgetExceeded "reserved output tokens would exceed cap")
  else if b.maxInputTokens ≤ b.inputTokensUsed then
    raise ctx (.budgetExceeded "input-token cap reached")
  else if b.maxCostUsd ≤ b.costUsd then raise ctx (.budgetExceeded "cost cap reached")
  else return ()

/-- The counters after a call. -/
def Budget.add (b : Budget) (r : ModelResult) : Budget :=
  { b with
    callsUsed := b.callsUsed + 1
    inputTokensUsed := b.inputTokensUsed + r.inputTokens
    outputTokensUsed := b.outputTokensUsed + r.outputTokens
    costUsd := b.costUsd + r.costUsd }

/-- `RunBudget.record`: the counters move before the caps are read. -/
def recordCall (ctx : Ctx) (r : ModelResult) : W Ctx := do
  let b := ctx.budget.add r
  let ctx := { ctx with budget := b }
  if b.maxCostUsd < b.costUsd then
    raise ctx (.budgetExceeded "cost cap crossed by completed call; run stops")
  else if b.maxInputTokens < b.inputTokensUsed then
    raise ctx (.budgetExceeded "input-token cap crossed by completed call; run stops")
  else if b.maxOutputTokens < b.outputTokensUsed then
    raise ctx (.budgetExceeded "output-token cap crossed by completed call; run stops")
  else do
    let t ← monotonic
    if b.wallExceeded t then raise ctx (.budgetExceeded b.wallMessage) else return ctx

/-! ## The model step -/

structure StepResult where
  /-- `none` is an abstention. -/
  outcome : Option Doc
  responseIds : List String
  attemptRequestHashes : List String
  attempts : ℕ

/-- What an answer of the provider is worth: accepted, abstained, or the problems with it. -/
inductive Verdict where
  | accept (d : Doc)
  | abstain
  | reject (problems : List String)

/-- `"proposals" in parsed and parsed["proposals"] == []`. -/
def isEmptyProposals (d : Doc) : Bool :=
  match d.get? "proposals" with
  | some (.arr []) => true
  | _ => false

def unparseable : List String := ["output was not parseable JSON"]

/-- The checks of one answer. -/
def judge (tools : Tools Ontology) (role : Role) (parsed : Option Doc) : Verdict :=
  match parsed with
  | none => .reject unparseable
  | some d =>
      match tools.envelopeErrors role d with
      | [] =>
          if isEmptyProposals d then .abstain
          else match tools.itemErrors role d with
            | none => .accept d
            | some problems => .reject problems
      | errors => .reject errors

/-- The messages of the repair call. -/
def repairMessages (tools : Tools Ontology) (messages : List Doc) (parsed : Option Doc)
    (problems : List String) : List Doc :=
  messages ++
    [.obj [("role", .str "assistant"),
        ("content", .str ((parsed.map tools.dumps).getD "(no parseable output)"))],
      .obj [("role", .str "user"),
        ("content", .str ("Your previous output (above) failed schema validation: "
          ++ problems.headD "" ++ ". Return ONLY a JSON object conforming to the schema."))]]

/-- `repr` of a string without quotes or escapes in it. -/
def quoted (s : String) : String := "'" ++ s ++ "'"

/-- One call of the provider within the budget: the answer and the state. -/
def callProvider (deps : Deps Ontology) (ctx : Ctx) (role : Role) (messages : List Doc)
    (maxOutputTokens attempt : ℕ) : W (ModelResult × Ctx) := do
  precheck ctx maxOutputTokens
  -- whatever the provider raises is a `ProviderError`; what is no `Exception` passes
  let result ← (call ctx (.generate ⟨role, messages, maxOutputTokens⟩)).handle fun r =>
    match r.exc with
    | .base _ => .raise r
    | e => raise r.ctx (.extraction "provider_error"
        ("provider raised on attempt " ++ toString attempt ++ ": " ++ e.message))
  let ctx ← recordCall ctx result
  if result.provider ≠ deps.request.provider ∨ result.model ≠ deps.request.model then
    raise ctx (.extraction "provider_error"
      ("response " ++ quoted result.provider ++ "/" ++ quoted result.model ++ " violates run pin "
        ++ quoted deps.request.provider ++ "/" ++ quoted deps.request.model))
  else if result.refused then
    raise ctx (.extraction "provider_refused" (result.refusal.getD "provider refusal"))
  else return (result, ctx)

/-- `run_model_step`: one call, and one repair call. -/
def runModelStep (deps : Deps Ontology) (ctx : Ctx) (role : Role) : W (StepResult × Ctx) := do
  let tools := deps.tools
  let maxOutputTokens := min 4096 deps.request.maxOutputTokens
  let messages ← Prog.ofExcept ((tools.buildMessages role ctx.state.evidence).mapError fun e =>
    ⟨e, ctx⟩)
  let hash := tools.requestHash role messages maxOutputTokens
  let (first, ctx) ← callProvider deps ctx role messages maxOutputTokens 1
  match judge tools role first.parsed with
  | .accept d => return (⟨some d, [first.responseId], [hash], 1⟩, ctx)
  | .abstain => return (⟨none, [first.responseId], [hash], 1⟩, ctx)
  | .reject problems => do
      let messages := repairMessages tools messages first.parsed problems
      let hash' := tools.requestHash role messages maxOutputTokens
      let (second, ctx) ← callProvider deps ctx role messages maxOutputTokens 2
      let ids := [first.responseId, second.responseId]
      match judge tools role second.parsed with
      | .accept d => return (⟨some d, ids, [hash, hash'], 2⟩, ctx)
      | .abstain => return (⟨none, ids, [hash, hash'], 2⟩, ctx)
      | .reject problems =>
          if problems = unparseable then
            raise ctx (.extraction "provider_error" "no parseable output after 2 attempts")
          else raise ctx (.extraction "schema_invalid"
            ("schema validation failed after 2 attempts: " ++ problems.headD ""))

/-! ## Usage -/

/-- `_record_usage`. -/
def recordUsage (ctx : Ctx) : W Unit := do
  let t ← monotonic
  let b := ctx.budget
  let usage : Usage :=
    ⟨b.callsUsed, b.inputTokensUsed, b.outputTokensUsed, b.costUsd, b.wallSecondsUsed + t⟩
  call ctx (.recordUsage usage)
  append ctx .budgetUpdated (.obj
    [("calls_used", .ofNat usage.callsUsed),
      ("input_tokens_used", .ofNat usage.inputTokensUsed),
      ("output_tokens_used", .ofNat usage.outputTokensUsed),
      ("cost_usd", .str (toString usage.costUsd)),
      ("wall_seconds_used", .num (toString usage.wallSecondsUsed))])

/-! ## The stages -/

/-- `_stage_validate_request`. -/
def stageValidateRequest (deps : Deps Ontology) (ctx : Ctx) : W (Doc × Ctx) :=
  if deps.request.modes = [] then raise ctx (.stepFailed "modes must be non-empty")
  else if "sha256:".toList.isPrefixOf deps.request.inputHash.toList then
    return (.obj [("ok", .bool true),
      ("modes", .arr (deps.request.modes.map fun m => .str m.name))], ctx)
  else raise ctx (.stepFailed "input_hash must be sha256:…")

/-- `published_at > as_of`. -/
def isAfter (a b : Datetime) : Except Exc Bool :=
  if a.aware = b.aware then .ok (decide (b.micros < a.micros))
  else .error (.untyped "TypeError" "can't compare offset-naive and offset-aware datetimes")

/-- The checks of one block of evidence. -/
def checkBlock (deps : Deps Ontology) (b : EvidenceBlock) : Except Exc Unit :=
  if ¬ "sha256:".toList.isPrefixOf b.textHash.toList then
    .error (.integrityError ("evidence text_hash missing for " ++ b.sourceSpanId))
  else if deps.tools.sha256Hex b.text ≠ b.textHash then
    .error
      (.integrityError ("evidence text_hash does not describe its text for " ++ b.sourceSpanId))
  else match b.publishedAt with
    | none => .ok ()
    | some t => do
        if ← isAfter t deps.request.asOf then
          throw (.extraction "cutoff_violation"
            ("span " ++ b.sourceSpanId ++ " published_at after as_of cutoff"))

/-- A block of evidence as the stage's output holds it. -/
def EvidenceBlock.doc (tools : Tools Ontology) (b : EvidenceBlock) : Doc :=
  .obj [("source_span_id", .str b.sourceSpanId),
    ("document_version_id", .str b.documentVersionId),
    ("text", .str b.text),
    ("text_hash", .str b.textHash),
    ("published_at", Doc.ofOption (b.publishedAt.map tools.isoformat))]

/-- The blocks of the loader, or those the attempt was given. -/
def loadBlocks (deps : Deps Ontology) (ctx : Ctx) : W (List EvidenceBlock) :=
  if deps.hasEvidenceLoader then loadEvidence ctx else return ctx.state.evidence

/-- `_stage_assemble_evidence`. -/
def stageAssembleEvidence (deps : Deps Ontology) (ctx : Ctx) : W (Doc × Ctx) := do
  let blocks ← loadBlocks deps ctx
  Prog.ofExcept ((blocks.forM (checkBlock deps)).mapError fun e => ⟨e, ctx⟩)
  return (.arr (blocks.map (EvidenceBlock.doc deps.tools)),
    { ctx with state := { ctx.state with evidence := blocks } })

/-- What an accepted proposal is stamped with. -/
def stamp (req : Request) (d : Doc) : Doc :=
  Doc.setDefault "issuer_label" (.str req.issuerLabel) (Doc.set "entity_id" (.str req.entityId) d)

def abstainReason : Doc := .str "explicit zero-proposal envelope"

/-- What `_stage_model` makes of a result: the output of the stage and the state. -/
def applyOutcome (req : Request) (role : Role) (outcome : Option Doc) (s : WorkflowState) :
    Except Exc (Doc × WorkflowState) :=
  match outcome with
  | none =>
      let s := { s with abstained := true }
      match role with
      | .classifier =>
          let c : Doc := .obj [("document_type", .str "unknown"), ("sections", .arr []),
            ("relevant_modes", .arr (req.modes.map fun m => .str m.name)),
            ("abstained", .bool true), ("reason", abstainReason)]
          .ok (c, { s with classification := c })
      | .factCandidates =>
          .ok (.obj [("candidates", .arr []), ("abstained", .bool true), ("reason", abstainReason)],
            { s with candidates := [] })
      | .kpi | .guidance | .driverMapper =>
          .ok (.obj [("proposals", .arr []), ("abstained", .bool true), ("reason", abstainReason)],
            s)
  | some d =>
      if ¬ d.isObj then .error (.untyped "TypeError" "role returned non-object outcome")
      else match role with
        | .classifier => .ok (d, { s with classification := d })
        | .factCandidates =>
            let candidates := (d.listAt "candidates").filter Doc.isObj
            .ok (.obj [("candidates", .arr candidates)], { s with candidates := candidates })
        | .kpi | .guidance | .driverMapper =>
            let stamped := ((d.listAt "proposals").filter Doc.isObj).map (stamp req)
            .ok (.obj [("proposals", .arr stamped)],
              { s with rawProposals := s.rawProposals ++ stamped })

/-- `_stage_model`. -/
def stageModel (deps : Deps Ontology) (ctx : Ctx) (role : Role) : W (Doc × Ctx) := do
  let before := ctx.budget
  let (result, ctx) ← runModelStep deps ctx role
  let audit : ModelAudit :=
    { providerResponseId := result.responseIds.getLast?
      inputTokens := ctx.budget.inputTokensUsed - before.inputTokensUsed
      outputTokens := ctx.budget.outputTokensUsed - before.outputTokensUsed
      costUsd := ctx.budget.costUsd - before.costUsd
      attempts := result.attempts
      instructionsHash := deps.tools.instructionsHash role
      attemptRequestHashes := result.attemptRequestHashes
      responseIds := result.responseIds }
  let ctx := { ctx with modelAudit := some audit }
  recordUsage ctx
  let (output, state) ← Prog.ofExcept
    ((applyOutcome deps.request role result.outcome ctx.state).mapError fun e => ⟨e, ctx⟩)
  return (output, { ctx with state := state })

def normalizerBlockersKey : String := "_normalizer_blockers"

/-- One payload through the normalizer, with the blockers it found, and whether it was rejected. -/
def normalizeOne (tools : Tools Ontology) (raw : Doc) : Except Exc (Doc × Bool) := do
  let (payload, blockers) ← tools.normalizePayload raw
  if blockers.isEmpty then return (payload, false)
  else return (Doc.set normalizerBlockersKey (.arr (blockers.map .str)) payload, true)

/-- `_stage_normalize`. -/
def stageNormalize (deps : Deps Ontology) (ctx : Ctx) : W (Doc × Ctx) := do
  let pairs ← Prog.ofExcept ((ctx.state.rawProposals.mapM (normalizeOne deps.tools)).mapError
    fun e => ⟨e, ctx⟩)
  let normalized := pairs.map Prod.fst
  return (.obj [("normalized", .arr normalized), ("normalized_count", .ofNat normalized.length),
      ("blocked_count", .ofNat (pairs.countP Prod.snd))],
    { ctx with state := { ctx.state with normalized := normalized } })

/-- `_stage_validate`. -/
def stageValidate (deps : Deps Ontology) (ctx : Ctx) : W (Doc × Ctx) := do
  let s := ctx.state
  let (proposals, conflicts) ← Prog.ofExcept ((deps.tools.validateProposals deps.request.runId
    s.normalized s.evidence deps.runOntology).mapError fun e => ⟨e, ctx⟩)
  return (.obj [("normalized", .arr s.normalized), ("proposal_count", .ofNat proposals.length),
      ("conflict_count", .ofNat conflicts.length)],
    { ctx with state := { s with validated := proposals, conflicts := conflicts } })

/-- A draft with every citation row graded from the evidence. -/
def ProposalDraft.graded (tools : Tools Ontology) (evidence : List EvidenceBlock)
    (d : ProposalDraft) : ProposalDraft :=
  { d with evidence := d.evidence.map fun r =>
      { r with citationStatus := tools.citationStatusFor r.row evidence } }

/-- `_stage_verify_citations`. -/
def stageVerifyCitations (deps : Deps Ontology) (ctx : Ctx) : W (Doc × Ctx) :=
  let validated := ctx.state.validated.map (ProposalDraft.graded deps.tools ctx.state.evidence)
  let rows := validated.flatMap ProposalDraft.evidence
  let count (status : String) : Doc := .ofNat (rows.countP (·.citationStatus == status))
  return (.obj [("invalid_citations", count "invalid"), ("partial_citations", count "partial"),
      ("verified_citations", count "verified"), ("checked", .ofNat validated.length)],
    { ctx with state := { ctx.state with validated := validated } })

/-- `_stage_detect_conflicts`. -/
def stageDetectConflicts (ctx : Ctx) : W (Doc × Ctx) :=
  return (.obj [("conflict_keys", .arr (ctx.state.conflicts.map fun c => .str c.conflictKey)),
    ("count", .ofNat ctx.state.conflicts.length)], ctx)

/-- `_stage_persist`.  A draft's state is a constant, so the last check of the source never fires.
-/
def stagePersist (ctx : Ctx) : W (Doc × Ctx) := do
  if ← leaseCheck then
    let (persisted, conflicts) ← call ctx (.persistOutputs ctx.state.validated ctx.state.conflicts)
    return (.obj [("persisted", .ofNat persisted.length), ("conflicts", .ofNat conflicts.length)],
      ctx)
  else raise ctx (.leaseLost "queue lease lost before persist")

def Mode.role : Mode → Role
  | .kpi => .kpi
  | .guidance => .guidance
  | .revenueDriver => .driverMapper

/-- `_dispatch_stage`. -/
def dispatchStage (deps : Deps Ontology) (ctx : Ctx) : Stage → W (Doc × Ctx)
  | .validateRequest => stageValidateRequest deps ctx
  | .assembleEvidence => stageAssembleEvidence deps ctx
  | .classify => stageModel deps ctx .classifier
  | .collectCandidates => stageModel deps ctx .factCandidates
  | .extract mode => stageModel deps ctx mode.role
  | .normalize => stageNormalize deps ctx
  | .validate => stageValidate deps ctx
  | .verifyCitations => stageVerifyCitations deps ctx
  | .detectConflicts => stageDetectConflicts ctx
  | .persistProposals => stagePersist ctx

/-! ## Checkpoints -/

def stringDoc (xs : List String) : Doc := .arr (xs.map .str)

/-- `_stage_input_payload`. -/
def stageInputPayload (req : Request) (s : WorkflowState) : Stage → Doc
  | .validateRequest =>
      .obj [("run_id", .str req.runId), ("modes", stringDoc (req.modes.map Mode.name)),
        ("input_hash", .str req.inputHash), ("ontology_version", .str req.ontologyVersion)]
  | .assembleEvidence =>
      .obj [("manifest", req.inputManifest), ("corpus_version_id", .str req.corpusVersionId)]
  | .classify => .obj [("evidence_hashes", stringDoc (s.evidence.map EvidenceBlock.textHash))]
  | .collectCandidates => .obj [("classification", s.classification)]
  | .extract _ => .obj [("candidates", .arr s.candidates), ("classification", s.classification)]
  | .normalize =>
      .obj [("raw_proposals", .arr s.rawProposals), ("normalizer_version", .str "normalize/v2"),
        ("unit_policy_version", .str "unit-comparison/v1"),
        ("range_policy_version", .str "guidance-range-order/v1")]
  | .validate =>
      .obj [("normalized", .arr s.normalized), ("validator_version", .str "validate/v3"),
        ("unit_policy_version", .str "unit-comparison/v1"),
        ("range_policy_version", .str "guidance-range-order/v1")]
  | .verifyCitations => .obj [("validated_count", .ofNat s.validated.length)]
  | .detectConflicts => .obj [("proposal_ids", stringDoc (s.validated.map ProposalDraft.id))]
  | .persistProposals =>
      .obj [("proposal_ids", stringDoc (s.validated.map ProposalDraft.id)),
        ("conflict_keys", stringDoc (s.conflicts.map ConflictDraft.conflictKey))]

/-- `stage_input_hash`. -/
def stageInputHash (deps : Deps Ontology) (stage : Stage) (payload : Doc) : String :=
  deps.tools.hashJson (.obj [("run_id", .str deps.request.runId), ("step_name", .str stage.name),
    ("payload", payload), ("workflow_version", .str deps.request.workflowVersion)])

/-- `except Exception: return`: only what is no `Exception` passes. -/
def bestEffort (p : W Ctx) : W Ctx :=
  p.handle fun r =>
    match r.exc with
    | .base _ => .raise r
    | _ => .ret r.ctx

/-- `reject_loaded`, which only the store of the database has. -/
def rejectIfDurable (deps : Deps Ontology) (ctx : Ctx) (record : StageRecord) : W Unit :=
  if deps.durable then rejectLoaded ctx record else return ()

/-- `_reject_checkpoint`. -/
def rejectCheckpoint (deps : Deps Ontology) (ctx : Ctx) (record : StageRecord)
    (reason message : String) : W Ctx := do
  rejectIfDurable deps ctx record
  bestEffort do
    append ctx .stepFailed (.obj [("step_name", .str record.stage.name),
      ("input_hash", .str record.inputHash), ("output_hash", Doc.ofOption record.outputHash),
      ("error", .obj [("code", .str "checkpoint_rejected"), ("message", .str message)]),
      ("reason", .str reason), ("action", .str "stage_re_executed")])
    return ctx

/-- `_is_recoverable`. -/
def isRecoverable (deps : Deps Ontology) (ctx : Ctx) (record : StageRecord) : W (Bool × Ctx) := do
  match record.output with
  | none =>
      if record.outputHash.isSome then
        let ctx ← rejectCheckpoint deps ctx record "checkpoint_output_missing"
          ("step " ++ record.stage.name ++ " claims output_hash " ++ record.outputHash.getD ""
            ++ " but stored no output")
        return (false, ctx)
      else return (true, ctx)
  | some output =>
      let actual := deps.tools.hashJson output
      if record.outputHash = some actual then return (true, ctx)
      else
        let ctx ← rejectCheckpoint deps ctx record "checkpoint_hash_mismatch"
          ("step " ++ record.stage.name ++ " stored output hashing to " ++ actual
            ++ " under output_hash " ++ record.outputHash.getD "None")
        return (false, ctx)

def requiredStr (key : String) (d : Doc) : Except Exc String :=
  match d.strAt key with
  | some s => .ok s
  | none => .error (.untyped "KeyError" key)

/-- One block of evidence back from its document. -/
def restoreBlock (tools : Tools Ontology) (d : Doc) : Except Exc EvidenceBlock := do
  let publishedAt ← match d.strAt "published_at" with
    | some "" => pure none
    | some s => some <$> tools.fromIsoformat s
    | none => pure none
  let text := (d.strAt "text").getD ""
  let textHash ← requiredStr "text_hash" d
  let span ← requiredStr "source_span_id" d
  if tools.sha256Hex text ≠ textHash then
    throw (.integrityError ("restored evidence for span " ++ span
      ++ " does not match its checkpointed text_hash"))
  let version ← requiredStr "document_version_id" d
  return ⟨span, version, text, textHash, publishedAt⟩

/-- The drafts of a restored validation: the validator runs with its own default ontology. -/
def rebuild (deps : Deps Ontology) (s : WorkflowState) : Except Exc WorkflowState := do
  let (proposals, conflicts) ← deps.tools.validateProposals deps.request.runId s.normalized
    s.evidence deps.tools.defaultOntology
  return { s with validated := proposals, conflicts := conflicts }

/-- `_restore_output`. -/
def restoreOutput (deps : Deps Ontology) (s : WorkflowState) (stage : Stage)
    (output : Option Doc) : Except Exc WorkflowState :=
  match stage, output with
  | .assembleEvidence, some (.arr blocks) => do
      let evidence ← (blocks.filter Doc.isObj).mapM (restoreBlock deps.tools)
      return { s with evidence := evidence }
  | .classify, some (.obj members) => .ok { s with classification := .obj members }
  | .collectCandidates, some (.obj members) =>
      .ok { s with candidates := (Doc.obj members).listAt "candidates" }
  | .extract _, some (.obj members) =>
      .ok { s with rawProposals := s.rawProposals ++ (Doc.obj members).listAt "proposals" }
  | .normalize, some (.obj members) =>
      .ok { s with normalized := (Doc.obj members).listAt "normalized" }
  | .validate, some (.obj members) =>
      let restored := (Doc.obj members).listAt "normalized"
      rebuild deps { s with normalized := if restored.isEmpty then s.normalized else restored }
  | .detectConflicts, some (.obj _) =>
      if s.validated.isEmpty && !s.normalized.isEmpty then rebuild deps s else .ok s
  | _, _ => .ok s

/-! ## One stage -/

/-- `_record_stage_failure`. -/
def recordStageFailure (deps : Deps Ontology) (ctx : Ctx) (stage : Stage) (inputHash : String)
    (exc : Exc) : W Ctx :=
  let error : Doc := .obj [("code", .str (exc.code?.getD exc.typeName)),
    ("message", .str (deps.tools.redactErrorText exc.message))]
  bestEffort do
    if ← leaseCheck then
      let record := { StageRecord.plain stage .failed inputHash with error := some error }
      call ctx (.commitFailed record)
      let ctx :=
        { ctx with state := { ctx.state with stages := ctx.state.stages.set stage record } }
      append ctx .stepFailed (.obj [("step_name", .str stage.name), ("input_hash", .str inputHash),
        ("error", error)])
      return ctx
    else return ctx

/-- `_boundary`. -/
def boundary (ctx : Ctx) : W Unit := do
  if ← leaseCheck then
    if ← cancelCheck ctx then raise ctx (.cancelled "run cancelled at stage boundary")
    else
      let t ← monotonic
      if ctx.budget.wallExceeded t then raise ctx (.budgetExceeded ctx.budget.wallMessage)
      else return ()
  else raise ctx (.leaseLost "queue lease lost at stage boundary")

/-- `_commit_fence`. -/
def commitFence (ctx : Ctx) (stage : Stage) : W Unit := do
  if ← leaseCheck then
    if ← cancelCheck ctx then
      raise ctx (.cancelled ("run cancelled before committing stage " ++ stage.name))
    else return ()
  else raise ctx (.leaseLost ("queue lease lost before committing stage " ++ stage.name))

/-- `_commit_stage`. -/
def commitStage (deps : Deps Ontology) (ctx : Ctx) (record : StageRecord) (payload : Doc) :
    W StageRecord := do
  if deps.durable then commitAtomic ctx record payload
  else
    let committed ← commitSucceeded ctx record
    append ctx .stepCompleted payload
    return committed

/-- The record of a stage that was executed. -/
def executedRecord (deps : Deps Ontology) (stage : Stage) (inputHash : String) (output : Doc)
    (audit : Option ModelAudit) : StageRecord :=
  let record := { StageRecord.plain stage .succeeded inputHash with
    outputHash := some (deps.tools.hashJson output)
    output := some output }
  match audit with
  | none => record
  | some a =>
      { record with
        attempt := a.attempts
        providerResponseId := a.providerResponseId
        inputTokens := a.inputTokens
        outputTokens := a.outputTokens
        costUsd := a.costUsd }

/-- The payload of `step_completed`. -/
def completedPayload (deps : Deps Ontology) (stage : Stage) (inputHash : String) (output : Doc)
    (audit : Option ModelAudit) : Doc :=
  .obj ([("step_name", .str stage.name), ("input_hash", .str inputHash),
    ("output_hash", .str (deps.tools.hashJson output)),
    ("output_size_bytes", .ofNat (deps.tools.canonicalLength output))] ++
      match audit with
      | none => []
      | some a => [("model_step", .obj [("attempts", .ofNat a.attempts),
          ("instructions_hash", .str a.instructionsHash),
          ("attempt_request_hashes", stringDoc a.attemptRequestHashes),
          ("provider_response_ids", stringDoc a.responseIds)])])

/-- The part of `_run_stage` after the checkpoint was not used. -/
def executeStage (deps : Deps Ontology) (ctx : Ctx) (stage : Stage) (inputHash : String) : W Ctx :=
  do
  append ctx .stepStarted (.obj [("step_name", .str stage.name), ("input_hash", .str inputHash)])
  let (output, ctx) ← (dispatchStage deps { ctx with modelAudit := none } stage).handle fun r => do
    let ctx ← recordStageFailure deps r.ctx stage inputHash r.exc
    raise ctx r.exc
  commitFence ctx stage
  let committed ← commitStage deps ctx (executedRecord deps stage inputHash output ctx.modelAudit)
    (completedPayload deps stage inputHash output ctx.modelAudit)
  let ctx := { ctx with
    state := { ctx.state with stages := ctx.state.stages.set stage committed }
    newlyCommitted := ctx.newlyCommitted + 1 }
  match deps.crashAfterStages with
  | none => return ctx
  | some n =>
      if n ≤ ctx.newlyCommitted then
        raise ctx (.untyped "RuntimeError" ("injected crash after stage " ++ stage.name))
      else return ctx

/-- `_run_stage`. -/
def runStage (deps : Deps Ontology) (ctx : Ctx) (stage : Stage) : W Ctx := do
  let inputHash := stageInputHash deps stage (stageInputPayload deps.request ctx.state stage)
  match ← call ctx (.loadSucceeded stage inputHash) with
  | none => executeStage deps ctx stage inputHash
  | some existing =>
      if existing.status ≠ .succeeded then executeStage deps ctx stage inputHash
      else
        let (recoverable, ctx) ← isRecoverable deps ctx existing
        if recoverable then
          let ctx := { ctx with
            state := { ctx.state with stages := ctx.state.stages.set stage existing } }
          let state ← Prog.ofExcept
            ((restoreOutput deps ctx.state stage existing.output).mapError fun e => ⟨e, ctx⟩)
          return { ctx with state := state }
        else executeStage deps ctx stage inputHash

/-- `_should_skip_mode_stage`. -/
def shouldSkip (req : Request) : Stage → Bool
  | .extract mode => !req.modes.contains mode
  | _ => false

/-- `_mark_skipped`. -/
def markSkipped (deps : Deps Ontology) (ctx : Ctx) (stage : Stage) : Ctx :=
  let inputHash := stageInputHash deps stage (.obj [("skipped", .bool true),
    ("modes", stringDoc (deps.request.modes.map Mode.name))])
  { ctx with state := { ctx.state with
    stages := ctx.state.stages.set stage (.plain stage .skipped inputHash) } }

/-- The body of the loop over `STAGE_ORDER`. -/
def runStages (deps : Deps Ontology) (ctx : Ctx) : List Stage → W Ctx
  | [] => return ctx
  | stage :: stages => do
      boundary ctx
      if shouldSkip deps.request stage then
        runStages deps (markSkipped deps ctx stage) stages
      else
        let ctx ← runStage deps ctx stage
        runStages deps ctx stages

/-! ## The run -/

/-- `_normalize_blocked_count`. -/
def normalizeBlockedCount (s : WorkflowState) : Doc :=
  match (s.stages.get? .normalize).bind (·.output) with
  | some output =>
      match output.get? "blocked_count" with
      | some (.num n) => .num n
      | _ => .ofNat 0
  | none => .ofNat 0

/-- `_finalize_success`. -/
def finalizeSuccess (ctx : Ctx) : W Ctx := do
  if ← leaseCheck then
    if ctx.state.validated.isEmpty then
      let ctx := { ctx with state := { ctx.state with status := .succeeded, abstained := true } }
      append ctx .runSucceeded (.obj [("abstained", .bool true),
        ("normalize_blocked_count", normalizeBlockedCount ctx.state)])
      call ctx (.setRunStatus .succeeded none)
      return ctx
    else
      let ctx := { ctx with state := { ctx.state with status := .waitingReview } }
      call ctx (.setRunStatus .waitingReview none)
      append ctx .reviewWaiting (.obj [("proposal_count", .ofNat ctx.state.validated.length)])
      return ctx
  else raise ctx (.leaseLost "queue lease lost before finalize")

/-- The `finally` block: flush the usage while the lease is held. -/
def flushUsage (ctx : Ctx) : W Unit := do
  if ← leaseCheck then recordUsage ctx else return ()

/-- The stages, the flush, and the finish. -/
def runBody (deps : Deps Ontology) (ctx : Ctx) : W Ctx :=
  let stages : W Ctx :=
    if deps.request.workflowVersion ≠ workflowVersion then
      raise ctx (.stepFailed ("unsupported workflow version: " ++ deps.request.workflowVersion))
    else runStages deps ctx stageOrder
  stages.elim (fun ctx => do flushUsage ctx; finalizeSuccess ctx)
    fun r => do flushUsage r.ctx; .raise r

/-- Land the run: its event, then its status. -/
def closeRun (ctx : Ctx) (status : RunStatus) (type : EventType) (code message : String) : W Ctx :=
  do
  if ← leaseCheck then
    let error : Doc := .obj [("code", .str code), ("message", .str message)]
    let ctx := { ctx with state := { ctx.state with status := status, error := some error } }
    append ctx type error
    call ctx (.setRunStatus status (some error))
    return ctx
  else raise ctx (.leaseLost ("queue lease lost before " ++ status.name ++ " status write"))

/-- The `except` clauses of `run_extraction_workflow`. -/
def onException (r : Raised) : W Ctx :=
  match r.exc with
  | .leaseLost _ => .raise r
  | .cancelled m => closeRun r.ctx .cancelled .runCancelled "cancelled" m
  | .runAlreadyTerminal _ _ =>
      closeRun r.ctx .failed .runFailed (r.exc.code?.getD "extraction_error") r.exc.message
  | .extraction code m => closeRun r.ctx .failed .runFailed code m
  | .permanentFailure m => do
      let ctx ← closeRun r.ctx .failed .runFailed "internal_error" (r.exc.typeName ++ ": " ++ m)
      raise ctx r.exc
  | .untyped type m => do
      let ctx ← closeRun r.ctx .failed .runFailed "internal_error" (type ++ ": " ++ m)
      raise ctx r.exc
  | .base _ => .raise r

/-- The budget of an attempt starts from what earlier attempts flushed. -/
def initialBudget (req : Request) (carried : Usage) : Budget where
  maxCalls := req.maxCalls
  maxInputTokens := req.maxInputTokens
  maxOutputTokens := req.maxOutputTokens
  maxCostUsd := req.maxCostUsd
  maxWallSeconds := req.maxWallSeconds
  callsUsed := carried.callsUsed
  inputTokensUsed := carried.inputTokensUsed
  outputTokensUsed := carried.outputTokensUsed
  costUsd := carried.costUsd
  wallSecondsUsed := carried.wallSecondsUsed

def initialCtx (req : Request) (evidence : List EvidenceBlock) (carried : Usage) : Ctx where
  state := .init evidence
  budget := initialBudget req carried
  newlyCommitted := 0
  modelAudit := none

/-- `run_extraction_workflow`, from the state the handler makes. -/
def runExtractionWorkflow (deps : Deps Ontology) (evidence : List EvidenceBlock) : W Ctx := do
  let carried ← call (initialCtx deps.request evidence ⟨0, 0, 0, 0, 0⟩) .loadUsage
  let ctx := initialCtx deps.request evidence carried
  append ctx .runStarted (.obj [("workflow_version", .str workflowVersion)])
  (runBody deps ctx).handle onException

end Extraction
