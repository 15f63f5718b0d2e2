/-
# The worker of a job

What `run_worker` does with one claimed `extraction_run` job: the check of the run before the
dispatch, the handler with the workflow in it, and the write that gives the job back.

* The worker is a program over the requests of `ConsumerOp`; the workflow is embedded in it.
* The stores are those of the database (`extraction_memory_stores` is off).  The jobs of other kinds
  touch no run and are left out.
* An exception that leaves the program ends the worker's process.
-/
import EvidenceLab.Queue
import EvidenceLab.RunLog

namespace Extraction

open Effects JobQueue

/-! ## Requests -/

/-- The write that gives a job back.  A `PermanentFailure` is dead-lettered where it is caught. -/
inductive JobWrite where
  | complete
  | fail (text : String)
  | deadLetter (text : String)
  | cancel (text : String)
  | permanentFailure (text : String)

/-- The call of the queue; `fail` draws a number for its backoff. -/
def JobWrite.call (draw : ℚ) : JobWrite → JobQueue.Call
  | .complete => .complete
  | .fail text => .fail text draw
  | .deadLetter text => .deadLetter text
  | .cancel text => .cancel text
  | .permanentFailure text => .deadLetter text

inductive ConsumerOp where
  /-- `load_run_status` of the job's run. -/
  | readRun (job : ClaimedJob)
  /-- What the handler reads and checks before `mark_running`. -/
  | bind (job : ClaimedJob)
  /-- `mark_running`'s `UPDATE`. -/
  | markRunning (job : ClaimedJob)
  /-- `heartbeat.lease_lost`. -/
  | leaseLost (job : ClaimedJob)
  | workflow (job : ClaimedJob) (o : Op)
  | queue (job : ClaimedJob) (write : JobWrite)

/-- The claim that a request is made with. -/
def ConsumerOp.job : ConsumerOp → ClaimedJob
  | .readRun job => job
  | .bind job => job
  | .markRunning job => job
  | .leaseLost job => job
  | .workflow job _ => job
  | .queue job _ => job

def consumerSig (Ontology : Type) : Sig where
  Op := ConsumerOp
  Ans
    | .readRun _ => Except Exc RunStatus
    | .bind _ => Except Exc (Deps Ontology × List EvidenceBlock)
    | .markRunning _ => Except Exc Unit
    | .leaseLost _ => Bool
    | .workflow _ o => workflowSig.Ans o
    | .queue _ _ => Except QueueError Bool

variable {Ontology : Type}

abbrev C (Ontology α : Type) := Prog (consumerSig Ontology) Exc α

/-- The workflow's requests are made for the job. -/
def workflowOf (Ontology : Type) (job : ClaimedJob) :
    Sig.Hom workflowSig (consumerSig Ontology) where
  op := .workflow job
  ans _ r := r

/-- `load_run_status`; its exception is a value here. -/
def readRun (job : ClaimedJob) : C Ontology (Except Exc RunStatus) :=
  .ask (.readRun job) .ret

def bindRun (job : ClaimedJob) : C Ontology (Except Exc (Deps Ontology × List EvidenceBlock)) :=
  .ask (.bind job) .ret

def markRunning (job : ClaimedJob) : C Ontology (Except Exc Unit) :=
  .ask (.markRunning job) .ret

def leaseLost (job : ClaimedJob) : C Ontology Bool :=
  .ask (.leaseLost job) .ret

/-- What the queue raises is caught nowhere. -/
def giveBack (job : ClaimedJob) (write : JobWrite) : C Ontology Unit :=
  .ask (.queue job write) fun
    | .ok _ => .ret ()
    | .error _ => .raise (.untyped "QueueError" "")

/-! ## Texts -/

/-- `_safe_extraction_code`. -/
def safeExtractionCode (code : Option String) : String :=
  match code with
  | some value =>
      let chars := value.toList
      if 0 < chars.length && chars.length ≤ 64 && (chars.headD 'A').isLower
          && chars.all fun c => c.isLower || c.isDigit || c == '_' then value
      else "extraction_error"
  | none => "extraction_error"

/-- `_safe_extraction_run_id`. -/
def safeExtractionRunId (runId : Option String) : String :=
  match runId with
  | some value =>
      let chars := value.toList
      if chars.length ≤ 64 && 0 < chars.length
          && chars.all fun c => "0123456789abcdefABCDEF-".toList.contains c then value
      else "unknown"
  | none => "unknown"

/-- `_extraction_job_reason`. -/
def extractionJobReason (runId : Option String) (status : RunStatus) (code : Option String) :
    String :=
  "extraction run " ++ safeExtractionRunId runId ++ " " ++ status.name ++ "; code="
    ++ safeExtractionCode code ++ "; extraction detail withheld"

/-- The reason of `_park_terminal_run_job`. -/
def parkReason (runId : String) (status : RunStatus) (detailCode : Option String) : String :=
  "extraction run " ++ safeExtractionRunId (some runId) ++ " is already " ++ status.name
    ++ ": terminal runs are final (#146); job parked to match the run, not retried"
    ++ match detailCode with
      | some code => "; last_attempt_code=" ++ safeExtractionCode (some code)
          ++ "; extraction detail withheld"
      | none => ""

/-! ## The worker -/

/-- What the process was bound to. -/
structure Worker where
  /-- A `StructuredLLMProvider`. -/
  hasProvider : Bool
  /-- `run_id_from_payload`. -/
  runIdFromPayload : String → Option String

/-- `_terminal_run_status`: an unreadable status is unknown. -/
def terminalRunStatus (job : ClaimedJob) : C Ontology (Option RunStatus) := do
  match ← readRun job with
  | .ok status => return if status.isTerminal then some status else none
  | .error (.base type) => .raise (.base type)
  | .error _ => return none

/-- `_park_terminal_run_job`. -/
def parkTerminalRunJob (job : ClaimedJob) (runId : String) (status : RunStatus)
    (detailCode : Option String) : C Ontology Unit :=
  match status with
  | .succeeded => giveBack job .complete
  | .cancelled => giveBack job (.cancel (parkReason runId status detailCode))
  | _ => giveBack job (.deadLetter (parkReason runId status detailCode))

/-- `handle_extraction_run`: the id of the run it was bound to, and the state of the attempt. -/
def handleExtractionRun (job : ClaimedJob) : C Ontology (String × Ctx) := do
  match ← bindRun job with
  | .error e => .raise e
  | .ok (deps, evidence) =>
      -- `mark_running` reads the status before its `UPDATE`
      match ← readRun job with
      | .error e => .raise e
      | .ok status =>
          if status.isTerminal then .raise (.runAlreadyTerminal deps.request.runId status)
          else match ← markRunning job with
            | .error e => .raise e
            | .ok () =>
                (runExtractionWorkflow deps evidence).embed (workflowOf Ontology job)
                  (fun ctx => .ret (deps.request.runId, ctx)) fun r => .raise r.exc

/-- The write after the handler returned. -/
def onResult (job : ClaimedJob) (runId : String) (ctx : Ctx) : C Ontology Unit := do
  if ← leaseLost job then return ()
  else
    let code := (ctx.state.error.bind fun e => e.strAt "code")
    match ctx.state.status with
    | .failed => giveBack job (.deadLetter (extractionJobReason runId .failed code))
    | .cancelled => giveBack job (.cancel (extractionJobReason runId .cancelled code))
    | _ => giveBack job .complete

/-- The `except` clauses around the handler. -/
def onError (runId : Option String) (job : ClaimedJob) (e : Exc) : C Ontology Unit :=
  match e with
  | .permanentFailure m => giveBack job (.permanentFailure m)
  | .runAlreadyTerminal id status => do
      if ← leaseLost job then return ()
      else parkTerminalRunJob job id status none
  | .base type => .raise (.base type)
  | e => do
      if ← leaseLost job then return ()
      else match ← terminalRunStatus job with
        | some status =>
            parkTerminalRunJob job (runId.getD "") status (some (e.code?.getD "internal_error"))
        | none =>
            giveBack job (.fail (extractionJobReason runId .failed (e.code?.getD "internal_error")))

/-- The body of `run_worker`'s loop for a claimed `extraction_run` job. -/
def runJob (worker : Worker) (job : ClaimedJob) : C Ontology Unit :=
  let runId := worker.runIdFromPayload job.payload
  if worker.hasProvider then do
    match ← terminalRunStatus job with
    | some status => parkTerminalRunJob job (runId.getD "") status none
    | none => (handleExtractionRun job).elim (fun r => onResult job r.1 r.2) (onError runId job)
  else giveBack job (.fail ("bound worker lacks StructuredLLMProvider capability "
    ++ "required by job kind 'extraction_run'"))

end Extraction
