/-
# Jobs and their runs

The queue and the runs behind its jobs, under any number of workers, sweeps, lost leases and
crashes.  A worker closes the run in the workflow and the job in a later statement; a sweep closes a
job without reading its run.

* `Shared` is the queue, the row of each job's run, and the slot that each lease went to.
* `knowledge` is the contract of a worker: it completes, cancels or dead-letters a job only when it
  knows that the run has the matching status.
* `job_run_agree`: job and run agree, when no step closes a job as failed over a run that ended
  otherwise, and no worker closes a run after its claim was taken away.
-/
import EvidenceLab.Consumer
import EvidenceLab.QueueSafety

namespace Extraction

open Effects Transitions JobQueue

/-! ## The system -/

/-- The queue, the row of the run of each job, and the slot each lease was handed to.  The API
enqueues one job for each run, so a run is kept under the id of its job. -/
structure Shared where
  queue : JobQueue.System
  run : JobId → RunRow
  owner : Lease → ℕ

/-- What the environment chooses for a request of a worker. -/
structure WorkerChoice (Ontology : Type) where
  answer : (o : ConsumerOp) → (consumerSig Ontology).Ans o
  landed : Bool
  now : Instant
  draw : ℚ

/-- `RunAlreadyTerminal` comes from the store's own check of the status, never from a failure. -/
def Exc.isRefusal : Exc → Bool
  | .runAlreadyTerminal _ _ => true
  | _ => false

/-- An answer that a failing store or provider can give. -/
def isGenuine {α : Type} : Except Exc α → Bool
  | .ok _ => true
  | .error e => !e.isRefusal

variable {Ontology : Type}

/-- The choice of the environment for a request of the workflow. -/
def WorkerChoice.inner (x : WorkerChoice Ontology) (job : ClaimedJob) : Choice :=
  ⟨fun o => x.answer (.workflow job o), x.landed⟩

/-- The row of a job's run is replaced. -/
def Shared.setRun (d : Shared) (id : JobId) (row : RunRow) : Shared :=
  { d with run := Function.update d.run id row }

/-- The answer to a request of a worker. -/
def Shared.serve (d : Shared) (x : WorkerChoice Ontology) :
    (o : ConsumerOp) → Option (Shared × (consumerSig Ontology).Ans o)
  | .readRun job =>
      let answer : Except Exc RunStatus := x.answer (.readRun job)
      if isGenuine answer then some (d, answer.map fun _ => (d.run job.id).status) else none
  | .bind job =>
      let answer : Except Exc (Deps Ontology × List EvidenceBlock) := x.answer (.bind job)
      if isGenuine answer then some (d, answer) else none
  | .markRunning job =>
      match (x.answer (.markRunning job) : Except Exc Unit) with
      | .ok () => some (d.setRun job.id (d.run job.id).markRunning, .ok ())
      | .error e =>
          if e.isRefusal then none
          else some (if x.landed then d.setRun job.id (d.run job.id).markRunning else d, .error e)
  | .leaseLost job => some (d, x.answer (.leaseLost job))
  | .workflow job (.call c) =>
      let answer : Except Exc c.Val := x.answer (.workflow job (.call c))
      if isGenuine answer then
        let served := (d.run job.id).serveCall c (x.inner job)
        some (d.setRun job.id served.1, served.2)
      else none
  | .workflow job .leaseCheck => some (d, x.answer (.workflow job .leaseCheck))
  | .workflow job .monotonic => some (d, x.answer (.workflow job .monotonic))
  | .queue job write =>
      let call := write.call x.draw
      (JobQueue.step d.queue (.call job call x.now)).map fun q =>
        ({ d with queue := q }, (call.perform d.queue.jobs x.now job).map Prod.fst)

def extractionRun : String := "extraction_run"

/-- The steps of the other parties. -/
inductive Around where
  /-- The API creates a run and enqueues its job. -/
  | enqueue (job : NewJob) (id : JobId) (now : Instant)
  /-- `claim_one`; the worker in slot `w` starts on the job it gets. -/
  | claim (w : ℕ) (worker : Worker) (queue : String) (now : Instant) (locked : List JobId)
      (lease : Lease) (pick : JobId)
  /-- A beat of the thread that keeps a claim. -/
  | heartbeat (job : ClaimedJob) (now : Instant)
  | reap (now staleSeconds : ℚ)

def Shared.other (d : Shared) : Around → Option (Shared × Option (ℕ × C Ontology Unit))
  | .enqueue job id now =>
      if job.kind = extractionRun then
        (JobQueue.step d.queue (.enqueue job id now)).map fun q => ({ d with queue := q }, none)
      else none
  | .claim w worker queue now locked lease pick =>
      match JobQueue.step d.queue (.claim queue now locked lease (some pick)) with
      | none => none
      | some q =>
          match q.claims.head? with
          | none => none
          | some job =>
              some (⟨q, d.run, Function.update d.owner job.lease w⟩, some (w, runJob worker job))
  | .heartbeat job now =>
      (JobQueue.step d.queue (.call job .heartbeat now)).map fun q => ({ d with queue := q }, none)
  | .reap now staleSeconds =>
      (JobQueue.step d.queue (.reap now staleSeconds)).map fun q => ({ d with queue := q }, none)

/-- Workers, their queue and their runs. -/
def workerMachine (Ontology : Type) :
    Pool.Machine (consumerSig Ontology) Exc Unit Shared (WorkerChoice Ontology) Around where
  serve s _ o x := s.db.serve x o
  other d y := d.other y

abbrev WorkerConfig (Ontology : Type) := Pool.Config (consumerSig Ontology) Exc Unit Shared

def startOfWork : WorkerConfig Ontology :=
  ⟨⟨System.init, fun _ => .created "", fun _ => 0⟩, fun _ => none⟩

/-! ## Agreement -/

/-- A job and a run that are both terminal ended the same way. -/
def Agree (job : JobStatus) (run : RunStatus) : Prop :=
  job.isTerminal = true → run.isTerminal = true →
    (job = .succeeded ↔ run = .succeeded) ∧ (job = .cancelled ↔ run = .cancelled)
      ∧ (job = .failed ↔ run = .failed)

/-- Every job agrees with its run. -/
def Shared.Agrees (d : Shared) : Prop := ∀ r ∈ d.queue.jobs, Agree r.status (d.run r.id).status

/-- The claim still holds its row. -/
def Shared.holds (d : Shared) (job : ClaimedJob) : Bool := d.queue.holds job

/-- The run of the job did not end as succeeded or cancelled. -/
def Shared.mayFail (d : Shared) (id : JobId) : Bool :=
  (d.run id).status != .succeeded && (d.run id).status != .cancelled

/-- The condition on a request: a claim that was taken away closes no run, and a job is given back
as failed without reading its run only when the run did not end otherwise. -/
def Shared.careful (d : Shared) : ConsumerOp → Bool
  | .workflow job (.call (.setRunStatus status _)) => !status.isTerminal || d.holds job
  | .queue job (.fail _) => !(job.isLast && d.holds job) || d.mayFail job.id
  | .queue job (.permanentFailure _) => !d.holds job || d.mayFail job.id
  | _ => true

/-- The condition on steps. -/
def Careful (s : WorkerConfig Ontology) : Pool.Act (WorkerChoice Ontology) Around → Prop
  | .serve w _ => ∀ o, s.next w = some o → s.db.careful o = true
  | .other (.reap now staleSeconds) => ∀ r ∈ s.db.queue.jobs, isStale now staleSeconds r = true →
      r.maxAttempts ≤ r.attempts → s.db.mayFail r.id = true
  | _ => True

instance (s : WorkerConfig Ontology) (a : Pool.Act (WorkerChoice Ontology) Around) :
    Decidable (Careful s a) :=
  match a with
  | .serve w _ =>
      match h : s.next w with
      | none => isTrue fun o ho => by rw [h] at ho; cases ho
      | some o => decidable_of_iff (s.db.careful o = true) ⟨fun hc o' ho => by
          rw [h] at ho
          exact Option.some.inj ho ▸ hc, fun hc => hc o h⟩
  | .crash _ => isTrue trivial
  | .other (.reap now staleSeconds) =>
      inferInstanceAs (Decidable (∀ r ∈ s.db.queue.jobs, isStale now staleSeconds r = true →
        r.maxAttempts ≤ r.attempts → s.db.mayFail r.id = true))
  | .other (.enqueue _ _ _) => isTrue trivial
  | .other (.claim _ _ _ _ _ _ _) => isTrue trivial
  | .other (.heartbeat _ _) => isTrue trivial

/-! ## The contract of the workflow -/

/-- The status that the run is known to have. -/
def statusAfter (k : Option RunStatus) : (o : workflowSig.Op) → workflowSig.Ans o → Option RunStatus
  | .call (.setRunStatus status _), .ok _ => some status
  | .call (.setRunStatus _ _), .error (.runAlreadyTerminal _ status) => some status
  | .call (.setRunStatus _ _), .error _ => none
  | _, _ => k

/-- The store refuses a status only when the run has a terminal one; nothing else refuses. -/
def isStoreAnswer : (o : workflowSig.Op) → workflowSig.Ans o → Prop
  | .call (.setRunStatus _ _), r => ∀ id status, r = .error (.runAlreadyTerminal id status) →
      status.isTerminal = true
  | .call _, r => isGenuine r = true
  | _, _ => True

/-- The workflow writes no status that a run starts with. -/
def RunStatus.isOutcome : RunStatus → Bool
  | .queued | .running => false
  | _ => true

def statusKnowledge : Contract workflowSig (Option RunStatus) where
  allowed _ o := ∀ status error, o = .call (.setRunStatus status error) → status.isOutcome = true
  next k o r k' := isStoreAnswer o r ∧ k' = statusAfter k o r

/-- An exception that says that the run is terminal says it truly. -/
def Truthful (k : Option RunStatus) (e : Exc) : Prop :=
  ∀ id status, e = .runAlreadyTerminal id status → k = some status ∧ status.isTerminal = true

/-- The workflow returns with the status it wrote. -/
abbrev Closes (k : Option RunStatus) (p : W Ctx) : Prop :=
  p.Keeps statusKnowledge (fun k ctx => k = some ctx.state.status ∧
    ctx.state.status.isOutcome = true)
    (fun k r => Truthful k r.exc) k

variable {k : Option RunStatus} {ctx : Ctx} {deps : Deps Ontology} {α β : Type}

/-- An error that is no refusal says nothing about the run. -/
theorem truthful_of_not_refusal {e : Exc} (h : e.isRefusal = false) : Truthful k e := by
  rintro id status rfl
  cases h

/-- A request that writes no status. -/
theorem keeps_statusless {c : Call} (hc : ∀ status error, c ≠ .setRunStatus status error) :
    (call ctx c).Keeps statusKnowledge (fun k' _ => k' = k) (fun k r => Truthful k r.exc) k := by
  refine ⟨fun status error h => absurd (Op.call.inj h) (hc status error), fun r k' hn => ?_⟩
  have hans : isGenuine (r : Except Exc c.Val) = true := by
    cases c with
    | setRunStatus status error => exact absurd rfl (hc status error)
    | _ => exact hn.1
  have hk : k' = k := by
    rw [hn.2]
    cases c with
    | setRunStatus status error => exact absurd rfl (hc status error)
    | _ => rfl
  cases r with
  | ok v => exact hk
  | error e => exact truthful_of_not_refusal (by simpa [isGenuine] using hans)

/-- Writing an outcome makes it the known status. -/
theorem keeps_setRunStatus {status : RunStatus} {error : Option Doc}
    (hs : status.isOutcome = true) :
    (call ctx (.setRunStatus status error)).Keeps statusKnowledge (fun k' _ => k' = some status)
      (fun k r => Truthful k r.exc) k := by
  refine ⟨?_, fun r k' hn => ?_⟩
  · rintro status' error' h
    obtain ⟨rfl, -⟩ := Call.setRunStatus.inj (Op.call.inj h)
    exact hs
  · obtain ⟨hans, rfl⟩ := hn
    cases r with
    | ok v => rfl
    | error e =>
        rintro id st rfl
        exact ⟨rfl, hans id st rfl⟩

/-- A lease check learns nothing about the run. -/
theorem keeps_lease :
    leaseCheck.Keeps statusKnowledge (fun k' _ => k' = k) (fun k r => Truthful k r.exc) k :=
  ⟨fun _ _ h => (by cases h), fun _ _ hn => hn.2⟩

/-- Completing a run leaves its outcome known. -/
theorem closes_finalizeSuccess : Closes k (finalizeSuccess ctx) := by
  refine keeps_lease.bind fun k held _ => ?_
  split_ifs
  · refine Prog.Keeps.bind (keeps_statusless fun _ _ h => by cases h) fun k _ _ => ?_
    refine (keeps_setRunStatus rfl).bind fun k _ hk => ?_
    exact ⟨hk, rfl⟩
  · refine (keeps_setRunStatus rfl).bind fun k _ hk => ?_
    refine Prog.Keeps.bind (keeps_statusless fun _ _ h => by cases h) fun k' _ hk' => ?_
    exact ⟨hk'.trans hk, rfl⟩
  · exact truthful_of_not_refusal rfl

/-- Closing a run leaves its outcome known. -/
theorem closes_closeRun {type : EventType} {status : RunStatus} {code message : String}
    (hs : status.isOutcome = true) : Closes k (closeRun ctx status type code message) := by
  refine keeps_lease.bind fun k held _ => ?_
  split_ifs
  · refine Prog.Keeps.bind (keeps_statusless fun _ _ h => by cases h) fun k _ _ => ?_
    refine (keeps_setRunStatus hs).bind fun k _ hk => ?_
    exact ⟨hk, hs⟩
  · exact truthful_of_not_refusal rfl

/-- Whatever the attempt raised, what leaves the `except` clauses is truthful. -/
theorem closes_onException {r : Raised} : Closes k (onException r) := by
  have hagain : ∀ (status : RunStatus) (type : EventType) (code message : String),
      status.isOutcome = true → r.exc.isRefusal = false →
      Closes k (do let ctx ← closeRun r.ctx status type code message; raise ctx r.exc) :=
    fun status type code message hs hr =>
      (closes_closeRun hs).bind fun k ctx _ => truthful_of_not_refusal hr
  unfold onException
  cases hr : r.exc with
  | leaseLost m => exact truthful_of_not_refusal (by rw [hr]; rfl)
  | cancelled m => exact closes_closeRun rfl
  | runAlreadyTerminal runId status => exact closes_closeRun rfl
  | extraction code m => exact closes_closeRun rfl
  | permanentFailure m =>
      have h := hagain .failed .runFailed "internal_error" (r.exc.typeName ++ ": " ++ m) rfl
        (by rw [hr]; rfl)
      rw [hr] at h
      exact h
  | untyped type m =>
      have h := hagain .failed .runFailed "internal_error" (type ++ ": " ++ m) rfl (by rw [hr]; rfl)
      rw [hr] at h
      exact h
  | base type => exact truthful_of_not_refusal (by rw [hr]; rfl)

/-- What the stages ask teaches nothing about the status. -/
theorem keeps_of_ledger {p : W α} {cap : ℕ} {t : Tally} {R : Tally → α → Prop}
    {E : Tally → Raised → Prop} (hp : p.Keeps (ledger cap) R E t) :
    p.Keeps statusKnowledge (fun _ _ => True) (fun _ _ => True) k := by
  refine (hp.transfer (fun _ _ => True) trivial ?_ ?_).mono (fun _ _ _ => trivial)
    fun _ _ _ => trivial
  · rintro t k o - ha status error rfl
    cases ha.1
  · exact fun t k o r k' _ _ _ => ⟨_, rfl, trivial⟩

/-- **The body of the workflow** returns a context with the status of the run. -/
theorem closes_runBody :
    (runBody deps ctx).Keeps statusKnowledge
      (fun k ctx => k = some ctx.state.status ∧ ctx.state.status.isOutcome = true)
      (fun _ _ => True) k := by
  have hflush :
      ∀ k ctx, (flushUsage ctx).Keeps statusKnowledge (fun _ _ => True) (fun _ _ => True) k :=
    fun k ctx => keeps_of_ledger (steady_flushUsage (t := ⟨ctx.budget.callsUsed, false⟩) ⟨rfl, rfl⟩)
  unfold runBody
  dsimp only
  refine Prog.Keeps.elim (R := fun _ _ => True) (E := fun _ _ => True) ?_ ?_ ?_
  · split_ifs
    · trivial
    · exact keeps_of_ledger (metered_runStages (t := ⟨ctx.budget.callsUsed, false⟩) ⟨rfl, rfl⟩ rfl)
  · refine fun k ctx _ => (hflush k ctx).bind fun k _ _ => ?_
    exact closes_finalizeSuccess.mono (fun _ _ h => h) fun _ _ _ => trivial
  · exact fun k r _ => (hflush k r.ctx).bind fun k _ _ => trivial

/-- **The workflow knows the status it leaves the run with.** -/
theorem closes_runExtractionWorkflow {evidence : List EvidenceBlock} :
    Closes k (runExtractionWorkflow deps evidence) := by
  unfold runExtractionWorkflow
  refine Prog.Keeps.bind (keeps_statusless fun _ _ h => by cases h) fun k carried _ => ?_
  refine Prog.Keeps.bind (keeps_statusless fun _ _ h => by cases h) fun k _ _ => ?_
  exact closes_runBody.handle fun k r _ => closes_onException

/-! ## The contract of the worker -/

/-- The claim a worker works with, and the status its run is known to have. -/
structure Insight where
  job : ClaimedJob
  status : Option RunStatus

def Insight.after (g : Insight) :
    (o : (consumerSig Ontology).Op) → (consumerSig Ontology).Ans o → Insight
  | .readRun _, .ok status => { g with status := if status.isTerminal then some status else none }
  | .workflow _ o, r => { g with status := statusAfter g.status o r }
  | _, _ => g

/-- Only the store's own check of a status says that a run is terminal. -/
def isWorkerAnswer : (o : (consumerSig Ontology).Op) → (consumerSig Ontology).Ans o → Prop
  | .readRun _, r => isGenuine r = true
  | .bind _, r => isGenuine r = true
  | .markRunning _, r => isGenuine r = true
  | .workflow _ o, r => isStoreAnswer o r
  | _, _ => True

/-- A worker acts with its own claim, and gives the job back as the run is known to have ended. -/
def Insight.allows (g : Insight) : ConsumerOp → Prop
  | .queue job .complete => job = g.job ∧
      (g.status = some .succeeded ∨ g.status = some .waitingReview)
  | .queue job (.cancel _) => job = g.job ∧ g.status = some .cancelled
  | .queue job (.deadLetter _) => job = g.job ∧ g.status = some .failed
  | .workflow job (.call (.setRunStatus status _)) => job = g.job ∧ status.isOutcome = true
  | o => o.job = g.job

def knowledge (Ontology : Type) : Contract (consumerSig Ontology) Insight where
  allowed g o := g.allows o
  next g o r g' := isWorkerAnswer o r ∧ g' = g.after o r

variable {g : Insight} {job : ClaimedJob}

/-- The workflow's requests, made for the job. -/
theorem keeps_workflow {p : W α} {R : Option RunStatus → α → Prop}
    {E : Option RunStatus → Raised → Prop} (hp : p.Keeps statusKnowledge R E g.status) :
    p.Keeps ((knowledge Ontology).comap (workflowOf Ontology g.job))
      (fun g' a => g'.job = g.job ∧ R g'.status a) (fun g' r => g'.job = g.job ∧
        E g'.status r) g := by
  refine (hp.transfer (fun k g' => g'.job = g.job ∧ g'.status = k) ⟨rfl, rfl⟩ ?_ ?_).mono ?_ ?_
  · rintro k g' o ⟨hjob, -⟩ ha
    show g'.allows (.workflow g.job o)
    cases o with
    | leaseCheck => exact hjob.symm
    | monotonic => exact hjob.symm
    | call c =>
        cases c with
        | setRunStatus status error => exact ⟨hjob.symm, ha status error rfl⟩
        | _ => exact hjob.symm
  · rintro k g' o r g'' ⟨hjob, rfl⟩ - ⟨r', rfl, hans, rfl⟩
    exact ⟨_, ⟨hans, rfl⟩, hjob, rfl⟩
  · rintro g' a ⟨k, ⟨hjob, rfl⟩, hR⟩
    exact ⟨hjob, hR⟩
  · rintro g' r ⟨k, ⟨hjob, rfl⟩, hE⟩
    exact ⟨hjob, hE⟩

/-- The program keeps the worker's contract, wherever it ends. -/
abbrev Knows (g : Insight) (p : C Ontology α) : Prop :=
  p.Keeps (knowledge Ontology) (fun _ _ => True) (fun _ _ => True) g

/-- Reading the run learns its status. -/
theorem keeps_readRun {E : Insight → Exc → Prop} :
    (readRun g.job : C Ontology _).Keeps (knowledge Ontology)
      (fun g' r => g'.job = g.job ∧ (∀ status, r = .ok status → status.isTerminal = true →
        g'.status = some status) ∧ isGenuine r = true) E g := by
  refine ⟨rfl, fun r g' hn => ?_⟩
  obtain ⟨hans, rfl⟩ := hn
  refine ⟨?_, ?_, hans⟩
  · cases r with
    | ok status => rfl
    | error e => rfl
  · rintro status rfl ht
    simp [Insight.after, ht]

theorem keeps_leaseLost {E : Insight → Exc → Prop} :
    (leaseLost g.job : C Ontology Bool).Keeps (knowledge Ontology) (fun g' _ => g' = g) E g :=
  ⟨rfl, fun _ _ hn => hn.2⟩

/-- A permitted write may end the job. -/
theorem knows_giveBack {write : JobWrite} (h : g.allows (.queue g.job write)) :
    Knows g (giveBack g.job write : C Ontology Unit) := by
  refine ⟨h, fun r g' _ => ?_⟩
  cases r with
  | ok b => trivial
  | error e => trivial

/-- A terminal status that is read is known. -/
theorem keeps_terminalRunStatus :
    (terminalRunStatus g.job : C Ontology _).Keeps (knowledge Ontology)
      (fun g' r => g'.job = g.job ∧ ∀ status, r = some status →
        g'.status = some status ∧ status.isTerminal = true) (fun _ _ => True) g := by
  refine keeps_readRun.bind fun g' r hr => ?_
  obtain ⟨hjob, hknown, -⟩ := hr
  cases r with
  | ok status =>
      refine ⟨hjob, fun status' h => ?_⟩
      split_ifs at h with ht
      obtain rfl := Option.some.inj h
      exact ⟨hknown status rfl ht, ht⟩
  | error e =>
      cases e with
      | base type => trivial
      | _ => exact ⟨hjob, fun status h => by cases h⟩

/-- A job is parked as its run ended. -/
theorem knows_park {runId : String} {status : RunStatus} {detail : Option String}
    (hk : g.status = some status) (ht : status.isTerminal = true) :
    Knows g (parkTerminalRunJob g.job runId status detail : C Ontology Unit) := by
  cases status with
  | succeeded => exact knows_giveBack ⟨rfl, .inl hk⟩
  | cancelled => exact knows_giveBack ⟨rfl, hk⟩
  | failed => exact knows_giveBack ⟨rfl, hk⟩
  | queued => cases ht
  | running => cases ht
  | waitingReview => cases ht

/-- **A result** is written to the job as the run has it. -/
theorem knows_onResult {runId : String} {ctx : Ctx} (hk : g.status = some ctx.state.status)
    (ho : ctx.state.status.isOutcome = true) :
    Knows g (onResult g.job runId ctx : C Ontology Unit) := by
  refine keeps_leaseLost.bind fun g' lost hg => ?_
  subst hg
  cases lost with
  | true => trivial
  | false =>
      simp only [Bool.false_eq_true, if_false]
      cases hs : ctx.state.status with
      | succeeded => exact knows_giveBack ⟨rfl, .inl (hk.trans (by rw [hs]))⟩
      | waitingReview => exact knows_giveBack ⟨rfl, .inr (hk.trans (by rw [hs]))⟩
      | failed => exact knows_giveBack ⟨rfl, hk.trans (by rw [hs])⟩
      | cancelled => exact knows_giveBack ⟨rfl, hk.trans (by rw [hs])⟩
      | queued => rw [hs] at ho; cases ho
      | running => rw [hs] at ho; cases ho

/-- The clause for what is no `PermanentFailure` and no `RunAlreadyTerminal`. -/
def onOther (runId : Option String) (job : ClaimedJob) (code : Option String) :
    C Ontology Unit := do
  if ← leaseLost job then return ()
  else match ← terminalRunStatus job with
    | some status =>
        parkTerminalRunJob job (runId.getD "") status (some (code.getD "internal_error"))
    | none => giveBack job (.fail (extractionJobReason runId .failed (code.getD "internal_error")))

/-- **An error** is written to the job as the run has it. -/
theorem knows_onError {runId : Option String} {e : Exc} (he : Truthful g.status e) :
    Knows g (onError runId g.job e : C Ontology Unit) := by
  have hother : ∀ code : Option String, Knows g (onOther runId g.job code : C Ontology Unit) := by
    intro code
    refine keeps_leaseLost.bind fun g' lost hg => ?_
    subst hg
    cases lost with
    | true => trivial
    | false =>
        simp only [Bool.false_eq_true, if_false]
        refine keeps_terminalRunStatus.bind fun g'' r hr => ?_
        obtain ⟨hjob, hknown⟩ := hr
        rw [← hjob]
        cases r with
        | some status => exact knows_park (hknown status rfl).1 (hknown status rfl).2
        | none => exact knows_giveBack rfl
  cases e with
  | permanentFailure m => exact knows_giveBack rfl
  | runAlreadyTerminal id status =>
      refine keeps_leaseLost.bind fun g' lost hg => ?_
      subst hg
      cases lost with
      | true => trivial
      | false => exact knows_park (he id status rfl).1 (he id status rfl).2
  | base type => trivial
  | leaseLost m => exact hother (Exc.leaseLost m).code?
  | cancelled m => exact hother (Exc.cancelled m).code?
  | extraction code m => exact hother (Exc.extraction code m).code?
  | untyped type m => exact hother (Exc.untyped type m).code?

/-- The handler returns with the status its workflow wrote, and raises truthfully. -/
theorem keeps_handleExtractionRun :
    (handleExtractionRun g.job : C Ontology _).Keeps (knowledge Ontology)
      (fun g' r => g'.job = g.job ∧ g'.status = some r.2.state.status
        ∧ r.2.state.status.isOutcome = true)
      (fun g' e => g'.job = g.job ∧ Truthful g'.status e) g := by
  have hgenuine : ∀ {γ : Type} {r : Except Exc γ} {k : Option RunStatus} {e : Exc},
      isGenuine r = true → r = .error e → Truthful k e := by
    rintro γ r k e hr rfl
    exact truthful_of_not_refusal (by simpa [isGenuine] using hr)
  refine Prog.Keeps.bind (R := fun g' r => g' = g ∧ isGenuine r = true)
    ⟨rfl, fun r g' hn => ⟨hn.2, hn.1⟩⟩ fun g' r hr => ?_
  obtain ⟨rfl, hr⟩ := hr
  cases r with
  | error e => exact ⟨rfl, hgenuine hr rfl⟩
  | ok bound =>
      refine keeps_readRun.bind fun g'' r hr => ?_
      obtain ⟨hjob, hknown, hr⟩ := hr
      cases r with
      | error e => exact ⟨hjob, hgenuine hr rfl⟩
      | ok status =>
          dsimp only
          split_ifs with ht
          · refine ⟨hjob, fun id st h => ?_⟩
            obtain ⟨-, rfl⟩ := Exc.runAlreadyTerminal.inj h
            exact ⟨hknown _ rfl ht, ht⟩
          · refine Prog.Keeps.bind (R := fun g₃ r => g₃.job = g'.job ∧ isGenuine r = true)
              ⟨hjob.symm, fun r g₃ hn => ?_⟩ fun g₃ r hr => ?_
            · obtain ⟨hans, rfl⟩ := hn
              exact ⟨hjob, hans⟩
            · obtain ⟨hjob₃, hr⟩ := hr
              cases r with
              | error e => exact ⟨hjob₃, hgenuine hr rfl⟩
              | ok _ =>
                  rw [← hjob₃]
                  refine Prog.Keeps.embed (keeps_workflow closes_runExtractionWorkflow) ?_ ?_
                  · rintro g₄ ctx ⟨hjob₄, hk, ho⟩
                    exact ⟨hjob₄, hk, ho⟩
                  · rintro g₄ r ⟨hjob₄, ht⟩
                    exact ⟨hjob₄, ht⟩

/-- **A worker gives its job back as its run ended**, as far as it knows. -/
theorem knows_runJob {worker : Worker} : Knows g (runJob worker g.job : C Ontology Unit) := by
  unfold runJob
  dsimp only
  split_ifs
  · refine keeps_terminalRunStatus.bind fun g' r hr => ?_
    obtain ⟨hjob, hknown⟩ := hr
    rw [← hjob]
    cases r with
    | some status => exact knows_park (hknown status rfl).1 (hknown status rfl).2
    | none =>
        refine keeps_handleExtractionRun.elim ?_ ?_
        · rintro g'' r ⟨hjob', hk, ho⟩
          rw [← hjob']
          exact knows_onResult hk ho
        · rintro g'' e ⟨hjob', ht⟩
          rw [← hjob']
          exact knows_onError ht
  · exact knows_giveBack rfl

/-! ## The invariant -/

structure Shared.Ok (d : Shared) : Prop where
  queue : Inv d.queue
  agrees : d.Agrees

/-- A worker's claim was handed to its slot, and while it holds, its run has the status it knows. -/
structure Shared.Tied (d : Shared) (w : ℕ) (g : Insight) : Prop where
  claimed : g.job ∈ d.queue.claims
  owner : d.owner g.job.lease = w
  known : ∀ status, g.status = some status → status.isOutcome = true
    ∧ (d.holds g.job = true → (d.run g.job.id).status = status)

variable {d d' : Shared} {w : ℕ}

/-- An open run agrees with any job. -/
theorem agree_of_open {j : JobStatus} {status : RunStatus} (h : status.isTerminal = false) :
    Agree j status := by
  intro _ ht
  rw [h] at ht
  cases ht

/-- A job that is not terminal agrees with any run. -/
theorem agree_of_running {j : JobStatus} {status : RunStatus} (h : j.isTerminal = false) :
    Agree j status := by
  intro ht
  rw [h] at ht
  cases ht

/-- A job may fail if its run has failed, or is open. -/
theorem agree_failed {id : JobId} (hd : d.mayFail id = true) : Agree .failed (d.run id).status := by
  intro _ ht
  cases hs : (d.run id).status with
  | succeeded => simp [Shared.mayFail, hs] at hd
  | cancelled => simp [Shared.mayFail, hs] at hd
  | failed => exact ⟨by simp, by simp, by simp⟩
  | _ => rw [hs] at ht; cases ht

/-- A change that keeps every status. -/
theorem sound_of_same_status {row : RunRow} (hs : row.status = (d.run job.id).status) :
    (d.Ok → (d.setRun job.id row).Ok) ∧ ∀ v g, d.Tied v g → (d.setRun job.id row).Tied v g := by
  have hrun : ∀ id, ((d.setRun job.id row).run id).status = (d.run id).status := by
    intro id
    by_cases hid : id = job.id
    · subst hid
      simp [Shared.setRun, hs]
    · simp [Shared.setRun, hid]
  refine ⟨fun hd => ⟨hd.queue, fun r hr => ?_⟩,
    fun v g hg => ⟨hg.claimed, hg.owner, fun st hst => ?_⟩⟩
  · rw [hrun]
    exact hd.agrees r hr
  · obtain ⟨ho, hk⟩ := hg.known st hst
    exact ⟨ho, fun hh => (hrun _).trans (hk hh)⟩

variable (d job) in
/-- `mark_running` moves only a run whose status nobody knows. -/
theorem sound_markRunning :
    (d.Ok → (d.setRun job.id (d.run job.id).markRunning).Ok)
      ∧ ∀ v g, d.Tied v g → (d.setRun job.id (d.run job.id).markRunning).Tied v g := by
  by_cases hq : (d.run job.id).status = .queued
  · have hrow : (d.run job.id).markRunning.status = .running := by simp [RunRow.markRunning, hq]
    refine ⟨fun hd => ⟨hd.queue, fun r hr => ?_⟩,
      fun v g hg => ⟨hg.claimed, hg.owner, fun st hst => ?_⟩⟩
    · by_cases hid : r.id = job.id
      · refine agree_of_open ?_
        rw [hid, Shared.setRun]
        simp [hrow, RunStatus.isTerminal]
      · simpa [Shared.setRun, hid] using hd.agrees r hr
    · obtain ⟨ho, hk⟩ := hg.known st hst
      refine ⟨ho, fun hh => ?_⟩
      have hst' := hk hh
      by_cases hid : g.job.id = job.id
      · rw [hid, hq] at hst'
        rw [← hst'] at ho
        cases ho
      · simpa [Shared.setRun, hid] using hst'
  · refine sound_of_same_status ?_
    rw [RunRow.markRunning, if_neg hq]

/-! ## Requests of the workflow -/

/-- A request changes the status of a run only by writing it, on a run that is open. -/
theorem serveCall_status (row : RunRow) (c : Call) (x : Choice) :
    (row.serveCall c x).1.status = row.status
      ∨ ∃ status error, c = .setRunStatus status error ∧ row.status.isTerminal = false
        ∧ (row.serveCall c x).1.status = status := by
  have heffect : ∀ row', row.effect c = .ok row' → row'.status = row.status
      ∨ ∃ status error, c = .setRunStatus status error ∧ row.status.isTerminal = false
        ∧ row'.status = status := by
    intro row' h
    have hopen : ∀ r m, r.status = row.status → row.whileOpen r m = .ok row' →
        row'.status = row.status := by
      intro r m hr hw
      rw [RunRow.whileOpen] at hw
      split_ifs at hw
      rw [← Except.ok.inj hw, hr]
    cases c with
    | append e => exact .inl (hopen (row.appended e.type) _ rfl h)
    | commitAtomic r payload => exact .inl (hopen (row.appended .stepCompleted) _ rfl h)
    | persistOutputs p q => exact .inl (hopen (row.appended .proposalsPersisted) _ rfl h)
    | commitSucceeded r => exact .inl (hopen _ _ rfl h)
    | commitFailed r => exact .inl (hopen _ _ rfl h)
    | recordUsage u => exact .inl (hopen _ _ rfl h)
    | setRunStatus status error =>
        rw [RunRow.effect] at h
        split_ifs at h with ho hb
        obtain rfl := Except.ok.inj h
        exact .inr ⟨status, error, rfl, by simpa using ho, rfl⟩
    | _ => exact .inl (by rw [← Except.ok.inj h])
  rw [RunRow.serveCall]
  split
  · rename_i row' v he _
    exact heffect row' he
  · rename_i row' e he _
    dsimp only
    split_ifs
    · exact heffect row' he
    · exact .inl rfl
  · exact .inl rfl
  · exact .inl rfl

/-- What the answer to a status write says about the row. -/
theorem serveCall_setRunStatus (row : RunRow) {status : RunStatus} {error : Option Doc} {x : Choice}
    (hx : isGenuine (x.answer (.call (.setRunStatus status error)) : Except Exc Unit) = true) :
    isStoreAnswer (.call (.setRunStatus status error))
    (row.serveCall (.setRunStatus status error) x).2
      ∧ ∀ k st, statusAfter k (.call (.setRunStatus status error))
          (row.serveCall (.setRunStatus status error) x).2 = some st →
        (row.serveCall (.setRunStatus status error) x).1.status = st
          ∧ (st = status ∨ st.isTerminal = true) := by
  -- a genuine answer never claims that the run is terminal
  have hno : ∀ e, (x.answer (.call (.setRunStatus status error)) : Except Exc Unit) = .error e →
      ∀ id st, e ≠ .runAlreadyTerminal id st := by
    rintro e he id st rfl
    rw [he] at hx
    cases hx
  -- the row takes the status
  cases heff : row.effect (.setRunStatus status error) with
  | ok row' =>
      have hrow' : row'.status = status := by
        rw [RunRow.effect] at heff
        split_ifs at heff
        rw [← Except.ok.inj heff]
      cases hans : (x.answer (.call (.setRunStatus status error)) : Except Exc Unit) with
      | ok v =>
          have hserve : row.serveCall (.setRunStatus status error) x = (row', .ok v) := by
            simp only [RunRow.serveCall, heff, hans]
          rw [hserve]
          refine ⟨fun id st h => (by cases h), fun k st h => ?_⟩
          obtain rfl := Option.some.inj h
          exact ⟨hrow', .inl rfl⟩
      | error e =>
          have hserve : row.serveCall (.setRunStatus status error) x
              = (if x.landed then row' else row, .error e) := by
            simp only [RunRow.serveCall, heff, hans]
          rw [hserve]
          refine ⟨fun id st h => absurd (Except.error.inj h) (hno e hans id st), fun k st h => ?_⟩
          cases e with
          | runAlreadyTerminal id st' => exact absurd rfl (hno _ hans id st')
          | _ => cases h
  -- the row refuses it
  | error e' =>
      cases hans : (x.answer (.call (.setRunStatus status error)) : Except Exc Unit) with
      | ok v =>
          have hserve : row.serveCall (.setRunStatus status error) x = (row, .error e') := by
            simp only [RunRow.serveCall, heff, hans]
          rw [hserve]
          -- a terminal row says its own status
          rw [RunRow.effect] at heff
          split_ifs at heff with ht hb
          · obtain rfl := Except.error.inj heff
            refine ⟨fun id st h => ?_, fun k st h => ?_⟩
            · obtain ⟨-, rfl⟩ := Exc.runAlreadyTerminal.inj (Except.error.inj h)
              exact ht
            · obtain rfl := Option.some.inj h
              exact ⟨rfl, .inr ht⟩
          · obtain rfl := Except.error.inj heff
            exact ⟨fun id st h => (by cases Except.error.inj h), fun k st h => (by cases h)⟩
      | error e =>
          have hserve : row.serveCall (.setRunStatus status error) x = (row, .error e) := by
            simp only [RunRow.serveCall, heff, hans]
          rw [hserve]
          refine ⟨fun id st h => absurd (Except.error.inj h) (hno e hans id st), fun k st h => ?_⟩
          cases e with
          | runAlreadyTerminal id st' => exact absurd rfl (hno _ hans id st')
          | _ => cases h

/-- The only outcome that leaves a run open. -/
theorem eq_waitingReview {status : RunStatus} (ho : status.isOutcome = true)
    (ht : status.isTerminal = false) : status = .waitingReview := by
  cases status <;> simp [RunStatus.isOutcome, RunStatus.isTerminal] at ho ht ⊢

/-- A terminal status is an outcome. -/
theorem isOutcome_of_isTerminal {status : RunStatus} (ht : status.isTerminal = true) :
    status.isOutcome = true := by
  cases status <;> simp [RunStatus.isOutcome, RunStatus.isTerminal] at ht ⊢

/-- Only the write of a status is answered with a refusal that the environment did not choose. -/
theorem isGenuine_serveCall {row : RunRow} {c : Call} {x : Choice}
    (hc : ∀ status error, c ≠ .setRunStatus status error)
    (hx : isGenuine (x.answer (.call c) : Except Exc c.Val) = true) :
    isGenuine (row.serveCall c x).2 = true := by
  have hopen : ∀ r m e, row.whileOpen r m = .error e → e.isRefusal = false := by
    intro r m e he
    rw [RunRow.whileOpen] at he
    split_ifs at he
    rw [← Except.error.inj he]
    rfl
  have heffect : ∀ e, row.effect c = .error e → e.isRefusal = false := by
    intro e he
    cases c with
    | setRunStatus status error => exact absurd rfl (hc status error)
    | append a => exact hopen (row.appended a.type) _ e he
    | commitAtomic r payload => exact hopen (row.appended .stepCompleted) _ e he
    | persistOutputs p q => exact hopen (row.appended .proposalsPersisted) _ e he
    | commitSucceeded r => exact hopen row _ e he
    | commitFailed r => exact hopen row _ e he
    | recordUsage u => exact hopen row _ e he
    | _ => cases he
  rw [RunRow.serveCall]
  split
  · rfl
  · rename_i e _ he
    rw [he] at hx
    exact hx
  · rename_i e v he _
    simp [isGenuine, heffect e he]
  · rename_i e' e _ he
    rw [he] at hx
    exact hx

/-- A status written by a worker: its own tie is the new one, and no other tie is broken. -/
theorem sound_status {row : RunRow} {status : RunStatus} (hd : d.Ok) (hg : d.Tied w g)
    (hopen : (d.run g.job.id).status.isTerminal = false) (hs : status.isOutcome = true)
    (hcareful : status.isTerminal = true → d.holds g.job = true) (hrow : row.status = status) :
    (d.setRun g.job.id row).Ok
      ∧ ∀ v f, v ≠ w → d.Tied v f → (d.setRun g.job.id row).Tied v f := by
  have hown : ((d.setRun g.job.id row).run g.job.id).status = status := by
    simp [Shared.setRun, hrow]
  have helse : ∀ id, id ≠ g.job.id → (d.setRun g.job.id row).run id = d.run id := by
    intro id hid
    simp [Shared.setRun, hid]
  refine ⟨⟨hd.queue, fun r hr => ?_⟩, fun v f hv hf => ⟨hf.claimed, hf.owner, fun st hst => ?_⟩⟩
  · by_cases hid : r.id = g.job.id
    · rw [hid, hown]
      cases ht : status.isTerminal with
      | false => exact agree_of_open ht
      | true =>
          -- the claim holds the row, which is running
          obtain ⟨q, hq, hheld⟩ := holds_iff.mp (hcareful ht)
          obtain ⟨hqid, -, hrun⟩ := isHeld_iff.mp hheld
          obtain rfl := hd.queue.row_ext hr hq (hid.trans hqid.symm)
          rw [hrun]
          exact agree_of_running rfl
    · rw [helse r.id hid]
      exact hd.agrees r hr
  · obtain ⟨ho, hk⟩ := hf.known st hst
    refine ⟨ho, fun hh => ?_⟩
    by_cases hid : f.job.id = g.job.id
    · rw [hid, hown]
      have hst' := hk hh
      rw [hid] at hst'
      rw [hst'] at hopen
      by_cases hheld : d.holds g.job = true
      · have hsame := hd.queue.claim_of_holds hf.claimed hg.claimed hh hheld hid
        exact absurd (hf.owner.symm.trans (hsame ▸ hg.owner)) hv
      · -- a worker that lost its claim can only repeat that the run waits for review
        have ht : status.isTerminal = false := by
          by_contra hc
          exact hheld (hcareful (by simpa using hc))
        rw [eq_waitingReview ho hopen, eq_waitingReview hs ht]
    · rw [helse _ hid]
      exact hk hh

/-- A request of the workflow. -/
theorem sound_workflowCall {c : Call} {x : WorkerChoice Ontology} (hd : d.Ok) (hg : d.Tied w g)
    (hallow : g.allows (.workflow g.job (.call c)))
    (hcareful : d.careful (.workflow g.job (.call c)) = true)
    (hx : isGenuine (x.answer (.workflow g.job (.call c)) : Except Exc c.Val) = true) :
    let served := (d.run g.job.id).serveCall c (x.inner g.job)
    (d.setRun g.job.id served.1).Ok
      ∧ isStoreAnswer (.call c) served.2
      ∧ (d.setRun g.job.id served.1).Tied w
        { g with status := statusAfter g.status (.call c) served.2 }
      ∧ ∀ v f, v ≠ w → d.Tied v f → (d.setRun g.job.id served.1).Tied v f := by
  intro served
  have hchange : (d.setRun g.job.id served.1).Ok
      ∧ ∀ v f, v ≠ w → d.Tied v f → (d.setRun g.job.id served.1).Tied v f := by
    -- the row keeps its status, or takes an outcome that the worker may write
    rcases serveCall_status (d.run g.job.id) c (x.inner g.job) with h | ⟨status, error, rfl, ho, h⟩
    · obtain ⟨hok, hties⟩ := sound_of_same_status (d := d) h
      exact ⟨hok hd, fun v f _ hf => hties v f hf⟩
    · refine sound_status hd hg ho hallow.2 (fun ht => ?_) h
      simpa [Shared.careful, ht] using hcareful
  obtain ⟨hok, hrest⟩ := hchange
  by_cases hc : ∃ status error, c = .setRunStatus status error
  · obtain ⟨status, error, rfl⟩ := hc
    obtain ⟨hans, hafter⟩ := serveCall_setRunStatus (d.run g.job.id) (x := x.inner g.job) hx
    refine ⟨hok, hans, ⟨hg.claimed, hg.owner, fun st hst => ?_⟩, hrest⟩
    obtain ⟨hrow, hst'⟩ := hafter g.status st hst
    refine ⟨?_, fun _ => ?_⟩
    · rcases hst' with rfl | ht
      · exact hallow.2
      · exact isOutcome_of_isTerminal ht
    · simpa [Shared.setRun] using hrow
  · -- the other requests say nothing about the status
    have hstatus : statusAfter g.status (.call c) served.2 = g.status := by
      cases c with
      | setRunStatus status error => exact absurd ⟨status, error, rfl⟩ hc
      | _ => rfl
    have hsame : served.1.status = (d.run g.job.id).status := by
      rcases serveCall_status (d.run g.job.id) c (x.inner g.job) with h | ⟨status, error, rfl, -, -⟩
      · exact h
      · exact absurd ⟨status, error, rfl⟩ hc
    refine ⟨hok, ?_, ?_, hrest⟩
    · have hgen : isGenuine served.2 = true :=
        isGenuine_serveCall (fun status error h => hc ⟨status, error, h⟩) hx
      cases c with
      | setRunStatus status error => exact absurd ⟨status, error, rfl⟩ hc
      | _ => exact hgen
    · rw [hstatus]
      exact (sound_of_same_status hsame).2 w g hg

/-! ## Steps of the queue -/

/-- Whatever the queue does, a claim holds only where it held. -/
theorem tied_of_queueStep {q : JobQueue.System} {a : JobQueue.Act} (hd : d.Ok)
    (h : JobQueue.step d.queue a = some q) {v : ℕ} {f : Insight} (hf : d.Tied v f) :
    Shared.Tied { d with queue := q } v f := by
  refine ⟨claims_of_step h hf.claimed, hf.owner, fun st hst => ?_⟩
  obtain ⟨ho, hk⟩ := hf.known st hst
  exact ⟨ho, fun hh => hk (holds_of_step hd.queue h hf.claimed hh)⟩

/-- A job that is given back agrees with its run. -/
theorem sound_giveBack {write : JobWrite} {draw : ℚ} {now : Instant} {q : JobQueue.System}
    (hd : d.Ok) (hg : d.Tied w g) (hallow : g.allows (.queue g.job write))
    (hcareful : d.careful (.queue g.job write) = true)
    (h : JobQueue.step d.queue (.call g.job (write.call draw) now) = some q) :
    Shared.Ok { d with queue := q } := by
  refine ⟨step_inv hd.queue h, fun r hr => ?_⟩
  rcases (rows_call h).2 r hr with hr | ⟨p, hp, hheld, hid, hst⟩
  · exact hd.agrees r hr
  have hholds : d.holds g.job = true := holds_iff.mpr ⟨p, hp, hheld⟩
  have hrid : r.id = g.job.id := hid.trans (isHeld_iff.mp hheld).1
  show Agree r.status (d.run r.id).status
  rw [hst, hrid]
  cases write with
  | complete =>
      rcases hallow.2 with hk | hk
      · rw [(hg.known _ hk).2 hholds]
        exact fun _ _ => ⟨by simp [JobWrite.call, Call.status?], by
          simp [JobWrite.call, Call.status?],
          by simp [JobWrite.call, Call.status?]⟩
      · rw [(hg.known _ hk).2 hholds]
        exact agree_of_open rfl
  | cancel text =>
      rw [(hg.known _ hallow.2).2 hholds]
      exact fun _ _ => ⟨by simp [JobWrite.call, Call.status?], by
        simp [JobWrite.call, Call.status?],
        by simp [JobWrite.call, Call.status?]⟩
  | deadLetter text =>
      rw [(hg.known _ hallow.2).2 hholds]
      exact fun _ _ => ⟨by simp [JobWrite.call, Call.status?], by
        simp [JobWrite.call, Call.status?],
        by simp [JobWrite.call, Call.status?]⟩
  | permanentFailure text => exact agree_failed (by simpa [Shared.careful, hholds] using hcareful)
  | fail text =>
      show Agree (if g.job.isLast then .failed else .queued) _
      cases hl : g.job.isLast with
      | true => exact agree_failed (by simpa [Shared.careful, hl, hholds] using hcareful)
      | false => exact agree_of_running rfl

/-- **A careful sweep** keeps jobs and runs in agreement. -/
theorem sound_reap {now staleSeconds : ℚ} {q : JobQueue.System} (hd : d.Ok)
    (hcareful : ∀ r ∈ d.queue.jobs, isStale now staleSeconds r = true →
      r.maxAttempts ≤ r.attempts → d.mayFail r.id = true)
    (h : JobQueue.step d.queue (.reap now staleSeconds) = some q) :
    Shared.Ok { d with queue := q } := by
  refine ⟨step_inv hd.queue h, fun r hr => ?_⟩
  rcases (rows_reap h).2 r hr with hr | ⟨p, hp, hstale, rfl⟩
  · exact hd.agrees r hr
  show Agree (reapSet now p).status (d.run (reapSet now p).id).status
  by_cases hlt : p.attempts < p.maxAttempts
  · rw [reapSet, if_pos hlt]
    exact agree_of_running rfl
  · rw [reapSet, if_neg hlt]
    exact agree_failed (hcareful p hp hstale (Nat.le_of_not_lt hlt))

/-- A heartbeat keeps jobs and runs in agreement. -/
theorem sound_heartbeat {now : Instant} {q : JobQueue.System} (hd : d.Ok)
    (h : JobQueue.step d.queue (.call job .heartbeat now) = some q) :
    Shared.Ok { d with queue := q } := by
  refine ⟨step_inv hd.queue h, fun r hr => ?_⟩
  rcases (rows_call h).2 r hr with hr | ⟨p, hp, -, hid, hst⟩
  · exact hd.agrees r hr
  · show Agree r.status (d.run r.id).status
    rw [hst, hid]
    exact hd.agrees p hp

/-- A claim's row is running, and its lease goes to the slot. -/
theorem sound_claim {queue : String} {now : Instant} {locked : List JobId} {lease : Lease}
    {pick : JobId} {q : JobQueue.System} (hd : d.Ok)
    (h : JobQueue.step d.queue (.claim queue now locked lease (some pick)) = some q)
    (hjob : q.claims.head? = some job) :
    let d' : Shared := ⟨q, d.run, Function.update d.owner job.lease w⟩
    d'.Ok ∧ (∀ v f, d.Tied v f → d'.Tied v f) ∧ d'.Tied w ⟨job, none⟩ := by
  obtain ⟨c, hlog, hfresh, hrows⟩ := rows_claim h
  obtain rfl : c = job := by
    have : q.claims = c :: d.queue.claims := by
      rw [System.claims, hlog]
      rfl
    rw [this] at hjob
    exact Option.some.inj hjob
  refine ⟨⟨step_inv hd.queue h, fun r hr => ?_⟩, fun v f hf => ?_, ?_⟩
  · rcases hrows r hr with hr | hst
    · exact hd.agrees r hr
    · show Agree r.status _
      rw [hst]
      exact agree_of_running rfl
  · obtain ⟨hclaimed, howner, hknown⟩ := tied_of_queueStep hd h hf
    refine ⟨hclaimed, ?_, hknown⟩
    show Function.update d.owner c.lease w f.job.lease = v
    rw [Function.update_of_ne (hfresh f.job hf.claimed)]
    exact howner
  · refine ⟨?_, Function.update_self .., fun st hst => by cases hst⟩
    show c ∈ q.claims
    rw [System.claims, hlog]
    exact List.mem_cons_self ..

/-- A new job agrees with its run. -/
theorem sound_enqueue {new : NewJob} {id : JobId} {now : Instant} {q : JobQueue.System} (hd : d.Ok)
    (h : JobQueue.step d.queue (.enqueue new id now) = some q) :
    Shared.Ok { d with queue := q } := by
  refine ⟨step_inv hd.queue h, fun r hr => ?_⟩
  rcases (rows_enqueue h).2 r hr with hr | hst
  · exact hd.agrees r hr
  · show Agree r.status _
    rw [hst]
    exact agree_of_running rfl

/-! ## The theorem -/

/-- **Serving a worker** keeps jobs and runs in agreement. -/
theorem sound_serve {x : WorkerChoice Ontology} {o : ConsumerOp}
    {r : (consumerSig Ontology).Ans o} (hd : d.Ok) (hg : d.Tied w g) (hallow : g.allows o)
    (hcareful : d.careful o = true) (h : d.serve x o = some (d', r)) :
    d'.Ok ∧ (∃ g', (knowledge Ontology).next g o r g' ∧ d'.Tied w g')
      ∧ ∀ v f, v ≠ w → d.Tied v f → d'.Tied v f := by
  cases o with
  | readRun job =>
      obtain rfl : job = g.job := hallow
      rw [Shared.serve] at h
      split_ifs at h with hgen
      obtain ⟨rfl, rfl⟩ := Prod.mk.inj (Option.some.inj h)
      refine ⟨hd, ⟨_, ⟨?_, rfl⟩, ?_⟩, fun v f _ hf => hf⟩
      · -- a genuine answer to the read is the status that the pool holds
        cases hx : (x.answer (.readRun g.job) : Except Exc RunStatus) with
        | ok st => rfl
        | error e => rw [hx] at hgen; exact hgen
      · cases hx : (x.answer (.readRun g.job) : Except Exc RunStatus) with
        | ok st =>
            refine ⟨hg.claimed, hg.owner, fun st' hst => ?_⟩
            change (if _ then _ else _) = some st' at hst
            split_ifs at hst with ht
            obtain rfl := Option.some.inj hst
            exact ⟨isOutcome_of_isTerminal ht, fun _ => rfl⟩
        | error e => exact hg
  | bind job =>
      obtain rfl : job = g.job := hallow
      rw [Shared.serve] at h
      split_ifs at h with hgen
      obtain ⟨rfl, rfl⟩ := Prod.mk.inj (Option.some.inj h)
      exact ⟨hd, ⟨g, ⟨hgen, rfl⟩, hg⟩, fun v f _ hf => hf⟩
  | markRunning job =>
      obtain rfl : job = g.job := hallow
      obtain ⟨hok, hties⟩ := sound_markRunning g.job d
      rw [Shared.serve] at h
      -- the update is made, or its answer is lost after or before it
      split at h
      · obtain ⟨rfl, rfl⟩ := Prod.mk.inj (Option.some.inj h)
        exact ⟨hok hd, ⟨g, ⟨rfl, rfl⟩, hties w g hg⟩, fun v f _ hf => hties v f hf⟩
      · rename_i e _
        split_ifs at h with hr
        · obtain ⟨rfl, rfl⟩ := Prod.mk.inj (Option.some.inj h)
          have hans : isGenuine (.error e : Except Exc Unit) = true := by simpa [isGenuine] using hr
          exact ⟨hok hd, ⟨g, ⟨hans, rfl⟩, hties w g hg⟩, fun v f _ hf => hties v f hf⟩
        · obtain ⟨rfl, rfl⟩ := Prod.mk.inj (Option.some.inj h)
          have hans : isGenuine (.error e : Except Exc Unit) = true := by simpa [isGenuine] using hr
          exact ⟨hd, ⟨g, ⟨hans, rfl⟩, hg⟩, fun v f _ hf => hf⟩
  | leaseLost job =>
      obtain ⟨rfl, rfl⟩ := Prod.mk.inj (Option.some.inj h)
      exact ⟨hd, ⟨g, ⟨trivial, rfl⟩, hg⟩, fun v f _ hf => hf⟩
  | workflow job o =>
      cases o with
      | leaseCheck =>
          obtain ⟨rfl, rfl⟩ := Prod.mk.inj (Option.some.inj h)
          exact ⟨hd, ⟨g, ⟨trivial, rfl⟩, hg⟩, fun v f _ hf => hf⟩
      | monotonic =>
          obtain ⟨rfl, rfl⟩ := Prod.mk.inj (Option.some.inj h)
          exact ⟨hd, ⟨g, ⟨trivial, rfl⟩, hg⟩, fun v f _ hf => hf⟩
      | call c =>
          obtain rfl : job = g.job := by
            cases c with
            | setRunStatus status error => exact hallow.1
            | _ => exact hallow
          rw [Shared.serve] at h
          dsimp only at h
          split_ifs at h with hgen
          obtain ⟨rfl, rfl⟩ := Prod.mk.inj (Option.some.inj h)
          obtain ⟨hok, hans, htie, hrest⟩ := sound_workflowCall (x := x) hd hg hallow hcareful hgen
          exact ⟨hok, ⟨_, ⟨hans, rfl⟩, htie⟩, hrest⟩
  | queue job write =>
      obtain rfl : job = g.job := by
        cases write with
        | complete => exact hallow.1
        | cancel text => exact hallow.1
        | deadLetter text => exact hallow.1
        | _ => exact hallow
      obtain ⟨q, hq, hpair⟩ := Option.map_eq_some_iff.mp h
      obtain ⟨rfl, rfl⟩ := Prod.mk.inj hpair
      -- a fenced write of the queue keeps every tie
      refine ⟨sound_giveBack hd hg hallow hcareful hq, ⟨g, ⟨trivial, rfl⟩, ?_⟩, fun v f _ hf => ?_⟩
      · exact tied_of_queueStep hd hq hg
      · exact tied_of_queueStep hd hq hf

/-- **Every step of the pool** keeps jobs and runs in agreement. -/
theorem sound_workerMachine :
    Pool.Sound (workerMachine Ontology) (knowledge Ontology) Careful Shared.Ok Shared.Tied where
  serve := by
    intro s w x o g d r hd hnext hcareful hg hallow h
    obtain ⟨hok, htie, hrest⟩ := sound_serve hd hg hallow (hcareful o hnext) h
    exact ⟨hok, htie, fun v f hv _ hf => hrest v f hv hf⟩
  other := by
    intro s y d p hd hcareful h
    cases y with
    | enqueue new id now =>
        change Shared.other s.db (.enqueue new id now) = some (d, p) at h
        rw [Shared.other] at h
        split_ifs at h
        obtain ⟨q, hq, hpair⟩ := Option.map_eq_some_iff.mp h
        obtain ⟨rfl, rfl⟩ := Prod.mk.inj hpair
        exact ⟨sound_enqueue hd hq, fun v f hf => tied_of_queueStep hd hq hf, fun _ _ h => by
          cases h⟩
    | claim w worker queue now locked lease pick =>
        change Shared.other s.db (.claim w worker queue now locked lease pick) = some (d, p) at h
        rw [Shared.other] at h
        split at h
        · cases h
        rename_i q hq
        split at h
        · cases h
        rename_i job hjob
        obtain ⟨rfl, rfl⟩ := Prod.mk.inj (Option.some.inj h)
        obtain ⟨hok, hties, hnew⟩ := sound_claim (w := w) hd hq hjob
        refine ⟨hok, hties, ?_⟩
        rintro w' prog hp
        obtain ⟨rfl, rfl⟩ := Prod.mk.inj (Option.some.inj hp)
        exact ⟨⟨job, none⟩, hnew, knows_runJob⟩
    | heartbeat job now =>
        obtain ⟨q, hq, hpair⟩ := Option.map_eq_some_iff.mp h
        obtain ⟨rfl, rfl⟩ := Prod.mk.inj hpair
        exact ⟨sound_heartbeat hd hq, fun v f hf => tied_of_queueStep hd hq hf, fun _ _ h => by
          cases h⟩
    | reap now staleSeconds =>
        have h : (JobQueue.step s.db.queue (.reap now staleSeconds)).map
            (fun q => ({ s.db with queue := q }, none)) = some (d, p) := h
        obtain ⟨q, hq, hpair⟩ := Option.map_eq_some_iff.mp h
        obtain ⟨rfl, rfl⟩ := Prod.mk.inj hpair
        exact ⟨sound_reap hd hcareful hq, fun v f hf => tied_of_queueStep hd hq hf,
          fun _ _ h => by cases h⟩

theorem good_startOfWork :
    Pool.Good (knowledge Ontology) Shared.Ok Shared.Tied (startOfWork : WorkerConfig Ontology) :=
  ⟨⟨JobQueue.inv_init, fun r hr => by cases hr⟩, fun _ _ _ h => by cases h⟩

/-- **Job and run terminal states agree**, in every run whose steps are careful. -/
theorem job_run_agree {as : List (Pool.Act (WorkerChoice Ontology) Around)}
    {s : WorkerConfig Ontology}
    (h : run (Pool.step (workerMachine Ontology)) startOfWork as = some s)
    (hcareful : Admits (Pool.step (workerMachine Ontology)) Careful startOfWork as) : s.db.Agrees :=
  (sound_workerMachine.run good_startOfWork hcareful h).inv.agrees

/-- A worker whose stores work, on a run that was cancelled. -/
def cancelledWorker : WorkerChoice Unit where
  answer
    | .readRun _ => .ok RunStatus.queued
    | .bind _ => .ok (blankDeps, ([] : List EvidenceBlock))
    | .markRunning _ => .ok ()
    | .leaseLost _ => false
    | .workflow _ o => cancelledAnswer o
    | .queue _ _ => .ok true
  landed := false
  now := 0
  draw := 0

/-- A job with one attempt. -/
def oneAttempt : NewJob where
  kind := extractionRun
  queue := "extraction"
  priority := 5
  payload := ""
  orgId := some 0
  idempotencyKey := none
  maxAttempts := 1

/-- The job is claimed, and its worker makes `n` requests. -/
def workedOn (n : ℕ) : List (Pool.Act (WorkerChoice Unit) Around) :=
  .other (.enqueue oneAttempt 0 0)
    :: .other (.claim 0 ⟨true, fun _ => some "run"⟩ "extraction" 0 [] 0 0)
    :: List.replicate n (.serve 0 cancelledWorker)

/-- The jobs with the statuses of their runs. -/
def outcome (s : WorkerConfig Unit) : List (JobStatus × RunStatus) :=
  s.db.queue.jobs.map fun r => (r.status, (s.db.run r.id).status)

/-- The worker closes the run and then the job. -/
theorem job_run_agree_workedOn :
    ∃ s, run (Pool.step (workerMachine Unit)) startOfWork (workedOn 17) = some s
      ∧ Admits (Pool.step (workerMachine Unit)) Careful startOfWork (workedOn 17)
      ∧ outcome s = [(.cancelled, .cancelled)] ∧ s.db.Agrees := by
  have hcareful : Admits (Pool.step (workerMachine Unit)) Careful startOfWork (workedOn 17) := by
    decide +kernel
  have hrun : (run (Pool.step (workerMachine Unit)) startOfWork (workedOn 17)).map outcome
      = some [(.cancelled, .cancelled)] := by
    decide
  obtain ⟨s, hs, hout⟩ := Option.map_eq_some_iff.mp hrun
  exact ⟨s, hs, hcareful, hout, job_run_agree hs hcareful⟩

/-- The worker dies between the two writes on the last attempt, and a sweep takes the claim. -/
def sweptAfterClose : List (Pool.Act (WorkerChoice Unit) Around) :=
  workedOn 15 ++ [.crash 0, .other (.reap 61 60)]

theorem run_sweptAfterClose :
    (run (Pool.step (workerMachine Unit)) startOfWork sweptAfterClose).map outcome
      = some [(.failed, .cancelled)] := by
  decide +kernel

/-- The sweep fails a job whose run was cancelled. -/
theorem sweep_fails_cancelled_run :
    ¬ ∀ as s, run (Pool.step (workerMachine Unit)) startOfWork as = some s → s.db.Agrees := by
  intro h
  obtain ⟨s, hs, hout⟩ := Option.map_eq_some_iff.mp run_sweptAfterClose
  obtain ⟨r, hr, hpair⟩ := List.mem_map.mp (hout ▸ List.mem_singleton.mpr rfl)
  obtain ⟨hjob, hstatus⟩ := Prod.mk.inj hpair
  have hagree := h sweptAfterClose s hs r hr
  rw [hjob, hstatus] at hagree
  exact absurd ((hagree rfl rfl).2.2.mp rfl) (by decide)

end Extraction
