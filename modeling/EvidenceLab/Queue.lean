/-
# The job queue

`fel_workers.queue` over the table `jobs`: a claim hands out a fresh lease, every later write of a
worker is fenced on that lease, and a sweep takes the claims that stopped beating.

* One statement of the source is one function here; an `UPDATE … WHERE` is `updateWhere`, which
  returns the row count and the table.
* `System` adds to the table the log of what was claimed, finished and reaped.  `step` takes one
  action of one party; a worker may act with any claim it was ever given.
* `RowOk` is the invariant of one row against the part of the log that is about it.
-/
import EvidenceLab.Transitions
import Mathlib.Data.Rat.Defs
import Mathlib.Algebra.Order.Ring.Rat

namespace JobQueue

open Transitions

/-! ## The table -/

/-- The values the column `status` may hold. -/
inductive JobStatus where
  | queued
  | claimed
  | running
  | succeeded
  | failed
  | cancelled
  deriving DecidableEq, Repr

/-- `succeeded`, `failed` and `cancelled` are the terminal states. -/
def JobStatus.isTerminal : JobStatus → Bool
  | .succeeded | .failed | .cancelled => true
  | .queued | .claimed | .running => false

abbrev JobId := ℕ

abbrev Lease := ℕ

/-- A `timestamptz`, in seconds. -/
abbrev Instant := ℚ

/-- The envelope in the column `error`; `message` is the text after redaction. -/
structure JobError where
  code : String
  message : String
  requestId : JobId
  deriving DecidableEq, Repr

/-- A row of `jobs`. -/
structure JobRow where
  id : JobId
  kind : String
  queue : String
  priority : ℕ
  payload : String
  orgId : Option ℕ
  idempotencyKey : Option String
  status : JobStatus
  attempts : ℕ
  maxAttempts : ℕ
  lease : Option Lease
  heartbeatAt : Option Instant
  startedAt : Option Instant
  createdAt : Instant
  availableAt : Instant
  finishedAt : Option Instant
  error : Option JobError
  deriving DecidableEq, Repr

/-- What a claim hands to its worker. -/
structure ClaimedJob where
  id : JobId
  kind : String
  queue : String
  payload : String
  attempts : ℕ
  maxAttempts : ℕ
  lease : Lease
  orgId : Option ℕ
  deriving DecidableEq, Repr

/-- `UPDATE jobs SET … WHERE p`: whether a row matched, and the table. -/
def updateWhere (jobs : List JobRow) (p : JobRow → Bool) (set : JobRow → JobRow) :
    Bool × List JobRow :=
  (jobs.any p, jobs.map fun r => if p r then set r else r)

/-! ## The operations -/

/-- What a statement of the queue can raise before it writes. -/
inductive QueueError where
  /-- `OverflowError` of the backoff's power. -/
  | overflow
  /-- `jsonb` refuses the escape of a NUL. -/
  | untranslatable
  /-- A `CHECK` of the table, or a value that is no `integer`. -/
  | checkViolation
  deriving DecidableEq, Repr

/-- The arguments of `enqueue`. -/
structure NewJob where
  kind : String
  queue : String
  priority : ℕ
  payload : String
  orgId : Option ℕ
  idempotencyKey : Option String
  maxAttempts : ℕ
  deriving DecidableEq, Repr

/-- The row that `INSERT` writes: the columns it does not name take their defaults. -/
def NewJob.row (job : NewJob) (id : JobId) (now : Instant) : JobRow where
  id := id
  kind := job.kind
  queue := job.queue
  priority := job.priority
  payload := job.payload
  orgId := job.orgId
  idempotencyKey := job.idempotencyKey
  status := .queued
  attempts := 0
  maxAttempts := job.maxAttempts
  lease := none
  heartbeatAt := none
  startedAt := none
  createdAt := now
  availableAt := now
  finishedAt := none
  error := none

/-- A row that the unique index on `(org_id, kind, idempotency_key)` keeps `job` from joining. -/
def NewJob.repeats (job : NewJob) (r : JobRow) : Bool :=
  job.idempotencyKey.isSome && r.idempotencyKey == job.idempotencyKey && r.kind == job.kind
    && r.orgId == job.orgId

/-- `enqueue`, with the `uuid` it draws.  A repeat writes the key of its row over itself. -/
def enqueue (jobs : List JobRow) (job : NewJob) (id : JobId) (now : Instant) :
    Except QueueError (JobId × List JobRow) :=
  if job.maxAttempts < 1 ∨ 2 ^ 31 ≤ job.maxAttempts ∨ 9 < job.priority then .error .checkViolation
  else match jobs.find? job.repeats with
    | some r => .ok (r.id, jobs)
    | none => .ok (id, jobs ++ [job.row id now])

/-- A row that `claim_one` may take. -/
def isDue (queue : String) (now : Instant) (r : JobRow) : Bool :=
  r.queue == queue && r.status == .queued && decide (r.availableAt ≤ now)

/-- `ORDER BY priority, created_at`. -/
def comesBefore (r r' : JobRow) : Bool :=
  decide (r.priority < r'.priority)
    || (r.priority == r'.priority && decide (r.createdAt ≤ r'.createdAt))

/-- The row `LIMIT 1` may return: due, not locked by another transaction, and first in the order. -/
def isFirstDue (jobs : List JobRow) (queue : String) (now : Instant) (locked : List JobId)
    (r : JobRow) : Bool :=
  isDue queue now r && !locked.contains r.id &&
    jobs.all fun r' => !(isDue queue now r' && !locked.contains r'.id) || comesBefore r r'

/-- The claim's `UPDATE`. -/
def claimSet (now : Instant) (lease : Lease) (r : JobRow) : JobRow :=
  { r with
    status := .running
    attempts := r.attempts + 1
    heartbeatAt := some now
    startedAt := some now
    lease := some lease }

/-- The `ClaimedJob` built from the row that was read. -/
def claimOf (lease : Lease) (r : JobRow) : ClaimedJob where
  id := r.id
  kind := r.kind
  queue := r.queue
  payload := r.payload
  attempts := r.attempts + 1
  maxAttempts := r.maxAttempts
  lease := lease
  orgId := r.orgId

/-- `claim_one` on the row that the query returned. -/
def claimOne (jobs : List JobRow) (r : JobRow) (lease : Lease) (now : Instant) :
    ClaimedJob × List JobRow :=
  (claimOf lease r, (updateWhere jobs (·.id == r.id) (claimSet now lease)).2)

/-- `WHERE id = … AND lease = … AND status = 'running'`. -/
def isHeld (job : ClaimedJob) (r : JobRow) : Bool :=
  r.id == job.id && r.lease == some job.lease && r.status == .running

/-- `2.0 ** exponent` raises from the exponent 1024 on. -/
def maxExponent : ℕ := 1023

/-- `backoff_seconds`, for the number in `[0, 1)` the generator draws. -/
def backoffSeconds (attempts : ℕ) (draw : ℚ) : Except QueueError ℚ :=
  let exponent := attempts - 1
  if maxExponent < exponent then .error .overflow
  else
    let delay : ℚ := min (5 * 2 ^ exponent) 900
    let jittered := delay * (1 + 1 / 4 * (2 * draw - 1))
    .ok (max 0 (min jittered 900))

/-- The five writes a worker makes with its claim. -/
inductive Call where
  | heartbeat
  | complete
  | fail (text : String) (draw : ℚ)
  | deadLetter (text : String)
  | cancel (text : String)
  deriving DecidableEq, Repr

/-- The text a call stores in `error`. -/
def Call.text : Call → Option String
  | .heartbeat | .complete => none
  | .fail text _ | .deadLetter text | .cancel text => some text

/-- `job.attempts >= job.max_attempts`. -/
def ClaimedJob.isLast (job : ClaimedJob) : Bool := decide (job.maxAttempts ≤ job.attempts)

/-- The delay of `fail`: none on the last attempt. -/
def retryDelay (job : ClaimedJob) (draw : ℚ) : Except QueueError ℚ :=
  if job.isLast then .ok 0 else backoffSeconds job.attempts draw

/-- `_terminal_write`'s `SET`. -/
def terminalSet (now : Instant) (job : ClaimedJob) (status : JobStatus) (code text : String)
    (r : JobRow) : JobRow :=
  { r with
    status := status
    finishedAt := some now
    error := some ⟨code, text, job.id⟩
    lease := none }

/-- The `SET` of each write.  `fail` computes its delay before the statement. -/
def Call.set (now : Instant) (job : ClaimedJob) : Call → Except QueueError (JobRow → JobRow)
  | .heartbeat => .ok fun r => { r with heartbeatAt := some now }
  | .complete => .ok fun r =>
      { r with status := .succeeded, finishedAt := some now, lease := none }
  | .fail text draw => do
      let delay ← retryDelay job draw
      return fun r =>
        { r with
          status := if job.isLast then .failed else .queued
          finishedAt := if job.isLast then some now else none
          availableAt := now + delay
          error := some ⟨"JOB_FAILED", text, job.id⟩
          lease := none }
  | .deadLetter text => .ok (terminalSet now job .failed "JOB_DEAD_LETTERED" text)
  | .cancel text => .ok (terminalSet now job .cancelled "JOB_CANCELLED" text)

/-- A text that `jsonb` stores. -/
def isStorable (text : Option String) : Bool := text.all fun t => !t.toList.contains (Char.ofNat 0)

/-- One fenced write: what the function returns, and the table. -/
def Call.perform (jobs : List JobRow) (now : Instant) (job : ClaimedJob) (call : Call) :
    Except QueueError (Bool × List JobRow) := do
  let set ← call.set now job
  if isStorable call.text then return updateWhere jobs (isHeld job) set
  else throw .untranslatable

/-- The rows a sweep takes. -/
def isStale (now staleSeconds : ℚ) (r : JobRow) : Bool :=
  r.status == .running && r.heartbeatAt.any fun t => decide (t < now - staleSeconds)

def reapedMessage : String :=
  "stale claim reaped with no attempts remaining; the worker holding this job"
    ++ " stopped heartbeating and the job has exhausted max_attempts"

/-- `reap_stale`'s `SET`. -/
def reapSet (now : Instant) (r : JobRow) : JobRow :=
  if r.attempts < r.maxAttempts then
    { r with status := .queued, lease := none, availableAt := now }
  else
    { r with
      status := .failed
      lease := none
      finishedAt := some now
      error := some ⟨"REAPED_EXHAUSTED", reapedMessage, r.id⟩ }

/-- `reap_stale`: the rows it returns, as they were before, and the table. -/
def reapStale (jobs : List JobRow) (now staleSeconds : ℚ) : List JobRow × List JobRow :=
  (jobs.filter (isStale now staleSeconds),
    (updateWhere jobs (isStale now staleSeconds) (reapSet now)).2)

/-! ## The system -/

/-- What happened to a job, as far as its delivery goes. -/
inductive Event where
  /-- A claim was handed out. -/
  | claimed (job : ClaimedJob)
  /-- A write of `job` that gives up its lease returned `True`. -/
  | finished (job : ClaimedJob) (status : JobStatus)
  /-- A sweep took the row from the lease it found there. -/
  | reaped (id : JobId) (lease : Option Lease) (status : JobStatus)
  deriving DecidableEq, Repr

/-- The job an event is about. -/
def Event.job : Event → JobId
  | .claimed c => c.id
  | .finished c _ => c.id
  | .reaped id _ _ => id

/-- The claim an event hands out. -/
def Event.claim? : Event → Option ClaimedJob
  | .claimed c => some c
  | .finished _ _ => none
  | .reaped _ _ _ => none

/-- The event gives up, or takes away, the lease of `c`. -/
def Event.ends (c : ClaimedJob) : Event → Prop
  | .claimed _ => False
  | .finished d _ => d = c
  | .reaped id lease _ => id = c.id ∧ lease = some c.lease

/-- The status an event leaves, when it is a write that gives up the lease. -/
def Event.status? : Event → Option JobStatus
  | .claimed _ => none
  | .finished _ status => some status
  | .reaped _ _ status => some status

/-- The table, and the log of deliveries, newest first. -/
structure System where
  jobs : List JobRow
  log : List Event

def System.init : System := ⟨[], []⟩

/-- The claims in a log, newest first. -/
def claimsIn (log : List Event) : List ClaimedJob := log.filterMap Event.claim?

/-- The part of a log that is about a job. -/
def history (log : List Event) (id : JobId) : List Event := log.filter fun e => e.job == id

/-- Every claim that was ever handed out. -/
def System.claims (s : System) : List ClaimedJob := claimsIn s.log

/-- One step of one party, with everything the environment chooses. -/
inductive Act where
  | enqueue (job : NewJob) (id : JobId) (now : Instant)
  | claim (queue : String) (now : Instant) (locked : List JobId) (lease : Lease)
      (pick : Option JobId)
  | call (job : ClaimedJob) (call : Call) (now : Instant)
  | reap (now staleSeconds : ℚ)
  deriving DecidableEq, Repr

/-- The status a write leaves when it gives up the lease. -/
def Call.status? (job : ClaimedJob) : Call → Option JobStatus
  | .heartbeat => none
  | .complete => some .succeeded
  | .fail _ _ => some (if job.isLast then .failed else .queued)
  | .deadLetter _ => some .failed
  | .cancel _ => some .cancelled

/-- What a successful write adds to the log. -/
def Call.events (job : ClaimedJob) (call : Call) : List Event :=
  (call.status? job).toList.map (Event.finished job)

/-- One step.  `none` is an action that cannot be taken: a `uuid` that is not fresh, a claim that
was never handed out, or a row that the claim's query does not return. -/
def step (s : System) : Act → Option System
  | .enqueue job id now =>
      if s.jobs.any (·.id == id) then none
      else match enqueue s.jobs job id now with
        | .ok (_, jobs) => some { s with jobs := jobs }
        | .error _ => some s
  | .claim queue now locked lease pick =>
      if s.claims.any (·.lease == lease) then none
      else match pick with
        | none => if s.jobs.any (isFirstDue s.jobs queue now locked) then none else some s
        | some id =>
            match s.jobs.find? fun r => r.id == id && isFirstDue s.jobs queue now locked r with
            | none => none
            | some r =>
                let claim := claimOne s.jobs r lease now
                some ⟨claim.2, .claimed claim.1 :: s.log⟩
  | .call job call now =>
      if job ∈ s.claims then
        match call.perform s.jobs now job with
        | .ok (true, jobs) => some ⟨jobs, call.events job ++ s.log⟩
        | .ok (false, jobs) => some ⟨jobs, s.log⟩
        | .error _ => some s
      else none
  | .reap now staleSeconds =>
      let reap := reapStale s.jobs now staleSeconds
      some ⟨reap.2,
        reap.1.map (fun r => .reaped r.id r.lease (reapSet now r).status) ++ s.log⟩

end JobQueue
