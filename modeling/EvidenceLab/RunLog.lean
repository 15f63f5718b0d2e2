/-
# The event log of a run

The row of a run and its events, under any number of attempts and the transactions of the API.

* The guards of the tables refuse every child and every change of a run that is terminal
  (`RunRow.effect`).  The API appends a terminal event and writes the status in one transaction; an
  attempt does so in two.
* `announcement` is the contract of an attempt: it writes a terminal status only after the event
  that names it.
* `terminal_event_final`: while no other write falls between the two transactions of an attempt, no
  event follows a terminal one, and the status is the one that the event names.
-/
import EvidenceLab.Pool
import EvidenceLab.WorkflowFence
import EvidenceLab.WorkflowLedger

namespace Extraction

open Effects Transitions Pool

/-! ## The row and its guards -/

/-- The status of a run, and the types of its events, oldest first. -/
structure RunRow where
  runId : String
  status : RunStatus
  log : List EventType
  deriving DecidableEq

/-- What `fel_guard_extraction_run` lets a status become. -/
def RunStatus.canBecome : RunStatus → RunStatus → Bool
  | .queued, .running | .queued, .cancelled => true
  | .running, .waitingReview | .running, .succeeded | .running, .failed | .running,
      .cancelled => true
  | .waitingReview, .succeeded | .waitingReview, .failed | .waitingReview, .cancelled => true
  | .queued, .queued | .running, .running | .waitingReview, .waitingReview => true
  | _, _ => false

/-- `INSERT INTO extraction_run_events`. -/
def RunRow.appended (d : RunRow) (type : EventType) : RunRow := { d with log := d.log ++ [type] }

/-- The database's exceptions. -/
def raisedByGuard (message : String) : Exc := .untyped "RaiseException" message

/-- `fel_assert_extraction_run_open` before a write. -/
def RunRow.whileOpen (d d' : RunRow) (message : String) : Except Exc RunRow :=
  if d.status.isTerminal then .error (raisedByGuard message) else .ok d'

def childMessage : String := "cannot append after extraction run is terminal"

def mutateMessage : String := "terminal extraction run cannot be mutated"

/-- What a request does to the row, or the exception that refuses it. -/
def RunRow.effect (d : RunRow) : Call → Except Exc RunRow
  | .append e => d.whileOpen (d.appended e.type) childMessage
  | .commitAtomic _ _ => d.whileOpen (d.appended .stepCompleted) childMessage
  | .persistOutputs _ _ => d.whileOpen (d.appended .proposalsPersisted) childMessage
  | .commitSucceeded _ => d.whileOpen d childMessage
  | .commitFailed _ => d.whileOpen d childMessage
  | .recordUsage _ => d.whileOpen d mutateMessage
  | .setRunStatus status _ =>
      if d.status.isTerminal then .error (.runAlreadyTerminal d.runId d.status)
      else if d.status.canBecome status then .ok { d with status := status }
      else .error (raisedByGuard
        ("illegal extraction run transition " ++ d.status.name ++ " -> " ++ status.name))
  | .cancelCheck | .loadUsage | .loadEvidence | .loadSucceeded _ _ | .rejectLoaded
    _ | .generate _ =>
      .ok d

/-! ## The system -/

/-- What the environment chooses for a request: the answer, and, when the answer is an exception of
the store, whether the write landed before it. -/
structure Choice where
  answer : (o : Op) → workflowSig.Ans o
  landed : Bool

/-- The answer to a request that can raise. -/
def RunRow.serveCall (d : RunRow) (c : Call) (x : Choice) : RunRow × Except Exc c.Val :=
  match d.effect c, (x.answer (.call c) : Except Exc c.Val) with
  | .ok d', .ok v => (d', .ok v)
  | .ok d', .error e => (if x.landed then d' else d, .error e)
  | .error e, .ok _ => (d, .error e)
  | .error _, .error e => (d, .error e)

def RunRow.serve (d : RunRow) (x : Choice) : (o : Op) → RunRow × workflowSig.Ans o
  | .leaseCheck => (d, x.answer .leaseCheck)
  | .monotonic => (d, x.answer .monotonic)
  | .call c => d.serveCall c x

/-- The transactions of the other parties. -/
inductive Outside (Ontology : Type) where
  /-- A job is delivered to slot `w`: `mark_running`'s `UPDATE`, and the attempt starts.  The status
  was read before, so by now the `UPDATE` may match no row. -/
  | deliver (w : ℕ) (deps : Deps Ontology) (evidence : List EvidenceBlock)
  /-- `cancel` of the API; before the review it only sets a marker. -/
  | cancel
  /-- `finish_review`, with whether every proposal is disposed of and every conflict resolved. -/
  | review (allDisposed : Bool)

/-- `mark_running`'s `UPDATE`. -/
def RunRow.markRunning (d : RunRow) : RunRow :=
  if d.status = .queued then { d with status := .running } else d

/-- The API's `cancel` under the lock of the row. -/
def RunRow.cancelled (d : RunRow) : RunRow :=
  if d.status = .waitingReview then { d.appended .runCancelled with status := .cancelled } else d

/-- `finish_review` under the lock of the row. -/
def RunRow.reviewed (d : RunRow) (allDisposed : Bool) : RunRow :=
  if d.status = .waitingReview then
    let d := d.appended .reviewCompleted
    if allDisposed then { d.appended .runSucceeded with status := .succeeded } else d
  else d

variable {Ontology : Type}

def RunRow.other (d : RunRow) : Outside Ontology → RunRow × Option (ℕ × W Ctx)
  | .deliver w deps evidence => (d.markRunning, some (w, runExtractionWorkflow deps evidence))
  | .cancel => (d.cancelled, none)
  | .review allDisposed => (d.reviewed allDisposed, none)

/-- The attempts of one run, its row, and the API. -/
def runMachine (Ontology : Type) :
    Machine workflowSig Raised Ctx RunRow Choice (Outside Ontology) where
  serve s _ o x := some (s.db.serve x o)
  other d y := some (d.other y)

/-- The transaction that creates a run inserts the row and its first event. -/
def RunRow.created (runId : String) : RunRow := ⟨runId, .queued, [.runQueued]⟩

def startOfRun (runId : String) : Config workflowSig Raised Ctx RunRow :=
  ⟨.created runId, fun _ => none⟩

/-! ## Terminal events -/

/-- `TERMINAL_EVENTS`. -/
def EventType.isFinal (e : EventType) : Bool := e.terminal?.isSome

/-- A terminal event is the last one and the only one, and a terminal row has the status it names.
-/
structure RunRow.Final (d : RunRow) : Prop where
  last : ∀ pre e post, d.log = pre ++ e :: post → e.isFinal = true → post = []
  unique : d.log.countP EventType.isFinal ≤ 1
  named : d.status.isTerminal = true → ∃ e ∈ d.log, e.terminal? = some d.status

/-- A terminal event is in the log, and the row is still open. -/
def RunRow.announced (d : RunRow) : Bool := !d.status.isTerminal && d.log.any EventType.isFinal

/-- While a terminal event waits for its status, the only write to the run is a terminal status. -/
def Undisturbed (s : Config workflowSig Raised Ctx RunRow) : Act Choice (Outside Ontology) → Prop
  | .serve w _ => s.db.announced = true → ∀ c, s.next w = some (.call c) → c.isWrite = true →
      ∃ status error, c = .setRunStatus status error ∧ status.isTerminal = true
  | .crash _ => True
  | .other (.deliver _ _ _) => True
  | .other .cancel => s.db.announced = true → s.db.status ≠ .waitingReview
  | .other (.review _) => s.db.announced = true → s.db.status ≠ .waitingReview

/-! ## The contract of an attempt -/

/-- The ghost state is the status that the last event named. -/
def announcementAfter (g : Option RunStatus) :
    (o : workflowSig.Op) → workflowSig.Ans o → Option RunStatus
  | .call (.append e), .ok _ => e.type.terminal?
  | _, _ => g

/-- A terminal status is written right after the event that names it. -/
def announcement : Contract workflowSig (Option RunStatus) where
  allowed g o := ∀ status error, o = .call (.setRunStatus status error) → status.isTerminal = true →
    g = some status
  next g o r g' := g' = announcementAfter g o r

variable {deps : Deps Ontology} {g : Option RunStatus} {ctx : Ctx}

/-- What the stages ask is always allowed. -/
theorem within_of_ledger {α : Type} {p : W α} {cap : ℕ} {t : Tally} {R : Tally → α → Prop}
    {E : Tally → Raised → Prop}
    (hp : p.Keeps (ledger cap) R E t) : Within announcement g p := by
  refine (hp.transfer (fun _ _ => True) trivial ?_ ?_).mono (fun _ _ _ => trivial) fun _ _ _ =>
    trivial
  · rintro n g o - ha status error rfl
    cases ha.1
  · exact fun n g o r g' _ _ _ => ⟨_, rfl, trivial⟩

/-- A program of two parts is within the announcements where both are. -/
theorem within_bind {α β : Type} {p : W α} {f : α → W β} (hp : Within announcement g p)
    (hf : ∀ g a, Within announcement g (f a)) : Within announcement g (p >>= f) :=
  hp.bind fun g a _ => hf g a

/-- A request other than a terminal status. -/
theorem within_call {c : Call}
    (hc : ∀ status error, c = .setRunStatus status error → status.isTerminal = false) :
    Within announcement g (call ctx c) := by
  refine ⟨fun status error ho ht => ?_, fun r g' _ => ?_⟩
  · rw [hc status error (Op.call.inj ho)] at ht
    cases ht
  · cases r with
    | ok v => trivial
    | error e => trivial

theorem within_leaseCheck : Within announcement g leaseCheck := by
  refine ⟨fun status error h => ?_, fun _ _ _ => trivial⟩
  cases h

/-- The event, then the status it names. -/
theorem within_announce {type : EventType} {status : RunStatus} {payload : Doc}
    {error : Option Doc} (ht : type.terminal? = some status) :
    Within announcement g
      (do append ctx type payload; call ctx (.setRunStatus status error); return ctx) := by
  refine Prog.Keeps.bind (R := fun g _ => g = some status) ?_ fun g _ hg => ?_
  · refine ⟨fun _ _ h => (by cases h), fun r g' hn => ?_⟩
    cases r with
    | ok v => exact hn.trans ht
    | error e => trivial
  · subst hg
    refine Prog.Keeps.bind (R := fun _ _ => True) ?_ fun _ _ _ => trivial
    refine ⟨fun status' error' h _ => ?_, fun r g' _ => ?_⟩
    · obtain ⟨rfl, -⟩ := Call.setRunStatus.inj (Op.call.inj h)
      rfl
    · cases r with
      | ok v => trivial
      | error e => trivial

theorem within_append {type : EventType} {payload : Doc} :
    Within announcement g (append ctx type payload) :=
  within_call fun _ _ h => by cases h

/-- **Completing a run** announces it once. -/
theorem within_finalizeSuccess : Within announcement g (finalizeSuccess ctx) := by
  refine within_bind within_leaseCheck fun g held => ?_
  split_ifs
  · exact within_announce rfl
  · refine within_bind (within_call ?_) fun g _ => ?_
    · rintro status error h
      obtain ⟨rfl, -⟩ := Call.setRunStatus.inj h
      rfl
    · exact within_bind within_append fun _ _ => trivial
  · trivial

/-- **Closing a run** announces it once. -/
theorem within_closeRun {type : EventType} {status : RunStatus} {code message : String}
    (ht : type.terminal? = some status) :
    Within announcement g (closeRun ctx status type code message) := by
  refine within_bind within_leaseCheck fun g held => ?_
  split_ifs
  · exact within_announce ht
  · trivial

/-- Every exception of the body is answered within the announcements. -/
theorem within_onException {r : Raised} : Within announcement g (onException r) := by
  unfold onException
  cases r.exc with
  | leaseLost m => trivial
  | cancelled m => exact within_closeRun rfl
  | runAlreadyTerminal runId status => exact within_closeRun rfl
  | extraction code m => exact within_closeRun rfl
  | permanentFailure m => exact within_bind (within_closeRun rfl) fun _ _ => trivial
  | untyped type m => exact within_bind (within_closeRun rfl) fun _ _ => trivial
  | base type => trivial

theorem within_flushUsage : Within announcement g (flushUsage ctx) :=
  within_of_ledger (steady_flushUsage (t := ⟨ctx.budget.callsUsed, false⟩) ⟨rfl, rfl⟩)

/-- **The body of the workflow** is within the announcements. -/
theorem within_runBody : Within announcement g (runBody deps ctx) := by
  unfold runBody
  dsimp only
  refine Prog.Keeps.elim (R := fun _ _ => True) (E := fun _ _ => True) ?_ ?_ ?_
  · split_ifs
    · trivial
    · exact within_of_ledger (metered_runStages (t := ⟨ctx.budget.callsUsed, false⟩) ⟨rfl, rfl⟩ rfl)
  · exact fun g ctx _ => within_bind within_flushUsage fun g _ => within_finalizeSuccess
  · exact fun g r _ => within_bind within_flushUsage fun g _ => trivial

/-- **An attempt announces every terminal status it writes.** -/
theorem within_runExtractionWorkflow {evidence : List EvidenceBlock} :
    Within announcement g (runExtractionWorkflow deps evidence) := by
  unfold runExtractionWorkflow
  refine within_bind (within_call fun _ _ h => by cases h) fun g carried => ?_
  refine within_bind within_append fun g _ => ?_
  exact within_runBody.handle fun g r _ => within_onException

/-! ## The invariant -/

/-- No terminal event is in the log. -/
def Clean (log : List EventType) : Prop := ∀ e ∈ log, e.isFinal = false

/-- The log ends with the only terminal event, which names `status`. -/
def EndsWith (log : List EventType) (status : RunStatus) : Prop :=
  ∃ pre e, log = pre ++ [e] ∧ Clean pre ∧ e.terminal? = some status

/-- The log has no terminal event while the row is open, or one at its end, whose status the row has
or will get. -/
def RunRow.Ordered (d : RunRow) : Prop :=
  (Clean d.log ∧ d.status.isTerminal = false)
    ∨ ∃ status, EndsWith d.log status ∧ (d.status.isTerminal = false ∨ d.status = status)

/-- What the ghost state of a slot says about the row. -/
def RunRow.Tied (d : RunRow) (_ : ℕ) (g : Option RunStatus) : Prop :=
  d.status ≠ .queued ∧ ∀ status, g = some status → EndsWith d.log status

variable {d d' : RunRow} {log : List EventType} {status : RunStatus}

/-- A log that ends has a final event. -/
theorem EndsWith.any (h : EndsWith log status) : log.any EventType.isFinal = true := by
  obtain ⟨pre, e, rfl, -, he⟩ := h
  simp [EventType.isFinal, he]

/-- A clean log does not end. -/
theorem Clean.not_endsWith (h : Clean log) : ¬ EndsWith log status := by
  rintro ⟨pre, e, rfl, -, he⟩
  have := h e (by simp)
  simp [EventType.isFinal, he] at this

/-- An event that is not terminal keeps a log clean. -/
theorem Clean.append (h : Clean log) {e : EventType} (he : e.terminal? = none) :
    Clean (log ++ [e]) := by
  intro x hx
  rcases List.mem_append.mp hx with hx | hx
  · exact h x hx
  · rw [List.mem_singleton.mp hx, EventType.isFinal, he]
    rfl

/-- An open row that waits for no status has a clean log. -/
theorem RunRow.Ordered.clean (h : d.Ordered) (ho : d.status.isTerminal = false)
    (ha : d.announced = false) : Clean d.log := by
  rcases h with ⟨hc, -⟩ | ⟨status, he, -⟩
  · exact hc
  · simp [RunRow.announced, ho, he.any] at ha

/-- **The invariant gives the property.** -/
theorem RunRow.Ordered.final (h : d.Ordered) : d.Final := by
  rcases h with ⟨hc, ho⟩ | ⟨status, ⟨pre, e, hlog, hpre, he⟩, hs⟩
  · refine ⟨fun pre e post hl he => ?_, ?_, fun ht => ?_⟩
    · have := hc e (by simp [hl])
      rw [he] at this
      cases this
    · rw [List.countP_eq_zero.mpr fun e he => by simp [hc e he]]
      exact Nat.zero_le 1
    · rw [ho] at ht
      cases ht
  · refine ⟨fun pre' e' post hl he' => ?_, ?_, fun ht => ?_⟩
    · -- a terminal event before the last one would be in the clean part
      rcases List.eq_nil_or_concat post with rfl | ⟨post, x, rfl⟩
      · rfl
      · rw [hlog, List.concat_eq_append, ← List.cons_append, ← List.append_assoc] at hl
        obtain ⟨rfl, -⟩ := List.append_inj' hl rfl
        have := hpre e' (by simp)
        rw [he'] at this
        cases this
    · rw [hlog, List.countP_append, List.countP_eq_zero.mpr fun e he => by simp [hpre e he],
        Nat.zero_add]
      exact List.countP_le_length
    · rcases hs with ho | rfl
      · rw [ho] at ht
        cases ht
      · exact ⟨e, by simp [hlog], he⟩

/-! ## Steps -/

/-- An event appended to a clean open row. -/
theorem ordered_appended (hc : Clean d.log) (ho : d.status.isTerminal = false) (e : EventType) :
    (d.appended e).Ordered := by
  cases he : e.terminal? with
  | none => exact .inl ⟨hc.append he, ho⟩
  | some status => exact .inr ⟨status, ⟨d.log, e, rfl, hc, he⟩, .inl ho⟩

/-- A change of a clean row leaves the ties of every slot, as none of them names an event. -/
theorem tied_of_clean (hc : Clean d.log) {w : ℕ} (hs : d'.status ≠ .queued) (h : d.Tied w g) :
    d'.Tied w g :=
  ⟨hs, fun status hg => absurd (h.2 status hg) hc.not_endsWith⟩

/-- No run becomes queued again. -/
theorem ne_queued_of_canBecome {st st' : RunStatus} (h : st ≠ .queued)
    (hc : st.canBecome st' = true) : st' ≠ .queued := by
  rintro rfl
  cases st with
  | queued => exact h rfl
  | _ => cases hc

/-- **What a request does to the row.** A row that changes gets one event on a clean log, or the
status that its last event names, or another open status. -/
theorem effect_spec {c : Call} (hd : d.Ordered) {w : ℕ} (hg : d.Tied w g)
    (hallow : announcement.allowed g (.call c))
    (hquiet : d.announced = true → c.isWrite = true →
      ∃ status error, c = .setRunStatus status error ∧ status.isTerminal = true)
    (h : d.effect c = .ok d') :
    d' = d
      ∨ (∃ e, Clean d.log ∧ d.status.isTerminal = false ∧ d' = d.appended e
          ∧ ∀ x, c = .append x → e = x.type)
      ∨ (∃ status, d' = { d with status := status } ∧ status ≠ .queued
          ∧ (EndsWith d.log status ∨ (Clean d.log ∧ status.isTerminal = false))) := by
  -- a write of an open row adds one event, on a log that is clean yet
  have happend : ∀ e m, d.whileOpen (d.appended e) m = .ok d' → c.isWrite = true →
      (∀ status error, c ≠ .setRunStatus status error) →
      Clean d.log ∧ d.status.isTerminal = false ∧ d' = d.appended e := by
    intro e m hw hcw hne
    rw [RunRow.whileOpen] at hw
    split_ifs at hw with ho
    obtain rfl := Except.ok.inj hw
    have ho : d.status.isTerminal = false := by simpa using ho
    refine ⟨hd.clean ho ?_, ho, rfl⟩
    by_contra ha
    obtain ⟨status, error, hc, -⟩ := hquiet (by simpa using ha) hcw
    exact hne status error hc
  -- the other writes of an open row leave it as it is
  have hopen : ∀ m, d.whileOpen d m = .ok d' → d' = d := by
    intro m hw
    rw [RunRow.whileOpen] at hw
    split_ifs at hw
    exact (Except.ok.inj hw).symm
  cases c with
  | append e =>
      obtain ⟨hc, ho, rfl⟩ := happend _ _ h rfl (fun _ _ hc => by cases hc)
      exact .inr (.inl ⟨e.type, hc, ho, rfl, fun x hx => by rw [Call.append.inj hx]⟩)
  | commitAtomic row payload =>
      obtain ⟨hc, ho, rfl⟩ := happend _ _ h rfl (fun _ _ hc => by cases hc)
      exact .inr (.inl ⟨_, hc, ho, rfl, fun x hx => by cases hx⟩)
  | persistOutputs proposals conflicts =>
      obtain ⟨hc, ho, rfl⟩ := happend _ _ h rfl (fun _ _ hc => by cases hc)
      exact .inr (.inl ⟨_, hc, ho, rfl, fun x hx => by cases hx⟩)
  | commitSucceeded row => exact .inl (hopen _ h)
  | commitFailed row => exact .inl (hopen _ h)
  | recordUsage usage => exact .inl (hopen _ h)
  | setRunStatus status error =>
      rw [RunRow.effect] at h
      split_ifs at h with ho hb
      obtain rfl := Except.ok.inj h
      -- a terminal status is the one that the last event names
      refine .inr (.inr ⟨status, rfl, ne_queued_of_canBecome hg.1 hb, ?_⟩)
      cases ht : status.isTerminal with
      | true => exact .inl (hg.2 status (hallow status error rfl ht))
      -- an open one keeps the log clean
      | false =>
          refine .inr ⟨hd.clean (by simpa using ho) ?_, rfl⟩
          by_contra ha
          obtain ⟨st, er, hc, hst⟩ := hquiet (by simpa using ha) rfl
          rw [(Call.setRunStatus.inj hc).1, hst] at ht
          cases ht
  | cancelCheck => exact .inl (Except.ok.inj h).symm
  | loadUsage => exact .inl (Except.ok.inj h).symm
  | loadEvidence => exact .inl (Except.ok.inj h).symm
  | loadSucceeded stage hash => exact .inl (Except.ok.inj h).symm
  | rejectLoaded row => exact .inl (Except.ok.inj h).symm
  | generate req => exact .inl (Except.ok.inj h).symm

/-- A row as a request may leave it is ordered, and the ties of all slots hold of it. -/
theorem effect_sound {c : Call} (hd : d.Ordered) {w : ℕ} (hg : d.Tied w g)
    (hallow : announcement.allowed g (.call c))
    (hquiet : d.announced = true → c.isWrite = true →
      ∃ status error, c = .setRunStatus status error ∧ status.isTerminal = true)
    (h : d.effect c = .ok d') :
    d'.Ordered ∧ (∀ v f, d.Tied v f → d'.Tied v f)
      ∧ ∀ e, c = .append e → d'.Tied w e.type.terminal? := by
  have hlast : ∀ {e : EventType}, Clean d.log → (d.appended e).Tied w e.terminal? := by
    intro e hc
    exact ⟨hg.1, fun status he => ⟨d.log, e, rfl, hc, he⟩⟩
  rcases effect_spec hd hg hallow hquiet h with rfl | ⟨e, hc, ho, rfl, hx⟩ | ⟨status, rfl, hq, hs⟩
  · refine ⟨hd, fun v f hf => hf, ?_⟩
    rintro e rfl
    -- an append that returned did append
    rw [RunRow.effect, RunRow.whileOpen] at h
    split_ifs at h
    have := congrArg (fun r => r.log.length) (Except.ok.inj h)
    simp [RunRow.appended] at this
  · refine ⟨ordered_appended hc ho e, fun v f hf => tied_of_clean hc hf.1 hf, ?_⟩
    rintro x rfl
    rw [hx x rfl]
    exact hlast hc
  · refine ⟨?_, fun v f hf => ⟨hq, hf.2⟩, ?_⟩
    · rcases hs with he | ⟨hc, ho⟩
      · exact .inr ⟨status, he, .inr rfl⟩
      · exact .inl ⟨hc, ho⟩
    · rintro e rfl
      rw [RunRow.effect, RunRow.whileOpen] at h
      split_ifs at h
      have := congrArg (fun r => r.log.length) (Except.ok.inj h)
      simp [RunRow.appended] at this

/-- A call that appends nothing announces nothing. -/
theorem announcementAfter_call {c : Call} {r : Except Exc c.Val}
    (h : (∃ e, r = .error e) ∨ ∀ e, c ≠ .append e) : announcementAfter g (.call c) r = g := by
  rcases h with ⟨e, rfl⟩ | h
  · cases c <;> rfl
  · cases c with
    | append e => exact absurd rfl (h e)
    | _ => rfl

/-- A request that can raise, with whatever answer. -/
theorem serveCall_sound {c : Call} {x : Choice} (hd : d.Ordered) {w : ℕ} (hg : d.Tied w g)
    (hallow : announcement.allowed g (.call c))
    (hquiet : d.announced = true → c.isWrite = true →
      ∃ status error, c = .setRunStatus status error ∧ status.isTerminal = true) :
    (d.serveCall c x).1.Ordered
      ∧ (d.serveCall c x).1.Tied w (announcementAfter g (.call c) (d.serveCall c x).2)
      ∧ ∀ v f, d.Tied v f → (d.serveCall c x).1.Tied v f := by
  have hraised : ∀ e : Exc, announcementAfter g (.call c) (.error e : Except Exc c.Val) = g :=
    fun e => announcementAfter_call (.inl ⟨e, rfl⟩)
  rw [RunRow.serveCall]
  cases he : d.effect c with
  | error e =>
      split
      · rename_i h _
        cases h
      · rename_i h _
        cases h
      · rw [hraised]
        exact ⟨hd, hg, fun v f hf => hf⟩
      · rw [hraised]
        exact ⟨hd, hg, fun v f hf => hf⟩
  | ok d' =>
      obtain ⟨hord, hties, happ⟩ := effect_sound hd hg hallow hquiet he
      split
      · rename_i d₁ v h _
        obtain rfl := Except.ok.inj h
        refine ⟨hord, ?_, hties⟩
        by_cases hc : ∃ e, c = .append e
        · obtain ⟨e, rfl⟩ := hc
          exact happ e rfl
        · rw [announcementAfter_call (.inr fun e h => hc ⟨e, h⟩)]
          exact hties w g hg
      · rename_i d₁ e h _
        obtain rfl := Except.ok.inj h
        rw [hraised]
        dsimp only
        split_ifs
        · exact ⟨hord, hties w g hg, hties⟩
        · exact ⟨hd, hg, fun v f hf => hf⟩
      · rename_i h _
        cases h
      · rename_i h _
        cases h

theorem tied_markRunning {w : ℕ} (h : d.Tied w g) : d.markRunning.Tied w g := by
  rw [RunRow.markRunning, if_neg h.1]
  exact h

theorem markRunning_ne_queued : d.markRunning.status ≠ .queued := by
  rw [RunRow.markRunning]
  split_ifs with h
  · simp
  · exact h

/-- Marking a run running keeps its log in order. -/
theorem ordered_markRunning (h : d.Ordered) : d.markRunning.Ordered := by
  rw [RunRow.markRunning]
  split_ifs with hq
  · rcases h with ⟨hc, -⟩ | ⟨status, he, -⟩
    · exact .inl ⟨hc, rfl⟩
    · exact .inr ⟨status, he, .inl rfl⟩
  · exact h

/-- The API writes a terminal event and its status together. -/
theorem ordered_close {e : EventType} (hc : Clean d.log) (he : e.terminal? = some status) :
    RunRow.Ordered { d.appended e with status := status } :=
  .inr ⟨status, ⟨d.log, e, rfl, hc, he⟩, .inr rfl⟩

/-- A transaction of the API on a run that waits for review, when no attempt announced an end. -/
theorem api_sound (hd : d.Ordered)
    (hquiet : d.announced = true → d.status ≠ .waitingReview) (hd' : d.status = .waitingReview →
      Clean d.log → d'.Ordered ∧ d'.status ≠ .queued) (hsame : d.status ≠ .waitingReview → d' = d) :
    d'.Ordered ∧ ∀ v g, d.Tied v g → d'.Tied v g := by
  by_cases hs : d.status = .waitingReview
  · have hc : Clean d.log := by
      refine hd.clean (by rw [hs]; rfl) ?_
      by_contra ha
      exact hquiet (by simpa using ha) hs
    obtain ⟨hord, hq⟩ := hd' hs hc
    exact ⟨hord, fun v g hg => tied_of_clean hc hq hg⟩
  · rw [hsame hs]
    exact ⟨hd, fun v g hg => hg⟩

/-- A cancellation keeps the log in order unless an announced run waits for its review. -/
theorem cancelled_sound (hd : d.Ordered)
    (hquiet : d.announced = true → d.status ≠ .waitingReview) :
    d.cancelled.Ordered ∧ ∀ v g, d.Tied v g → d.cancelled.Tied v g := by
  refine api_sound hd hquiet (fun hs hc => ?_) fun hs => if_neg hs
  rw [RunRow.cancelled, if_pos hs]
  exact ⟨ordered_close hc rfl, by simp⟩

/-- A review keeps the log in order unless an announced run waits for it. -/
theorem reviewed_sound (allDisposed : Bool) (hd : d.Ordered)
    (hquiet : d.announced = true → d.status ≠ .waitingReview) :
    (d.reviewed allDisposed).Ordered ∧ ∀ v g, d.Tied v g → (d.reviewed allDisposed).Tied v g := by
  refine api_sound hd hquiet (fun hs hc => ?_) fun hs => if_neg hs
  have ho : d.status.isTerminal = false := by rw [hs]; rfl
  have hc' : Clean (d.appended .reviewCompleted).log := hc.append rfl
  rw [RunRow.reviewed, if_pos hs]
  cases allDisposed with
  | true => exact ⟨ordered_close hc' rfl, by simp⟩
  | false => exact ⟨ordered_appended hc ho _, show d.status ≠ .queued by simp [hs]⟩

/-- **Every undisturbed step** keeps the log in order. -/
theorem sound_runMachine :
    Sound (runMachine Ontology) announcement Undisturbed RunRow.Ordered RunRow.Tied where
  serve := by
    intro s w x o g d r hd hnext hquiet hg hallow h
    obtain ⟨rfl, rfl⟩ := Prod.mk.inj (Option.some.inj h)
    cases o with
    | leaseCheck => exact ⟨hd, ⟨g, rfl, hg⟩, fun v f _ _ hf => hf⟩
    | monotonic => exact ⟨hd, ⟨g, rfl, hg⟩, fun v f _ _ hf => hf⟩
    | call c =>
        obtain ⟨hord, hown, hrest⟩ := serveCall_sound (x := x) hd hg hallow
          fun ha hw => hquiet ha c hnext hw
        exact ⟨hord, ⟨_, rfl, hown⟩, fun v f _ _ hf => hrest v f hf⟩
  other := by
    intro s y d p hd hquiet h
    obtain ⟨rfl, rfl⟩ := Prod.mk.inj (Option.some.inj h)
    cases y with
    | deliver w deps evidence =>
        refine ⟨ordered_markRunning hd, fun v g hg => tied_markRunning hg, ?_⟩
        rintro w' q hq
        obtain ⟨rfl, rfl⟩ := Prod.mk.inj (Option.some.inj hq)
        exact ⟨none, ⟨markRunning_ne_queued, fun _ h => by cases h⟩, within_runExtractionWorkflow⟩
    | cancel =>
        obtain ⟨hord, hties⟩ := cancelled_sound hd hquiet
        exact ⟨hord, hties, fun _ _ h => by cases h⟩
    | review allDisposed =>
        obtain ⟨hord, hties⟩ := reviewed_sound allDisposed hd hquiet
        exact ⟨hord, hties, fun _ _ h => by cases h⟩

theorem ordered_created (runId : String) : (RunRow.created runId).Ordered := by
  refine .inl ⟨fun e he => ?_, rfl⟩
  rw [List.mem_singleton.mp he]
  rfl

theorem good_startOfRun (runId : String) :
    Good announcement RunRow.Ordered RunRow.Tied (startOfRun runId) :=
  ⟨ordered_created runId, fun _ _ _ h => by cases h⟩

/-- **A terminal event is final**, in every run where no other write falls between an attempt's
terminal event and its status. -/
theorem terminal_event_final {runId : String} {as : List (Act Choice (Outside Ontology))}
    {s : Config workflowSig Raised Ctx RunRow}
    (h : run (step (runMachine Ontology)) (startOfRun runId) as = some s)
    (hquiet : Admits (step (runMachine Ontology)) Undisturbed (startOfRun runId) as) :
    s.db.Final :=
  (sound_runMachine.run (good_startOfRun runId) hquiet h).inv.final

/-- The next `n` requests of the attempt in slot `w`. -/
def cancelledServes (w n : ℕ) : List (Act Choice (Outside Unit)) :=
  List.replicate n (.serve w ⟨cancelledAnswer, false⟩)

/-- An attempt that finds the run cancelled and closes it. -/
def closedCancel : List (Act Choice (Outside Unit)) :=
  .other (.deliver 0 blankDeps []) :: cancelledServes 0 11

theorem terminal_event_final_closedCancel :
    ∃ s, run (step (runMachine Unit)) (startOfRun "run") closedCancel = some s
      ∧ Admits (step (runMachine Unit)) Undisturbed (startOfRun "run") closedCancel
      ∧ s.db.status = .cancelled ∧ s.db.Final := by
  have hquiet : Admits (step (runMachine Unit)) Undisturbed (startOfRun "run") closedCancel := by
    refine admits_cons trivial rfl ?_
    -- ten requests before the event is in the log, and then the status
    iterate 10 refine admits_cons (fun h => by cases h) rfl ?_
    refine admits_cons (fun _ c hc _ => ⟨_, _, (Op.call.inj (Option.some.inj hc)).symm, rfl⟩) rfl ?_
    trivial
  exact ⟨_, rfl, hquiet, rfl, terminal_event_final rfl hquiet⟩

/-- The same attempt dies after its event, and the job is delivered again. -/
def crashedCancel : List (Act Choice (Outside Unit)) :=
  .other (.deliver 0 blankDeps []) :: cancelledServes 0 10
    ++ [.crash 0, .other (.deliver 1 blankDeps [])] ++ cancelledServes 1 2

theorem run_crashedCancel :
    (run (step (runMachine Unit)) (startOfRun "run") crashedCancel).map Config.db
      = some ⟨"run", .running,
          [.runQueued, .runStarted, .budgetUpdated, .runCancelled, .runStarted]⟩ := by
  rfl

/-- The second attempt's `run_started` stands after `run_cancelled`. -/
theorem event_after_terminal_event :
    ¬ ∀ as s, run (step (runMachine Unit)) (startOfRun "run") as = some s → s.db.Final := by
  intro h
  obtain ⟨s, hs, hdb⟩ := Option.map_eq_some_iff.mp run_crashedCancel
  have hfinal := h crashedCancel s hs
  rw [hdb] at hfinal
  have hpost := hfinal.last [.runQueued, .runStarted, .budgetUpdated] .runCancelled [.runStarted]
    rfl rfl
  cases hpost

end Extraction
