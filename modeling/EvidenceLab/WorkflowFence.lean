/-
# The lease fence of the workflow

`fence` follows whether a lease check returned `False` and which terminal events were appended.  It
allows a write only while no check returned `False`, and a terminal status only after the event that
announces it.  One lemma for each function of the workflow shows that it keeps this contract;
`workflow_lease_fenced` reads it off the exchanges of a run.
-/
import EvidenceLab.Workflow

namespace Extraction

open Effects

/-! ## The contract -/

/-- What the fence remembers of the exchanges so far. -/
structure Fence where
  lost : Bool
  announced : List RunStatus

/-- The fence after one exchange. -/
def Fence.after (g : Fence) : (o : workflowSig.Op) → workflowSig.Ans o → Fence
  | .leaseCheck, held => { g with lost := g.lost || !held }
  | .call (.append e), .ok _ => { g with announced := e.type.terminal?.toList ++ g.announced }
  | _, _ => g

/-- A lease that was lost stays lost. -/
def Fence.answers (g : Fence) : (o : workflowSig.Op) → workflowSig.Ans o → Prop
  | .leaseCheck, held => g.lost = true → held = false
  | _, _ => True

/-- No write after a lost lease, and no terminal status before its event. -/
def Fence.allows (g : Fence) : Op → Prop
  | .leaseCheck | .monotonic => True
  | .call c => (c.isWrite = true → g.lost = false)
      ∧ ∀ status error, c = .setRunStatus status error → status.isTerminal = true →
        status ∈ g.announced

def fence : Contract workflowSig Fence where
  allowed g o := g.allows o
  next g o r g' := g.answers o r ∧ g' = g.after o r

/-- The program returns with the lease held, and may raise anywhere. -/
abbrev Fenced {α : Type} (g : Fence) (p : W α) : Prop :=
  p.Keeps fence (fun g _ => g.lost = false) (fun _ _ => True) g

variable {Ontology : Type} {deps : Deps Ontology} {g : Fence} {ctx : Ctx} {α β : Type}

/-! ## Single requests -/

/-- A lease check that succeeds leaves a lease that is not lost. -/
theorem keeps_leaseCheck {E : Fence → Raised → Prop} :
    leaseCheck.Keeps fence (fun g b => b = true → g.lost = false) E g := by
  refine ⟨trivial, fun held g' hn hb => ?_⟩
  obtain ⟨hans, rfl⟩ := hn
  obtain rfl : held = true := hb
  cases hl : g.lost with
  | false => simp [Fence.after, hl]
  | true => exact absurd (hans hl) (by simp)

theorem keeps_monotonic {E : Fence → Raised → Prop} :
    monotonic.Keeps fence (fun g' _ => g' = g) E g :=
  ⟨trivial, fun _ _ hn => hn.2⟩

/-- A request other than an append leaves the fence as it was. -/
theorem keeps_call {c : Call} (hw : c.isWrite = true → g.lost = false)
    (hs : ∀ status error, c = .setRunStatus status error → status.isTerminal = true →
      status ∈ g.announced) (ha : ∀ e, c ≠ .append e) :
    (call ctx c).Keeps fence (fun g' _ => g' = g) (fun g' _ => g' = g) g := by
  refine ⟨⟨hw, hs⟩, fun r g' hn => ?_⟩
  have hg : g' = g := by
    rw [hn.2]
    cases c with
    | append e => exact absurd rfl (ha e)
    | _ => rfl
  cases r with
  | ok v => exact hg
  | error e => exact hg

/-- A read, or a call of the provider. -/
theorem keeps_read {c : Call} (hw : c.isWrite = false) :
    (call ctx c).Keeps fence (fun g' _ => g' = g) (fun g' _ => g' = g) g := by
  refine keeps_call (by simp [hw]) ?_ ?_
  · rintro status error rfl
    cases hw
  · rintro e rfl
    cases hw

/-- A request that is neither an event nor a terminal status. -/
def Call.isPlain : Call → Bool
  | .append _ => false
  | .setRunStatus status _ => !status.isTerminal
  | _ => true

/-- A plain call that writes is fenced while the lease is held. -/
theorem keeps_write {c : Call} (hg : g.lost = false) (hc : c.isPlain = true) :
    Fenced g (call ctx c) := by
  refine (keeps_call (fun _ => hg) ?_ ?_).mono ?_ fun _ _ _ => trivial
  · rintro status error rfl ht
    simp [Call.isPlain, ht] at hc
  · rintro e rfl
    cases hc
  · rintro _ _ rfl
    exact hg

/-- An event that was appended counts as announced. -/
theorem keeps_append {type : EventType} {payload : Doc} (hg : g.lost = false) :
    (append ctx type payload).Keeps fence
      (fun g' _ => g'.lost = false ∧ ∀ status, type.terminal? = some status → status ∈ g'.announced)
      (fun _ _ => True) g := by
  refine ⟨⟨fun _ => hg, fun status error hc => by cases hc⟩, fun r g' hn => ?_⟩
  cases r with
  | ok v =>
      rw [hn.2]
      refine ⟨hg, fun status hs => ?_⟩
      simp [Fence.after, hs]
  | error e => trivial

/-- Appending an event is fenced while the lease is held. -/
theorem fenced_append {type : EventType} {payload : Doc} (hg : g.lost = false) :
    Fenced g (append ctx type payload) :=
  (keeps_append hg).mono (fun _ _ h => h.1) fun _ _ _ => trivial

theorem fenced_ofExcept {x : Except Raised α} (hg : g.lost = false) :
    Fenced g (Prog.ofExcept x : W α) :=
  Prog.keeps_ofExcept (fun _ _ => hg) fun _ _ => trivial

/-- A program of two parts is fenced where both are. -/
theorem fenced_bind {p : W α} {f : α → W β} (hp : Fenced g p)
    (hf : ∀ g a, g.lost = false → Fenced g (f a)) : Fenced g (p >>= f) :=
  hp.bind fun g a h => hf g a h

/-- Returning is fenced while the lease is held. -/
theorem fenced_ret {a : α} (hg : g.lost = false) : Fenced g (Prog.ret a : W α) := hg

theorem fenced_raise {e : Exc} : Fenced g (raise ctx e : W α) := trivial

/-- A call that writes nothing is fenced. -/
theorem fenced_call {c : Call} (hg : g.lost = false) (hw : c.isWrite = false) :
    Fenced g (call ctx c) :=
  (keeps_read hw).mono (fun _ _ h => h ▸ hg) fun _ _ _ => trivial

theorem fenced_monotonic (hg : g.lost = false) : Fenced g monotonic :=
  (keeps_monotonic (E := fun _ _ => True)).mono (fun _ _ h => h ▸ hg) fun _ _ _ => trivial

/-- A check of the lease guards what follows it, whatever the fence was. -/
theorem fenced_leaseCheck {R : Fence → α → Prop} {f : Bool → W α}
    (ht : ∀ g, g.lost = false → (f true).Keeps fence R (fun _ _ => True) g)
    (hf : ∀ g, (f false).Keeps fence R (fun _ _ => True) g) :
    (leaseCheck >>= f).Keeps fence R (fun _ _ => True) g := by
  refine (keeps_leaseCheck (E := fun _ _ => True)).bind fun g b hb => ?_
  cases b with
  | true => exact ht g (hb rfl)
  | false => exact hf g

/-! ## The stages -/

/-- **The budget check before a call** is fenced. -/
theorem fenced_precheck {reserve : ℕ} (hg : g.lost = false) : Fenced g (precheck ctx reserve) := by
  unfold precheck
  refine fenced_bind (fenced_monotonic hg) fun g t hg => ?_
  dsimp only
  split_ifs
  all_goals first | exact fenced_raise | exact fenced_ret hg

/-- **The account of a call** is fenced. -/
theorem fenced_recordCall {r : ModelResult} (hg : g.lost = false) :
    Fenced g (recordCall ctx r) := by
  unfold recordCall
  dsimp only
  split_ifs
  all_goals try exact fenced_raise
  refine fenced_bind (fenced_monotonic hg) fun g t hg => ?_
  split_ifs
  · exact fenced_raise
  · exact fenced_ret hg

/-- **A call of the provider**, retries included, is fenced. -/
theorem fenced_callProvider {role : Role} {messages : List Doc} {maxOutputTokens attempt : ℕ}
    (hg : g.lost = false) :
    Fenced g (callProvider deps ctx role messages maxOutputTokens attempt) := by
  unfold callProvider
  refine fenced_bind (fenced_precheck hg) fun g _ hg => ?_
  refine fenced_bind ((fenced_call hg rfl).handle fun g r _ => ?_) fun g result hg => ?_
  · cases r.exc
    all_goals exact trivial
  refine fenced_bind (fenced_recordCall hg) fun g ctx hg => ?_
  split_ifs
  · exact fenced_raise
  · exact fenced_raise
  · exact fenced_ret hg

/-- **A step of a model**, repair included, is fenced. -/
theorem fenced_runModelStep {role : Role} (hg : g.lost = false) :
    Fenced g (runModelStep deps ctx role) := by
  unfold runModelStep
  refine fenced_bind (fenced_ofExcept hg) fun g messages hg => ?_
  refine fenced_bind (fenced_callProvider hg) fun g first hg => ?_
  dsimp only
  split
  · exact fenced_ret hg
  · exact fenced_ret hg
  refine fenced_bind (fenced_callProvider hg) fun g second hg => ?_
  split
  · exact fenced_ret hg
  · exact fenced_ret hg
  split_ifs
  · exact fenced_raise
  · exact fenced_raise

theorem fenced_recordUsage (hg : g.lost = false) : Fenced g (recordUsage ctx) := by
  unfold recordUsage
  refine fenced_bind (fenced_monotonic hg) fun g t hg => ?_
  refine fenced_bind (keeps_write hg rfl) fun g _ hg => ?_
  exact fenced_append hg

theorem fenced_stageModel {role : Role} (hg : g.lost = false) :
    Fenced g (stageModel deps ctx role) := by
  unfold stageModel
  refine fenced_bind (fenced_runModelStep hg) fun g result hg => ?_
  refine fenced_bind (fenced_recordUsage hg) fun g _ hg => ?_
  refine fenced_bind (fenced_ofExcept hg) fun g out hg => ?_
  exact fenced_ret hg

/-- **The stage that assembles the evidence** is fenced. -/
theorem fenced_stageAssembleEvidence (hg : g.lost = false) :
    Fenced g (stageAssembleEvidence deps ctx) := by
  unfold stageAssembleEvidence
  refine fenced_bind ?_ fun g blocks hg => ?_
  · unfold loadBlocks
    split
    · exact fenced_call (c := .loadEvidence) hg rfl
    · exact fenced_ret hg
  refine fenced_bind (fenced_ofExcept hg) fun g _ hg => ?_
  exact fenced_ret hg

/-- **The stage that persists the proposals** is fenced. -/
theorem fenced_stagePersist : Fenced g (stagePersist ctx) := by
  unfold stagePersist
  refine fenced_leaseCheck (fun g hg => ?_) fun g => fenced_raise
  refine fenced_bind (keeps_write hg rfl) fun g out hg => ?_
  exact fenced_ret hg

/-- **A stage writes only with the lease it was started with.** -/
theorem fenced_dispatchStage {stage : Stage} (hg : g.lost = false) :
    Fenced g (dispatchStage deps ctx stage) := by
  cases stage with
  | validateRequest =>
      simp only [dispatchStage, stageValidateRequest]
      split_ifs
      · exact fenced_raise
      · exact fenced_ret hg
      · exact fenced_raise
  | assembleEvidence => exact fenced_stageAssembleEvidence hg
  | classify => exact fenced_stageModel hg
  | collectCandidates => exact fenced_stageModel hg
  | extract mode => exact fenced_stageModel hg
  | normalize => exact fenced_bind (fenced_ofExcept hg) fun g _ hg => fenced_ret hg
  | validate => exact fenced_bind (fenced_ofExcept hg) fun g _ hg => fenced_ret hg
  | verifyCitations => exact fenced_ret hg
  | detectConflicts => exact fenced_ret hg
  | persistProposals => exact fenced_stagePersist

/-! ## Checkpoints and the loop -/

/-- A program whose errors are swallowed is fenced where it keeps the lease on both ways. -/
theorem fenced_bestEffort {p : W Ctx} (hp : p.Keeps fence (fun g _ => g.lost = false)
    (fun g _ => g.lost = false) g) : Fenced g (bestEffort p) := by
  refine Prog.Keeps.handle hp fun g r hg => ?_
  cases r.exc
  all_goals first | exact hg | exact trivial

theorem keeps_append_lost {type : EventType} {payload : Doc} (hg : g.lost = false) :
    (append ctx type payload).Keeps fence (fun g' _ => g'.lost = false)
      (fun g' _ => g'.lost = false) g := by
  refine ⟨⟨fun _ => hg, fun status error hc => by cases hc⟩, fun r g' hn => ?_⟩
  cases r with
  | ok v =>
      rw [hn.2]
      exact hg
  | error e =>
      rw [hn.2]
      exact hg

/-- Rejecting a checkpoint is fenced. -/
theorem fenced_rejectCheckpoint {row : StageRecord} {reason message : String}
    (hg : g.lost = false) : Fenced g (rejectCheckpoint deps ctx row reason message) := by
  unfold rejectCheckpoint
  refine fenced_bind ?_ fun g _ hg => ?_
  · unfold rejectIfDurable
    split
    · exact fenced_call (c := .rejectLoaded row) hg rfl
    · exact fenced_ret hg
  · exact fenced_bestEffort ((keeps_append_lost hg).bind fun g _ hg => hg)

/-- The check of a checkpoint is fenced. -/
theorem fenced_isRecoverable {row : StageRecord} (hg : g.lost = false) :
    Fenced g (isRecoverable deps ctx row) := by
  unfold isRecoverable
  split
  · split_ifs
    · exact fenced_bind (fenced_rejectCheckpoint hg) fun g ctx hg => fenced_ret hg
    · exact fenced_ret hg
  · dsimp only
    split_ifs
    · exact fenced_ret hg
    · exact fenced_bind (fenced_rejectCheckpoint hg) fun g ctx hg => fenced_ret hg

/-- The record of a failure checks the lease before it writes. -/
theorem keeps_recordStageFailure {stage : Stage} {inputHash : String} {exc : Exc} :
    (recordStageFailure deps ctx stage inputHash exc).Keeps fence (fun _ _ => True)
      (fun _ _ => True) g := by
  refine Prog.Keeps.handle (E := fun _ _ => True) ?_ fun g r _ => ?_
  · refine fenced_leaseCheck (fun g hg => ?_) fun g => trivial
    refine Prog.Keeps.bind (keeps_write hg rfl) fun g _ hg => ?_
    exact (fenced_append hg).bind fun _ _ _ => trivial
  · cases r.exc
    all_goals exact trivial

/-- **The boundary of a stage** checks the lease, so that it is fenced from any state. -/
theorem fenced_boundary : Fenced g (boundary ctx) := by
  refine fenced_leaseCheck (fun g hg => ?_) fun g => fenced_raise
  refine fenced_bind (fenced_call hg rfl) fun g c hg => ?_
  split_ifs
  · exact fenced_raise
  refine fenced_bind (fenced_monotonic hg) fun g t hg => ?_
  split_ifs
  · exact fenced_raise
  · exact fenced_ret hg

/-- The fence in front of a commit is fenced from any state. -/
theorem fenced_commitFence {stage : Stage} : Fenced g (commitFence ctx stage) := by
  refine fenced_leaseCheck (fun g hg => ?_) fun g => fenced_raise
  refine fenced_bind (fenced_call hg rfl) fun g c hg => ?_
  split_ifs
  · exact fenced_raise
  · exact fenced_ret hg

/-- **Committing a stage** is fenced. -/
theorem fenced_commitStage {row : StageRecord} {payload : Doc} (hg : g.lost = false) :
    Fenced g (commitStage deps ctx row payload) := by
  unfold commitStage
  split
  · exact keeps_write (c := .commitAtomic row payload) hg rfl
  refine fenced_bind (keeps_write (c := .commitSucceeded row) hg rfl) fun g committed hg => ?_
  exact fenced_bind (fenced_append hg) fun g _ hg => fenced_ret hg

/-- Executing a stage is fenced. -/
theorem fenced_executeStage {stage : Stage} {inputHash : String} (hg : g.lost = false) :
    Fenced g (executeStage deps ctx stage inputHash) := by
  unfold executeStage
  refine fenced_bind (fenced_append hg) fun g _ hg => ?_
  refine fenced_bind ((fenced_dispatchStage hg).handle fun g r _ => ?_) fun g out hg => ?_
  · exact keeps_recordStageFailure.bind fun _ _ _ => trivial
  refine fenced_bind fenced_commitFence fun g _ hg => ?_
  refine fenced_bind (fenced_commitStage hg) fun g committed hg => ?_
  dsimp only
  split
  · exact fenced_ret hg
  · split_ifs
    · exact fenced_raise
    · exact fenced_ret hg

/-- **Running a stage**, recovered or executed, is fenced. -/
theorem fenced_runStage {stage : Stage} (hg : g.lost = false) :
    Fenced g (runStage deps ctx stage) := by
  unfold runStage
  refine fenced_bind (fenced_call hg rfl) fun g existing hg => ?_
  split
  · exact fenced_executeStage hg
  split_ifs
  · exact fenced_executeStage hg
  refine fenced_bind (fenced_isRecoverable hg) fun g out hg => ?_
  dsimp only
  split_ifs
  · exact fenced_bind (fenced_ofExcept hg) fun g state hg => fenced_ret hg
  · exact fenced_executeStage hg

/-- **Running the stages** one after the other is fenced. -/
theorem fenced_runStages {stages : List Stage} (hg : g.lost = false) :
    Fenced g (runStages deps ctx stages) := by
  induction stages generalizing g ctx with
  | nil => exact fenced_ret hg
  | cons stage stages ih =>
      rw [runStages]
      refine fenced_bind fenced_boundary fun g _ hg => ?_
      split_ifs
      · exact ih hg
      · exact fenced_bind (fenced_runStage hg) fun g ctx hg => ih hg

/-! ## The run -/

/-- The program makes only allowed requests, wherever it ends. -/
abbrev Guarded (g : Fence) (p : W α) : Prop :=
  p.Keeps fence (fun _ _ => True) (fun _ _ => True) g

/-- A fenced program guards its terminal event. -/
theorem Fenced.guarded {p : W α} (h : Fenced g p) : Guarded g p :=
  h.mono (fun _ _ _ => trivial) fun _ _ _ => trivial

theorem guarded_flushUsage : Guarded g (flushUsage ctx) :=
  fenced_leaseCheck (fun _ hg => (fenced_recordUsage hg).guarded) fun _ => trivial

/-- A terminal status goes out after its event. -/
theorem guarded_announce {type : EventType} {status : RunStatus} {payload : Doc}
    {error : Option Doc} (hg : g.lost = false) (ht : type.terminal? = some status) :
    Guarded g (do append ctx type payload; call ctx (.setRunStatus status error); return ctx) := by
  refine (keeps_append hg).bind fun g _ h => ?_
  refine Prog.Keeps.bind (R := fun _ _ => True) ?_ fun _ _ _ => trivial
  refine (keeps_call (fun _ => h.1) ?_ fun _ he => by cases he).mono (fun _ _ _ => trivial)
    fun _ _ _ => trivial
  rintro status' error' hc -
  obtain ⟨rfl, -⟩ := Call.setRunStatus.inj hc
  exact h.2 status ht

/-- **Completing a run** writes its status only after its own event. -/
theorem guarded_finalizeSuccess : Guarded g (finalizeSuccess ctx) := by
  refine fenced_leaseCheck (fun g hg => ?_) fun g => trivial
  rw [if_pos rfl]
  split_ifs
  · exact guarded_announce hg rfl
  · refine Prog.Keeps.bind (keeps_write hg rfl) fun g _ hg => ?_
    exact (keeps_append hg).bind fun _ _ _ => trivial

/-- **Closing a run** writes its status only after its own event. -/
theorem guarded_closeRun {type : EventType} {status : RunStatus} {code message : String}
    (ht : type.terminal? = some status) : Guarded g (closeRun ctx status type code message) :=
  fenced_leaseCheck (fun _ hg => guarded_announce hg ht) fun _ => trivial

/-- Every exception of the body is answered behind a guard. -/
theorem guarded_onException {r : Raised} : Guarded g (onException r) := by
  unfold onException
  cases r.exc with
  | leaseLost m => exact trivial
  | cancelled m => exact guarded_closeRun rfl
  | runAlreadyTerminal runId status => exact guarded_closeRun rfl
  | extraction code m => exact guarded_closeRun rfl
  | permanentFailure m => exact (guarded_closeRun rfl).bind fun _ _ _ => trivial
  | untyped type m => exact (guarded_closeRun rfl).bind fun _ _ _ => trivial
  | base type => exact trivial

/-- **The body of the workflow** is guarded from its first lease check on. -/
theorem guarded_runBody (hg : g.lost = false) : Guarded g (runBody deps ctx) := by
  unfold runBody
  dsimp only
  refine Prog.Keeps.elim (R := fun g _ => g.lost = false) (E := fun _ _ => True) ?_ ?_ ?_
  · split_ifs
    · exact fenced_raise
    · exact fenced_runStages hg
  · exact fun g ctx _ => guarded_flushUsage.bind fun _ _ _ => guarded_finalizeSuccess
  · exact fun g r _ => guarded_flushUsage.bind fun _ _ _ => trivial

/-- **The workflow keeps the fence.** -/
theorem guarded_runExtractionWorkflow {evidence : List EvidenceBlock} (hg : g.lost = false) :
    Guarded g (runExtractionWorkflow deps evidence) := by
  unfold runExtractionWorkflow
  refine (fenced_call hg rfl).bind fun g carried hg => ?_
  refine (fenced_append hg).bind fun g _ hg => ?_
  exact (guarded_runBody hg).handle fun g r _ => guarded_onException

/-! ## Runs -/

def Op.isWrite : Op → Bool
  | .leaseCheck | .monotonic => false
  | .call c => c.isWrite

/-- A lease check that returned `held`. -/
def leaseAnswer (held : Bool) : Exchange workflowSig := ⟨.leaseCheck, held⟩

/-- An event that was appended. -/
def appended (e : Event) : Exchange workflowSig := ⟨.call (.append e), (.ok () : Except Exc Unit)⟩

/-- Once a lease check returned `False`, every later one does. -/
def StaysLost (tr : List (Exchange workflowSig)) : Prop :=
  ∀ pre post held, tr = pre ++ leaseAnswer held :: post → leaseAnswer false ∈ pre → held = false

/-- The fence after a list of exchanges. -/
def fenceAfter (g : Fence) (tr : List (Exchange workflowSig)) : Fence :=
  tr.foldl (fun g x => g.after x.1 x.2) g

/-- A lease is lost once a check has said so. -/
theorem Fence.lost_after {x : Exchange workflowSig} :
    (g.after x.1 x.2).lost = true ↔ g.lost = true ∨ x = leaseAnswer false := by
  obtain ⟨o, r⟩ := x
  cases o with
  | leaseCheck =>
      cases hr : (r : Bool) with
      | true =>
          have hne : (⟨.leaseCheck, true⟩ : Exchange workflowSig) ≠ leaseAnswer false := by
            intro h
            have := eq_of_heq (Sigma.mk.inj h).2
            cases this
          simp [Fence.after, hne]
      | false => simp [Fence.after, leaseAnswer]
  | monotonic =>
      have hne : (⟨.monotonic, r⟩ : Exchange workflowSig) ≠ leaseAnswer false := by
        intro h
        cases (Sigma.mk.inj h).1
      simp [Fence.after, hne]
  | call c =>
      have hne : (⟨.call c, r⟩ : Exchange workflowSig) ≠ leaseAnswer false := by
        intro h
        cases (Sigma.mk.inj h).1
      have hlost : (g.after (.call c) r).lost = g.lost := by
        cases c <;> cases r <;> rfl
      simp [hlost, hne]

/-- A status is announced by its own terminal event. -/
theorem Fence.announced_after {x : Exchange workflowSig} {status : RunStatus}
    (h : status ∈ (g.after x.1 x.2).announced) :
    status ∈ g.announced ∨ ∃ e, x = appended e ∧ e.type.terminal? = some status := by
  obtain ⟨o, r⟩ := x
  cases o with
  | leaseCheck => exact Or.inl h
  | monotonic => exact Or.inl h
  | call c =>
      cases c with
      | append e =>
          cases r with
          | ok v =>
              rcases List.mem_append.mp h with h | h
              · exact Or.inr ⟨e, rfl, Option.mem_toList.mp h⟩
              · exact Or.inl h
          | error exc => exact Or.inl h
      | _ => exact Or.inl h

/-- A lease is lost at the end of a trace if and only if a check of the trace said so. -/
theorem fenceAfter_lost {tr : List (Exchange workflowSig)} :
    (fenceAfter g tr).lost = true ↔ g.lost = true ∨ leaseAnswer false ∈ tr := by
  induction tr generalizing g with
  | nil => simp [fenceAfter]
  | cons x tr ih =>
      rw [fenceAfter, List.foldl_cons, ← fenceAfter, ih, Fence.lost_after, List.mem_cons, or_assoc,
        eq_comm (b := leaseAnswer false)]

/-- An announced status has its event in the trace. -/
theorem fenceAfter_announced {tr : List (Exchange workflowSig)} {status : RunStatus}
    (h : status ∈ (fenceAfter g tr).announced) :
    status ∈ g.announced ∨ ∃ e, appended e ∈ tr ∧ e.type.terminal? = some status := by
  induction tr generalizing g with
  | nil => exact Or.inl h
  | cons x tr ih =>
      rcases ih h with h | ⟨e, he, ht⟩
      · rcases Fence.announced_after h with h | ⟨e, rfl, ht⟩
        · exact Or.inl h
        · exact Or.inr ⟨e, List.mem_cons_self .., ht⟩
      · exact Or.inr ⟨e, List.mem_cons_of_mem x he, ht⟩

/-- The exchanges of a lease that stays lost are ones the fence follows. -/
theorem follows_fence {tr : List (Exchange workflowSig)} (pre : List (Exchange workflowSig))
    (hs : StaysLost (pre ++ tr))
    (hg : g.lost = true → leaseAnswer false ∈ pre) : Follows fence g tr (fenceAfter g tr) := by
  induction tr generalizing g pre with
  | nil => exact .here g
  | cons x tr ih =>
      refine .ask ⟨?_, rfl⟩ (ih (pre ++ [x]) ?_ ?_)
      · obtain ⟨o, r⟩ := x
        cases o with
        | leaseCheck => exact fun hl => hs pre tr r rfl (hg hl)
        | monotonic => trivial
        | call c => trivial
      · rwa [List.append_assoc, List.singleton_append]
      · rw [Fence.lost_after]
        rintro (hl | rfl)
        · exact List.mem_append_left _ (hg hl)
        · exact List.mem_append_right _ (List.mem_singleton.mpr rfl)

/-- **Lease fencing of the workflow.** After a lease check that returned `False` no write is issued,
and a terminal status is written only after the event that announces it. -/
theorem workflow_lease_fenced {evidence : List EvidenceBlock} {q : W Ctx}
    {tr pre post : List (Exchange workflowSig)} {x : Exchange workflowSig}
    (hr : Reaches (runExtractionWorkflow deps evidence) tr q) (hs : StaysLost tr)
    (hx : tr = pre ++ x :: post) :
    (leaseAnswer false ∈ pre → x.1.isWrite = false)
      ∧ ∀ status error, x.1 = .call (.setRunStatus status error) → status.isTerminal = true →
        ∃ e, appended e ∈ pre ∧ e.type.terminal? = some status := by
  subst hx
  let g₀ : Fence := ⟨false, []⟩
  have hpre : StaysLost pre := fun a b held hab hlost =>
    hs a (b ++ x :: post) held (by rw [hab, List.append_assoc, List.cons_append]) hlost
  have hf : Follows fence g₀ pre (fenceAfter g₀ pre) := by
    refine follows_fence [] (by rwa [List.nil_append]) ?_
    exact fun h => by cases h
  have hallow : (fenceAfter g₀ pre).allows x.1 :=
    (guarded_runExtractionWorkflow rfl).allowed hr hf
  obtain ⟨o, r⟩ := x
  cases o with
  | leaseCheck => exact ⟨fun _ => rfl, fun _ _ h => by cases h⟩
  | monotonic => exact ⟨fun _ => rfl, fun _ _ h => by cases h⟩
  | call c =>
      constructor
      · intro hlost
        cases hw : c.isWrite with
        | false => exact hw
        | true =>
            have hg : (fenceAfter g₀ pre).lost = true := fenceAfter_lost.mpr (Or.inr hlost)
            rw [hallow.1 hw] at hg
            cases hg
      · intro status error hc ht
        have hmem := hallow.2 status error (Op.call.inj hc) ht
        rcases fenceAfter_announced hmem with h | h
        · cases h
        · exact h

/-- What a lease check was answered. -/
def leaseHeld? : Exchange workflowSig → Option Bool
  | ⟨.leaseCheck, held⟩ => some held
  | _ => none

/-- A lease stays lost when no check that failed is followed by one that did not. -/
theorem staysLost_of_pairwise {tr : List (Exchange workflowSig)}
    (h : (tr.filterMap leaseHeld?).Pairwise fun a b => a = false → b = false) : StaysLost tr := by
  rintro pre post held rfl hlost
  rw [List.filterMap_append,
    List.filterMap_cons_some (show leaseHeld? (leaseAnswer held) = some held from rfl)] at h
  refine (List.pairwise_append.mp h).2.2 false ?_ held List.mem_cons_self rfl
  exact List.mem_filterMap.mpr ⟨_, hlost, rfl⟩

/-- A request that names nothing. -/
def blankRequest : Request where
  runId := "run"
  orgId := "org"
  workspaceId := "workspace"
  entityId := "entity"
  modes := [.kpi]
  asOf := ⟨0, true⟩
  corpusVersionId := "corpus"
  ontologyVersion := "saas-metrics/v1"
  workflowVersion := workflowVersion
  provider := "mock"
  model := "mock-structured-v1"
  inputManifest := .obj []
  inputHash := "sha256:"
  maxCalls := 10
  maxInputTokens := 100000
  maxOutputTokens := 20000
  maxCostUsd := 2
  maxWallSeconds := 600
  issuerLabel := "Unknown Issuer"

/-- Collaborators that answer every question the same way. -/
def blankTools : Tools Unit where
  hashJson _ := ""
  sha256Hex _ := ""
  canonicalLength _ := 0
  isoformat _ := ""
  fromIsoformat _ := .error (.untyped "ValueError" "")
  buildMessages _ _ := .ok []
  envelopeErrors _ _ := []
  itemErrors _ _ := none
  requestHash _ _ _ := ""
  instructionsHash _ := ""
  dumps _ := ""
  normalizePayload d := .ok (d, [])
  validateProposals _ _ _ _ := .ok ([], [])
  citationStatusFor _ _ := "invalid"
  redactErrorText s := s
  defaultOntology := ()

def blankDeps : Deps Unit where
  tools := blankTools
  request := blankRequest
  ontology := none
  durable := true
  hasEvidenceLoader := true
  crashAfterStages := none

/-- Stores that work, and an operator who cancelled. -/
def cancelledAnswer : (o : Op) → workflowSig.Ans o
  | .leaseCheck => true
  | .monotonic => (0 : ℚ)
  | .call .cancelCheck => .ok true
  | .call .loadUsage => .ok (⟨0, 0, 0, 0, 0⟩ : Usage)
  | .call .loadEvidence => .ok ([] : List EvidenceBlock)
  | .call (.loadSucceeded _ _) => .ok (none : Option StageRecord)
  | .call (.rejectLoaded _) => .ok ()
  | .call (.generate _) => .error (.untyped "TimeoutError" "")
  | .call (.append _) => .ok ()
  | .call (.commitAtomic row _) => .ok row
  | .call (.commitSucceeded row) => .ok row
  | .call (.commitFailed _) => .ok ()
  | .call (.recordUsage _) => .ok ()
  | .call (.persistOutputs proposals conflicts) => .ok (proposals, conflicts)
  | .call (.setRunStatus _ _) => .ok ()

/-- A provider's answer that is accepted. -/
def classified : ModelResult where
  provider := "mock"
  model := "mock-structured-v1"
  responseId := "response"
  refused := false
  refusal := none
  parsed := some (.obj [("document_type", .str "10-K")])
  inputTokens := 1
  outputTokens := 1
  costUsd := 0

/-- Stores and a provider that work. -/
def workingAnswer : (o : Op) → workflowSig.Ans o
  | .call .cancelCheck => .ok false
  | .call (.generate _) => .ok classified
  | o => cancelledAnswer o

/-- The lease is held for the first `n` requests, and everything else works. -/
def heldFor (n i : ℕ) : (o : Op) → workflowSig.Ans o
  | .leaseCheck => decide (i < n)
  | o => workingAnswer o

/-- An attempt that loses its lease in the middle of a stage: the provider was called for the
classification and the usage is flushed, but the two checks before the commit fail. -/
def lostInStage : List (Exchange workflowSig) :=
  (Prog.play (heldFor 30) 32 0 (runExtractionWorkflow blankDeps [])).1

theorem lostInStage_leases :
    lostInStage.filterMap leaseHeld? = [true, true, true, true, true, false, false] := by
  decide +kernel

theorem workflow_lease_fenced_lostInStage :
    ∃ q, Reaches (runExtractionWorkflow blankDeps []) lostInStage q ∧ StaysLost lostInStage
      ∧ ∀ pre x post, lostInStage = pre ++ x :: post →
        (leaseAnswer false ∈ pre → x.1.isWrite = false)
          ∧ ∀ status error, x.1 = .call (.setRunStatus status error) → status.isTerminal = true →
            ∃ e, appended e ∈ pre ∧ e.type.terminal? = some status := by
  have hq := reaches_play (heldFor 30) 32 0 (runExtractionWorkflow blankDeps [])
  have hs : StaysLost lostInStage := by
    refine staysLost_of_pairwise ?_
    rw [lostInStage_leases]
    decide
  exact ⟨_, hq, hs, fun pre x post hx => workflow_lease_fenced hq hs hx⟩

end Extraction
