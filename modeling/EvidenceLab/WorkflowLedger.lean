/-
# What the stages ask

The stages make no request that opens or closes the run: they neither load the usage nor write a
status, and no event of theirs is terminal.  `ledger` says so, and counts the provider's answers:
a call goes out only under the cap and not after one that raised, and a flush carries the count.
One lemma for each function of the workflow shows that it keeps this contract; the count is the one
in the attempt's budget.
-/
import EvidenceLab.Workflow

namespace Extraction

open Effects

/-! ## The contract -/

/-- A request that leaves the run open and its usage unread. -/
def Call.isInner : Call → Bool
  | .loadUsage => false
  | .setRunStatus _ _ => false
  | .append e => e.type.terminal?.isNone
  | _ => true

/-- The provider's answers so far, and whether a call of it raised. -/
structure Tally where
  count : ℕ
  raised : Bool

/-- The tally after one exchange. -/
def Tally.after (t : Tally) : (o : workflowSig.Op) → workflowSig.Ans o → Tally
  | .call (.generate _), .ok _ => { t with count := t.count + 1 }
  | .call (.generate _), .error _ => { t with raised := true }
  | _, _ => t

/-- What the stages may ask with at most `cap` calls. -/
def Tally.allows (cap : ℕ) (t : Tally) : Op → Prop
  | .leaseCheck | .monotonic => True
  | .call c => c.isInner = true ∧ (∀ req, c = .generate req → t.count < cap ∧ t.raised = false)
      ∧ ∀ usage, c = .recordUsage usage → usage.callsUsed = t.count

def ledger (cap : ℕ) : Contract workflowSig Tally where
  allowed t o := t.allows cap o
  next t o r t' := t' = t.after o r

/-- The budget of the attempt shows the cap and the count. -/
def Ctx.Fits (cap : ℕ) (t : Tally) (ctx : Ctx) : Prop :=
  ctx.budget.callsUsed = t.count ∧ ctx.budget.maxCalls = cap

/-- The program keeps the ledger; the state `π a` it returns, or raises with, shows the count, and
it returns only when no call raised. -/
abbrev Metered {α : Type} (cap : ℕ) (π : α → Ctx) (t : Tally) (p : W α) : Prop :=
  p.Keeps (ledger cap) (fun t a => (π a).Fits cap t ∧ t.raised = false)
    (fun t r => r.ctx.Fits cap t) t

/-- The program keeps the ledger and does not call the provider. -/
abbrev Steady {α : Type} (cap : ℕ) (t : Tally) (p : W α) : Prop :=
  p.Keeps (ledger cap) (fun t' _ => t' = t) (fun t' r => t' = t ∧ r.ctx.Fits cap t) t

/-- A steady program that returns a state. -/
abbrev SteadyCtx (cap : ℕ) (t : Tally) (p : W Ctx) : Prop :=
  p.Keeps (ledger cap) (fun t' ctx => t' = t ∧ ctx.Fits cap t) (fun t' r => t' = t ∧
    r.ctx.Fits cap t) t

variable {Ontology : Type} {deps : Deps Ontology} {cap : ℕ} {t : Tally} {ctx : Ctx} {α β : Type}
  {π : α → Ctx} {ρ : β → Ctx}

/-! ## Rules -/

/-- A program that makes no call of a provider may come before a metered one. -/
theorem Steady.bind {p : W α} {f : α → W β} (hp : Steady cap t p)
    (hf : ∀ a, Metered cap ρ t (f a)) : Metered cap ρ t (p >>= f) := by
  refine Prog.Keeps.elim hp (fun t' a ht => ?_) fun t' r hr => ?_
  · subst ht
    exact hf a
  · obtain ⟨rfl, hr⟩ := hr
    exact hr

theorem Steady.then {p : W α} {f : α → W β} (hp : Steady cap t p)
    (hf : ∀ a, Steady cap t (f a)) : Steady cap t (p >>= f) := by
  refine Prog.Keeps.bind hp fun t' a ht => ?_
  subst ht
  exact hf a

/-- A steady program may come before one that returns a context. -/
theorem Steady.thenCtx {p : W α} {f : α → W Ctx} (hp : Steady cap t p)
    (hf : ∀ a, SteadyCtx cap t (f a)) : SteadyCtx cap t (p >>= f) := by
  refine Prog.Keeps.bind hp fun t' a ht => ?_
  subst ht
  exact hf a

/-- **Metered programs** are run one after the other. -/
theorem Metered.bind {p : W α} {f : α → W β} (hp : Metered cap π t p)
    (hf : ∀ t a, (π a).Fits cap t → t.raised = false → Metered cap ρ t (f a)) :
    Metered cap ρ t (p >>= f) :=
  Prog.Keeps.bind hp fun t a h => hf t a h.1 h.2

/-- A context that fits the tally may be raised. -/
theorem metered_raise {e : Exc} (h : ctx.Fits cap t) : Metered cap π t (raise ctx e : W α) := h

theorem steady_ret {a : α} : Steady cap t (Prog.ret a : W α) := show t = t from rfl

theorem steady_raise {e : Exc} (h : ctx.Fits cap t) : Steady cap t (raise ctx e : W α) := ⟨rfl, h⟩

theorem steady_ofExcept {x : Except Exc α} (h : ctx.Fits cap t) :
    Steady cap t (Prog.ofExcept (x.mapError fun e => (⟨e, ctx⟩ : Raised)) : W α) := by
  cases x with
  | ok a => exact steady_ret
  | error e => exact steady_raise h

theorem steady_leaseCheck : Steady cap t leaseCheck := ⟨trivial, fun _ _ hn => hn⟩

theorem steady_monotonic : Steady cap t monotonic := ⟨trivial, fun _ _ hn => hn⟩

/-- A request of the stages that is neither a call of the provider nor a flush. -/
def Call.isPlainInner : Call → Bool
  | .generate _ => false
  | .recordUsage _ => false
  | c => c.isInner

/-- A call that generates nothing leaves the tally. -/
theorem Tally.after_call {c : Call} {r : Except Exc c.Val} (h : ∀ req, c ≠ .generate req) :
    t.after (.call c) r = t := by
  cases c with
  | generate req => exact absurd rfl (h req)
  | _ => rfl

/-- Plain calls are steady. -/
theorem steady_call {c : Call} (hctx : ctx.Fits cap t) (hc : c.isPlainInner = true) :
    Steady cap t (call ctx c) := by
  refine ⟨⟨?_, ?_, ?_⟩, fun r t' hn => ?_⟩
  · cases c <;> first | rfl | exact hc
  · rintro req rfl
    cases hc
  · rintro usage rfl
    cases hc
  · obtain rfl : t' = t := by
      refine hn.trans (Tally.after_call ?_)
      rintro req rfl
      cases hc
    cases r with
    | ok v => rfl
    | error e => exact ⟨rfl, hctx⟩

/-- Appending an event that is not terminal is steady. -/
theorem steady_append {type : EventType} {payload : Doc} (hctx : ctx.Fits cap t)
    (ht : type.terminal? = none) : Steady cap t (append ctx type payload) :=
  steady_call hctx (by simp [Call.isPlainInner, Call.isInner, ht])

/-! ## The model step -/

/-- **The budget check** passes only below the cap. -/
theorem steady_precheck {reserve : ℕ} (hctx : ctx.Fits cap t) :
    (precheck ctx reserve).Keeps (ledger cap) (fun t' _ => t' = t ∧ t.count < cap)
      (fun t r => r.ctx.Fits cap t) t := by
  unfold precheck
  refine Prog.Keeps.elim steady_monotonic (fun t' _ ht => ?_) fun t' r hr => ?_
  · subst ht
    dsimp only
    split_ifs with _ hcalls
    · exact hctx
    · exact hctx
    · exact hctx
    · exact hctx
    · exact hctx
    · refine ⟨rfl, ?_⟩
      rw [hctx.1, hctx.2] at hcalls
      omega
  · obtain ⟨rfl, hr⟩ := hr
    exact hr

/-- The one place where the count moves: the caps are read after it did. -/
theorem metered_recordCall {r : ModelResult} (hctx : ctx.Fits cap t) (ht : t.raised = false) :
    Metered cap id { t with count := t.count + 1 } (recordCall ctx r) := by
  have hfits : ({ ctx with budget := ctx.budget.add r } : Ctx).Fits cap
      { t with count := t.count + 1 } :=
    ⟨congrArg (· + 1) hctx.1, hctx.2⟩
  unfold recordCall
  dsimp only
  split_ifs
  · exact hfits
  · exact hfits
  · exact hfits
  · refine steady_monotonic.bind fun _ => ?_
    split_ifs
    · exact hfits
    · exact ⟨hfits, ht⟩

/-- **A call of the provider** is counted, retries included. -/
theorem metered_callProvider {role : Role} {messages : List Doc} {maxOutputTokens attempt : ℕ}
    (hctx : ctx.Fits cap t) (ht : t.raised = false) :
    Metered cap Prod.snd t (callProvider deps ctx role messages maxOutputTokens attempt) := by
  unfold callProvider
  refine Prog.Keeps.bind (steady_precheck hctx) fun t' _ h => ?_
  obtain ⟨rfl, hlt⟩ := h
  -- an answer counts; a call that raised ends the attempt
  refine Prog.Keeps.bind (R := fun s _ => s = { t' with count := t'.count + 1 }) ?_
    fun s result hs => ?_
  · refine Prog.Keeps.handle (E := fun t r => r.ctx.Fits cap t) ?_ fun t r hr => ?_
    · refine ⟨⟨rfl, fun _ _ => ⟨hlt, ht⟩, fun _ h => by cases h⟩, fun r s hn => ?_⟩
      cases r with
      | ok v => exact hn
      | error e =>
          obtain rfl : s = { t' with raised := true } := hn
          exact hctx
    · cases r.exc
      all_goals exact hr
  subst hs
  refine (metered_recordCall hctx ht).bind fun t ctx hctx ht => ?_
  split_ifs
  · exact hctx
  · exact hctx
  · exact ⟨hctx, ht⟩

/-- **A step of a model** counts its calls, repair included. -/
theorem metered_runModelStep {role : Role} (hctx : ctx.Fits cap t) (ht : t.raised = false) :
    Metered cap Prod.snd t (runModelStep deps ctx role) := by
  unfold runModelStep
  refine (steady_ofExcept hctx).bind fun messages => ?_
  refine (metered_callProvider hctx ht).bind fun t first hfirst ht => ?_
  dsimp only
  split
  · exact ⟨hfirst, ht⟩
  · exact ⟨hfirst, ht⟩
  refine (metered_callProvider hfirst ht).bind fun t second hsecond ht => ?_
  split
  · exact ⟨hsecond, ht⟩
  · exact ⟨hsecond, ht⟩
  split_ifs
  · exact hsecond
  · exact hsecond

/-- A flush carries the count of the budget. -/
theorem steady_recordUsage (hctx : ctx.Fits cap t) : Steady cap t (recordUsage ctx) := by
  unfold recordUsage
  refine steady_monotonic.then fun _ => ?_
  dsimp only
  refine Steady.then ?_ fun _ => steady_append hctx rfl
  refine ⟨⟨rfl, ?_, ?_⟩, fun r t' hn => ?_⟩
  · rintro req h
    cases h
  · rintro usage h
    obtain rfl := Call.recordUsage.inj h
    exact hctx.1
  · obtain rfl : t' = t := hn
    cases r with
    | ok v => rfl
    | error e => exact ⟨rfl, hctx⟩

theorem metered_stageModel {role : Role} (hctx : ctx.Fits cap t) (ht : t.raised = false) :
    Metered cap Prod.snd t (stageModel deps ctx role) := by
  unfold stageModel
  refine (metered_runModelStep hctx ht).bind fun t result hfits ht => ?_
  dsimp only
  refine Steady.bind (steady_recordUsage hfits) fun _ => ?_
  refine Steady.bind (steady_ofExcept hfits) fun out => ?_
  exact ⟨hfits, ht⟩

/-! ## The other stages -/

/-- The stage that assembles the evidence is metered. -/
theorem metered_stageAssembleEvidence (hctx : ctx.Fits cap t) (ht : t.raised = false) :
    Metered cap Prod.snd t (stageAssembleEvidence deps ctx) := by
  unfold stageAssembleEvidence
  refine Steady.bind ?_ fun blocks => ?_
  · unfold loadBlocks
    split
    · exact steady_call (c := .loadEvidence) hctx rfl
    · exact steady_ret
  refine (steady_ofExcept hctx).bind fun _ => ?_
  exact ⟨hctx, ht⟩

/-- The stage that persists the proposals is metered. -/
theorem metered_stagePersist (hctx : ctx.Fits cap t) (ht : t.raised = false) :
    Metered cap Prod.snd t (stagePersist ctx) := by
  unfold stagePersist
  refine steady_leaseCheck.bind fun held => ?_
  split_ifs
  · exact (steady_call hctx rfl).bind fun out => ⟨hctx, ht⟩
  · exact hctx

/-- **A stage calls only under the cap**, and its state shows the count. -/
theorem metered_dispatchStage {stage : Stage} (hctx : ctx.Fits cap t) (ht : t.raised = false) :
    Metered cap Prod.snd t (dispatchStage deps ctx stage) := by
  cases stage with
  | validateRequest =>
      simp only [dispatchStage, stageValidateRequest]
      split_ifs
      · exact hctx
      · exact ⟨hctx, ht⟩
      · exact hctx
  | assembleEvidence => exact metered_stageAssembleEvidence hctx ht
  | classify => exact metered_stageModel hctx ht
  | collectCandidates => exact metered_stageModel hctx ht
  | extract mode => exact metered_stageModel hctx ht
  | normalize => exact (steady_ofExcept hctx).bind fun _ => ⟨hctx, ht⟩
  | validate => exact (steady_ofExcept hctx).bind fun _ => ⟨hctx, ht⟩
  | verifyCitations => exact ⟨hctx, ht⟩
  | detectConflicts => exact ⟨hctx, ht⟩
  | persistProposals => exact metered_stagePersist hctx ht

/-! ## Checkpoints and the loop -/

/-- Swallowing the errors of a steady program is steady. -/
theorem SteadyCtx.bestEffort {p : W Ctx} (hp : SteadyCtx cap t p) :
    SteadyCtx cap t (bestEffort p) := by
  refine Prog.Keeps.handle hp fun t' r hr => ?_
  cases r.exc
  all_goals exact hr

/-- A steady program is metered. -/
theorem SteadyCtx.metered {p : W Ctx} (hp : SteadyCtx cap t p) (ht : t.raised = false) :
    Metered cap id t p := by
  refine hp.mono (fun t' ctx h => ?_) fun t' r h => ?_
  · obtain ⟨rfl, h⟩ := h
    exact ⟨h, ht⟩
  · obtain ⟨rfl, h⟩ := h
    exact h

/-- Rejecting a checkpoint is metered. -/
theorem metered_rejectCheckpoint {row : StageRecord} {reason message : String}
    (hctx : ctx.Fits cap t) (ht : t.raised = false) :
    Metered cap id t (rejectCheckpoint deps ctx row reason message) := by
  unfold rejectCheckpoint
  refine Steady.bind ?_ fun _ => ?_
  · unfold rejectIfDurable
    split
    · exact steady_call (c := .rejectLoaded row) hctx rfl
    · exact steady_ret
  · refine SteadyCtx.metered (SteadyCtx.bestEffort ?_) ht
    exact (steady_append hctx rfl).thenCtx fun _ => ⟨rfl, hctx⟩

theorem metered_isRecoverable {row : StageRecord} (hctx : ctx.Fits cap t) (ht : t.raised = false) :
    Metered cap Prod.snd t (isRecoverable deps ctx row) := by
  unfold isRecoverable
  split
  · split_ifs
    · exact (metered_rejectCheckpoint hctx ht).bind fun t ctx h ht => ⟨h, ht⟩
    · exact ⟨hctx, ht⟩
  · dsimp only
    split_ifs
    · exact ⟨hctx, ht⟩
    · exact (metered_rejectCheckpoint hctx ht).bind fun t ctx h ht => ⟨h, ht⟩

/-- The record of a failure makes no call, whatever the failure was. -/
theorem steadyCtx_recordStageFailure {stage : Stage} {inputHash : String} {exc : Exc}
    (hctx : ctx.Fits cap t) :
    SteadyCtx cap t (recordStageFailure deps ctx stage inputHash exc) := by
  refine SteadyCtx.bestEffort ?_
  refine steady_leaseCheck.thenCtx fun held => ?_
  split_ifs
  · refine (steady_call hctx rfl).thenCtx fun _ => ?_
    refine Steady.thenCtx ?_ fun _ => ?_
    · exact steady_append hctx rfl
    · exact ⟨rfl, hctx⟩
  · exact ⟨rfl, hctx⟩

theorem steady_boundary (hctx : ctx.Fits cap t) : Steady cap t (boundary ctx) := by
  refine steady_leaseCheck.then fun held => ?_
  split_ifs
  · refine Steady.then (p := cancelCheck ctx) (steady_call hctx rfl) fun c => ?_
    split_ifs
    · exact steady_raise hctx
    · refine steady_monotonic.then fun _ => ?_
      split_ifs
      · exact steady_raise hctx
      · exact steady_ret
  · exact steady_raise hctx

theorem steady_commitFence {stage : Stage} (hctx : ctx.Fits cap t) :
    Steady cap t (commitFence ctx stage) := by
  refine steady_leaseCheck.then fun held => ?_
  split_ifs
  · refine Steady.then (p := cancelCheck ctx) (steady_call hctx rfl) fun c => ?_
    split_ifs
    · exact steady_raise hctx
    · exact steady_ret
  · exact steady_raise hctx

/-- Committing a stage is steady. -/
theorem steady_commitStage {row : StageRecord} {payload : Doc} (hctx : ctx.Fits cap t) :
    Steady cap t (commitStage deps ctx row payload) := by
  unfold commitStage
  split
  · exact steady_call (c := .commitAtomic row payload) hctx rfl
  · refine Steady.then (steady_call (c := .commitSucceeded row) hctx rfl) fun committed => ?_
    exact (steady_append hctx rfl).then fun _ => steady_ret

/-- **Executing a stage** counts its calls. -/
theorem metered_executeStage {stage : Stage} {inputHash : String} (hctx : ctx.Fits cap t)
    (ht : t.raised = false) : Metered cap id t (executeStage deps ctx stage inputHash) := by
  unfold executeStage
  refine (steady_append hctx rfl).bind fun _ => ?_
  refine Metered.bind (π := Prod.snd) ?_ fun t out hout ht => ?_
  · refine Prog.Keeps.handle (metered_dispatchStage hctx ht) fun t r hr => ?_
    -- the failure is recorded in the state it left, and raised again
    refine Prog.Keeps.elim (steadyCtx_recordStageFailure hr) (fun t' ctx h => ?_) fun t' r h => ?_
    · obtain ⟨rfl, h⟩ := h
      exact h
    · obtain ⟨rfl, h⟩ := h
      exact h
  refine (steady_commitFence hout).bind fun _ => ?_
  refine (steady_commitStage hout).bind fun committed => ?_
  dsimp only
  split
  · exact ⟨hout, ht⟩
  · split_ifs
    · exact hout
    · exact ⟨hout, ht⟩

/-- **Running a stage**, recovered or executed, counts its calls. -/
theorem metered_runStage {stage : Stage} (hctx : ctx.Fits cap t) (ht : t.raised = false) :
    Metered cap id t (runStage deps ctx stage) := by
  unfold runStage
  refine (steady_call hctx rfl).bind fun existing => ?_
  split
  · exact metered_executeStage hctx ht
  split_ifs
  · exact metered_executeStage hctx ht
  refine (metered_isRecoverable hctx ht).bind fun t out hout ht => ?_
  dsimp only
  split_ifs
  · refine Steady.bind (steady_ofExcept hout) fun state => ?_
    exact ⟨hout, ht⟩
  · exact metered_executeStage hout ht

/-- **The loop over the stages keeps the ledger.** -/
theorem metered_runStages {stages : List Stage} (hctx : ctx.Fits cap t) (ht : t.raised = false) :
    Metered cap id t (runStages deps ctx stages) := by
  induction stages generalizing t ctx with
  | nil => exact ⟨hctx, ht⟩
  | cons stage stages ih =>
      rw [runStages]
      refine (steady_boundary hctx).bind fun _ => ?_
      split_ifs
      · exact ih hctx ht
      · exact (metered_runStage hctx ht).bind fun t ctx hctx ht => ih hctx ht

/-- Flushing the usage makes no call of a provider. -/
theorem steady_flushUsage (hctx : ctx.Fits cap t) : Steady cap t (flushUsage ctx) := by
  refine steady_leaseCheck.then fun held => ?_
  split_ifs
  · exact steady_recordUsage hctx
  · exact steady_ret

end Extraction
