/-
# The call cap of a run

The calls counted on the row of a run, under any number of attempts of it.

* An attempt loads the row's count, adds its own calls, and flushes its total; the row keeps the
  greatest total it was given.
* `UsageRow` adds to the count what each attempt loaded, called and flushed, and which attempts had
  ended when it loaded.
* `calls_within_cap`: while every attempt loads after all others ended with their calls flushed, no
  call is lost and the attempts together stay under the cap.
-/
import EvidenceLab.RunLog

namespace Extraction

open Effects Transitions Pool

/-! ## The system -/

/-- What one attempt did to the usage. -/
structure Attempt where
  id : ℕ
  /-- The count it loaded. -/
  loaded : ℕ
  /-- The calls of the provider it made. -/
  made : ℕ
  /-- The calls of its own in the last total it flushed. -/
  flushed : Option ℕ
  /-- The attempts that had ended when it loaded. -/
  after : List ℕ
  deriving DecidableEq

def Attempt.own (a : Attempt) : ℕ := a.flushed.getD 0

/-- `extraction_runs.calls_used`, and the attempts, newest first. -/
structure UsageRow where
  callsUsed : ℕ
  attempts : List Attempt
  deriving DecidableEq

namespace UsageRow

/-- `load_usage`. -/
def load (d : UsageRow) (w : ℕ) (ended : List ℕ) : UsageRow :=
  { d with attempts := ⟨w, d.callsUsed, 0, none, ended⟩ :: d.attempts }

def update (d : UsageRow) (w : ℕ) (f : Attempt → Attempt) : UsageRow :=
  { d with attempts := d.attempts.map fun a => if a.id = w then f a else a }

/-- One call of the provider. -/
def called (d : UsageRow) (w : ℕ) : UsageRow := d.update w fun a => { a with made := a.made + 1 }

/-- `record_usage`: `calls_used = GREATEST(calls_used, …)`. -/
def flush (d : UsageRow) (w total : ℕ) : UsageRow :=
  { d.update w fun a => { a with flushed := some (total - a.loaded) } with
    callsUsed := max d.callsUsed total }

end UsageRow

/-- The attempts of the row that ended. -/
def endedAttempts (s : Config workflowSig Raised Ctx UsageRow) : List ℕ :=
  (s.db.attempts.map Attempt.id).filter fun v => (s.next v).isNone

/-- The answer to a request that can raise: only three of them touch the usage. -/
def serveUsage (s : Config workflowSig Raised Ctx UsageRow) (w : ℕ) (x : Choice) :
    (c : Call) → Except Exc c.Val → UsageRow × Except Exc c.Val
  | .loadUsage, .ok usage =>
      (s.db.load w (endedAttempts s), .ok { usage with callsUsed := s.db.callsUsed })
  | .generate _, r => (s.db.called w, r)
  | .recordUsage usage, .ok v => (s.db.flush w usage.callsUsed, .ok v)
  | .recordUsage usage, .error e =>
      (if x.landed then s.db.flush w usage.callsUsed else s.db, .error e)
  | _, r => (s.db, r)

/-- An attempt of the run in slot `w`. -/
structure Delivery (Ontology : Type) where
  w : ℕ
  deps : Deps Ontology
  evidence : List EvidenceBlock

variable {Ontology : Type}

/-- The attempts of a run with the pinned cap.  A slot serves one attempt. -/
def usageMachine (Ontology : Type) (cap : ℕ) :
    Machine workflowSig Raised Ctx UsageRow Choice (Delivery Ontology) where
  serve s w
    | .leaseCheck, x => some (s.db, x.answer .leaseCheck)
    | .monotonic, x => some (s.db, x.answer .monotonic)
    | .call c, x => some (serveUsage s w x c (x.answer (.call c)))
  other d y :=
    if d.attempts.any (·.id == y.w) ∨ y.deps.request.maxCalls ≠ cap then none
    else some (d, some (y.w, runExtractionWorkflow y.deps y.evidence))

def startOfUsage : Config workflowSig Raised Ctx UsageRow := ⟨⟨0, []⟩, fun _ => none⟩

/-! ## The property and the condition -/

/-- `v` did not start after `w` ended. -/
def Attempt.notAfter (v w : Attempt) : Bool := v.id != w.id && !v.after.contains w.id

/-- An attempt loads at least what the earlier and the concurrent ones flushed, and those that
flushed made no more calls than the cap. -/
structure UsageRow.Bounded (cap : ℕ) (d : UsageRow) : Prop where
  loaded : ∀ w ∈ d.attempts, ((d.attempts.filter (·.notAfter w)).map Attempt.own).sum ≤ w.loaded
  total : ((d.attempts.filter (·.flushed.isSome)).map Attempt.made).sum ≤ cap

/-- An attempt loads only when every other one has ended, and each of these that flushed has flushed
all its calls. -/
def LoadsAlone (s : Config workflowSig Raised Ctx UsageRow) : Act Choice (Delivery Ontology) → Prop
  | .serve w _ => s.next w = some (.call .loadUsage) → ∀ v ∈ s.db.attempts,
      s.next v.id = none ∧ (v.flushed = none ∨ v.flushed = some v.made)
  | _ => True

/-- The next request loads the usage. -/
def loadsNext : Option workflowSig.Op → Bool
  | some (.call .loadUsage) => true
  | _ => false

/-- A program loads the usage next. -/
theorem loadsNext_iff {o : Option workflowSig.Op} :
    loadsNext o = true ↔ o = some (.call .loadUsage) := by
  constructor
  · intro h
    unfold loadsNext at h
    split at h
    · rfl
    · cases h
  · rintro rfl
    rfl

/-- Whether an attempt may load can be decided. -/
instance decidableLoadsAlone (s : Config workflowSig Raised Ctx UsageRow) :
    (a : Act Choice (Delivery Ontology)) → Decidable (LoadsAlone s a)
  | .serve w _ =>
      decidable_of_iff (loadsNext (s.next w) = true → ∀ v ∈ s.db.attempts,
        (s.next v.id).isNone = true ∧ (v.flushed = none ∨ v.flushed = some v.made))
        (by rw [loadsNext_iff]; simp only [LoadsAlone, Option.isNone_iff_eq_none])
  | .crash _ => isTrue trivial
  | .other _ => isTrue trivial

/-! ## The contract of an attempt -/

/-- The tally starts with the usage that was loaded. -/
def meteringAfter : Option Tally → (o : workflowSig.Op) → workflowSig.Ans o → Option Tally
  | some t, o, r => some (t.after o r)
  | none, .call .loadUsage, .ok usage => some ⟨usage.callsUsed, false⟩
  | none, _, _ => none

/-- The usage is loaded first and once; a call goes out only under the cap and not after one that
raised; a flush carries the count. -/
def meteringAllows (cap : ℕ) : Option Tally → Op → Prop
  | none, o => o = .call .loadUsage
  | some t, o => o ≠ .call .loadUsage
      ∧ (∀ req, o = .call (.generate req) → t.count < cap ∧ t.raised = false)
      ∧ ∀ usage, o = .call (.recordUsage usage) → usage.callsUsed = t.count

def metering (cap : ℕ) : Contract workflowSig (Option Tally) where
  allowed g o := meteringAllows cap g o
  next g o r g' := g' = meteringAfter g o r

variable {deps : Deps Ontology} {cap : ℕ} {t : Tally} {ctx : Ctx}

/-- What keeps the ledger keeps the metering, once the usage is loaded. -/
theorem metering_of_ledger {α : Type} {p : W α} {R : Tally → α → Prop} {E : Tally → Raised → Prop}
    (hp : p.Keeps (ledger cap) R E t) :
    p.Keeps (metering cap) (fun g a => ∃ t, g = some t ∧ R t a) (fun g r => ∃ t, g = some t ∧ E t r)
      (some t) := by
  refine (hp.transfer (fun t g => g = some t) rfl ?_ ?_).mono (fun _ _ h => h) fun _ _ h => h
  · rintro t _ o rfl ha
    refine ⟨?_, ?_, ?_⟩
    · rintro rfl
      cases ha.1
    · rintro req rfl
      exact ha.2.1 req rfl
    · rintro usage rfl
      exact ha.2.2 usage rfl
  · rintro t _ o r g' rfl - rfl
    exact ⟨_, rfl, rfl⟩

/-- The program asks nothing about the usage. -/
abbrev Unmetered {α : Type} (cap : ℕ) (g : Option Tally) (p : W α) : Prop :=
  p.Keeps (metering cap) (fun g _ => g.isSome = true) (fun g _ => g.isSome = true) g

variable {g : Option Tally}

/-- Calls other than of the provider and the usage are not metered. -/
theorem unmetered_ask {c : Call} (hg : g.isSome = true) (hload : c ≠ .loadUsage)
    (hcall : ∀ req, c ≠ .generate req) (hflush : ∀ usage, c ≠ .recordUsage usage) :
    Unmetered cap g (call ctx c) := by
  obtain ⟨t, rfl⟩ := Option.isSome_iff_exists.mp hg
  refine ⟨⟨?_, ?_, ?_⟩, fun r g' hn => ?_⟩
  · exact fun h => hload (Op.call.inj h)
  · exact fun req h => absurd (Op.call.inj h) (hcall req)
  · exact fun usage h => absurd (Op.call.inj h) (hflush usage)
  · have hg' : g'.isSome = true := by rw [hn]; rfl
    cases r with
    | ok v => exact hg'
    | error e => exact hg'

theorem unmetered_append {type : EventType} {payload : Doc} (hg : g.isSome = true) :
    Unmetered cap g (append ctx type payload) :=
  unmetered_ask hg (by simp) (by simp) (by simp)

theorem unmetered_setRunStatus {status : RunStatus} {error : Option Doc} (hg : g.isSome = true) :
    Unmetered cap g (call ctx (.setRunStatus status error)) :=
  unmetered_ask hg (by simp) (by simp) (by simp)

theorem unmetered_leaseCheck (hg : g.isSome = true) : Unmetered cap g leaseCheck := by
  obtain ⟨t, rfl⟩ := Option.isSome_iff_exists.mp hg
  refine ⟨⟨by simp, by simp, by simp⟩, fun r g' hn => ?_⟩
  rw [hn]
  rfl

/-- Completing a run is not metered. -/
theorem unmetered_finalizeSuccess (hg : g.isSome = true) :
    Unmetered cap g (finalizeSuccess ctx) := by
  refine Prog.Keeps.bind (unmetered_leaseCheck hg) fun g held hg => ?_
  split_ifs
  · refine (unmetered_append hg).bind fun g _ hg => ?_
    exact (unmetered_setRunStatus hg).bind fun g _ hg => hg
  · refine (unmetered_setRunStatus hg).bind fun g _ hg => ?_
    exact (unmetered_append hg).bind fun g _ hg => hg
  · exact hg

/-- Closing a run is not metered. -/
theorem unmetered_closeRun {type : EventType} {status : RunStatus} {code message : String}
    (hg : g.isSome = true) : Unmetered cap g (closeRun ctx status type code message) := by
  refine Prog.Keeps.bind (unmetered_leaseCheck hg) fun g held hg => ?_
  split_ifs
  · refine (unmetered_append hg).bind fun g _ hg => ?_
    exact (unmetered_setRunStatus hg).bind fun g _ hg => hg
  · exact hg

/-- Answering an exception is not metered. -/
theorem unmetered_onException {r : Raised} (hg : g.isSome = true) :
    Unmetered cap g (onException r) := by
  unfold onException
  cases r.exc with
  | leaseLost m => exact hg
  | cancelled m => exact unmetered_closeRun hg
  | runAlreadyTerminal runId status => exact unmetered_closeRun hg
  | extraction code m => exact unmetered_closeRun hg
  | permanentFailure m => exact (unmetered_closeRun hg).bind fun g _ hg => hg
  | untyped type m => exact (unmetered_closeRun hg).bind fun g _ hg => hg
  | base type => exact hg

/-- A flush when the count is known. -/
theorem unmetered_flushUsage (hctx : ctx.Fits cap t) : Unmetered cap (some t) (flushUsage ctx) := by
  refine (metering_of_ledger (steady_flushUsage hctx)).mono ?_ ?_
  · rintro _ _ ⟨t, rfl, -⟩
    rfl
  · rintro _ _ ⟨t, rfl, -⟩
    rfl

/-- **The body of the workflow** is not metered again after its own calls. -/
theorem unmetered_runBody (hctx : ctx.Fits cap t) (ht : t.raised = false) :
    Unmetered cap (some t) (runBody deps ctx) := by
  have hstages : Metered cap id t (if deps.request.workflowVersion ≠ workflowVersion then
      raise ctx (.stepFailed ("unsupported workflow version: " ++ deps.request.workflowVersion))
      else runStages deps ctx stageOrder) := by
    split_ifs
    · exact metered_raise hctx
    · exact metered_runStages hctx ht
  refine Prog.Keeps.elim (metering_of_ledger hstages) ?_ ?_
  · rintro _ ctx ⟨t, rfl, hctx, -⟩
    exact (unmetered_flushUsage hctx).bind fun g _ hg => unmetered_finalizeSuccess hg
  · rintro _ r ⟨t, rfl, hctx⟩
    exact (unmetered_flushUsage hctx).bind fun g _ hg => hg

/-- **An attempt meters its calls**, from the usage it loads. -/
theorem metering_runExtractionWorkflow {evidence : List EvidenceBlock} :
    Within (metering deps.request.maxCalls) none (runExtractionWorkflow deps evidence) := by
  unfold runExtractionWorkflow
  refine Prog.Keeps.bind (R := fun g (usage : Usage) => g = some ⟨usage.callsUsed, false⟩)
    ⟨rfl, fun r g' hn => ?_⟩ fun g usage hg => ?_
  · cases r with
    | ok usage => exact hn
    | error e => trivial
  subst hg
  have hctx : (initialCtx deps.request evidence usage).Fits deps.request.maxCalls
      ⟨usage.callsUsed, false⟩ := ⟨rfl, rfl⟩
  refine Prog.Keeps.mono (R := fun g _ => g.isSome = true) (E := fun g _ => g.isSome = true) ?_
    (fun _ _ _ => trivial) fun _ _ _ => trivial
  refine Prog.Keeps.elim (metering_of_ledger (steady_append hctx rfl)) ?_ ?_
  · rintro _ _ ⟨_, rfl, rfl⟩
    exact (unmetered_runBody hctx rfl).handle fun g r hg => unmetered_onException hg
  · rintro _ r ⟨_, rfl, -⟩
    rfl

/-! ## The invariant -/

/-- Each attempt loaded at least what the older ones flushed. -/
def Paid : List Attempt → Prop
  | [] => True
  | a :: old => (old.map Attempt.own).sum ≤ a.loaded ∧ Paid old

structure UsageRow.Ok (cap : ℕ) (d : UsageRow) : Prop where
  nodup : (d.attempts.map Attempt.id).Nodup
  bounded : d.callsUsed ≤ cap
  sequential : d.attempts.Pairwise fun a old => old.id ∈ a.after
  settled : ∀ a ∈ d.attempts.tail, a.flushed = none ∨ a.flushed = some a.made
  paid : Paid d.attempts
  row : (d.attempts.map Attempt.own).sum ≤ d.callsUsed
  newest : ∀ a old, d.attempts = a :: old → a.loaded + a.made ≤ cap

/-- An attempt at work that has loaded is the newest one, and its calls are those of its tally. -/
def UsageRow.Tallied (cap : ℕ) (d : UsageRow) (w : ℕ) : Option Tally → Prop
  | none => ∀ a ∈ d.attempts, a.id ≠ w
  | some t => ∃ a old, d.attempts = a :: old ∧ a.id = w ∧ a.loaded ≤ t.count ∧ t.count ≤ cap
      ∧ a.loaded + a.made = t.count + (if t.raised then 1 else 0)
        ∧ (t.raised = true → t.count < cap)

variable {d : UsageRow} {a a' : Attempt} {old : List Attempt}

/-- The calls of settled attempts add up to their own counts. -/
theorem made_of_settled {l : List Attempt}
    (h : ∀ a ∈ l, a.flushed = none ∨ a.flushed = some a.made) :
    ((l.filter (·.flushed.isSome)).map Attempt.made).sum = (l.map Attempt.own).sum := by
  induction l with
  | nil => rfl
  | cons a l ih =>
      have ih := ih fun b hb => h b (List.mem_cons_of_mem a hb)
      rcases h a (List.mem_cons_self ..) with ha | ha
      · simp [ha, ih, Attempt.own]
      · simp [ha, ih, Attempt.own]

/-- In a sequential list the attempts that are not later than `w` are the older ones. -/
theorem sum_notAfter_le {l : List Attempt} (hp : Paid l) (hn : (l.map Attempt.id).Nodup)
    (hs : l.Pairwise fun a old => old.id ∈ a.after) {w : Attempt} (hw : w ∈ l) :
    ((l.filter (·.notAfter w)).map Attempt.own).sum ≤ w.loaded := by
  induction l with
  | nil => cases hw
  | cons a l ih =>
      rw [List.map_cons, List.nodup_cons] at hn
      rw [List.pairwise_cons] at hs
      rcases List.mem_cons.mp hw with rfl | hw
      · have ha : w.notAfter w = false := by simp [Attempt.notAfter]
        rw [List.filter_cons_of_neg (by simp [ha])]
        refine le_trans ?_ hp.1
        exact (List.Sublist.map Attempt.own List.filter_sublist).sum_le_sum fun _ _ => Nat.zero_le _
      · have ha : a.notAfter w = false := by simp [Attempt.notAfter, hs.1 w hw]
        rw [List.filter_cons_of_neg (by simp [ha])]
        exact ih hp.2 hn.2 hs.2 hw

/-- **The invariant gives the bounds.** -/
theorem UsageRow.Ok.toBounded (h : d.Ok cap) : d.Bounded cap := by
  refine ⟨fun w hw => sum_notAfter_le h.paid h.nodup h.sequential hw, ?_⟩
  cases hd : d.attempts with
  | nil => exact Nat.zero_le cap
  | cons a old =>
      have hsettled := h.settled
      have hpaid := h.paid
      rw [hd] at hsettled hpaid
      have hold := made_of_settled hsettled
      have hnewest := h.newest a old hd
      have hloaded := hpaid.1
      simp only [List.tail_cons] at hold
      rw [List.filter_cons]
      split_ifs
      · rw [List.map_cons, List.sum_cons, hold]
        omega
      · rw [hold]
        omega

/-! ## Steps -/

/-- The newest attempt is updated. -/
theorem update_newest (hn : (d.attempts.map Attempt.id).Nodup) (hd : d.attempts = a :: old)
    (f : Attempt → Attempt) : (d.update a.id f).attempts = f a :: old := by
  rw [hd, List.map_cons, List.nodup_cons] at hn
  have hold : ∀ b ∈ old, (if b.id = a.id then f b else b) = b := by
    intro b hb
    refine if_neg fun h : b.id = a.id => hn.1 ?_
    exact h ▸ List.mem_map_of_mem hb
  simp only [UsageRow.update, hd, List.map_cons, if_pos]
  rw [List.map_congr_left hold, List.map_id']

/-- A change of the newest attempt's calls and flush. -/
theorem UsageRow.Ok.newest_update (h : d.Ok cap) (hd : d.attempts = a :: old) {callsUsed : ℕ}
    (hid : a'.id = a.id) (hloaded : a'.loaded = a.loaded) (hafter : a'.after = a.after)
    (hmade : a'.loaded + a'.made ≤ cap) (hcap : callsUsed ≤ cap)
    (hrow : a'.own + (old.map Attempt.own).sum ≤ callsUsed) :
    UsageRow.Ok cap ⟨callsUsed, a' :: old⟩ := by
  obtain ⟨hnodup, -, hseq, hsettled, hpaid, -, -⟩ := h
  rw [hd] at hnodup hseq hsettled hpaid
  rw [List.pairwise_cons] at hseq
  refine ⟨?_, hcap, ?_, hsettled, ⟨?_, hpaid.2⟩, ?_, ?_⟩
  · simpa [hid] using hnodup
  · rw [List.pairwise_cons]
    exact ⟨fun b hb => hafter ▸ hseq.1 b hb, hseq.2⟩
  · exact hloaded ▸ hpaid.1
  · simpa using hrow
  · rintro b old' hb
    obtain ⟨rfl, -⟩ := List.cons.inj hb
    exact hmade

/-- The tie of a slot that has not loaded says nothing that a change of the newest attempt could
break. -/
theorem tallied_none_of_ids {d' : UsageRow} {w : ℕ}
    (h : ∀ b ∈ d'.attempts, ∃ a ∈ d.attempts, a.id = b.id) (ht : d.Tallied cap w none) :
    d'.Tallied cap w none := by
  intro b hb
  obtain ⟨a, ha, hid⟩ := h b hb
  exact hid ▸ ht a ha

/-- Only one slot can be tied to the newest attempt. -/
theorem tallied_newest {v : ℕ} {g : Option Tally} (hd : d.attempts = a :: old) (hv : v ≠ a.id)
    {callsUsed : ℕ} (hid : a'.id = a.id) (h : d.Tallied cap v g) :
    UsageRow.Tallied cap ⟨callsUsed, a' :: old⟩ v g := by
  cases g with
  | none =>
      refine tallied_none_of_ids (fun b hb => ?_) h
      rcases List.mem_cons.mp hb with rfl | hb
      · exact ⟨a, by simp [hd], hid.symm⟩
      · exact ⟨b, by simp [hd, hb], rfl⟩
  | some t =>
      obtain ⟨b, old', hb, rfl, -⟩ := h
      rw [hd] at hb
      exact absurd (List.cons.inj hb).1 (fun h => hv (h ▸ rfl))

/-- The load of an attempt that is alone. -/
theorem load_sound {w : ℕ} {ended : List ℕ} (h : d.Ok cap) (hw : d.Tallied cap w none)
    (hended : ∀ v ∈ d.attempts, v.id ∈ ended)
    (hsettled : ∀ v ∈ d.attempts, v.flushed = none ∨ v.flushed = some v.made) :
    (d.load w ended).Ok cap ∧ (d.load w ended).Tallied cap w (some ⟨d.callsUsed, false⟩) := by
  refine ⟨⟨?_, h.bounded, ?_, hsettled, ⟨h.row, h.paid⟩, ?_, ?_⟩, ?_⟩
  · show (w :: d.attempts.map Attempt.id).Nodup
    refine List.nodup_cons.mpr ⟨fun hmem => ?_, h.nodup⟩
    obtain ⟨a, ha, rfl⟩ := List.mem_map.mp hmem
    exact hw a ha rfl
  · show List.Pairwise _ (_ :: d.attempts)
    exact List.pairwise_cons.mpr ⟨hended, h.sequential⟩
  · show (0 + (d.attempts.map Attempt.own).sum) ≤ d.callsUsed
    have := h.row
    omega
  · rintro a old ha
    obtain ⟨rfl, -⟩ := List.cons.inj ha
    exact h.bounded
  · exact ⟨_, d.attempts, rfl, rfl, le_refl _, h.bounded, rfl, fun h => by cases h⟩

/-- A call of the newest attempt, which its tally allows. -/
theorem called_sound {w : ℕ} {t t' : Tally} (h : d.Ok cap) (hw : d.Tallied cap w (some t))
    (hlt : t.count < cap) (hr : t.raised = false)
    (ht' : t' = { t with count := t.count + 1 } ∨ t' = { t with raised := true }) :
    (d.called w).Ok cap ∧ (d.called w).Tallied cap w (some t')
      ∧ ∀ v g, v ≠ w → d.Tallied cap v g → (d.called w).Tallied cap v g := by
  obtain ⟨a, old, hd, rfl, hle, hcap, hmade, -⟩ := hw
  have hcalled : d.called a.id = ⟨d.callsUsed, { a with made := a.made + 1 } :: old⟩ := by
    show UsageRow.mk _ (d.called a.id).attempts = _
    rw [UsageRow.called, update_newest h.nodup hd]
  rw [hr] at hmade
  have hrow := h.row
  rw [hd, List.map_cons, List.sum_cons] at hrow
  rw [hcalled]
  refine ⟨h.newest_update hd rfl rfl rfl ?_ h.bounded hrow, ?_, fun v g hv hg =>
    tallied_newest hd hv rfl hg⟩
  · show a.loaded + (a.made + 1) ≤ cap
    simp only [Bool.false_eq_true, if_false] at hmade
    omega
  · refine ⟨_, old, rfl, rfl, ?_⟩
    rcases ht' with rfl | rfl
    · refine ⟨Nat.le_succ_of_le hle, hlt, ?_, fun h => absurd (hr ▸ h) (by simp)⟩
      show a.loaded + (a.made + 1) = t.count + 1 + _
      rw [hr]
      omega
    · refine ⟨hle, hcap, ?_, fun _ => hlt⟩
      show a.loaded + (a.made + 1) = t.count + 1
      simp only [Bool.false_eq_true, if_false] at hmade
      omega

/-- A flush of the newest attempt, which carries its count. -/
theorem flush_sound {w : ℕ} {t : Tally} (h : d.Ok cap) (hw : d.Tallied cap w (some t)) :
    (d.flush w t.count).Ok cap ∧ ∀ v g, d.Tallied cap v g →
    (d.flush w t.count).Tallied cap v g := by
  obtain ⟨a, old, hd, rfl, hle, hcap, hmade, hraised⟩ := hw
  have hflush : d.flush a.id t.count
      = ⟨max d.callsUsed t.count, { a with flushed := some (t.count - a.loaded) } :: old⟩ := by
    show UsageRow.mk _ (d.update a.id _).attempts = _
    rw [update_newest h.nodup hd]
  have hpaid := h.paid
  rw [hd] at hpaid
  have hbounded := h.bounded
  rw [hflush]
  constructor
  · refine h.newest_update hd rfl rfl rfl (h.newest a old hd) (by omega) ?_
    show t.count - a.loaded + (old.map Attempt.own).sum ≤ max d.callsUsed t.count
    have := hpaid.1
    omega
  · intro v g hg
    by_cases hv : v = a.id
    · subst hv
      cases g with
      | none => exact absurd rfl (hg a (by simp [hd]))
      | some t' =>
          obtain ⟨b, old', hb, -, hrest⟩ := hg
          rw [hd] at hb
          obtain ⟨rfl, rfl⟩ := List.cons.inj hb
          exact ⟨_, old, rfl, rfl, hrest⟩
    · exact tallied_newest hd hv rfl hg

/-- The first request of an attempt. -/
theorem serveUsage_load {s : Config workflowSig Raised Ctx UsageRow} {w : ℕ} {x : Choice}
    {r : Except Exc Call.loadUsage.Val} (hd : s.db.Ok cap) (hg : s.db.Tallied cap w none)
    (halone : ∀ v ∈ s.db.attempts, s.next v.id = none
      ∧ (v.flushed = none ∨ v.flushed = some v.made)) :
    (serveUsage s w x .loadUsage r).1.Ok cap
      ∧ (serveUsage s w x .loadUsage r).1.Tallied cap w
          (meteringAfter none (.call .loadUsage) (serveUsage s w x .loadUsage r).2)
      ∧ ∀ v f, v ≠ w → (s.next v).isSome = true → s.db.Tallied cap v f →
          (serveUsage s w x .loadUsage r).1.Tallied cap v f := by
  cases r with
  | error e => exact ⟨hd, hg, fun v f _ _ hf => hf⟩
  | ok usage =>
      have hended : ∀ v ∈ s.db.attempts, v.id ∈ endedAttempts s := by
        intro v hv
        rw [endedAttempts, List.mem_filter, (halone v hv).1]
        exact ⟨List.mem_map_of_mem hv, rfl⟩
      obtain ⟨hok, htie⟩ := load_sound hd hg hended fun v hv => (halone v hv).2
      refine ⟨hok, htie, fun v f hv hwork hf => ?_⟩
      -- a slot at work has no attempt of its own yet
      cases f with
      | none =>
          intro a ha
          rcases List.mem_cons.mp ha with rfl | ha
          · exact fun h => hv h.symm
          · exact hf a ha
      | some t =>
          obtain ⟨a, old, ha, rfl, -⟩ := hf
          rw [(halone a (by simp [ha])).1] at hwork
          cases hwork

/-- Every later request of an attempt. -/
theorem serveUsage_sound {s : Config workflowSig Raised Ctx UsageRow} {w : ℕ} {x : Choice}
    {c : Call} {r : Except Exc c.Val} (hd : s.db.Ok cap) (hg : s.db.Tallied cap w (some t))
    (hallow : meteringAllows cap (some t) (.call c)) :
    (serveUsage s w x c r).1.Ok cap
      ∧ (serveUsage s w x c r).1.Tallied cap w
          (some (t.after (.call c) (serveUsage s w x c r).2))
      ∧ ∀ v f, v ≠ w → s.db.Tallied cap v f → (serveUsage s w x c r).1.Tallied cap v f := by
  obtain ⟨hload, hcall, hflush⟩ := hallow
  cases c with
  | loadUsage => exact absurd rfl hload
  | generate req =>
      obtain ⟨hlt, hraised⟩ := hcall req rfl
      cases r with
      | ok v => exact called_sound hd hg hlt hraised (.inl rfl)
      | error e => exact called_sound hd hg hlt hraised (.inr rfl)
  | recordUsage usage =>
      obtain ⟨hok, hties⟩ := flush_sound hd hg
      rw [← hflush usage rfl] at hok hties
      cases r with
      | ok v => exact ⟨hok, hties w _ hg, fun v f _ hf => hties v f hf⟩
      | error e =>
          rw [serveUsage]
          cases x.landed with
          | true => exact ⟨hok, hties w _ hg, fun v f _ hf => hties v f hf⟩
          | false => exact ⟨hd, hg, fun v f _ hf => hf⟩
  | _ => exact ⟨hd, hg, fun v f _ hf => hf⟩

/-- **Every step of attempts that load alone** keeps the count. -/
theorem sound_usageMachine :
    Sound (usageMachine Ontology cap) (metering cap) LoadsAlone (UsageRow.Ok cap)
      (UsageRow.Tallied cap) where
  serve := by
    intro s w x o g d r hd hnext halone hg hallow h
    cases g with
    | none =>
        obtain rfl : o = .call .loadUsage := hallow
        obtain ⟨rfl, rfl⟩ := Prod.mk.inj (Option.some.inj h)
        obtain ⟨hok, htie, hrest⟩ := serveUsage_load (x := x) hd hg (halone hnext)
        exact ⟨hok, ⟨_, rfl, htie⟩, hrest⟩
    | some t =>
        cases o with
        | leaseCheck =>
            obtain ⟨rfl, rfl⟩ := Prod.mk.inj (Option.some.inj h)
            exact ⟨hd, ⟨some t, rfl, hg⟩, fun v f _ _ hf => hf⟩
        | monotonic =>
            obtain ⟨rfl, rfl⟩ := Prod.mk.inj (Option.some.inj h)
            exact ⟨hd, ⟨some t, rfl, hg⟩, fun v f _ _ hf => hf⟩
        | call c =>
            obtain ⟨rfl, rfl⟩ := Prod.mk.inj (Option.some.inj h)
            obtain ⟨hok, htie, hrest⟩ := serveUsage_sound (x := x) hd hg hallow
            exact ⟨hok, ⟨_, rfl, htie⟩, fun v f hv _ hf => hrest v f hv hf⟩
  other := by
    intro s y d p hd _ h
    rw [usageMachine] at h
    dsimp only at h
    split_ifs at h with hcond
    obtain ⟨rfl, rfl⟩ := Prod.mk.inj (Option.some.inj h)
    rw [not_or, not_not] at hcond
    obtain ⟨hfresh, hcap⟩ := hcond
    refine ⟨hd, fun v g hg => hg, ?_⟩
    rintro w q hq
    obtain ⟨rfl, rfl⟩ := Prod.mk.inj (Option.some.inj hq)
    refine ⟨none, ?_, hcap ▸ metering_runExtractionWorkflow⟩
    intro a ha hid
    exact hfresh (List.any_eq_true.mpr ⟨a, ha, by simp [hid]⟩)

theorem good_startOfUsage :
    Good (metering cap) (UsageRow.Ok cap) (UsageRow.Tallied cap) startOfUsage := by
  refine ⟨⟨?_, Nat.zero_le cap, ?_, ?_, trivial, le_refl 0, ?_⟩, fun _ _ _ h => by cases h⟩
  · exact List.nodup_nil
  · exact List.Pairwise.nil
  · exact fun a ha => by cases ha
  · exact fun a old h => by cases h

/-- **The cap bounds the run**, in every run whose attempts do not overlap and lose no call. -/
theorem calls_within_cap {as : List (Act Choice (Delivery Ontology))}
    {s : Config workflowSig Raised Ctx UsageRow}
    (h : run (step (usageMachine Ontology cap)) startOfUsage as = some s)
    (halone : Admits (step (usageMachine Ontology cap)) LoadsAlone startOfUsage as) :
    s.db.Bounded cap :=
  (sound_usageMachine.run good_startOfUsage halone h).inv.toBounded

/-- The next `n` requests of the attempt in slot `w`. -/
def usageServes (answer : (o : Op) → workflowSig.Ans o) (w n : ℕ) :
    List (Act Choice (Delivery Unit)) :=
  List.replicate n (.serve w ⟨answer, false⟩)

def cappedDeps (maxCalls : ℕ) : Deps Unit :=
  { blankDeps with request := { blankRequest with maxCalls := maxCalls } }

/-- An attempt makes a call, flushes it and dies; the next one loads the call and makes another. -/
def oneAfterAnother : List (Act Choice (Delivery Unit)) :=
  .other ⟨0, cappedDeps 2, []⟩ :: usageServes workingAnswer 0 29
    ++ .crash 0 :: .other ⟨1, cappedDeps 2, []⟩ :: usageServes workingAnswer 1 29

theorem run_oneAfterAnother :
    (run (step (usageMachine Unit 2)) startOfUsage oneAfterAnother).map Config.db
      = some ⟨2, [⟨1, 1, 1, some 1, [0]⟩, ⟨0, 0, 1, some 1, []⟩]⟩ := by
  decide +kernel

theorem calls_within_cap_oneAfterAnother :
    ∃ s, run (step (usageMachine Unit 2)) startOfUsage oneAfterAnother = some s
      ∧ s.db.attempts.map Attempt.made = [1, 1] ∧ s.db.callsUsed = 2 ∧ s.db.Bounded 2 := by
  have halone : Admits (step (usageMachine Unit 2)) LoadsAlone startOfUsage oneAfterAnother := by
    decide +kernel
  obtain ⟨s, hs, hdb⟩ := Option.map_eq_some_iff.mp run_oneAfterAnother
  exact ⟨s, hs, hdb ▸ rfl, hdb ▸ rfl, calls_within_cap hs halone⟩

/-- Two attempts load before either calls; each makes the one call that the cap allows. -/
def overlapping : List (Act Choice (Delivery Unit)) :=
  .other ⟨0, cappedDeps 1, []⟩ :: usageServes workingAnswer 0 1
    ++ .other ⟨1, cappedDeps 1, []⟩ :: usageServes workingAnswer 1 1
    ++ usageServes workingAnswer 0 28 ++ usageServes workingAnswer 1 28

theorem run_overlapping :
    (run (step (usageMachine Unit 1)) startOfUsage overlapping).map Config.db
      = some ⟨1, [⟨1, 0, 1, some 1, []⟩, ⟨0, 0, 1, some 1, []⟩]⟩ := by
  decide +kernel

/-- The greatest of two overlapping totals forgets a call. -/
theorem overlapping_exceeds_cap :
    ¬ ∀ as s, run (step (usageMachine Unit 1)) startOfUsage as = some s → s.db.Bounded 1 := by
  intro h
  obtain ⟨s, hs, hdb⟩ := Option.map_eq_some_iff.mp run_overlapping
  have htotal := (h overlapping s hs).total
  rw [hdb] at htotal
  exact absurd htotal (by decide)

end Extraction
