/-
# Lease safety of the job queue

`Inv` ties every row to the part of the log that is about it (`RowOk`).  `step_inv` keeps it over
one action of any party, and `inv_run` over every interleaving.

The fence is `live_iff_held`: a claim holds its row exactly when it is the latest one of its job and
was neither finished nor reaped.
-/
import EvidenceLab.Queue
import EvidenceLab.ExceptRules

namespace JobQueue

open Transitions

/-! ## Logs -/

@[simp] theorem claimsIn_nil : claimsIn [] = [] := rfl

@[simp] theorem claimsIn_cons (e : Event) (l : List Event) :
    claimsIn (e :: l) = e.claim?.toList ++ claimsIn l := by
  cases e <;> rfl

@[simp] theorem claimsIn_append (l l' : List Event) :
    claimsIn (l ++ l') = claimsIn l ++ claimsIn l' := List.filterMap_append

@[simp] theorem history_nil (id : JobId) : history [] id = [] := rfl

/-- The history of a job in a longer log is made of its parts. -/
@[simp] theorem history_append (l l' : List Event) (id : JobId) :
    history (l ++ l') id = history l id ++ history l' id := List.filter_append l l'

theorem history_cons_of_eq {e : Event} {id : JobId} (h : e.job = id) (l : List Event) :
    history (e :: l) id = e :: history l id :=
  List.filter_cons_of_pos (by simpa using h)

theorem history_cons_of_ne {e : Event} {id : JobId} (h : e.job ≠ id) (l : List Event) :
    history (e :: l) id = history l id :=
  List.filter_cons_of_neg (by simpa using h)

/-- The history of a job has the events of the log that name it. -/
theorem mem_history {l : List Event} {id : JobId} {e : Event} :
    e ∈ history l id ↔ e ∈ l ∧ e.job = id := by
  simp [history]

/-- The claims of a log are its events of that kind. -/
theorem mem_claimsIn {l : List Event} {c : ClaimedJob} : c ∈ claimsIn l ↔ .claimed c ∈ l := by
  rw [claimsIn, List.mem_filterMap]
  constructor
  · rintro ⟨e, he, hc⟩
    cases e with
    | claimed d => exact (Option.some.inj hc) ▸ he
    | finished _ _ => cases hc
    | reaped _ _ _ => cases hc
  · exact fun h => ⟨_, h, rfl⟩

/-- A claim names its job. -/
theorem Event.job_of_claim? {e : Event} {c : ClaimedJob} (h : e.claim? = some c) :
    e.job = c.id := by
  cases e with
  | claimed d => exact congrArg ClaimedJob.id (Option.some.inj h)
  | finished _ _ => cases h
  | reaped _ _ _ => cases h

/-- The claims in the history of a job are the claims of the log that name it. -/
theorem claimsIn_history (l : List Event) (id : JobId) :
    claimsIn (history l id) = (claimsIn l).filter fun c => c.id == id := by
  induction l with
  | nil => rfl
  | cons e l ih =>
      have hhead : ∀ c ∈ e.claim?.toList, c.id = e.job := fun c hc =>
        (Event.job_of_claim? (Option.mem_toList.mp hc)).symm
      rw [claimsIn_cons, List.filter_append]
      by_cases h : e.job = id
      · have hall : e.claim?.toList.filter (fun c => c.id == id) = e.claim?.toList :=
          List.filter_eq_self.mpr fun c hc => by simpa using (hhead c hc).trans h
        rw [history_cons_of_eq h, claimsIn_cons, ih, hall]
      · have hnone : e.claim?.toList.filter (fun c => c.id == id) = [] :=
          List.filter_eq_nil_iff.mpr fun c hc => by simpa using fun hi => h (hhead c hc ▸ hi)
        rw [history_cons_of_ne h, ih, hnone, List.nil_append]

/-- The lease of `c` was given up or taken away in the log. -/
def EndedIn (log : List Event) (c : ClaimedJob) : Prop := ∃ e ∈ log, e.ends c

/-- Only an event of its own job ends a claim. -/
theorem Event.ends_job {e : Event} {c : ClaimedJob} (h : e.ends c) : e.job = c.id := by
  cases e with
  | claimed _ => exact h.elim
  | finished d _ => exact congrArg ClaimedJob.id h
  | reaped id _ _ => exact h.1

/-- A claim is ended in the log if and only if it is in the history of its job. -/
theorem endedIn_history {log : List Event} {c : ClaimedJob} :
    EndedIn (history log c.id) c ↔ EndedIn log c :=
  ⟨fun ⟨e, he, h⟩ => ⟨e, (mem_history.mp he).1, h⟩,
    fun ⟨e, he, h⟩ => ⟨e, mem_history.mpr ⟨he, Event.ends_job h⟩, h⟩⟩

@[simp] theorem not_endedIn_nil (c : ClaimedJob) : ¬ EndedIn [] c := by simp [EndedIn]

@[simp] theorem endedIn_cons {e : Event} {l : List Event} {c : ClaimedJob} :
    EndedIn (e :: l) c ↔ e.ends c ∨ EndedIn l c := by
  simp [EndedIn]

/-- The writes of the log that left a terminal state. -/
def terminalIn (log : List Event) : List JobStatus :=
  (log.filterMap Event.status?).filter JobStatus.isTerminal

@[simp] theorem terminalIn_append (l l' : List Event) :
    terminalIn (l ++ l') = terminalIn l ++ terminalIn l' := by
  simp [terminalIn]

/-! ## The claims of the code -/

/-- `c` is the latest claim of its job. -/
def System.IsLatest (s : System) (c : ClaimedJob) : Prop :=
  (s.claims.filter fun d => d.id == c.id).head? = some c

/-- A write of the claim returned `True` and gave up the lease. -/
def System.IsFinished (s : System) (c : ClaimedJob) : Prop :=
  ∃ status, .finished c status ∈ s.log

/-- A sweep took the row from the claim. -/
def System.IsReaped (s : System) (c : ClaimedJob) : Prop :=
  ∃ status, .reaped c.id (some c.lease) status ∈ s.log

/-- The latest claim of its job, neither finished nor reaped. -/
def System.IsLive (s : System) (c : ClaimedJob) : Prop :=
  s.IsLatest c ∧ ¬ s.IsFinished c ∧ ¬ s.IsReaped c

/-- How often a job was delivered. -/
def System.deliveries (s : System) (id : JobId) : ℕ := (s.claims.filter fun d => d.id == id).length

/-- A claim has ended if its holder finished it or the reaper took it back. -/
theorem endedIn_iff {s : System} {c : ClaimedJob} :
    EndedIn s.log c ↔ s.IsFinished c ∨ s.IsReaped c := by
  constructor
  · rintro ⟨e, he, h⟩
    cases e with
    | claimed _ => exact h.elim
    | finished d st =>
        obtain rfl : d = c := h
        exact Or.inl ⟨st, he⟩
    | reaped id lease st =>
        obtain ⟨rfl, rfl⟩ := h
        exact Or.inr ⟨st, he⟩
  · rintro (⟨st, he⟩ | ⟨st, he⟩)
    · exact ⟨_, he, rfl⟩
    · exact ⟨_, he, rfl, rfl⟩

/-! ## The invariant -/

/-- What ties a row to the part of the log that is about it. -/
structure RowOk (h : List Event) (r : JobRow) : Prop where
  deliveries : (claimsIn h).length = r.attempts
  attempts_le : r.attempts ≤ r.maxAttempts
  queued_lt : r.status = .queued → r.attempts < r.maxAttempts
  not_claimed : r.status ≠ .claimed
  running : r.status = .running → ∃ c, (claimsIn h).head? = some c ∧ r.lease = some c.lease
    ∧ c.attempts = r.attempts ∧ c.maxAttempts = r.maxAttempts ∧ ¬ EndedIn h c
  closed : r.status ≠ .running → r.lease = none ∧ ∀ c, (claimsIn h).head? = some c → EndedIn h c
  terminal : (terminalIn h).length = if r.status.isTerminal then 1 else 0

/-- The invariant of the system. -/
structure Inv (s : System) : Prop where
  ids_nodup : (s.jobs.map JobRow.id).Nodup
  leases_nodup : (s.claims.map ClaimedJob.lease).Nodup
  rows : ∀ r ∈ s.jobs, RowOk (history s.log r.id) r
  known : ∀ e ∈ s.log, ∃ r ∈ s.jobs, r.id = e.job
  ended_claimed : ∀ e ∈ s.log, e.status?.isSome → ∃ c ∈ s.claims, e.ends c

/-- The invariant holds of an empty queue. -/
theorem inv_init : Inv System.init where
  ids_nodup := List.nodup_nil
  leases_nodup := List.nodup_nil
  rows := by simp [System.init]
  known := by simp [System.init]
  ended_claimed := by simp [System.init]

variable {s s' : System}

/-- A job has one row. -/
theorem Inv.row_ext (hs : Inv s) {r r' : JobRow} (hr : r ∈ s.jobs) (hr' : r' ∈ s.jobs)
    (h : r.id = r'.id) : r = r' :=
  List.inj_on_of_nodup_map hs.ids_nodup hr hr' h

/-- A lease belongs to one claim. -/
theorem Inv.claim_ext (hs : Inv s) {c d : ClaimedJob} (hc : c ∈ s.claims) (hd : d ∈ s.claims)
    (h : c.lease = d.lease) : c = d :=
  List.inj_on_of_nodup_map hs.leases_nodup hc hd h

/-- A claimed job keeps its row. -/
theorem Inv.row_of_claim (hs : Inv s) {c : ClaimedJob} (hc : c ∈ s.claims) :
    ∃ r ∈ s.jobs, r.id = c.id :=
  hs.known (.claimed c) (mem_claimsIn.mp hc)

theorem mem_claims_of_head {c : ClaimedJob} {id : JobId}
    (h : (claimsIn (history s.log id)).head? = some c) : c ∈ s.claims ∧ c.id = id := by
  rw [claimsIn_history] at h
  have hm := List.mem_of_head? h
  rw [List.mem_filter] at hm
  exact ⟨hm.1, by simpa using hm.2⟩

/-- A claim holds a row that runs under its lease. -/
theorem isHeld_iff {c : ClaimedJob} {r : JobRow} :
    isHeld c r = true ↔ r.id = c.id ∧ r.lease = some c.lease ∧ r.status = .running := by
  simp [isHeld, and_assoc]

/-- **The fence.** A claim holds its row exactly when it is live. -/
theorem Inv.live_iff_held (hs : Inv s) {c : ClaimedJob} (hc : c ∈ s.claims) :
    s.IsLive c ↔ ∃ r ∈ s.jobs, isHeld c r = true := by
  constructor
  · rintro ⟨hlatest, hends⟩
    obtain ⟨r, hr, hid⟩ := hs.row_of_claim hc
    have hend : ¬ EndedIn (history s.log r.id) c := by
      rw [hid, endedIn_history, endedIn_iff]
      exact not_or.mpr hends
    have hhead : (claimsIn (history s.log r.id)).head? = some c := by
      rw [claimsIn_history, hid]
      exact hlatest
    have hrun : r.status = .running := by
      by_contra hne
      exact hend (((hs.rows r hr).closed hne).2 c hhead)
    obtain ⟨d, hd, hlease, -⟩ := (hs.rows r hr).running hrun
    obtain rfl : c = d := Option.some.inj (hhead.symm.trans hd)
    exact ⟨r, hr, isHeld_iff.mpr ⟨hid, hlease, hrun⟩⟩
  · rintro ⟨r, hr, hheld⟩
    obtain ⟨hid, hlease, hrun⟩ := isHeld_iff.mp hheld
    obtain ⟨d, hd, hlease', -, -, hend⟩ := (hs.rows r hr).running hrun
    obtain ⟨hdc, hdid⟩ := mem_claims_of_head hd
    -- the two claims carry the lease of the row, and leases are handed out once
    obtain rfl : c = d := hs.claim_ext hc hdc (Option.some.inj (hlease.symm.trans hlease'))
    rw [hid, endedIn_history, endedIn_iff, not_or] at hend
    refine ⟨?_, hend⟩
    rw [hid, claimsIn_history] at hd
    exact hd

/-! ## What one write does to a row -/

/-- A queued row may be claimed under a lease that no ended claim has had. -/
theorem RowOk.claim {h : List Event} {r : JobRow} {lease : Lease} (ho : RowOk h r)
    (hq : r.status = .queued) (hfresh : ¬ EndedIn h (claimOf lease r)) (now : Instant) :
    RowOk (.claimed (claimOf lease r) :: h) (claimSet now lease r) where
  deliveries := by simp [Event.claim?, claimSet, ho.deliveries]
  attempts_le := ho.queued_lt hq
  queued_lt := by simp [claimSet]
  not_claimed := by simp [claimSet]
  running := fun _ => ⟨claimOf lease r, rfl, rfl, rfl, rfl, by simpa [Event.ends] using hfresh⟩
  closed := fun hne => absurd rfl hne
  terminal := by
    have ht := ho.terminal
    rw [hq] at ht
    exact ht

/-- Nothing but the columns below is read by the invariant. -/
theorem RowOk.congr {h : List Event} {r r' : JobRow} (ho : RowOk h r) (hs : r'.status = r.status)
    (ha : r'.attempts = r.attempts) (hm : r'.maxAttempts = r.maxAttempts)
    (hl : r'.lease = r.lease) : RowOk h r' where
  deliveries := ha ▸ ho.deliveries
  attempts_le := by rw [ha, hm]; exact ho.attempts_le
  queued_lt := by rw [hs, ha, hm]; exact ho.queued_lt
  not_claimed := hs ▸ ho.not_claimed
  running := by rw [hs, ha, hm, hl]; exact ho.running
  closed := by rw [hs, hl]; exact ho.closed
  terminal := hs ▸ ho.terminal

/-- A running row that gives up its lease. -/
theorem RowOk.finish {h : List Event} {r r' : JobRow} {e : Event} {st : JobStatus}
    (ho : RowOk h r) (hrun : r.status = .running) (hst : r'.status = st)
    (ha : r'.attempts = r.attempts) (hm : r'.maxAttempts = r.maxAttempts) (hl : r'.lease = none)
    (hq : st = .queued → r.attempts < r.maxAttempts) (hc : st ≠ .claimed) (hr : st ≠ .running)
    (he : e.claim? = none) (hes : e.status? = some st)
    (hends : ∀ c, (claimsIn h).head? = some c → e.ends c) : RowOk (e :: h) r' where
  deliveries := by simp [he, ho.deliveries, ha]
  attempts_le := by rw [ha, hm]; exact ho.attempts_le
  queued_lt := by rw [hst, ha, hm]; exact hq
  not_claimed := by rwa [hst]
  running := fun h => absurd (hst.symm.trans h) hr
  closed := fun _ => by
    refine ⟨hl, fun c hhead => ?_⟩
    rw [claimsIn_cons, he] at hhead
    exact endedIn_cons.mpr (Or.inl (hends c hhead))
  terminal := by
    have ht := ho.terminal
    rw [hrun] at ht
    have hnil : terminalIn h = [] := List.length_eq_zero_iff.mp ht
    have hcons : terminalIn (e :: h) = terminalIn [e] ++ terminalIn h := terminalIn_append [e] h
    rw [hcons, hnil, hst]
    by_cases hterm : st.isTerminal
    · simp [terminalIn, hes, hterm]
    · simp [terminalIn, hes, hterm]

/-! ## What one action does to the system -/

/-- A change of rows that keeps their ids, and of the log, keeps the invariant when every row is
right afterwards. -/
theorem Inv.update (hs : Inv s) {f : JobRow → JobRow} (events : List Event)
    (hid : ∀ r, (f r).id = r.id)
    (hleases : ((claimsIn events ++ s.claims).map ClaimedJob.lease).Nodup)
    (hrows : ∀ r ∈ s.jobs, RowOk (history (events ++ s.log) r.id) (f r))
    (hknown : ∀ e ∈ events, ∃ r ∈ s.jobs, r.id = e.job)
    (hended : ∀ e ∈ events, e.status?.isSome → ∃ c ∈ s.claims, e.ends c) :
    Inv ⟨s.jobs.map f, events ++ s.log⟩ where
  ids_nodup := by
    have hmap : (s.jobs.map f).map JobRow.id = s.jobs.map JobRow.id := by
      rw [List.map_map]
      exact List.map_congr_left fun r _ => hid r
    rw [hmap]
    exact hs.ids_nodup
  leases_nodup := by simpa [System.claims] using hleases
  rows := by
    intro r' hr'
    obtain ⟨r, hr, rfl⟩ := List.mem_map.mp hr'
    rw [hid]
    exact hrows r hr
  known := by
    intro e he
    have hold : ∃ r ∈ s.jobs, r.id = e.job :=
      (List.mem_append.mp he).elim (hknown e) (hs.known e)
    obtain ⟨r, hr, h⟩ := hold
    exact ⟨f r, List.mem_map_of_mem hr, (hid r).trans h⟩
  ended_claimed := by
    intro e he hsome
    have hold : ∃ c ∈ s.claims, e.ends c :=
      (List.mem_append.mp he).elim (hended e · hsome) (hs.ended_claimed e · hsome)
    obtain ⟨c, hc, h⟩ := hold
    exact ⟨c, by simp only [System.claims, claimsIn_append]; exact List.mem_append_right _ hc, h⟩

/-- A claim with a lease nobody was given has not ended. -/
theorem Inv.not_endedIn_of_fresh (hs : Inv s) {c : ClaimedJob}
    (hfresh : ∀ d ∈ s.claims, d.lease ≠ c.lease) : ¬ EndedIn s.log c := by
  rintro ⟨e, he, hends⟩
  have hsome : e.status?.isSome := by
    cases e with
    | claimed _ => exact hends.elim
    | finished _ _ => rfl
    | reaped _ _ _ => rfl
  obtain ⟨d, hd, hends'⟩ := hs.ended_claimed e he hsome
  refine hfresh d hd ?_
  cases e with
  | claimed _ => exact hends.elim
  | finished x _ =>
      obtain rfl : x = c := hends
      obtain rfl : x = d := hends'
      rfl
  | reaped _ lease _ => exact Option.some.inj (hends'.2.symm.trans hends.2)

/-- **Enqueueing** keeps the invariant. -/
theorem inv_enqueue (hs : Inv s) {job : NewJob} {id : JobId} {now : Instant}
    (h : step s (.enqueue job id now) = some s') : Inv s' := by
  simp only [step] at h
  split at h
  · cases h
  rename_i hnew
  split at h
  · rename_i x jobs hok
    obtain rfl : { s with jobs := jobs } = s' := Option.some.inj h
    simp only [enqueue] at hok
    split at hok
    · cases hok
    rename_i hcheck
    split at hok
    · obtain ⟨-, rfl⟩ : _ ∧ s.jobs = jobs := by simpa using hok
      exact hs
    obtain ⟨-, rfl⟩ : _ ∧ s.jobs ++ [job.row id now] = jobs := by simpa using hok
    have hne : ∀ r ∈ s.jobs, r.id ≠ id := by simpa using hnew
    have hempty : history s.log id = [] := by
      refine List.eq_nil_iff_forall_not_mem.mpr fun e he => ?_
      obtain ⟨hel, hej⟩ := mem_history.mp he
      obtain ⟨r, hr, hre⟩ := hs.known e hel
      exact hne r hr (hre.trans hej)
    refine ⟨?_, hs.leases_nodup, ?_, ?_, hs.ended_claimed⟩
    · rw [List.map_append, List.nodup_append]
      refine ⟨hs.ids_nodup, List.nodup_singleton _, ?_⟩
      simpa [NewJob.row] using hne
    · intro r hr
      rcases List.mem_append.mp hr with hr | hr
      · exact hs.rows r hr
      · obtain rfl : r = job.row id now := List.mem_singleton.mp hr
        show RowOk (history s.log id) (job.row id now)
        rw [hempty]
        have hmax : 0 < job.maxAttempts := by omega
        exact ⟨rfl, Nat.zero_le _, fun _ => hmax, JobStatus.noConfusion, JobStatus.noConfusion,
          fun _ => ⟨rfl, fun c hc => by cases hc⟩, rfl⟩
    · intro e he
      obtain ⟨r, hr, hre⟩ := hs.known e he
      exact ⟨r, List.mem_append_left _ hr, hre⟩
  · exact Option.some.inj h ▸ hs

/-- **Claiming** keeps the invariant. -/
theorem inv_claim (hs : Inv s) {queue : String} {now : Instant} {locked : List JobId}
    {lease : Lease} {pick : Option JobId}
    (h : step s (.claim queue now locked lease pick) = some s') : Inv s' := by
  simp only [step] at h
  split at h
  · -- a lease is fresh, so no claim has it
    cases h
  rename_i hfresh
  have hfresh : ∀ d ∈ s.claims, d.lease ≠ lease := by simpa using hfresh
  split at h
  · split at h
    · cases h
    · exact Option.some.inj h ▸ hs
  split at h
  · cases h
  -- the row that is claimed was queued
  rename_i r hfind
  have hr : r ∈ s.jobs := List.mem_of_find?_eq_some hfind
  have hq : r.status = .queued := by
    have := List.find?_some hfind
    simp only [isFirstDue, isDue, Bool.and_eq_true, beq_iff_eq] at this
    exact this.2.1.1.1.2
  obtain rfl := Option.some.inj h
  refine hs.update [.claimed (claimOf lease r)] ?_ ?_ ?_ ?_ ?_
  · intro r'
    by_cases hid : r'.id == r.id
    · simp [hid, claimSet]
    · simp [hid]
  · simp only [claimsIn_cons, claimsIn_nil, Event.claim?, Option.toList_some, List.append_nil,
      List.singleton_append, List.map_cons, List.nodup_cons]
    refine ⟨?_, hs.leases_nodup⟩
    simpa [claimOf] using hfresh
  · -- the row of the claim has a new event; the other rows have their histories
    intro r' hr'
    by_cases hid : r'.id = r.id
    · obtain rfl : r' = r := hs.row_ext hr' hr hid
      have hended : ¬ EndedIn (history s.log r'.id) (claimOf lease r') := fun he =>
        hs.not_endedIn_of_fresh (c := claimOf lease r') hfresh (endedIn_history.mp he)
      have hhist : history (.claimed (claimOf lease r') :: s.log) r'.id
          = .claimed (claimOf lease r') :: history s.log r'.id := history_cons_of_eq rfl s.log
      simp only [List.singleton_append, hhist, BEq.rfl, if_true]
      exact (hs.rows r' hr').claim hq hended now
    · have hhist : history (.claimed (claimOf lease r) :: s.log) r'.id = history s.log r'.id :=
        history_cons_of_ne (fun h => hid h.symm) s.log
      have hbeq : (r'.id == r.id) = false := by simpa using hid
      simp only [List.singleton_append, hhist, hbeq, Bool.false_eq_true, if_false]
      exact hs.rows r' hr'
  · simpa [Event.job, claimOf] using ⟨r, hr, rfl⟩
  · simp [Event.status?]

/-- What a write of the claim `c` does to a row it holds. -/
theorem Call.set_spec {now : Instant} {c : ClaimedJob} {call : Call} {set : JobRow → JobRow}
    (h : call.set now c = .ok set) (r : JobRow) :
    (set r).id = r.id ∧ (set r).attempts = r.attempts ∧ (set r).maxAttempts = r.maxAttempts
      ∧ match call.status? c with
        | none => (set r).status = r.status ∧ (set r).lease = r.lease
        | some st => (set r).status = st ∧ (set r).lease = none := by
  cases call with
  | heartbeat =>
      obtain rfl := Except.ok.inj h
      exact ⟨rfl, rfl, rfl, rfl, rfl⟩
  | complete =>
      obtain rfl := Except.ok.inj h
      exact ⟨rfl, rfl, rfl, rfl, rfl⟩
  | fail text draw =>
      rw [Call.set] at h
      obtain ⟨delay, -, h⟩ := Except.bind_eq_ok_iff.mp h
      obtain rfl := Except.ok.inj h
      exact ⟨rfl, rfl, rfl, rfl, rfl⟩
  | deadLetter text =>
      obtain rfl := Except.ok.inj h
      exact ⟨rfl, rfl, rfl, rfl, rfl⟩
  | cancel text =>
      obtain rfl := Except.ok.inj h
      exact ⟨rfl, rfl, rfl, rfl, rfl⟩

/-- The states a write can leave. -/
theorem Call.status?_spec {c : ClaimedJob} {call : Call} {st : JobStatus}
    (h : call.status? c = some st) :
    (st = .queued → c.attempts < c.maxAttempts) ∧ st ≠ .claimed ∧ st ≠ .running := by
  cases call with
  | heartbeat => cases h
  | complete =>
      obtain rfl := Option.some.inj h
      simp
  | fail text draw =>
      obtain rfl := Option.some.inj h
      by_cases hl : c.isLast
      · simp [hl]
      · have : c.attempts < c.maxAttempts := by simpa [ClaimedJob.isLast] using hl
        simp [hl, this]
  | deadLetter text =>
      obtain rfl := Option.some.inj h
      simp
  | cancel text =>
      obtain rfl := Option.some.inj h
      simp

/-- A call that returns changes the rows its claim holds and tells whether there were any. -/
theorem Call.perform_eq_ok {jobs jobs' : List JobRow} {now : Instant} {c : ClaimedJob}
    {call : Call} {b : Bool} (h : call.perform jobs now c = .ok (b, jobs')) :
    ∃ set, call.set now c = .ok set ∧ isStorable call.text = true
      ∧ b = jobs.any (isHeld c) ∧ jobs' = jobs.map fun r => if isHeld c r then set r else r := by
  obtain ⟨set, hset, h⟩ := Except.bind_eq_ok_iff.mp h
  split at h
  · rename_i hstore
    obtain ⟨hb, hj⟩ := Prod.mk.inj (Except.ok.inj h)
    exact ⟨set, hset, hstore, hb.symm, hj.symm⟩
  · cases h

/-- A call whose claim holds no row changes nothing. -/
theorem map_isHeld_eq_self {jobs : List JobRow} {c : ClaimedJob} {set : JobRow → JobRow}
    (h : jobs.any (isHeld c) = false) :
    (jobs.map fun r => if isHeld c r then set r else r) = jobs := by
  have hne : ∀ r ∈ jobs, ¬ isHeld c r = true := by simpa using h
  refine (List.map_congr_left fun r hr => ?_).trans (List.map_id jobs)
  exact if_neg (hne r hr)

/-- **A call of the holder** keeps the invariant. -/
theorem inv_call (hs : Inv s) {c : ClaimedJob} {call : Call} {now : Instant}
    (h : step s (.call c call now) = some s') : Inv s' := by
  simp only [step] at h
  split at h
  swap
  · cases h
  rename_i hc
  split at h
  · rename_i jobs hok
    obtain rfl := Option.some.inj h
    obtain ⟨set, hset, -, hany, rfl⟩ := Call.perform_eq_ok hok
    obtain ⟨r₀, hr₀, hheld⟩ := List.any_eq_true.mp hany.symm
    obtain ⟨hid₀, hlease₀, hrun₀⟩ := isHeld_iff.mp hheld
    have hev : ∀ e ∈ call.events c, ∃ st, e = .finished c st ∧ call.status? c = some st := by
      simp [Call.events]
    refine hs.update (call.events c) ?_ ?_ ?_ ?_ ?_
    · intro r
      by_cases hr : isHeld c r
      · simpa [hr] using (Call.set_spec hset r).1
      · simp [hr]
    · have hnil : claimsIn (call.events c) = [] := by
        refine List.eq_nil_iff_forall_not_mem.mpr fun d hd => ?_
        obtain ⟨st, he, -⟩ := hev _ (mem_claimsIn.mp hd)
        cases he
      simpa [hnil] using hs.leases_nodup
    · intro r hr
      by_cases hrid : r.id = c.id
      · -- the row of the claim, which the claim holds
        obtain rfl : r = r₀ := hs.row_ext hr hr₀ (hrid.trans hid₀.symm)
        obtain ⟨hid, ha, hm, hstatus⟩ := Call.set_spec hset r
        rw [if_pos hheld, Call.events]
        cases hst : call.status? c with
        | none =>
            rw [hst] at hstatus
            exact (hs.rows r hr).congr hstatus.1 ha hm hstatus.2
        | some st =>
            rw [hst] at hstatus
            obtain ⟨d, hd, hlease, hda, hdm, -⟩ := (hs.rows r hr).running hrun₀
            obtain rfl : d = c := hs.claim_ext (mem_claims_of_head hd).1 hc
              (Option.some.inj (hlease.symm.trans hlease₀))
            obtain ⟨hq, hcl, hru⟩ := Call.status?_spec hst
            have hjob : (Event.finished d st).job = r.id := hid₀.symm
            have hhist := history_cons_of_eq hjob s.log
            show RowOk (history (.finished d st :: s.log) r.id) (set r)
            rw [hhist]
            refine (hs.rows r hr).finish hrun₀ hstatus.1 ha hm hstatus.2 (fun hst' => ?_) hcl hru
              rfl rfl fun c' hc' => ?_
            · rw [← hda, ← hdm]
              exact hq hst'
            · exact Option.some.inj (hd.symm.trans hc')
      · have hnot : ¬ isHeld c r = true := fun hh => hrid (isHeld_iff.mp hh).1
        have hhist : history (call.events c) r.id = [] := by
          refine List.eq_nil_iff_forall_not_mem.mpr fun e he => ?_
          obtain ⟨hel, hej⟩ := mem_history.mp he
          obtain ⟨st, rfl, -⟩ := hev e hel
          exact hrid hej.symm
        rw [if_neg hnot, history_append, hhist, List.nil_append]
        exact hs.rows r hr
    · intro e he
      obtain ⟨st, rfl, -⟩ := hev e he
      exact ⟨r₀, hr₀, hid₀⟩
    · intro e he _
      obtain ⟨st, rfl, -⟩ := hev e he
      exact ⟨c, hc, rfl⟩
  · rename_i jobs hok
    obtain rfl := Option.some.inj h
    obtain ⟨set, -, -, hany, rfl⟩ := Call.perform_eq_ok hok
    rw [map_isHeld_eq_self hany.symm]
    exact hs
  · exact Option.some.inj h ▸ hs

/-- What a sweep writes to the log about a row. -/
def reapEvent (now : Instant) (r : JobRow) : Event := .reaped r.id r.lease (reapSet now r).status

/-- A sweep writes one event about each row it takes, and none about the others. -/
theorem history_reap {jobs : List JobRow} {now : Instant} (hn : (jobs.map JobRow.id).Nodup)
    {r : JobRow} (hr : r ∈ jobs) (p : JobRow → Bool) :
    history ((jobs.filter p).map (reapEvent now)) r.id = if p r then [reapEvent now r] else [] := by
  have hnil : ∀ {l : List JobRow}, (∀ x ∈ l, x.id ≠ r.id) →
      history ((l.filter p).map (reapEvent now)) r.id = [] := by
    intro l hl
    refine List.eq_nil_iff_forall_not_mem.mpr fun e he => ?_
    obtain ⟨hel, hej⟩ := mem_history.mp he
    obtain ⟨x, hx, rfl⟩ := List.mem_map.mp hel
    exact hl x (List.mem_of_mem_filter hx) hej
  induction jobs with
  | nil => cases hr
  | cons x l ih =>
      rw [List.map_cons, List.nodup_cons] at hn
      have hx : ∀ y ∈ l, y.id ≠ x.id := fun y hy he => hn.1 (he ▸ List.mem_map_of_mem hy)
      rcases List.mem_cons.mp hr with rfl | hrl
      · by_cases hp : p r
        · have hjob : (reapEvent now r).job = r.id := rfl
          rw [List.filter_cons_of_pos hp, List.map_cons, history_cons_of_eq hjob, hnil hx,
            if_pos hp]
        · rw [List.filter_cons_of_neg hp, hnil hx, if_neg hp]
      · have hne : (reapEvent now x).job ≠ r.id := (hx r hrl).symm
        by_cases hp : p x
        · rw [List.filter_cons_of_pos hp, List.map_cons, history_cons_of_ne hne]
          exact ih hn.2 hrl
        · rw [List.filter_cons_of_neg hp]
          exact ih hn.2 hrl

/-- A reaped row loses its lease and is queued again while it has attempts left. -/
theorem reapSet_spec (now : Instant) (r : JobRow) :
    (reapSet now r).id = r.id ∧ (reapSet now r).attempts = r.attempts
      ∧ (reapSet now r).maxAttempts = r.maxAttempts ∧ (reapSet now r).lease = none
      ∧ ((reapSet now r).status = .queued ∧ r.attempts < r.maxAttempts
        ∨ (reapSet now r).status = .failed ∧ r.maxAttempts ≤ r.attempts) := by
  by_cases h : r.attempts < r.maxAttempts
  · simp [reapSet, h]
  · simp [reapSet, h, Nat.le_of_not_lt h]

/-- **Reaping** keeps the invariant. -/
theorem inv_reap (hs : Inv s) {now staleSeconds : ℚ}
    (h : step s (.reap now staleSeconds) = some s') : Inv s' := by
  obtain rfl := Option.some.inj h
  -- a row that a sweep takes is running, so its lease is that of the latest claim
  have hstale : ∀ r ∈ s.jobs, isStale now staleSeconds r = true → r.status = .running
      ∧ ∃ c ∈ s.claims, (claimsIn (history s.log r.id)).head? = some c
        ∧ (reapEvent now r).ends c := by
    intro r hr hst
    have hrun : r.status = .running := by
      simp only [isStale, Bool.and_eq_true, beq_iff_eq] at hst
      exact hst.1
    obtain ⟨c, hc, hlease, -⟩ := (hs.rows r hr).running hrun
    exact ⟨hrun, c, (mem_claims_of_head hc).1, hc, (mem_claims_of_head hc).2.symm, hlease⟩
  refine hs.update ((s.jobs.filter (isStale now staleSeconds)).map (reapEvent now)) ?_ ?_ ?_ ?_ ?_
  · intro r
    by_cases hst : isStale now staleSeconds r
    · simpa [hst] using (reapSet_spec now r).1
    · simp [hst]
  · have hnil : claimsIn ((s.jobs.filter (isStale now staleSeconds)).map (reapEvent now)) = [] := by
      refine List.eq_nil_iff_forall_not_mem.mpr fun d hd => ?_
      obtain ⟨x, -, hx⟩ := List.mem_map.mp (mem_claimsIn.mp hd)
      cases hx
    simpa [hnil] using hs.leases_nodup
  · intro r hr
    rw [history_append, history_reap hs.ids_nodup hr]
    by_cases hst : isStale now staleSeconds r
    · obtain ⟨hrun, c, hc, hhead, hends⟩ := hstale r hr hst
      obtain ⟨-, ha, hm, hl, hstatus⟩ := reapSet_spec now r
      rw [if_pos hst, if_pos hst]
      refine (hs.rows r hr).finish hrun rfl ha hm hl ?_ ?_ ?_ rfl rfl fun d hd => ?_
      · rcases hstatus with ⟨-, hlt⟩ | ⟨hf, -⟩
        · exact fun _ => hlt
        · rw [hf]
          exact JobStatus.noConfusion
      · rcases hstatus with ⟨hq, -⟩ | ⟨hf, -⟩
        · simp [hq]
        · simp [hf]
      · rcases hstatus with ⟨hq, -⟩ | ⟨hf, -⟩
        · simp [hq]
        · simp [hf]
      · obtain rfl : c = d := Option.some.inj (hhead.symm.trans hd)
        exact hends
    · rw [if_neg hst, if_neg hst]
      exact hs.rows r hr
  · intro e he
    obtain ⟨r, hr, rfl⟩ := List.mem_map.mp he
    exact ⟨r, List.mem_of_mem_filter hr, rfl⟩
  · intro e he _
    obtain ⟨r, hr, rfl⟩ := List.mem_map.mp he
    obtain ⟨-, c, hc, -, hends⟩ := hstale r (List.mem_of_mem_filter hr) (List.mem_filter.mp hr).2
    exact ⟨c, hc, hends⟩

/-- **One action of any party keeps the invariant.** -/
theorem step_inv (hs : Inv s) {a : Act} (h : step s a = some s') : Inv s' := by
  cases a with
  | enqueue job id now => exact inv_enqueue hs h
  | claim queue now locked lease pick => exact inv_claim hs h
  | call job call now => exact inv_call hs h
  | reap now staleSeconds => exact inv_reap hs h

/-- **Every interleaving keeps it.** -/
theorem inv_run {as : List Act} (h : run step System.init as = some s) : Inv s :=
  run_invariant (fun _ _ _ hs h => step_inv hs h) inv_init h

/-! ## Terminal states -/

/-- An update that does not select a row keeps it. -/
theorem terminal_updateWhere {jobs : List JobRow} {p : JobRow → Bool} {set : JobRow → JobRow}
    {r : JobRow} (hr : r ∈ jobs) (hp : p r = false) : r ∈ (updateWhere jobs p set).2 :=
  List.mem_map.mpr ⟨r, hr, by rw [hp]; rfl⟩

/-- A row in a terminal state is not touched. -/
theorem terminal_step (hs : Inv s) {r : JobRow} (hr : r ∈ s.jobs)
    (ht : r.status.isTerminal = true) {a : Act} (h : step s a = some s') : r ∈ s'.jobs := by
  have hrun : (r.status == .running) = false := by
    cases hst : r.status <;> simp [hst, JobStatus.isTerminal] at ht ⊢
  cases a with
  | enqueue job id now =>
      simp only [step] at h
      split at h
      · cases h
      split at h
      · rename_i jobs hok
        obtain rfl := Option.some.inj h
        simp only [enqueue] at hok
        split at hok
        · cases hok
        split at hok
        · exact (Prod.mk.inj (Except.ok.inj hok)).2 ▸ hr
        · exact (Prod.mk.inj (Except.ok.inj hok)).2 ▸ List.mem_append_left _ hr
      · exact Option.some.inj h ▸ hr
  | claim queue now locked lease pick =>
      simp only [step] at h
      split at h
      · cases h
      split at h
      · split at h
        · cases h
        · exact Option.some.inj h ▸ hr
      split at h
      · cases h
      rename_i r' hfind
      obtain rfl := Option.some.inj h
      have hq : r'.status = .queued := by
        have := List.find?_some hfind
        simp only [isFirstDue, isDue, Bool.and_eq_true, beq_iff_eq] at this
        exact this.2.1.1.1.2
      refine terminal_updateWhere hr ?_
      -- the row the claim takes is queued, and ids are unique
      refine beq_eq_false_iff_ne.mpr fun hid => ?_
      obtain rfl := hs.row_ext hr (List.mem_of_find?_eq_some hfind) hid
      rw [hq] at ht
      cases ht
  | call c call now =>
      simp only [step] at h
      split at h
      swap
      · cases h
      have hheld : isHeld c r = false := by simp [isHeld, hrun]
      split at h
      · rename_i jobs hok
        obtain rfl := Option.some.inj h
        obtain ⟨set, -, -, -, rfl⟩ := Call.perform_eq_ok hok
        exact terminal_updateWhere hr hheld
      · rename_i jobs hok
        obtain rfl := Option.some.inj h
        obtain ⟨set, -, -, -, rfl⟩ := Call.perform_eq_ok hok
        exact terminal_updateWhere hr hheld
      · exact Option.some.inj h ▸ hr
  | reap now staleSeconds =>
      obtain rfl := Option.some.inj h
      exact terminal_updateWhere hr (by simp [isStale, hrun])

/-- **A terminal row is final**: no run changes it. -/
theorem terminal_run (hs : Inv s) {r : JobRow} (hr : r ∈ s.jobs)
    (ht : r.status.isTerminal = true) {as : List Act} (h : run step s as = some s') :
    r ∈ s'.jobs :=
  (run_invariant (P := fun s => Inv s ∧ r ∈ s.jobs)
    (fun _ _ _ hP h => ⟨step_inv hP.1 h, terminal_step hP.1 hP.2 ht h⟩) ⟨hs, hr⟩ h).2

/-! ## What a step does to rows and claims -/

/-- The table after an `enqueue`. -/
theorem rows_enqueue {job : NewJob} {id : JobId} {now : Instant}
    (h : step s (.enqueue job id now) = some s') :
    s'.log = s.log ∧ ∀ r ∈ s'.jobs, r ∈ s.jobs ∨ r.status = .queued := by
  simp only [step] at h
  split at h
  · cases h
  split at h
  · rename_i jobs hok
    obtain rfl := Option.some.inj h
    refine ⟨rfl, fun r hr => ?_⟩
    simp only [enqueue] at hok
    split at hok
    · cases hok
    split at hok
    · exact .inl ((Prod.mk.inj (Except.ok.inj hok)).2 ▸ hr)
    · have hr : r ∈ s.jobs ++ [job.row id now] := (Prod.mk.inj (Except.ok.inj hok)).2 ▸ hr
      rcases List.mem_append.mp hr with hr | hr
      · exact .inl hr
      · exact .inr (List.mem_singleton.mp hr ▸ rfl)
  · obtain rfl := Option.some.inj h
    exact ⟨rfl, fun r hr => .inl hr⟩

/-- The table and the log after a claim that took a row. -/
theorem rows_claim {queue : String} {now : Instant} {locked : List JobId} {lease : Lease}
    {pick : JobId} (h : step s (.claim queue now locked lease (some pick)) = some s') :
    ∃ c : ClaimedJob, s'.log = .claimed c :: s.log ∧ (∀ d ∈ s.claims, d.lease ≠ c.lease)
      ∧ ∀ r ∈ s'.jobs, r ∈ s.jobs ∨ r.status = .running := by
  simp only [step] at h
  split at h
  · cases h
  rename_i hfresh
  split at h
  · cases h
  rename_i r₀ hfind
  obtain rfl := Option.some.inj h
  refine ⟨claimOf lease r₀, rfl, fun d hd hl => ?_, fun r hr => ?_⟩
  · exact hfresh (List.any_eq_true.mpr ⟨d, hd, by simpa [claimOf] using hl⟩)
  · obtain ⟨q, hq, rfl⟩ := List.mem_map.mp hr
    by_cases hid : q.id == r₀.id
    · right
      simp [hid, claimSet]
    · left
      simpa [hid] using hq

/-- The table and the log after a write of a claim. -/
theorem rows_call {c : ClaimedJob} {call : Call} {now : Instant}
    (h : step s (.call c call now) = some s') :
    (∃ ev, s'.log = ev ++ s.log ∧ claimsIn ev = [])
      ∧ ∀ r ∈ s'.jobs, r ∈ s.jobs ∨ ∃ q ∈ s.jobs, isHeld c q = true ∧ r.id = q.id
          ∧ r.status = (call.status? c).getD q.status := by
  simp only [step] at h
  split at h
  swap
  · cases h
  have hrows : ∀ {b jobs}, call.perform s.jobs now c = .ok (b, jobs) → ∀ r ∈ jobs,
      r ∈ s.jobs ∨ ∃ q ∈ s.jobs, isHeld c q = true ∧ r.id = q.id
        ∧ r.status = (call.status? c).getD q.status := by
    intro b jobs hok r hr
    obtain ⟨set, hset, -, -, rfl⟩ := Call.perform_eq_ok hok
    obtain ⟨q, hq, rfl⟩ := List.mem_map.mp hr
    by_cases hheld : isHeld c q = true
    · obtain ⟨hid, -, -, hst⟩ := Call.set_spec hset q
      right
      refine ⟨q, hq, hheld, by rw [if_pos hheld, hid], ?_⟩
      rw [if_pos hheld]
      cases hs : call.status? c with
      | none =>
          rw [hs] at hst
          exact hst.1
      | some st =>
          rw [hs] at hst
          exact hst.1
    · left
      rwa [if_neg hheld]
  split at h
  · rename_i jobs hok
    obtain rfl := Option.some.inj h
    refine ⟨⟨call.events c, rfl, ?_⟩, hrows hok⟩
    refine List.eq_nil_iff_forall_not_mem.mpr fun d hd => ?_
    have := mem_claimsIn.mp hd
    simp [Call.events] at this
  · rename_i jobs hok
    obtain rfl := Option.some.inj h
    exact ⟨⟨[], rfl, rfl⟩, hrows hok⟩
  · obtain rfl := Option.some.inj h
    exact ⟨⟨[], rfl, rfl⟩, fun r hr => .inl hr⟩

/-- The table and the log after a sweep. -/
theorem rows_reap {now staleSeconds : ℚ} (h : step s (.reap now staleSeconds) = some s') :
    (∃ ev, s'.log = ev ++ s.log ∧ claimsIn ev = [])
      ∧ ∀ r ∈ s'.jobs, r ∈ s.jobs
        ∨ ∃ q ∈ s.jobs, isStale now staleSeconds q = true ∧ r = reapSet now q := by
  obtain rfl := Option.some.inj h
  refine ⟨⟨_, rfl, ?_⟩, fun r hr => ?_⟩
  · refine List.eq_nil_iff_forall_not_mem.mpr fun d hd => ?_
    have := mem_claimsIn.mp hd
    simp at this
  · obtain ⟨q, hq, rfl⟩ := List.mem_map.mp hr
    by_cases hst : isStale now staleSeconds q = true
    · exact .inr ⟨q, hq, hst, if_pos hst⟩
    · left
      rwa [if_neg hst]

/-- A step adds to the log, and every claim it adds has a fresh lease. -/
theorem log_of_step {a : Act} (h : step s a = some s') :
    ∃ ev, s'.log = ev ++ s.log ∧ ∀ c ∈ claimsIn ev, ∀ d ∈ s.claims, d.lease ≠ c.lease := by
  cases a with
  | enqueue job id now => exact ⟨[], (rows_enqueue h).1, fun c hc => by cases hc⟩
  | claim queue now locked lease pick =>
      cases pick with
      | none =>
          simp only [step] at h
          split at h
          · cases h
          split at h
          · cases h
          · obtain rfl := Option.some.inj h
            exact ⟨[], rfl, fun c hc => by cases hc⟩
      | some id =>
          obtain ⟨c, hlog, hfresh, -⟩ := rows_claim h
          refine ⟨[.claimed c], hlog, fun c' hc' => ?_⟩
          obtain rfl : c' = c := by simpa [claimsIn, Event.claim?] using hc'
          exact hfresh
  | call c call now =>
      obtain ⟨⟨ev, hlog, hnil⟩, -⟩ := rows_call h
      exact ⟨ev, hlog, fun c hc => by rw [hnil] at hc; cases hc⟩
  | reap now staleSeconds =>
      obtain ⟨⟨ev, hlog, hnil⟩, -⟩ := rows_reap h
      exact ⟨ev, hlog, fun c hc => by rw [hnil] at hc; cases hc⟩

/-- No step removes a claim from the log. -/
theorem claims_of_step {a : Act} (h : step s a = some s') {c : ClaimedJob} (hc : c ∈ s.claims) :
    c ∈ s'.claims := by
  obtain ⟨ev, hlog, -⟩ := log_of_step h
  rw [System.claims, hlog, mem_claimsIn]
  exact List.mem_append_right ev (mem_claimsIn.mp hc)

/-- A claim that is live was live before. -/
theorem live_of_step {a : Act} (h : step s a = some s') {c : ClaimedJob} (hc : c ∈ s.claims)
    (hlive : s'.IsLive c) : s.IsLive c := by
  obtain ⟨ev, hlog, hfresh⟩ := log_of_step h
  obtain ⟨hlatest, hfin, hreap⟩ := hlive
  refine ⟨?_, fun ⟨st, hst⟩ => hfin ⟨st, ?_⟩, fun ⟨st, hst⟩ => hreap ⟨st, ?_⟩⟩
  · -- a newer claim of the job would be the latest one
    have hsplit : s'.claims = claimsIn ev ++ s.claims := by
      rw [System.claims, hlog, claimsIn, List.filterMap_append]
      rfl
    rw [System.IsLatest, hsplit, List.filter_append] at hlatest
    cases hnew : (claimsIn ev).filter fun d => d.id == c.id with
    | nil =>
        rw [hnew, List.nil_append] at hlatest
        exact hlatest
    | cons d ds =>
        rw [hnew, List.cons_append, List.head?_cons, Option.some.injEq] at hlatest
        subst hlatest
        have hmem : d ∈ claimsIn ev := List.mem_of_mem_filter (hnew ▸ List.mem_cons_self ..)
        exact absurd rfl (hfresh d hmem d hc)
  · rw [hlog]
    exact List.mem_append_right ev hst
  · rw [hlog]
    exact List.mem_append_right ev hst

/-- Whether a claim holds its row. -/
def System.holds (s : System) (c : ClaimedJob) : Bool := s.jobs.any (isHeld c)

theorem holds_iff {c : ClaimedJob} : s.holds c = true ↔ ∃ r ∈ s.jobs, isHeld c r = true :=
  List.any_eq_true

/-- A claim that holds its job after a step held it before. -/
theorem holds_of_step (hs : Inv s) {a : Act} (h : step s a = some s') {c : ClaimedJob}
    (hc : c ∈ s.claims) (hheld : s'.holds c = true) : s.holds c = true := by
  have hlive := ((step_inv hs h).live_iff_held (claims_of_step h hc)).mpr (holds_iff.mp hheld)
  exact holds_iff.mpr ((hs.live_iff_held hc).mp (live_of_step h hc hlive))

/-- Two claims that hold rows of one job are one claim. -/
theorem Inv.claim_of_holds (hs : Inv s) {c d : ClaimedJob} (hc : c ∈ s.claims) (hd : d ∈ s.claims)
    (hch : s.holds c = true) (hdh : s.holds d = true) (hid : c.id = d.id) : c = d := by
  obtain ⟨r, hr, hrc⟩ := holds_iff.mp hch
  obtain ⟨q, hq, hqd⟩ := holds_iff.mp hdh
  obtain ⟨hrid, hrl, -⟩ := isHeld_iff.mp hrc
  obtain ⟨hqid, hql, -⟩ := isHeld_iff.mp hqd
  obtain rfl := hs.row_ext hr hq (by rw [hrid, hqid, hid])
  exact hs.claim_ext hc hd (Option.some.inj (hrl.symm.trans hql))

/-! ## Lease safety -/

/-- What holds of the rows in every state. -/
structure System.RowsSafe (s : System) : Prop where
  lease_iff : ∀ r ∈ s.jobs, r.lease.isSome ↔ r.status = .running
  deliveries_eq : ∀ r ∈ s.jobs, r.status = .queued ∨ r.status = .running →
    s.deliveries r.id = r.attempts
  attempts_le : ∀ r ∈ s.jobs, r.attempts ≤ r.maxAttempts
  queued_lt : ∀ r ∈ s.jobs, r.status = .queued → r.attempts < r.maxAttempts
  deliveries_le : ∀ r ∈ s.jobs, s.deliveries r.id ≤ r.maxAttempts
  absorbing : ∀ r ∈ s.jobs, r.status.isTerminal = true →
    ∀ as s', run step s as = some s' → r ∈ s'.jobs
  terminal_once : ∀ id, (terminalIn (history s.log id)).length ≤ 1

/-- The row of `c` is rewritten as the call says and the call returns `True` when `c` is live;
otherwise it returns `False` and the table stays. -/
def System.Obeys (s : System) (c : ClaimedJob) (call : Call) (now : Instant) : Prop :=
  (s.IsLive c → ∃ set, call.set now c = .ok set ∧ (∃ r ∈ s.jobs, r.id = c.id)
    ∧ call.perform s.jobs now c
      = .ok (true, s.jobs.map fun r => if r.id = c.id then set r else r))
  ∧ (¬ s.IsLive c → call.perform s.jobs now c = .ok (false, s.jobs))

/-- The backoff of a `fail` that requeues is defined up to the 1024th attempt. -/
def Call.hasDelay (c : ClaimedJob) : Call → Bool
  | .fail _ _ => c.isLast || decide (c.attempts ≤ 1024)
  | .heartbeat | .complete | .deadLetter _ | .cancel _ => true

/-- The arguments on which a write raises nothing. -/
def Call.isAccepted (c : ClaimedJob) (call : Call) : Bool :=
  isStorable call.text && call.hasDelay c

/-- The invariant makes the rows safe. -/
theorem rowsSafe_of_inv (hs : Inv s) : s.RowsSafe where
  lease_iff := by
    intro r hr
    constructor
    · intro hl
      by_contra hne
      rw [((hs.rows r hr).closed hne).1] at hl
      cases hl
    · intro hrun
      obtain ⟨c, -, hl, -⟩ := (hs.rows r hr).running hrun
      rw [hl]
      rfl
  deliveries_eq := by
    intro r hr _
    rw [← (hs.rows r hr).deliveries, claimsIn_history]
    rfl
  attempts_le := fun r hr => (hs.rows r hr).attempts_le
  queued_lt := fun r hr => (hs.rows r hr).queued_lt
  deliveries_le := by
    intro r hr
    have h := (hs.rows r hr).deliveries
    rw [claimsIn_history] at h
    exact h.trans_le (hs.rows r hr).attempts_le
  absorbing := fun r hr ht as s' h => terminal_run hs hr ht h
  terminal_once := by
    intro id
    by_cases hid : ∃ r ∈ s.jobs, r.id = id
    · obtain ⟨r, hr, rfl⟩ := hid
      rw [(hs.rows r hr).terminal]
      split <;> omega
    · have hnil : history s.log id = [] := by
        refine List.eq_nil_iff_forall_not_mem.mpr fun e he => hid ?_
        obtain ⟨hel, hej⟩ := mem_history.mp he
        exact hej ▸ hs.known e hel
      simp [hnil, terminalIn]

/-- A call has new columns to write if and only if its delay can be computed. -/
theorem Call.set_isOk_iff {c : ClaimedJob} {call : Call} {now : Instant} :
    (∃ set, call.set now c = .ok set) ↔ call.hasDelay c = true := by
  cases call with
  | heartbeat => simp [Call.set, Call.hasDelay]
  | complete => simp [Call.set, Call.hasDelay]
  | deadLetter text => simp [Call.set, Call.hasDelay]
  | cancel text => simp [Call.set, Call.hasDelay]
  | fail text draw =>
      rw [Call.set, retryDelay, Call.hasDelay]
      by_cases hl : c.isLast
      · simp [hl]
      · by_cases hexp : maxExponent < c.attempts - 1
        · have : ¬ c.attempts ≤ 1024 := by simp only [maxExponent] at hexp; omega
          simp [hl, backoffSeconds, hexp, this]
        · have : c.attempts ≤ 1024 := by simp only [maxExponent] at hexp; omega
          simp [hl, backoffSeconds, hexp, this]

/-- A call that raises does not do what the fence promises; any other does. -/
theorem Inv.obeys_iff (hs : Inv s) {c : ClaimedJob} (hc : c ∈ s.claims) (call : Call)
    (now : Instant) : s.Obeys c call now ↔ call.isAccepted c = true := by
  have hok : ∀ {b jobs'}, call.perform s.jobs now c = .ok (b, jobs') →
      call.isAccepted c = true := by
    intro b jobs' h
    obtain ⟨set, hset, hstore, -⟩ := Call.perform_eq_ok h
    rw [Call.isAccepted, hstore, Bool.true_and]
    exact Call.set_isOk_iff.mp ⟨set, hset⟩
  constructor
  · intro hob
    by_cases hlive : s.IsLive c
    · obtain ⟨set, -, -, h⟩ := hob.1 hlive
      exact hok h
    · exact hok (hob.2 hlive)
  · intro hacc
    rw [Call.isAccepted, Bool.and_eq_true] at hacc
    obtain ⟨set, hset⟩ := Call.set_isOk_iff.mpr hacc.2
    have hperform : call.perform s.jobs now c = .ok (updateWhere s.jobs (isHeld c) set) := by
      rw [Call.perform, hset, Except.ok_bind, if_pos hacc.1]
      rfl
    refine ⟨fun hlive => ⟨set, hset, hs.row_of_claim hc, ?_⟩, fun hdead => ?_⟩
    · obtain ⟨r₀, hr₀, hheld⟩ := (hs.live_iff_held hc).mp hlive
      rw [hperform]
      have hany : s.jobs.any (isHeld c) = true := List.any_eq_true.mpr ⟨r₀, hr₀, hheld⟩
      have hmap : (s.jobs.map fun r => if isHeld c r then set r else r)
          = s.jobs.map fun r => if r.id = c.id then set r else r := by
        refine List.map_congr_left fun r hr => ?_
        by_cases hid : r.id = c.id
        · obtain rfl := hs.row_ext hr hr₀ (hid.trans (isHeld_iff.mp hheld).1.symm)
          rw [if_pos hheld, if_pos hid]
        · rw [if_neg fun hh => hid (isHeld_iff.mp hh).1, if_neg hid]
      rw [updateWhere, hany, hmap]
    · have hany : s.jobs.any (isHeld c) = false := by
        rw [← Bool.not_eq_true, List.any_eq_true]
        exact fun h => hdead ((hs.live_iff_held hc).mpr h)
      rw [hperform, updateWhere, hany, map_isHeld_eq_self hany]

/-- **Lease safety of the queue.** -/
theorem queue_lease_safety {as : List Act} (h : run step System.init as = some s) :
    s.RowsSafe ∧ ∀ c ∈ s.claims, ∀ call now, s.Obeys c call now ↔ call.isAccepted c = true :=
  ⟨rowsSafe_of_inv (inv_run h), fun _ hc call now => (inv_run h).obeys_iff hc call now⟩

/-! ## An attempt whose backoff is no float -/

/-- A job of 1026 attempts. -/
def deepJob : NewJob where
  kind := "extraction_run"
  queue := "extraction"
  priority := 5
  payload := ""
  orgId := none
  idempotencyKey := none
  maxAttempts := 1026

/-- The system holds the one job, queued and due, after `k` deliveries. -/
structure System.AfterReaps (s : System) (k : ℕ) (r : JobRow) : Prop where
  jobs : s.jobs = [r]
  id : r.id = 0
  queue : r.queue = "extraction"
  status : r.status = .queued
  attempts : r.attempts = k
  maxAttempts : r.maxAttempts = 1026
  available : r.availableAt ≤ 61 * k
  leases : ∀ c ∈ s.claims, c.lease < k

theorem afterReaps_enqueue : (System.mk [deepJob.row 0 0] []).AfterReaps 0 (deepJob.row 0 0) := by
  constructor
  all_goals simp [deepJob, NewJob.row, System.claims]

/-- Delivery `k` claims the job at second `61 * k`. -/
def deepClaim (k : ℕ) : Act := .claim "extraction" (61 * k) [] k (some 0)

/-- One more claim of the job that is claimed again and again. -/
theorem step_deepClaim {k : ℕ} {r : JobRow} (h : s.AfterReaps k r) :
    step s (deepClaim k)
      = some ⟨[claimSet (61 * k) k r], .claimed (claimOf k r) :: s.log⟩ := by
  have hfresh : s.claims.any (·.lease == k) = false := by
    simpa using fun c hc => (h.leases c hc).ne
  have hdue : isDue "extraction" (61 * k) r = true := by
    simpa [isDue, h.queue, h.status] using h.available
  simp [deepClaim, step, hfresh, h.jobs, isFirstDue, hdue, h.id, comesBefore, claimOne, updateWhere]

/-- Reaping a queue of one stale job. -/
theorem step_reap_singleton {q : JobRow} {log : List Event} {now staleSeconds : ℚ}
    (h : isStale now staleSeconds q = true) :
    step ⟨[q], log⟩ (.reap now staleSeconds)
      = some ⟨[reapSet now q], reapEvent now q :: log⟩ := by
  simp [step, reapStale, updateWhere, h, reapEvent]

/-- One delivery whose worker is lost, and the sweep 61 seconds later. -/
theorem run_deepRound {k : ℕ} {r : JobRow} (h : s.AfterReaps k r) (hk : k < 1025) :
    ∃ s' r', run step s [deepClaim k, .reap (61 * k + 61) 60] = some s'
      ∧ s'.AfterReaps (k + 1) r' := by
  have hstale : isStale (61 * k + 61) 60 (claimSet (61 * k) k r) = true := by
    simp only [isStale, claimSet, BEq.rfl, Bool.true_and, Option.any_some, decide_eq_true_eq]
    linarith
  have hset : reapSet (61 * k + 61) (claimSet (61 * k) k r)
      = { claimSet (61 * k) k r with
          status := .queued, lease := none, availableAt := 61 * k + 61 } :=
    if_pos (by simp only [claimSet, h.attempts, h.maxAttempts]; omega)
  refine ⟨_, reapSet (61 * k + 61) (claimSet (61 * k) k r),
    run_cons_eq_some_iff.mpr ⟨_, step_deepClaim h,
      run_cons_eq_some_iff.mpr ⟨_, step_reap_singleton hstale, run_nil⟩⟩, ?_⟩
  rw [hset]
  refine ⟨rfl, h.id, h.queue, rfl, by simp [claimSet, h.attempts], h.maxAttempts, ?_, ?_⟩
  · push_cast
    linarith
  · intro c hc
    have hmem : c = claimOf k r ∨ c ∈ s.claims := by
      simpa [System.claims, Event.claim?, reapEvent] using hc
    rcases hmem with rfl | hmem
    · exact Nat.lt_succ_self k
    · exact (h.leases c hmem).trans (Nat.lt_succ_self k)

/-- A job can be claimed and reaped 1025 times. -/
theorem exists_afterReaps (k : ℕ) (hk : k ≤ 1025) :
    ∃ as s r, run step System.init as = some s ∧ s.AfterReaps k r := by
  induction k with
  | zero =>
      exact ⟨[.enqueue deepJob 0 0], _, deepJob.row 0 0, rfl, afterReaps_enqueue⟩
  | succ k ih =>
      obtain ⟨as, s, r, hrun, hafter⟩ := ih (by omega)
      obtain ⟨s', r', hround, hafter'⟩ := run_deepRound hafter (by omega)
      exact ⟨_, s', r', run_append_eq_some_iff.mpr ⟨s, hrun, hround⟩, hafter'⟩

/-- **The 1025th attempt of a longer job cannot be failed**: `fail` raises for a live claim. -/
theorem fail_raises_on_live_claim :
    ∃ as s, run step System.init as = some s ∧ ∃ c ∈ s.claims, s.IsLive c
      ∧ (Call.fail "provider timeout" (1 / 2)).perform s.jobs 62465 c = .error .overflow
      ∧ ¬ s.Obeys c (.fail "provider timeout" (1 / 2)) 62465 := by
  obtain ⟨as, s, r, hrun, hafter⟩ := exists_afterReaps 1024 (by omega)
  have hrun' := run_append_eq_some_iff.mpr
    ⟨s, hrun, run_cons_eq_some_iff.mpr ⟨_, step_deepClaim hafter, run_nil⟩⟩
  refine ⟨_, _, hrun', claimOf 1024 r, by simp [System.claims, Event.claim?], ?_, ?_, ?_⟩
  · refine ((inv_run hrun').live_iff_held (by simp [System.claims, Event.claim?])).mpr ?_
    exact ⟨_, List.mem_singleton.mpr rfl, isHeld_iff.mpr ⟨rfl, rfl, rfl⟩⟩
  · simp [Call.perform, Call.set, retryDelay, ClaimedJob.isLast, claimOf, hafter.attempts,
      hafter.maxAttempts, backoffSeconds, maxExponent]
  · rw [(inv_run hrun').obeys_iff (by simp [System.claims, Event.claim?])]
    simp [Call.isAccepted, Call.hasDelay, ClaimedJob.isLast, claimOf, hafter.attempts,
      hafter.maxAttempts]

/-- One delivery of the job is such a run. -/
theorem queue_lease_safety_oneClaim :
    ∃ s, run step System.init [.enqueue deepJob 0 0, deepClaim 0] = some s ∧ s.RowsSafe
      ∧ ∀ c ∈ s.claims, ∀ call now, s.Obeys c call now ↔ call.isAccepted c = true := by
  have h : run step System.init [.enqueue deepJob 0 0, deepClaim 0] = some _ :=
    run_cons_eq_some_iff.mpr ⟨_, rfl,
      run_cons_eq_some_iff.mpr ⟨_, step_deepClaim afterReaps_enqueue, run_nil⟩⟩
  exact ⟨_, h, queue_lease_safety h⟩

end JobQueue
