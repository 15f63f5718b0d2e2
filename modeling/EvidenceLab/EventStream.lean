/-
# The event stream of a run

Workers and the API append events to the runs, each in a transaction of its own, and readers take
them with `events.fetch`, from the last id they have seen.

* `Site` lists the places that append events.  Each locks the run's row before its first event, or
  inserts the row itself (`covered_script`).
* `fetch` is one snapshot: at most 200 events above the reader's cursor, in the order of their ids.
* `event_stream_complete`: what a reader has got is, in every reachable state, every visible event
  up to its cursor, once and in order; and an event that is visible is delivered after as many
  returned fetches as its place in the queue needs.
-/
import Mathlib.Data.List.Dedup
import EvidenceLab.Transitions
import EvidenceLab.LockedLog
import EvidenceLab.ExceptRules
import EvidenceLab.Workflow

namespace Extraction

open Transitions LockedLog Except

/-! ## The places that append events -/

/-- A row of `extraction_run_events`; its key is the run.  The payload is the redacted one. -/
abbrev EventRow := Entry String (EventType × Doc)

abbrev EventStmt := Stmt String (EventType × Doc)

/-- `INSERT INTO extraction_run_events`. -/
def insertEvent (run : String) (type : EventType) (payload : Doc) : EventStmt :=
  .insert run (type, payload)

/-- `PostgresEventStore.append`: `_lock_event_run` and the insertion, in one transaction. -/
def appendScript (run : String) (type : EventType) (payload : Doc) : List EventStmt :=
  [.lock run, insertEvent run type payload]

/-- `finish_review`: the second event when nothing of the run is open. -/
def finishReview (reviewId : String) (run : String) (finished : Bool) : List EventStmt :=
  insertEvent run .reviewCompleted (.obj [("review_id", .str reviewId)])
    :: .other
    :: if finished then
        [insertEvent run .runSucceeded (.obj [("status", .str "succeeded")]), .other]
      else []

/-- The transactions that append events.  A nested `append` that raises takes the outer transaction
with it, so its savepoint is not a step of its own. -/
inductive Site where
  /-- `PostgresEventStore.append` on the worker's connection. -/
  | append (run : String) (type : EventType) (payload : Doc)
  /-- `commit_succeeded_atomic`: the step row, then the nested `append`. -/
  | commitSucceededAtomic (run : String) (payload : Doc)
  /-- `persist_outputs_atomic`: proposals and conflicts, then the nested `append`. -/
  | persistOutputsAtomic (run : String) (payload : Doc)
  /-- `runs.create`, also for a rerun. -/
  | create (run : String) (modes : Doc)
  /-- `runs.cancel`; a queued or running run gets only its marker. -/
  | cancel (run : String) (waitingReview : Bool)
  /-- `review._apply`: the runs of the selected proposals, with what `finish_review` finds, and the
  other runs it locks. -/
  | review (reviewId : String) (selected : List (String × Bool)) (others : List String)

/-- The statements of a site. -/
def Site.script : Site → List EventStmt
  | .append run type payload => appendScript run type payload
  | .commitSucceededAtomic run payload =>
      [.lock run, .other] ++ appendScript run .stepCompleted payload
  | .persistOutputsAtomic run payload =>
      [.lock run, .other] ++ appendScript run .proposalsPersisted payload
  | .create run modes =>
      [.create run, .other, insertEvent run .runQueued (.obj [("modes", modes)]), .other]
  | .cancel run waitingReview =>
      .other :: .lock run :: .other
        :: if waitingReview then
            [insertEvent run .runCancelled (.obj [("status", .str "cancelled")]), .other]
          else []
  | .review reviewId selected others =>
      .other
        :: (((selected.map Prod.fst ++ others).dedup.insertionSort (· ≤ ·)).map .lock
          ++ .other :: selected.flatMap fun s => finishReview reviewId s.1 s.2)

/-- The runs a site has read before it locks them. -/
def Site.reads : Site → List String
  | .append run _ _ | .commitSucceededAtomic run _ | .persistOutputsAtomic run _ | .cancel run _ =>
      [run]
  | .create _ _ => []
  | .review _ selected others => selected.map Prod.fst ++ others

/-- A review writes under the lock of its run. -/
theorem covered_finishReview {held : String → Prop} {run : String} (h : held run)
    (reviewId : String)
    (finished : Bool) : Covered held (finishReview reviewId run finished) := by
  cases finished with
  | true => exact ⟨h, h, trivial⟩
  | false => exact ⟨h, trivial⟩

/-- **Every place that appends an event has the run's lock.** -/
theorem covered_script (site : Site) : Covered (fun _ => False) site.script := by
  cases site with
  | append run type payload => exact ⟨.inr rfl, trivial⟩
  | commitSucceededAtomic run payload => exact ⟨.inl (.inr rfl), trivial⟩
  | persistOutputsAtomic run payload => exact ⟨.inl (.inr rfl), trivial⟩
  | create run modes => exact ⟨.inr rfl, trivial⟩
  | cancel run waitingReview =>
      cases waitingReview with
      | true => exact ⟨.inr rfl, trivial⟩
      | false => trivial
  | review reviewId selected others =>
      refine covered_locks (fun _ => False) ?_
      show Covered _ (selected.flatMap fun s => finishReview reviewId s.1 s.2)
      have hall : ∀ l : List (String × Bool), l ⊆ selected →
          Covered (fun run => False
              ∨ run ∈ (selected.map Prod.fst ++ others).dedup.insertionSort (· ≤ ·))
            (l.flatMap fun s => finishReview reviewId s.1 s.2) := by
        intro l hl
        induction l with
        | nil => trivial
        | cons s l ih =>
            refine (covered_finishReview (.inr ?_) reviewId s.2).append
              (ih fun x hx => hl (List.mem_cons_of_mem s hx))
            have hs : s ∈ selected := hl List.mem_cons_self
            simp only [List.mem_insertionSort, List.mem_dedup, List.mem_append, List.mem_map]
            exact .inl ⟨s, hs, rfl⟩
      exact hall selected fun _ h => h

/-! ## Fetching -/

/-- What `events.project` shows of a row. -/
structure Frame where
  id : ℕ
  run : String
  type : EventType
  payload : Doc

/-- The sizes that a fetch bounds, and the metadata of a payload that may be shown. -/
structure EventTools where
  /-- `octet_length(payload::text)`. -/
  textSize : Doc → ℕ
  /-- The finite metadata fields with checked values, redacted. -/
  safe : Doc → Doc
  /-- `len(frame(event).encode())`. -/
  frameSize : Frame → ℕ

inductive FetchError where
  | notFound (message : String)
  | tooLarge (run : String)
  | validation (message : String)

variable (T : EventTools)

/-- `events.project`. -/
def EventTools.project (row : EventRow) : Except FetchError Frame := do
  raiseIf (¬ (1 ≤ row.id ∧ row.id ≤ 2 ^ 53 - 1)) (.validation "Stored event is not representable.")
  raiseIf (row.payload.2.isObj = false) (.validation "Stored event metadata is invalid.")
  let event : Frame := ⟨row.id, row.key, row.payload.1, T.safe row.payload.2⟩
  raiseIf (T.frameSize event > 65536) (.tooLarge row.key)
  return event

/-- `events.fetch`, on one snapshot of the database. -/
def EventTools.fetch (d : Log String (EventType × Doc)) (run : String) (after : ℕ)
    (checkResume : Bool) : Except FetchError (List Frame) := do
  raiseIf (run ∉ d.keys) (.notFound "Extraction run not found.")
  raiseIf (checkResume ∧ after ≠ 0 ∧ ¬ d.visible.any fun e => e.key == run && e.id == after)
    (.notFound "Extraction event not found.")
  let rows := d.page run after 200
  raiseIf (rows.any fun row => T.textSize row.payload.2 > 65536) (.tooLarge run)
  rows.mapM T.project

/-! ## Runs -/

/-- A reader: where it began, the last id it has seen, and what it got. -/
structure Reader where
  run : String
  start : ℕ
  cursor : ℕ
  delivered : List Frame

structure Stream where
  log : Log String (EventType × Doc)
  readers : ℕ → Option Reader

def Stream.init : Stream := ⟨.init, fun _ => none⟩

def Stream.setReader (s : Stream) (i : ℕ) (r : Reader) : Stream :=
  { s with readers := Function.update s.readers i (some r) }

/-- `last = event["id"]`, for each event of a batch. -/
def lastSeen (after : ℕ) (batch : List Frame) : ℕ := (batch.getLast?.map Frame.id).getD after

inductive StreamAct where
  | start (t : ℕ) (site : Site)
  | exec (t : ℕ)
  | commit (t : ℕ)
  | abort (t : ℕ)
  /-- The first fetch of a reader, with its `Last-Event-ID`. -/
  | subscribe (i : ℕ) (run : String) (after : ℕ)
  /-- The next fetch of a reader. -/
  | fetch (i : ℕ)

/-- A fetch that raises delivers nothing. -/
def Stream.step (s : Stream) : StreamAct → Option Stream
  | .start t site =>
      -- whoever appends to a run has read its row
      if ∀ run ∈ site.reads, run ∈ s.log.keys then
        (s.log.start t site.script).map fun log => { s with log := log }
      else none
  | .exec t => (s.log.exec t).map fun log => { s with log := log }
  | .commit t => (s.log.commit t).map fun log => { s with log := log }
  | .abort t => (s.log.abort t).map fun log => { s with log := log }
  | .subscribe i run after =>
      match s.readers i, T.fetch s.log run after true with
      | none, .ok batch =>
          some (s.setReader i ⟨run, after, lastSeen after batch, batch⟩)
      | none, .error _ => some s
      | some _, _ => none
  | .fetch i =>
      match s.readers i with
      | none => none
      | some r =>
          match T.fetch s.log r.run r.cursor false with
          | .ok batch =>
              some (s.setReader i
                { r with cursor := lastSeen r.cursor batch, delivered := r.delivered ++ batch })
          | .error _ => some s

/-- A fetch of the reader that returns. -/
def Stream.returns (i : ℕ) (s : Stream) : StreamAct → Bool
  | .fetch j =>
      match s.readers j with
      | some r => j == i && (T.fetch s.log r.run r.cursor false).isOk
      | none => false
  | _ => false

/-- What a reader has got is what is visible between its start and its cursor, in order. -/
def Reader.Complete (d : Log String (EventType × Doc)) (r : Reader) : Prop :=
  (d.between r.run r.start r.cursor).mapM T.project = .ok r.delivered

/-- The visible events of the run that the reader gets up to one of them. -/
def Reader.waiting (d : Log String (EventType × Doc)) (r : Reader) (e : EventRow) : ℕ :=
  (d.between r.run r.cursor e.id).length

/-! ## One step -/

variable {T}

/-- A frame has the id of its row. -/
theorem id_of_project {row : EventRow} {frame : Frame} (h : T.project row = .ok frame) :
    frame.id = row.id := by
  simp only [EventTools.project, bind_eq_ok_iff, pure_eq_ok, Except.ok.injEq] at h
  obtain ⟨-, -, -, -, -, -, rfl⟩ := h
  rfl

/-- A batch has the ids of its rows in order. -/
theorem ids_of_mapM_project {rows : List EventRow} {batch : List Frame}
    (h : rows.mapM T.project = .ok batch) : batch.map Frame.id = rows.map Entry.id := by
  rw [mapM_eq_ok_iff] at h
  induction h with
  | nil => rfl
  | cons hx _ ih => rw [List.map_cons, List.map_cons, id_of_project hx, ih]

/-- The cursor after a batch is the last id of its rows. -/
theorem lastSeen_eq {rows : List EventRow} {batch : List Frame} (after : ℕ)
    (h : rows.mapM T.project = .ok batch) : lastSeen after batch = lastId after rows := by
  rw [lastSeen, lastId, ← List.getLast?_map, ← List.getLast?_map, ids_of_mapM_project h]

/-- A fetch returns the next page of a known run. -/
theorem fetch_eq_ok {d : Log String (EventType × Doc)} {run : String} {after : ℕ}
    {checkResume : Bool} {batch : List Frame} (h : T.fetch d run after checkResume = .ok batch) :
    (checkResume = true → d.Seen run after) ∧ (d.page run after 200).mapM T.project
    = .ok batch := by
  simp only [EventTools.fetch, bind_eq_ok_iff, raiseIf_eq_ok_iff] at h
  obtain ⟨-, -, -, hresume, -, -, hbatch⟩ := h
  refine ⟨fun hc => ?_, hbatch⟩
  by_cases hzero : after = 0
  · exact .inl hzero
  · refine .inr ?_
    simpa [hc, hzero] using hresume

/-- A reader keeps what it got, whatever becomes visible. -/
structure Reader.Ok (T : EventTools) (d : Log String (EventType × Doc)) (r : Reader) : Prop where
  complete : r.Complete T d
  seen : d.Seen r.run r.cursor
  start_le : r.start ≤ r.cursor

structure Stream.Ok (T : EventTools) (s : Stream) : Prop where
  sound : Sound s.log
  reader : ∀ i r, s.readers i = some r → r.Ok T s.log

variable {d d' : Log String (EventType × Doc)} {r : Reader} {batch : List Frame}

/-- A reader has delivered what it has as the log grows. -/
theorem Reader.Ok.grow {new : List EventRow} (hr : r.Ok T d) (hd' : Sound d')
    (hvis : d'.visible = d.visible ++ new) : r.Ok T d' where
  complete := by
    rw [Reader.Complete, hd'.between_grow hvis hr.seen]
    exact hr.complete
  seen := hr.seen.grow hvis
  start_le := hr.start_le

/-- A fetch that returned. -/
theorem Reader.Ok.fetched (hd : Sound d) (hr : r.Ok T d)
    (h : (d.page r.run r.cursor 200).mapM T.project = .ok batch) :
    Reader.Ok T d { r with cursor := lastSeen r.cursor batch, delivered := r.delivered
      ++ batch } := by
  obtain ⟨hle, hpage, -⟩ := hd.page_split r.run r.cursor (n := 200) (by omega)
  have hcursor := lastSeen_eq r.cursor h
  rw [hcursor]
  refine ⟨?_, hd.seen_page (by omega) hr.seen, hr.start_le.trans hle⟩
  show (d.between r.run r.start (lastId r.cursor (d.page r.run r.cursor 200))).mapM T.project = _
  have hcomplete : (d.between r.run r.start r.cursor).mapM T.project = .ok r.delivered :=
    hr.complete
  rw [← hd.between_append hr.start_le hle, hpage, List.mapM_append, hcomplete, h]
  rfl

/-- What one step of the stream can do. -/
theorem Stream.step_cases {s s' : Stream} {a : StreamAct} (hs : Sound s.log)
    (h : s.step T a = some s') :
    (∃ log new, s' = { s with log := log } ∧ Sound log ∧ log.visible = s.log.visible ++ new
      ∧ ∀ i, s.returns T i a = false)
    ∨ (∃ i run after batch, s.readers i = none ∧ T.fetch s.log run after true = .ok batch
      ∧ s' = s.setReader i ⟨run, after, lastSeen after batch, batch⟩ ∧ ∀ j, s.returns T j a = false)
    ∨ ∃ i r batch, s.readers i = some r ∧ T.fetch s.log r.run r.cursor false = .ok batch
      ∧ s' = s.setReader i
        { r with cursor := lastSeen r.cursor batch, delivered := r.delivered ++ batch }
      ∧ ∀ j, s.returns T j a = (i == j) := by
  -- a statement, a rollback or a failed fetch changes nothing visible
  have hquiet : ∀ log, s' = { s with log := log } → Sound log ∧ log.visible = s.log.visible →
      (∀ i, s.returns T i a = false) →
      ∃ log new, s' = { s with log := log } ∧ Sound log ∧ log.visible = s.log.visible ++ new
        ∧ ∀ i, s.returns T i a = false :=
    fun log hs' hlog hret => ⟨log, [], hs', hlog.1, by rw [hlog.2, List.append_nil], hret⟩
  cases a with
  | start t site =>
      simp only [Stream.step] at h
      split at h
      · obtain ⟨log, hlog, rfl⟩ := Option.map_eq_some_iff.mp h
        exact .inl (hquiet log rfl (hs.start (covered_script site) hlog) fun _ => rfl)
      · cases h
  | exec t =>
      obtain ⟨log, hlog, rfl⟩ := Option.map_eq_some_iff.mp h
      exact .inl (hquiet log rfl (hs.exec hlog) fun _ => rfl)
  | commit t =>
      obtain ⟨log, hlog, rfl⟩ := Option.map_eq_some_iff.mp h
      obtain ⟨hsound, new, hnew⟩ := hs.commit hlog
      exact .inl ⟨log, new, rfl, hsound, hnew, fun _ => rfl⟩
  | abort t =>
      obtain ⟨log, hlog, rfl⟩ := Option.map_eq_some_iff.mp h
      exact .inl (hquiet log rfl (hs.abort hlog) fun _ => rfl)
  | subscribe i run after =>
      simp only [Stream.step] at h
      split at h
      · rename_i batch hnone hbatch
        obtain rfl := Option.some.inj h
        exact .inr (.inl ⟨i, run, after, batch, hnone, hbatch, rfl, fun _ => rfl⟩)
      · obtain rfl := Option.some.inj h
        exact .inl (hquiet s.log rfl ⟨hs, rfl⟩ fun _ => rfl)
      · cases h
  | fetch i =>
      simp only [Stream.step] at h
      split at h
      · cases h
      · rename_i r hr
        split at h
        · rename_i batch hbatch
          obtain rfl := Option.some.inj h
          refine .inr (.inr ⟨i, r, batch, hr, hbatch, rfl, fun j => ?_⟩)
          simp [Stream.returns, hr, hbatch, Except.isOk, Except.toBool]
        · rename_i e herr
          obtain rfl := Option.some.inj h
          refine .inl (hquiet s.log rfl ⟨hs, rfl⟩ fun j => ?_)
          simp [Stream.returns, hr, herr, Except.isOk, Except.toBool]

/-- A reader may be replaced by one that is in order. -/
theorem Stream.Ok.setReader {s : Stream} (hs : s.Ok T) {r : Reader} (hr : r.Ok T s.log) (i : ℕ) :
    (s.setReader i r).Ok T where
  sound := hs.sound
  reader j r' hj := by
    by_cases hji : j = i
    · subst hji
      simp only [Stream.setReader, Function.update_self, Option.some.injEq] at hj
      exact hj ▸ hr
    · exact hs.reader j r' (by simpa [Stream.setReader, hji] using hj)

/-- **A step** keeps all readers in order. -/
theorem Stream.Ok.step {s s' : Stream} {a : StreamAct} (hs : s.Ok T) (h : s.step T a = some s') :
    s'.Ok T := by
  obtain ⟨log, new, rfl, hlog, hnew, -⟩ | ⟨i, run, after, batch, -, hbatch, rfl, -⟩
    | ⟨i, r, batch, hr, hbatch, rfl, -⟩ := Stream.step_cases hs.sound h
  · exact ⟨hlog, fun i r hr => (hs.reader i r hr).grow hlog hnew⟩
  · refine hs.setReader ?_ i
    obtain ⟨hseen, hpage⟩ := fetch_eq_ok hbatch
    -- a new reader has got nothing up to where it begins
    have hfirst : Reader.Ok T s.log ⟨run, after, after, []⟩ := by
      refine ⟨?_, hseen rfl, le_rfl⟩
      have hnil : s.log.between run after after = [] := by
        refine List.filter_eq_nil_iff.mpr fun e _ => ?_
        simp only [decide_eq_true_eq]
        omega
      show (s.log.between run after after).mapM T.project = .ok []
      rw [hnil]
      rfl
    exact hfirst.fetched hs.sound hpage
  · exact hs.setReader ((hs.reader i r hr).fetched hs.sound (fetch_eq_ok hbatch).2) i

/-- Every reachable state has its readers in order. -/
theorem ok_run {as : List StreamAct} {s : Stream}
    (h : run (Stream.step T) Stream.init as = some s) :
    s.Ok T :=
  run_invariant (fun _ _ _ hs hstep => hs.step hstep)
    ⟨sound_init, fun i r hr => by simp [Stream.init] at hr⟩ h

/-! ## What waits for a reader -/

/-- The events that a reader gets up to a visible one. -/
def Stream.waiting (i : ℕ) (e : EventRow) (s : Stream) : ℕ :=
  match s.readers i with
  | some r => r.waiting s.log e
  | none => 0

/-- A reader of the run of a visible event that began before it. -/
structure Stream.Follows (T : EventTools) (i : ℕ) (e : EventRow) (s : Stream) : Prop where
  ok : s.Ok T
  visible : e ∈ s.log.visible
  reader : ∃ r, s.readers i = some r ∧ r.run = e.key ∧ r.start < e.id

/-- One step brings the event nearer when it is a fetch that returns, and never moves it away. -/
theorem Stream.Follows.step {i : ℕ} {e : EventRow} {s s' : Stream} {a : StreamAct}
    (hs : s.Follows T i e) (h : s.step T a = some s') :
    s'.Follows T i e
      ∧ s'.waiting i e ≤ s.waiting i e - if s.returns T i a then 200 else 0 := by
  have hok := hs.ok.step h
  obtain ⟨r, hr, hrun, hstart⟩ := hs.reader
  obtain ⟨log, new, rfl, hlog, hnew, hret⟩ | ⟨j, run, after, batch, hj, -, rfl, hret⟩
    | ⟨j, r', batch, hj, hbatch, rfl, hret⟩ := Stream.step_cases hs.ok.sound h
  · refine ⟨⟨hok, hnew ▸ List.mem_append_left _ hs.visible, r, hr, hrun, hstart⟩, ?_⟩
    have hseen : s.log.Seen r.run e.id := .inr ⟨e, hs.visible, hrun.symm, rfl⟩
    simp [Stream.waiting, hr, Reader.waiting, hret, hlog.between_grow hnew hseen]
  · have hji : i ≠ j := by
      rintro rfl
      rw [hj] at hr
      cases hr
    have hr' : (s.setReader j ⟨run, after, lastSeen after batch, batch⟩).readers i = some r := by
      simpa [Stream.setReader, hji] using hr
    refine ⟨⟨hok, hs.visible, r, hr', hrun, hstart⟩, ?_⟩
    rw [Stream.waiting, hr', Stream.waiting, hr, hret]
    exact Nat.le_refl _
  · by_cases hji : j = i
    · subst hji
      rw [hr, Option.some.injEq] at hj
      subst hj
      refine ⟨⟨hok, hs.visible,
        { r with cursor := lastSeen r.cursor batch, delivered := r.delivered ++ batch },
        by simp [Stream.setReader], hrun, hstart⟩, ?_⟩
      have hcursor := lastSeen_eq r.cursor (fetch_eq_ok hbatch).2
      have hlen := hs.ok.sound.length_between_page r.run r.cursor e.id (n := 200) (by omega)
      simp only [Stream.waiting, hr, hret, beq_self_eq_true, if_true, Stream.setReader,
        Function.update_self, Reader.waiting, hcursor]
      exact hlen
    · have hr' : (s.setReader j { r' with
          cursor := lastSeen r'.cursor batch
          delivered := r'.delivered ++ batch }).readers i = some r := by
        simpa [Stream.setReader, Ne.symm hji] using hr
      refine ⟨⟨hok, hs.visible, r, hr', hrun, hstart⟩, ?_⟩
      rw [Stream.waiting, hr', Stream.waiting, hr, hret]
      simp [hji, Stream.setReader]

/-- An event that does not wait any more was delivered. -/
theorem Stream.Follows.delivered {i : ℕ} {e : EventRow} {s : Stream} (hs : s.Follows T i e)
    (h : s.waiting i e = 0) :
    ∃ r frame, s.readers i = some r ∧ T.project e = .ok frame ∧ frame ∈ r.delivered := by
  obtain ⟨r, hr, hrun, hstart⟩ := hs.reader
  have hcursor : e.id ≤ r.cursor := by
    by_contra hlt
    simp only [Stream.waiting, hr, Reader.waiting, List.length_eq_zero_iff, Log.between,
      List.filter_eq_nil_iff, decide_eq_true_eq] at h
    exact h e hs.visible ⟨hrun.symm, by omega, le_rfl⟩
  have hmem : e ∈ s.log.between r.run r.start r.cursor := by
    simp only [Log.between, List.mem_filter, decide_eq_true_eq]
    exact ⟨hs.visible, hrun.symm, hstart, hcursor⟩
  obtain ⟨frame, hframe, hproject⟩ := mapM_ok_of_mem (hs.ok.reader i r hr).complete hmem
  exact ⟨r, frame, hr, hproject, hframe⟩

/-- **No event is lost to a reader.**  In every reachable state a reader has got exactly the visible
events of its run between its start and its cursor, each once and in the order of their ids; so
nothing becomes visible behind its cursor.  And an event that is visible is delivered when enough
fetches returned, 200 events at a time. -/
theorem event_stream_complete {as : List StreamAct} {s : Stream}
    (h : run (Stream.step T) Stream.init as = some s) :
    (∀ i r, s.readers i = some r →
      r.Complete T s.log ∧ (r.delivered.map Frame.id).Pairwise (· < ·))
    ∧ ∀ i r e, s.readers i = some r → e ∈ s.log.visible → e.key = r.run → r.start < e.id →
        ∀ bs s', run (Stream.step T) s bs = some s' →
          r.waiting s.log e ≤ 200 * count (Stream.step T) (Stream.returns T i) s bs →
          ∃ r' frame, s'.readers i = some r' ∧ T.project e = .ok frame ∧ frame ∈ r'.delivered := by
  have hok := ok_run h
  refine ⟨fun i r hr => ?_, fun i r e hr he hkey hstart bs s' hbs henough => ?_⟩
  · have hcomplete := (hok.reader i r hr).complete
    refine ⟨hcomplete, ?_⟩
    rw [ids_of_mapM_project hcomplete, List.pairwise_map]
    exact hok.sound.between_ordered
  · have hs : s.Follows T i e := ⟨hok, he, r, hr, hkey.symm, hstart⟩
    have hs' : s'.Follows T i e := run_invariant (fun _ _ _ hs hstep => (hs.step hstep).1) hs hbs
    have hrank := run_rank (fun _ _ _ hs hstep => (Stream.Follows.step hs hstep).1)
      (fun _ _ _ hs hstep => (Stream.Follows.step hs hstep).2) hs hbs
    refine hs'.delivered ?_
    have hfirst : s.waiting i e = r.waiting s.log e := by simp [Stream.waiting, hr]
    rw [hfirst] at hrank
    exact Nat.le_zero.mp (hrank.trans (Nat.sub_eq_zero_of_le henough).le)

/-! ## Two writers and a reader -/

/-- Nothing is too large. -/
def smallEvents : EventTools := ⟨fun _ => 0, id, fun _ => 0⟩

/-- The run is created, one worker appends while another waits for its lock, and the reader gets the
three events in the order of their ids. -/
def twoWriters : List StreamAct :=
  [.start 0 (.create "r" .null), .exec 0, .exec 0, .exec 0, .exec 0, .commit 0,
    .start 1 (.append "r" .runStarted (.obj [])), .exec 1, .exec 1, .subscribe 0 "r" 0,
    .start 2 (.commitSucceededAtomic "r" (.obj [])), .commit 1, .exec 2, .exec 2, .exec 2, .exec 2,
    .commit 2, .fetch 0]

theorem event_stream_complete_twoWriters : ∃ s,
    run (Stream.step smallEvents) Stream.init twoWriters = some s
      ∧ ((s.readers 0).map fun r => r.delivered.map fun f => (f.id, f.type))
        = some [(1, .runQueued), (2, .runStarted), (3, .stepCompleted)]
      ∧ (∀ i r, s.readers i = some r →
        r.Complete smallEvents s.log ∧ (r.delivered.map Frame.id).Pairwise (· < ·))
      ∧ ∀ i r e, s.readers i = some r → e ∈ s.log.visible → e.key = r.run → r.start < e.id →
        ∀ bs s', run (Stream.step smallEvents) s bs = some s' →
          r.waiting s.log e
            ≤ 200 * count (Stream.step smallEvents) (Stream.returns smallEvents i) s bs →
          ∃ r' frame, s'.readers i = some r' ∧ smallEvents.project e = .ok frame
            ∧ frame ∈ r'.delivered :=
  ⟨_, rfl, rfl, event_stream_complete
    (show run (Stream.step smallEvents) Stream.init twoWriters = some _ from rfl)⟩

end Extraction
