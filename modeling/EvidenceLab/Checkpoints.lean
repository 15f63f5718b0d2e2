/-
# Checkpoints of a run's steps

The table `extraction_run_steps` of one run, under any number of workers with a
`PostgresCheckpointStore` each.

* A row carries the version (`xmin`) of its last write.  `load_succeeded` keeps the version of the
  row it read, `reject_loaded` releases it for a repair, and a commit inserts the first success of
  its key or updates exactly the version that was released.
* The transactions of the stores are serialized by the lock of the run's row: each call is one step.
* `checkpoint_compare_and_swap`: one success for each key, and a commit replaces a row only when its
  worker read that version of it.
-/
import EvidenceLab.Transitions
import EvidenceLab.Workflow

namespace Extraction

open Transitions

/-! ## The table -/

/-- The success key of a step of the run. -/
structure StepKey where
  stage : Stage
  inputHash : String
  workflowVersion : String
  deriving DecidableEq

/-- `(id, xmin)` of a row. -/
structure Version where
  id : ℕ
  xmin : ℕ
  deriving DecidableEq

/-- A row of `extraction_run_steps`. -/
structure StepRow where
  version : Version
  workflowVersion : String
  record : StageRecord

def keyOf (workflowVersion : String) (record : StageRecord) : StepKey :=
  ⟨record.stage, record.inputHash, workflowVersion⟩

def StepRow.key (row : StepRow) : StepKey := keyOf row.workflowVersion row.record

/-- `status = 'succeeded'` at the key. -/
def StepRow.isSuccess (key : StepKey) (row : StepRow) : Bool :=
  row.record.status == .succeeded && row.key == key

/-- The rows that the two unique indexes keep a record from joining. -/
def StepRow.conflicts (workflowVersion : String) (record : StageRecord) (row : StepRow) : Bool :=
  (row.record.stage == record.stage && row.record.attempt == record.attempt)
    || (record.status == .succeeded && row.isSuccess (keyOf workflowVersion record))

/-- The attempts of a step. -/
def attemptsOf (rows : List StepRow) (stage : Stage) : List ℕ :=
  (rows.filter fun r => r.record.stage == stage).map fun r => r.record.attempt

/-- A success takes a free attempt when a failed row holds its own. -/
def renumbered (rows : List StepRow) (record : StageRecord) : StageRecord :=
  if record.status = .succeeded ∧ rows.any (fun r => r.record.stage == record.stage
      && r.record.attempt == record.attempt && r.record.status == .failed) then
    { record with attempt := (attemptsOf rows record.stage).foldr max 0 + 1 }
  else record

/-- `INSERT … ON CONFLICT DO NOTHING`: the table, when the row joined it. -/
def insertRow (rows : List StepRow) (workflowVersion : String) (record : StageRecord)
    (version : Version) : Option (List StepRow) :=
  if rows.any (StepRow.conflicts workflowVersion record) then none
  else some (rows ++ [⟨version, workflowVersion, record⟩])

/-- The repair's `SET`. -/
def StepRow.repaired (row : StepRow) (record : StageRecord) (xmin : ℕ) : StepRow :=
  { row with
    version := { row.version with xmin := xmin }
    record := { row.record with
      output := record.output
      outputHash := record.outputHash
      providerResponseId := record.providerResponseId
      inputTokens := record.inputTokens
      outputTokens := record.outputTokens
      costUsd := record.costUsd
      error := record.error } }

/-- The repair's `WHERE`. -/
def StepRow.isTarget (key : StepKey) (version : Version) (row : StepRow) : Bool :=
  row.isSuccess key && row.version == version

/-! ## The stores -/

/-- A worker's store.  An object that was loaded is known by its `handle`. -/
structure CheckpointStore where
  memory : StepKey → Option StageRecord
  loaded : StepKey → Option (ℕ × Version)
  rejected : StepKey → Option Version

def CheckpointStore.empty : CheckpointStore := ⟨fun _ => none, fun _ => none, fun _ => none⟩

/-- A fresh `MemoryCheckpointStore`. -/
def CheckpointStore.forget (c : CheckpointStore) : CheckpointStore :=
  { c with memory := fun _ => none }

/-- A fresh `MemoryCheckpointStore` with one success. -/
def CheckpointStore.remember (c : CheckpointStore) (key : StepKey) (record : StageRecord) :
    CheckpointStore :=
  { c with memory := Function.update (fun _ => none) key (some record) }

/-- What a load returned, and to whom. -/
structure Read where
  worker : ℕ
  key : StepKey
  row : StepRow

/-- The table, the `step_completed` events with their attempts, the stores, what was read, and the
next transaction. -/
structure Steps where
  rows : List StepRow
  events : List (StepKey × ℕ)
  stores : ℕ → CheckpointStore
  reads : List Read
  xid : ℕ

def Steps.init : Steps := ⟨[], [], fun _ => .empty, [], 0⟩

def Steps.setStore (s : Steps) (w : ℕ) (c : CheckpointStore) : Steps :=
  { s with stores := Function.update s.stores w c }

/-- `load_succeeded`; the handle of the object it builds is the next transaction. -/
def Steps.load (s : Steps) (w : ℕ) (key : StepKey) : Steps :=
  let c := s.stores w
  match s.rows.find? (StepRow.isSuccess key) with
  | none =>
      s.setStore w { c with
        loaded := Function.update c.loaded key none
        rejected := Function.update c.rejected key none }
  | some row =>
      { s.setStore w { c with
          loaded := Function.update c.loaded key (some (s.xid, row.version))
          rejected := Function.update c.rejected key none } with
        reads := ⟨w, key, row⟩ :: s.reads
        xid := s.xid + 1 }

/-- `reject_loaded` of the object with the handle. -/
def Steps.reject (s : Steps) (w : ℕ) (key : StepKey) (handle : ℕ) : Steps :=
  let c := s.stores w
  match c.loaded key with
  | some (h, version) =>
      if h = handle
        then s.setStore w { c with rejected := Function.update c.rejected key (some version) }
      else s
  | none => s

/-- `_insert_step_row` of a success: the table and the record, or the exception. -/
def Steps.insertStepRow (s : Steps) (w : ℕ) (workflowVersion : String) (record : StageRecord)
    (id : ℕ) : Except Exc (List StepRow × StageRecord) :=
  let key := keyOf workflowVersion record
  let record := renumbered s.rows record
  match insertRow s.rows workflowVersion record ⟨id, s.xid⟩ with
  | some rows => .ok (rows, record)
  | none =>
      match (s.stores w).rejected key with
      | none => .error (.leaseLost "checkpoint conflict without rejected row")
      | some version =>
          match s.rows.find? (StepRow.isTarget key version) with
          | none => .error (.leaseLost "checkpoint changed since rejection")
          | some row =>
              .ok (s.rows.map fun r =>
                  if r.isTarget key version then r.repaired record s.xid else r,
                { record with attempt := row.record.attempt })

/-- `commit_succeeded`, and `commit_succeeded_atomic` with its event. -/
def Steps.commit (s : Steps) (w : ℕ) (atomic : Bool) (workflowVersion : String)
    (record : StageRecord) (id : ℕ) : Steps × Except Exc StageRecord :=
  match s.insertStepRow w workflowVersion record id with
  | .error e => ({ s.setStore w (s.stores w).forget with xid := s.xid + 1 }, .error e)
  | .ok (rows, record) =>
      let key := keyOf workflowVersion record
      ({ s.setStore w ((s.stores w).remember key record) with
          rows := rows
          events := if atomic then s.events ++ [(key, record.attempt)] else s.events
          xid := s.xid + 1 },
        .ok record)

/-- `commit_failed`: a row that meets another is dropped. -/
def Steps.commitFailed (s : Steps) (workflowVersion : String) (record : StageRecord) (id : ℕ) :
    Steps :=
  { s with
    rows := (insertRow s.rows workflowVersion record ⟨id, s.xid⟩).getD s.rows
    xid := s.xid + 1 }

/-- The calls of the workers.  A row's id is a fresh `uuid`. -/
inductive StepAct where
  | load (w : ℕ) (key : StepKey)
  | reject (w : ℕ) (key : StepKey) (handle : ℕ)
  | commit (w : ℕ) (atomic : Bool) (workflowVersion : String) (record : StageRecord) (id : ℕ)
  | commitFailed (w : ℕ) (workflowVersion : String) (record : StageRecord) (id : ℕ)

def Steps.isFresh (s : Steps) (id : ℕ) : Bool := s.rows.all fun r => r.version.id != id

def Steps.step (s : Steps) : StepAct → Option Steps
  | .load w key => some (s.load w key)
  | .reject w key handle => some (s.reject w key handle)
  | .commit w atomic workflowVersion record id =>
      if record.status = .succeeded ∧ s.isFresh id then
        some (s.commit w atomic workflowVersion record id).1
      else none
  | .commitFailed _ workflowVersion record id =>
      if record.status = .failed ∧ s.isFresh id then some (s.commitFailed workflowVersion record id)
      else none

/-! ## The property -/

/-- The successes at a key. -/
def Steps.successes (s : Steps) (key : StepKey) : List StepRow :=
  s.rows.filter (StepRow.isSuccess key)

/-- What a commit that returned did: it inserted the first success of its key, or it replaced the
one row whose version the worker had rejected after it read that row. -/
def Steps.Wrote (s s' : Steps) (w : ℕ) (workflowVersion : String) (record committed : StageRecord)
    (id : ℕ) : Prop :=
  let key := keyOf workflowVersion record
  (s.successes key = [] ∧ s'.rows = s.rows ++ [⟨⟨id, s.xid⟩, workflowVersion, committed⟩])
    ∨ ∃ pre row post, s.rows = pre ++ row :: post
        ∧ s'.rows = pre ++ row.repaired committed s.xid :: post
        ∧ s.successes key = [row] ∧ (s.stores w).rejected key = some row.version
        ∧ ⟨w, key, row⟩ ∈ s.reads

/-- What a commit may do. -/
def Steps.CommitOk (s : Steps) (w : ℕ) (atomic : Bool) (workflowVersion : String)
    (record : StageRecord) (id : ℕ) : Prop :=
  let key := keyOf workflowVersion record
  let s' := (s.commit w atomic workflowVersion record id).1
  match (s.commit w atomic workflowVersion record id).2 with
  | .ok committed =>
      s.Wrote s' w workflowVersion record committed id
        ∧ s'.events = s.events ++ (if atomic then [(key, committed.attempt)] else [])
        ∧ (s'.stores w).memory key = some committed
  | .error e =>
      (∃ message, e = .leaseLost message) ∧ s'.rows = s.rows ∧ s'.events = s.events
        ∧ (s'.stores w).memory key = none

/-- A committed success leaves the table only when the worker that replaces it read it. -/
def Steps.OverwriteRead (s s' : Steps) (a : StepAct) : Prop :=
  ∀ row ∈ s.rows, row.record.status = .succeeded → row ∉ s'.rows →
    ∃ w atomic workflowVersion record id,
      a = .commit w atomic workflowVersion record id ∧ ⟨w, row.key, row⟩ ∈ s.reads

/-! ## One call -/

/-- Numbering a record keeps its key. -/
@[simp] theorem keyOf_renumbered (rows : List StepRow) (workflowVersion : String)
    (record : StageRecord) :
    keyOf workflowVersion (renumbered rows record) = keyOf workflowVersion record := by
  unfold renumbered
  split <;> rfl

@[simp] theorem status_renumbered (rows : List StepRow) (record : StageRecord) :
    (renumbered rows record).status = record.status := by
  unfold renumbered
  split <;> rfl

/-- A row is inserted if its version is the next one. -/
theorem insertRow_eq_some {rows rows' : List StepRow} {workflowVersion : String}
    {record : StageRecord} {version : Version}
    (h : insertRow rows workflowVersion record version = some rows') :
    (∀ r ∈ rows, r.conflicts workflowVersion record = false)
      ∧ rows' = rows ++ [⟨version, workflowVersion, record⟩] := by
  unfold insertRow at h
  split at h
  · cases h
  · rename_i hnone
    refine ⟨fun r hr => ?_, (Option.some.inj h).symm⟩
    by_contra hc
    exact hnone (List.any_eq_true.mpr ⟨r, hr, by simpa using hc⟩)

/-- A success joins the table only as the first at its key. -/
theorem successes_of_insertRow {s : Steps} {rows' : List StepRow} {workflowVersion : String}
    {record : StageRecord} {version : Version} (hs : record.status = .succeeded)
    (h : insertRow s.rows workflowVersion record version = some rows') :
    s.successes (keyOf workflowVersion record) = [] := by
  refine List.filter_eq_nil_iff.mpr fun r hr hsucc => ?_
  have hfree := (insertRow_eq_some h).1 r hr
  simp [StepRow.conflicts, hs, hsucc] at hfree

/-- The outcomes of `_insert_step_row` for a success. -/
theorem insertStepRow_cases (s : Steps) (w : ℕ) (workflowVersion : String) {record : StageRecord}
    (id : ℕ) (hs : record.status = .succeeded) :
    (∃ message, s.insertStepRow w workflowVersion record id = .error (.leaseLost message))
    ∨ (s.successes (keyOf workflowVersion record) = []
        ∧ s.insertStepRow w workflowVersion record id
          = .ok (s.rows ++ [⟨⟨id, s.xid⟩, workflowVersion, renumbered s.rows record⟩],
              renumbered s.rows record))
    ∨ ∃ row ∈ s.successes (keyOf workflowVersion record),
        (s.stores w).rejected (keyOf workflowVersion record) = some row.version
        ∧ s.insertStepRow w workflowVersion record id
          = .ok (s.rows.map fun r =>
                if r.isTarget (keyOf workflowVersion record) row.version then
                  r.repaired (renumbered s.rows record) s.xid
                else r,
              { renumbered s.rows record with attempt := row.record.attempt }) := by
  simp only [Steps.insertStepRow]
  cases hins : insertRow s.rows workflowVersion (renumbered s.rows record) ⟨id, s.xid⟩ with
  | some rows' =>
      right; left
      have hnone := successes_of_insertRow (s := s) (by simpa using hs) hins
      rw [keyOf_renumbered] at hnone
      exact ⟨hnone, by rw [(insertRow_eq_some hins).2]⟩
  | none =>
      cases hrej : (s.stores w).rejected (keyOf workflowVersion record) with
      | none => exact .inl ⟨_, rfl⟩
      | some version =>
          cases hfind : s.rows.find? (StepRow.isTarget (keyOf workflowVersion record) version) with
          | none => exact .inl ⟨"checkpoint changed since rejection", by simp only [hfind]⟩
          | some row =>
              right; right
              have htarget := List.find?_some hfind
              simp only [StepRow.isTarget, Bool.and_eq_true, beq_iff_eq] at htarget
              obtain ⟨hsucc, rfl⟩ := htarget
              exact ⟨row, List.mem_filter.mpr ⟨List.mem_of_find?_eq_some hfind, hsucc⟩, rfl,
                by simp only [hfind]⟩

/-! ## The invariant -/

/-- A version that a store keeps is one that its worker read. -/
def CheckpointStore.Backed (reads : List Read) (w : ℕ) (c : CheckpointStore) : Prop :=
  ∀ key version, (∃ handle, c.loaded key = some (handle, version)) ∨ c.rejected key = some version →
    ∃ row, ⟨w, key, row⟩ ∈ reads ∧ row.version = version

/-- What every reachable state has.  A transaction writes one row, so a version names one content of
one row for good. -/
structure Steps.Inv (s : Steps) : Prop where
  unique : ∀ key, (s.successes key).length ≤ 1
  rows_old : ∀ r ∈ s.rows, r.version.xmin < s.xid
  distinct : ∀ r ∈ s.rows, ∀ r' ∈ s.rows, r.version = r'.version → r = r'
  reads_old : ∀ read ∈ s.reads, read.row.version.xmin < s.xid
  immutable : ∀ read ∈ s.reads, ∀ r ∈ s.rows, r.version = read.row.version → r = read.row
  backed : ∀ w, (s.stores w).Backed s.reads w

theorem steps_inv_init : Steps.init.Inv := by
  constructor <;> simp [Steps.init, Steps.successes, CheckpointStore.empty, CheckpointStore.Backed]

/-- What backs a store backs it with more reads. -/
theorem CheckpointStore.Backed.mono {reads reads' : List Read} {w : ℕ} {c : CheckpointStore}
    (h : c.Backed reads w) (hsub : reads ⊆ reads') : c.Backed reads' w := by
  intro key version hk
  obtain ⟨row, hrow, hv⟩ := h key version hk
  exact ⟨row, hsub hrow, hv⟩

theorem backed_update {stores : ℕ → CheckpointStore} {reads : List Read} {w : ℕ}
    {c : CheckpointStore} (h : ∀ w', (stores w').Backed reads w') (hc : c.Backed reads w) (w' : ℕ) :
    (Function.update stores w c w').Backed reads w' := by
  by_cases hw : w' = w
  · subst hw
    simpa using hc
  · simpa [hw] using h w'

/-- A load forgets the versions of its key and keeps the one it read. -/
theorem backed_load {reads : List Read} {w : ℕ} {c : CheckpointStore} {key : StepKey}
    {seen : Option (ℕ × Version)} (hc : c.Backed reads w)
    (hseen : ∀ p ∈ seen, ∃ row, ⟨w, key, row⟩ ∈ reads ∧ row.version = p.2) :
    CheckpointStore.Backed reads w { c with
      loaded := Function.update c.loaded key seen
      rejected := Function.update c.rejected key none } := by
  intro key' version h
  by_cases hk : key' = key
  · subst hk
    simp only [Function.update_self, reduceCtorEq, or_false] at h
    obtain ⟨handle, h⟩ := h
    exact hseen (handle, version) h
  · exact hc key' version (by simpa [hk] using h)

/-- **Loading** keeps the invariant. -/
theorem inv_load {s : Steps} (hI : s.Inv) (w : ℕ) (key : StepKey) : (s.load w key).Inv := by
  unfold Steps.load
  cases hfind : s.rows.find? (StepRow.isSuccess key) with
  | none =>
      exact { hI with backed := backed_update hI.backed (backed_load (hI.backed w) (by simp)) }
  | some row =>
      have hrow : row ∈ s.rows := List.mem_of_find?_eq_some hfind
      have hxid := hI.rows_old row hrow
      have hsub : s.reads ⊆ ⟨w, key, row⟩ :: s.reads := List.subset_cons_self ..
      refine
        { unique := hI.unique
          rows_old := fun r hr => Nat.lt_succ_of_lt (hI.rows_old r hr)
          distinct := hI.distinct
          reads_old := ?_
          immutable := ?_
          backed := ?_ }
      · intro read hread
        rcases List.mem_cons.mp hread with rfl | hread
        · exact Nat.lt_succ_of_lt hxid
        · exact Nat.lt_succ_of_lt (hI.reads_old read hread)
      · intro read hread r hr hv
        rcases List.mem_cons.mp hread with rfl | hread
        · exact hI.distinct r hr row hrow hv
        · exact hI.immutable read hread r hr hv
      · refine backed_update (fun w' => CheckpointStore.Backed.mono (hI.backed w') hsub)
          (backed_load (CheckpointStore.Backed.mono (hI.backed w) hsub) ?_)
        intro p hp
        obtain rfl := Option.mem_some_iff.mp hp
        exact ⟨row, List.mem_cons_self, rfl⟩

/-- **Rejecting a checkpoint** keeps the invariant. -/
theorem inv_reject {s : Steps} (hI : s.Inv) (w : ℕ) (key : StepKey) (handle : ℕ) :
    (s.reject w key handle).Inv := by
  simp only [Steps.reject]
  cases hload : (s.stores w).loaded key with
  | none => exact hI
  | some p =>
      obtain ⟨h, version⟩ := p
      simp only
      split
      · refine { hI with backed := backed_update hI.backed ?_ }
        intro key' version' hk
        by_cases hkey : key' = key
        · subst hkey
          simp only [Function.update_self, Option.some.injEq] at hk
          rcases hk with hk | rfl
          · exact hI.backed w key' version' (.inl hk)
          · exact hI.backed w key' version (.inl ⟨h, hload⟩)
        · exact hI.backed w key' version' (by simpa [hkey] using hk)
      · exact hI

/-- A transaction that writes at most one row, under its own number. -/
theorem Steps.Inv.write {s : Steps} (hI : s.Inv) {rows' : List StepRow}
    {events' : List (StepKey × ℕ)}
    {w : ℕ} {c : CheckpointStore} (hc : c.Backed s.reads w)
    (hunique : ∀ key, (rows'.filter (StepRow.isSuccess key)).length ≤ 1)
    (hnew : ∀ r ∈ rows', r ∈ s.rows ∨ r.version.xmin = s.xid)
    (hone : ∀ r ∈ rows', ∀ r' ∈ rows', r.version.xmin = s.xid → r'.version.xmin = s.xid → r = r') :
    Steps.Inv { s.setStore w c with rows := rows', events := events', xid := s.xid + 1 } := by
  have hold : ∀ r ∈ s.rows, r.version.xmin ≠ s.xid := fun r hr => (hI.rows_old r hr).ne
  refine
    { unique := hunique
      rows_old := ?_
      distinct := ?_
      reads_old := fun read hread => Nat.lt_succ_of_lt (hI.reads_old read hread)
      immutable := ?_
      backed := backed_update hI.backed hc }
  · intro r hr
    show r.version.xmin < s.xid + 1
    rcases hnew r hr with h | h
    · exact Nat.lt_succ_of_lt (hI.rows_old r h)
    · omega
  · intro r hr r' hr' hv
    have hx : r.version.xmin = r'.version.xmin := by rw [hv]
    rcases hnew r hr with h | h
    · rcases hnew r' hr' with h' | h'
      · exact hI.distinct r h r' h' hv
      · exact absurd (hx.trans h') (hold r h)
    · exact hone r hr r' hr' h (hx ▸ h)
  · intro read hread r hr hv
    rcases hnew r hr with h | h
    · exact hI.immutable read hread r h hv
    · -- the transaction is later than every read
      have hlt := hI.reads_old read hread
      rw [← hv, h] at hlt
      exact absurd hlt (lt_irrefl _)

/-- A row that joined the table. -/
theorem Steps.Inv.insert {s : Steps} (hI : s.Inv) {workflowVersion : String} {record : StageRecord}
    {id : ℕ} {events' : List (StepKey × ℕ)} {w : ℕ} {c : CheckpointStore}
    (hc : c.Backed s.reads w)
    (hfirst : record.status = .succeeded → s.successes (keyOf workflowVersion record) = []) :
    Steps.Inv { s.setStore w c with
      rows := s.rows ++ [⟨⟨id, s.xid⟩, workflowVersion, record⟩]
      events := events'
      xid := s.xid + 1 } := by
  refine hI.write hc ?_ ?_ ?_
  · intro key
    rw [List.filter_append, List.length_append]
    by_cases hk : StepRow.isSuccess key ⟨⟨id, s.xid⟩, workflowVersion, record⟩ = true
    · have hk' := hk
      simp only [StepRow.isSuccess, StepRow.key, Bool.and_eq_true, beq_iff_eq] at hk'
      obtain ⟨hs, rfl⟩ := hk'
      have hnil : s.rows.filter (StepRow.isSuccess (keyOf workflowVersion record)) = [] := hfirst hs
      simp [hnil, hk]
    · have hlen : (s.rows.filter (StepRow.isSuccess key)).length ≤ 1 := hI.unique key
      simpa [List.filter_cons, hk] using hlen
  · intro r hr
    rcases List.mem_append.mp hr with h | h
    · exact .inl h
    · rw [List.mem_singleton] at h
      exact .inr (by rw [h])
  · have hnew : ∀ r ∈ s.rows ++ [⟨⟨id, s.xid⟩, workflowVersion, record⟩], r.version.xmin = s.xid →
        r = ⟨⟨id, s.xid⟩, workflowVersion, record⟩ := by
      intro r hr hx
      rcases List.mem_append.mp hr with h | h
      · exact absurd hx (hI.rows_old r h).ne
      · exact List.mem_singleton.mp h
    intro r hr r' hr' hx hx'
    rw [hnew r hr hx, hnew r' hr' hx']

/-- The repair touches one row: the one success at the key. -/
theorem Steps.Inv.repair_eq {s : Steps} (hI : s.Inv) {key : StepKey} {row : StepRow}
    (hrow : row ∈ s.successes key) (record : StageRecord) :
    s.successes key = [row] ∧ ∃ pre post, s.rows = pre ++ row :: post
      ∧ (s.rows.map fun r => if r.isTarget key row.version then r.repaired record s.xid else r)
        = pre ++ row.repaired record s.xid :: post := by
  have hone : s.successes key = [row] := by
    cases hsucc : s.successes key with
    | nil => rw [hsucc] at hrow; cases hrow
    | cons a l =>
        have hlen := hI.unique key
        rw [hsucc] at hlen hrow
        obtain rfl : l = [] := List.eq_nil_of_length_eq_zero (by simpa using hlen)
        rw [List.mem_singleton.mp hrow]
  refine ⟨hone, ?_⟩
  obtain ⟨pre, post, hrows, hpre, hsucc, hpost⟩ := List.filter_eq_cons_iff.mp hone
  have hother : ∀ r : StepRow, ¬ r.isSuccess key = true →
      (if r.isTarget key row.version then r.repaired record s.xid else r) = r := by
    intro r hr
    simp [StepRow.isTarget, hr]
  refine ⟨pre, post, hrows, ?_⟩
  rw [hrows, List.map_append, List.map_cons, List.map_congr_left fun r hr => hother r (hpre r hr),
    List.map_congr_left fun r hr => hother r (List.filter_eq_nil_iff.mp hpost r hr), List.map_id',
    List.map_id', if_pos (by simp [StepRow.isTarget, hsucc])]

/-- A repair keeps the identity of its row. -/
@[simp] theorem isSuccess_repaired (key : StepKey) (row : StepRow) (record : StageRecord)
    (xmin : ℕ) :
    (row.repaired record xmin).isSuccess key = row.isSuccess key := rfl

/-- **Repairing a row** keeps the invariant. -/
theorem Steps.Inv.repair {s : Steps} (hI : s.Inv) {pre post : List StepRow} {row : StepRow}
    {record : StageRecord} {events' : List (StepKey × ℕ)} {w : ℕ} {c : CheckpointStore}
    (hc : c.Backed s.reads w) (hrows : s.rows = pre ++ row :: post) :
    Steps.Inv { s.setStore w c with
      rows := pre ++ row.repaired record s.xid :: post
      events := events'
      xid := s.xid + 1 } := by
  have hkept : ∀ r ∈ pre ++ row.repaired record s.xid :: post,
      r ∈ s.rows ∨ r = row.repaired record s.xid := by
    intro r hr
    rw [hrows]
    simp only [List.mem_append, List.mem_cons] at hr ⊢
    tauto
  refine hI.write hc ?_ ?_ ?_
  · intro key
    have hlen := hI.unique key
    rw [Steps.successes, hrows] at hlen
    by_cases hk : row.isSuccess key = true
    · simpa [List.filter_cons, hk] using hlen
    · simpa [List.filter_cons, hk] using hlen
  · intro r hr
    rcases hkept r hr with h | rfl
    · exact .inl h
    · exact .inr rfl
  · have hnew : ∀ r ∈ pre ++ row.repaired record s.xid :: post, r.version.xmin = s.xid →
        r = row.repaired record s.xid := by
      intro r hr hx
      rcases hkept r hr with h | h
      · exact absurd hx (hI.rows_old r h).ne
      · exact h
    intro r hr r' hr' hx hx'
    rw [hnew r hr hx, hnew r' hr' hx']

/-- A commit keeps the invariant, and does what it may. -/
theorem Steps.Inv.commit {s : Steps} (hI : s.Inv) (w : ℕ) (atomic : Bool) (workflowVersion : String)
    {record : StageRecord} (id : ℕ) (hs : record.status = .succeeded) :
    (s.commit w atomic workflowVersion record id).1.Inv
      ∧ s.CommitOk w atomic workflowVersion record id := by
  have hevents : ∀ p, (if atomic then s.events ++ [p] else s.events)
      = s.events ++ if atomic then [p] else [] := by
    intro p
    cases atomic <;> simp
  rcases insertStepRow_cases s w workflowVersion id hs
    with ⟨message, h⟩ | ⟨hnil, h⟩ | ⟨row, hrow, hrej, h⟩
  · simp only [Steps.commit, Steps.CommitOk, h]
    refine ⟨?_, ⟨message, rfl⟩, rfl, rfl, by simp [Steps.setStore, CheckpointStore.forget]⟩
    exact hI.write (hI.backed w) hI.unique (fun r hr => .inl hr)
      fun r hr _ _ hx _ => absurd hx (hI.rows_old r hr).ne
  · simp only [Steps.commit, Steps.CommitOk, h, keyOf_renumbered]
    refine ⟨?_, .inl ⟨hnil, rfl⟩, hevents _,
      by simp [Steps.setStore, CheckpointStore.remember]⟩
    exact hI.insert (hI.backed w) fun _ => by rw [keyOf_renumbered]; exact hnil
  · obtain ⟨hone, pre, post, hrows, hmap⟩ := hI.repair_eq hrow (renumbered s.rows record)
    obtain ⟨read, hread, hv⟩ := hI.backed w _ _ (.inr hrej)
    have hseen : row = read :=
      hI.immutable _ hread row (List.mem_filter.mp hrow).1 hv.symm
    subst hseen
    have hkey :
        ∀ attempt, keyOf workflowVersion { renumbered s.rows record with attempt := attempt }
        = keyOf workflowVersion record := fun _ => keyOf_renumbered s.rows workflowVersion record
    simp only [Steps.commit, Steps.CommitOk, h, hkey]
    refine ⟨?_, .inr ⟨pre, row, post, hrows, hmap, hone, hrej, hread⟩, hevents _,
      by simp [Steps.setStore, CheckpointStore.remember]⟩
    rw [hmap]
    exact hI.repair (hI.backed w) hrows

/-- A failed attempt changes no success. -/
theorem Steps.Inv.commitFailed {s : Steps} (hI : s.Inv) (workflowVersion : String)
    {record : StageRecord} (id : ℕ) (hs : record.status = .failed) :
    (s.commitFailed workflowVersion record id).Inv
      ∧ ∀ row ∈ s.rows, row ∈ (s.commitFailed workflowVersion record id).rows := by
  have hstore : s.setStore 0 (s.stores 0) = s := by
    simp [Steps.setStore]
  unfold Steps.commitFailed
  cases hins : insertRow s.rows workflowVersion record ⟨id, s.xid⟩ with
  | none =>
      refine ⟨?_, fun row hrow => hrow⟩
      have hinv : Steps.Inv { s.setStore 0 (s.stores 0) with xid := s.xid + 1 } :=
        hI.write (hI.backed 0) hI.unique (fun r hr => .inl hr)
          fun r hr _ _ hx _ => absurd hx (hI.rows_old r hr).ne
      rwa [hstore] at hinv
  | some rows' =>
      rw [(insertRow_eq_some hins).2]
      refine ⟨?_, fun row hrow => List.mem_append_left _ hrow⟩
      have hinv : Steps.Inv { s.setStore 0 (s.stores 0) with
          rows := s.rows ++ [⟨⟨id, s.xid⟩, workflowVersion, record⟩]
          xid := s.xid + 1 } :=
        hI.insert (hI.backed 0) fun h => by rw [hs] at h; cases h
      rwa [hstore] at hinv

/-- The row that a commit replaces is the one its worker read. -/
theorem overwriteRead_of_commitOk {s : Steps} {w : ℕ} {atomic : Bool} {workflowVersion : String}
    {record : StageRecord} {id : ℕ} (h : s.CommitOk w atomic workflowVersion record id) :
    s.OverwriteRead (s.commit w atomic workflowVersion record id).1
      (.commit w atomic workflowVersion record id) := by
  intro row hrow _ hgone
  refine ⟨w, atomic, workflowVersion, record, id, rfl, ?_⟩
  unfold Steps.CommitOk at h
  generalize s.commit w atomic workflowVersion record id = out at h hgone
  obtain ⟨s', res⟩ := out
  cases res with
  | error e =>
      obtain ⟨-, hrows, -⟩ := h
      exact absurd hrow (hrows ▸ hgone)
  | ok committed =>
      obtain ⟨⟨-, hrows⟩ | ⟨pre, target, post, hrows, hrows', hone, -, hread⟩, -, -⟩ := h
      · exact absurd (hrows ▸ List.mem_append_left _ hrow) hgone
      · have htarget : row = target := by
          by_contra hne
          apply hgone
          show row ∈ (s', Except.ok committed).1.rows
          rw [hrows] at hrow
          rw [hrows']
          simp only [List.mem_append, List.mem_cons, hne, false_or] at hrow ⊢
          tauto
        subst htarget
        have hkey : row.isSuccess (keyOf workflowVersion record) = true :=
          (List.mem_filter.mp (hone ▸ List.mem_singleton_self row)).2
        simp only [StepRow.isSuccess, Bool.and_eq_true, beq_iff_eq] at hkey
        rw [hkey.2]
        exact hread

/-- One call of a worker. -/
theorem Steps.Inv.step {s s' : Steps} {a : StepAct} (hI : s.Inv) (h : s.step a = some s') :
    s'.Inv ∧ s.OverwriteRead s' a := by
  cases a with
  | load w key =>
      obtain rfl := Option.some.inj h
      refine ⟨inv_load hI w key, fun row hrow _ hgone => absurd ?_ hgone⟩
      unfold Steps.load
      cases s.rows.find? (StepRow.isSuccess key) <;> exact hrow
  | reject w key handle =>
      obtain rfl := Option.some.inj h
      refine ⟨inv_reject hI w key handle, fun row hrow _ hgone => absurd ?_ hgone⟩
      simp only [Steps.reject]
      split
      · split <;> exact hrow
      · exact hrow
  | commit w atomic workflowVersion record id =>
      simp only [Steps.step] at h
      split at h
      · rename_i hok
        obtain rfl := Option.some.inj h
        obtain ⟨hinv, hcommit⟩ := hI.commit w atomic workflowVersion id hok.1
        exact ⟨hinv, overwriteRead_of_commitOk hcommit⟩
      · cases h
  | commitFailed w workflowVersion record id =>
      simp only [Steps.step] at h
      split at h
      · rename_i hok
        obtain rfl := Option.some.inj h
        obtain ⟨hinv, hkept⟩ := hI.commitFailed workflowVersion id hok.1
        exact ⟨hinv, fun row hrow _ hgone => absurd (hkept row hrow) hgone⟩
      · cases h

/-- Every reachable state has the invariant. -/
theorem steps_inv_run {as : List StepAct} {s : Steps} (h : run Steps.step Steps.init as = some s) :
    s.Inv :=
  run_invariant (fun _ _ _ hI hstep => (hI.step hstep).1) steps_inv_init h

/-- **Checkpoint repair is a compare-and-swap.**  In every reachable state there is at most one
success for each key, every commit of a success does what `CommitOk` allows, and no call takes a
success out of the table that its worker had not read. -/
theorem checkpoint_compare_and_swap {as : List StepAct} {s : Steps}
    (h : run Steps.step Steps.init as = some s) :
    (∀ key, (s.successes key).length ≤ 1)
      ∧ (∀ w atomic workflowVersion record id, record.status = .succeeded →
          s.CommitOk w atomic workflowVersion record id)
      ∧ ∀ a s', s.step a = some s' → s.OverwriteRead s' a := by
  have hI := steps_inv_run h
  exact ⟨hI.unique, fun w atomic workflowVersion record id hs =>
    (hI.commit w atomic workflowVersion id hs).2, fun a s' hstep => (hI.step hstep).2⟩

/-! ## Two workers at one key -/

/-- A success of the first step. -/
def storedOutput (output : Doc) : StageRecord :=
  { StageRecord.plain .validateRequest .succeeded "sha256:in" with
    outputHash := some "sha256:out"
    output := some output }

def storedKey : StepKey := keyOf "v1" (storedOutput .null)

/-- Both workers read and reject the first output, and the second one repairs it. -/
def repairRace : List StepAct :=
  [.commit 0 true "v1" (storedOutput (.str "a")) 0, .load 0 storedKey, .load 1 storedKey,
    .reject 0 storedKey 1, .reject 1 storedKey 2, .commit 1 true "v1" (storedOutput (.str "b")) 1]

theorem checkpoint_compare_and_swap_repairRace : ∃ s,
    run Steps.step Steps.init repairRace = some s
      ∧ (s.rows.map fun r => r.record.output) = [some (.str "b")]
      ∧ (∀ key, (s.successes key).length ≤ 1)
      ∧ (∀ w atomic workflowVersion record id, record.status = .succeeded →
          s.CommitOk w atomic workflowVersion record id)
      ∧ ∀ a s', s.step a = some s' → s.OverwriteRead s' a :=
  ⟨_, rfl, rfl,
    checkpoint_compare_and_swap (show run Steps.step Steps.init repairRace = some _ from rfl)⟩

/-- Worker 0 comes too late with its repair: it raises `LeaseLost` and forgets the success it had in
its cache.  And `commit_succeeded` writes a row without an event. -/
theorem leaseLost_forgets_cached_success :
    (∃ s, run Steps.step Steps.init repairRace = some s
      ∧ (s.commit 0 true "v1" (storedOutput (.str "c")) 2).2
        = .error (.leaseLost "checkpoint changed since rejection")
      ∧ ((s.stores 0).memory storedKey).isSome
      ∧ ((s.commit 0 true "v1" (storedOutput (.str "c")) 2).1.stores 0).memory storedKey = none)
    ∧ (Steps.init.commit 0 false "v1" (storedOutput (.str "a")) 0).1.rows.length = 1
    ∧ (Steps.init.commit 0 false "v1" (storedOutput (.str "a")) 0).1.events = [] := by
  refine ⟨⟨_, rfl, rfl, rfl, rfl⟩, rfl, rfl⟩

end Extraction
