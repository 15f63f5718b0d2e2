/-
# Receipts of extraction commands

`receipts.begin` and `receipts.save` around the bodies of the commands, with any number of requests
at once.  A request takes the advisory lock of its slot, looks for a receipt, runs its body and
saves a receipt in the same transaction.

* `Command.request`: the request that is hashed; lists without an order are sorted first.
* `Hub.step`: the statements of the requests, in any interleaving; a body is any function of the
  database, and it commits as a whole or not at all.
* `Hub.Sound`: the lock of a slot has one holder, and a slot has one receipt, of the request that
  committed.
-/
import EvidenceLab.JsonStore
import EvidenceLab.ReviewCommands

namespace Extraction

open Except Transitions

/-! ## Requests -/

/-- A replacement of an edit. -/
structure PatchEntry where
  extractionId : String
  payload : Json
  evidence : Json

/-- The `patch` of a review command. -/
inductive ReviewPatch where
  | absent
  | replacements (entries : List PatchEntry)
  | source (payloadSourceId : String)

/-- A `ReviewCommand`. -/
structure ReviewCommand where
  action : ActionName
  extractionIds : List String
  expectedVersions : List (String × ℕ)
  reason : String
  conflictResolution : Option (List ConflictDecision)
  patch : ReviewPatch

/-- A `RunCreate`; `rest` has the fields that are taken as they are. -/
structure RunCreate where
  rest : List (String × Json)
  modes : List String
  sourceSpanIds : List String
  claimIds : Option (List String)

/-- The commands that save receipts. -/
inductive Command where
  | create (workspaceId : String) (body : RunCreate)
  | cancel (runId expectedEtag : String)
  | rerun (runId reason : String)
  | review (command : ReviewCommand)
  | correct (recordId expectedEtag : String) (body : Json)

/-- `sorted` of strings. -/
def sortedStrings (xs : List String) : Json := .arr ((xs.insertionSort (· ≤ ·)).map .str)

def versionsJson (versions : List (String × ℕ)) : Json :=
  .obj (versions.map fun v => (v.1, .int v.2))

def ConflictDecision.json (d : ConflictDecision) : Json :=
  .obj [("conflict_id", .str d.conflictId), ("expected_etag", .str d.expectedEtag),
    ("member_versions", versionsJson d.memberVersions),
    ("selected_winner_ids", sortedStrings d.selectedWinnerIds), ("reason", .str d.reason)]

def PatchEntry.json (p : PatchEntry) : Json :=
  .obj [("extraction_id", .str p.extractionId), ("payload", p.payload), ("evidence", p.evidence)]

def ReviewPatch.members : ReviewPatch → List (String × Json)
  | .absent => []
  | .replacements entries => [("patch", .arr
      ((entries.insertionSort fun a b => a.extractionId ≤ b.extractionId).map PatchEntry.json))]
  | .source id => [("patch", .obj [("payload_source_id", .str id)])]

/-- The `body` of a review request. -/
def ReviewCommand.body (c : ReviewCommand) : Json :=
  .obj ([("action", .str c.action.text), ("extraction_ids", sortedStrings c.extractionIds),
    ("expected_versions", versionsJson c.expectedVersions), ("reason", .str c.reason)]
    ++ (match c.conflictResolution with
      | none => []
      | some ds => [("conflict_resolution", .arr
          ((ds.insertionSort fun a b => a.conflictId ≤ b.conflictId).map ConflictDecision.json))])
    ++ c.patch.members)

/-- The `body` of a create request. -/
def RunCreate.body (c : RunCreate) : Json :=
  .obj (c.rest ++ [("modes", sortedStrings c.modes),
    ("source_span_ids", sortedStrings c.sourceSpanIds)]
    ++ match c.claimIds with
      | none => []
      | some ids => [("claim_ids", sortedStrings ids)])

/-- The request that a receipt belongs to. -/
def Command.request (actor : String) : Command → Json
  | .create workspaceId body => .obj [("actor", .str actor), ("resource", .str workspaceId),
      ("action", .str "create"), ("body", body.body)]
  | .cancel runId etag => .obj [("actor", .str actor), ("resource", .str runId),
      ("action", .str "cancel"), ("if_match", .str etag)]
  | .rerun runId reason => .obj [("actor", .str actor), ("resource", .str runId),
      ("action", .str "rerun"), ("reason", .str reason)]
  | .review c => .obj [("actor", .str actor), ("action", .str c.action.text), ("body", c.body)]
  | .correct recordId etag body => .obj [("actor", .str actor), ("resource", .str recordId),
      ("action", .str "correct"), ("if_match", .str etag), ("body", body)]

def Command.endpoint : Command → String
  | .create _ _ => "extraction.create"
  | .cancel _ _ => "extraction.cancel"
  | .rerun _ _ => "extraction.rerun"
  | .review c => "extraction.review." ++ c.action.text
  | .correct _ _ _ => "extraction.correct"

/-- The status of a command that succeeds. -/
def Command.status : Command → ℕ
  | .create _ _ | .rerun _ _ => 202
  | .cancel _ _ | .review _ => 200
  | .correct _ _ _ => 201

inductive MemberRole where
  | owner
  | editor
  | reviewer
  | viewer
  deriving DecidableEq

/-- The roles that may use a command, and what the others are told. -/
def Command.allows (c : Command) (role : MemberRole) : Bool :=
  match c with
  | .create _ _ | .cancel _ _ | .rerun _ _ => role == .owner || role == .editor
  | .review _ | .correct _ _ _ => role == .owner || role == .editor || role == .reviewer

def Command.forbidden (c : Command) : Failure :=
  .api ⟨403, "FORBIDDEN", match c with
    | .create _ _ => "Role may not create extraction runs."
    | .cancel _ _ => "Role may not cancel extraction runs."
    | .rerun _ _ => "Role may not rerun extraction."
    | .review _ => "Role may not review extractions."
    | .correct _ _ _ => "Role may not correct extractions.", none⟩

/-- The command starts its transaction over when it lost a race. -/
def Command.retries : Command → Bool
  | .review _ | .correct _ _ _ => true
  | .create _ _ | .cancel _ _ | .rerun _ _ => false

/-- The command reads its resource before it looks for a receipt. -/
def Command.readsFirst : Command → Bool
  | .create _ _ | .cancel _ _ | .rerun _ _ => true
  | .review _ | .correct _ _ _ => false

/-- A request with its tenant context. -/
structure ApiRequest where
  org : String
  actor : String
  role : MemberRole
  key : String
  command : Command

/-- What a receipt is stored under. -/
structure Slot where
  org : String
  endpoint : String
  key : String
  deriving DecidableEq

def ApiRequest.slot (r : ApiRequest) : Slot := ⟨r.org, r.command.endpoint, r.key⟩

def ApiRequest.json (r : ApiRequest) : Json := r.command.request r.actor

/-- The canonical request. -/
def ApiRequest.canonical (r : ApiRequest) : Json := r.json.sortKeys

/-! ## Receipts -/

/-- What a body answers: a JSON object is a dictionary, so its keys are unique. -/
structure Response where
  body : Json
  headers : List (String × String)
  unique : body.keysUnique = true

structure Receipt where
  status : ℕ
  body : Json
  headers : List (String × String)

/-- One answer, with headers under the same names. -/
def Receipt.Same (a b : Receipt) : Prop :=
  a.status = b.status ∧ a.body = b.body ∧ a.headers.Perm b.headers

/-- A row of `idempotency_keys`. -/
structure Envelope where
  slot : Slot
  status : ℕ
  receiptVersion : String
  requestHash : String
  body : Json
  headers : List (String × String)

/-- `hash_json`. -/
def hashJson (sha : String → String) (j : Json) : String := sha (String.ofList j.sortKeys.dump)

/-- `save`: the row, as the store keeps it. -/
def ApiRequest.envelope (sha : String → String) (r : ApiRequest) (a : Response) : Envelope where
  slot := r.slot
  status := r.command.status
  receiptVersion := "extraction-receipt/v1"
  requestHash := hashJson sha r.json
  body := a.body.stored
  headers := a.headers.insertionSort fun x y => Json.storeLe x.1 y.1

/-- What `save` returns. -/
def ApiRequest.saved (r : ApiRequest) (a : Response) : Receipt :=
  ⟨r.command.status, a.body.sortKeys, a.headers⟩

/-- What `begin` returns for a row of the same request. -/
def Envelope.replay (e : Envelope) : Receipt := ⟨e.status, e.body.sortKeys, e.headers⟩

def keyReused : Failure :=
  .api ⟨409, "IDEMPOTENCY_KEY_REUSED", "Idempotency key belongs to another request.", none⟩

def concurrentChanges : Failure := .conflict "Concurrent extraction changes; retry the request."

/-! ## The system -/

/-- The bodies of the commands, and the reads before them: functions of the database, with what the
environment chooses (ids, times, lost races). -/
structure Bodies (σ ι : Type) where
  read : σ → ApiRequest → Except Failure Unit
  effect : σ → ApiRequest → ι → Except Failure (σ × Response)

inductive Phase where
  | idle
  | waiting (attempt : ℕ)
  | locked (attempt : ℕ)
  | running (attempt : ℕ)
  | returned (receipt : Receipt)
  | raised (e : Failure)

/-- The phases in which a request holds its lock. -/
def Phase.holds : Phase → Bool
  | .locked _ | .running _ => true
  | _ => false

/-- The database, the receipts, the requests under way and the requests that committed. -/
structure Hub (σ : Type) where
  db : σ
  receipts : List Envelope
  phase : ℕ → Phase
  holder : ℤ → Option ℕ
  commits : List ℕ

def Hub.init {σ : Type} (db : σ) : Hub σ := ⟨db, [], fun _ => .idle, fun _ => none, []⟩

inductive HubAct (ι : Type) where
  | arrive (i : ℕ)
  | acquire (i : ℕ)
  | lookup (i : ℕ)
  | finish (i : ℕ) (choice : ι)
  /-- The connection of a request is lost. -/
  | abort (i : ℕ)

section System

variable {σ ι : Type} (sha : String → String) (lockId : Slot → ℤ) (bodies : Bodies σ ι)
  (reqs : ℕ → ApiRequest)

namespace Hub

def setPhase (k : Hub σ) (i : ℕ) (p : Phase) : Hub σ :=
  { k with phase := fun j => if j = i then p else k.phase j }

/-- The end of the transaction releases the lock. -/
def release (k : Hub σ) (i : ℕ) : Hub σ :=
  { k with holder := fun l => if k.holder l = some i then none else k.holder l }

def receipt? (k : Hub σ) (slot : Slot) : Option Envelope := k.receipts.find? fun e => e.slot == slot

/-- The phase after a body that raised. -/
def afterError (r : ApiRequest) (attempt : ℕ) : Failure → Phase
  | .retry =>
      if r.command.retries then
        if attempt < 2 then .waiting (attempt + 1) else .raised concurrentChanges
      else .raised .retry
  | e => .raised e

/-- One statement of one request. -/
def step (k : Hub σ) : HubAct ι → Option (Hub σ)
  | .arrive i =>
      match k.phase i with
      | .idle =>
          let r := reqs i
          if r.command.allows r.role = false then some (k.setPhase i (.raised r.command.forbidden))
          else if r.command.readsFirst then
            match bodies.read k.db r with
            | .ok _ => some (k.setPhase i (.waiting 0))
            | .error e => some (k.setPhase i (.raised e))
          else some (k.setPhase i (.waiting 0))
      | _ => none
  | .acquire i =>
      match k.phase i, k.holder (lockId (reqs i).slot) with
      | .waiting n, none =>
          some { k.setPhase i (.locked n) with
            holder := fun l => if l = lockId (reqs i).slot then some i else k.holder l }
      | _, _ => none
  | .lookup i =>
      match k.phase i with
      | .locked n =>
          match k.receipt? (reqs i).slot with
          | none => some (k.setPhase i (.running n))
          | some e =>
              if e.receiptVersion = "extraction-receipt/v1"
                  ∧ e.requestHash = hashJson sha (reqs i).json then
                some ((k.release i).setPhase i (.returned e.replay))
              else some ((k.release i).setPhase i (.raised keyReused))
      | _ => none
  | .finish i choice =>
      match k.phase i with
      | .running n =>
          match bodies.effect k.db (reqs i) choice with
          | .ok (db, a) =>
              if (k.receipt? (reqs i).slot).isSome then
                some ((k.release i).setPhase i (.raised (.other "UniqueViolation")))
              else
                some { (k.release i).setPhase i (.returned ((reqs i).saved a)) with
                  db := db
                  receipts := k.receipts ++ [(reqs i).envelope sha a]
                  commits := k.commits ++ [i] }
          | .error e => some ((k.release i).setPhase i (afterError (reqs i) n e))
      | _ => none
  | .abort i =>
      match k.phase i with
      | .waiting _ | .locked _ | .running _ =>
          some ((k.release i).setPhase i (.raised (.other "OperationalError")))
      | _ => none

end Hub

/-! ## What a step can do -/

/-- A step of the hub. -/
inductive Hub.Does (k : Hub σ) : HubAct ι → Hub σ → Prop where
  /-- A request starts, or it is refused before it looks for a receipt. -/
  | arrive (i : ℕ) (p : Phase) (hphase : k.phase i = .idle)
      (hp : (∃ e, p = .raised e) ∨ p = .waiting 0) : Does k (.arrive i) (k.setPhase i p)
  | acquire (i n : ℕ) (hphase : k.phase i = .waiting n)
      (hfree : k.holder (lockId (reqs i).slot) = none) :
      Does k (.acquire i) { k.setPhase i (.locked n) with
        holder := fun l => if l = lockId (reqs i).slot then some i else k.holder l }
  | miss (i n : ℕ) (hphase : k.phase i = .locked n) (hnone : k.receipt? (reqs i).slot = none) :
      Does k (.lookup i) (k.setPhase i (.running n))
  | replay (i n : ℕ) (e : Envelope) (hphase : k.phase i = .locked n)
      (hsome : k.receipt? (reqs i).slot = some e)
      (hhash : e.requestHash = hashJson sha (reqs i).json) :
      Does k (.lookup i) ((k.release i).setPhase i (.returned e.replay))
  | reuse (i n : ℕ) (e : Envelope) (hphase : k.phase i = .locked n)
      (hsome : k.receipt? (reqs i).slot = some e)
      (hhash : ¬ (e.receiptVersion = "extraction-receipt/v1"
        ∧ e.requestHash = hashJson sha (reqs i).json)) :
      Does k (.lookup i) ((k.release i).setPhase i (.raised keyReused))
  | commit (i n : ℕ) (choice : ι) (db : σ) (a : Response) (hphase : k.phase i = .running n)
      (heffect : bodies.effect k.db (reqs i) choice = .ok (db, a))
      (hnone : k.receipt? (reqs i).slot = none) :
      Does k (.finish i choice) { (k.release i).setPhase i (.returned ((reqs i).saved a)) with
        db := db
        receipts := k.receipts ++ [(reqs i).envelope sha a]
        commits := k.commits ++ [i] }
  /-- A transaction is rolled back. -/
  | rollback (a : HubAct ι) (i : ℕ) (p : Phase) (ha : (∃ choice, a = .finish i choice) ∨
      a = .abort i)
      (hphase : ∀ r, k.phase i ≠ .returned r)
      (hp : (∃ e, p = .raised e) ∨ ∃ n, p = .waiting n) : Does k a ((k.release i).setPhase i p)

variable {sha lockId bodies reqs}

/-- After an error a call raises or waits for another try. -/
theorem Hub.afterError_cases (r : ApiRequest) (n : ℕ) (e : Failure) :
    (∃ e', Hub.afterError r n e = .raised e') ∨ ∃ m, Hub.afterError r n e = .waiting m := by
  cases e with
  | retry =>
      simp only [Hub.afterError]
      split_ifs
      · exact .inr ⟨_, rfl⟩
      · exact .inl ⟨_, rfl⟩
      · exact .inl ⟨_, rfl⟩
  | api e => exact .inl ⟨_, rfl⟩
  | other type => exact .inl ⟨_, rfl⟩

/-- **What one step can do.** -/
theorem Hub.step_does {k k' : Hub σ} {a : HubAct ι}
    (h : k.step sha lockId bodies reqs a = some k') :
    k.Does sha lockId bodies reqs a k' := by
  cases a with
  | arrive i =>
      -- the role check and the read of the resource stand before the transaction
      simp only [Hub.step] at h
      split at h
      case h_1 hphase =>
          split_ifs at h with hrole hreads
          · obtain rfl := Option.some.inj h
            exact .arrive i _ hphase (.inl ⟨_, rfl⟩)
          · cases hread : bodies.read k.db (reqs i) with
            | ok u =>
                rw [hread] at h
                obtain rfl := Option.some.inj h
                exact .arrive i _ hphase (.inr rfl)
            | error e =>
                rw [hread] at h
                obtain rfl := Option.some.inj h
                exact .arrive i _ hphase (.inl ⟨_, rfl⟩)
          · obtain rfl := Option.some.inj h
            exact .arrive i _ hphase (.inr rfl)
      case h_2 => cases h
  | acquire i =>
      simp only [Hub.step] at h
      split at h
      case h_1 n hphase hfree =>
          obtain rfl := Option.some.inj h
          exact .acquire i n hphase hfree
      case h_2 => cases h
  | lookup i =>
      simp only [Hub.step] at h
      -- the receipt of the slot decides: none, one of this body, or one of another
      split at h
      case h_1 n hphase =>
          cases hfind : k.receipt? (reqs i).slot with
          | none =>
              rw [hfind] at h
              obtain rfl := Option.some.inj h
              exact .miss i n hphase hfind
          | some e =>
              rw [hfind] at h
              simp only at h
              split_ifs at h with hhash
              · obtain rfl := Option.some.inj h
                exact .replay i n e hphase hfind hhash.2
              · obtain rfl := Option.some.inj h
                exact .reuse i n e hphase hfind hhash
      case h_2 => cases h
  | finish i choice =>
      simp only [Hub.step] at h
      split at h
      case h_1 n hphase =>
          -- an answer is stored with its receipt or rolled back with it
          cases heffect : bodies.effect k.db (reqs i) choice with
          | ok out =>
              obtain ⟨db, a⟩ := out
              rw [heffect] at h
              simp only at h
              split_ifs at h with hsome
              · obtain rfl := Option.some.inj h
                exact .rollback _ i _ (.inl ⟨choice, rfl⟩) (by simp [hphase]) (.inl ⟨_, rfl⟩)
              · obtain rfl := Option.some.inj h
                exact .commit i n choice db a hphase heffect (by simpa using hsome)
          | error e =>
              rw [heffect] at h
              obtain rfl := Option.some.inj h
              exact .rollback _ i _ (.inl ⟨choice, rfl⟩) (by simp [hphase])
                (Hub.afterError_cases (reqs i) n e)
      case h_2 => cases h
  | abort i =>
      simp only [Hub.step] at h
      -- an abort needs an open transaction
      cases hphase : k.phase i with
      | waiting n =>
          rw [hphase] at h
          obtain rfl := Option.some.inj h
          exact .rollback _ i _ (.inr rfl) (by simp [hphase]) (.inl ⟨_, rfl⟩)
      | locked n =>
          rw [hphase] at h
          obtain rfl := Option.some.inj h
          exact .rollback _ i _ (.inr rfl) (by simp [hphase]) (.inl ⟨_, rfl⟩)
      | running n =>
          rw [hphase] at h
          obtain rfl := Option.some.inj h
          exact .rollback _ i _ (.inr rfl) (by simp [hphase]) (.inl ⟨_, rfl⟩)
      | idle => simp [hphase] at h
      | returned r => simp [hphase] at h
      | raised e => simp [hphase] at h

/-! ## The invariant -/

variable (sha lockId reqs)

/-- Locks, receipts and requests agree. -/
structure Hub.Sound (k : Hub σ) : Prop where
  holder : ∀ l i, k.holder l = some i → lockId (reqs i).slot = l ∧ (k.phase i).holds = true
  held : ∀ i, (k.phase i).holds = true → k.holder (lockId (reqs i).slot) = some i
  /-- A slot has one receipt. -/
  slots : (k.receipts.map Envelope.slot).Nodup
  /-- A body runs only while its slot has no receipt. -/
  running : ∀ i n, k.phase i = .running n → ∀ e ∈ k.receipts, e.slot ≠ (reqs i).slot
  /-- A receipt is that of a request that committed. -/
  receipts : k.receipts.map Envelope.slot = k.commits.map fun i => (reqs i).slot
  committed : ∀ i ∈ k.commits, ∃ a, (reqs i).envelope sha a ∈ k.receipts
    ∧ k.phase i = .returned ((reqs i).saved a)
  /-- A request that returned found or saved the receipt of its slot. -/
  returned : ∀ i r, k.phase i = .returned r → ∃ e ∈ k.receipts, e.slot = (reqs i).slot
    ∧ e.requestHash = hashJson sha (reqs i).json ∧ r.Same e.replay

variable {sha lockId reqs}

/-- A slot is free if no receipt is in it. -/
theorem Hub.receipt?_eq_none {k : Hub σ} {slot : Slot} :
    k.receipt? slot = none ↔ ∀ e ∈ k.receipts, e.slot ≠ slot := by
  simp [Hub.receipt?]

theorem Hub.setPhase_phase (k : Hub σ) (i : ℕ) (p : Phase) (j : ℕ) :
    (k.setPhase i p).phase j = if j = i then p else k.phase j := rfl

theorem Hub.release_holder (k : Hub σ) (i : ℕ) (l : ℤ) :
    (k.release i).holder l = if k.holder l = some i then none else k.holder l := rfl

theorem Receipt.Same.refl (r : Receipt) : r.Same r := ⟨rfl, rfl, List.Perm.refl _⟩

/-- What is saved and what is replayed are one answer. -/
theorem ApiRequest.saved_same (r : ApiRequest) (a : Response) :
    (r.saved a).Same (r.envelope sha a).replay :=
  ⟨rfl, (Json.sortKeys_stored a.body a.unique).symm, (List.perm_insertionSort _ _).symm⟩

/-- The receipts stay, and a request that does not return leaves nothing behind. -/
theorem Hub.Sound.move {k k' : Hub σ} (hk : k.Sound sha lockId reqs) {i : ℕ} {p : Phase}
    (hphase : ∀ r, k.phase i ≠ .returned r) (hk' : ∀ j, k'.phase j = if j = i then p else k.phase j)
    (hreceipts : k'.receipts = k.receipts) (hcommits : k'.commits = k.commits)
    (hholder : ∀ l j, k'.holder l = some j →
      lockId (reqs j).slot = l ∧ (k'.phase j).holds = true)
    (hheld : ∀ j, (k'.phase j).holds = true → k'.holder (lockId (reqs j).slot) = some j)
    (hrunning : ∀ n, p = .running n → ∀ e ∈ k.receipts, e.slot ≠ (reqs i).slot)
    (hreturned : ∀ r, p = .returned r → ∃ e ∈ k.receipts, e.slot = (reqs i).slot
      ∧ e.requestHash = hashJson sha (reqs i).json ∧ r.Same e.replay) :
    k'.Sound sha lockId reqs := by
  refine ⟨hholder, hheld, ?_, ?_, ?_, ?_, ?_⟩
  · rw [hreceipts]
    exact hk.slots
  · intro j n hj
    rw [hreceipts]
    rw [hk'] at hj
    split_ifs at hj with heq
    · exact heq ▸ hrunning n hj
    · exact hk.running j n hj
  · rw [hreceipts, hcommits]
    exact hk.receipts
  · intro j hj
    rw [hcommits] at hj
    obtain ⟨a, ha, hret⟩ := hk.committed j hj
    rw [hreceipts, hk', if_neg]
    · exact ⟨a, ha, hret⟩
    · rintro rfl
      exact hphase _ hret
  · intro j r hj
    rw [hreceipts]
    rw [hk'] at hj
    split_ifs at hj with heq
    · exact heq ▸ hreturned r hj
    · exact hk.returned j r hj

/-- The locks after the end of a transaction. -/
theorem Hub.Sound.release {k : Hub σ} (hk : k.Sound sha lockId reqs) {i : ℕ} {p : Phase}
    (hp : p.holds = false) :
    (∀ l j, ((k.release i).setPhase i p).holder l = some j →
        lockId (reqs j).slot = l ∧ (((k.release i).setPhase i p).phase j).holds = true)
      ∧ ∀ j, (((k.release i).setPhase i p).phase j).holds = true →
        ((k.release i).setPhase i p).holder (lockId (reqs j).slot) = some j := by
  refine ⟨?_, ?_⟩
  · intro l j hl
    replace hl : (k.release i).holder l = some j := hl
    rw [Hub.release_holder] at hl
    split_ifs at hl with hi
    obtain ⟨hlock, hholds⟩ := hk.holder l j hl
    have hne : j ≠ i := by
      rintro rfl
      exact hi hl
    rw [Hub.setPhase_phase, if_neg hne]
    exact ⟨hlock, hholds⟩
  · intro j hj
    rw [Hub.setPhase_phase] at hj
    split_ifs at hj with heq
    · rw [hp] at hj
      cases hj
    · have hheld := hk.held j hj
      show (k.release i).holder _ = some j
      rw [Hub.release_holder, if_neg, hheld]
      rw [hheld, Option.some.injEq]
      exact heq

theorem Hub.mem_of_receipt? {k : Hub σ} {slot : Slot} {e : Envelope}
    (h : k.receipt? slot = some e) :
    e ∈ k.receipts ∧ e.slot = slot :=
  ⟨List.mem_of_find?_eq_some h, by simpa using List.find?_some h⟩

/-- A request starts, or is refused. -/
theorem Hub.Sound.arrive {k : Hub σ} (hk : k.Sound sha lockId reqs) {i : ℕ} {p : Phase}
    (hphase : k.phase i = .idle) (hp : (∃ e, p = .raised e) ∨ p = .waiting 0) :
    (k.setPhase i p).Sound sha lockId reqs := by
  have hnot : p.holds = false := by
    rcases hp with ⟨e, rfl⟩ | rfl <;> rfl
  refine hk.move (i := i) (p := p) (by simp [hphase]) (fun j => rfl) rfl rfl ?_ ?_ ?_ ?_
  · intro l j hl
    obtain ⟨hlock, hholds⟩ := hk.holder l j hl
    have hne : j ≠ i := by
      rintro rfl
      rw [hphase] at hholds
      cases hholds
    rw [Hub.setPhase_phase, if_neg hne]
    exact ⟨hlock, hholds⟩
  · intro j hj
    rw [Hub.setPhase_phase] at hj
    split_ifs at hj
    · rw [hnot] at hj
      cases hj
    · exact hk.held j hj
  · rintro n rfl
    cases hnot
  · rintro r rfl
    rcases hp with ⟨e, he⟩ | he <;> cases he

/-- A request gets its lock, which nobody held. -/
theorem Hub.Sound.acquire {k : Hub σ} (hk : k.Sound sha lockId reqs) {i n : ℕ}
    (hphase : k.phase i = .waiting n) (hfree : k.holder (lockId (reqs i).slot) = none) :
    Hub.Sound sha lockId reqs { k.setPhase i (.locked n) with
      holder := fun l => if l = lockId (reqs i).slot then some i else k.holder l } := by
  refine hk.move (i := i) (p := .locked n) (by simp [hphase]) (fun j => rfl) rfl rfl ?_ ?_ ?_ ?_
  · intro l j hl
    simp only at hl ⊢
    split_ifs at hl with heq
    · obtain rfl := Option.some.inj hl
      rw [Hub.setPhase_phase, if_pos rfl]
      exact ⟨heq.symm, rfl⟩
    · obtain ⟨hlock, hholds⟩ := hk.holder l j hl
      rw [Hub.setPhase_phase]
      split_ifs
      · exact ⟨hlock, rfl⟩
      · exact ⟨hlock, hholds⟩
  · intro j hj
    simp only at hj ⊢
    rw [Hub.setPhase_phase] at hj
    split_ifs at hj with heq
    · rw [heq, if_pos rfl]
    · have hheld := hk.held j hj
      rw [if_neg, hheld]
      intro hsame
      rw [hsame, hfree] at hheld
      cases hheld
  · rintro m ⟨⟩
  · rintro r ⟨⟩

/-- A request finds no receipt, and runs its body under the lock. -/
theorem Hub.Sound.miss {k : Hub σ} (hk : k.Sound sha lockId reqs) {i n : ℕ}
    (hphase : k.phase i = .locked n) (hnone : k.receipt? (reqs i).slot = none) :
    (k.setPhase i (.running n)).Sound sha lockId reqs := by
  refine hk.move (i := i) (p := .running n) (by simp [hphase]) (fun j => rfl) rfl rfl ?_ ?_ ?_ ?_
  · intro l j hl
    obtain ⟨hlock, hholds⟩ := hk.holder l j hl
    rw [Hub.setPhase_phase]
    split_ifs
    · exact ⟨hlock, rfl⟩
    · exact ⟨hlock, hholds⟩
  · intro j hj
    rw [Hub.setPhase_phase] at hj
    split_ifs at hj with heq
    · exact heq ▸ hk.held i (by rw [hphase]; rfl)
    · exact hk.held j hj
  · intro m _
    exact Hub.receipt?_eq_none.mp hnone
  · rintro r ⟨⟩

/-- A transaction ends without a write, and its lock is free again. -/
theorem Hub.Sound.end {k : Hub σ} (hk : k.Sound sha lockId reqs) {i : ℕ} {p : Phase}
    (hphase : ∀ r, k.phase i ≠ .returned r) (hp : p.holds = false)
    (hreturned : ∀ r, p = .returned r → ∃ e ∈ k.receipts, e.slot = (reqs i).slot
      ∧ e.requestHash = hashJson sha (reqs i).json ∧ r.Same e.replay) :
    ((k.release i).setPhase i p).Sound sha lockId reqs := by
  obtain ⟨hholder, hheld⟩ := hk.release (i := i) hp
  refine hk.move (i := i) (p := p) hphase (fun j => rfl) rfl rfl hholder hheld ?_ hreturned
  rintro n rfl
  cases hp

/-- A request commits under the lock of its slot, which has no receipt. -/
theorem Hub.Sound.commit {k : Hub σ} (hk : k.Sound sha lockId reqs) {i n : ℕ}
    {db : σ} {a : Response}
    (hphase : k.phase i = .running n) (hnone : k.receipt? (reqs i).slot = none) :
    Hub.Sound sha lockId reqs { (k.release i).setPhase i (.returned ((reqs i).saved a)) with
      db := db
      receipts := k.receipts ++ [(reqs i).envelope sha a]
      commits := k.commits ++ [i] } := by
  have hfree := Hub.receipt?_eq_none.mp hnone
  obtain ⟨hholder, hheld⟩ := hk.release (i := i) (p := .returned ((reqs i).saved a)) rfl
  refine ⟨hholder, hheld, ?_, ?_, ?_, ?_, ?_⟩
  · rw [List.map_append, List.nodup_append]
    refine ⟨hk.slots, List.nodup_singleton _, ?_⟩
    intro x hx y hy
    obtain ⟨e, he, rfl⟩ := List.mem_map.mp hx
    rw [List.map_singleton, List.mem_singleton] at hy
    rw [hy]
    exact hfree e he
  · intro j m hj e he
    replace hj : (if j = i then .returned ((reqs i).saved a) else k.phase j) = .running m := hj
    split_ifs at hj with heq
    rcases List.mem_append.mp he with he | he
    · exact hk.running j m hj e he
    · -- two bodies of one slot would hold one lock
      obtain rfl := List.mem_singleton.mp he
      intro hslot
      have hi := hk.held i (by rw [hphase]; rfl)
      have hj' := hk.held j (by rw [hj]; rfl)
      rw [← (show (reqs i).slot = (reqs j).slot from hslot), hi, Option.some.injEq] at hj'
      exact heq hj'.symm
  · rw [List.map_append, List.map_append, hk.receipts]
    rfl
  · intro j hj
    show ∃ b, _ ∧ (if j = i then .returned ((reqs i).saved a) else k.phase j) = _
    rcases List.mem_append.mp hj with hj | hj
    · obtain ⟨b, hb, hret⟩ := hk.committed j hj
      have hne : j ≠ i := by
        rintro rfl
        rw [hphase] at hret
        cases hret
      rw [if_neg hne]
      exact ⟨b, List.mem_append_left _ hb, hret⟩
    · obtain rfl := List.mem_singleton.mp hj
      rw [if_pos rfl]
      exact ⟨a, List.mem_append_right _ List.mem_cons_self, rfl⟩
  · intro j r hj
    replace hj : (if j = i then .returned ((reqs i).saved a) else k.phase j) = .returned r := hj
    split_ifs at hj with heq
    · obtain rfl := Phase.returned.inj hj
      subst heq
      exact ⟨_, List.mem_append_right _ List.mem_cons_self, rfl, rfl, (reqs j).saved_same a⟩
    · obtain ⟨e, he, hrest⟩ := hk.returned j r hj
      exact ⟨e, List.mem_append_left _ he, hrest⟩

/-- **A step keeps locks, receipts and requests in agreement.** -/
theorem Hub.Sound.step {k k' : Hub σ} {a : HubAct ι} (hk : k.Sound sha lockId reqs)
    (h : k.step sha lockId bodies reqs a = some k') : k'.Sound sha lockId reqs := by
  cases Hub.step_does h with
  | arrive i p hphase hp => exact hk.arrive hphase hp
  | acquire i n hphase hfree => exact hk.acquire hphase hfree
  | miss i n hphase hnone => exact hk.miss hphase hnone
  | replay i n e hphase hsome hhash =>
      refine hk.end (by simp [hphase]) rfl ?_
      rintro r ⟨⟩
      obtain ⟨hmem, hslot⟩ := Hub.mem_of_receipt? hsome
      exact ⟨e, hmem, hslot, hhash, .refl _⟩
  | reuse i n e hphase hsome hhash =>
      refine hk.end (by simp [hphase]) rfl ?_
      rintro r ⟨⟩
  | rollback a i p ha hphase hp =>
      refine hk.end hphase ?_ ?_
      · rcases hp with ⟨e, rfl⟩ | ⟨n, rfl⟩ <;> rfl
      · rintro r rfl
        rcases hp with ⟨e, he⟩ | ⟨n, he⟩ <;> cases he
  | commit i n choice db a hphase heffect hnone => exact hk.commit hphase hnone

/-! ## Canonical requests -/

/-- The hash of a request determines its canonical form. -/
theorem hashJson_eq_iff (hsha : Function.Injective sha) {a b : Json} :
    hashJson sha a = hashJson sha b ↔ a.sortKeys = b.sortKeys := by
  refine ⟨fun h => ?_, fun h => by rw [hashJson, h, hashJson]⟩
  exact Json.dump_injective (String.ofList_injective (hsha h))

/-- The texts of a list, sorted by an id of its elements. -/
def sortedById {α : Type} (f : α → String) (g : α → Json) (l : List α) : List Json :=
  (l.insertionSort fun a b => f a ≤ f b).map g

/-- Sorting by distinct ids forgets the order. -/
theorem sortedById_eq_of_perm {α : Type} {f : α → String} {g : α → Json} {l l' : List α}
    (h : (l.map fun a => (f a, g a)).Perm (l'.map fun a => (f a, g a))) (hnodup : (l.map f).Nodup) :
    sortedById f g l = sortedById f g l' := by
  have hpairs : ∀ m : List α, sortedById f g m
      = ((m.map fun a => (f a, g a)).insertionSort fun x y => x.1 ≤ y.1).map Prod.snd := by
    intro m
    rw [sortedById, ← List.map_insertionSort (fun a b => f a ≤ f b) _ (fun a => (f a, g a)) m
      (fun a _ b _ => Iff.rfl), List.map_map]
    rfl
  have hkeys : ((l.map fun a => (f a, g a)).map Prod.fst).Nodup := by
    rw [List.map_map]
    exact hnodup
  rw [hpairs, hpairs, (Json.insertionSort_eq_iff_perm hkeys).mpr h]

/-- Sorting forgets the order. -/
theorem sortedStrings_eq_of_perm {l l' : List String} (h : l.Perm l') :
    sortedStrings l = sortedStrings l' := by
  rw [sortedStrings, sortedStrings]
  congr 2
  have hperm := (List.perm_insertionSort (· ≤ ·) l).trans
    (h.trans (List.perm_insertionSort (· ≤ ·) l').symm)
  exact hperm.eq_of_pairwise (fun a b _ _ => le_antisymm) (List.pairwise_insertionSort _ l)
    (List.pairwise_insertionSort _ l')

/-- Two decisions that differ in the order of their winners only. -/
def ConflictDecision.Reorders (d d' : ConflictDecision) : Prop :=
  ∃ winners, d.selectedWinnerIds.Perm winners ∧ d' = { d with selectedWinnerIds := winners }

/-- Two patches that differ in the order of their replacements only. -/
def ReviewPatch.Reorders : ReviewPatch → ReviewPatch → Prop
  | .replacements entries, .replacements entries' => entries.Perm entries'
      ∧ (entries.map PatchEntry.extractionId).Nodup
  | p, p' => p = p'

/-- Two review commands that differ in the order of ids, decisions, winners or replacements only. -/
structure ReviewCommand.Reorders (c c' : ReviewCommand) : Prop where
  action : c.action = c'.action
  ids : c.extractionIds.Perm c'.extractionIds
  versions : c.expectedVersions = c'.expectedVersions
  reason : c.reason = c'.reason
  decisions : match c.conflictResolution, c'.conflictResolution with
    | none, none => True
    | some ds, some ds' => (ds.map ConflictDecision.conflictId).Nodup
        ∧ ∃ mid, ds.Perm mid ∧ List.Forall₂ ConflictDecision.Reorders mid ds'
    | _, _ => False
  patch : c.patch.Reorders c'.patch

/-- Decisions in one order, up to their winners, have one sorted form. -/
theorem sorted_decisions_eq {ds mid ds' : List ConflictDecision} (hperm : ds.Perm mid)
    (hnodup : (ds.map ConflictDecision.conflictId).Nodup)
    (h : List.Forall₂ ConflictDecision.Reorders mid ds') :
    sortedById ConflictDecision.conflictId ConflictDecision.json ds
      = sortedById ConflictDecision.conflictId ConflictDecision.json ds' := by
  refine sortedById_eq_of_perm ?_ hnodup
  have hsame :
      mid.map (fun d => (d.conflictId, d.json)) = ds'.map fun d => (d.conflictId, d.json) := by
    clear hperm
    induction h with
    | nil => rfl
    | cons hd _ ih =>
        obtain ⟨winners, hw, rfl⟩ := hd
        rw [List.map_cons, List.map_cons, ih]
        congr 2
        simp only [ConflictDecision.json, sortedStrings_eq_of_perm hw]
  rw [← hsame]
  exact hperm.map _

/-- **The order of ids, decisions, winners and replacements is no part of a review request.** -/
theorem ReviewCommand.Reorders.body_eq {c c' : ReviewCommand} (h : c.Reorders c') :
    c.body = c'.body := by
  -- the decisions are sorted by conflict, their winners and reasons with them
  have hdecisions : (match c.conflictResolution with
      | none => []
      | some ds => [("conflict_resolution", Json.arr
          ((ds.insertionSort fun a b : ConflictDecision => a.conflictId ≤ b.conflictId).map
          ConflictDecision.json))])
      = match c'.conflictResolution with
        | none => []
        | some ds => [("conflict_resolution", Json.arr
            ((ds.insertionSort fun a b : ConflictDecision => a.conflictId ≤ b.conflictId).map
            ConflictDecision.json))] := by
    have hd := h.decisions
    cases hc : c.conflictResolution with
    | none =>
        cases hc' : c'.conflictResolution with
        | none => rfl
        | some ds' => simp [hc, hc'] at hd
    | some ds =>
        cases hc' : c'.conflictResolution with
        | none => simp [hc, hc'] at hd
        | some ds' =>
            rw [hc, hc'] at hd
            obtain ⟨hnodup, mid, hperm, hmid⟩ := hd
            exact congrArg (fun l => [("conflict_resolution", Json.arr l)])
              (sorted_decisions_eq hperm hnodup hmid)
  -- the replacements are sorted by extraction
  have hpatch : c.patch.members = c'.patch.members := by
    have hp := h.patch
    cases hc : c.patch with
    | replacements entries =>
        cases hc' : c'.patch with
        | replacements entries' =>
            rw [hc, hc'] at hp
            exact congrArg (fun l => [("patch", Json.arr l)])
              (sortedById_eq_of_perm (f := PatchEntry.extractionId) (g := PatchEntry.json)
                (hp.1.map _) hp.2)
        | absent => simp [hc, hc', ReviewPatch.Reorders] at hp
        | source id => simp [hc, hc', ReviewPatch.Reorders] at hp
    | absent =>
        rw [hc] at hp
        rw [← show ReviewPatch.absent = c'.patch from hp]
    | source id =>
        rw [hc] at hp
        rw [← show ReviewPatch.source id = c'.patch from hp]
  simp only [ReviewCommand.body, h.action, sortedStrings_eq_of_perm h.ids, h.versions, h.reason,
    hdecisions, hpatch]

/-- Two requests with one canonical form, or two reviews that differ in order only. -/
def ApiRequest.SameRequest (a b : ApiRequest) : Prop :=
  a.canonical = b.canonical ∨ a.actor = b.actor
    ∧ ∃ c c', a.command = .review c ∧ b.command = .review c' ∧ c.Reorders c'

/-- **The same request has one canonical form**, whatever the order of its lists. -/
theorem ApiRequest.SameRequest.canonical_eq {a b : ApiRequest} (h : a.SameRequest b) :
    a.canonical = b.canonical := by
  rcases h with h | ⟨hactor, c, c', ha, hb, hc⟩
  · exact h
  · rw [ApiRequest.canonical, ApiRequest.json, ApiRequest.canonical, ApiRequest.json, ha,
    hb, hactor]
    simp only [Command.request, hc.action, hc.body_eq]

/-! ## The commands -/

theorem Hub.Sound.init (db : σ) : (Hub.init db).Sound sha lockId reqs := by
  refine ⟨?_, ?_, List.nodup_nil, ?_, rfl, ?_, ?_⟩
  · intro l i h
    cases h
  · intro i h
    cases h
  · intro i n h
    cases h
  · intro i h
    cases h
  · intro i r h
    cases h

/-- A receipt is found under its slot. -/
theorem Hub.Sound.receipt?_eq {k : Hub σ} (hk : k.Sound sha lockId reqs) {e : Envelope}
    (he : e ∈ k.receipts) : k.receipt? e.slot = some e := by
  cases hfind : k.receipt? e.slot with
  | none => exact absurd rfl (Hub.receipt?_eq_none.mp hfind e he)
  | some e' =>
      obtain ⟨he', hslot⟩ := Hub.mem_of_receipt? hfind
      rw [List.inj_on_of_nodup_map hk.slots he he' hslot.symm]

/-- **Commands run once under their key.**  At most one request of a slot commits, and any other
step leaves database and receipts as they are; the same request has the same canonical form,
whatever the order of its ids, decisions, winners or replacements, so that it finds the receipt and
gets the same answer; a request that differs from the one that committed does not return, and is
told so when it looks for a receipt. -/
theorem commands_run_once (hsha : Function.Injective sha) {db : σ} {acts : List (HubAct ι)}
    {k : Hub σ}
    (h : run (Hub.step sha lockId bodies reqs) (Hub.init db) acts = some k) :
    (k.commits.map fun i => (reqs i).slot).Nodup
      ∧ (∀ a k', k.step sha lockId bodies reqs a = some k' →
          (k'.db = k.db ∧ k'.receipts = k.receipts ∧ k'.commits = k.commits)
            ∨ ∃ i, k'.commits = k.commits ++ [i])
      ∧ (∀ i j, (reqs i).slot = (reqs j).slot → (reqs i).SameRequest (reqs j) →
          (reqs i).canonical = (reqs j).canonical
            ∧ (∀ r r', k.phase i = .returned r → k.phase j = .returned r' → r.Same r')
            ∧ (i ∈ k.commits → ∀ n k', k.phase j = .locked n →
              k.step sha lockId bodies reqs (.lookup j) = some k' →
                (∃ r, k'.phase j = .returned r) ∧ k'.db = k.db ∧ k'.receipts = k.receipts))
      ∧ ∀ i ∈ k.commits, ∀ j, (reqs j).slot = (reqs i).slot →
      (reqs j).canonical ≠ (reqs i).canonical →
          j ∉ k.commits ∧ (∀ r, k.phase j ≠ .returned r)
            ∧ ∀ n k', k.phase j = .locked n → k.step sha lockId bodies reqs (.lookup j) = some k' →
              k'.phase j = .raised keyReused ∧ k'.db = k.db ∧ k'.receipts = k.receipts := by
  have hk : k.Sound sha lockId reqs :=
    run_invariant (fun _ _ _ hk hstep => hk.step hstep) (Hub.Sound.init db) h
  -- what a request of the slot of a receipt finds
  have hreceipt : ∀ i ∈ k.commits, ∃ e ∈ k.receipts, e.slot = (reqs i).slot
      ∧ e.requestHash = hashJson sha (reqs i).json := by
    intro i hi
    obtain ⟨a, ha, -⟩ := hk.committed i hi
    exact ⟨_, ha, rfl, rfl⟩
  have hreturned : ∀ i j r, k.phase j = .returned r → i ∈ k.commits →
      (reqs j).slot = (reqs i).slot → (reqs j).canonical = (reqs i).canonical := by
    intro i j r hj hi hslot
    obtain ⟨e, he, heslot, hehash⟩ := hreceipt i hi
    obtain ⟨e', he', heslot', hehash', -⟩ := hk.returned j r hj
    obtain rfl :=
      List.inj_on_of_nodup_map hk.slots he he' (heslot.trans (hslot.symm.trans heslot'.symm))
    exact (hashJson_eq_iff hsha).mp (hehash'.symm.trans hehash)
  refine ⟨hk.receipts ▸ hk.slots, ?_, ?_, ?_⟩
  · intro a k' hstep
    cases Hub.step_does hstep with
    | commit i n choice db a hphase heffect hnone => exact .inr ⟨i, rfl⟩
    | arrive i p hphase hp => exact .inl ⟨rfl, rfl, rfl⟩
    | acquire i n hphase hfree => exact .inl ⟨rfl, rfl, rfl⟩
    | miss i n hphase hnone => exact .inl ⟨rfl, rfl, rfl⟩
    | replay i n e hphase hsome hhash => exact .inl ⟨rfl, rfl, rfl⟩
    | reuse i n e hphase hsome hhash => exact .inl ⟨rfl, rfl, rfl⟩
    | rollback a i p ha hphase hp => exact .inl ⟨rfl, rfl, rfl⟩
  · intro i j hslot hsame
    refine ⟨hsame.canonical_eq, fun r r' hi hj => ?_, fun hi n k' hphase hstep => ?_⟩
    · obtain ⟨e, he, heslot, -, hr⟩ := hk.returned i r hi
      obtain ⟨e', he', heslot', -, hr'⟩ := hk.returned j r' hj
      obtain rfl :=
        List.inj_on_of_nodup_map hk.slots he he' (heslot.trans (hslot.trans heslot'.symm))
      exact ⟨hr.1.trans hr'.1.symm, hr.2.1.trans hr'.2.1.symm, hr.2.2.trans hr'.2.2.symm⟩
    · -- the receipt is that of the request that committed
      obtain ⟨a, ha, -⟩ := hk.committed i hi
      have hfind : k.receipt? (reqs j).slot = some ((reqs i).envelope sha a) :=
        hslot ▸ hk.receipt?_eq ha
      have hhash : ((reqs i).envelope sha a).requestHash = hashJson sha (reqs j).json :=
        (hashJson_eq_iff hsha).mpr hsame.canonical_eq
      have hversion : ((reqs i).envelope sha a).receiptVersion = "extraction-receipt/v1" := rfl
      simp only [Hub.step, hphase, hfind, hhash, hversion, and_self, if_true, Option.some.injEq]
        at hstep
      subst hstep
      exact ⟨⟨_, (Hub.setPhase_phase _ j _ j).trans (if_pos rfl)⟩, rfl, rfl⟩
  · intro i hi j hslot hne
    refine ⟨?_, ?_, ?_⟩
    · intro hj
      obtain ⟨a, -, hret⟩ := hk.committed j hj
      exact hne (hreturned i j _ hret hi hslot)
    · intro r hj
      exact hne (hreturned i j r hj hi hslot)
    · intro n k' hphase hstep
      obtain ⟨e, he, heslot, hehash⟩ := hreceipt i hi
      have hfind : k.receipt? (reqs j).slot = some e := by
        rw [hslot, ← heslot]
        exact hk.receipt?_eq he
      have hhash : e.requestHash ≠ hashJson sha (reqs j).json := by
        rw [hehash]
        intro heq
        exact hne ((hashJson_eq_iff hsha).mp heq).symm
      simp only [Hub.step, hphase, hfind, hhash, and_false, if_false, Option.some.injEq] at hstep
      subst hstep
      refine ⟨?_, rfl, rfl⟩
      rw [Hub.setPhase_phase, if_pos rfl]


/-! Two reviewers use one key: the first accepts two extractions, the second has no right to. -/

/-- A body that counts its runs. -/
def countingBodies : Bodies ℕ Unit where
  read := fun _ _ => .ok ()
  effect := fun n _ _ => .ok (n + 1, ⟨.obj [("n", .int n)], [("ETag", "1")], rfl⟩)

def acceptTwo (ids : List String) (reason : String) : ReviewCommand :=
  ⟨.accept, ids, [("e1", 1), ("e2", 1)], reason, none, .absent⟩

/-- The owner's request, the same with its ids in another order, and a request of a role. -/
def sharedKey (role : MemberRole) : ℕ → ApiRequest
  | 0 => ⟨"org", "u1", .owner, "k", .review (acceptTwo ["e1", "e2"] "checked")⟩
  | 1 => ⟨"org", "u1", .owner, "k", .review (acceptTwo ["e2", "e1"] "checked")⟩
  | _ => ⟨"org", "u2", role, "k", .review (acceptTwo ["e1", "e2"] "looks fine")⟩

/-- Two spellings of one review are the same request. -/
theorem sharedKey_same (role : MemberRole) : (sharedKey role 0).SameRequest (sharedKey role 1) :=
  .inr ⟨rfl, _, _, rfl, rfl, ⟨rfl, .swap _ _ _, rfl, rfl, trivial, rfl⟩⟩

/-- Another review under the key is another request. -/
theorem sharedKey_canonical_ne (role : MemberRole) :
    (sharedKey role 2).canonical ≠ (sharedKey role 0).canonical := by
  intro h
  have hdump := congrArg Json.dump h
  revert hdump
  cases role <;> decide

/-- The owner commits and the same request replays, while another request waits. -/
def ownerFirst : List (HubAct Unit) :=
  [.arrive 0, .acquire 0, .lookup 0, .finish 0 (), .arrive 1, .acquire 1, .lookup 1, .arrive 2]

set_option maxRecDepth 20000 in
/-- **A different request is not always told that its key is used.**  A viewer is refused for the
role before anyone looks for a receipt. -/
theorem forbidden_before_receipt :
    ∃ k, run (Hub.step id (fun _ => 0) countingBodies (sharedKey .viewer)) (Hub.init 0) ownerFirst
    = some k
      ∧ 0 ∈ k.commits ∧ (sharedKey .viewer 2).slot = (sharedKey .viewer 0).slot
      ∧ (sharedKey .viewer 2).canonical ≠ (sharedKey .viewer 0).canonical
      ∧ k.phase 2 = .raised (sharedKey .viewer 2).command.forbidden
      ∧ (sharedKey .viewer 2).command.forbidden ≠ keyReused := by
  refine ⟨_, rfl, ?_, rfl, sharedKey_canonical_ne .viewer, rfl, ?_⟩
  · decide
  · intro h
    cases h

set_option maxRecDepth 20000 in
/-- A reviewer's request is told so. -/
theorem commands_run_once_sharedKey :
    ∃ k, run (Hub.step id (fun _ => 0) countingBodies (sharedKey .reviewer)) (Hub.init 0)
        (ownerFirst ++ [.acquire 2]) = some k
      ∧ (∃ r r', k.phase 0 = .returned r ∧ k.phase 1 = .returned r' ∧ r.Same r')
      ∧ ∃ k', k.step id (fun _ => 0) countingBodies (sharedKey .reviewer) (.lookup 2) = some k'
        ∧ k'.phase 2 = .raised keyReused ∧ k'.db = k.db ∧ k'.receipts = k.receipts := by
  have hrun : run (Hub.step id (fun _ => 0) countingBodies (sharedKey .reviewer)) (Hub.init 0)
      (ownerFirst ++ [.acquire 2]) = some _ := rfl
  obtain ⟨-, -, hsame, hother⟩ := commands_run_once Function.injective_id hrun
  exact ⟨_, hrun, ⟨_, _, rfl, rfl, (hsame 0 1 rfl (sharedKey_same .reviewer)).2.1 _ _ rfl rfl⟩, _,
    rfl,
    (hother 0 (by decide) 2 rfl (sharedKey_canonical_ne .reviewer)).2.2 0 _ rfl rfl⟩

end System

end Extraction
