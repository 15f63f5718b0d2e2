/-
# Calls one after another

What a call comes to that no other one stands next to: it stores a version (`run_callActs`),
quarantines other bytes for a recorded accession (`run_otherActs`), finds its job recorded
(`run_repeatedCall`), or is lost (`run_lostCall`).  Each leaves the tables free for the next one
(`Idle`), so that a history of calls is run call by call.
-/
import EvidenceLab.IngestionKeys
import EvidenceLab.IngestionLedger

namespace Ingestion

open Transitions UniqueTable Xbrl

section OneCall

variable {S : Tools} {s : State} {t : ℕ} {j : Job} {key : String}

/-! ## One call -/

theorem setJob_jobs (s : State) (t : ℕ) (j : Job) : (s.setJob t j).jobs t = some j :=
  Function.update_self _ _ _

theorem return_jobs (s : State) (t : ℕ) (j : Job) (o : IngestionOutcome) :
    (s.return t j o).jobs t = none :=
  Function.update_self _ _ _

theorem raise_jobs (s : State) (t : ℕ) (j : Job) (e : Raised) : (s.raise t j e).jobs t = none :=
  Function.update_self _ _ _

theorem inserted_self {V : Type} (pending : ℕ → Option V) (t : ℕ) (v : V) :
    Function.update pending t (some v) t = some v :=
  Function.update_self _ _ _

/-- A statement of a job whose key is computed. -/
theorem step_exec (hjob : s.jobs t = some j) (hkey : j.key S = .ok key) :
    s.step S (.exec t) = s.exec S t j key := by
  simp only [State.step, hjob, hkey]

/-- The claim of a job is inserted. -/
theorem exec_begun {runs : UniqueTable String RunRow} (hphase : j.phase = .begun)
    (hins : s.runs.insert RunRow.keys t (j.claim S key) = .inserted runs) :
    s.exec S t j key = some ({ s with runs := runs }.setJob t { j with phase := .claimed }) := by
  simp only [State.exec, hphase, hins]

/-- The raw bytes are stored. -/
theorem exec_claimed {blobs : Dict String (List UInt8)} (hphase : j.phase = .claimed)
    (hput : put s.blobs (j.storageKey S) j.request.raw = .ok blobs) :
    s.exec S t j key = some ({ s with blobs := blobs }.setJob t { j with phase := .fetched }) := by
  simp only [State.exec, hphase, hput]

/-- The document is inserted. -/
theorem exec_fetched {documents : UniqueTable DocumentKey DocumentRow} (hphase : j.phase = .fetched)
    (hins : s.documents.insert DocumentRow.keys t (j.document S) = .inserted documents) :
    s.exec S t j key
    = some ({ s with documents := documents }.setJob t { j with phase := .stored }) := by
  simp only [State.exec, hphase, hins]

/-- The source is parsed and normalized. -/
theorem exec_stored {derived : Derived} (hphase : j.phase = .stored)
    (hderive : j.release.derive j.request.entityId (j.versionId S) (j.contentHash S) j.request.raw
      (if j.release.companyFacts then []
        else priorCanonicalFacts s.documents.rows s.versions.rows j.request.entityId
        j.request.publishedAt) = .ok derived) :
    s.exec S t j key = some (s.setJob t { j with phase := .derived derived }) := by
  simp only [State.exec, hphase, hderive]

/-- The canonical text is stored. -/
theorem exec_derived {derived : Derived} {blobs : Dict String (List UInt8)}
    (hphase : j.phase = .derived derived)
    (hput : put s.blobs (canonicalTextAddress S derived.text)
      (derived.text.flatMap String.utf8EncodeChar) = .ok blobs) :
    s.exec S t j key
    = some ({ s with blobs := blobs }.setJob t { j with phase := .rendered derived }) := by
  simp only [State.exec, hphase, hput]

/-- The version is inserted with its rows, and the run is recorded. -/
theorem exec_rendered {derived : Derived} {versions : UniqueTable VersionKey VersionRow}
    (hphase : j.phase = .rendered derived)
    (hins : s.versions.insert VersionRow.keys t (j.version S derived) = .inserted versions)
    (hnodup : (j.version S derived).keys.Nodup) :
    s.exec S t j key = some ({ s with
        versions := versions
        runs := s.runs.amend t fun r =>
          { r with status := .succeeded, documentId := some (j.documentId S),
                   documentVersionId := some (j.versionId S), result := derived.counts } }.setJob t
      { j with phase := .written ⟨.succeeded, key, some (j.documentId S), some (j.versionId S),
        derived.counts⟩ }) := by
  simp only [State.exec, hphase, hins, if_neg (not_not.mpr hnodup)]
  rfl

/-- The call commits and returns. -/
theorem step_commit {outcome : IngestionOutcome} (hjob : s.jobs t = some j)
    (hphase : j.phase = .written outcome) :
    s.step S (.commit t) = some (s.return t j outcome) := by
  simp only [State.step, hjob, hphase]

theorem run_snoc {σ α : Type} {step : σ → α → Option σ} {s m m' : σ} {as : List α} {a : α}
    (h : run step s as = some m) (h' : step m a = some m') : run step s (as ++ [a]) = some m' :=
  run_append_eq_some_iff.mpr ⟨m, h, run_cons_eq_some_iff.mpr ⟨m', h', rfl⟩⟩

/-- The two keys of a job in the object store differ. -/
theorem address_ne (raw : List UInt8) (text : List Char) :
    (contentAddress S raw).2 ≠ canonicalTextAddress S text := by
  intro h
  have hlist := congrArg String.toList h
  simp [contentAddress, canonicalTextAddress, String.toList_append] at hlist

/-- The job of a call. -/
def callOf (request : Request) (release : Release) (now : ℤ) (phase : Phase) : Job :=
  ⟨request, release, now, phase, none⟩

/-- No call has the number, and no row waits for a commit. -/
structure Idle (t : ℕ) (s : State) : Prop where
  jobs : s.jobs t = none
  runs : s.runs.Free t
  documents : s.documents.Free t
  versions : s.versions.Free t

/-- At the beginning no call has left anything behind. -/
theorem idle_init (t : ℕ) : Idle t State.init := ⟨rfl, free_empty t, free_empty t, free_empty t⟩

section Acts

variable {request : Request} {release : Release} {now : ℤ}

/-- A call begins. -/
theorem step_begin (hidle : Idle t s) (hkey : (callOf request release now .begun).key S = .ok key) :
    s.step S (.begin t request release now)
    = some (s.setJob t (callOf request release now .begun)) := by
  have hkey' : Job.key S ⟨request, release, now, .begun, none⟩ = .ok key := hkey
  simp only [State.step, hidle.jobs, hkey']
  rfl

/-- A statement of the job of a call. -/
theorem step_call (hkey : (callOf request release now .begun).key S = .ok key) (s : State)
    (phase : Phase) :
    (s.setJob t (callOf request release now phase)).step S (.exec t)
      = (s.setJob t (callOf request release now phase)).exec S t
      (callOf request release now phase) key :=
  step_exec (setJob_jobs s t _) hkey

/-- A call that nobody disturbs. -/
def callActs (t : ℕ) (request : Request) (release : Release) (now : ℤ) : List Act :=
  [.begin t request release now, .exec t, .exec t, .exec t, .exec t, .exec t, .exec t, .commit t]

/-- **A call succeeds** when its source is new and can be derived. -/
theorem run_callActs {derived : Derived} {blobs blobs' : Dict String (List UInt8)}
    (hidle : Idle t s)
    (hkey : (callOf request release now .begun).key S = .ok key)
    (hrun : s.runs.find? RunRow.keys key = none)
    (hraw : put s.blobs ((callOf request release now .begun).storageKey S) request.raw = .ok blobs)
    (hdocument : ∀ k ∈ ((callOf request release now .begun).document S).keys,
      s.documents.find? DocumentRow.keys k = none)
    (hderive : release.derive request.entityId ((callOf request release now .begun).versionId S)
      ((callOf request release now .begun).contentHash S) request.raw
      (if release.companyFacts then []
        else priorCanonicalFacts s.documents.rows s.versions.rows request.entityId
        request.publishedAt) = .ok derived)
    (htext : put blobs (canonicalTextAddress S derived.text)
      (derived.text.flatMap String.utf8EncodeChar) = .ok blobs')
    (hversion : ∀ k ∈ ((callOf request release now .begun).version S derived).keys,
      s.versions.find? VersionRow.keys k = none)
    (hnodup : ((callOf request release now .begun).version S derived).keys.Nodup) :
    ∃ s' o, run (State.step S) s (callActs t request release now) = some s' ∧ Idle t s'
      ∧ s'.versions.rows = s.versions.rows
      ++ [(callOf request release now .begun).version S derived]
      ∧ s'.documents.rows = s.documents.rows ++ [(callOf request release now .begun).document S]
      ∧ s'.runs.rows = s.runs.rows ++ [(callOf request release now .begun).succeeded S key derived]
      ∧ s'.quarantine = s.quarantine ∧ s'.blobs = blobs'
      ∧ s'.finished = s.finished ++ [⟨callOf request release now (.written o), .ok o⟩] := by
  have hkeys : ∀ k ∈ RunRow.keys ((callOf request release now .begun).claim S key),
      s.runs.find? RunRow.keys k = none := by
    intro k hk
    rw [List.mem_singleton.mp hk]
    exact hrun
  -- the steps of the call: its source has no rows yet, so every insertion succeeds
  have h₀ : run (State.step S) s [] = some s := rfl
  have h₁ := run_snoc h₀ (step_begin hidle hkey)
  have h₂ := run_snoc h₁ ((step_call hkey _ _).trans (exec_begun rfl (hidle.runs.insert hkeys)))
  have h₃ := run_snoc h₂ ((step_call hkey _ .claimed).trans (exec_claimed rfl hraw))
  have h₄ :=
    run_snoc h₃
      ((step_call hkey _ .fetched).trans (exec_fetched rfl (hidle.documents.insert hdocument)))
  have h₅ := run_snoc h₄ ((step_call hkey _ .stored).trans (exec_stored rfl hderive))
  have h₆ := run_snoc h₅ ((step_call hkey _ (.derived derived)).trans (exec_derived rfl htext))
  have h₇ := run_snoc h₆ ((step_call hkey _ (.rendered derived)).trans
    (exec_rendered rfl (hidle.versions.insert hversion) hnodup))
  have h₈ := run_snoc h₇ (step_commit (setJob_jobs _ _ _) rfl)
  -- the commit publishes the rows and frees the keys
  refine ⟨_, _, h₈, ⟨return_jobs _ _ _ _, ?_, ?_, ?_⟩, ?_, ?_, ?_, List.append_nil _, rfl, rfl⟩
  · exact free_commit fun k => hidle.runs.owner_insert k
  · exact free_commit fun k => hidle.documents.owner_insert k
  · exact free_commit fun k => hidle.versions.owner_insert k
  · exact rows_commit
      (inserted_self s.versions.pending t ((callOf request release now .begun).version S derived))
  · exact rows_commit
      (inserted_self s.documents.pending t ((callOf request release now .begun).document S))
  · exact rows_commit
      (pending_amend
      (inserted_self s.runs.pending t ((callOf request release now .begun).claim S key)))

/-- Other bytes under a recorded accession are quarantined. -/
theorem exec_divergent {existing : DocumentRow} (hphase : j.phase = .fetched)
    (hins : s.documents.insert DocumentRow.keys t (j.document S) = .conflict)
    (hfind : s.documents.find? DocumentRow.keys (.accession j.request.accession) = some existing)
    (hne : existing.contentHash ≠ j.contentHash S) :
    s.exec S t j key
    = some (s.recordQuarantine S t j key (if j.release.companyFacts then none else some existing.id)
      (divergent j.request.accession existing.contentHash (j.contentHash S) S.repr)) := by
  simp only [State.exec, hphase, hins, hfind, if_neg hne]

/-- A call for a recorded accession, with other bytes. -/
def otherActs (t : ℕ) (request : Request) (release : Release) (now : ℤ) : List Act :=
  [.begin t request release now, .exec t, .exec t, .exec t, .commit t]

/-- **A call with other bytes** for an accession is quarantined. -/
theorem run_otherActs {existing : DocumentRow} {blobs : Dict String (List UInt8)} (hidle : Idle t s)
    (hkey : (callOf request release now .begun).key S = .ok key)
    (hrun : s.runs.find? RunRow.keys key = none)
    (hraw : put s.blobs ((callOf request release now .begun).storageKey S) request.raw = .ok blobs)
    (hfind : s.documents.find? DocumentRow.keys (.accession request.accession) = some existing)
    (hne : existing.contentHash ≠ (callOf request release now .begun).contentHash S) :
    ∃ s' o q, run (State.step S) s (otherActs t request release now) = some s' ∧ Idle t s'
      ∧ s'.versions.rows = s.versions.rows ∧ s'.documents.rows = s.documents.rows
      ∧ (∃ documentId e, s'.runs.rows
        = s.runs.rows ++ [(callOf request release now .begun).quarantined S key documentId e])
      ∧ s'.quarantine = s.quarantine ++ [q] ∧ s'.blobs = blobs ∧ o.status = .quarantined
      ∧ s'.finished = s.finished
        ++ [⟨{ callOf request release now (.written o) with quarantine := some q }, .ok o⟩] := by
  have hkeys : ∀ k ∈ RunRow.keys ((callOf request release now .begun).claim S key),
      s.runs.find? RunRow.keys k = none := by
    intro k hk
    rw [List.mem_singleton.mp hk]
    exact hrun
  have hfound :
      (s.documents.find? DocumentRow.keys (.accession request.accession)).isSome = true := by
    rw [hfind]
    rfl
  have hkey' : DocumentKey.accession request.accession
      ∈ DocumentRow.keys ((callOf request release now .begun).document S) := List.mem_cons_self
  have h₀ : run (State.step S) s [] = some s := rfl
  have h₁ := run_snoc h₀ (step_begin hidle hkey)
  have h₂ := run_snoc h₁ ((step_call hkey _ _).trans (exec_begun rfl (hidle.runs.insert hkeys)))
  have h₃ := run_snoc h₂ ((step_call hkey _ .claimed).trans (exec_claimed rfl hraw))
  have h₄ := run_snoc h₃ ((step_call hkey _ .fetched).trans
    (exec_divergent rfl (hidle.documents.insert_conflict hkey' hfound) hfind hne))
  have h₅ := run_snoc h₄ (step_commit (setJob_jobs _ _ _) rfl)
  refine ⟨_, _, _, h₅, ⟨return_jobs _ _ _ _, ?_, hidle.documents.commit, hidle.versions.commit⟩,
    hidle.versions.rows_commit, hidle.documents.rows_commit,
    ⟨if release.companyFacts then none else some existing.id,
      divergent request.accession existing.contentHash
      ((callOf request release now .begun).contentHash S) S.repr, ?_⟩, rfl, rfl, rfl, rfl⟩
  · exact free_commit fun k => hidle.runs.owner_insert k
  · exact rows_commit
      (pending_amend
      (inserted_self s.runs.pending t ((callOf request release now .begun).claim S key)))

/-- **A call whose job is recorded** returns the record, and changes nothing. -/
theorem run_repeatedCall {row : RunRow} (hidle : Idle t s)
    (hkey : (callOf request release now .begun).key S = .ok key)
    (hfind : s.runs.find? RunRow.keys key = some row) (hfinal : row.status ≠ .running) :
    ∃ s', run (State.step S) s [.begin t request release now, .exec t] = some s' ∧ Idle t s'
      ∧ s'.versions.rows = s.versions.rows ∧ s'.documents.rows = s.documents.rows
      ∧ s'.runs.rows = s.runs.rows ∧ s'.quarantine = s.quarantine
      ∧ s'.finished = s.finished
      ++ [⟨callOf request release now .begun, .ok (noopOutcome key row)⟩] := by
  have hfound : (s.runs.find? RunRow.keys key).isSome = true := by
    rw [hfind]
    rfl
  have hins := hidle.runs.insert_conflict (v := (callOf request release now .begun).claim S key)
    List.mem_cons_self hfound
  have hexec :
      (s.setJob t (callOf request release now .begun)).exec S t (callOf request release now .begun)
      key
      = some ((s.setJob t (callOf request release now .begun)).return t
        (callOf request release now .begun)
        (noopOutcome key row)) := by
    have hins' : (s.setJob t (callOf request release now .begun)).runs.insert RunRow.keys t
        ((callOf request release now .begun).claim S key) = .conflict := hins
    have hfind' : (s.setJob t (callOf request release now .begun)).runs.find? RunRow.keys key
      = some row := hfind
    have hphase : (callOf request release now .begun).phase = .begun := rfl
    simp only [State.exec, hphase, hins', hfind', if_neg hfinal]
  have h₀ : run (State.step S) s [] = some s := rfl
  have h₁ := run_snoc h₀ (step_begin hidle hkey)
  have h₂ := run_snoc h₁ ((step_call hkey _ _).trans hexec)
  exact ⟨_, h₂,
    ⟨return_jobs _ _ _ _, hidle.runs.commit, hidle.documents.commit, hidle.versions.commit⟩,
    hidle.versions.rows_commit, hidle.documents.rows_commit, hidle.runs.rows_commit,
    List.append_nil _, rfl⟩

/-- **A call that is lost** leaves nothing but the error that it raises. -/
theorem run_lostCall (hidle : Idle t s)
    (hkey : (callOf request release now .begun).key S = .ok key) :
    ∃ s', run (State.step S) s [.begin t request release now, .crash t] = some s' ∧ Idle t s'
      ∧ s'.versions.rows = s.versions.rows ∧ s'.documents.rows = s.documents.rows
      ∧ s'.runs.rows = s.runs.rows ∧ s'.quarantine = s.quarantine
      ∧ s'.finished = s.finished ++ [⟨callOf request release now .begun, .error .uncaught⟩] := by
  have hcrash : (s.setJob t (callOf request release now .begun)).step S (.crash t)
      = some ((s.setJob t (callOf request release now .begun)).raise t
        (callOf request release now .begun)
        .uncaught) := by
    simp only [State.step, setJob_jobs]
  have h₀ : run (State.step S) s [] = some s := rfl
  have h₁ := run_snoc h₀ (step_begin hidle hkey)
  have h₂ := run_snoc h₁ hcrash
  exact ⟨_, h₂, ⟨raise_jobs _ _ _ _, hidle.runs.rollback, hidle.documents.rollback,
    hidle.versions.rollback⟩, rfl, rfl, rfl, rfl, rfl⟩

end Acts

end OneCall

/-! ## Two filings of one paragraph -/

def bytesOf (text : String) : List UInt8 := text.toList.flatMap String.utf8EncodeChar

def hashOfX : String := "sha256:31d8e07ec305ac4e2515d1f0b1c8c603b3858044eb7d97807d6d0970838cb0be"

def hashOfY : String := "sha256:2bd43c632e9e32ca72f50c6a5a9ed1037ad9f08dc4d245d024744faa1b755ea6"

/-- What a job key is the hash of, for a source of an accession. -/
def keyBytes (accession sourceHash : String) : List UInt8 :=
  (List.intercalate ['|']
    (["e1", accession, sourceHash, "fel-parser/1.0.0", "fel-xbrl/1.0.0"].map String.toList)).flatMap
      String.utf8EncodeChar

/-- The hashes of what is hashed in the history. -/
def filedHashes : Dict (List UInt8) String :=
  [(keyBytes "24-1" hashOfX, "4ceec7c2ad99e14518faf71d4ae73b6c6afa344c1129c851ee9e6b9b2a67f373"),
    (keyBytes "24-2" hashOfX, "8d9bf0996dcd1d9a9187e31b15a595beb63bcbd3ab543408a328df1b000f48a7"),
    (keyBytes "24-1" hashOfY, "7489b36f3f461e73d19e1c9e2f63cfa4ce036ac37f527306479684368641ca29"),
    (bytesOf "<p>x</p>", "31d8e07ec305ac4e2515d1f0b1c8c603b3858044eb7d97807d6d0970838cb0be"),
    (bytesOf "<p>y</p>", "2bd43c632e9e32ca72f50c6a5a9ed1037ad9f08dc4d245d024744faa1b755ea6"),
    (bytesOf "x\n", "73cb3858a687a8494ca3323053016282f3dad39d42cf62ca4e79dda2aac7d9ac"),
    (bytesOf "x", "2d711642b726b04401627ca9fbac32f5c8530fb1903cc4db02258717921a4881")]

def filedNames : Dict String String :=
  [("document|24-1", "175ee2b0-eb76-55ae-9cdb-9d43a803027d"),
    ("document|24-2", "0cd060aa-bdc9-518c-815f-e4f70a7a4426"),
    ("90dc96c6-e5ac-5b31-8696-a4554b70bfb6|section|0", "b16ee4c2-b267-54a5-80b6-06f1c4e00ff9"),
    ("90dc96c6-e5ac-5b31-8696-a4554b70bfb6|span|0|1", "0823cced-341a-58b3-91c4-32a8f7980711"),
    ("b8b34da0-76dd-5db1-b4b7-378d1f2580d7|section|0", "7f8a6dcb-3578-5ccf-8855-36792006eb2a"),
    ("b8b34da0-76dd-5db1-b4b7-378d1f2580d7|span|0|1", "5b13d443-8873-561f-ba13-12cff78d9656")]

def versionUrlOf (documentId contentHash : String) : String :=
  "https://financial-evidence-lab.dev/version|" ++ documentId ++ "|" ++ contentHash
    ++ "|fel-parser/1.0.0|fel-xbrl/1.0.0"

def filedUrls : Dict String String :=
  [(versionUrlOf "175ee2b0-eb76-55ae-9cdb-9d43a803027d" hashOfX,
    "90dc96c6-e5ac-5b31-8696-a4554b70bfb6"),
    (versionUrlOf "0cd060aa-bdc9-518c-815f-e4f70a7a4426" hashOfX,
    "b8b34da0-76dd-5db1-b4b7-378d1f2580d7"),
    (versionUrlOf "175ee2b0-eb76-55ae-9cdb-9d43a803027d" hashOfY,
    "a33aca6f-b00d-506d-a32e-d6e0a1b5e795")]

def filedTools : Tools where
  sha256Hex data := (Dict.get? filedHashes data).getD ""
  uuid5 name := (Dict.get? filedNames name).getD ""
  uuid5Url name := (Dict.get? filedUrls name).getD ""
  repr text := "'" ++ text ++ "'"

/-- What the parser of the standard library reports of a source with one paragraph of one letter. -/
def paragraph (source : String) : List Filing.Event :=
  [.startTag "p" [], .data (String.ofList ((source.toList.drop 3).take 1)), .endTag "p"]

def filedRelease : Release := filingRelease filedTools CompanyFacts.quiet paragraph

def firstRequest : Request where
  entityId := "e1"
  accession := "24-1"
  sourceUrl := "https://www.sec.gov/24-1"
  raw := bytesOf "<p>x</p>"
  publishedAt := 1
  form := some "10-K"

/-- The same paragraph under another accession. -/
def secondRequest : Request := { firstRequest with accession := "24-2" }

/-- Other bytes for the first accession. -/
def otherRequest : Request := { firstRequest with raw := bytesOf "<p>y</p>" }

/-- Two filings, other bytes for the first one, the first one again, and a call that is lost. -/
def filedActs : List Act :=
  callActs 0 firstRequest filedRelease 10 ++ callActs 0 secondRequest filedRelease 11
    ++ otherActs 0 otherRequest filedRelease 12
    ++ [.begin 0 firstRequest filedRelease 13, .exec 0]
    ++ [.begin 0 secondRequest filedRelease 14, .crash 0]

def firstVersion : String := "90dc96c6-e5ac-5b31-8696-a4554b70bfb6"

def secondVersion : String := "b8b34da0-76dd-5db1-b4b7-378d1f2580d7"

theorem hash_first : (contentAddress filedTools firstRequest.raw).1 = hashOfX := by decide

theorem hash_other : (contentAddress filedTools otherRequest.raw).1 = hashOfY := by decide

theorem versionId_first (now : ℤ) (phase : Phase) :
    (callOf firstRequest filedRelease now phase).versionId filedTools = firstVersion := by
  have h : (callOf firstRequest filedRelease 0 .begun).versionId filedTools = firstVersion := by
    decide +kernel
  exact h

theorem versionId_second (now : ℤ) (phase : Phase) :
    (callOf secondRequest filedRelease now phase).versionId filedTools = secondVersion := by
  have h : (callOf secondRequest filedRelease 0 .begun).versionId filedTools = secondVersion := by
    decide +kernel
  exact h

/-- The job key of the history, evaluated once for all of its calls. -/
theorem key_filed {request : Request} {now : ℤ} {accession sourceHash : String}
    (hentity : request.entityId = "e1")
    (haccession : request.accession = accession)
    (hhash : (contentAddress filedTools request.raw).1 = sourceHash)
    (hbar : '|' ∉ accession.toList) (hbar' : '|' ∉ sourceHash.toList) :
    (callOf request filedRelease now .begun).key filedTools
      = .ok (filedTools.sha256Hex (keyBytes accession sourceHash)) := by
  have hfind :
      ([request.entityId, request.accession, (contentAddress filedTools request.raw).1,
      "fel-parser/1.0.0",
      "fel-xbrl/1.0.0"].find? fun part => '|' ∈ part.toList) = none := by
    rw [hentity, haccession, hhash]
    simp [hbar, hbar']
  have hbytes :
      ("|".intercalate [request.entityId, request.accession,
        (contentAddress filedTools request.raw).1,
      "fel-parser/1.0.0", "fel-xbrl/1.0.0"]).toList.flatMap String.utf8EncodeChar
        = keyBytes accession sourceHash := by
    rw [hentity, haccession, hhash, String.toList_intercalate]
    rfl
  show jobKey filedTools (contentAddress filedTools request.raw).1 "fel-parser/1.0.0"
    "fel-xbrl/1.0.0" request.entityId
    request.accession = _
  simp only [jobKey, hfind, hbytes]

/-- What the two filings derive, and that their rows have identifiers of their own. -/
theorem derive_filed : ∃ derived derived',
    filedRelease.derive "e1" firstVersion hashOfX firstRequest.raw [] = .ok derived
      ∧ filedRelease.derive "e1" secondVersion hashOfX firstRequest.raw [] = .ok derived'
      ∧ derived.text = derived'.text ∧ derived.facts = []
      ∧
      ((derived.names firstVersion ++ derived'.names secondVersion).map
        filedTools.uuid5).Nodup := by
  have h :
    ((filedRelease.derive "e1" firstVersion hashOfX firstRequest.raw []).toOption.any fun derived =>
      (filedRelease.derive "e1" secondVersion hashOfX firstRequest.raw []).toOption.any
          fun derived' =>
        derived.text = derived'.text && derived.facts.isEmpty
          && ((derived.names firstVersion ++ derived'.names secondVersion).map
            filedTools.uuid5).Nodup) = true := by
    decide
  obtain ⟨derived, hderive, h⟩ := CompanyFacts.exists_of_any h
  obtain ⟨derived', hderive', h⟩ := CompanyFacts.exists_of_any h
  simp only [Bool.and_eq_true, decide_eq_true_eq, List.isEmpty_iff] at h
  exact ⟨derived, derived', hderive, hderive', h.1.1, h.1.2, h.2⟩

/-- What the history has led to. -/
structure FiledState (s : State) (derived derived' : Derived) : Prop where
  run : run (State.step filedTools) State.init filedActs = some s
  versions :
    s.versions.rows = [(callOf firstRequest filedRelease 10 .begun).version filedTools derived,
    (callOf secondRequest filedRelease 11 .begun).version filedTools derived']
  documents : s.documents.rows = [(callOf firstRequest filedRelease 10 .begun).document filedTools,
    (callOf secondRequest filedRelease 11 .begun).document filedTools]
  runs : s.runs.rows.length = 3
  quarantine : s.quarantine.length = 1
  finished :
    ∃ o₁ o₂ o₃ o₄ q, s.finished = [⟨callOf firstRequest filedRelease 10 (.written o₁), .ok o₁⟩,
    ⟨callOf secondRequest filedRelease 11 (.written o₂), .ok o₂⟩,
    ⟨{ callOf otherRequest filedRelease 12 (.written o₃) with quarantine := some q }, .ok o₃⟩,
    ⟨callOf firstRequest filedRelease 13 .begun, .ok o₄⟩,
    ⟨callOf secondRequest filedRelease 14 .begun, .error .uncaught⟩]
  names : Apart filedTools.uuid5 (derived.names firstVersion ++ derived'.names secondVersion)
    (derived.names firstVersion ++ derived'.names secondVersion)

/-- A new name takes the data. -/
theorem put_new {blobs : Dict String (List UInt8)} {name : String} {data : List UInt8}
    (h : Dict.get? blobs name = none) : put blobs name data = .ok (Dict.set blobs name data) := by
  rw [put, h]

/-- The same data under a name changes nothing. -/
theorem put_old {blobs : Dict String (List UInt8)} {name : String} {data : List UInt8}
    (h : Dict.get? blobs name = some data) : put blobs name data = .ok blobs := by
  rw [put, h]
  exact if_pos rfl

/-- Versions without facts are followed by no earlier fact. -/
theorem priorCanonicalFacts_nil {documents : List DocumentRow} {versions : List VersionRow}
    {entityId : String}
    {publishedBefore : ℤ} (h : ∀ v ∈ versions, v.derived.facts = []) :
    priorCanonicalFacts documents versions entityId publishedBefore = [] := by
  have hnone : candidates documents versions entityId publishedBefore = [] := by
    rw [candidates, List.flatMap_eq_nil_iff]
    intro v hv
    rw [h v hv]
    exact List.flatMap_eq_nil_iff.mpr fun _ _ => rfl
  rw [priorCanonicalFacts, hnone]
  rfl

theorem storageKey_first : (contentAddress filedTools otherRequest.raw).2
    ≠ (contentAddress filedTools firstRequest.raw).2 := by
  decide

theorem documentId_filed :
    documentIdForAccession filedTools "24-2" ≠ documentIdForAccession filedTools "24-1" := by
  decide

/-- The jobs of the history have keys of their own. -/
theorem keys_filed :
    filedTools.sha256Hex (keyBytes "24-2" hashOfX) ≠ filedTools.sha256Hex (keyBytes "24-1" hashOfX)
    ∧ filedTools.sha256Hex (keyBytes "24-1" hashOfY)
    ≠ filedTools.sha256Hex (keyBytes "24-1" hashOfX)
    ∧ filedTools.sha256Hex (keyBytes "24-1" hashOfY)
    ≠ filedTools.sha256Hex (keyBytes "24-2" hashOfX) := by
  decide

section Filed

variable {derived derived' : Derived}

/-- The rows of the two versions. -/
theorem placed_filed {versionId : String}
    (h : filedRelease.derive "e1" versionId hashOfX firstRequest.raw [] = .ok derived) :
    derived.Placed filedTools.uuid5 versionId :=
  filingRelease_placed filedTools CompanyFacts.quiet paragraph _ _ _ _ _ _ h

theorem bar_firstVersion : '|' ∉ firstVersion.toList := by decide

theorem bar_secondVersion : '|' ∉ secondVersion.toList := by decide

theorem version_id (S : Tools) (j : Job) (derived : Derived) :
    (j.version S derived).id = j.versionId S := rfl

/-- The rows of a version, whose identifier is known. -/
theorem nodup_filed {u : VersionRow} {versionId : String} (hid : u.id = versionId)
    (hplaced : u.derived.Placed filedTools.uuid5 versionId)
    (hnames : Apart filedTools.uuid5 (u.derived.names versionId) (u.derived.names versionId))
    (hbar : '|' ∉ versionId.toList) : u.keys.Nodup := by
  subst hid
  exact VersionRow.nodup_keys hplaced hnames hbar

/-- The state after the first filing. -/
theorem exists_first
    (hderive : filedRelease.derive "e1" firstVersion hashOfX firstRequest.raw [] = .ok derived)
    (hnames : Apart filedTools.uuid5 (derived.names firstVersion) (derived.names firstVersion)) :
    ∃ s o, run (State.step filedTools) State.init (callActs 0 firstRequest filedRelease 10)
    = some s ∧ Idle 0 s
      ∧ s.versions.rows = [(callOf firstRequest filedRelease 10 .begun).version filedTools derived]
      ∧ s.documents.rows = [(callOf firstRequest filedRelease 10 .begun).document filedTools]
      ∧ s.runs.rows = [(callOf firstRequest filedRelease 10 .begun).succeeded filedTools
        (filedTools.sha256Hex (keyBytes "24-1" hashOfX)) derived]
      ∧ s.quarantine = []
      ∧ s.blobs = Dict.set [((contentAddress filedTools firstRequest.raw).2, firstRequest.raw)]
        (canonicalTextAddress filedTools derived.text) (derived.text.flatMap String.utf8EncodeChar)
      ∧ s.finished = [⟨callOf firstRequest filedRelease 10 (.written o), .ok o⟩] := by
  have hkey : (callOf firstRequest filedRelease 10 .begun).key filedTools
      = .ok (filedTools.sha256Hex (keyBytes "24-1" hashOfX)) :=
    key_filed rfl rfl hash_first (by decide) (by decide)
  have hderive' : filedRelease.derive firstRequest.entityId
      ((callOf firstRequest filedRelease 10 .begun).versionId filedTools)
      ((callOf firstRequest filedRelease 10 .begun).contentHash filedTools) firstRequest.raw []
      = .ok derived := by
    have hhash : (callOf firstRequest filedRelease 10 .begun).contentHash filedTools = hashOfX :=
      hash_first
    rw [versionId_first, hhash]
    exact hderive
  have htext : Dict.get? [((contentAddress filedTools firstRequest.raw).2, firstRequest.raw)]
      (canonicalTextAddress filedTools derived.text) = none := by
    rw [Dict.get?_cons, if_neg (address_ne _ _)]
    rfl
  have hnodup :
      ((callOf firstRequest filedRelease 10 .begun).version filedTools derived).keys.Nodup := by
    have hid :=
      (version_id filedTools (callOf firstRequest filedRelease 10 .begun) derived).trans
      (versionId_first 10 .begun)
    exact nodup_filed hid (placed_filed hderive) hnames bar_firstVersion
  exact run_callActs (idle_init 0) hkey rfl (put_new rfl) (fun _ _ => rfl) hderive' (put_new htext)
    (fun _ _ => rfl) hnodup

theorem storageKey_filed : (callOf secondRequest filedRelease 11 .begun).storageKey filedTools
    = (contentAddress filedTools firstRequest.raw).2 := rfl

theorem version_documentId (S : Tools) (j : Job) (derived : Derived) :
    (j.version S derived).documentId = j.documentId S := rfl

theorem versions_ne : firstVersion ≠ secondVersion := by decide

/-- The rows of two versions, whose identifiers are known. -/
theorem disjoint_filed {u u' : VersionRow} {n n' : String} {k : VersionKey} (hid : u.id = n)
    (hid' : u'.id = n')
    (hplaced : u.derived.Placed filedTools.uuid5 n)
    (hplaced' : u'.derived.Placed filedTools.uuid5 n')
    (hnames : Apart filedTools.uuid5 (u.derived.names n) (u'.derived.names n'))
    (hbar : '|' ∉ n.toList)
    (hbar' : '|' ∉ n'.toList) (hne : n ≠ n') (hdocument : u.documentId ≠ u'.documentId)
    (hk : k ∈ u.keys) :
    k ∉ u'.keys := by
  subst hid hid'
  intro hk'
  rcases VersionRow.eq_of_shared hplaced hplaced' hnames hbar hbar' hk hk' with heq | heq
  · exact hne heq
  · exact hdocument heq.1

theorem hash_ne : (contentAddress filedTools firstRequest.raw).1
    ≠ (contentAddress filedTools otherRequest.raw).1 := by
  rw [hash_first, hash_other]
  decide

/-- The state after the second filing. -/
theorem exists_second {s : State} {text : List Char} {u : VersionRow} {d : DocumentRow} {r : RunRow}
    (hidle : Idle 0 s) (hversions : s.versions.rows = [u]) (hdocuments : s.documents.rows = [d])
    (hruns : s.runs.rows = [r])
    (hblobs :
      s.blobs = Dict.set [((contentAddress filedTools firstRequest.raw).2, firstRequest.raw)]
      (canonicalTextAddress filedTools text) (text.flatMap String.utf8EncodeChar))
    (hu : u = (callOf firstRequest filedRelease 10 .begun).version filedTools derived)
    (hd : d = (callOf firstRequest filedRelease 10 .begun).document filedTools)
    (hr : r.jobKey = filedTools.sha256Hex (keyBytes "24-1" hashOfX))
    (hderive : filedRelease.derive "e1" firstVersion hashOfX firstRequest.raw [] = .ok derived)
    (hderive' : filedRelease.derive "e1" secondVersion hashOfX firstRequest.raw [] = .ok derived')
    (htext : derived'.text = text) (hfacts : derived.facts = [])
    (hnames : Apart filedTools.uuid5 (derived.names firstVersion ++ derived'.names secondVersion)
      (derived.names firstVersion ++ derived'.names secondVersion)) :
    ∃ s' o, run (State.step filedTools) s (callActs 0 secondRequest filedRelease 11) = some s' ∧
    Idle 0 s'
      ∧ s'.versions.rows
      = [u, (callOf secondRequest filedRelease 11 .begun).version filedTools derived']
      ∧ s'.documents.rows = [d, (callOf secondRequest filedRelease 11 .begun).document filedTools]
      ∧ s'.runs.rows = [r, (callOf secondRequest filedRelease 11 .begun).succeeded filedTools
        (filedTools.sha256Hex (keyBytes "24-2" hashOfX)) derived']
      ∧ s'.quarantine = s.quarantine ∧ s'.blobs = s.blobs
      ∧ s'.finished = s.finished
      ++ [⟨callOf secondRequest filedRelease 11 (.written o), .ok o⟩] := by
  have hkey : (callOf secondRequest filedRelease 11 .begun).key filedTools
      = .ok (filedTools.sha256Hex (keyBytes "24-2" hashOfX)) :=
    key_filed rfl rfl hash_first (by decide) (by decide)
  have hrun : s.runs.find? RunRow.keys (filedTools.sha256Hex (keyBytes "24-2" hashOfX)) = none := by
    rw [find?_eq_none_iff, hruns]
    intro r' hr' hk
    rw [List.mem_singleton.mp hr', RunRow.keys, hr, List.mem_singleton] at hk
    exact keys_filed.1 hk
  have hraw :
      Dict.get? s.blobs ((callOf secondRequest filedRelease 11 .begun).storageKey filedTools)
      = some secondRequest.raw := by
    rw [hblobs, storageKey_filed, Dict.get?_set, if_neg (address_ne _ _).symm,
      Dict.get?_cons, if_pos rfl]
    rfl
  have hdocument : ∀ k ∈ ((callOf secondRequest filedRelease 11 .begun).document filedTools).keys,
      s.documents.find? DocumentRow.keys k = none := by
    intro k hk
    rw [find?_eq_none_iff, hdocuments]
    intro d' hd' hk'
    rw [List.mem_singleton.mp hd', hd] at hk'
    rcases List.mem_pair.mp hk with rfl | rfl
    · rcases List.mem_pair.mp hk' with heq | heq
      · exact absurd (DocumentKey.accession.inj heq) (by decide)
      · cases heq
    · rcases List.mem_pair.mp hk' with heq | heq
      · cases heq
      · exact documentId_filed (DocumentKey.id.inj heq)
  have hprior : priorCanonicalFacts s.documents.rows s.versions.rows secondRequest.entityId
      secondRequest.publishedAt = [] := by
    refine priorCanonicalFacts_nil fun v hv => ?_
    rw [hversions] at hv
    rw [List.mem_singleton.mp hv, hu]
    exact hfacts
  have hderive₂ : filedRelease.derive secondRequest.entityId
      ((callOf secondRequest filedRelease 11 .begun).versionId filedTools)
      ((callOf secondRequest filedRelease 11 .begun).contentHash filedTools) secondRequest.raw
      (if filedRelease.companyFacts then []
        else priorCanonicalFacts s.documents.rows s.versions.rows secondRequest.entityId
          secondRequest.publishedAt) = .ok derived' := by
    have hhash : (callOf secondRequest filedRelease 11 .begun).contentHash filedTools = hashOfX :=
      hash_first
    rw [hprior, ite_self, versionId_second, hhash]
    exact hderive'
  have hrendered : Dict.get? s.blobs (canonicalTextAddress filedTools derived'.text)
      = some (derived'.text.flatMap String.utf8EncodeChar) := by
    rw [hblobs, htext, Dict.get?_set, if_pos rfl]
  have hid := (version_id filedTools (callOf secondRequest filedRelease 11 .begun) derived').trans
    (versionId_second 11 .begun)
  have hid' : u.id = firstVersion :=
    hu ▸ (version_id filedTools (callOf firstRequest filedRelease 10 .begun) derived).trans
      (versionId_first 10 .begun)
  have hversion :
      ∀ k ∈ ((callOf secondRequest filedRelease 11 .begun).version filedTools derived').keys,
      s.versions.find? VersionRow.keys k = none := by
    intro k hk
    rw [find?_eq_none_iff, hversions]
    intro v hv hk'
    rw [List.mem_singleton.mp hv] at hk'
    have hdocuments :
        ((callOf secondRequest filedRelease 11 .begun).version filedTools derived').documentId
        ≠ u.documentId := by
      rw [hu, version_documentId, version_documentId]
      exact documentId_filed
    refine disjoint_filed hid hid' (placed_filed hderive') (hu ▸ placed_filed hderive) ?_
      bar_secondVersion
      bar_firstVersion versions_ne.symm hdocuments hk hk'
    intro x hx y hy
    rw [hu] at hy
    exact hnames x (List.mem_append_right _ hx) y (List.mem_append_left _ hy)
  have hnodup :
      ((callOf secondRequest filedRelease 11 .begun).version filedTools derived').keys.Nodup := by
    refine nodup_filed hid (placed_filed hderive') ?_ bar_secondVersion
    intro x hx y hy
    exact hnames x (List.mem_append_right _ hx) y (List.mem_append_right _ hy)
  obtain ⟨s', o, hrun', hidle', hversions', hdocuments', hruns', hquarantine, hblobs', hfinished⟩ :=
    run_callActs hidle hkey hrun (put_old hraw) hdocument hderive₂ (put_old hrendered)
      hversion hnodup
  rw [hversions] at hversions'
  rw [hdocuments] at hdocuments'
  rw [hruns] at hruns'
  exact ⟨s', o, hrun', hidle', hversions', hdocuments', hruns', hquarantine, hblobs', hfinished⟩

/-- **The history runs.** -/
theorem exists_filed : ∃ s derived derived', FiledState s derived derived' := by
  obtain ⟨derived, derived', hderive, hderive', htext, hfacts, hnodup⟩ := derive_filed
  have hnames : Apart filedTools.uuid5 (derived.names firstVersion ++ derived'.names secondVersion)
      (derived.names firstVersion ++ derived'.names secondVersion) :=
    fun x hx y hy heq => List.inj_on_of_nodup_map hnodup hx hy heq
  obtain ⟨s₁, o₁, hrun₁, hidle₁, hversions₁, hdocuments₁, hruns₁, hquarantine₁,
      hblobs₁, hfinished₁⟩ :=
    exists_first hderive fun x hx y hy =>
      hnames x (List.mem_append_left _ hx) y (List.mem_append_left _ hy)
  obtain ⟨s₂, o₂, hrun₂, hidle₂, hversions₂, hdocuments₂, hruns₂, hquarantine₂,
      hblobs₂, hfinished₂⟩ :=
    exists_second hidle₁ hversions₁ hdocuments₁ hruns₁ hblobs₁ rfl rfl rfl hderive hderive'
      htext.symm hfacts hnames
  -- other bytes under the first accession
  have hkey₃ : (callOf otherRequest filedRelease 12 .begun).key filedTools
      = .ok (filedTools.sha256Hex (keyBytes "24-1" hashOfY)) :=
    key_filed rfl rfl hash_other (by decide) (by decide)
  have hnew₃ :
      s₂.runs.find? RunRow.keys (filedTools.sha256Hex (keyBytes "24-1" hashOfY)) = none := by
    rw [find?_eq_none_iff, hruns₂]
    intro r hr hk
    rcases List.mem_pair.mp hr with rfl | rfl
    · exact keys_filed.2.1 (List.mem_singleton.mp hk)
    · exact keys_filed.2.2 (List.mem_singleton.mp hk)
  have hraw₃ : Dict.get? s₂.blobs (contentAddress filedTools otherRequest.raw).2 = none := by
    rw [hblobs₂, hblobs₁, Dict.get?_set, if_neg (address_ne _ _).symm, Dict.get?_cons,
      if_neg storageKey_first.symm]
    rfl
  have hfind₃ : s₂.documents.find? DocumentRow.keys (.accession otherRequest.accession)
      = some ((callOf firstRequest filedRelease 10 .begun).document filedTools) := by
    rw [UniqueTable.find?, hdocuments₂]
    exact List.find?_cons_of_pos (decide_eq_true List.mem_cons_self)
  obtain ⟨s₃, o₃, q, hrun₃, hidle₃, hversions₃, hdocuments₃, ⟨documentId, e, hruns₃⟩, hquarantine₃,
      -, -, hfinished₃⟩ :=
    run_otherActs hidle₂ hkey₃ hnew₃ (put_new hraw₃) hfind₃ hash_ne
  -- the first filing again, whose job is recorded
  have hkey₄ : (callOf firstRequest filedRelease 13 .begun).key filedTools
      = .ok (filedTools.sha256Hex (keyBytes "24-1" hashOfX)) :=
    key_filed rfl rfl hash_first (by decide) (by decide)
  have hfind₄ : s₃.runs.find? RunRow.keys (filedTools.sha256Hex (keyBytes "24-1" hashOfX))
      = some ((callOf firstRequest filedRelease 10 .begun).succeeded filedTools
        (filedTools.sha256Hex (keyBytes "24-1" hashOfX)) derived) := by
    rw [UniqueTable.find?, hruns₃, hruns₂]
    exact List.find?_cons_of_pos (decide_eq_true List.mem_cons_self)
  obtain ⟨s₄, hrun₄, hidle₄, hversions₄, hdocuments₄, hruns₄, hquarantine₄, hfinished₄⟩ :=
    run_repeatedCall hidle₃ hkey₄ hfind₄ RunStatus.noConfusion
  -- a call that is lost
  have hkey₅ : (callOf secondRequest filedRelease 14 .begun).key filedTools
      = .ok (filedTools.sha256Hex (keyBytes "24-2" hashOfX)) :=
    key_filed rfl rfl hash_first (by decide) (by decide)
  obtain ⟨s₅, hrun₅, -, hversions₅, hdocuments₅, hruns₅, hquarantine₅, hfinished₅⟩ :=
    run_lostCall hidle₄ hkey₅
  refine ⟨s₅, derived, derived', ⟨?_, ?_, ?_, ?_, ?_, ?_, hnames⟩⟩
  · exact run_append_eq_some_iff.mpr ⟨s₄, run_append_eq_some_iff.mpr ⟨s₃, run_append_eq_some_iff.mpr
      ⟨s₂, run_append_eq_some_iff.mpr ⟨s₁, hrun₁, hrun₂⟩, hrun₃⟩, hrun₄⟩, hrun₅⟩
  · rw [hversions₅, hversions₄, hversions₃, hversions₂]
  · rw [hdocuments₅, hdocuments₄, hdocuments₃, hdocuments₂]
  · rw [hruns₅, hruns₄, hruns₃, hruns₂]
    rfl
  · rw [hquarantine₅, hquarantine₄, hquarantine₃, hquarantine₂, hquarantine₁]
    rfl
  · rw [hfinished₄, hfinished₃, hfinished₂, hfinished₁] at hfinished₅
    exact ⟨o₁, o₂, o₃, _, q, hfinished₅⟩

/-- What the jobs of the history were. -/
structure FiledJob (j : Job) : Prop where
  request : j.request = firstRequest ∨ j.request = secondRequest ∨ j.request = otherRequest
  release : j.release = filedRelease
  phase : ∀ derived, j.phase ≠ .rendered derived

/-- Every finished call of the history is one of its two requests or the divergent one. -/
theorem FiledState.jobs {s : State} (hs : FiledState s derived derived') :
    ∀ f ∈ s.finished, FiledJob f.job := by
  obtain ⟨o₁, o₂, o₃, o₄, q, hfinished⟩ := hs.finished
  rw [hfinished]
  simp only [List.forall_mem_cons]
  refine ⟨⟨.inl rfl, rfl, fun _ => Phase.noConfusion⟩,
    ⟨.inr (.inl rfl), rfl, fun _ => Phase.noConfusion⟩,
    ⟨.inr (.inr rfl), rfl, fun _ => Phase.noConfusion⟩, ⟨.inl rfl, rfl, fun _ => Phase.noConfusion⟩,
    ⟨.inr (.inl rfl), rfl, fun _ => Phase.noConfusion⟩, fun f hf => (List.not_mem_nil hf).elim⟩

theorem FiledState.length_finished {s : State} (hs : FiledState s derived derived') :
    s.finished.length = 5 := by
  obtain ⟨o₁, o₂, o₃, o₄, q, hfinished⟩ := hs.finished
  rw [hfinished]
  rfl

theorem FiledJob.entityId {j : Job} (h : FiledJob j) : j.request.entityId = "e1" := by
  rcases h.request with h | h | h
  · exact congrArg Request.entityId h
  · exact congrArg Request.entityId h
  · exact congrArg Request.entityId h

/-- The versions of the three requests differ. -/
theorem versionIds_filed : ([firstRequest, secondRequest, otherRequest].map fun request =>
    (callOf request filedRelease 0 .begun).versionId filedTools).Nodup := by
  have hother : (callOf otherRequest filedRelease 0 .begun).versionId filedTools
      = "a33aca6f-b00d-506d-a32e-d6e0a1b5e795" := by
    decide +kernel
  rw [List.map_cons, List.map_cons, List.map_singleton, versionId_first, versionId_second, hother]
  decide

/-- The identifiers of the history keep its versions apart. -/
theorem FiledJob.versionUrl_eq {j j' : Job} (h : FiledJob j) (h' : FiledJob j')
    (heq : j.versionId filedTools = j'.versionId filedTools) :
    j.versionUrl filedTools = j'.versionUrl filedTools := by
  have hmem :
      ∀ {j : Job}, FiledJob j → j.request ∈ [firstRequest, secondRequest, otherRequest] := by
    intro j h
    simpa using h.request
  have hcall : ∀ {j : Job}, FiledJob j →
      (callOf j.request filedRelease 0 .begun).versionUrl filedTools = j.versionUrl filedTools := by
    intro j h
    rw [← h.release]
    rfl
  have hids : (callOf j.request filedRelease 0 .begun).versionId filedTools
      = (callOf j'.request filedRelease 0 .begun).versionId filedTools := by
    rw [Job.versionId, Job.versionId, hcall h, hcall h']
    exact heq
  have hrequest := List.inj_on_of_nodup_map versionIds_filed (hmem h) (hmem h') hids
  rw [← hcall h, ← hcall h', hrequest]

end Filed

end Ingestion
