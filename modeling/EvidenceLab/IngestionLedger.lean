/-
# The ledger over whole runs

Whatever the jobs do next to each other, the ledger records every job once: a call that finds its
job recorded returns the record, and exactly one call did the work (`ingestion_ledger`).  A version
comes from the bytes of its document (`version_provenance`), and a source whose bytes differ from
the recorded ones gets no version (`divergent_quarantined`).
-/
import EvidenceLab.Ingestion
import EvidenceLab.Transitions

namespace Ingestion

open Transitions UniqueTable Xbrl

variable (S : Tools)

/-! ## What the rows say -/

/-- The bytes of a hash are in the object store. -/
def Stored (blobs : Dict String (List UInt8)) (contentHash storageKey : String) (raw : List UInt8) :
    Prop :=
  contentAddress S raw = (contentHash, storageKey) ∧ Dict.get? blobs storageKey = some raw

/-- A document has the bytes that it names. -/
structure DocumentOk (blobs : Dict String (List UInt8)) (d : DocumentRow) : Prop where
  id : d.id = documentIdForAccession S d.accession
  stored : ∃ raw, Stored S blobs d.contentHash d.storageKey raw

/-- What a job derives from its bytes, and from the facts of the versions that it finds. -/
structure Job.DerivedAt (s : State) (j : Job) (found : List VersionRow) (derived : Derived) :
    Prop where
  versions : found <+: s.versions.rows
  derive : ∃ documents, documents <+: s.documents.rows
    ∧ j.release.derive j.request.entityId (j.versionId S) (j.contentHash S) j.request.raw
        (if j.release.companyFacts then []
          else priorCanonicalFacts documents found j.request.entityId j.request.publishedAt)
            = .ok derived

/-- The text of a version is in the object store. -/
def Rendered (blobs : Dict String (List UInt8)) (derived : Derived) : Prop :=
  Dict.get? blobs (canonicalTextAddress S derived.text)
    = some (derived.text.flatMap String.utf8EncodeChar)

/-- A version comes from the bytes of its document, by the call that inserted it. -/
structure VersionOk (s : State) (v : VersionRow) : Prop where
  call : ∃ f ∈ s.finished, v = f.job.version S v.derived
    ∧ Stored S s.blobs (f.job.contentHash S) (f.job.storageKey S) f.job.request.raw
    ∧ (∃ found, f.job.DerivedAt S s found v.derived ∧ ∀ u ∈ found, u.id ≠ v.id)
    ∧ ∃ d ∈ s.documents.rows, d.id = v.documentId ∧ d.accession = f.job.request.accession
      ∧ d.contentHash = f.job.contentHash S ∧ d.storageKey = f.job.storageKey S
  rendered : Rendered S s.blobs v.derived

/-- What the call returned that wrote a row. -/
def RunRow.outcome (r : RunRow) : IngestionOutcome :=
  ⟨if r.status = .succeeded then .succeeded else .quarantined, r.jobKey, r.documentId,
    r.documentVersionId, r.result⟩

/-- The call that wrote a row of the ledger. -/
structure WorkOf (f : Finished) (r : RunRow) : Prop where
  key : f.job.key S = .ok r.jobKey
  sourceHash : r.sourceHash = f.job.contentHash S
  parserVersion : r.parserVersion = f.job.release.parserVersion
  normalizerVersion : r.normalizerVersion = f.job.release.normalizerVersion
  result : f.result = .ok r.outcome
  names : r.status = .succeeded → r.documentVersionId = some (f.job.versionId S) ∧
    r.documentId = some (f.job.documentId S)

/-- The counts of a version. -/
def Derived.counts (derived : Derived) : RunResult where
  sections := derived.sections.length
  spans := derived.spans.length
  tables := derived.tables.length
  facts := derived.facts.length

/-- A row of the ledger is final, and points to what the job wrote. -/
inductive RunOk (s : State) (r : RunRow) : Prop
  | succeeded (v : VersionRow) (hv : v ∈ s.versions.rows) (hstatus : r.status = .succeeded)
      (hid : r.documentVersionId = some v.id) (hdocument : r.documentId = some v.documentId)
      (hparser : r.parserVersion = v.parserVersion) (hnormalizer : r.normalizerVersion
        = v.normalizerVersion)
      (hresult : r.result = v.derived.counts)
  | quarantined (q : QuarantineRow) (hq : q ∈ s.quarantine) (hstatus : r.status = .quarantined)
      (hkey : q.jobKey = r.jobKey) (hhash : q.contentHash = r.sourceHash)
      (hid : r.documentVersionId = none)
      (hresult : r.result = { reasonCode := some q.reasonCode, diagnostic := some q.diagnostic })

/-- The document of an accession has a hash. -/
def Recorded (s : State) (accession contentHash : String) : Prop :=
  ∃ d ∈ s.documents.rows, d.accession = accession ∧ d.contentHash = contentHash

/-- The document of an accession has another hash. -/
def Diverges (s : State) (accession contentHash : String) : Prop :=
  ∃ d ∈ s.documents.rows, d.accession = accession ∧ d.contentHash ≠ contentHash

/-- A version has the names that a job gives it. -/
structure NamedBy (j : Job) (v : VersionRow) : Prop where
  id : v.id = j.versionId S
  documentId : v.documentId = j.documentId S
  parserVersion : v.parserVersion = j.release.parserVersion
  normalizerVersion : v.normalizerVersion = j.release.normalizerVersion

/-- The rows of a job share a unique key with one another, or with the version of another job. -/
structure Violates (s : State) (j : Job) (derived : Derived) : Prop where
  phase : j.phase = .rendered derived
  key : ∃ key, j.key S = .ok key
  derives : ∃ found, j.DerivedAt S s found derived
  cause : ¬ (j.version S derived).keys.Nodup
    ∨ ∃ v ∈ s.versions.rows, (∃ k ∈ (j.version S derived).keys, k ∈ v.keys)
      ∧ ∃ g ∈ s.finished, ∃ r ∈ s.runs.rows, WorkOf S g r ∧ r.status = .succeeded
        ∧ NamedBy S g.job v
        ∧ g.job.key S ≠ j.key S
        ∧ (j.request.accession = g.job.request.accession →
          Recorded s j.request.accession (j.contentHash S))

/-- What is true of a call that has ended. -/
structure FinishedOk (s : State) (f : Finished) : Prop where
  /-- A call that did the work recorded it. -/
  work : ∀ o, f.result = .ok o → o.status ≠ .noop → ∃ r ∈ s.runs.rows, WorkOf S f r
  /-- A call that finds its job recorded returns the record. -/
  noop : ∀ o, f.result = .ok o → o.status = .noop →
    ∃ r ∈ s.runs.rows, f.job.key S = .ok r.jobKey ∧ o = noopOutcome r.jobKey r
  /-- Bytes that have a version are the bytes of the document. -/
  succeeded : ∀ o, f.result = .ok o → o.status = .succeeded →
    Recorded s f.job.request.accession (f.job.contentHash S)
  /-- Other bytes are quarantined as such. -/
  quarantined : ∀ o, f.result = .ok o → o.status = .quarantined →
    Recorded s f.job.request.accession (f.job.contentHash S)
      ∨ (Diverges s f.job.request.accession (f.job.contentHash S)
        ∧ o.result.reasonCode = some .divergentAccessionContent)
  terminal : ∀ message, f.result ≠ .error (.runtimeError message)
  /-- A violation of a unique key has a cause. -/
  unique : f.result = .error .uniqueViolation →
    (∃ d ∈ s.documents.rows, d.id = f.job.documentId S ∧ d.accession ≠ f.job.request.accession)
      ∨ ∃ derived, Violates S s f.job derived

/-! ## What a job has done -/

def Job.succeeded (j : Job) (key : String) (derived : Derived) : RunRow :=
  { j.claim S key with
    status := .succeeded, documentId := some (j.documentId S), documentVersionId :=
      some (j.versionId S),
    result := derived.counts }

/-- The result of a successful job in its row. -/
def Job.record (j : Job) (derived : Derived) (r : RunRow) : RunRow :=
  { r with
    status := .succeeded, documentId := some (j.documentId S), documentVersionId :=
      some (j.versionId S),
    result := derived.counts }

def Job.quarantined (j : Job) (key : String) (documentId : Option String) (e : IngestError) :
    RunRow :=
  { j.claim S key with
    status := .quarantined, documentId := documentId,
    result := { reasonCode := some e.reasonCode, diagnostic := some e.diagnostic } }

def Job.quarantineRow (j : Job) (key : String) (e : IngestError) : QuarantineRow :=
  ⟨j.request.accession, j.request.sourceUrl, j.contentHash S, e.reasonCode, e.diagnostic, key⟩

/-- The bytes of a job are in the object store. -/
def Fetched (s : State) (j : Job) : Prop := Dict.get? s.blobs (j.storageKey S) = some j.request.raw

/-- The document that a job has inserted or found. -/
inductive DocumentHeld (s : State) (t : ℕ) (j : Job) : Prop
  | inserted (h : s.documents.pending t = some (j.document S))
  | found (hnone : s.documents.pending t = none)
      (h : Recorded s j.request.accession (j.contentHash S))

/-- Where a job stands in a phase. -/
inductive JobAt (s : State) (t : ℕ) (j : Job) (key : String) : Phase → Prop
  | begun (hruns : s.runs.pending t = none) (hdocuments : s.documents.pending t = none)
      (hversions : s.versions.pending t = none) (hquarantine : j.quarantine = none) :
      JobAt s t j key .begun
  | claimed (hruns : s.runs.pending t = some (j.claim S key))
      (hdocuments : s.documents.pending t = none)
      (hversions : s.versions.pending t = none) (hquarantine : j.quarantine = none) :
      JobAt s t j key .claimed
  | fetched (hruns : s.runs.pending t = some (j.claim S key))
      (hdocuments : s.documents.pending t = none)
      (hversions : s.versions.pending t = none) (hquarantine : j.quarantine = none)
      (hfetched : Fetched S s j) :
      JobAt s t j key .fetched
  | stored (hruns : s.runs.pending t = some (j.claim S key))
      (hversions : s.versions.pending t = none)
      (hquarantine : j.quarantine = none) (hfetched : Fetched S s j)
      (hheld : DocumentHeld S s t j) :
      JobAt s t j key .stored
  | derived (derived : Derived) (hruns : s.runs.pending t = some (j.claim S key))
      (hversions : s.versions.pending t = none) (hquarantine : j.quarantine = none)
      (hfetched : Fetched S s j)
      (hheld : DocumentHeld S s t j) (found : List VersionRow)
      (hderived : j.DerivedAt S s found derived) : JobAt s t j key (.derived derived)
  | rendered (derived : Derived) (hruns : s.runs.pending t = some (j.claim S key))
      (hversions : s.versions.pending t = none) (hquarantine : j.quarantine = none)
      (hfetched : Fetched S s j)
      (hheld : DocumentHeld S s t j) (found : List VersionRow)
      (hderived : j.DerivedAt S s found derived) (hrendered : Rendered S s.blobs derived) :
      JobAt s t j key (.rendered derived)
  | succeeded (derived : Derived) (hruns : s.runs.pending t = some (j.succeeded S key derived))
      (hversions : s.versions.pending t = some (j.version S derived))
      (hquarantine : j.quarantine = none)
      (hfetched : Fetched S s j) (hheld : DocumentHeld S s t j) (found : List VersionRow)
      (hderived : j.DerivedAt S s found derived)
      (hrendered : Rendered S s.blobs derived) :
      JobAt s t j key (.written (j.succeeded S key derived).outcome)
  | quarantined (documentId : Option String) (e : IngestError)
      (hruns : s.runs.pending t = some (j.quarantined S key documentId e))
      (hversions : s.versions.pending t = none)
      (hquarantine : j.quarantine = some (j.quarantineRow S key e)) (hfetched : Fetched S s j)
      (hheld : DocumentHeld S s t j ∨ (s.documents.pending t = none
        ∧ Diverges s j.request.accession (j.contentHash S)
          ∧ e.reasonCode = .divergentAccessionContent)) :
      JobAt s t j key (.written (j.quarantined S key documentId e).outcome)

/-! ## The invariant -/

/-- Two calls that did the work of one job are one call. -/
def OneWork (finished : List Finished) : Prop :=
  finished.Pairwise fun f g => ∀ o o', f.result = .ok o → g.result = .ok o' → o.status ≠ .noop →
    o'.status ≠ .noop →
    f.job.key S ≠ g.job.key S

/-- Two successful rows have two versions. -/
def OneVersion (runs : List RunRow) : Prop :=
  runs.Pairwise fun a b => a.status = .succeeded → b.status = .succeeded →
    a.documentVersionId ≠ b.documentVersionId

structure Ok (s : State) : Prop where
  runsSound : s.runs.Sound RunRow.keys
  documentsSound : s.documents.Sound DocumentRow.keys
  versionsSound : s.versions.Sound VersionRow.keys
  idle : ∀ t, s.jobs t = none →
    s.runs.pending t = none ∧ s.documents.pending t = none ∧ s.versions.pending t = none
  job : ∀ t j, s.jobs t = some j → ∃ key, j.key S = .ok key ∧ JobAt S s t j key j.phase
  document : ∀ d ∈ s.documents.rows, DocumentOk S s.blobs d
  version : ∀ v ∈ s.versions.rows, VersionOk S s v
  run : ∀ r ∈ s.runs.rows, RunOk s r
  worked : ∀ r ∈ s.runs.rows, ∃ f ∈ s.finished, WorkOf S f r
  versionRun : ∀ v ∈ s.versions.rows, ∃ r ∈ s.runs.rows, r.status = .succeeded ∧
    r.documentVersionId = some v.id
  quarantineRun : ∀ q ∈ s.quarantine, ∃ r ∈ s.runs.rows, r.status = .quarantined ∧
    r.jobKey = q.jobKey
  quarantineKeys : (s.quarantine.map QuarantineRow.jobKey).Nodup
  finished : ∀ f ∈ s.finished, FinishedOk S s f
  oneWork : OneWork S s.finished
  oneVersion : OneVersion s.runs.rows

/-! ## Growth -/

/-- Nothing that was committed changes. -/
structure Grows (s s' : State) : Prop where
  documents : s.documents.rows <+: s'.documents.rows
  versions : s.versions.rows <+: s'.versions.rows
  runs : s.runs.rows <+: s'.runs.rows
  quarantine : s.quarantine <+: s'.quarantine
  finished : s.finished <+: s'.finished
  blobs : ∀ key data, Dict.get? s.blobs key = some data → Dict.get? s'.blobs key = some data

section Growth

variable {S} {s s' s'' : State}

theorem Grows.refl (s : State) : Grows s s :=
  ⟨List.prefix_rfl, List.prefix_rfl, List.prefix_rfl, List.prefix_rfl,
    List.prefix_rfl, fun _ _ h => h⟩

/-- Growth adds up. -/
theorem Grows.trans (h : Grows s s') (h' : Grows s' s'') : Grows s s'' :=
  ⟨h.documents.trans h'.documents, h.versions.trans h'.versions, h.runs.trans h'.runs,
    h.quarantine.trans h'.quarantine,
    h.finished.trans h'.finished, fun key data hdata => h'.blobs key data (h.blobs key data hdata)⟩

/-- A document stays recorded with its bytes. -/
theorem DocumentOk.grow {d : DocumentRow} (h : DocumentOk S s.blobs d) (hg : Grows s s') :
    DocumentOk S s'.blobs d := by
  obtain ⟨raw, haddress, hblob⟩ := h.stored
  exact ⟨h.id, raw, haddress, hg.blobs _ _ hblob⟩

/-- What was derived from a state was derived from an earlier one. -/
theorem Job.DerivedAt.grow {j : Job} {found : List VersionRow} {derived : Derived}
    (h : j.DerivedAt S s found derived)
    (hg : Grows s s') : j.DerivedAt S s' found derived := by
  obtain ⟨documents, hdocuments, hderive⟩ := h.derive
  exact ⟨h.versions.trans hg.versions, documents, hdocuments.trans hg.documents, hderive⟩

/-- A version keeps its origin. -/
theorem VersionOk.grow {v : VersionRow} (h : VersionOk S s v) (hg : Grows s s') :
    VersionOk S s' v := by
  obtain ⟨f, hf, hv, ⟨haddress, hblob⟩, ⟨found, hderived, hother⟩, d, hd, hnames⟩ := h.call
  exact ⟨⟨f, hg.finished.subset hf, hv, ⟨haddress, hg.blobs _ _ hblob⟩,
    ⟨found, hderived.grow hg, hother⟩, d,
    hg.documents.subset hd, hnames⟩, hg.blobs _ _ h.rendered⟩

/-- A run keeps its result. -/
theorem RunOk.grow {r : RunRow} (h : RunOk s r) (hg : Grows s s') : RunOk s' r := by
  cases h with
  | succeeded v hv hstatus hid hdocument hparser hnormalizer hresult =>
    exact .succeeded v (hg.versions.subset hv) hstatus hid hdocument hparser hnormalizer hresult
  | quarantined q hq hstatus hkey hhash hid hresult =>
    exact .quarantined q (hg.quarantine.subset hq) hstatus hkey hhash hid hresult

theorem Recorded.grow {accession contentHash : String} (h : Recorded s accession contentHash)
    (hg : Grows s s') :
    Recorded s' accession contentHash := by
  obtain ⟨d, hd, h⟩ := h
  exact ⟨d, hg.documents.subset hd, h⟩

theorem Diverges.grow {accession contentHash : String} (h : Diverges s accession contentHash)
    (hg : Grows s s') :
    Diverges s' accession contentHash := by
  obtain ⟨d, hd, h⟩ := h
  exact ⟨d, hg.documents.subset hd, h⟩

theorem Violates.grow {j : Job} {derived : Derived} (h : Violates S s j derived) (hg : Grows s s') :
    Violates S s' j derived := by
  obtain ⟨found, hderived⟩ := h.derives
  refine ⟨h.phase, h.key, ⟨found, hderived.grow hg⟩, h.cause.imp id ?_⟩
  rintro ⟨v, hv, hshared, g, hgf, r, hr, hwork, hstatus, hnamed, hother, hrecorded⟩
  exact ⟨v, hg.versions.subset hv, hshared, g, hg.finished.subset hgf, r, hg.runs.subset hr, hwork,
    hstatus, hnamed,
    hother, fun heq => (hrecorded heq).grow hg⟩

/-- A finished call keeps what it returned for. -/
theorem FinishedOk.grow {f : Finished} (h : FinishedOk S s f) (hg : Grows s s') :
    FinishedOk S s' f where
  work o ho hstatus := by
    obtain ⟨r, hr, hwork⟩ := h.work o ho hstatus
    exact ⟨r, hg.runs.subset hr, hwork⟩
  noop o ho hstatus := by
    obtain ⟨r, hr, hnoop⟩ := h.noop o ho hstatus
    exact ⟨r, hg.runs.subset hr, hnoop⟩
  succeeded o ho hstatus := (h.succeeded o ho hstatus).grow hg
  quarantined o ho hstatus :=
    (h.quarantined o ho hstatus).imp (fun hr => hr.grow hg) fun hd => ⟨hd.1.grow hg, hd.2⟩
  terminal := h.terminal
  unique hresult := by
    rcases h.unique hresult with ⟨d, hd, hid⟩ | ⟨derived, hviolates⟩
    · exact .inl ⟨d, hg.documents.subset hd, hid⟩
    · exact .inr ⟨derived, hviolates.grow hg⟩

/-- A step of another job changes nothing for a job. -/
theorem JobAt.grow {t : ℕ} {j : Job} {key : String} {phase : Phase} (h : JobAt S s t j key phase)
    (hg : Grows s s')
    (hruns' : s'.runs.pending t = s.runs.pending t)
    (hdocuments' : s'.documents.pending t = s.documents.pending t)
    (hversions' : s'.versions.pending t = s.versions.pending t) : JobAt S s' t j key phase := by
  have hheld' : DocumentHeld S s t j → DocumentHeld S s' t j := by
    rintro (hinserted | ⟨hnone, hrecorded⟩)
    · exact .inserted (hdocuments'.trans hinserted)
    · exact .found (hdocuments'.trans hnone) (hrecorded.grow hg)
  have hfetched' : Fetched S s j → Fetched S s' j := hg.blobs _ _
  cases h with
  | begun hruns hdocuments hversions hquarantine =>
    exact .begun (hruns'.trans hruns) (hdocuments'.trans hdocuments) (hversions'.trans hversions)
      hquarantine
  | claimed hruns hdocuments hversions hquarantine =>
    exact .claimed (hruns'.trans hruns) (hdocuments'.trans hdocuments) (hversions'.trans hversions)
      hquarantine
  | fetched hruns hdocuments hversions hquarantine hfetched =>
    exact .fetched (hruns'.trans hruns) (hdocuments'.trans hdocuments) (hversions'.trans hversions)
      hquarantine
      (hfetched' hfetched)
  | stored hruns hversions hquarantine hfetched hheld =>
    exact .stored (hruns'.trans hruns) (hversions'.trans hversions) hquarantine (hfetched' hfetched)
      (hheld' hheld)
  | derived derived hruns hversions hquarantine hfetched hheld found hderived =>
    exact .derived derived (hruns'.trans hruns) (hversions'.trans hversions) hquarantine
      (hfetched' hfetched)
      (hheld' hheld) found (hderived.grow hg)
  | rendered derived hruns hversions hquarantine hfetched hheld found hderived hrendered =>
    exact .rendered derived (hruns'.trans hruns) (hversions'.trans hversions) hquarantine
      (hfetched' hfetched)
      (hheld' hheld) found (hderived.grow hg) (hg.blobs _ _ hrendered)
  | succeeded derived hruns hversions hquarantine hfetched hheld found hderived hrendered =>
    exact .succeeded derived (hruns'.trans hruns) (hversions'.trans hversions) hquarantine
      (hfetched' hfetched)
      (hheld' hheld) found (hderived.grow hg) (hg.blobs _ _ hrendered)
  | quarantined documentId e hruns hversions hquarantine hfetched hheld =>
    refine .quarantined documentId e (hruns'.trans hruns) (hversions'.trans hversions) hquarantine
      (hfetched' hfetched)
      (hheld.imp hheld' ?_)
    rintro ⟨hnone, hdiverges, hcode⟩
    exact ⟨hdocuments'.trans hnone, hdiverges.grow hg, hcode⟩

end Growth

/-! ## Steps of one job -/

/-- A step of a job that commits nothing. -/
structure LocalStep (s s' : State) (t : ℕ) (j : Job) : Prop where
  runs : s'.runs.Sound RunRow.keys ∧ s'.runs.rows = s.runs.rows
  documents : s'.documents.Sound DocumentRow.keys ∧ s'.documents.rows = s.documents.rows
  versions : s'.versions.Sound VersionRow.keys ∧ s'.versions.rows = s.versions.rows
  quarantine : s'.quarantine = s.quarantine
  finished : s'.finished = s.finished
  blobs : ∀ key data, Dict.get? s.blobs key = some data → Dict.get? s'.blobs key = some data
  jobs : s'.jobs = Function.update s.jobs t (some j)
  others : ∀ t', t' ≠ t → s'.runs.pending t' = s.runs.pending t' ∧
    s'.documents.pending t' = s.documents.pending t'
    ∧ s'.versions.pending t' = s.versions.pending t'

/-- A call that ends without a commit. -/
structure EndsStep (s s' : State) (t : ℕ) (f : Finished) : Prop where
  runs : s'.runs.Sound RunRow.keys ∧ s'.runs.rows = s.runs.rows ∧
    s'.runs.pending = Function.update s.runs.pending t none
  documents : s'.documents.Sound DocumentRow.keys ∧ s'.documents.rows = s.documents.rows
    ∧ s'.documents.pending = Function.update s.documents.pending t none
  versions : s'.versions.Sound VersionRow.keys ∧ s'.versions.rows = s.versions.rows
    ∧ s'.versions.pending = Function.update s.versions.pending t none
  quarantine : s'.quarantine = s.quarantine
  finished : s'.finished = s.finished ++ [f]
  blobs : s'.blobs = s.blobs
  jobs : s'.jobs = Function.update s.jobs t none

section OneJob

variable {S} {s s' : State} {t : ℕ} {j : Job} {key : String}

theorem LocalStep.grows (h : LocalStep s s' t j) : Grows s s' :=
  ⟨h.documents.2 ▸ List.prefix_rfl, h.versions.2 ▸ List.prefix_rfl, h.runs.2 ▸ List.prefix_rfl,
    h.quarantine ▸ List.prefix_rfl, h.finished ▸ List.prefix_rfl, h.blobs⟩

/-- **A step of a job that commits nothing** keeps the invariant. -/
theorem Ok.localStep (hs : Ok S s) (h : LocalStep s s' t j) (hkey : j.key S = .ok key)
    (hat : JobAt S s' t j key j.phase) : Ok S s' := by
  have hg := h.grows
  refine ⟨h.runs.1, h.documents.1, h.versions.1, fun t' hidle => ?_, fun t' j' hj' => ?_,
    fun d hd => ?_, fun v hv => ?_,
    fun r hr => ?_, fun r hr => ?_, fun v hv => ?_, fun q hq => ?_,
    h.quarantine ▸ hs.quarantineKeys, fun f hf => ?_,
    h.finished ▸ hs.oneWork, h.runs.2 ▸ hs.oneVersion⟩
  · have ht : t' ≠ t := by
      rintro rfl
      rw [h.jobs, Function.update_self] at hidle
      cases hidle
    rw [h.jobs, Function.update_of_ne ht] at hidle
    obtain ⟨hruns, hdocuments, hversions⟩ := h.others t' ht
    rw [hruns, hdocuments, hversions]
    exact hs.idle t' hidle
  · by_cases ht : t' = t
    · subst ht
      rw [h.jobs, Function.update_self, Option.some.injEq] at hj'
      subst hj'
      exact ⟨key, hkey, hat⟩
    · rw [h.jobs, Function.update_of_ne ht] at hj'
      obtain ⟨key', hkey', hat'⟩ := hs.job t' j' hj'
      obtain ⟨hruns, hdocuments, hversions⟩ := h.others t' ht
      exact ⟨key', hkey', hat'.grow hg hruns hdocuments hversions⟩
  · exact (hs.document d (h.documents.2 ▸ hd)).grow hg
  · exact (hs.version v (h.versions.2 ▸ hv)).grow hg
  · exact (hs.run r (h.runs.2 ▸ hr)).grow hg
  · rw [h.finished]
    exact hs.worked r (h.runs.2 ▸ hr)
  · rw [h.runs.2]
    exact hs.versionRun v (h.versions.2 ▸ hv)
  · rw [h.runs.2]
    exact hs.quarantineRun q (h.quarantine ▸ hq)
  · exact (hs.finished f (h.finished ▸ hf)).grow hg

theorem EndsStep.grows {f : Finished} (h : EndsStep s s' t f) : Grows s s' :=
  ⟨h.documents.2.1 ▸ List.prefix_rfl, h.versions.2.1 ▸ List.prefix_rfl,
    h.runs.2.1 ▸ List.prefix_rfl,
    h.quarantine ▸ List.prefix_rfl, h.finished ▸ List.prefix_append _ _,
    h.blobs ▸ fun _ _ hdata => hdata⟩

/-- **A call that ends without a commit** keeps the invariant. -/
theorem Ok.endsStep (hs : Ok S s) {f : Finished} (h : EndsStep s s' t f) (hf : FinishedOk S s' f)
    (hnoop : ∀ o, f.result = .ok o → o.status = .noop) : Ok S s' := by
  have hg := h.grows
  have hothers : ∀ t', t' ≠ t → s'.runs.pending t' = s.runs.pending t' ∧
      s'.documents.pending t' = s.documents.pending t'
      ∧ s'.versions.pending t' = s.versions.pending t' := by
    intro t' ht
    rw [h.runs.2.2, h.documents.2.2, h.versions.2.2]
    exact ⟨Function.update_of_ne ht _ _, Function.update_of_ne ht _ _, Function.update_of_ne ht _ _⟩
  refine ⟨h.runs.1, h.documents.1, h.versions.1, fun t' hidle => ?_, fun t' j' hj' => ?_,
    fun d hd => ?_, fun v hv => ?_,
    fun r hr => ?_, fun r hr => ?_, fun v hv => ?_, fun q hq => ?_,
    h.quarantine ▸ hs.quarantineKeys, fun g hg' => ?_,
    ?_, h.runs.2.1 ▸ hs.oneVersion⟩
  · -- the rows of the others are pending still
    by_cases ht : t' = t
    · subst ht
      rw [h.runs.2.2, h.documents.2.2, h.versions.2.2]
      exact ⟨Function.update_self _ _ _, Function.update_self _ _ _, Function.update_self _ _ _⟩
    · rw [h.jobs, Function.update_of_ne ht] at hidle
      obtain ⟨hruns, hdocuments, hversions⟩ := hothers t' ht
      rw [hruns, hdocuments, hversions]
      exact hs.idle t' hidle
  · have ht : t' ≠ t := by
      rintro rfl
      rw [h.jobs, Function.update_self] at hj'
      cases hj'
    rw [h.jobs, Function.update_of_ne ht] at hj'
    obtain ⟨key', hkey', hat'⟩ := hs.job t' j' hj'
    obtain ⟨hruns, hdocuments, hversions⟩ := hothers t' ht
    exact ⟨key', hkey', hat'.grow hg hruns hdocuments hversions⟩
  · exact (hs.document d (h.documents.2.1 ▸ hd)).grow hg
  · exact (hs.version v (h.versions.2.1 ▸ hv)).grow hg
  · exact (hs.run r (h.runs.2.1 ▸ hr)).grow hg
  · obtain ⟨g, hg', hwork⟩ := hs.worked r (h.runs.2.1 ▸ hr)
    exact ⟨g, hg.finished.subset hg', hwork⟩
  · rw [h.runs.2.1]
    exact hs.versionRun v (h.versions.2.1 ▸ hv)
  · rw [h.runs.2.1]
    exact hs.quarantineRun q (h.quarantine ▸ hq)
  · rw [h.finished, List.mem_append, List.mem_singleton] at hg'
    rcases hg' with hg' | rfl
    · exact (hs.finished g hg').grow hg
    · exact hf
  · -- a call that did no work does not count against the one that did
    rw [OneWork, h.finished]
    refine List.pairwise_append.mpr ⟨hs.oneWork, List.pairwise_singleton _ _,
      fun a _ b hb o o' _ ho' _ hstatus' => ?_⟩
    rw [List.mem_singleton] at hb
    subst hb
    exact absurd (hnoop o' ho') hstatus'

/-- A call that rolls back. -/
theorem endsStep_raise (hs : Ok S s) (t : ℕ) (j : Job) (e : Raised) :
    EndsStep s (s.raise t j e) t ⟨j, .error e⟩ :=
  ⟨⟨hs.runsSound.rollback, rfl, rfl⟩, ⟨hs.documentsSound.rollback, rfl, rfl⟩,
    ⟨hs.versionsSound.rollback, rfl, rfl⟩,
    rfl, rfl, rfl, rfl⟩

/-- A call that has written nothing and returns. -/
theorem endsStep_return (hs : Ok S s) {t : ℕ} {j : Job} (hruns : s.runs.pending t = none)
    (hdocuments : s.documents.pending t = none) (hversions : s.versions.pending t = none)
    (hquarantine : j.quarantine = none) (o : IngestionOutcome) :
    EndsStep s (s.return t j o) t ⟨j, .ok o⟩ := by
  have happend : ∀ {α : Type} (rows : List α), rows ++ (none : Option α).toList = rows :=
    fun rows => List.append_nil rows
  refine ⟨⟨hs.runsSound.commit, ?_, rfl⟩, ⟨hs.documentsSound.commit, ?_, rfl⟩,
    ⟨hs.versionsSound.commit, ?_, rfl⟩, ?_,
    rfl, rfl, rfl⟩
  · show s.runs.rows ++ (s.runs.pending t).toList = _
    rw [hruns, happend]
  · show s.documents.rows ++ (s.documents.pending t).toList = _
    rw [hdocuments, happend]
  · show s.versions.rows ++ (s.versions.pending t).toList = _
    rw [hversions, happend]
  · show s.quarantine ++ j.quarantine.toList = _
    rw [hquarantine, happend]

/-- An error that is no violation of the ledger. -/
theorem finishedOk_error {f : Finished} {e : Raised} (hresult : f.result = .error e)
    (hruntime : ∀ message, e ≠ .runtimeError message) (hunique : e ≠ .uniqueViolation) :
    FinishedOk S s f := by
  have hok : ∀ o, f.result ≠ .ok o := by
    intro o ho
    rw [hresult] at ho
    cases ho
  refine ⟨fun o ho => absurd ho (hok o), fun o ho => absurd ho (hok o),
    fun o ho => absurd ho (hok o),
    fun o ho => absurd ho (hok o), fun message hmessage => ?_, fun hviolation => ?_⟩
  · rw [hresult] at hmessage
    exact hruntime message (Except.error.inj hmessage)
  · rw [hresult] at hviolation
    exact absurd (Except.error.inj hviolation) hunique

/-- A call that raises. -/
theorem Ok.raise (hs : Ok S s) (t : ℕ) (j : Job) {e : Raised}
    (hruntime : ∀ message, e ≠ .runtimeError message)
    (hunique : e ≠ .uniqueViolation) : Ok S (s.raise t j e) :=
  hs.endsStep (endsStep_raise hs t j e) (finishedOk_error rfl hruntime hunique) fun o ho => by
    cases ho

/-- **A commit** keeps the invariant when the rows of the job are in order. -/
theorem Ok.commit (hs : Ok S s) {r : RunRow} (hr : s.runs.pending t = some r)
    (hkey : j.key S = .ok r.jobKey)
    (hwork : WorkOf S ⟨j, .ok r.outcome⟩ r) (hrun : RunOk (s.return t j r.outcome) r)
    (hdocument : ∀ d, s.documents.pending t = some d → DocumentOk S s.blobs d)
    (hversion : ∀ v, s.versions.pending t = some v →
      VersionOk S (s.return t j r.outcome) v ∧ r.status = .succeeded ∧
      r.documentVersionId = some v.id)
    (hsucceeded : r.status = .succeeded → ∃ v, s.versions.pending t = some v ∧
      r.documentVersionId = some v.id)
    (hquarantine : ∀ q, j.quarantine = some q → r.status = .quarantined ∧ r.jobKey = q.jobKey)
    (hfinished : FinishedOk S (s.return t j r.outcome) ⟨j, .ok r.outcome⟩) :
    Ok S (s.return t j r.outcome) := by
  have hg : Grows s (s.return t j r.outcome) :=
    ⟨List.prefix_append _ _, List.prefix_append _ _, List.prefix_append _ _, List.prefix_append _ _,
      List.prefix_append _ _, fun _ _ hdata => hdata⟩
  have hothers : ∀ t', t' ≠ t → (s.return t j r.outcome).runs.pending t' = s.runs.pending t'
      ∧ (s.return t j r.outcome).documents.pending t' = s.documents.pending t'
      ∧ (s.return t j r.outcome).versions.pending t' = s.versions.pending t' := fun t' ht =>
    ⟨Function.update_of_ne ht _ _, Function.update_of_ne ht _ _, Function.update_of_ne ht _ _⟩
  have hrnew : r ∈ (s.return t j r.outcome).runs.rows := mem_commit.mpr (.inr hr)
  -- no row of the ledger has the key yet
  have hfresh : ∀ r' ∈ s.runs.rows, r'.jobKey ≠ r.jobKey := by
    intro r' hr' heq
    have hnone :=
      find?_eq_none_iff.mp (hs.runsSound.fresh t r hr r.jobKey List.mem_cons_self) r' hr'
    rw [← heq] at hnone
    exact hnone List.mem_cons_self
  refine ⟨hs.runsSound.commit, hs.documentsSound.commit, hs.versionsSound.commit,
    fun t' hidle => ?_, fun t' j' hj' => ?_,
    fun d hd => ?_, fun v hv => ?_, fun r' hr' => ?_, fun r' hr' => ?_, fun v hv => ?_,
    fun q hq => ?_, ?_,
    fun f hf => ?_, ?_, ?_⟩
  · by_cases ht : t' = t
    · subst ht
      exact ⟨Function.update_self _ _ _, Function.update_self _ _ _, Function.update_self _ _ _⟩
    · have hidle' : s.jobs t' = none := (Function.update_of_ne ht _ _).symm.trans hidle
      obtain ⟨hruns, hdocuments, hversions⟩ := hothers t' ht
      rw [hruns, hdocuments, hversions]
      exact hs.idle t' hidle'
  · have ht : t' ≠ t := by
      rintro rfl
      rw [State.return] at hj'
      simp only [Function.update_self, reduceCtorEq] at hj'
    have hj'' : s.jobs t' = some j' := (Function.update_of_ne ht _ _).symm.trans hj'
    obtain ⟨key', hkey', hat'⟩ := hs.job t' j' hj''
    obtain ⟨hruns, hdocuments, hversions⟩ := hothers t' ht
    exact ⟨key', hkey', hat'.grow hg hruns hdocuments hversions⟩
  · rcases mem_commit.mp hd with hd | hd
    · exact hs.document d hd
    · exact hdocument d hd
  · rcases mem_commit.mp hv with hv | hv
    · exact (hs.version v hv).grow hg
    · exact (hversion v hv).1
  · rcases mem_commit.mp hr' with hr' | hr'
    · exact (hs.run r' hr').grow hg
    · rw [hr, Option.some.injEq] at hr'
      exact hr' ▸ hrun
  · rcases mem_commit.mp hr' with hr' | hr'
    · obtain ⟨f, hf, hwork⟩ := hs.worked r' hr'
      exact ⟨f, hg.finished.subset hf, hwork⟩
    · rw [hr, Option.some.injEq] at hr'
      subst hr'
      exact ⟨_, List.mem_append_right _ List.mem_cons_self, hwork⟩
  · rcases mem_commit.mp hv with hv | hv
    · obtain ⟨r', hr', h⟩ := hs.versionRun v hv
      exact ⟨r', hg.runs.subset hr', h⟩
    · exact ⟨r, hrnew, (hversion v hv).2⟩
  · rcases List.mem_append.mp hq with hq | hq
    · obtain ⟨r', hr', h⟩ := hs.quarantineRun q hq
      exact ⟨r', hg.runs.subset hr', h⟩
    · exact ⟨r, hrnew, hquarantine q (Option.mem_toList.mp hq)⟩
  · show ((s.quarantine ++ j.quarantine.toList).map QuarantineRow.jobKey).Nodup
    rw [List.map_append, List.nodup_append]
    refine ⟨hs.quarantineKeys, ?_, fun k hk k' hk' => ?_⟩
    · cases j.quarantine with
      | none => exact List.nodup_nil
      | some q => exact List.nodup_singleton _
    · obtain ⟨q, hq, rfl⟩ := List.mem_map.mp hk
      obtain ⟨q', hq', rfl⟩ := List.mem_map.mp hk'
      obtain ⟨r', hr', -, hkeyq⟩ := hs.quarantineRun q hq
      rw [← hkeyq, ← (hquarantine q' (Option.mem_toList.mp hq')).2]
      exact hfresh r' hr'
  · rcases List.mem_append.mp hf with hf | hf
    · exact (hs.finished f hf).grow hg
    · exact List.mem_singleton.mp hf ▸ hfinished
  · refine List.pairwise_append.mpr ⟨hs.oneWork, List.pairwise_singleton _ _,
    fun f hf g hg' o o' ho ho' hstatus _ => ?_⟩
    rw [List.mem_singleton] at hg'
    subst hg'
    obtain ⟨r', hr', hwork'⟩ := (hs.finished f hf).work o ho hstatus
    rw [hwork'.key]
    intro heq
    exact hfresh r' hr' (Except.ok.inj (heq.trans hkey))
  · show ((s.runs.rows ++ (s.runs.pending t).toList)).Pairwise _
    rw [hr]
    refine List.pairwise_append.mpr ⟨hs.oneVersion, List.pairwise_singleton _ _,
      fun a ha b hb hstatus hstatus' heq => ?_⟩
    rw [Option.toList_some, List.mem_singleton] at hb
    subst hb
    obtain ⟨v, hv, hid⟩ := hsucceeded hstatus'
    cases hs.run a ha with
    | succeeded v' hv' _ hid' _ _ _ _ =>
      have hnone :=
        find?_eq_none_iff.mp (hs.versionsSound.fresh t v hv (.id v.id) List.mem_cons_self) v' hv'
      have hids : v'.id = v.id := Option.some.inj (hid'.symm.trans (heq.trans hid))
      rw [← hids] at hnone
      exact hnone List.mem_cons_self
    | quarantined q _ hstatus'' _ _ _ _ =>
      rw [hstatus] at hstatus''
      cases hstatus''

/-! ## What a statement does -/

/-- The job of another phase. -/
def Job.at (j : Job) (phase : Phase) : Job := { j with phase := phase }

/-- A step that touches one table at most. -/
theorem localStep_setJob (hs : Ok S s) (t : ℕ) (j : Job) : LocalStep s (s.setJob t j) t j :=
  ⟨⟨hs.runsSound, rfl⟩, ⟨hs.documentsSound, rfl⟩, ⟨hs.versionsSound, rfl⟩, rfl, rfl,
    fun _ _ hdata => hdata, rfl,
    fun _ _ => ⟨rfl, rfl, rfl⟩⟩

/-- Data are stored under their name, and nothing else changes. -/
theorem get?_put {blobs blobs' : Dict String (List UInt8)} {name : String} {data : List UInt8}
    (h : put blobs name data = .ok blobs') : Dict.get? blobs' name = some data
      ∧ ∀ k d, Dict.get? blobs k = some d → Dict.get? blobs' k = some d := by
  rw [put] at h
  split at h
  · rename_i old hold
    split_ifs at h with heq
    · obtain rfl := Except.ok.inj h
      exact ⟨heq ▸ hold, fun k d hd => hd⟩
  · rename_i hnone
    obtain rfl := Except.ok.inj h
    refine ⟨Dict.get?_set_self _ _ _, fun k d hd => ?_⟩
    have hne : name ≠ k := by
      rintro rfl
      rw [hnone] at hd
      cases hd
    rw [Dict.get?_set_of_ne hne]
    exact hd

/-- Storing data is a step of one call. -/
theorem localStep_put (hs : Ok S s) {blobs : Dict String (List UInt8)} {name : String}
    {data : List UInt8}
    (h : put s.blobs name data = .ok blobs) (t : ℕ) (j : Job) :
    LocalStep s ({ s with blobs := blobs }.setJob t j) t j :=
  ⟨⟨hs.runsSound, rfl⟩, ⟨hs.documentsSound, rfl⟩, ⟨hs.versionsSound, rfl⟩, rfl, rfl,
    (get?_put h).2, rfl,
    fun _ _ => ⟨rfl, rfl, rfl⟩⟩

/-- **The claim**: the row of the ledger, or the record of the job. -/
theorem Ok.claim (hs : Ok S s) (hkey : j.key S = .ok key) (hphase : j.phase = .begun)
    (hat : JobAt S s t j key .begun)
    (h : s.exec S t j key = some s') : Ok S s' := by
  obtain ⟨hruns, hdocuments, hversions, hquarantine⟩ := hat
  simp only [State.exec, hphase] at h
  obtain hins | ⟨hins, k, hk, hfound⟩ | ⟨runs, hins, hrows, hpending, -, -, -⟩ :=
    insert_cases RunRow.keys s.runs t (j.claim S key)
  · -- the insertion waits for the transaction that holds the key
    simp only [hins] at h
    cases h
  · -- a committed row has the key: the call returns it
    simp only [hins] at h
    rw [show k = key from List.mem_singleton.mp hk] at hfound
    obtain ⟨row, hrow⟩ := Option.isSome_iff_exists.mp hfound
    obtain ⟨hmem, hrowkey⟩ := mem_of_find? hrow
    have hjobKey : row.jobKey = key := (List.mem_singleton.mp hrowkey).symm
    -- a running row is never committed
    have hfinal : row.status ≠ .running := by
      cases hs.run row hmem with
      | succeeded _ _ hstatus =>
        rw [hstatus]
        decide
      | quarantined _ _ hstatus =>
        rw [hstatus]
        decide
    simp only [hrow, if_neg hfinal, Option.some.injEq] at h
    subst h
    have hstep := endsStep_return hs hruns hdocuments hversions hquarantine (noopOutcome key row)
    refine hs.endsStep hstep ⟨fun o ho hstatus => ?_, fun o ho hstatus => ?_,
      fun o ho hstatus => ?_,
      fun o ho hstatus => ?_, fun message hmessage => ?_, fun hviolation => ?_⟩ fun o ho => ?_
    · obtain rfl := Except.ok.inj ho
      exact absurd rfl hstatus
    · obtain rfl := Except.ok.inj ho
      refine ⟨row, hstep.grows.runs.subset hmem, ?_, ?_⟩
      · rw [hjobKey]
        exact hkey
      · rw [hjobKey]
    · obtain rfl := Except.ok.inj ho
      cases hstatus
    · obtain rfl := Except.ok.inj ho
      cases hstatus
    · cases hmessage
    · cases hviolation
    · obtain rfl := Except.ok.inj ho
      rfl
  · -- the row is inserted, and the job holds it
    simp only [hins, Option.some.injEq] at h
    subst h
    have hstep : LocalStep s ({ s with runs := runs }.setJob t (j.at .claimed)) t (j.at .claimed) :=
      ⟨⟨hs.runsSound.insert hins, hrows⟩, ⟨hs.documentsSound, rfl⟩, ⟨hs.versionsSound, rfl⟩,
        rfl, rfl,
        fun _ _ hdata => hdata, rfl, fun t' ht => ⟨by
          show runs.pending t' = _
          rw [hpending]
          exact Function.update_of_ne ht _ _, rfl, rfl⟩⟩
    refine hs.localStep hstep hkey (.claimed ?_ hdocuments hversions hquarantine)
    show runs.pending t = _
    rw [hpending]
    exact Function.update_self _ _ _

/-- The document of a job stays while the job goes on. -/
theorem DocumentHeld.keep {j' : Job} (h : DocumentHeld S s t j)
    (hdocuments : s'.documents = s.documents)
    (hrequest : j'.request = j.request) (hrelease : j'.release = j.release) :
    DocumentHeld S s' t j' := by
  have hdocument : j'.document S = j.document S := by
    simp only [Job.document, Job.documentId, Job.contentHash, Job.storageKey, hrequest, hrelease]
  cases h with
  | inserted h =>
    refine .inserted ?_
    rw [hdocuments, hdocument]
    exact h
  | found hnone h =>
    refine .found (hdocuments ▸ hnone) ?_
    rw [Recorded, hdocuments, Job.contentHash, hrequest]
    exact h

/-- What a job derives stays while the job goes on. -/
theorem Job.DerivedAt.at {found : List VersionRow} {derived : Derived}
    (h : j.DerivedAt S s found derived) (phase : Phase) :
    (j.at phase).DerivedAt S s found derived :=
  ⟨h.versions, h.derive⟩

/-- The raw bytes are put into the object store. -/
theorem Ok.fetch (hs : Ok S s) (hkey : j.key S = .ok key) (hphase : j.phase = .claimed)
    (hat : JobAt S s t j key .claimed) (h : s.exec S t j key = some s') : Ok S s' := by
  obtain ⟨⟩ | ⟨hruns, hdocuments, hversions, hquarantine⟩ := hat
  simp only [State.exec, hphase] at h
  split at h
  · obtain rfl := Option.some.inj h
    exact hs.raise t j (fun _ => Raised.noConfusion) Raised.noConfusion
  · rename_i blobs hput
    obtain rfl := Option.some.inj h
    have hstep := localStep_put hs hput t (j.at .fetched)
    exact hs.localStep hstep hkey
      (.fetched hruns hdocuments hversions hquarantine (get?_put hput).1)

/-- `_record_quarantine`. -/
theorem Ok.recordQuarantine (hs : Ok S s) (hkey : j.key S = .ok key) {documentId : Option String}
    {e : IngestError}
    (hruns : s.runs.pending t = some (j.claim S key)) (hversions : s.versions.pending t = none)
    (hfetched : Fetched S s j)
    (hheld : DocumentHeld S s t j ∨ (s.documents.pending t = none
      ∧ Diverges s j.request.accession (j.contentHash S)
      ∧ e.reasonCode = .divergentAccessionContent)) :
    Ok S (s.recordQuarantine S t j key documentId e) := by
  have hstep : LocalStep s (s.recordQuarantine S t j key documentId e) t
      { j with phase := .written (j.quarantined S key documentId e).outcome, quarantine :=
            some (j.quarantineRow S key e) } := by
    refine ⟨⟨hs.runsSound.amend ?_, rfl⟩, ⟨hs.documentsSound, rfl⟩, ⟨hs.versionsSound, rfl⟩,
      rfl, rfl,
      fun _ _ hdata => hdata, rfl, fun t' ht => ⟨Function.update_of_ne ht _ _, rfl, rfl⟩⟩
    intro r _
    rfl
  refine hs.localStep hstep hkey (.quarantined documentId e ?_ hversions rfl hfetched ?_)
  · show Function.update s.runs.pending t ((s.runs.pending t).map _) t = _
    rw [Function.update_self, hruns]
    rfl
  · exact hheld.imp (fun hheld => hheld.keep rfl rfl rfl) id

/-- `store_raw_document`. -/
theorem Ok.store (hs : Ok S s) (hkey : j.key S = .ok key) (hphase : j.phase = .fetched)
    (hat : JobAt S s t j key .fetched) (h : s.exec S t j key = some s') : Ok S s' := by
  obtain ⟨⟩ | ⟨⟩ | ⟨hruns, hdocuments, hversions, hquarantine, hfetched⟩ := hat
  simp only [State.exec, hphase] at h
  obtain hins | ⟨hins, k, hk, hfound⟩ | ⟨documents, hins, hrows, hpending, -, -, -⟩ :=
    insert_cases DocumentRow.keys s.documents t (j.document S)
  · simp only [hins] at h
    cases h
  · simp only [hins] at h
    split at h
    · -- a document has the id, and none the accession
      rename_i hnone
      obtain rfl := Option.some.inj h
      have hk' : k = .id (j.documentId S) := by
        rcases List.mem_cons.mp hk with rfl | hk
        · have hsome : (s.documents.find? DocumentRow.keys (.accession j.request.accession)).isSome
          = true := hfound
          rw [hnone] at hsome
          cases hsome
        · exact List.mem_singleton.mp hk
      subst hk'
      obtain ⟨d, hd⟩ := Option.isSome_iff_exists.mp hfound
      obtain ⟨hmem, hid⟩ := mem_of_find? hd
      have hdid : d.id = j.documentId S := by
        rcases List.mem_cons.mp hid with hid | hid
        · cases hid
        · exact (DocumentKey.id.inj (List.mem_singleton.mp hid)).symm
      have haccession : d.accession ≠ j.request.accession := by
        intro heq
        have hnot := find?_eq_none_iff.mp hnone d hmem
        rw [← heq] at hnot
        exact hnot List.mem_cons_self
      refine hs.endsStep (endsStep_raise hs t j _) ⟨fun o ho => ?_, fun o ho => ?_,
        fun o ho => ?_, fun o ho => ?_,
        fun message hmessage => ?_, fun _ => .inl ⟨d, hmem, hdid, haccession⟩⟩ fun o ho => ?_
      · cases ho
      · cases ho
      · cases ho
      · cases ho
      · cases hmessage
      · cases ho
    · rename_i existing hexisting
      obtain ⟨hmem, haccession⟩ := mem_of_find? hexisting
      have haccession' : existing.accession = j.request.accession := by
        rcases List.mem_cons.mp haccession with heq | heq
        · exact (DocumentKey.accession.inj heq).symm
        · cases List.mem_singleton.mp heq
      split at h
      · rename_i hhash
        obtain rfl := Option.some.inj h
        exact hs.localStep (localStep_setJob hs t (j.at .stored)) hkey
          (.stored hruns hversions hquarantine hfetched
          (.found hdocuments ⟨existing, hmem, haccession', hhash⟩))
      · rename_i hhash
        obtain rfl := Option.some.inj h
        exact hs.recordQuarantine hkey hruns hversions hfetched
          (.inr ⟨hdocuments, ⟨existing, hmem, haccession', hhash⟩, rfl⟩)
  · simp only [hins, Option.some.injEq] at h
    subst h
    have hstep :
        LocalStep s ({ s with documents := documents }.setJob t (j.at .stored)) t (j.at .stored) :=
      ⟨⟨hs.runsSound, rfl⟩, ⟨hs.documentsSound.insert hins, hrows⟩, ⟨hs.versionsSound, rfl⟩,
        rfl, rfl,
        fun _ _ hdata => hdata, rfl, fun t' ht => ⟨rfl, by
          show documents.pending t' = _
          rw [hpending]
          exact Function.update_of_ne ht _ _, rfl⟩⟩
    refine hs.localStep hstep hkey (.stored hruns hversions hquarantine hfetched (.inserted ?_))
    show documents.pending t = _
    rw [hpending]
    exact Function.update_self _ _ _

/-- The parser and the normalizer. -/
theorem Ok.derive (hs : Ok S s) (hkey : j.key S = .ok key) (hphase : j.phase = .stored)
    (hat : JobAt S s t j key .stored) (h : s.exec S t j key = some s') : Ok S s' := by
  obtain ⟨⟩ | ⟨⟩ | ⟨⟩ | ⟨hruns, hversions, hquarantine, hfetched, hheld⟩ := hat
  simp only [State.exec, hphase] at h
  split at h
  · obtain rfl := Option.some.inj h
    exact hs.recordQuarantine hkey hruns hversions hfetched (.inl hheld)
  · obtain rfl := Option.some.inj h
    exact hs.raise t j (fun _ => Raised.noConfusion) Raised.noConfusion
  · rename_i derived hderive
    obtain rfl := Option.some.inj h
    have hderived : j.DerivedAt S s s.versions.rows derived :=
      ⟨List.prefix_rfl, s.documents.rows, List.prefix_rfl, hderive⟩
    have hstep := localStep_setJob hs t (j.at (.derived derived))
    refine hs.localStep hstep hkey (.derived derived hruns hversions hquarantine hfetched ?_
      _ ((hderived.grow hstep.grows).at _))
    exact hheld.keep rfl rfl rfl

/-- The canonical text is put into the object store. -/
theorem Ok.render (hs : Ok S s) (hkey : j.key S = .ok key) {derived : Derived}
    (hphase : j.phase = .derived derived)
    (hat : JobAt S s t j key (.derived derived)) (h : s.exec S t j key = some s') : Ok S s' := by
  obtain ⟨⟩ | ⟨⟩ | ⟨⟩ | ⟨⟩ | ⟨_, hruns, hversions, hquarantine, hfetched, hheld, found, hderived⟩ :=
    hat
  simp only [State.exec, hphase] at h
  split at h
  · obtain rfl := Option.some.inj h
    exact hs.raise t j (fun _ => Raised.noConfusion) Raised.noConfusion
  · rename_i blobs hput
    obtain rfl := Option.some.inj h
    have hstep := localStep_put hs hput t (j.at (.rendered derived))
    refine hs.localStep hstep hkey
      (.rendered derived hruns hversions hquarantine (hstep.blobs _ _ hfetched) ?_
      found ((hderived.grow hstep.grows).at _) (get?_put hput).1)
    exact hheld.keep rfl rfl rfl

/-- A version that shares a key with the rows of a job is that of another job. -/
theorem Ok.violates (hs : Ok S s) (hkey : j.key S = .ok key) {derived : Derived}
    (hphase : j.phase = .rendered derived)
    (hruns : s.runs.pending t = some (j.claim S key)) (hheld : DocumentHeld S s t j)
    {found : List VersionRow}
    (hderived : j.DerivedAt S s found derived) {v : VersionRow} (hv : v ∈ s.versions.rows)
    {k : VersionKey}
    (hk : k ∈ (j.version S derived).keys) (hkv : k ∈ v.keys) : Violates S s j derived := by
  refine ⟨hphase, ⟨key, hkey⟩, ⟨found, hderived⟩, .inr ⟨v, hv, ⟨k, hk, hkv⟩, ?_⟩⟩
  -- the row that records the version, and the call that wrote the row
  obtain ⟨r, hr, hstatus, hid⟩ := hs.versionRun v hv
  obtain ⟨g, hg, hwork⟩ := hs.worked r hr
  obtain ⟨hnameId, hnameDocument⟩ := hwork.names hstatus
  have hnamed : NamedBy S g.job v := by
    cases hs.run r hr with
    | succeeded v' hv' _ hid' hdocument hparser hnormalizer _ =>
      have hvv : v' = v := hs.versionsSound.eq_of_mem hv' hv List.mem_cons_self
        (Option.some.inj (hid'.symm.trans hid) ▸ List.mem_cons_self)
      subst hvv
      exact ⟨Option.some.inj (hid.symm.trans hnameId),
        Option.some.inj (hdocument.symm.trans hnameDocument),
        hparser.symm.trans hwork.parserVersion, hnormalizer.symm.trans hwork.normalizerVersion⟩
    | quarantined _ _ hstatus' =>
      rw [hstatus] at hstatus'
      cases hstatus'
  refine ⟨g, hg, r, hr, hwork, hstatus, hnamed, fun heq => ?_, fun heq => ?_⟩
  · have hrkey : r.jobKey = key := Except.ok.inj (hwork.key.symm.trans (heq.trans hkey))
    have hnone := find?_eq_none_iff.mp (hs.runsSound.fresh t _ hruns key List.mem_cons_self) r hr
    rw [← hrkey] at hnone
    exact hnone List.mem_cons_self
  · -- a document of the accession is not only pending
    cases hheld with
    | found _ h => exact h
    | inserted h =>
      have hsucceeded : r.outcome.status = .succeeded := if_pos hstatus
      obtain ⟨d, hd, hdaccession, -⟩ :=
        (hs.finished g hg).succeeded r.outcome hwork.result hsucceeded
      have hnone :=
        find?_eq_none_iff.mp (hs.documentsSound.fresh t _ h (.accession j.request.accession)
        List.mem_cons_self) d hd
      rw [heq, ← hdaccession] at hnone
      exact absurd List.mem_cons_self hnone

/-- A call that a unique key stops. -/
theorem Ok.raiseUnique (hs : Ok S s) (t : ℕ) {derived : Derived} (h : Violates S s j derived) :
    Ok S (s.raise t j .uniqueViolation) := by
  have hstep := endsStep_raise hs t j .uniqueViolation
  refine hs.endsStep hstep ⟨fun o ho => ?_, fun o ho => ?_, fun o ho => ?_, fun o ho => ?_,
    fun message hmessage => ?_,
    fun _ => .inr ⟨derived, h.grow hstep.grows⟩⟩ fun o ho => ?_
  · cases ho
  · cases ho
  · cases ho
  · cases ho
  · cases hmessage
  · cases ho

/-- The version and the facts, and the result. -/
theorem Ok.persist (hs : Ok S s) (hkey : j.key S = .ok key) {derived : Derived}
    (hphase : j.phase = .rendered derived)
    (hat : JobAt S s t j key (.rendered derived)) (h : s.exec S t j key = some s') : Ok S s' := by
  obtain ⟨⟩ | ⟨⟩ | ⟨⟩ | ⟨⟩ | ⟨⟩ | ⟨_, hruns, hversions, hquarantine, hfetched, hheld, found,
    hderived, hrendered⟩ := hat
  simp only [State.exec, hphase] at h
  obtain hins | ⟨hins, k, hk, hfound⟩ | ⟨versions, hins, hrows, hpending, -, -, -⟩ :=
    insert_cases VersionRow.keys s.versions t (j.version S derived)
  · -- a key waits for another transaction
    simp only [hins] at h
    cases h
  · -- a committed version has one of its keys
    simp only [hins, Option.some.injEq] at h
    subst h
    obtain ⟨v, hv⟩ := Option.isSome_iff_exists.mp hfound
    obtain ⟨hmem, hvkey⟩ := mem_of_find? hv
    exact hs.raiseUnique t (hs.violates hkey hphase hruns hheld hderived hmem hk hvkey)
  · -- the keys are free; they may still repeat inside the version
    simp only [hins] at h
    by_cases hnodup : (j.version S derived).keys.Nodup
    case neg =>
      rw [if_pos hnodup, Option.some.injEq] at h
      subst h
      exact hs.raiseUnique t ⟨hphase, ⟨key, hkey⟩, ⟨found, hderived⟩, .inl hnodup⟩
    rw [if_neg (not_not.mpr hnodup), Option.some.injEq] at h
    subst h
    have hstep :
        LocalStep s
          ({ s with versions := versions, runs := s.runs.amend t (j.record S derived) }.setJob t
        (j.at (.written (j.succeeded S key derived).outcome))) t
        (j.at (.written (j.succeeded S key derived).outcome)) := by
      refine ⟨⟨hs.runsSound.amend ?_, rfl⟩, ⟨hs.documentsSound, rfl⟩,
        ⟨hs.versionsSound.insert hins, hrows⟩, rfl, rfl,
        fun _ _ hdata => hdata, rfl, fun t' ht => ⟨Function.update_of_ne ht _ _, rfl, ?_⟩⟩
      · intro r _
        rfl
      · show versions.pending t' = _
        rw [hpending]
        exact Function.update_of_ne ht _ _
    refine hs.localStep hstep hkey
      (.succeeded derived ?_ ?_ hquarantine hfetched (hheld.keep rfl rfl rfl)
      found ((hderived.grow hstep.grows).at _) hrendered)
    · show Function.update s.runs.pending t ((s.runs.pending t).map _) t = _
      rw [Function.update_self, hruns]
      rfl
    · show versions.pending t = _
      rw [hpending]
      exact Function.update_self _ _ _

/-! ## The commit -/

/-- Equal hashes name one place of the object store. -/
theorem storageKey_eq {raw raw' : List UInt8}
    (h : (contentAddress S raw).1 = (contentAddress S raw').1) :
    (contentAddress S raw).2 = (contentAddress S raw').2 := by
  have hhex : S.sha256Hex raw = S.sha256Hex raw' := (String.append_right_inj "sha256:").mp h
  show "raw/sha256/" ++ S.sha256Hex raw = "raw/sha256/" ++ S.sha256Hex raw'
  rw [hhex]

/-- The document of a job when the job has committed. -/
theorem DocumentHeld.committed (hs : Ok S s) (h : DocumentHeld S s t j) (o : IngestionOutcome) :
    ∃ d ∈ (s.return t j o).documents.rows, d.id = j.documentId S ∧ d.accession = j.request.accession
      ∧ d.contentHash = j.contentHash S ∧ d.storageKey = j.storageKey S := by
  cases h with
  | inserted h => exact ⟨j.document S, mem_commit.mpr (.inr h), rfl, rfl, rfl, rfl⟩
  | found hnone h =>
    obtain ⟨d, hd, haccession, hhash⟩ := h
    obtain ⟨hid, raw, haddress, -⟩ := hs.document d hd
    refine ⟨d, mem_commit.mpr (.inl hd), ?_, haccession, hhash, ?_⟩
    · rw [hid, haccession]
      rfl
    · have hname : (contentAddress S raw).1 = (contentAddress S j.request.raw).1 := by
        rw [haddress]
        exact hhash
      have hkey := storageKey_eq hname
      rw [haddress] at hkey
      exact hkey

/-- A document that a call has inserted is recorded with its bytes. -/
theorem documentOk_pending {d : DocumentRow} (hd : s.documents.pending t = some d)
    (hfetched : Fetched S s j)
    (hheld : DocumentHeld S s t j ∨ s.documents.pending t = none) : DocumentOk S s.blobs d := by
  have hnot : s.documents.pending t ≠ none := by
    rw [hd]
    exact Option.some_ne_none d
  rcases hheld with (hinserted | ⟨hnone, -⟩) | hnone
  · obtain rfl := Option.some.inj (hd.symm.trans hinserted)
    exact ⟨rfl, j.request.raw, rfl, hfetched⟩
  · exact absurd hnone hnot
  · exact absurd hnone hnot

/-- The commit of a version. -/
theorem Ok.commitSucceeded (hs : Ok S s) (hkey : j.key S = .ok key) {derived : Derived}
    (hruns : s.runs.pending t = some (j.succeeded S key derived))
    (hversions : s.versions.pending t = some (j.version S derived))
    (hquarantine : j.quarantine = none)
    (hfetched : Fetched S s j) (hheld : DocumentHeld S s t j) {found : List VersionRow}
    (hderived : j.DerivedAt S s found derived) (hrendered : Rendered S s.blobs derived) :
    Ok S (s.return t j (j.succeeded S key derived).outcome) := by
  obtain ⟨d, hd, hdid, haccession, hhash, hstorage⟩ :=
    hheld.committed hs (j.succeeded S key derived).outcome
  have hg : Grows s (s.return t j (j.succeeded S key derived).outcome) :=
    ⟨List.prefix_append _ _, List.prefix_append _ _, List.prefix_append _ _, List.prefix_append _ _,
      List.prefix_append _ _, fun _ _ hdata => hdata⟩
  have hwork : WorkOf S ⟨j, .ok (j.succeeded S key derived).outcome⟩ (j.succeeded S key derived) :=
    ⟨hkey, rfl, rfl, rfl, rfl, fun _ => ⟨rfl, rfl⟩⟩
  have hversion :
      VersionOk S (s.return t j (j.succeeded S key derived).outcome) (j.version S derived) := by
    refine ⟨⟨_, List.mem_append_right _ List.mem_cons_self, rfl, ⟨rfl, hfetched⟩,
      ⟨found, hderived.grow hg, ?_⟩, d, hd,
      hdid, haccession, hhash, hstorage⟩, hrendered⟩
    -- the version was new when it was inserted
    intro u hu heq
    have hnone :=
      find?_eq_none_iff.mp
        (hs.versionsSound.fresh t _ hversions (.id (j.versionId S)) List.mem_cons_self) u
      (hderived.versions.subset hu)
    have hid : u.id = j.versionId S := heq
    rw [← hid] at hnone
    exact hnone List.mem_cons_self
  refine hs.commit hruns hkey hwork
    (.succeeded (j.version S derived) (mem_commit.mpr (.inr hversions)) rfl rfl rfl rfl rfl rfl)
    (fun d hd => documentOk_pending hd hfetched (.inl hheld)) (fun v hv => ?_)
    (fun _ => ⟨j.version S derived, hversions, rfl⟩) (fun q hq => ?_)
    ⟨fun o ho _ => ?_, fun o ho hstatus => ?_, fun o ho _ => ?_, fun o ho hstatus => ?_,
      fun message hmessage => ?_,
      fun hviolation => ?_⟩
  · obtain rfl := Option.some.inj (hversions.symm.trans hv)
    exact ⟨hversion, rfl, rfl⟩
  · rw [hquarantine] at hq
    cases hq
  · exact ⟨j.succeeded S key derived, mem_commit.mpr (.inr hruns), hwork⟩
  · obtain rfl := Except.ok.inj ho
    cases hstatus
  · exact ⟨d, hd, haccession, hhash⟩
  · obtain rfl := Except.ok.inj ho
    cases hstatus
  · cases hmessage
  · cases hviolation

/-- The commit of a quarantine. -/
theorem Ok.commitQuarantined (hs : Ok S s) (hkey : j.key S = .ok key) {documentId : Option String}
    {e : IngestError}
    (hruns : s.runs.pending t = some (j.quarantined S key documentId e))
    (hversions : s.versions.pending t = none)
    (hquarantine : j.quarantine = some (j.quarantineRow S key e)) (hfetched : Fetched S s j)
    (hheld : DocumentHeld S s t j ∨ (s.documents.pending t = none
      ∧ Diverges s j.request.accession (j.contentHash S)
      ∧ e.reasonCode = .divergentAccessionContent)) :
    Ok S (s.return t j (j.quarantined S key documentId e).outcome) := by
  have hg : Grows s (s.return t j (j.quarantined S key documentId e).outcome) :=
    ⟨List.prefix_append _ _, List.prefix_append _ _, List.prefix_append _ _, List.prefix_append _ _,
      List.prefix_append _ _, fun _ _ hdata => hdata⟩
  have hstatus : (j.quarantined S key documentId e).status ≠ .succeeded := RunStatus.noConfusion
  have hwork :
      WorkOf S ⟨j, .ok (j.quarantined S key documentId e).outcome⟩
        (j.quarantined S key documentId e) :=
    ⟨hkey, rfl, rfl, rfl, rfl, fun h => absurd h hstatus⟩
  refine hs.commit hruns hkey hwork
    (.quarantined (j.quarantineRow S key e) (List.mem_append_right _ ?_) rfl rfl rfl rfl rfl)
    (fun d hd => documentOk_pending hd hfetched (hheld.imp id And.left)) (fun v hv => ?_)
    (fun h => absurd h hstatus)
    (fun q hq => ?_)
    ⟨fun o ho _ => ?_, fun o ho hstatus => ?_, fun o ho hstatus => ?_, fun o ho _ => ?_,
      fun message hmessage => ?_,
      fun hviolation => ?_⟩
  · rw [hquarantine]
    exact List.mem_cons_self
  · rw [hversions] at hv
    cases hv
  · obtain rfl := Option.some.inj (hquarantine.symm.trans hq)
    exact ⟨rfl, rfl⟩
  · exact ⟨j.quarantined S key documentId e, mem_commit.mpr (.inr hruns), hwork⟩
  · obtain rfl := Except.ok.inj ho
    cases hstatus
  · obtain rfl := Except.ok.inj ho
    cases hstatus
  · obtain rfl := Except.ok.inj ho
    rcases hheld with hheld | ⟨-, hdiverges, hcode⟩
    · obtain ⟨d, hd, -, haccession, hhash, -⟩ :=
      hheld.committed hs (j.quarantined S key documentId e).outcome
      exact .inl ⟨d, hd, haccession, hhash⟩
    · exact .inr ⟨hdiverges.grow hg, congrArg some hcode⟩
  · cases hmessage
  · cases hviolation

/-- **The next statement of a job** keeps the invariant. -/
theorem Ok.exec (hs : Ok S s) (hkey : j.key S = .ok key) (hat : JobAt S s t j key j.phase)
    (h : s.exec S t j key = some s') : Ok S s' := by
  cases hphase : j.phase with
  | begun => exact hs.claim hkey hphase (hphase ▸ hat) h
  | claimed => exact hs.fetch hkey hphase (hphase ▸ hat) h
  | fetched => exact hs.store hkey hphase (hphase ▸ hat) h
  | stored => exact hs.derive hkey hphase (hphase ▸ hat) h
  | derived derived => exact hs.render hkey hphase (hphase ▸ hat) h
  | rendered derived => exact hs.persist hkey hphase (hphase ▸ hat) h
  | written o =>
    rw [State.exec, hphase] at h
    cases h

/-- **One step keeps the invariant.** -/
theorem Ok.step (hs : Ok S s) {a : Act} (h : s.step S a = some s') : Ok S s' := by
  cases a with
  | begin t request release now =>
    simp only [State.step] at h
    split at h
    · rename_i key hidle hkey
      obtain rfl := Option.some.inj h
      obtain ⟨hruns, hdocuments, hversions⟩ := hs.idle t hidle
      exact hs.localStep (localStep_setJob hs t _) hkey (.begun hruns hdocuments hversions rfl)
    · rename_i message hidle hkey
      obtain rfl := Option.some.inj h
      obtain ⟨hruns, hdocuments, hversions⟩ := hs.idle t hidle
      -- the call raises before its transaction
      have hupdate : ∀ {α : Type} (f : ℕ → Option α), f t = none → f = Function.update f t none :=
          fun f hf =>
        (Function.update_eq_self_iff.mpr hf.symm).symm
      refine hs.endsStep (t := t) ⟨⟨hs.runsSound, rfl, hupdate _ hruns⟩,
        ⟨hs.documentsSound, rfl, hupdate _ hdocuments⟩,
        ⟨hs.versionsSound, rfl, hupdate _ hversions⟩, rfl, rfl, rfl, hupdate _ hidle⟩ ?_ fun o
        ho => by cases ho
      exact finishedOk_error rfl (fun _ => Raised.noConfusion) Raised.noConfusion
    · cases h
  | exec t =>
    simp only [State.step] at h
    split at h
    · cases h
    · rename_i j hj
      obtain ⟨key, hkey, hat⟩ := hs.job t j hj
      rw [hkey] at h
      exact hs.exec hkey hat h
  | commit t =>
    simp only [State.step] at h
    split at h
    · cases h
    · rename_i j hj
      obtain ⟨key, hkey, hat⟩ := hs.job t j hj
      split at h
      · rename_i o hphase
        obtain rfl := Option.some.inj h
        rw [hphase] at hat
        cases hat with
        | succeeded derived hruns hversions hquarantine hfetched hheld found hderived hrendered =>
          exact hs.commitSucceeded hkey hruns hversions hquarantine hfetched hheld
            hderived hrendered
        | quarantined documentId e hruns hversions hquarantine hfetched hheld =>
          exact hs.commitQuarantined hkey hruns hversions hquarantine hfetched hheld
      · cases h
  | crash t =>
    simp only [State.step] at h
    split at h
    · cases h
    · rename_i j hj
      obtain rfl := Option.some.inj h
      exact hs.raise t j (fun _ => Raised.noConfusion) Raised.noConfusion

end OneJob

/-! ## Runs -/

section Runs

variable {S} {s s' : State}

theorem ok_init : Ok S State.init where
  runsSound := sound_empty
  documentsSound := sound_empty
  versionsSound := sound_empty
  idle _ _ := ⟨rfl, rfl, rfl⟩
  job t j hj := by cases hj
  document d hd := by cases hd
  version v hv := by cases hv
  run r hr := by cases hr
  worked r hr := by cases hr
  versionRun v hv := by cases hv
  quarantineRun q hq := by cases hq
  quarantineKeys := List.nodup_nil
  finished f hf := by cases hf
  oneWork := List.Pairwise.nil
  oneVersion := List.Pairwise.nil

/-- **Every state of a run has the invariant.** -/
theorem ok_run {as : List Act} (h : run (State.step S) State.init as = some s) : Ok S s :=
  run_invariant (fun _ _ _ hs hstep => hs.step hstep) ok_init h

end Runs

end Ingestion
