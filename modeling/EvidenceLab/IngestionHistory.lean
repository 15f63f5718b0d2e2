/-
# What the ledger says of a history

The results over every run of the jobs: `ingestion_ledger`, `ledger_points`, `version_provenance`,
`divergent_quarantined`, `no_unique_violation` and `restates_earlier`.
-/
import EvidenceLab.IngestionCalls

namespace Ingestion

open Transitions UniqueTable Xbrl

section Results

variable {S : Tools} {s s' : State} {as : List Act}

/-! ## Growth along a run -/

theorem grows_setJob (t : ℕ) (j : Job) {runs : UniqueTable String RunRow}
    {documents : UniqueTable DocumentKey DocumentRow}
    {versions : UniqueTable VersionKey VersionRow} (hruns : runs.rows = s.runs.rows)
    (hdocuments : documents.rows = s.documents.rows) (hversions : versions.rows = s.versions.rows) :
    Grows s ({ s with runs := runs, documents := documents, versions := versions }.setJob t j) :=
  ⟨hdocuments ▸ List.prefix_rfl, hversions ▸ List.prefix_rfl, hruns ▸ List.prefix_rfl,
    List.prefix_rfl, List.prefix_rfl,
    fun _ _ hdata => hdata⟩

/-- Storing data keeps what was stored. -/
theorem grows_put {blobs : Dict String (List UInt8)} {name : String} {data : List UInt8}
    (h : put s.blobs name data = .ok blobs) (t : ℕ) (j : Job) :
    Grows s ({ s with blobs := blobs }.setJob t j) :=
  ⟨List.prefix_rfl, List.prefix_rfl, List.prefix_rfl, List.prefix_rfl,
    List.prefix_rfl, (get?_put h).2⟩

/-- A call that raises leaves the tables. -/
theorem grows_raise (s : State) (t : ℕ) (j : Job) (e : Raised) : Grows s (s.raise t j e) :=
  ⟨List.prefix_rfl, List.prefix_rfl, List.prefix_rfl, List.prefix_rfl, List.prefix_append _ _,
    fun _ _ hdata => hdata⟩

/-- A call that returns appends its rows. -/
theorem grows_return (s : State) (t : ℕ) (j : Job) (o : IngestionOutcome) :
    Grows s (s.return t j o) :=
  ⟨List.prefix_append _ _, List.prefix_append _ _, List.prefix_append _ _, List.prefix_append _ _,
    List.prefix_append _ _, fun _ _ hdata => hdata⟩

/-- A statement removes nothing. -/
theorem grows_exec {t : ℕ} {j : Job} {key : String} (h : s.exec S t j key = some s') :
    Grows s s' := by
  simp only [State.exec] at h
  split at h
  · -- the claim
    split at h
    · cases h
    · rename_i runs hins
      obtain rfl := Option.some.inj h
      exact grows_setJob t _ (rows_of_insert hins) rfl rfl
    · split at h
      · obtain rfl := Option.some.inj h
        exact grows_raise _ _ _ _
      · split at h
        · obtain rfl := Option.some.inj h
          exact grows_raise _ _ _ _
        · obtain rfl := Option.some.inj h
          exact grows_return _ _ _ _
  · -- the bytes
    split at h
    · obtain rfl := Option.some.inj h
      exact grows_raise _ _ _ _
    · rename_i blobs hput
      obtain rfl := Option.some.inj h
      exact grows_put hput t _
  · -- the document
    split at h
    · cases h
    · rename_i documents hins
      obtain rfl := Option.some.inj h
      exact grows_setJob t _ rfl (rows_of_insert hins) rfl
    · split at h
      · obtain rfl := Option.some.inj h
        exact grows_raise _ _ _ _
      · split at h
        · obtain rfl := Option.some.inj h
          exact grows_setJob t _ rfl rfl rfl
        · obtain rfl := Option.some.inj h
          exact grows_setJob t _ rfl rfl rfl
  · -- the parser and the normalizer
    split at h
    · obtain rfl := Option.some.inj h
      exact grows_setJob t _ rfl rfl rfl
    · obtain rfl := Option.some.inj h
      exact grows_raise _ _ _ _
    · obtain rfl := Option.some.inj h
      exact grows_setJob t _ rfl rfl rfl
  · -- the canonical text
    split at h
    · obtain rfl := Option.some.inj h
      exact grows_raise _ _ _ _
    · rename_i blobs hput
      obtain rfl := Option.some.inj h
      exact grows_put hput t _
  · -- the version
    split at h
    · cases h
    · obtain rfl := Option.some.inj h
      exact grows_raise _ _ _ _
    · rename_i versions hins
      split at h
      · obtain rfl := Option.some.inj h
        exact grows_raise _ _ _ _
      · obtain rfl := Option.some.inj h
        exact grows_setJob t _ rfl rfl (rows_of_insert hins)
  · cases h

/-- **A step** removes nothing. -/
theorem grows_step {a : Act} (h : s.step S a = some s') : Grows s s' := by
  cases a with
  | begin t request release now =>
    simp only [State.step] at h
    split at h
    · obtain rfl := Option.some.inj h
      exact grows_setJob t _ rfl rfl rfl
    · obtain rfl := Option.some.inj h
      exact ⟨List.prefix_rfl, List.prefix_rfl, List.prefix_rfl, List.prefix_rfl,
        List.prefix_append _ _,
        fun _ _ hdata => hdata⟩
    · cases h
  | exec t =>
    simp only [State.step] at h
    split at h
    · cases h
    · split at h
      · cases h
      · exact grows_exec h
  | commit t =>
    simp only [State.step] at h
    split at h
    · cases h
    · split at h
      · obtain rfl := Option.some.inj h
        exact grows_return _ _ _ _
      · cases h
  | crash t =>
    simp only [State.step] at h
    split at h
    · cases h
    · obtain rfl := Option.some.inj h
      exact grows_raise _ _ _ _

/-- **Nothing that was committed ever changes.** -/
theorem grows_run {bs : List Act} (h : run (State.step S) s bs = some s') : Grows s s' :=
  run_invariant (P := fun s' => Grows s s') (fun _ _ _ hg hstep => hg.trans (grows_step hstep))
    (Grows.refl s) h

/-! ## The ledger -/

/-- The call returned, and did the work of the job itself. -/
def isWork (S : Tools) (key : String) (f : Finished) : Bool :=
  match f.result, f.job.key S with
  | .ok o, .ok k => k = key && o.status ≠ .noop
  | _, _ => false

/-- A call did the work of a key if it returned an outcome of its own. -/
theorem isWork_iff {key : String} {f : Finished} :
    isWork S key f = true ↔ f.job.key S = .ok key ∧ ∃ o, f.result = .ok o ∧ o.status ≠ .noop := by
  rw [isWork]
  split
  · rename_i o k hresult hkey
    rw [hresult, hkey]
    simp
  · rename_i hnot
    constructor
    · intro h
      cases h
    · rintro ⟨hkey, o, hresult, -⟩
      exact absurd hkey (hnot o key hresult)

/-- A predicate that two members of a list never share holds of one member. -/
theorem filter_eq_singleton {α : Type} {p : α → Bool} {l : List α} {a : α} (ha : a ∈ l)
    (hp : p a = true)
    (hl : l.Pairwise fun a b => ¬ (p a = true ∧ p b = true)) : l.filter p = [a] := by
  obtain ⟨before, after, rfl⟩ := List.append_of_mem ha
  obtain ⟨-, hafter, hbefore⟩ := List.pairwise_append.mp hl
  have hnotBefore : before.filter p = [] := by
    rw [List.filter_eq_nil_iff]
    intro b hb hpb
    exact hbefore b hb a List.mem_cons_self ⟨hpb, hp⟩
  have hnotAfter : after.filter p = [] := by
    rw [List.filter_eq_nil_iff]
    intro b hb hpb
    exact (List.pairwise_cons.mp hafter).1 b hb ⟨hp, hpb⟩
  rw [List.filter_append, List.filter_cons_of_pos hp, hnotBefore, hnotAfter, List.nil_append]

/-- **The ledger.**  In every state that any interleaving of jobs reaches, a row of the ledger is
final, it is the only one of its job, and exactly one call did the work and returned what the row
records; every other call of the job that returned got the record, and no call finds a job without a
result. -/
theorem ingestion_ledger (h : run (State.step S) State.init as = some s) :
    (∀ r ∈ s.runs.rows, r.status ≠ .running
      ∧ ∃ f, s.finished.filter (isWork S r.jobKey) = [f] ∧ f.result = .ok r.outcome)
    ∧ (s.runs.rows.map RunRow.jobKey).Nodup
    ∧ ∀ f ∈ s.finished, (∀ message, f.result ≠ .error (.runtimeError message))
      ∧ ∀ o, f.result = .ok o → ∃ r ∈ s.runs.rows, f.job.key S = .ok r.jobKey
        ∧ (o = r.outcome ∨ o = noopOutcome r.jobKey r) := by
  have hs := ok_run h
  refine ⟨fun r hr => ⟨?_, ?_⟩, ?_, fun f hf => ⟨(hs.finished f hf).terminal, fun o ho => ?_⟩⟩
  · cases hs.run r hr with
    | succeeded _ _ hstatus =>
      rw [hstatus]
      decide
    | quarantined _ _ hstatus =>
      rw [hstatus]
      decide
  · obtain ⟨f, hf, hwork⟩ := hs.worked r hr
    refine ⟨f, filter_eq_singleton hf ?_ ?_, hwork.result⟩
    · refine isWork_iff.mpr ⟨hwork.key, r.outcome, hwork.result, ?_⟩
      rw [RunRow.outcome]
      split_ifs
      · exact OutcomeStatus.noConfusion
      · exact OutcomeStatus.noConfusion
    · refine hs.oneWork.imp ?_
      rintro a b hab ⟨ha, hb⟩
      obtain ⟨hkey, o, ho, hstatus⟩ := isWork_iff.mp ha
      obtain ⟨hkey', o', ho', hstatus'⟩ := isWork_iff.mp hb
      exact hab o o' ho ho' hstatus hstatus' (hkey.trans hkey'.symm)
  · rw [List.Nodup, List.pairwise_map]
    refine hs.runsSound.distinct.imp ?_
    intro a b hab heq
    exact hab a.jobKey List.mem_cons_self (heq ▸ List.mem_cons_self)
  · by_cases hstatus : o.status = .noop
    · obtain ⟨r, hr, hkey, heq⟩ := (hs.finished f hf).noop o ho hstatus
      exact ⟨r, hr, hkey, .inr heq⟩
    · obtain ⟨r, hr, hwork⟩ := (hs.finished f hf).work o ho hstatus
      exact ⟨r, hr, hwork.key, .inl (Except.ok.inj (ho.symm.trans hwork.result))⟩

theorem ingestion_ledger_filed : ∃ s, run (State.step filedTools) State.init filedActs = some s
    ∧ s.finished.length = 5 ∧ s.runs.rows.length = 3
    ∧ ∀ r ∈ s.runs.rows, r.status ≠ .running
      ∧ ∃ f, s.finished.filter (isWork filedTools r.jobKey) = [f] ∧ f.result = .ok r.outcome := by
  obtain ⟨s, derived, derived', hs⟩ := exists_filed
  exact ⟨s, hs.run, hs.length_finished, hs.runs, (ingestion_ledger hs.run).1⟩

/-- A row with a version is that of a successful job. -/
theorem RunOk.version {r : RunRow} (hr : RunOk s r) {id : String}
    (hid : r.documentVersionId = some id) :
    r.status = .succeeded ∧ ∃ v ∈ s.versions.rows, v.id = id ∧ r.documentId = some v.documentId
      ∧ r.result = v.derived.counts := by
  cases hr with
  | succeeded v hv hstatus hid' hdocument _ _ hresult =>
    exact ⟨hstatus, v, hv, Option.some.inj (hid'.symm.trans hid), hdocument, hresult⟩
  | quarantined q _ _ _ _ hnone _ =>
    rw [hnone] at hid
    cases hid

/-- Two successful jobs have two versions. -/
theorem Ok.versionIds (hs : Ok S s) (id : String) :
    s.runs.rows.Pairwise fun a b =>
    ¬ (a.documentVersionId = some id ∧ b.documentVersionId = some id) := by
  refine hs.oneVersion.imp_of_mem ?_
  rintro a b ha hb hab ⟨hida, hidb⟩
  exact hab ((hs.run a ha).version hida).1 ((hs.run b hb).version hidb).1 (hida.trans hidb.symm)

/-- No job has two rows. -/
theorem Ok.jobKeys (hs : Ok S s) : (s.runs.rows.map RunRow.jobKey).Nodup := by
  rw [List.Nodup, List.pairwise_map]
  refine hs.runsSound.distinct.imp ?_
  intro a b hab heq
  exact hab a.jobKey List.mem_cons_self (heq ▸ List.mem_cons_self)

/-- As many rows are successful as there are versions. -/
theorem Ok.length_versions (hs : Ok S s) :
    (s.runs.rows.filter fun r => r.status = .succeeded).length = s.versions.rows.length := by
  have hperm :
      ((s.runs.rows.filter fun r => r.status = .succeeded).map RunRow.documentVersionId).Perm
      (s.versions.rows.map fun v => some v.id) := by
    refine (List.perm_ext_iff_of_nodup ?_ ?_).mpr fun id => ?_
    · rw [List.Nodup, List.pairwise_map, List.pairwise_filter]
      refine hs.oneVersion.imp ?_
      intro a b hab ha hb
      exact hab (of_decide_eq_true ha) (of_decide_eq_true hb)
    · rw [List.Nodup, List.pairwise_map]
      refine hs.versionsSound.distinct.imp ?_
      intro a b hab heq
      have hid : a.id = b.id := Option.some.inj heq
      exact hab (.id a.id) List.mem_cons_self (hid ▸ List.mem_cons_self)
    · simp only [List.mem_map, List.mem_filter, decide_eq_true_eq]
      constructor
      · rintro ⟨r, ⟨hr, hstatus⟩, rfl⟩
        cases hs.run r hr with
        | succeeded v hv _ hid => exact ⟨v, hv, hid.symm⟩
        | quarantined _ _ hstatus' =>
          rw [hstatus] at hstatus'
          cases hstatus'
      · rintro ⟨v, hv, rfl⟩
        obtain ⟨r, hr, hstatus, hid⟩ := hs.versionRun v hv
        exact ⟨r, ⟨hr, hstatus⟩, hid⟩
  have hlen := hperm.length_eq
  rwa [List.length_map, List.length_map] at hlen

/-- As many rows are not successful as there are quarantined sources. -/
theorem Ok.length_quarantine (hs : Ok S s) :
    (s.runs.rows.filter fun r => ¬ r.status = .succeeded).length = s.quarantine.length := by
  have hperm : ((s.runs.rows.filter fun r => ¬ r.status = .succeeded).map RunRow.jobKey).Perm
      (s.quarantine.map QuarantineRow.jobKey) := by
    refine (List.perm_ext_iff_of_nodup ?_ hs.quarantineKeys).mpr fun key => ?_
    · exact hs.jobKeys.sublist (List.filter_sublist.map RunRow.jobKey)
    · simp only [List.mem_map, List.mem_filter, decide_eq_true_eq]
      constructor
      · rintro ⟨r, ⟨hr, hstatus⟩, rfl⟩
        cases hs.run r hr with
        | succeeded _ _ hstatus' => exact absurd hstatus' hstatus
        | quarantined q hq _ hkey => exact ⟨q, hq, hkey⟩
      · rintro ⟨q, hq, rfl⟩
        obtain ⟨r, hr, hstatus, hkey⟩ := hs.quarantineRun q hq
        refine ⟨r, ⟨hr, ?_⟩, hkey⟩
        rw [hstatus]
        decide
  have hlen := hperm.length_eq
  rwa [List.length_map, List.length_map] at hlen

/-- **What the ledger points to.**  The successful rows and the versions, and the other rows and the
quarantined sources, belong together one to one. -/
theorem ledger_points (h : run (State.step S) State.init as = some s) :
    (∀ v ∈ s.versions.rows, ∃ r, s.runs.rows.filter (fun r => r.documentVersionId = some v.id) = [r]
      ∧ r.status = .succeeded ∧ r.documentId = some v.documentId ∧ r.result = v.derived.counts)
    ∧ (∀ q ∈ s.quarantine, ∃ r, s.runs.rows.filter (fun r => r.jobKey = q.jobKey) = [r]
      ∧ r.status = .quarantined
      ∧ r.documentVersionId = none ∧ r.sourceHash = q.contentHash
      ∧ r.result = { reasonCode := some q.reasonCode, diagnostic := some q.diagnostic })
    ∧ s.runs.rows.length = s.versions.rows.length + s.quarantine.length := by
  have hs := ok_run h
  refine ⟨fun v hv => ?_, fun q hq => ?_, ?_⟩
  · obtain ⟨r, hr, hstatus, hid⟩ := hs.versionRun v hv
    obtain ⟨-, v', hv', hvid, hdocument, hresult⟩ := (hs.run r hr).version hid
    have hvv : v' = v :=
      hs.versionsSound.eq_of_mem hv' hv List.mem_cons_self (hvid ▸ List.mem_cons_self)
    subst hvv
    refine ⟨r, filter_eq_singleton hr (decide_eq_true hid) ((hs.versionIds v'.id).imp ?_), hstatus,
      hdocument, hresult⟩
    rintro a b hab ⟨ha, hb⟩
    exact hab ⟨of_decide_eq_true ha, of_decide_eq_true hb⟩
  · obtain ⟨r, hr, hstatus, hkey⟩ := hs.quarantineRun q hq
    have hone : s.runs.rows.filter (fun r => r.jobKey = q.jobKey) = [r] := by
      refine filter_eq_singleton hr (decide_eq_true hkey) ((List.pairwise_map.mp hs.jobKeys).imp ?_)
      rintro a b hab ⟨ha, hb⟩
      exact hab ((of_decide_eq_true ha).trans (of_decide_eq_true hb).symm)
    cases hs.run r hr with
    | succeeded _ _ hstatus' =>
      rw [hstatus] at hstatus'
      cases hstatus'
    | quarantined q' hq' _ hkey' hhash hid hresult =>
      have hqq : q' = q := List.inj_on_of_nodup_map hs.quarantineKeys hq' hq (hkey'.trans hkey)
      subst hqq
      exact ⟨r, hone, hstatus, hid, hhash.symm, hresult⟩
  · rw [← hs.length_versions, ← hs.length_quarantine,
    s.runs.rows.length_eq_length_filter_add fun r => r.status = .succeeded]
    congr 2
    simp only [decide_not]

theorem ledger_points_filed : ∃ s, run (State.step filedTools) State.init filedActs = some s
    ∧ s.versions.rows.length = 2 ∧ s.quarantine.length = 1
    ∧ s.runs.rows.length = s.versions.rows.length + s.quarantine.length
    ∧ ∀ v ∈ s.versions.rows, ∃ r,
    s.runs.rows.filter (fun r => r.documentVersionId = some v.id) = [r]
      ∧ r.status = .succeeded ∧ r.documentId = some v.documentId ∧ r.result = v.derived.counts := by
  obtain ⟨s, derived, derived', hs⟩ := exists_filed
  obtain ⟨hversions, -, hlength⟩ := ledger_points hs.run
  exact ⟨s, hs.run, congrArg List.length hs.versions, hs.quarantine, hlength, hversions⟩

/-! ## Versions -/

/-- **Where a version comes from.**  A version was derived from the bytes that are stored under its
document's key, whose hash its document names; its text is stored as well; and no later step of any
job changes the version, the document or the stored bytes. -/
theorem version_provenance (h : run (State.step S) State.init as = some s) {v : VersionRow}
    (hv : v ∈ s.versions.rows) :
    ∃ d ∈ s.documents.rows, ∃ raw, d.id = v.documentId ∧
    contentAddress S raw = (d.contentHash, d.storageKey)
      ∧ (∃ f ∈ s.finished, f.job.request.raw = raw ∧ f.job.request.accession = d.accession
        ∧ f.job.release.parserVersion = v.parserVersion ∧ f.job.release.normalizerVersion
        = v.normalizerVersion
        ∧ ∃ prior, f.job.release.derive f.job.request.entityId v.id d.contentHash raw prior
        = .ok v.derived)
      ∧ ∀ bs s', run (State.step S) s bs = some s' → v ∈ s'.versions.rows ∧ d ∈ s'.documents.rows
        ∧ Dict.get? s'.blobs d.storageKey = some raw
        ∧ Dict.get? s'.blobs v.canonicalTextKey
        = some (v.derived.text.flatMap String.utf8EncodeChar) := by
  have hs := ok_run h
  obtain ⟨⟨f, hf, hversion, ⟨haddress, hblob⟩, ⟨found, hderived, -⟩, d, hd, hid, haccession, hhash,
      hstorage⟩, hrendered⟩ :=
    hs.version v hv
  obtain ⟨documents, -, hderive⟩ := hderived.derive
  have hvid : f.job.versionId S = v.id := (congrArg VersionRow.id hversion).symm
  rw [hvid, ← hhash] at hderive
  have htext : v.canonicalTextKey = canonicalTextAddress S v.derived.text :=
    congrArg VersionRow.canonicalTextKey hversion
  refine ⟨d, hd, f.job.request.raw, hid, ?_,
    ⟨f, hf, rfl, haccession.symm, (congrArg VersionRow.parserVersion hversion).symm,
    (congrArg VersionRow.normalizerVersion hversion).symm, _, hderive⟩, fun bs s' hbs => ?_⟩
  · rw [hhash, hstorage]
    exact haddress
  · have hg := grows_run hbs
    refine ⟨hg.versions.subset hv, hg.documents.subset hd, ?_, ?_⟩
    · rw [hstorage]
      exact hg.blobs _ _ hblob
    · rw [htext]
      exact hg.blobs _ _ hrendered

theorem version_provenance_filed :
    ∃ s v v', run (State.step filedTools) State.init filedActs = some s
    ∧ s.versions.rows = [v, v'] ∧ v.documentId ≠ v'.documentId
    ∧ ∃ d ∈ s.documents.rows, ∃ raw, d.id = v'.documentId
      ∧ contentAddress filedTools raw = (d.contentHash, d.storageKey)
      ∧ Dict.get? s.blobs d.storageKey = some raw := by
  obtain ⟨s, derived, derived', hs⟩ := exists_filed
  have hv : (callOf secondRequest filedRelease 11 .begun).version filedTools derived'
      ∈ s.versions.rows := by
    rw [hs.versions]
    exact List.mem_cons_of_mem _ List.mem_cons_self
  obtain ⟨d, hd, raw, hid, haddress, -, hlater⟩ := version_provenance hs.run hv
  exact ⟨s, _, _, hs.run, hs.versions, documentId_filed.symm, d, hd, raw, hid, haddress,
    (hlater [] s rfl).2.2.1⟩

/-- **Other bytes are quarantined.**  A call whose bytes have another hash than the document of its
accession got no version: it found its job recorded, or the source was quarantined as divergent, or
the call raised. -/
theorem divergent_quarantined (h : run (State.step S) State.init as = some s) {f : Finished}
    (hf : f ∈ s.finished)
    {d : DocumentRow} (hd : d ∈ s.documents.rows)
    (haccession : d.accession = f.job.request.accession)
    (hhash : d.contentHash ≠ f.job.contentHash S) {o : IngestionOutcome} (ho : f.result = .ok o) :
    o.status = .noop ∨ (o.status = .quarantined ∧ o.documentVersionId = none
      ∧ o.result.reasonCode = some .divergentAccessionContent) := by
  have hs := ok_run h
  have hnot : ¬ Recorded s f.job.request.accession (f.job.contentHash S) := by
    rintro ⟨d', hd', haccession', hhash'⟩
    have heq : d' = d := hs.documentsSound.eq_of_mem (k := .accession d.accession) hd' hd
      (haccession'.trans haccession.symm ▸ List.mem_cons_self) List.mem_cons_self
    exact hhash (heq ▸ hhash')
  cases hstatus : o.status with
  | noop => exact .inl rfl
  | succeeded => exact absurd ((hs.finished f hf).succeeded o ho hstatus) hnot
  | quarantined =>
    right
    have hcode := ((hs.finished f hf).quarantined o ho hstatus).resolve_left hnot
    have hnoop : o.status ≠ .noop := by
      rw [hstatus]
      exact OutcomeStatus.noConfusion
    obtain ⟨r, hr, hwork⟩ := (hs.finished f hf).work o ho hnoop
    have hout : o = r.outcome := Except.ok.inj (ho.symm.trans hwork.result)
    refine ⟨rfl, ?_, hcode.2⟩
    rw [hout]
    cases hs.run r hr with
    | succeeded _ _ hrstatus =>
      rw [hout, RunRow.outcome, if_pos hrstatus] at hstatus
      cases hstatus
    | quarantined _ _ _ _ _ hid _ => exact hid

theorem divergent_quarantined_filed :
    ∃ s f o, run (State.step filedTools) State.init filedActs = some s
    ∧ f ∈ s.finished ∧ f.job.request = otherRequest ∧ f.result = .ok o
    ∧ (o.status = .noop ∨ (o.status = .quarantined ∧ o.documentVersionId = none
      ∧ o.result.reasonCode = some .divergentAccessionContent)) := by
  obtain ⟨s, derived, derived', hs⟩ := exists_filed
  obtain ⟨o₁, o₂, o₃, o₄, q, hfinished⟩ := hs.finished
  have hf :
      (⟨{ callOf otherRequest filedRelease 12 (.written o₃) with quarantine := some q }, .ok o₃⟩ :
      Finished)
      ∈ s.finished := by
    rw [hfinished]
    exact List.mem_cons_of_mem _ (List.mem_cons_of_mem _ List.mem_cons_self)
  have hd :
      (callOf firstRequest filedRelease 10 .begun).document filedTools ∈ s.documents.rows := by
    rw [hs.documents]
    exact List.mem_cons_self
  exact ⟨s, _, o₃, hs.run, hf, rfl, rfl, divergent_quarantined hs.run hf hd rfl hash_ne rfl⟩

/-! ## Unique keys -/

/-- A version that is stored, or that a call was about to store. -/
def Written (S : Tools) (s : State) (v : VersionRow) : Prop :=
  v ∈ s.versions.rows
    ∨ ∃ f ∈ s.finished, ∃ derived, f.job.phase = .rendered derived ∧ v = f.job.version S derived

/-- An accession of a document or of a call. -/
def Filed (s : State) (accession : String) : Prop :=
  (∃ d ∈ s.documents.rows, d.accession = accession) ∨ ∃ f ∈ s.finished,
  f.job.request.accession = accession

/-- The identifiers of version 5 keep apart the names that they are made of, among the documents,
calls and versions of a state, and are written without a bar. -/
structure NoCollision (S : Tools) (s : State) : Prop where
  document :
    ∀ a b, Filed s a → Filed s b → documentIdForAccession S a = documentIdForAccession S b → a = b
  version : ∀ f ∈ s.finished, ∀ g ∈ s.finished, f.job.versionId S = g.job.versionId S →
    f.job.versionUrl S = g.job.versionUrl S
  rows : ∀ u v, Written S s u → Written S s v →
    Apart S.uuid5 (u.derived.names u.id) (v.derived.names v.id)
  plain : ∀ v, Written S s v → '|' ∉ v.id.toList

section Keys

variable {py : CompanyFacts.Interpreter} {html : String → List Filing.Event}

/-- Every call is one of the two channels. -/
def Channelled (S : Tools) (py : CompanyFacts.Interpreter) (html : String → List Filing.Event)
    (s : State) : Prop :=
  ∀ f ∈ s.finished, f.job.release = filingRelease S py html ∨
    f.job.release = companyFactsRelease S py

/-- What a call derives is placed under its version. -/
theorem Job.DerivedAt.placed {j : Job} {found : List VersionRow} {derived : Derived}
    (h : j.DerivedAt S s found derived)
    (hrelease : j.release = filingRelease S py html ∨ j.release = companyFactsRelease S py) :
    derived.Placed S.uuid5 (j.versionId S) := by
  obtain ⟨documents, -, hderive⟩ := h.derive
  rcases hrelease with hrelease | hrelease
  · rw [hrelease] at hderive
    exact filingRelease_placed S py html _ _ _ _ _ _ hderive
  · rw [hrelease] at hderive
    exact companyFactsRelease_placed S py _ _ _ _ _ _ hderive

/-- What the calls of the history were. -/
theorem FiledState.noCollision {s : State} {derived derived' : Derived}
    (hs : FiledState s derived derived') :
    NoCollision filedTools s := by
  -- two accessions are filed, and two versions of the first are written
  have hfiled : ∀ a, Filed s a → a = "24-1" ∨ a = "24-2" := by
    rintro a (⟨d, hd, rfl⟩ | ⟨f, hf, rfl⟩)
    · rw [hs.documents] at hd
      rcases List.mem_pair.mp hd with rfl | rfl
      · exact .inl rfl
      · exact .inr rfl
    · rcases (hs.jobs f hf).request with h | h | h
      · exact .inl (congrArg Request.accession h)
      · exact .inr (congrArg Request.accession h)
      · exact .inl (congrArg Request.accession h)
  have hwritten : ∀ v, Written filedTools s v →
      (v.id = firstVersion ∧ v.derived = derived) ∨
      (v.id = secondVersion ∧ v.derived = derived') := by
    rintro v (hv | ⟨f, hf, found, hphase, -⟩)
    · rw [hs.versions] at hv
      rcases List.mem_pair.mp hv with rfl | rfl
      · exact .inl ⟨(version_id _ _ _).trans (versionId_first 10 .begun), rfl⟩
      · exact .inr ⟨(version_id _ _ _).trans (versionId_second 11 .begun), rfl⟩
    · exact absurd hphase ((hs.jobs f hf).phase found)
  have hnames : ∀ v, Written filedTools s v →
      v.derived.names v.id ⊆ derived.names firstVersion ++ derived'.names secondVersion := by
    intro v hv
    rcases hwritten v hv with ⟨hid, hderived⟩ | ⟨hid, hderived⟩
    · rw [hid, hderived]
      exact List.subset_append_left _ _
    · rw [hid, hderived]
      exact List.subset_append_right _ _
  refine ⟨fun a b ha hb heq => ?_, fun f hf g hg heq => ?_, fun u v hu hv x hx y hy => ?_,
    fun v hv => ?_⟩
  · -- each clause is one of the names of these constants
    rcases hfiled a ha with rfl | rfl
    · rcases hfiled b hb with rfl | rfl
      · rfl
      · exact absurd heq.symm documentId_filed
    · rcases hfiled b hb with rfl | rfl
      · exact absurd heq documentId_filed
      · rfl
  · exact (hs.jobs f hf).versionUrl_eq (hs.jobs g hg) heq
  · exact hs.names x (hnames u hu hx) y (hnames v hv hy)
  · rcases hwritten v hv with ⟨hid, -⟩ | ⟨hid, -⟩
    · rw [hid]
      exact bar_firstVersion
    · rw [hid]
      exact bar_secondVersion

/-- **No violation of a unique key escapes** while the calls of an accession name one entity: not in
the ledger, and not in the tables of documents, versions, sections, spans, tables and facts. -/
theorem no_unique_violation (h : run (State.step S) State.init as = some s)
    (hreleases : Channelled S py html s)
    (hids : NoCollision S s)
    (hentity :
      ∀ f ∈ s.finished, ∀ g ∈ s.finished, f.job.request.accession = g.job.request.accession →
      f.job.request.entityId = g.job.request.entityId) :
    ∀ f ∈ s.finished, f.result ≠ .error .uniqueViolation := by
  have hs := ok_run h
  intro f hf hviolation
  have hfiled : Filed s f.job.request.accession := .inr ⟨f, hf, rfl⟩
  rcases (hs.finished f hf).unique hviolation with ⟨d, hd, hid, hne⟩ | ⟨derived, hphase,
    ⟨key, hkey⟩, ⟨found, hderived⟩, hcause⟩
  · have hdocument :
    documentIdForAccession S d.accession = documentIdForAccession S f.job.request.accession :=
      (hs.document d hd).id.symm.trans hid
    exact hne (hids.document _ _ (.inl ⟨d, hd, rfl⟩) hfiled hdocument)
  have hwritten : Written S s (f.job.version S derived) := .inr ⟨f, hf, derived, hphase, rfl⟩
  have hplaced := hderived.placed (hreleases f hf)
  have hplain := hids.plain _ hwritten
  rcases hcause with hnodup | ⟨v, hv, ⟨k, hk, hkv⟩, g, hg, r, hr, hwork, hstatus, hnamed,
    hother, hrecorded⟩
  · exact hnodup (VersionRow.nodup_keys hplaced (hids.rows _ _ hwritten hwritten) hplain)
  -- the other version was derived by a call of its own
  obtain ⟨f', hf', hversion, -, ⟨found', hderived', -⟩, -⟩ := (hs.version v hv).call
  have hplaced' : v.derived.Placed S.uuid5 v.id := by
    rw [show v.id = f'.job.versionId S from congrArg VersionRow.id hversion]
    exact hderived'.placed (hreleases f' hf')
  have hnames : f.job.documentId S = g.job.documentId S
      ∧ f.job.release.parserVersion = g.job.release.parserVersion
      ∧ f.job.release.normalizerVersion = g.job.release.normalizerVersion := by
    rcases VersionRow.eq_of_shared hplaced hplaced' (hids.rows _ _ hwritten (.inl hv)) hplain
      (hids.plain v (.inl hv)) hk hkv with heq | ⟨hdocument, hparser, hnormalizer⟩
    · exact versionUrl_inj hkey hwork.key (hids.version f hf g hg (heq.trans hnamed.id))
    · exact ⟨hdocument.trans hnamed.documentId, hparser.trans hnamed.parserVersion,
        hnormalizer.trans hnamed.normalizerVersion⟩
  obtain ⟨hdocument, hparser, hnormalizer⟩ := hnames
  have haccession := hids.document _ _ hfiled (.inr ⟨g, hg, rfl⟩) hdocument
  -- both calls have the hash of the one document
  obtain ⟨d, hd, hda, hdh⟩ := hrecorded haccession
  have hsucceeded : r.outcome.status = .succeeded := if_pos hstatus
  obtain ⟨d', hd', hda', hdh'⟩ := (hs.finished g hg).succeeded r.outcome hwork.result hsucceeded
  have heq : d' = d := hs.documentsSound.eq_of_mem (k := .accession d.accession) hd' hd
    (hda'.trans (haccession.symm.trans hda.symm) ▸ List.mem_cons_self) List.mem_cons_self
  have hhash : g.job.contentHash S = f.job.contentHash S := hdh'.symm.trans (heq ▸ hdh)
  refine hother ?_
  rw [Job.key, Job.key, hhash, hparser, hnormalizer, haccession, hentity f hf g hg haccession]

theorem no_unique_violation_filed : ∃ s, run (State.step filedTools) State.init filedActs = some s
    ∧ s.versions.rows.length = 2 ∧ s.finished.length = 5
    ∧ ∀ f ∈ s.finished, f.result ≠ .error .uniqueViolation := by
  obtain ⟨s, derived, derived', hs⟩ := exists_filed
  have hrelease : Channelled filedTools CompanyFacts.quiet paragraph s :=
    fun f hf => .inl (hs.jobs f hf).release
  have hentity : ∀ f ∈ s.finished, f.job.request.entityId = "e1" :=
    fun f hf => (hs.jobs f hf).entityId
  refine ⟨s, hs.run, congrArg List.length hs.versions, hs.length_finished,
    no_unique_violation hs.run hrelease hs.noCollision ?_⟩
  intro f hf g hg _
  rw [hentity f hf, hentity g hg]

end Keys

/-! ## Restatements -/

/-- A prefix without an element ends before it. -/
theorem prefix_before {α : Type} {found before after : List α} {v : α}
    (h : found <+: before ++ v :: after) (hv : v ∉ found) :
    found <+: before := by
  rcases Nat.lt_or_ge before.length found.length with hlt | hge
  · have hinit : before ++ [v] <+: found := by
      refine List.prefix_of_prefix_length_le (show before ++ [v] <+: before ++ v
        :: after from ⟨after, by simp⟩) h ?_
      rw [List.length_append, List.length_singleton]
      omega
    exact absurd (hinit.subset (List.mem_append_right _ (List.mem_singleton_self v))) hv
  · exact List.prefix_of_prefix_length_le h (List.prefix_append _ _) hge

/-- **A restatement names an earlier fact.**  A fact that restates another was stored by a filing,
and names the first of the canonical facts of its entity and key in the latest versions of the
filings published before: that fact has another value, and its version was committed before, so that
no chain of restatements comes back. -/
theorem restates_earlier {py : CompanyFacts.Interpreter} {html : String → List Filing.Event}
    (h : run (State.step S) State.init as = some s) (hreleases : Channelled S py html s)
    {v : VersionRow} (hv : v ∈ s.versions.rows) {r : NormalizedFact} (hr : r ∈ v.derived.facts)
    {id : String}
    (hid : r.restates = some id) :
    ∃ f ∈ s.finished, f.job.release = filingRelease S py html ∧ v = f.job.version S v.derived
      ∧ ∃ before after, s.versions.rows = before ++ v :: after
        ∧ ∃ documents found, documents <+: s.documents.rows ∧ found <+: before
          ∧ ∃ c, Eligible documents found r.entityId f.job.request.publishedAt c ∧ c.fact.id = id
            ∧ c.fact.factKey = r.factKey ∧ c.fact.value ≠ r.value
            ∧ ∀ c', Eligible documents found r.entityId f.job.request.publishedAt c' →
            c'.fact.factKey = r.factKey →
              precedes c c' = true := by
  have hs := ok_run h
  have hchannel : ∀ f ∈ s.finished, f.job.release.FollowsPrior := by
    intro f hf
    rcases hreleases f hf with hrelease | hrelease
    · rw [hrelease]
      exact filingRelease_followsPrior S py html
    · rw [hrelease]
      exact companyFactsRelease_followsPrior S py
  -- every stored value is one that its column holds
  have hchecked : ∀ u ∈ s.versions.rows, ∀ x ∈ u.derived.facts, Xbrl.checkValue x.value = true := by
    intro u hu x hx
    obtain ⟨g, hg, -, -, ⟨_, ⟨-, _, -, hderive⟩, -⟩, -⟩ := (hs.version u hu).call
    exact (hchannel g hg _ _ _ _ _ _ hderive x hx).checked
  obtain ⟨f, hf, hversion, -, ⟨found, ⟨hfound, documents, hdocuments, hderive⟩, hother⟩, -⟩ :=
    (hs.version v hv).call
  obtain ⟨hentity, -, hrestates⟩ := hchannel f hf _ _ _ _ _ _ hderive r hr
  obtain ⟨p, hp, hpid, hvalue⟩ := hrestates id hid
  have hfiling : f.job.release = filingRelease S py html := by
    rcases hreleases f hf with hrelease | hrelease
    · exact hrelease
    · rw [hrelease] at hp
      cases hp
  rw [hfiling] at hp
  obtain ⟨before, after, hrows⟩ := List.append_of_mem hv
  obtain ⟨c, hc, hkey, hcid, hcvalue, hfirst⟩ := get?_priorCanonicalFacts hp
  have hbefore : found <+: before := prefix_before (hrows ▸ hfound) fun hmem => hother v hmem rfl
  refine ⟨f, hf, hfiling, hversion, before, after, hrows, documents, found, hdocuments, hbefore, c,
    ?_, hcid.trans hpid, hkey, ?_,
    fun c' hc' hkey' => ?_⟩
  · rw [hentity]
    exact hc
  · rw [hcvalue]
    exact hvalue
  · rw [hentity] at hc'
    exact hfirst c' hc' hkey' (hchecked c'.version (hfound.subset hc'.version) c'.fact hc'.fact)

end Results

end Ingestion
