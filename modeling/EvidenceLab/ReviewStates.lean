/-
# The review state machine

What holds of the review tables in every state that worker persistence, reviews, corrections and
cancels can reach, in any order.

* `Chained`: the versions of a record are `1..n`, each on top of the one before.
* `Tables`: the tables agree with each other.
* `Completed`, `Waiting`: the runs that a review has completed, and those that wait on.
* A review looks again at the runs of its inputs only, so a conflict that spans several runs can
  leave a run behind: `Settles` excludes that.
-/
import EvidenceLab.ReviewFacts

namespace Extraction

open Except Transitions

/-! ## Approved records -/

/-- The versions of a record are a chain with the head at its end. -/
structure ApprovedRecord.Chained (r : ApprovedRecord) : Prop where
  /-- The versions are `1..n`. -/
  numbers : r.versions.map ApprovedVersion.version = List.range' 1 r.versions.length
  first : ∀ v, r.versions[0]? = some v → v.parent = none
  parents : ∀ i u v, r.versions[i]? = some u → r.versions[i + 1]? = some v → v.parent = some u.id
  /-- The head is the last version. -/
  head : ∃ v, r.versions.getLast? = some v ∧ r.head? = some v

/-- A new record is a chain of one version. -/
theorem Draft.record_chained (d : Draft) (recordId versionId : String) (sourceRuns : List String) :
    (d.record recordId versionId sourceRuns).Chained where
  numbers := rfl
  first := by
    intro v hv
    obtain rfl := Option.some.inj hv
    rfl
  parents := by
    intro i u v _ hv
    simp [Draft.record] at hv
  head :=
    ⟨d.version versionId 1 none sourceRuns, rfl, by
      simp [ApprovedRecord.head?, Draft.record, Draft.version]⟩

/-- The number of the head is the number of versions. -/
theorem ApprovedRecord.Chained.head_version {r : ApprovedRecord} (hr : r.Chained)
    {v : ApprovedVersion}
    (hv : r.head? = some v) : r.versions.getLast? = some v ∧ v.version = r.versions.length := by
  obtain ⟨w, hlast, hhead⟩ := hr.head
  obtain rfl := Option.some.inj (hv.symm.trans hhead)
  refine ⟨hlast, ?_⟩
  have hmap : (r.versions.map ApprovedVersion.version).getLast? = some v.version := by
    rw [List.getLast?_map, hlast, Option.map_some]
  rw [hr.numbers, List.getLast?_range'] at hmap
  split_ifs at hmap
  rw [Option.some.injEq] at hmap
  omega

/-- A correction keeps the chain. -/
theorem ApprovedRecord.Chained.appended {r : ApprovedRecord} (hr : r.Chained)
    {old v : ApprovedVersion}
    (hold : r.head? = some old) (hversion : v.version = old.version + 1)
    (hparent : v.parent = some old.id) (hfresh : ∀ u ∈ r.versions, u.id ≠ v.id) :
    (r.appended v).Chained := by
  obtain ⟨hlast, hn⟩ := hr.head_version hold
  have hpos : r.versions ≠ [] := by
    rintro h
    simp [h] at hlast
  have hlen : 0 < r.versions.length := List.length_pos_iff.mpr hpos
  refine ⟨?_, ?_, ?_, v, by simp [ApprovedRecord.appended], ?_⟩
  · show (r.versions ++ [v]).map _ = _
    simp only [ApprovedRecord.appended, List.map_append, hr.numbers, List.map_singleton,
      hversion, hn,
      List.length_append, List.length_singleton, List.range'_concat, Nat.one_mul]
    rw [Nat.add_comm 1]
  · intro u hu
    rw [ApprovedRecord.appended, List.getElem?_append_left hlen] at hu
    exact hr.first u hu
  · intro i u w hu hw
    simp only [ApprovedRecord.appended] at hu hw
    rcases Nat.lt_trichotomy (i + 1) r.versions.length with hi | hi | hi
    · rw [List.getElem?_append_left (by omega)] at hu
      rw [List.getElem?_append_left hi] at hw
      exact hr.parents i u w hu hw
    · -- the new version on top of the last one
      rw [List.getElem?_append_left (by omega)] at hu
      rw [List.getElem?_append_right (by omega), hi, Nat.sub_self] at hw
      obtain rfl := Option.some.inj hw
      rw [List.getLast?_eq_getElem?, ← hi, Nat.add_sub_cancel, hu] at hlast
      rw [hparent, Option.some.inj hlast]
    · rw [List.getElem?_append_right (by omega)] at hw
      have : i + 1 - r.versions.length ≠ 0 := by omega
      simp [this] at hw
  · simp only [ApprovedRecord.head?, ApprovedRecord.appended, List.find?_append]
    have hnone : r.versions.find? (fun u => u.id == v.id) = none :=
      List.find?_eq_none.mpr fun u hu => by simpa using hfresh u hu
    rw [hnone]
    simp

/-! ## The tables -/

/-- The conflicts that reviews have decided, in order. -/
def ReviewDb.decided (s : ReviewDb) : List String :=
  s.reviews.flatMap fun r => r.resolutions.map Prod.fst

/-- What the tables keep in every state. -/
structure Tables (s : ReviewDb) : Prop where
  wf : s.WF
  recordIds : (s.records.map ApprovedRecord.id).Nodup
  chained : ∀ r ∈ s.records, r.Chained
  /-- A proposal has its first version until it is disposed. -/
  versions : ∀ p ∈ s.proposals, p.version = if p.state.isOpen then 1 else 2
  owner : ∀ p ∈ s.proposals, ∃ r ∈ s.runs, r.id = p.runId
  /-- Nothing of a run is disposed before the run waits for review. -/
  early : ∀ r ∈ s.runs, r.status = .queued ∨ r.status = .running →
    ∀ p ∈ s.proposals, p.runId = r.id → p.state.isOpen = true
  once : s.decided.Nodup
  decided : ∀ c ∈ s.conflicts, c.status = .resolved ↔ c.id ∈ s.decided
  known : ∀ id ∈ s.decided, ∃ c ∈ s.conflicts, c.id = id

/-- The runs that reviews have completed have nothing open. -/
def Completed (s : ReviewDb) (finished : List String) : Prop :=
  ∀ id ∈ finished, (∃ r ∈ s.runs, r.id = id ∧ r.status = .succeeded)
    ∧ s.hasOpenProposal id = false ∧ s.hasOpenConflict id = false

/-- A run that a review has touched waits on only while something of it is open. -/
structure Waiting (s : ReviewDb) (reviewed : List String) : Prop where
  touched : ∀ id ∈ reviewed, ∃ p ∈ s.proposals, p.runId = id
  waits : ∀ r ∈ s.runs, r.id ∈ reviewed → r.status = .waitingReview →
    s.hasOpenProposal r.id = true ∨ s.hasOpenConflict r.id = true

/-- A run has an open proposal. -/
theorem ReviewDb.hasOpenProposal_iff {s : ReviewDb} {run : String} :
    s.hasOpenProposal run = true ↔ ∃ p ∈ s.proposals, p.runId = run ∧ p.state.isOpen = true := by
  simp [ReviewDb.hasOpenProposal]

/-- A run has an open conflict if one of its proposals is in it. -/
theorem ReviewDb.hasOpenConflict_iff {s : ReviewDb} {run : String} :
    s.hasOpenConflict run = true ↔ ∃ c ∈ s.conflicts, c.status = .opened
      ∧ ∃ p ∈ s.proposals, p.runId = run ∧ p.id ∈ c.members := by
  simp [ReviewDb.hasOpenConflict, ReviewDb.reaches]

variable {T : Revalidation} {s s' : ReviewDb} {finished reviewed : List String}

/-! ### A new run -/

/-- Creating a run keeps the tables in order. -/
theorem Tables.createRun (hs : Tables s) {run : ReviewRun} (hnew : (s.run? run.id).isNone = true) :
    Tables { s with runs := s.runs ++ [run] } := by
  have hfresh : ∀ r ∈ s.runs, r.id ≠ run.id := by
    intro r hr hid
    rw [Option.isNone_iff_eq_none] at hnew
    have := List.find?_eq_none.mp hnew r hr
    simp [hid] at this
  refine ⟨⟨?_, hs.wf.proposalIds, hs.wf.conflictIds, hs.wf.members⟩, hs.recordIds, hs.chained,
    hs.versions, ?_, ?_, hs.once, hs.decided, hs.known⟩
  · rw [List.map_append, List.nodup_append]
    refine ⟨hs.wf.runIds, List.nodup_singleton _, ?_⟩
    intro a ha b hb
    obtain ⟨r, hr, rfl⟩ := List.mem_map.mp ha
    rw [List.map_singleton, List.mem_singleton] at hb
    rw [hb]
    exact hfresh r hr
  · intro p hp
    obtain ⟨r, hr, hid⟩ := hs.owner p hp
    exact ⟨r, List.mem_append_left _ hr, hid⟩
  · intro r hr hst p hp hid
    rcases List.mem_append.mp hr with hr | hr
    · exact hs.early r hr hst p hp hid
    · -- a new run has no proposals
      obtain rfl := List.mem_singleton.mp hr
      obtain ⟨r', hr', hid'⟩ := hs.owner p hp
      exact absurd (hid'.trans hid) (hfresh r' hr')

/-- Creating a run completes none. -/
theorem Completed.createRun (h : Completed s finished) {run : ReviewRun} :
    Completed { s with runs := s.runs ++ [run] } finished := by
  intro id hid
  obtain ⟨⟨r, hr, hrid, hst⟩, hp, hc⟩ := h id hid
  exact ⟨⟨r, List.mem_append_left _ hr, hrid, hst⟩, hp, hc⟩

/-- A new run waits for nothing. -/
theorem Waiting.createRun (h : Waiting s reviewed) {run : ReviewRun} (hrun : run.status = .queued) :
    Waiting { s with runs := s.runs ++ [run] } reviewed := by
  refine ⟨h.touched, ?_⟩
  intro r hr hid hst
  rcases List.mem_append.mp hr with hr | hr
  · exact h.waits r hr hid hst
  · obtain rfl := List.mem_singleton.mp hr
    rw [hrun] at hst
    cases hst

/-! ### A new proposal -/

/-- What `persist_proposals` can add: an open proposal of an open run. -/
theorem insertProposal_eq (run : ReviewRun) (s : ReviewDb) (d : NewProposal) :
    s.insertProposal run d = s ∨ ∃ p : Proposal, p.runId = run.id ∧ p.workspaceId = run.workspaceId
      ∧ p.state = .needsReview ∧ p.version = 1 ∧ (∀ q ∈ s.proposals, q.id ≠ p.id)
      ∧ s.insertProposal run d = { s with proposals := s.proposals ++ [p] } := by
  unfold ReviewDb.insertProposal
  split_ifs with h
  · exact .inl rfl
  · refine .inr ⟨_, rfl, rfl, rfl, rfl, ?_, rfl⟩
    intro q hq hid
    have hnone : s.proposal? d.id = none := by simpa using h
    have := List.find?_eq_none.mp hnone q hq
    simp [show q.id = d.id from hid] at this

/-- A new proposal of a known run keeps the tables in order. -/
theorem Tables.addProposal (hs : Tables s) {p : Proposal} (hstate : p.state = .needsReview)
    (hversion : p.version = 1) (hfresh : ∀ q ∈ s.proposals, q.id ≠ p.id)
    (howner : ∃ r ∈ s.runs, r.id = p.runId) :
    Tables { s with proposals := s.proposals ++ [p] } := by
  have hopen : p.state.isOpen = true := by rw [hstate]; rfl
  refine ⟨⟨hs.wf.runIds, ?_, hs.wf.conflictIds, ?_⟩, hs.recordIds, hs.chained, ?_, ?_, ?_, hs.once,
    hs.decided, hs.known⟩
  · rw [List.map_append, List.nodup_append]
    refine ⟨hs.wf.proposalIds, List.nodup_singleton _, ?_⟩
    intro a ha b hb
    obtain ⟨q, hq, rfl⟩ := List.mem_map.mp ha
    rw [List.map_singleton, List.mem_singleton] at hb
    rw [hb]
    exact hfresh q hq
  · intro c hc m hm
    obtain ⟨q, hq, hid⟩ := hs.wf.members c hc m hm
    exact ⟨q, List.mem_append_left _ hq, hid⟩
  · intro q hq
    rcases List.mem_append.mp hq with hq | hq
    · exact hs.versions q hq
    · obtain rfl := List.mem_singleton.mp hq
      rw [hversion, hopen, if_pos rfl]
  · intro q hq
    rcases List.mem_append.mp hq with hq | hq
    · exact hs.owner q hq
    · obtain rfl := List.mem_singleton.mp hq
      exact howner
  · intro r hr hst q hq hid
    rcases List.mem_append.mp hq with hq | hq
    · exact hs.early r hr hst q hq hid
    · obtain rfl := List.mem_singleton.mp hq
      exact hopen

/-- A completed run gets no proposal: the worker writes to open runs only. -/
theorem Completed.addProposal (h : Completed s finished) (hs : Tables s) {p : Proposal}
    {run : ReviewRun} (hrun : run ∈ s.runs) (hopen : run.status.isTerminal = false)
    (hid : p.runId = run.id) :
    Completed { s with proposals := s.proposals ++ [p] } finished := by
  intro id hfin
  obtain ⟨⟨r, hr, hrid, hst⟩, hp, hc⟩ := h id hfin
  have hne : p.runId ≠ id := by
    intro heq
    have := List.inj_on_of_nodup_map hs.wf.runIds hrun hr (hid.symm.trans (heq.trans hrid.symm))
    rw [this, hst] at hopen
    cases hopen
  refine ⟨⟨r, hr, hrid, hst⟩, ?_, ?_⟩
  · rw [← Bool.not_eq_true, ReviewDb.hasOpenProposal_iff] at hp ⊢
    rintro ⟨q, hq, hqrun, hqopen⟩
    rcases List.mem_append.mp hq with hq | hq
    · exact hp ⟨q, hq, hqrun, hqopen⟩
    · exact hne (List.mem_singleton.mp hq ▸ hqrun)
  · rw [← Bool.not_eq_true, ReviewDb.hasOpenConflict_iff] at hc ⊢
    rintro ⟨c, hmem, hcst, q, hq, hqrun, hqmem⟩
    rcases List.mem_append.mp hq with hq | hq
    · exact hc ⟨c, hmem, hcst, q, hq, hqrun, hqmem⟩
    · exact hne (List.mem_singleton.mp hq ▸ hqrun)

theorem Waiting.addProposal (h : Waiting s reviewed) {p : Proposal} :
    Waiting { s with proposals := s.proposals ++ [p] } reviewed := by
  refine ⟨?_, ?_⟩
  · intro id hid
    obtain ⟨q, hq, hrun⟩ := h.touched id hid
    exact ⟨q, List.mem_append_left _ hq, hrun⟩
  · intro r hr hid hst
    rcases h.waits r hr hid hst with hp | hc
    · obtain ⟨q, hq, hq'⟩ := ReviewDb.hasOpenProposal_iff.mp hp
      exact .inl (ReviewDb.hasOpenProposal_iff.mpr ⟨q, List.mem_append_left _ hq, hq'⟩)
    · obtain ⟨c, hc, hcst, q, hq, hq'⟩ := ReviewDb.hasOpenConflict_iff.mp hc
      exact .inr (ReviewDb.hasOpenConflict_iff.mpr ⟨c, hc, hcst, q, List.mem_append_left _ hq, hq'⟩)

/-! ### A group of the worker -/

/-- Joining a conflict decides none. -/
theorem Joins.decided {d : NewConflict} {joined : Conflict} (h : Joins s s' d joined) :
    s'.decided = s.decided := by
  rw [ReviewDb.decided, h.reviews, ReviewDb.decided]

/-- **Joining a conflict** keeps the tables in order. -/
theorem Tables.joins (hs : Tables s) {d : NewConflict} {joined : Conflict}
    (h : Joins s s' d joined) :
    Tables s' := by
  -- the joined conflict is undecided
  have hundecided : joined.id ∉ s.decided := by
    intro hmem
    obtain ⟨c, hc, hid⟩ := hs.known _ hmem
    rcases h.base with ⟨c', hc', hid', hst', -⟩ | hnew
    · have := (hs.decided c' hc').mpr (hid' ▸ hmem)
      rw [hst'] at this
      cases this
    · exact hnew c hc hid
  refine ⟨⟨?_, ?_, h.ids, ?_⟩, ?_, ?_, ?_, ?_, ?_, ?_, ?_, ?_⟩
  · rw [h.runs]
    exact hs.wf.runIds
  · rw [h.proposals]
    exact hs.wf.proposalIds
  · intro c hc m hm
    rw [h.proposals]
    rcases (h.mem c).mp hc with rfl | ⟨hc, -⟩
    · rcases h.joining m hm with ⟨c, hc, -, -, -, hm⟩ | ⟨-, p, hp, hid, -⟩
      · exact hs.wf.members c hc m hm
      · exact ⟨p, hp, hid⟩
    · exact hs.wf.members c hc m hm
  · rw [h.records]
    exact hs.recordIds
  · rw [h.records]
    exact hs.chained
  · rw [h.proposals]
    exact hs.versions
  · rw [h.proposals, h.runs]
    exact hs.owner
  · rw [h.proposals, h.runs]
    exact hs.early
  · rw [h.decided]
    exact hs.once
  · intro c hc
    rw [h.decided]
    rcases (h.mem c).mp hc with rfl | ⟨hc, -⟩
    · simp [h.opened, hundecided]
    · exact hs.decided c hc
  · intro id hid
    rw [h.decided] at hid
    obtain ⟨c, hc, rfl⟩ := hs.known id hid
    by_cases heq : c.id = joined.id
    · exact absurd (heq ▸ hid) hundecided
    · exact ⟨c, (h.mem c).mpr (.inr ⟨hc, heq⟩), rfl⟩

/-- A completed run gets no conflict: the guard refuses members of closed runs. -/
theorem Completed.joins (hf : Completed s finished) (hs : Tables s) {d : NewConflict}
    {joined : Conflict} (h : Joins s s' d joined) : Completed s' finished := by
  intro id hid
  obtain ⟨⟨r, hr, hrid, hst⟩, hp, hc⟩ := hf id hid
  refine ⟨⟨r, h.runs ▸ hr, hrid, hst⟩, ?_, ?_⟩
  · rw [ReviewDb.hasOpenProposal, h.proposals]
    exact hp
  · rw [← Bool.not_eq_true, ReviewDb.hasOpenConflict_iff] at hc ⊢
    rintro ⟨c, hmem, hcst, q, hq, hqrun, hqmem⟩
    rw [h.proposals] at hq
    rcases (h.mem c).mp hmem with rfl | ⟨hmem, -⟩
    · rcases h.joining q.id hqmem with ⟨c, hmem, -, hcst, -, hm⟩ | ⟨-, p, hp, hpid, hopen⟩
      · exact hc ⟨c, hmem, hcst, q, hq, hqrun, hm⟩
      · obtain rfl := List.inj_on_of_nodup_map hs.wf.proposalIds hp hq hpid
        obtain ⟨r', hr', hrid', hterm⟩ := (ReviewDb.runIsOpen_iff hs.wf).mp hopen
        have := List.inj_on_of_nodup_map hs.wf.runIds hr' hr (hrid'.trans (hqrun.trans hrid.symm))
        rw [this, hst] at hterm
        cases hterm
    · exact hc ⟨c, hmem, hcst, q, hq, hqrun, hqmem⟩

/-- Joining a conflict keeps the reviewed runs waiting. -/
theorem Waiting.joins (hw : Waiting s reviewed) (hs : Tables s) {d : NewConflict}
    {joined : Conflict}
    (h : Joins s s' d joined) : Waiting s' reviewed := by
  refine ⟨by rw [h.proposals]; exact hw.touched, ?_⟩
  intro r hr hid hst
  rw [h.runs] at hr
  rcases hw.waits r hr hid hst with hp | hc
  · left
    rw [ReviewDb.hasOpenProposal, h.proposals]
    exact hp
  · right
    obtain ⟨c, hc, hcst, q, hq, hqrun, hqmem⟩ := ReviewDb.hasOpenConflict_iff.mp hc
    refine ReviewDb.hasOpenConflict_iff.mpr ?_
    rw [h.proposals]
    by_cases heq : c.id = joined.id
    · rcases h.base with ⟨c', hc', hid', -, hsub⟩ | hnew
      · obtain rfl := List.inj_on_of_nodup_map hs.wf.conflictIds hc hc' (heq.trans hid'.symm)
        exact ⟨joined, (h.mem joined).mpr (.inl rfl), h.opened, q, hq, hqrun, hsub hqmem⟩
      · exact absurd heq (hnew c hc)
    · exact ⟨c, (h.mem c).mpr (.inr ⟨hc, heq⟩), hcst, q, hq, hqrun, hqmem⟩

/-! ### Persistence as a whole -/

/-- What every write of the worker keeps, and that it writes neither runs nor proposals over. -/
structure Persisted (s s' : ReviewDb) : Prop where
  runs : s'.runs = s.runs
  records : s'.records = s.records
  reviews : s'.reviews = s.reviews
  proposals : s.proposals ⊆ s'.proposals
  resolved : ∀ c ∈ s.conflicts, c.status = .resolved → c ∈ s'.conflicts
  tables : Tables s → Tables s'
  completed : ∀ finished, Tables s → Completed s finished → Completed s' finished
  waiting : ∀ reviewed, Tables s → Waiting s reviewed → Waiting s' reviewed

theorem Persisted.refl (s : ReviewDb) : Persisted s s :=
  ⟨rfl, rfl, rfl, List.Subset.refl _, fun _ hc _ => hc, id, fun _ _ h => h, fun _ _ h => h⟩

/-- Writing the proposals and the conflicts of a run one after the other. -/
theorem Persisted.trans {s₁ s₂ s₃ : ReviewDb} (h₁ : Persisted s₁ s₂) (h₂ : Persisted s₂ s₃) :
    Persisted s₁ s₃ where
  runs := h₂.runs.trans h₁.runs
  records := h₂.records.trans h₁.records
  reviews := h₂.reviews.trans h₁.reviews
  proposals := List.Subset.trans h₁.proposals h₂.proposals
  resolved := fun c hc hst => h₂.resolved c (h₁.resolved c hc hst) hst
  tables := fun h => h₂.tables (h₁.tables h)
  completed := fun fin h hf => h₂.completed fin (h₁.tables h) (h₁.completed fin h hf)
  waiting := fun rev h hw => h₂.waiting rev (h₁.tables h) (h₁.waiting rev h hw)

/-- A proposal is inserted under its run. -/
theorem insertProposal_persisted {run : ReviewRun} (hrun : run ∈ s.runs)
    (hopen : run.status.isTerminal = false) (d : NewProposal) :
    Persisted s (s.insertProposal run d) := by
  rcases insertProposal_eq run s d with h | ⟨p, hid, -, hstate, hversion, hfresh, h⟩
  · rw [h]
    exact .refl s
  · rw [h]
    exact ⟨rfl, rfl, rfl, List.subset_append_left _ _, fun _ hc _ => hc,
      fun hs => hs.addProposal hstate hversion hfresh ⟨run, hrun, hid.symm⟩,
      fun _ hs hf => hf.addProposal hs hrun hopen hid, fun _ _ hw => hw.addProposal⟩

/-- All proposals of a run are inserted under it. -/
theorem foldl_insertProposal_persisted {run : ReviewRun} (hopen : run.status.isTerminal = false)
    (proposals : List NewProposal) {s : ReviewDb} (hrun : run ∈ s.runs) :
    Persisted s (proposals.foldl (ReviewDb.insertProposal run) s) := by
  induction proposals generalizing s with
  | nil => exact .refl s
  | cons d proposals ih =>
      have hfirst := insertProposal_persisted hrun hopen d
      exact hfirst.trans (ih (hfirst.runs ▸ hrun))

/-- A conflict that is joined persists. -/
theorem Joins.persisted (hs : Tables s) {d : NewConflict} {joined : Conflict}
    (h : Joins s s' d joined) : Persisted s s' := by
  refine ⟨h.runs, h.records, h.reviews, by rw [h.proposals]; exact List.Subset.refl _, ?_,
    fun hs => hs.joins h, fun _ hs hf => hf.joins hs h, fun _ hs hw => hw.joins hs h⟩
  intro c hc hst
  refine (h.mem c).mpr (.inr ⟨hc, ?_⟩)
  intro heq
  rcases h.base with ⟨c', hc', hid', hst', -⟩ | hnew
  · rw [List.inj_on_of_nodup_map hs.wf.conflictIds hc hc' (heq.trans hid'.symm), hst'] at hst
    cases hst
  · exact hnew c hc heq

/-- All conflicts of a run are joined. -/
theorem foldlM_persistConflict_persisted {w : String} (conflicts : List NewConflict)
    {s s' : ReviewDb}
    (hs : Tables s) (h : conflicts.foldlM (ReviewDb.persistConflict w) s = .ok s') :
    Persisted s s' := by
  induction conflicts generalizing s with
  | nil =>
      rw [List.foldlM_nil, pure_eq_ok, Except.ok.injEq] at h
      exact h ▸ .refl s
  | cons d conflicts ih =>
      rw [List.foldlM_cons, bind_eq_ok_iff] at h
      obtain ⟨m, hm, h⟩ := h
      obtain ⟨occurrence, joined, -, -, hj⟩ := hs.wf.joins hm
      exact (hj.persisted hs).trans (ih (hs.joins hj) h)

/-- **The worker's persistence.** -/
theorem persistOutputs_persisted (hs : Tables s) {runId : String} {proposals : List NewProposal}
    {conflicts : List NewConflict} (h : s.persistOutputs runId proposals conflicts = .ok s') :
    Persisted s s' := by
  simp only [ReviewDb.persistOutputs, bind_eq_ok_iff, orRaise_eq_ok_iff, raiseIf_eq_ok_iff,
    Bool.not_eq_true] at h
  obtain ⟨run, hrun, -, hopen, h⟩ := h
  have hadd := foldl_insertProposal_persisted hopen proposals (hs.wf.run?_eq.mp hrun).1
  exact hadd.trans (foldlM_persistConflict_persisted conflicts (hadd.tables hs) h)

/-! ### Status writes -/

/-- What `set_run_status` has done. -/
theorem setRunStatus_eq_ok (hs : s.WF) {runId : String} {status : RunStatus}
    (h : s.setRunStatus runId status = .ok s') :
    ∃ run ∈ s.runs, run.id = runId ∧ run.status.isTerminal = false
      ∧ run.status.canBecome status = true
      ∧ s' = { s with runs := s.runs.map fun r => if r.id = runId then { r with status := status }
        else r } := by
  simp only [ReviewDb.setRunStatus, bind_eq_ok_iff, orRaise_eq_ok_iff, raiseIf_eq_ok_iff,
    pure_eq_ok, Except.ok.injEq, Bool.not_eq_true, Bool.not_eq_false] at h
  obtain ⟨run, hrun, -, hopen, -, hcan, rfl⟩ := h
  obtain ⟨hmem, hid⟩ := hs.run?_eq.mp hrun
  exact ⟨run, hmem, hid, hopen, hcan, rfl⟩

theorem map_status_ids (runs : List ReviewRun) (runId : String) (status : RunStatus) :
    (runs.map fun r => if r.id = runId then { r with status := status } else r).map ReviewRun.id
      = runs.map ReviewRun.id := by
  rw [List.map_map]
  refine List.map_congr_left fun r _ => ?_
  simp only [Function.comp_apply]
  split_ifs <;> rfl

/-- A run that is not open any more was not `queued` or `running`. -/
theorem RunStatus.canBecome_early {a b : RunStatus} (h : a.canBecome b = true)
    (hb : b = .queued ∨ b = .running) : a = .queued ∨ a = .running := by
  rcases hb with rfl | rfl
  · cases a <;> simp_all [RunStatus.canBecome]
  · cases a <;> simp_all [RunStatus.canBecome]

/-- A run that comes to wait for review was running or waits already. -/
theorem RunStatus.canBecome_waiting {a : RunStatus} (h : a.canBecome .waitingReview = true) :
    a = .running ∨ a = .waitingReview := by
  cases a <;> simp_all [RunStatus.canBecome]

/-- **A status write.** -/
theorem setRunStatus_kept (hs : Tables s) {runId : String} {status : RunStatus}
    (h : s.setRunStatus runId status = .ok s') :
    Tables s' ∧ (∀ finished, Completed s finished → Completed s' finished)
      ∧ ∀ reviewed, Waiting s reviewed → Waiting s' reviewed := by
  obtain ⟨run, hrun, rfl, hopen, hcan, rfl⟩ := setRunStatus_eq_ok hs.wf h
  refine ⟨⟨⟨?_, hs.wf.proposalIds, hs.wf.conflictIds, hs.wf.members⟩, hs.recordIds, hs.chained,
    hs.versions, ?_, ?_, hs.once, hs.decided, hs.known⟩, ?_, ?_⟩
  · rw [map_status_ids]
    exact hs.wf.runIds
  · intro p hp
    obtain ⟨r, hr, hid⟩ := hs.owner p hp
    refine ⟨_, List.mem_map_of_mem hr, ?_⟩
    split_ifs <;> exact hid
  · intro r hr hst p hp hid
    obtain ⟨r₀, hr₀, rfl⟩ := List.mem_map.mp hr
    by_cases heq : r₀.id = run.id
    · obtain rfl := List.inj_on_of_nodup_map hs.wf.runIds hr₀ hrun heq
      rw [if_pos rfl] at hst hid
      exact hs.early r₀ hr₀ (RunStatus.canBecome_early hcan hst) p hp hid
    · rw [if_neg heq] at hst hid
      exact hs.early r₀ hr₀ hst p hp hid
  · intro finished hf id hid
    obtain ⟨⟨r, hr, hrid, hst⟩, hp, hc⟩ := hf id hid
    have hne : r.id ≠ run.id := by
      intro heq
      rw [← List.inj_on_of_nodup_map hs.wf.runIds hr hrun heq, hst] at hopen
      cases hopen
    exact ⟨⟨r, List.mem_map.mpr ⟨r, hr, if_neg hne⟩, hrid, hst⟩, hp, hc⟩
  · intro reviewed hw
    refine ⟨hw.touched, ?_⟩
    intro r hr hid hst
    obtain ⟨r₀, hr₀, rfl⟩ := List.mem_map.mp hr
    by_cases heq : r₀.id = run.id
    · obtain rfl := List.inj_on_of_nodup_map hs.wf.runIds hr₀ hrun heq
      rw [if_pos rfl] at hst hid ⊢
      obtain rfl : status = .waitingReview := hst
      rcases RunStatus.canBecome_waiting hcan with hrunning | hwaiting
      · -- the run is touched, so it has a proposal, and nothing of it is disposed
        obtain ⟨p, hp, hprun⟩ := hw.touched _ hid
        exact .inl (ReviewDb.hasOpenProposal_iff.mpr
          ⟨p, hp, hprun, hs.early r₀ hr₀ (.inr hrunning) p hp hprun⟩)
      · exact hw.waits r₀ hr₀ hid hwaiting
    · rw [if_neg heq] at hst hid ⊢
      exact hw.waits r₀ hr₀ hid hst

/-- Cancelling sets the status of the run, or finds it set. -/
theorem cancelRun_eq_ok {runId : String} (h : s.cancelRun runId = .ok s') :
    s' = s ∨ s.setRunStatus runId .cancelled = .ok s' := by
  simp only [ReviewDb.cancelRun, bind_eq_ok_iff] at h
  obtain ⟨run, -, -, -, h⟩ := h
  split_ifs at h
  · exact .inr h
  · rw [pure_eq_ok, Except.ok.injEq] at h
    exact .inl h.symm

/-! ### A correction -/

/-- The parts of a correction. -/
theorem planCorrection_eq_ok {c : Correction} {old : ApprovedVersion} {d : Draft}
    (h : T.planCorrection s c = .ok (old, d)) :
    ∃ record peerRuns groups rows current origins source relevant drafts,
      s.record? c.recordId = some record ∧ record.head? = some old
      ∧ s.discover [old.origin] = .ok (peerRuns, groups)
      ∧ s.lockedRows T ((peerRuns ++ old.sourceRuns).dedup.insertionSort (· ≤ ·)) = .ok rows
      ∧ s.currentRows T rows ((peerRuns ++ old.sourceRuns).dedup.insertionSort (· ≤ ·))
        = .ok (current, origins)
      ∧ rows.find? (fun row => row.id == old.origin) = some source
      ∧ T.relevantRows (current.filter (fun row => row.id != old.origin)
          ++ [{ source with payload := c.payload, evidence := c.evidence, summary := .obj [],
                            sourceRunIds := old.sourceRuns }])
          [old.origin] (groups.flatMap ConflictDetail.members) = .ok relevant
      ∧ T.evaluate relevant = .ok drafts ∧ draftOf drafts old.origin = .ok d
      ∧ (T.detectConflicts drafts).any (fun g => g.memberProposalIds.contains old.origin)
        = false := by
  simp only [Revalidation.planCorrection, bind_eq_ok_iff, orRaise_eq_ok_iff, raiseIf_eq_ok_iff,
    pure_eq_ok, Except.ok.injEq, Prod.mk.injEq] at h
  obtain ⟨record, hrec, old', hold, -, -, ⟨peerRuns, groups⟩, hdisc, -, -, rows, hrows,
    ⟨current, origins⟩, hcur, -, -, source, hsource, relevant, hrel, drafts, hdrafts,
    d', hd, -, -, -,
    hnone, -, -, rfl, rfl⟩ := h
  exact ⟨record, peerRuns, groups, rows, current, origins, source, relevant, drafts,
    hrec, hold, hdisc,
    hrows, hcur, hsource, hrel, hdrafts, hd, Bool.not_eq_true _ ▸ hnone⟩

/-- **A correction** keeps the tables in order. -/
theorem Tables.correct (hs : Tables s) {c : Correction} {old : ApprovedVersion} {d : Draft}
    {versionId : String} (h : T.planCorrection s c = .ok (old, d))
    (hfresh : s.isFreshId versionId = true) :
    Tables (s.commitCorrection c.recordId old d versionId) := by
  obtain ⟨record, -, -, -, -, -, -, -, -, hrecord, hhead, -⟩ := planCorrection_eq_ok h
  obtain ⟨hmem, hid⟩ := (find?_eq_some_iff_of_nodup hs.recordIds).mp hrecord
  refine ⟨⟨hs.wf.runIds, hs.wf.proposalIds, hs.wf.conflictIds, hs.wf.members⟩, ?_, ?_, hs.versions,
    hs.owner, hs.early, hs.once, hs.decided, hs.known⟩
  · rw [ReviewDb.commitCorrection, List.map_map]
    have : (ApprovedRecord.id ∘ fun r => if r.id = c.recordId then r.appended
        (d.version versionId (old.version + 1) (some old.id) old.sourceRuns) else r)
          = ApprovedRecord.id := by
      funext r
      simp only [Function.comp_apply]
      split_ifs <;> rfl
    rw [this]
    exact hs.recordIds
  · intro r hr
    obtain ⟨r₀, hr₀, rfl⟩ := List.mem_map.mp hr
    by_cases heq : r₀.id = c.recordId
    · obtain rfl := List.inj_on_of_nodup_map hs.recordIds hr₀ hmem (heq.trans hid.symm)
      rw [if_pos heq]
      refine (hs.chained r₀ hr₀).appended hhead rfl rfl ?_
      intro u hu
      have := List.all_eq_true.mp hfresh r₀ hr₀
      rw [Bool.and_eq_true] at this
      simpa [Draft.version] using List.all_eq_true.mp this.2 u hu
    · rw [if_neg heq]
      exact hs.chained r₀ hr₀

/-! ### A review -/

/-- New records take the fresh identifiers from the front. -/
theorem newRecords_ids_prefix (approvals : List (Draft × List String)) (fresh : FreshIds) :
    (newRecords approvals fresh).map ApprovedRecord.id <+: fresh.recordIds := by
  unfold newRecords
  generalize fresh.recordIds = ids
  generalize fresh.versionIds = versions
  induction ids generalizing versions approvals with
  | nil => simp
  | cons id ids ih =>
      cases versions with
      | nil => simp
      | cons v versions =>
          cases approvals with
          | nil => simp
          | cons a approvals =>
              simpa [Draft.record] using ih approvals versions

/-- A new record is made from one of the approvals. -/
theorem mem_newRecords {approvals : List (Draft × List String)} {fresh : FreshIds}
    {r : ApprovedRecord}
    (h : r ∈ newRecords approvals fresh) :
    ∃ a ∈ approvals, ∃ recordId versionId, r = a.1.record recordId versionId a.2 := by
  obtain ⟨i, hi, rfl⟩ := List.mem_iff_getElem.mp h
  simp only [newRecords, List.getElem_zipWith]
  exact ⟨_, List.getElem_mem _, _, _, rfl⟩

/-- The conflicts of a review are decided once. -/
theorem resolutionsOf_ids_perm (body : ReviewBody) (records : List ApprovedRecord)
    (reviewId : String) :
    ((resolutionsOf body records reviewId).map Prod.fst).Perm
      (body.conflictResolution.map ConflictDecision.conflictId) := by
  rw [resolutionsOf, List.map_map]
  exact (List.perm_insertionSort _ _).map _

/-- A review decides the conflicts its body names. -/
theorem decided_reviewWritten (body : ReviewBody) (plan : ReviewPlan) (fresh : FreshIds) :
    (s.reviewWritten body plan fresh).decided = s.decided
      ++ (resolutionsOf body (newRecords plan.approvals fresh) fresh.reviewId).map Prod.fst := by
  simp [ReviewDb.decided, ReviewDb.reviewWritten]

/-- The rows of a review keep the tables. -/
theorem Tables.reviewWritten (hs : Tables s) {body : ReviewBody} {plan : ReviewPlan}
    {fresh : FreshIds}
    (hplan : PlanOk T s body plan) (hfresh : s.areFresh fresh plan.approvals.length = true) :
    Tables (s.reviewWritten body plan fresh) := by
  have hinput : ∀ p ∈ s.proposals, p.id ∈ body.extractionIds → p.state.isOpen = true
      ∧ (s.run? p.runId).map ReviewRun.status = some .waitingReview := by
    intro p hp hid
    obtain ⟨q, hq, hqid, hopen, hrun⟩ := hplan.inputs _ hid
    obtain rfl := List.inj_on_of_nodup_map hs.wf.proposalIds hp hq hqid.symm
    exact ⟨hopen, hrun⟩
  refine ⟨⟨hs.wf.runIds, ?_, ?_, ?_⟩, ?_, ?_, ?_, ?_, ?_, ?_, ?_, ?_⟩
  · simp only [ReviewDb.reviewWritten, List.map_map]
    rw [show Proposal.id ∘ Proposal.disposed body.extractionIds body.action.name.disposition
      = Proposal.id from funext (Proposal.disposed_id _ _)]
    exact hs.wf.proposalIds
  · rw [ReviewDb.reviewWritten_conflicts, List.map_map,
      show Conflict.id ∘ Conflict.resolvedBy _ = Conflict.id from funext (Conflict.resolvedBy_id _)]
    exact hs.wf.conflictIds
  · rw [ReviewDb.reviewWritten_conflicts]
    intro c hc m hm
    obtain ⟨c₀, hc₀, rfl⟩ := List.mem_map.mp hc
    rw [Conflict.resolvedBy_members] at hm
    obtain ⟨p, hp, rfl⟩ := hs.wf.members c₀ hc₀ m hm
    exact ⟨_, List.mem_map_of_mem hp, Proposal.disposed_id _ _ p⟩
  · simp only [ReviewDb.areFresh, Bool.and_eq_true, decide_eq_true_eq] at hfresh
    obtain ⟨⟨⟨⟨hnodup, hall⟩, -⟩, -⟩, -⟩ := hfresh
    have hpre := newRecords_ids_prefix plan.approvals fresh
    rw [ReviewDb.reviewWritten, List.map_append, List.nodup_append]
    refine ⟨hs.recordIds, hpre.sublist.nodup (List.nodup_append.mp hnodup).1, ?_⟩
    intro a ha b hb
    obtain ⟨r, hr, rfl⟩ := List.mem_map.mp ha
    have hb' : b ∈ fresh.recordIds ++ fresh.versionIds := List.mem_append_left _ (hpre.subset hb)
    have := List.all_eq_true.mp (List.all_eq_true.mp hall b hb') r hr
    rw [Bool.and_eq_true] at this
    simpa using this.1
  · intro r hr
    rcases List.mem_append.mp hr with hr | hr
    · exact hs.chained r hr
    · obtain ⟨a, -, recordId, versionId, rfl⟩ := mem_newRecords hr
      exact a.1.record_chained recordId versionId a.2
  · intro p hp
    obtain ⟨p₀, hp₀, rfl⟩ := List.mem_map.mp hp
    by_cases hid : p₀.id ∈ body.extractionIds
    · have hversion := hs.versions p₀ hp₀
      rw [(hinput p₀ hp₀ hid).1, if_pos rfl] at hversion
      simp [Proposal.disposed, hid, hversion, ActionName.disposition_closed]
    · rw [Proposal.disposed_of_notMem hid]
      exact hs.versions p₀ hp₀
  · intro p hp
    obtain ⟨p₀, hp₀, rfl⟩ := List.mem_map.mp hp
    rw [Proposal.disposed_runId]
    exact hs.owner p₀ hp₀
  · intro r hr hst p hp hid
    obtain ⟨p₀, hp₀, rfl⟩ := List.mem_map.mp hp
    rw [Proposal.disposed_runId] at hid
    by_cases hsel : p₀.id ∈ body.extractionIds
    · -- the run of an input waits for review
      have hrun := (hinput p₀ hp₀ hsel).2
      rw [hid, hs.wf.run?_eq.mpr ⟨hr, rfl⟩, Option.map_some, Option.some.injEq] at hrun
      rw [hrun] at hst
      simp at hst
    · rw [Proposal.disposed_of_notMem hsel]
      exact hs.early r hr hst p₀ hp₀ hid
  · rw [decided_reviewWritten, List.nodup_append]
    refine ⟨hs.once, (resolutionsOf_ids_perm body _ _).nodup_iff.mpr hplan.nodup, ?_⟩
    intro a ha b hb hab
    obtain ⟨d, hd, rfl⟩ := List.mem_map.mp ((resolutionsOf_ids_perm body _ _).subset hb)
    obtain ⟨c, hc, hid, hopen, -⟩ := hplan.decided d hd
    have := (hs.decided c hc).mpr (hid ▸ hab ▸ ha)
    rw [hopen] at this
    cases this
  · rw [ReviewDb.reviewWritten_conflicts, decided_reviewWritten]
    intro c hc
    obtain ⟨c₀, hc₀, rfl⟩ := List.mem_map.mp hc
    rw [Conflict.resolvedBy_status, Conflict.resolvedBy_id, List.mem_append, mem_resolutionsOf_ids,
      hs.decided c₀ hc₀, or_comm]
  · rw [ReviewDb.reviewWritten_conflicts, decided_reviewWritten]
    intro id hid
    have hex : ∃ c ∈ s.conflicts, c.id = id := by
      rcases List.mem_append.mp hid with hid | hid
      · exact hs.known id hid
      · obtain ⟨d, hd, rfl⟩ := List.mem_map.mp (mem_resolutionsOf_ids.mp hid)
        obtain ⟨c, hc, hcid, -⟩ := hplan.decided d hd
        exact ⟨c, hc, hcid⟩
    obtain ⟨c, hc, hcid⟩ := hex
    exact ⟨_, List.mem_map_of_mem hc, (Conflict.resolvedBy_id _ c).trans hcid⟩

/-- Completing runs keeps the tables. -/
theorem Tables.finishRuns (hs : Tables s) (db : ReviewDb) (ids : List String) :
    Tables { s with runs := s.runs.map (ReviewRun.finishedIn db ids) } := by
  refine ⟨⟨?_, hs.wf.proposalIds, hs.wf.conflictIds, hs.wf.members⟩, hs.recordIds, hs.chained,
    hs.versions, ?_, ?_, hs.once, hs.decided, hs.known⟩
  · rw [List.map_map, show ReviewRun.id ∘ ReviewRun.finishedIn db ids = ReviewRun.id from
      funext (ReviewRun.finishedIn_id db ids)]
    exact hs.wf.runIds
  · intro p hp
    obtain ⟨r, hr, hid⟩ := hs.owner p hp
    exact ⟨_, List.mem_map_of_mem hr, (ReviewRun.finishedIn_id db ids r).trans hid⟩
  · intro r hr hst p hp hid
    obtain ⟨r₀, hr₀, rfl⟩ := List.mem_map.mp hr
    rw [ReviewRun.finishedIn_id] at hid
    rcases ReviewRun.finishedIn_status db ids r₀ with heq | ⟨-, -, -, -, hdone⟩
    · rw [heq] at hst
      exact hs.early r₀ hr₀ hst p hp hid
    · rw [hdone] at hst
      simp at hst

/-- What is open after a review was open before it. -/
theorem hasOpenProposal_reviewWritten (body : ReviewBody) (plan : ReviewPlan) (fresh : FreshIds)
    {run : String} (h : (s.reviewWritten body plan fresh).hasOpenProposal run = true) :
    s.hasOpenProposal run = true := by
  obtain ⟨p, hp, hrun, hopen⟩ := ReviewDb.hasOpenProposal_iff.mp h
  obtain ⟨p₀, hp₀, rfl⟩ := List.mem_map.mp hp
  rw [Proposal.disposed_runId] at hrun
  refine ReviewDb.hasOpenProposal_iff.mpr ⟨p₀, hp₀, hrun, ?_⟩
  by_cases hid : p₀.id ∈ body.extractionIds
  · simp [Proposal.disposed, hid, ActionName.disposition_closed] at hopen
  · rwa [Proposal.disposed_of_notMem hid] at hopen

/-- A review opens no conflict. -/
theorem hasOpenConflict_reviewWritten (body : ReviewBody) (plan : ReviewPlan) (fresh : FreshIds)
    {run : String} (h : (s.reviewWritten body plan fresh).hasOpenConflict run = true) :
    s.hasOpenConflict run = true := by
  obtain ⟨c, hc, hopen, p, hp, hrun, hmem⟩ := ReviewDb.hasOpenConflict_iff.mp h
  rw [ReviewDb.reviewWritten_conflicts] at hc
  obtain ⟨c₀, hc₀, rfl⟩ := List.mem_map.mp hc
  obtain ⟨p₀, hp₀, rfl⟩ := List.mem_map.mp hp
  rw [Proposal.disposed_runId] at hrun
  rw [Proposal.disposed_id, Conflict.resolvedBy_members] at hmem
  refine ReviewDb.hasOpenConflict_iff.mpr ⟨c₀, hc₀, ?_, p₀, hp₀, hrun, hmem⟩
  cases hst : c₀.status with
  | opened => rfl
  | resolved =>
      rw [(Conflict.resolvedBy_status _ c₀).mpr (.inr hst)] at hopen
      cases hopen

/-- **A review** completes the runs it finishes and no others. -/
theorem Completed.review (hf : Completed s finished) (hs : Tables s) {body : ReviewBody}
    {plan : ReviewPlan} {fresh : FreshIds} (hplan : PlanOk T s body plan) :
    Completed (s.commitReview body plan fresh)
      (finished ++ finishedRuns (s.commitReview body plan fresh) plan) := by
  rw [ReviewDb.commitReview_eq]
  intro id hid
  rcases List.mem_append.mp hid with hid | hid
  · obtain ⟨⟨r, hr, hrid, hst⟩, hp, hc⟩ := hf id hid
    refine ⟨⟨r, List.mem_map.mpr ⟨r, hr, ?_⟩, hrid, hst⟩, ?_, ?_⟩
    · unfold ReviewRun.finishedIn
      rw [if_neg]
      rintro ⟨-, hwait, -⟩
      rw [hst] at hwait
      cases hwait
    · exact Bool.eq_false_iff.mpr fun h =>
        Bool.eq_false_iff.mp hp (hasOpenProposal_reviewWritten body plan fresh h)
    · exact Bool.eq_false_iff.mpr fun h =>
        Bool.eq_false_iff.mp hc (hasOpenConflict_reviewWritten body plan fresh h)
  · obtain ⟨hmem, hst⟩ := List.mem_filter.mp hid
    simp only [beq_iff_eq, Option.map_eq_some_iff] at hst
    obtain ⟨r, hr, hst⟩ := hst
    have hmem' := List.mem_of_find?_eq_some hr
    have hrid : r.id = id := by simpa using List.find?_some hr
    obtain ⟨r₀, hr₀, rfl⟩ := List.mem_map.mp hmem'
    rw [ReviewRun.finishedIn_id] at hrid
    -- the run of an input waited, so the review has completed it
    obtain ⟨p, hp, hpid, rfl⟩ := (hplan.runs id).mp hmem
    obtain ⟨q, hq, hqid, -, hrun⟩ := hplan.inputs _ hpid
    obtain rfl := List.inj_on_of_nodup_map hs.wf.proposalIds hp hq hqid.symm
    rw [hs.wf.run?_eq.mpr ⟨hr₀, hrid⟩, Option.map_some, Option.some.injEq] at hrun
    rcases ReviewRun.finishedIn_status (s.reviewWritten body plan fresh) plan.runs r₀ with
      heq | ⟨-, -, hnop, hnoc, -⟩
    · rw [heq, hrun] at hst
      cases hst
    · rw [hrid] at hnop hnoc
      exact ⟨⟨_, hmem', (ReviewRun.finishedIn_id _ _ r₀).trans hrid, hst⟩, hnop, hnoc⟩

/-- The run waits for review, and all that is open of it are conflicts with the proposals `ids`. -/
def ReviewDb.hangsOn (s : ReviewDb) (ids : List String) (run : String) : Bool :=
  (s.run? run).map ReviewRun.status == some .waitingReview && !s.hasOpenProposal run
    && s.hasOpenConflict run
    && s.conflicts.all fun c =>
      !(c.status == .opened && s.reaches run c) || c.members.any fun m => ids.contains m

/-- No review decides all the conflicts of a waiting run that has nothing else open. -/
def Desk.Settles (k : Desk) : DeskAct → Prop
  | .review body _ => ∀ r ∈ k.db.runs, k.db.hangsOn body.extractionIds r.id = false
  | _ => True

/-- A review touches the runs of the proposals it names and of the members of its conflicts. -/
theorem mem_touchedRuns {body : ReviewBody} {id : String} :
    id ∈ touchedRuns s body ↔ ∃ p ∈ s.proposals, p.runId = id ∧ (p.id ∈ body.extractionIds
      ∨ ∃ c ∈ s.conflicts, c.id ∈ body.conflictResolution.map ConflictDecision.conflictId
        ∧ p.id ∈ c.members) := by
  simp only [touchedRuns, List.mem_map, List.mem_filter, Bool.or_eq_true, List.contains_iff_mem,
    List.mem_flatMap]
  constructor
  · rintro ⟨p, ⟨hp, h⟩, rfl⟩
    refine ⟨p, hp, rfl, h.imp_right ?_⟩
    rintro ⟨c, ⟨hc, hid⟩, hm⟩
    exact ⟨c, hc, hid, hm⟩
  · rintro ⟨p, hp, rfl, h⟩
    refine ⟨p, ⟨hp, h.imp_right ?_⟩, rfl⟩
    rintro ⟨c, hc, hid, hm⟩
    exact ⟨c, ⟨hc, hid⟩, hm⟩

/-- An open conflict without an input of the review stays open. -/
theorem hasOpenConflict_of_untouched {body : ReviewBody} {plan : ReviewPlan} {fresh : FreshIds}
    (hs : s.WF) (hplan : PlanOk T s body plan) {run : String} {c : Conflict} (hc : c ∈ s.conflicts)
    (hopen : c.status = .opened) (hreach : s.reaches run c = true)
    (hun : ∀ m ∈ c.members, m ∉ body.extractionIds) :
    (s.reviewWritten body plan fresh).hasOpenConflict run = true := by
  have hkept : c.resolvedBy (body.conflictResolution.map ConflictDecision.conflictId) = c := by
    refine Conflict.resolvedBy_of_notMem fun hmem => ?_
    obtain ⟨d, hd, hid⟩ := List.mem_map.mp hmem
    obtain ⟨c', hc', hcid, -, ⟨m, hm, hsel⟩, -⟩ := hplan.decided d hd
    obtain rfl := List.inj_on_of_nodup_map hs.conflictIds hc hc' (hid.symm.trans hcid.symm)
    exact hun m hm hsel
  simp only [ReviewDb.reaches, List.any_eq_true, Bool.and_eq_true, beq_iff_eq,
    List.contains_iff_mem] at hreach
  obtain ⟨p, hp, hrun, hmem⟩ := hreach
  refine ReviewDb.hasOpenConflict_iff.mpr ⟨c, ?_, hopen, _, List.mem_map_of_mem hp,
    (Proposal.disposed_runId _ _ p).trans hrun, ?_⟩
  · rw [ReviewDb.reviewWritten_conflicts]
    exact List.mem_map.mpr ⟨c, hc, hkept⟩
  · rw [Proposal.disposed_id]
    exact hmem

/-- A waiting run without an input of the review keeps something open. -/
theorem Waiting.kept_of_no_input (hw : Waiting s reviewed) (hs : Tables s) {body : ReviewBody}
    {plan : ReviewPlan} {fresh : FreshIds} (hplan : PlanOk T s body plan) {r : ReviewRun}
    (hr : r ∈ s.runs) (hwait : r.status = .waitingReview)
    (htouched : r.id ∈ reviewed ++ touchedRuns s body)
    (hsettles : s.hangsOn body.extractionIds r.id = false) (hno : r.id ∉ plan.runs) :
    (s.reviewWritten body plan fresh).hasOpenProposal r.id = true
      ∨ (s.reviewWritten body plan fresh).hasOpenConflict r.id = true := by
  have hnot : ∀ p ∈ s.proposals, p.runId = r.id → p.id ∉ body.extractionIds :=
    fun p hp hid hsel => hno ((hplan.runs r.id).mpr ⟨p, hp, hsel, hid⟩)
  by_cases hopen : s.hasOpenProposal r.id = true
  · left
    obtain ⟨p, hp, hid, hst⟩ := ReviewDb.hasOpenProposal_iff.mp hopen
    exact ReviewDb.hasOpenProposal_iff.mpr ⟨p, List.mem_map.mpr
      ⟨p, hp, Proposal.disposed_of_notMem (hnot p hp hid)⟩, hid, hst⟩
  · right
    have hconflict : s.hasOpenConflict r.id = true := by
      rcases List.mem_append.mp htouched with hrev | htouch
      · exact (hw.waits r hr hrev hwait).resolve_left hopen
      · obtain ⟨p, hp, hid, hsel | ⟨c, hc, hcid, hm⟩⟩ := mem_touchedRuns.mp htouch
        · exact absurd hsel (hnot p hp hid)
        · obtain ⟨d, hd, hdid⟩ := List.mem_map.mp hcid
          obtain ⟨c', hc', hcid', hst, -⟩ := hplan.decided d hd
          obtain rfl :=
            List.inj_on_of_nodup_map hs.wf.conflictIds hc hc' (hdid.symm.trans hcid'.symm)
          exact ReviewDb.hasOpenConflict_iff.mpr ⟨c, hc, hst, p, hp, hid, hm⟩
    -- a conflict that the review does not decide
    have hall : ¬ (s.conflicts.all fun c => !(c.status == .opened && s.reaches r.id c)
        || c.members.any fun m => body.extractionIds.contains m) = true := by
      intro hall
      rw [ReviewDb.hangsOn, hs.wf.run?_eq.mpr ⟨hr, rfl⟩, Option.map_some, hwait,
        Bool.eq_false_iff.mpr hopen, hconflict, hall] at hsettles
      cases hsettles
    rw [List.all_eq_true] at hall
    push Not at hall
    obtain ⟨c, hc, hfree⟩ := hall
    simp only [ne_eq, Bool.or_eq_true, Bool.not_eq_true', Bool.and_eq_false_iff, not_or,
      Bool.not_eq_false, List.any_eq_true, List.contains_iff_mem, not_exists,
      not_and, beq_eq_false_iff_ne, not_not] at hfree
    exact hasOpenConflict_of_untouched hs.wf hplan hc hfree.1.1 hfree.1.2 hfree.2

/-- **A review that settles its runs** leaves the others waiting. -/
theorem Waiting.review (hw : Waiting s reviewed) (hs : Tables s) {body : ReviewBody}
    {plan : ReviewPlan} {fresh : FreshIds} (hplan : PlanOk T s body plan)
    (hsettles : ∀ r ∈ s.runs, s.hangsOn body.extractionIds r.id = false) :
    Waiting (s.commitReview body plan fresh) (reviewed ++ touchedRuns s body) := by
  rw [ReviewDb.commitReview_eq]
  refine ⟨?_, ?_⟩
  · intro id hid
    have hex : ∃ p ∈ s.proposals, p.runId = id := by
      rcases List.mem_append.mp hid with hid | hid
      · exact hw.touched id hid
      · obtain ⟨p, hp, hrun, -⟩ := mem_touchedRuns.mp hid
        exact ⟨p, hp, hrun⟩
    obtain ⟨p, hp, hrun⟩ := hex
    exact ⟨_, List.mem_map_of_mem hp, (Proposal.disposed_runId _ _ p).trans hrun⟩
  · intro r hr hid hst
    obtain ⟨r₀, hr₀, rfl⟩ := List.mem_map.mp hr
    rcases ReviewRun.finishedIn_status (s.reviewWritten body plan fresh) plan.runs r₀ with
      heq | ⟨-, -, -, -, hdone⟩
    · rw [heq] at hid hst ⊢
      show (s.reviewWritten body plan fresh).hasOpenProposal r₀.id = true
        ∨ (s.reviewWritten body plan fresh).hasOpenConflict r₀.id = true
      by_cases hrun : r₀.id ∈ plan.runs
      · -- the review has looked at the run and left it waiting
        by_contra hnone
        simp only [not_or, Bool.not_eq_true] at hnone
        have : (r₀.finishedIn (s.reviewWritten body plan fresh) plan.runs).status = .succeeded := by
          rw [ReviewRun.finishedIn, if_pos ⟨hrun, hst, hnone.1, hnone.2⟩]
        rw [heq, hst] at this
        cases this
      · exact hw.kept_of_no_input hs hplan hr₀ hst hid (hsettles r₀ hr₀) hrun
    · rw [hdone] at hst
      cases hst

/-! ## The system -/

/-- The command raises. -/
def Desk.Raises (T : Revalidation) (k : Desk) : DeskAct → Prop
  | .createRun _ => False
  | .persist runId proposals conflicts => ∃ e,
      k.db.persistOutputs runId proposals conflicts = .error e
  | .setStatus runId status => ∃ e, k.db.setRunStatus runId status = .error e
  | .cancel runId => ∃ e, k.db.cancelRun runId = .error e
  | .review body _ => ∃ e, T.planReview k.db body = .error e
  | .correct c _ => ∃ e, T.planCorrection k.db c = .error e

/-- A call that raises changes nothing. -/
theorem Desk.step_of_raises {k : Desk} {a : DeskAct} (h : k.Raises T a) : k.step T a = some k := by
  cases a with
  | createRun run => exact h.elim
  | persist runId proposals conflicts =>
      obtain ⟨e, he⟩ := h
      simp only [Desk.step, he]
  | setStatus runId status =>
      obtain ⟨e, he⟩ := h
      simp only [Desk.step, he]
  | cancel runId =>
      obtain ⟨e, he⟩ := h
      simp only [Desk.step, he]
  | review body fresh =>
      obtain ⟨e, he⟩ := h
      simp only [Desk.step, he]
  | correct c versionId =>
      obtain ⟨e, he⟩ := h
      simp only [Desk.step, he]

/-- What one step can do. -/
inductive Desk.Does (T : Revalidation) (k : Desk) : DeskAct → Desk → Prop where
  | nothing (a : DeskAct) : Does T k a k
  | createRun (run : ReviewRun) (hst : run.status = .queued)
      (hnew : (k.db.run? run.id).isNone = true) :
      Does T k (.createRun run) { k with db := { k.db with runs := k.db.runs ++ [run] } }
  | persist (runId : String) (proposals : List NewProposal) (conflicts : List NewConflict)
      (db : ReviewDb)
      (h : k.db.persistOutputs runId proposals conflicts = .ok db) :
      Does T k (.persist runId proposals conflicts) { k with db := db }
  | status (a : DeskAct) (runId : String) (status : RunStatus) (db : ReviewDb)
      (ha : a = .setStatus runId status ∨ a = .cancel runId)
      (h : k.db.setRunStatus runId status = .ok db) : Does T k a { k with db := db }
  | review (body : ReviewBody) (fresh : FreshIds) (plan : ReviewPlan)
      (h : T.planReview k.db body = .ok plan) (hfresh : k.db.areFresh fresh plan.approvals.length
        = true) :
      Does T k (.review body fresh) ⟨k.db.commitReview body plan fresh,
        k.finished ++ finishedRuns (k.db.commitReview body plan fresh) plan,
        k.reviewed ++ touchedRuns k.db body⟩
  | correct (c : Correction) (versionId : String) (old : ApprovedVersion) (d : Draft)
      (h : T.planCorrection k.db c = .ok (old, d)) (hfresh : k.db.isFreshId versionId = true) :
      Does T k (.correct c versionId)
        { k with db := k.db.commitCorrection c.recordId old d versionId }

/-- **What one step can do.** -/
theorem Desk.step_does {k k' : Desk} {a : DeskAct} (h : k.step T a = some k') : k.Does T a k' := by
  cases a with
  | createRun run =>
      simp only [Desk.step] at h
      split_ifs at h with hc
      obtain rfl := Option.some.inj h
      exact .createRun run hc.1 hc.2
  | persist runId proposals conflicts =>
      simp only [Desk.step] at h
      cases hp : k.db.persistOutputs runId proposals conflicts with
      | ok db =>
          rw [hp] at h
          obtain rfl := Option.some.inj h
          exact .persist runId proposals conflicts db hp
      | error e =>
          rw [hp] at h
          obtain rfl := Option.some.inj h
          exact .nothing _
  | setStatus runId status =>
      simp only [Desk.step] at h
      cases hp : k.db.setRunStatus runId status with
      | ok db =>
          rw [hp] at h
          obtain rfl := Option.some.inj h
          exact .status _ runId status db (.inl rfl) hp
      | error e =>
          rw [hp] at h
          obtain rfl := Option.some.inj h
          exact .nothing _
  | cancel runId =>
      simp only [Desk.step] at h
      cases hp : k.db.cancelRun runId with
      | ok db =>
          rw [hp] at h
          obtain rfl := Option.some.inj h
          rcases cancelRun_eq_ok hp with rfl | hset
          · exact .nothing _
          · exact .status _ runId .cancelled db (.inr rfl) hset
      | error e =>
          rw [hp] at h
          obtain rfl := Option.some.inj h
          exact .nothing _
  | review body fresh =>
      simp only [Desk.step] at h
      cases hp : T.planReview k.db body with
      | ok plan =>
          rw [hp] at h
          simp only at h
          split_ifs at h with hf
          obtain rfl := Option.some.inj h
          exact .review body fresh plan hp hf
      | error e =>
          rw [hp] at h
          obtain rfl := Option.some.inj h
          exact .nothing _
  | correct c versionId =>
      simp only [Desk.step] at h
      cases hp : T.planCorrection k.db c with
      | ok found =>
          obtain ⟨old, d⟩ := found
          rw [hp] at h
          simp only at h
          split_ifs at h with hf
          obtain rfl := Option.some.inj h
          exact .correct c versionId old d hp hf
      | error e =>
          rw [hp] at h
          obtain rfl := Option.some.inj h
          exact .nothing _

/-- The tables after a step. -/
theorem Tables.step {k k' : Desk} {a : DeskAct} (hs : Tables k.db) (h : k.step T a = some k') :
    Tables k'.db := by
  cases Desk.step_does h with
  | nothing => exact hs
  | createRun run hst hnew => exact hs.createRun hnew
  | persist runId proposals conflicts db hop => exact (persistOutputs_persisted hs hop).tables hs
  | status a runId status db ha hop => exact (setRunStatus_kept hs hop).1
  | review body fresh plan hop hfresh =>
      show Tables (k.db.commitReview body plan fresh)
      rw [ReviewDb.commitReview_eq]
      exact (hs.reviewWritten (hs.wf.planOk hop) hfresh).finishRuns _ plan.runs
  | correct c versionId old d hop hfresh => exact hs.correct hop hfresh

/-- **A step of the desk** completes the runs it reports. -/
theorem Completed.step {k k' : Desk} {a : DeskAct} (hf : Completed k.db k.finished)
    (hs : Tables k.db)
    (h : k.step T a = some k') : Completed k'.db k'.finished := by
  cases Desk.step_does h with
  | nothing => exact hf
  | createRun run hst hnew => exact hf.createRun
  | persist runId proposals conflicts db hop =>
      exact (persistOutputs_persisted hs hop).completed _ hs hf
  | status a runId status db ha hop => exact (setRunStatus_kept hs hop).2.1 _ hf
  | review body fresh plan hop hfresh => exact hf.review hs (hs.wf.planOk hop)
  | correct c versionId old d hop hfresh => exact hf

/-- **A step that settles its runs** leaves the others waiting. -/
theorem Waiting.step {k k' : Desk} {a : DeskAct} (hw : Waiting k.db k.reviewed) (hs : Tables k.db)
    (hsettles : k.Settles a) (h : k.step T a = some k') : Waiting k'.db k'.reviewed := by
  cases Desk.step_does h with
  | nothing => exact hw
  | createRun run hst hnew => exact hw.createRun hst
  | persist runId proposals conflicts db hop =>
      exact (persistOutputs_persisted hs hop).waiting _ hs hw
  | status a runId status db ha hop => exact (setRunStatus_kept hs hop).2.2 _ hw
  | review body fresh plan hop hfresh => exact hw.review hs (hs.wf.planOk hop) hsettles
  | correct c versionId old d hop hfresh => exact ⟨hw.touched, hw.waits⟩

/-- How proposals and conflicts can change, and when a review completes a run. -/
structure Desk.Evolves (k : Desk) (a : DeskAct) (k' : Desk) : Prop where
  /-- A proposal stays, or it is open and is accepted, rejected or superseded in its next version.
  -/
  proposals : ∀ p ∈ k.db.proposals, p ∈ k'.db.proposals ∨ (p.state.isOpen = true
    ∧ ∃ state, state.isOpen = false
      ∧ { p with state := state, version := p.version + 1 } ∈ k'.db.proposals)
  /-- A resolved conflict stays. -/
  conflicts : ∀ c ∈ k.db.conflicts, c.status = .resolved → c ∈ k'.db.conflicts
  /-- A run that a review lets succeed is recorded as completed. -/
  completes : ∀ body fresh, a = .review body fresh → ∀ r ∈ k.db.runs, r.status ≠ .succeeded →
    ∀ r' ∈ k'.db.runs, r'.id = r.id → r'.status = .succeeded → r.id ∈ k'.finished

/-- A review evolves the rows as the state machine allows. -/
theorem Desk.evolves_review {k : Desk} (hs : Tables k.db) {body : ReviewBody} {plan : ReviewPlan}
    (hplan : PlanOk T k.db body plan) (fresh : FreshIds) :
    k.Evolves (.review body fresh) ⟨k.db.commitReview body plan fresh,
      k.finished ++ finishedRuns (k.db.commitReview body plan fresh) plan,
      k.reviewed ++ touchedRuns k.db body⟩ := by
  refine ⟨?_, ?_, ?_⟩
  · intro p hp
    show p ∈ (k.db.commitReview body plan fresh).proposals ∨ _
    rw [ReviewDb.commitReview_eq]
    by_cases hid : p.id ∈ body.extractionIds
    · obtain ⟨q, hq, hqid, hopen, -⟩ := hplan.inputs _ hid
      obtain rfl := List.inj_on_of_nodup_map hs.wf.proposalIds hp hq hqid.symm
      refine .inr ⟨hopen, body.action.name.disposition, ActionName.disposition_closed _, ?_⟩
      exact List.mem_map.mpr ⟨p, hp, by simp [Proposal.disposed, hid]⟩
    · exact .inl (List.mem_map.mpr ⟨p, hp, Proposal.disposed_of_notMem hid⟩)
  · intro c hc hst
    show c ∈ (k.db.commitReview body plan fresh).conflicts
    rw [ReviewDb.commitReview_eq]
    show c ∈ (k.db.reviewWritten body plan fresh).conflicts
    rw [ReviewDb.reviewWritten_conflicts]
    refine List.mem_map.mpr ⟨c, hc, ?_⟩
    unfold Conflict.resolvedBy
    split_ifs
    · rw [← hst]
    · rfl
  · rintro body' fresh' - r hr hst r' hr' hid hst'
    refine List.mem_append_right _ (List.mem_filter.mpr ⟨?_, ?_⟩)
    · -- only the runs of the inputs are completed
      have hmem : r' ∈ (k.db.commitReview body plan fresh).runs := hr'
      rw [ReviewDb.commitReview_eq] at hmem
      obtain ⟨r₀, hr₀, rfl⟩ := List.mem_map.mp hmem
      rw [ReviewRun.finishedIn_id] at hid
      obtain rfl := List.inj_on_of_nodup_map hs.wf.runIds hr₀ hr hid
      rcases ReviewRun.finishedIn_status (k.db.reviewWritten body plan fresh) plan.runs r₀ with
        heq | ⟨hrun, -⟩
      · rw [heq] at hst'
        exact absurd hst' hst
      · exact hrun
    · have hids : ((k.db.commitReview body plan fresh).runs.map ReviewRun.id).Nodup := by
        rw [ReviewDb.commitReview_eq, List.map_map,
          show ReviewRun.id ∘ ReviewRun.finishedIn (k.db.reviewWritten body plan fresh) plan.runs
            = ReviewRun.id from funext (ReviewRun.finishedIn_id _ _)]
        exact hs.wf.runIds
      have hfind : (k.db.commitReview body plan fresh).run? r.id = some r' :=
        (find?_eq_some_iff_of_nodup hids).mpr ⟨hr', hid⟩
      rw [hfind, Option.map_some, hst']
      rfl

/-- **A step of the desk** evolves the rows as the state machine allows. -/
theorem Desk.evolves {k k' : Desk} {a : DeskAct} (hs : Tables k.db) (h : k.step T a = some k') :
    k.Evolves a k' := by
  cases Desk.step_does h with
  | nothing =>
      refine ⟨fun p hp => .inl hp, fun c hc _ => hc, ?_⟩
      rintro body fresh - r hr hst r' hr' hid hst'
      rw [List.inj_on_of_nodup_map hs.wf.runIds hr' hr hid] at hst'
      exact absurd hst' hst
  | createRun run hst hnew =>
      refine ⟨fun p hp => .inl hp, fun c hc _ => hc, ?_⟩
      rintro body fresh ⟨⟩
  | persist runId proposals conflicts db hop =>
      have hp := persistOutputs_persisted hs hop
      refine ⟨fun p hmem => .inl (hp.proposals hmem), hp.resolved, ?_⟩
      rintro body fresh ⟨⟩
  | status a runId status db ha hop =>
      obtain ⟨run, -, -, -, -, rfl⟩ := setRunStatus_eq_ok hs.wf hop
      refine ⟨fun p hp => .inl hp, fun c hc _ => hc, ?_⟩
      rintro body fresh rfl
      rcases ha with ha | ha
      · cases ha
      · cases ha
  | review body fresh plan hop hfresh => exact Desk.evolves_review hs (hs.wf.planOk hop) fresh
  | correct c versionId old d hop hfresh =>
      refine ⟨fun p hp => .inl hp, fun c hc _ => hc, ?_⟩
      rintro body fresh ⟨⟩

/-- In a list of lists without repetitions an element lies in one of them. -/
theorem countP_contains_of_nodup {α : Type} {l : List α} {f : α → List String} {a : String}
    (h : (l.flatMap f).Nodup) (ha : a ∈ l.flatMap f) :
    l.countP (fun x => (f x).contains a) = 1 := by
  induction l with
  | nil => simp at ha
  | cons x l ih =>
      rw [List.flatMap_cons, List.nodup_append] at h
      rw [List.flatMap_cons, List.mem_append] at ha
      obtain ⟨-, hl, hdisj⟩ := h
      by_cases hx : a ∈ f x
      · have hzero : l.countP (fun x => (f x).contains a) = 0 := by
          rw [List.countP_eq_zero]
          intro y hy hmem
          exact hdisj a hx a (List.mem_flatMap.mpr ⟨y, hy, by simpa using hmem⟩) rfl
        rw [List.countP_cons_of_pos (by simpa using hx), hzero]
      · rw [List.countP_cons_of_neg (by simpa using hx)]
        exact ih hl (ha.resolve_left hx)

/-- What the review tables promise in a state. -/
structure Desk.Safe (k : Desk) : Prop where
  proposalIds : (k.db.proposals.map Proposal.id).Nodup
  conflictIds : (k.db.conflicts.map Conflict.id).Nodup
  /-- A proposal has been disposed at most once. -/
  versions : ∀ p ∈ k.db.proposals, p.version = if p.state.isOpen then 1 else 2
  /-- A run that a review has completed has no open proposal and no open conflict. -/
  completed : ∀ id ∈ k.finished, k.db.hasOpenProposal id = false ∧ k.db.hasOpenConflict id = false
  /-- A run that waits after its last review has an open proposal or an open conflict. -/
  waiting : ∀ r ∈ k.db.runs, r.id ∈ k.reviewed → r.status = .waitingReview →
    k.db.hasOpenProposal r.id = true ∨ k.db.hasOpenConflict r.id = true
  /-- One review has resolved a resolved conflict. -/
  resolved : ∀ c ∈ k.db.conflicts, c.status = .resolved →
    k.db.reviews.countP (fun r => (r.resolutions.map Prod.fst).contains c.id) = 1
  chained : ∀ r ∈ k.db.records, r.Chained

theorem Tables.init : Tables Desk.init.db := by
  refine ⟨⟨List.nodup_nil, List.nodup_nil, List.nodup_nil, ?_⟩, List.nodup_nil, ?_, ?_, ?_, ?_,
    List.nodup_nil, ?_, ?_⟩ <;>
  · intro x hx
    cases hx

/-- **The review state machine.**  In every run in which no review decides all the conflicts of a
waiting run that has nothing else open. -/
theorem review_state_machine {T : Revalidation} {acts : List DeskAct} {k : Desk}
    (hC : Admits (Desk.step T) Desk.Settles Desk.init acts)
    (h : run (Desk.step T) Desk.init acts = some k) :
    k.Safe ∧ (∀ a k', k.step T a = some k' → k.Evolves a k')
      ∧ ∀ a, k.Raises T a → k.step T a = some k := by
  have hinv : Tables k.db ∧ Completed k.db k.finished ∧ Waiting k.db k.reviewed := by
    refine run_invariant_of_admits (P := fun k => Tables k.db ∧ Completed k.db k.finished
      ∧ Waiting k.db k.reviewed) ?_ ?_ hC h
    · rintro k a k' ⟨hs, hf, hw⟩ hsettles hstep
      exact ⟨hs.step hstep, hf.step hs hstep, hw.step hs hsettles hstep⟩
    · refine ⟨Tables.init, ?_, ?_, ?_⟩
      · intro id hid
        cases hid
      · intro id hid
        cases hid
      · intro r hr
        cases hr
  obtain ⟨hs, hf, hw⟩ := hinv
  refine ⟨⟨hs.wf.proposalIds, hs.wf.conflictIds, hs.versions, fun id hid => (hf id hid).2, hw.waits,
    ?_, hs.chained⟩, fun a k' hstep => Desk.evolves hs hstep, fun a => Desk.step_of_raises⟩
  intro c hc hst
  exact countP_contains_of_nodup hs.once ((hs.decided c hc).mp hst)

/-! ### A run left behind -/

/-- A revalidation that compares nothing: rejections do not revalidate. -/
def Revalidation.inert : Revalidation where
  hash := fun _ => ""
  canonicalUnit := id
  magnitude := fun value _ => value
  knownMetrics := []
  etag := fun g => g.id
  versionEtag := fun v => v.id
  validated := fun rows => .ok (rows.map fun r =>
    ⟨"kpi", r.metricId, r.payload, none, [], false, r.evidence⟩)
  pinsCurrent := fun _ => true
  fits := fun _ => true
  same := fun _ _ => true

def NewProposal.sample (id : String) : NewProposal := ⟨id, "revenue", .obj [], [], .obj []⟩

/-- A rejection of proposals in their first version. -/
def rejection (ids : List String) (unique : ids.Nodup) (decisions : List ConflictDecision) :
    ReviewBody :=
  ⟨.reject, ids, ids.map fun id => (id, 1), "no", decisions, unique⟩

/-- A run is rejected in full, but for a conflict that its worker stores late. -/
def lateConflict : List DeskAct :=
  [.createRun ⟨"r", "w", .queued, false⟩, .setStatus "r" .running,
    .persist "r" [.sample "q1", .sample "q2", .sample "q3"] [], .setStatus "r" .waitingReview,
    .review (rejection ["q1", "q2"] (by decide) []) ⟨"v1", [], []⟩,
    .persist "r" [] [⟨"g", "k", [], ["q1", "q2"]⟩],
    .review (rejection ["q3"] (by decide) []) ⟨"v2", [], []⟩]

/-- A second run joins the conflict, and a review of its proposals decides it. -/
def sharedConflict : List DeskAct :=
  [.createRun ⟨"s", "w", .queued, false⟩, .setStatus "s" .running,
    .persist "s" [.sample "s1", .sample "s2"] [⟨"h", "k", [], ["s1", "s2"]⟩],
    .setStatus "s" .waitingReview,
    .review (rejection ["s1", "s2"] (by decide)
      [⟨"g", "g", [("q1", 2), ("q2", 2), ("s1", 1), ("s2", 1)], [], "no"⟩]) ⟨"v3", [], []⟩]

/-- The first run waits on with nothing open, after a review of the second one. -/
theorem waiting_run_left_behind :
    ∃ k, run (Desk.step .inert) Desk.init (lateConflict ++ sharedConflict) = some k
      ∧ ∃ r ∈ k.db.runs, r.id ∈ k.reviewed ∧ r.status = .waitingReview
        ∧ k.db.hasOpenProposal r.id = false ∧ k.db.hasOpenConflict r.id = false := by
  refine ⟨_, rfl, ⟨"r", "w", .waitingReview, false⟩, ?_⟩
  decide

instance decidableSettles (k : Desk) : (a : DeskAct) → Decidable (k.Settles a)
  | .createRun _ | .persist _ _ _ | .setStatus _ _ | .cancel _ | .correct _ _ => .isTrue trivial
  | .review body _ =>
      inferInstanceAs (Decidable (∀ r ∈ k.db.runs, k.db.hangsOn body.extractionIds r.id = false))

/-- Up to the second run nothing is left behind: the first one waits for its conflict. -/
theorem review_state_machine_lateConflict :
    Admits (Desk.step .inert) Desk.Settles Desk.init lateConflict
      ∧ ∃ k, run (Desk.step .inert) Desk.init lateConflict = some k ∧ k.Safe
        ∧ k.db.hasOpenConflict "r" = true := by
  have hC : Admits (Desk.step .inert) Desk.Settles Desk.init lateConflict := by decide
  refine ⟨hC, _, rfl, (review_state_machine hC rfl).1, ?_⟩
  decide

end Extraction
