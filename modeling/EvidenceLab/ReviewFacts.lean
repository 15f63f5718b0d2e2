/-
# What the review commands find and write

One inversion lemma for each command: what the database had when the command did not raise, and what
it has afterwards.

* `ReviewDb.WF`: ids are unique and the members of conflicts exist.
* `planReview_eq_ok`: the checks that the plan of a review has passed.
* `Grows`: what the worker's persistence can add.
-/
import EvidenceLab.ReviewCommands

namespace Extraction

open Except

/-! ## Rows under an id -/

/-- In a table with unique ids a lookup finds the row with the id. -/
theorem find?_eq_some_iff_of_nodup {α : Type} {f : α → String} {l : List α} {k : String} {a : α}
    (h : (l.map f).Nodup) : l.find? (fun x => f x == k) = some a ↔ a ∈ l ∧ f a = k := by
  constructor
  · intro hf
    exact ⟨List.mem_of_find?_eq_some hf, by simpa using List.find?_some hf⟩
  · rintro ⟨ha, hk⟩
    cases hf : l.find? (fun x => f x == k) with
    | none =>
        have := List.find?_eq_none.mp hf a ha
        simp [hk] at this
    | some b =>
        have hb := List.mem_of_find?_eq_some hf
        have hbk : f b = k := by simpa using List.find?_some hf
        rw [List.inj_on_of_nodup_map h hb ha (hbk.trans hk.symm)]

/-- Ids are unique, and the members of a conflict are proposals. -/
structure ReviewDb.WF (s : ReviewDb) : Prop where
  runIds : (s.runs.map ReviewRun.id).Nodup
  proposalIds : (s.proposals.map Proposal.id).Nodup
  conflictIds : (s.conflicts.map Conflict.id).Nodup
  members : ∀ c ∈ s.conflicts, ∀ m ∈ c.members, ∃ p ∈ s.proposals, p.id = m

variable {s : ReviewDb}

/-- A run is found under its identifier. -/
theorem ReviewDb.WF.run?_eq (h : s.WF) {id : String} {r : ReviewRun} :
    s.run? id = some r ↔ r ∈ s.runs ∧ r.id = id :=
  find?_eq_some_iff_of_nodup h.runIds

theorem ReviewDb.WF.proposal?_eq (h : s.WF) {id : String} {p : Proposal} :
    s.proposal? id = some p ↔ p ∈ s.proposals ∧ p.id = id :=
  find?_eq_some_iff_of_nodup h.proposalIds

theorem ReviewDb.WF.conflict?_eq (h : s.WF) {id : String} {c : Conflict} :
    s.conflict? id = some c ↔ c ∈ s.conflicts ∧ c.id = id :=
  find?_eq_some_iff_of_nodup h.conflictIds

/-! ## Discovery -/

/-- The details of a conflict show its members with their versions. -/
theorem detail_eq_ok {id : String} {g : ConflictDetail} (h : s.detail id = .ok g) :
    ∃ c, s.conflict? id = some c ∧ g.id = c.id ∧ g.status = c.status
      ∧ g.memberVersions = (s.proposals.filter fun p => c.members.contains p.id).map
          (fun p => (p.id, p.version))
      ∧ g.resolution = (s.reviews.filterMap fun r =>
          (r.resolutions.find? fun e => e.1 == id).map Prod.snd).head? := by
  simp only [ReviewDb.detail, bind_eq_ok_iff, orRaise_eq_ok_iff, pure_eq_ok, Except.ok.injEq] at h
  obtain ⟨c, hc, -, -, -, -, -, -, -, -, rfl⟩ := h
  exact ⟨c, hc, rfl, rfl, rfl, rfl⟩

/-- The members of a group are those of its conflict. -/
theorem ReviewDb.WF.mem_members (hs : s.WF) {c : Conflict} (hc : c ∈ s.conflicts)
    {g : ConflictDetail}
    (h : g.memberVersions = (s.proposals.filter fun p => c.members.contains p.id).map
      (fun p => (p.id, p.version))) {m : String} : m ∈ g.members ↔ m ∈ c.members := by
  simp only [ConflictDetail.members, h, List.map_map, List.mem_map, List.mem_filter,
    Function.comp_apply, List.contains_iff_mem]
  constructor
  · rintro ⟨p, ⟨-, hp⟩, rfl⟩
    exact hp
  · intro hm
    obtain ⟨p, hp, rfl⟩ := hs.members c hc m hm
    exact ⟨p, ⟨hp, hm⟩, rfl⟩

/-- The runs that a command locks contain those it started from. -/
theorem subset_expandRuns {rounds : ℕ} {runIds out : List String}
    (h : s.expandRuns rounds runIds = .ok out) : runIds ⊆ out := by
  induction rounds generalizing runIds with
  | zero => cases h
  | succ rounds ih =>
      simp only [ReviewDb.expandRuns, bind_eq_ok_iff] at h
      obtain ⟨-, -, -, -, h⟩ := h
      split at h
      · rw [pure_eq_ok, Except.ok.injEq] at h
        rw [← h]
        intro r hr
        simpa using hr
      · exact fun r hr => ih h (List.mem_append_left _ hr)

/-- What `_discover` has found. -/
theorem discover_eq_ok {ids runIds : List String} {groups : List ConflictDetail}
    (h : s.discover ids = .ok (runIds, groups)) :
    (∀ id ∈ ids, ∃ p ∈ s.proposals, p.id = id)
      ∧ (((s.conflicts.filter fun c => c.members.any fun m => ids.contains m).map
          Conflict.id).insertionSort (· ≤ ·)).mapM s.detail = .ok groups
      ∧ ∀ p ∈ s.proposals, (p.id ∈ ids ∨ ∃ g ∈ groups, p.id ∈ g.members) → p.runId ∈ runIds := by
  simp only [ReviewDb.discover, bind_eq_ok_iff, raiseIf_eq_ok_iff] at h
  obtain ⟨-, hall, -, -, -, -, groups', hgroups, -, -, runIds', hexp, hret⟩ := h
  rw [pure_eq_ok, Except.ok.injEq, Prod.mk.injEq] at hret
  obtain ⟨rfl, rfl⟩ := hret
  refine ⟨?_, hgroups, ?_⟩
  · intro id hid
    have := List.all_eq_true.mp (not_not.mp hall) id hid
    obtain ⟨p, hp, hpid⟩ := List.any_eq_true.mp this
    exact ⟨p, (List.mem_filter.mp hp).1, by simpa using hpid⟩
  · intro p hp hin
    refine subset_expandRuns hexp ?_
    simp only [List.mem_dedup, List.mem_map, List.mem_filter, Bool.or_eq_true,
      List.contains_iff_mem, List.mem_flatMap]
    exact ⟨p, ⟨hp, hin⟩, rfl⟩

/-- The groups of a discovery are the conflicts of the proposals. -/
theorem ReviewDb.WF.group_of_conflict (hs : s.WF) {ids runIds : List String}
    {groups : List ConflictDetail} (h : s.discover ids = .ok (runIds, groups)) {c : Conflict}
    (hc : c ∈ s.conflicts) {m : String} (hm : m ∈ c.members) (hid : m ∈ ids) :
    ∃ g ∈ groups, g.id = c.id ∧ g.status = c.status ∧ ∀ m', m' ∈ g.members ↔ m' ∈ c.members := by
  obtain ⟨-, hgroups, -⟩ := discover_eq_ok h
  have hmem : c.id ∈ (s.conflicts.filter fun c => c.members.any fun m => ids.contains m).map
      Conflict.id :=
    List.mem_map.mpr ⟨c, List.mem_filter.mpr
      ⟨hc, List.any_eq_true.mpr ⟨m, hm, List.contains_iff_mem.mpr hid⟩⟩, rfl⟩
  obtain ⟨g, hg, hdetail⟩ := mapM_ok_of_mem hgroups ((List.mem_insertionSort _).mpr hmem)
  obtain ⟨c', hc', hgid, hstatus, hmembers, -⟩ := detail_eq_ok hdetail
  obtain rfl := Option.some.inj ((hs.conflict?_eq.mpr ⟨hc, rfl⟩).symm.trans hc')
  exact ⟨g, hg, hgid, hstatus, fun m' => hs.mem_members hc hmembers⟩

/-- A group of a discovery is a conflict of the proposals. -/
theorem ReviewDb.WF.conflict_of_group (hs : s.WF) {ids runIds : List String}
    {groups : List ConflictDetail} (h : s.discover ids = .ok (runIds, groups)) {g : ConflictDetail}
    (hg : g ∈ groups) :
    ∃ c ∈ s.conflicts, g.id = c.id ∧ g.status = c.status ∧ (∀ m, m ∈ g.members ↔ m ∈ c.members)
      ∧ ∃ m ∈ c.members, m ∈ ids := by
  obtain ⟨-, hgroups, -⟩ := discover_eq_ok h
  obtain ⟨id, hid, hdetail⟩ := exists_of_mem_mapM hgroups hg
  obtain ⟨c, hc, rfl⟩ := List.mem_map.mp ((List.mem_insertionSort _).mp hid)
  obtain ⟨hc, htouch⟩ := List.mem_filter.mp hc
  obtain ⟨m, hm, hmid⟩ := List.any_eq_true.mp htouch
  obtain ⟨c', hc', hgid, hstatus, hmembers, -⟩ := detail_eq_ok hdetail
  obtain rfl := Option.some.inj ((hs.conflict?_eq.mpr ⟨hc, rfl⟩).symm.trans hc')
  exact ⟨c, hc, hgid, hstatus, fun m' => hs.mem_members hc hmembers, m, hm,
    List.contains_iff_mem.mp hmid⟩

/-! ## Decisions -/

variable {T : Revalidation}

/-- What `decisions_for` has checked of one decision. -/
structure DecisionOk (T : Revalidation) (body : ReviewBody) (rows : List Row) (g : ConflictDetail)
    (d : ConflictDecision) : Prop where
  id : g.id = d.conflictId
  /-- A winner is a selected member. -/
  winners : ∀ w ∈ d.selectedWinnerIds, w ∈ g.members ∧ w ∈ body.extractionIds
  /-- An accepted member is a winner. -/
  accepted : body.action.name = .accept ∨ body.action.name = .edit →
    ∀ m ∈ g.members, m ∈ body.extractionIds → m ∈ d.selectedWinnerIds

/-- The decisions of a body are on conflicts of its groups. -/
theorem decisionsFor_eq_ok {groups : List ConflictDetail} {body : ReviewBody} {rows : List Row}
    {u : Unit} (h : T.decisionsFor groups body rows = .ok u) :
    (body.conflictResolution.map ConflictDecision.conflictId).Nodup
      ∧ (∀ id ∈ body.conflictResolution.map ConflictDecision.conflictId,
          ∃ g ∈ groups, g.id = id ∧ g.status = .opened)
      ∧ (∀ g ∈ groups, g.status = .opened →
          g.id ∈ body.conflictResolution.map ConflictDecision.conflictId)
      ∧ ∀ d ∈ body.conflictResolution, ∃ g ∈ groups, DecisionOk T body rows g d := by
  simp only [Revalidation.decisionsFor, bind_eq_ok_iff, raiseIf_eq_ok_iff] at h
  obtain ⟨-, hsets, hall⟩ := h
  simp only [not_or, not_not] at hsets
  obtain ⟨hnodup, hopen, hdecided⟩ := hsets
  refine ⟨hnodup, ?_, ?_, ?_⟩
  · intro id hid
    have := List.all_eq_true.mp hopen id hid
    rw [List.contains_iff_mem] at this
    obtain ⟨g, hg, rfl⟩ := List.mem_map.mp this
    obtain ⟨hg, hst⟩ := List.mem_filter.mp hg
    exact ⟨g, hg, rfl, by simpa using hst⟩
  · intro g hg hst
    have := List.all_eq_true.mp hdecided g.id
      (List.mem_map.mpr ⟨g, List.mem_filter.mpr ⟨hg, by simpa using hst⟩, rfl⟩)
    exact List.contains_iff_mem.mp this
  · intro d hd
    have hone := forM_eq_ok_iff.mp hall d hd
    simp only [bind_eq_ok_iff, orRaise_eq_ok_iff, raiseIf_eq_ok_iff] at hone
    obtain ⟨g, hg, -, -, -, hwin, -, hacc, -⟩ := hone
    refine ⟨g, List.mem_of_find?_eq_some hg, by simpa using List.find?_some hg, ?_, ?_⟩
    · intro w hw
      have := List.all_eq_true.mp (not_not.mp hwin) w hw
      simpa [List.mem_filter] using this
    · intro haction m hm hid
      rw [not_and, not_not] at hacc
      have := List.all_eq_true.mp (hacc haction) m
        (List.mem_filter.mpr ⟨hm, List.contains_iff_mem.mpr hid⟩)
      exact List.contains_iff_mem.mp this

/-! ## The plan of a review -/

/-- The locked rows are those of the runs. -/
theorem lockedRows_eq_ok {runIds : List String} {rows : List Row}
    (h : s.lockedRows T runIds = .ok rows) :
    rows = (s.proposals.filter fun p => runIds.contains p.runId).map Proposal.row := by
  simp only [ReviewDb.lockedRows, bind_eq_ok_iff, pure_eq_ok, Except.ok.injEq] at h
  obtain ⟨-, -, -, -, rfl⟩ := h
  rfl

/-- What a review has checked before it writes. -/
structure PlanOk (T : Revalidation) (s : ReviewDb) (body : ReviewBody) (plan : ReviewPlan) :
    Prop where
  /-- An input is open, and its run waits for review. -/
  inputs : ∀ id ∈ body.extractionIds, ∃ p ∈ s.proposals, p.id = id ∧ p.state.isOpen = true
    ∧ (s.run? p.runId).map ReviewRun.status = some .waitingReview
  runs : ∀ id, id ∈ plan.runs ↔ ∃ p ∈ s.proposals, p.id ∈ body.extractionIds ∧ p.runId = id
  nodup : (body.conflictResolution.map ConflictDecision.conflictId).Nodup
  /-- An open conflict of an input is decided. -/
  decides : ∀ c ∈ s.conflicts, c.status = .opened → (∃ m ∈ c.members, m ∈ body.extractionIds) →
    c.id ∈ body.conflictResolution.map ConflictDecision.conflictId
  /-- What is decided is an open conflict of an input, by a decision that the action allows. -/
  decided : ∀ d ∈ body.conflictResolution, ∃ c ∈ s.conflicts, c.id = d.conflictId
    ∧ c.status = .opened ∧ (∃ m ∈ c.members, m ∈ body.extractionIds)
    ∧ (∀ w ∈ d.selectedWinnerIds, w ∈ c.members ∧ w ∈ body.extractionIds)
    ∧ (body.action.name = .accept ∨ body.action.name = .edit →
        ∀ m ∈ c.members, m ∈ body.extractionIds → m ∈ d.selectedWinnerIds)

/-- The parts of a plan. -/
theorem planReview_eq_ok {body : ReviewBody} {plan : ReviewPlan}
    (h : T.planReview s body = .ok plan) :
    ∃ runIds rows, s.discover body.extractionIds = .ok (runIds, plan.groups)
      ∧ s.lockedRows T runIds = .ok rows
      ∧ (∀ row ∈ rows, row.id ∈ body.extractionIds → row.state.isOpen = true
          ∧ (s.run? row.runId).map ReviewRun.status = some .waitingReview)
      ∧ T.decisionsFor plan.groups body rows = .ok ()
      ∧ T.approvalsFor s body runIds plan.groups rows = .ok plan.approvals
      ∧ plan.runs = (((rows.filter fun row => body.extractionIds.contains row.id).map
          Row.runId).dedup.insertionSort (· ≤ ·)) := by
  simp only [Revalidation.planReview, bind_eq_ok_iff, raiseIf_eq_ok_iff, pure_eq_ok,
    Except.ok.injEq] at h
  obtain ⟨⟨runIds, groups⟩, hdisc, rows, hrows, -, -, -, hopen, -, hwait, u, hdec, approvals, happ,
    rfl⟩ := h
  refine ⟨runIds, rows, hdisc, hrows, ?_, hdec, happ, rfl⟩
  intro row hrow hid
  have hsel : row ∈ rows.filter fun row => body.extractionIds.contains row.id :=
    List.mem_filter.mpr ⟨hrow, List.contains_iff_mem.mpr hid⟩
  constructor
  · by_contra hc
    exact hopen (List.any_eq_true.mpr ⟨row, hsel, by simpa using hc⟩)
  · by_contra hc
    exact hwait (List.any_eq_true.mpr ⟨row, hsel, by simpa using hc⟩)

/-- **What a review has checked.** -/
theorem ReviewDb.WF.planOk (hs : s.WF) {body : ReviewBody} {plan : ReviewPlan}
    (h : T.planReview s body = .ok plan) : PlanOk T s body plan := by
  obtain ⟨runIds, rows, hdisc, hrows, hsel, hdec, -, hruns⟩ := planReview_eq_ok h
  obtain ⟨hexists, -, hlocked⟩ := discover_eq_ok hdisc
  obtain rfl := lockedRows_eq_ok hrows
  obtain ⟨hnodup, hopened, hdecides, hdecided⟩ := decisionsFor_eq_ok hdec
  have hrow : ∀ p ∈ s.proposals, p.id ∈ body.extractionIds →
      p.row ∈ (s.proposals.filter fun p => runIds.contains p.runId).map Proposal.row :=
    fun p hp hid => List.mem_map.mpr ⟨p, List.mem_filter.mpr
      ⟨hp, List.contains_iff_mem.mpr (hlocked p hp (.inl hid))⟩, rfl⟩
  refine ⟨?_, ?_, hnodup, ?_, ?_⟩
  · intro id hid
    obtain ⟨p, hp, rfl⟩ := hexists id hid
    obtain ⟨hopen, hwait⟩ := hsel p.row (hrow p hp hid) hid
    exact ⟨p, hp, rfl, hopen, hwait⟩
  · intro id
    simp only [hruns, List.mem_insertionSort, List.mem_dedup, List.mem_map, List.mem_filter,
      List.contains_iff_mem]
    constructor
    · rintro ⟨row, ⟨⟨p, ⟨hp, -⟩, rfl⟩, hid⟩, rfl⟩
      exact ⟨p, hp, hid, rfl⟩
    · rintro ⟨p, hp, hid, rfl⟩
      exact ⟨p.row, ⟨⟨p, ⟨hp, hlocked p hp (.inl hid)⟩, rfl⟩, hid⟩, rfl⟩
  · rintro c hc hst ⟨m, hm, hid⟩
    obtain ⟨g, hg, hgid, hgst, -⟩ := hs.group_of_conflict hdisc hc hm hid
    exact hgid ▸ hdecides g hg (hgst.trans hst)
  · intro d hd
    obtain ⟨g', hg', hgid', hgst'⟩ := hopened d.conflictId (List.mem_map_of_mem hd)
    obtain ⟨g, hg, hok⟩ := hdecided d hd
    obtain ⟨c, hc, hcid, hcst, hmem, htouch⟩ := hs.conflict_of_group hdisc hg
    obtain ⟨c', hc', hcid', hcst', -, -⟩ := hs.conflict_of_group hdisc hg'
    have hsame : c = c' := List.inj_on_of_nodup_map hs.conflictIds hc hc'
      (hcid.symm.trans (hok.id.trans (hgid'.symm.trans hcid')))
    subst hsame
    refine ⟨c, hc, hcid.symm.trans hok.id, hcst'.symm.trans hgst', htouch, ?_, ?_⟩
    · intro w hw
      exact ⟨(hmem w).mp (hok.winners w hw).1, (hok.winners w hw).2⟩
    · intro haction m hm hid
      exact hok.accepted haction m ((hmem m).mpr hm) hid

/-! ## What a review writes -/

/-- A run after `finish_review` of the runs `ids`. -/
def ReviewRun.finishedIn (s : ReviewDb) (ids : List String) (r : ReviewRun) : ReviewRun :=
  if r.id ∈ ids ∧ r.status = .waitingReview ∧ s.hasOpenProposal r.id = false
      ∧ s.hasOpenConflict r.id = false then
    { r with status := .succeeded }
  else r

@[simp] theorem ReviewRun.finishedIn_id (s : ReviewDb) (ids : List String) (r : ReviewRun) :
    (r.finishedIn s ids).id = r.id := by
  unfold ReviewRun.finishedIn
  split_ifs <;> rfl

@[simp] theorem ReviewRun.finishedIn_perRun (s : ReviewDb) (ids : List String) (r : ReviewRun) :
    (r.finishedIn s ids).perRun = r.perRun := by
  unfold ReviewRun.finishedIn
  split_ifs <;> rfl

/-- A run keeps its status, or it waited with nothing open and has succeeded. -/
theorem ReviewRun.finishedIn_status (s : ReviewDb) (ids : List String) (r : ReviewRun) :
    r.finishedIn s ids = r ∨
    (r.id ∈ ids ∧ r.status = .waitingReview ∧ s.hasOpenProposal r.id = false
      ∧ s.hasOpenConflict r.id = false ∧ (r.finishedIn s ids).status = .succeeded) := by
  unfold ReviewRun.finishedIn
  split_ifs with h
  · exact .inr ⟨h.1, h.2.1, h.2.2.1, h.2.2.2, rfl⟩
  · exact .inl rfl

/-- Finishing a review sets the status of its run. -/
theorem ReviewDb.finishReview_eq (s : ReviewDb) (id : String) :
    s.finishReview id = { s with runs := s.runs.map (ReviewRun.finishedIn s [id]) } := by
  unfold ReviewDb.finishReview ReviewRun.finishedIn
  by_cases hp : s.hasOpenProposal id = true ∨ s.hasOpenConflict id = true
  · rw [if_pos (by simpa using hp)]
    have : ∀ r : ReviewRun, ¬ (r.id ∈ [id] ∧ r.status = .waitingReview
        ∧ s.hasOpenProposal r.id = false ∧ s.hasOpenConflict r.id = false) := by
      rintro r ⟨hid, -, h₁, h₂⟩
      rw [List.mem_singleton] at hid
      subst hid
      simp [h₁, h₂] at hp
    simp only [this, if_false, List.map_id']
  · rw [if_neg (by simpa using hp)]
    simp only [not_or, Bool.not_eq_true] at hp
    congr 1
    refine List.map_congr_left fun r _ => ?_
    by_cases hid : r.id = id
    · simp [hid, hp.1, hp.2]
    · simp [hid]

/-- Completing several runs. -/
theorem ReviewDb.foldl_finishReview (ids : List String) (s : ReviewDb) :
    ids.foldl ReviewDb.finishReview s
    = { s with runs := s.runs.map (ReviewRun.finishedIn s ids) } := by
  induction ids generalizing s with
  | nil =>
      have : ReviewRun.finishedIn s [] = id := by
        funext r
        simp [ReviewRun.finishedIn]
      simp [this]
  | cons id ids ih =>
      rw [List.foldl_cons, ih, ReviewDb.finishReview_eq]
      simp only [List.map_map]
      congr 1
      refine List.map_congr_left fun r _ => ?_
      -- the first completion changes neither proposals nor conflicts
      have hopen : ∀ run,
          ({ s with runs := s.runs.map (ReviewRun.finishedIn s [id]) } : ReviewDb).hasOpenProposal
          run = s.hasOpenProposal run := fun _ => rfl
      have hconf : ∀ run,
          ({ s with runs := s.runs.map (ReviewRun.finishedIn s [id]) } : ReviewDb).hasOpenConflict
          run = s.hasOpenConflict run := fun _ => rfl
      simp only [Function.comp_apply, ReviewRun.finishedIn, hopen, hconf]
      by_cases hid : r.id = id
      · by_cases hdone : r.status = .waitingReview ∧ s.hasOpenProposal r.id = false
            ∧ s.hasOpenConflict r.id = false
        · simp [hid, hid ▸ hdone]
        · simp [hid, hid ▸ hdone]
      · simp [hid]

/-- The tables after a review. -/
theorem ReviewDb.commitReview_eq (s : ReviewDb) (body : ReviewBody) (plan : ReviewPlan)
    (fresh : FreshIds) :
    s.commitReview body plan fresh = { s.reviewWritten body plan fresh with
      runs := s.runs.map (ReviewRun.finishedIn (s.reviewWritten body plan fresh) plan.runs) } :=
  ReviewDb.foldl_finishReview plan.runs _

/-- A review resolves the conflicts its body decides. -/
theorem mem_resolutionsOf_ids {body : ReviewBody} {records : List ApprovedRecord}
    {reviewId id : String} :
    id ∈ (resolutionsOf body records reviewId).map Prod.fst
      ↔ id ∈ body.conflictResolution.map ConflictDecision.conflictId := by
  simp [resolutionsOf]

/-- A conflict after a review. -/
theorem ReviewDb.reviewWritten_conflicts (s : ReviewDb) (body : ReviewBody) (plan : ReviewPlan)
    (fresh : FreshIds) :
    (s.reviewWritten body plan fresh).conflicts = s.conflicts.map
      (Conflict.resolvedBy (body.conflictResolution.map ConflictDecision.conflictId)) := by
  refine List.map_congr_left fun c _ => ?_
  simp only [Conflict.resolvedBy, List.contains_iff_mem, mem_resolutionsOf_ids]

theorem Proposal.disposed_id (ids : List String) (state : ProposalState) (p : Proposal) :
    (p.disposed ids state).id = p.id := by
  unfold Proposal.disposed
  split_ifs <;> rfl

theorem Proposal.disposed_runId (ids : List String) (state : ProposalState) (p : Proposal) :
    (p.disposed ids state).runId = p.runId := by
  unfold Proposal.disposed
  split_ifs <;> rfl

/-- Proposals that are not named keep their state. -/
theorem Proposal.disposed_of_notMem {ids : List String} {state : ProposalState} {p : Proposal}
    (h : p.id ∉ ids) : p.disposed ids state = p := by
  simp [Proposal.disposed, h]

theorem Conflict.resolvedBy_id (ids : List String) (c : Conflict) :
    (c.resolvedBy ids).id = c.id := by
  unfold Conflict.resolvedBy
  split_ifs <;> rfl

theorem Conflict.resolvedBy_members (ids : List String) (c : Conflict) :
    (c.resolvedBy ids).members = c.members := by
  unfold Conflict.resolvedBy
  split_ifs <;> rfl

/-- Conflicts that are not named keep their status. -/
theorem Conflict.resolvedBy_of_notMem {ids : List String} {c : Conflict} (h : c.id ∉ ids) :
    c.resolvedBy ids = c := by
  simp [Conflict.resolvedBy, h]

/-- A conflict is resolved if it was, or is named. -/
theorem Conflict.resolvedBy_status (ids : List String) (c : Conflict) :
    (c.resolvedBy ids).status = .resolved ↔ c.id ∈ ids ∨ c.status = .resolved := by
  unfold Conflict.resolvedBy
  by_cases h : c.id ∈ ids
  · simp [h]
  · simp [h]

/-- Every action closes its proposal. -/
theorem ActionName.disposition_closed (a : ActionName) : a.disposition.isOpen = false := by
  cases a <;> rfl

/-! ## What the worker writes -/

/-- A run is open until its status is terminal. -/
theorem ReviewDb.runIsOpen_iff (hs : s.WF) {id : String} :
    s.runIsOpen id = true ↔ ∃ r ∈ s.runs, r.id = id ∧ r.status.isTerminal = false := by
  unfold ReviewDb.runIsOpen
  cases hr : s.run? id with
  | none =>
      have hnone := List.find?_eq_none.mp hr
      simp only [Bool.false_eq_true, false_iff]
      rintro ⟨r, hmem, rfl, -⟩
      exact hnone r hmem (by simp)
  | some r =>
      obtain ⟨hmem, hid⟩ := hs.run?_eq.mp hr
      simp only [Bool.not_eq_true']
      constructor
      · exact fun h => ⟨r, hmem, hid, h⟩
      · rintro ⟨r', hmem', hid', h⟩
        rwa [List.inj_on_of_nodup_map hs.runIds hmem hmem' (hid.trans hid'.symm)]

/-- What one group of `persist_conflicts` does: it opens a conflict or adds members to an open one.
-/
structure Joins (s s' : ReviewDb) (d : NewConflict) (joined : Conflict) : Prop where
  runs : s'.runs = s.runs
  proposals : s'.proposals = s.proposals
  records : s'.records = s.records
  reviews : s'.reviews = s.reviews
  opened : joined.status = .opened
  mem : ∀ c, c ∈ s'.conflicts ↔ c = joined ∨ c ∈ s.conflicts ∧ c.id ≠ joined.id
  ids : (s'.conflicts.map Conflict.id).Nodup
  /-- The conflict is an open one, or it is new. -/
  base : (∃ c ∈ s.conflicts, c.id = joined.id ∧ c.status = .opened ∧ c.members ⊆ joined.members)
    ∨ ∀ c ∈ s.conflicts, c.id ≠ joined.id
  /-- A new member lies in an open run. -/
  joining : ∀ m ∈ joined.members,
    (∃ c ∈ s.conflicts, c.id = joined.id ∧ c.status = .opened
      ∧ c.occurrenceRunId = joined.occurrenceRunId ∧ m ∈ c.members)
      ∨ m ∈ d.memberProposalIds ∧ ∃ p ∈ s.proposals, p.id = m ∧ s.runIsOpen p.runId = true

/-- Joining a conflict adds the members that are missing. -/
theorem joinConflict_eq_ok (hs : s.WF) {c joined : Conflict} {members : List String}
    (h : s.joinConflict c members = .ok joined) :
    ∃ joining, joined = { c with members := c.members ++ joining } ∧ ∀ m ∈ joining,
      m ∈ members ∧ ∃ p ∈ s.proposals, p.id = m ∧ s.runIsOpen p.runId = true := by
  simp only [ReviewDb.joinConflict, bind_eq_ok_iff, raiseIf_eq_ok_iff, pure_eq_ok,
    Except.ok.injEq] at h
  obtain ⟨-, hall, rfl⟩ := h
  refine ⟨_, rfl, fun m hm => ?_⟩
  have hopen := List.all_eq_true.mp (not_not.mp hall) m hm
  obtain ⟨p, hp, hrun⟩ := (Option.any_eq_true _ _).mp hopen
  obtain ⟨hmem, hid⟩ := hs.proposal?_eq.mp hp
  exact ⟨(List.mem_filter.mp (List.mem_dedup.mp hm)).1, p, hmem, hid, hrun⟩

/-- **What one group of the worker does.** -/
theorem ReviewDb.WF.joins (hs : s.WF) {w : String} {d : NewConflict} {s' : ReviewDb}
    (h : s.persistConflict w d = .ok s') :
    ∃ occurrence joined, s.occurrenceRun w d.memberProposalIds = .ok occurrence
      ∧ joined.occurrenceRunId = occurrence ∧ Joins s s' d joined := by
  rw [ReviewDb.persistConflict, bind_eq_ok_iff] at h
  obtain ⟨occurrence, hocc, h⟩ := h
  refine ⟨occurrence, ?_⟩
  split at h
  -- the conflict of this key in this run takes the new members
  case h_1 c hfind =>
      simp only [bind_eq_ok_iff, raiseIf_eq_ok_iff, pure_eq_ok, Except.ok.injEq, not_not] at h
      obtain ⟨-, hopen, joined, hjoin, rfl⟩ := h
      have hc := List.mem_of_find?_eq_some hfind
      have hkey := List.find?_some hfind
      simp only [Bool.and_eq_true, beq_iff_eq] at hkey
      obtain ⟨joining, rfl, hjoining⟩ := joinConflict_eq_ok hs hjoin
      refine ⟨{ c with members := c.members ++ joining }, hocc, hkey.2, rfl, rfl, rfl, rfl, hopen,
        ?_, ?_, ?_, ?_⟩
      · intro c'
        simp only [List.mem_map]
        constructor
        · rintro ⟨c'', hc'', rfl⟩
          by_cases hid : c''.id = c.id
          · simp [hid]
          · simp [hid, hc'']
        · rintro (rfl | ⟨hc', hid⟩)
          · exact ⟨c, hc, by simp⟩
          · exact ⟨c', hc', by simp [show c'.id ≠ c.id from hid]⟩
      · rw [List.map_map]
        have : (Conflict.id ∘ fun c' => if c'.id = c.id then
            { c with members := c.members ++ joining } else c') = Conflict.id := by
          funext c'
          by_cases hid : c'.id = c.id
          · simp [hid]
          · simp [hid]
        rw [this]
        exact hs.conflictIds
      · exact .inl ⟨c, hc, rfl, hopen, List.subset_append_left _ _⟩
      · intro m hm
        rcases List.mem_append.mp hm with hm | hm
        · exact .inl ⟨c, hc, rfl, hopen, rfl, hm⟩
        · exact .inr (hjoining m hm)
  -- a new conflict, with an id that no other has
  case h_2 =>
      simp only [bind_eq_ok_iff, raiseIf_eq_ok_iff, pure_eq_ok, Except.ok.injEq] at h
      obtain ⟨-, hnew, joined, hjoin, rfl⟩ := h
      obtain ⟨joining, rfl, hjoining⟩ := joinConflict_eq_ok hs hjoin
      have hfresh : ∀ c ∈ s.conflicts, c.id ≠ d.id := by
        intro c hc hid
        exact hnew (Option.isSome_iff_exists.mpr ⟨c, hs.conflict?_eq.mpr ⟨hc, hid⟩⟩)
      refine ⟨⟨d.id, w, d.conflictKey, d.reasonCodes, occurrence, .opened, [] ++ joining⟩,
        hocc, rfl,
        rfl, rfl, rfl, rfl, rfl, ?_, ?_, .inr hfresh, ?_⟩
      · intro c'
        simp only [List.mem_append, List.mem_singleton]
        constructor
        · rintro (hc' | rfl)
          · exact .inr ⟨hc', hfresh c' hc'⟩
          · exact .inl rfl
        · rintro (rfl | ⟨hc', -⟩)
          · exact .inr rfl
          · exact .inl hc'
      · rw [List.map_append, List.nodup_append]
        refine ⟨hs.conflictIds, List.nodup_singleton _, ?_⟩
        intro a ha b hb
        obtain ⟨c, hc, rfl⟩ := List.mem_map.mp ha
        rw [List.map_singleton, List.mem_singleton] at hb
        rw [hb]
        exact hfresh c hc
      · intro m hm
        exact .inr (hjoining m (by simpa using hm))

end Extraction
