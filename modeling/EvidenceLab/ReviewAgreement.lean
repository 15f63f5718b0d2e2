/-
# Approved figures of one run

Two current heads of a run whose conflicts are its own have different conflict keys or the same
value fingerprint.  Each detected conflict of a review has to be covered by a stored group:

* in an open group every member is open, so no head is among them, and two winners that contradict
  each other are refused;
* in a resolved group an input has to repeat the value of a current winner.

Worker persistence comes before the review of its run (`Orderly`): it stores its own proposals while
the run is not yet waiting.
-/
import EvidenceLab.ReviewPeers

namespace Extraction

open Except Transitions

variable {T : Revalidation} {s s' : ReviewDb}

/-! ## The invariant -/

/-- The version comes from a proposal of the run. -/
def ApprovedVersion.OriginIn (s : ReviewDb) (run : String) (v : ApprovedVersion) : Prop :=
  ∃ p ∈ s.proposals, p.id = v.origin ∧ p.runId = run

/-- Two current heads of a run whose conflicts are its own do not contradict each other. -/
def FiguresAgree (T : Revalidation) (s : ReviewDb) : Prop :=
  ∀ r ∈ s.runs, r.perRun = true → ∀ a ∈ s.records, ∀ b ∈ s.records, a.id ≠ b.id →
    ∀ u v, a.head? = some u → b.head? = some v → u.OriginIn s r.id → v.OriginIn s r.id →
      T.versionKey u ≠ T.versionKey v ∨ T.valueFingerprint u.payload = T.valueFingerprint v.payload

/-- What carries the agreement from one command to the next. -/
structure Peers (T : Revalidation) (s : ReviewDb) : Prop where
  /-- Nothing in an open conflict is disposed. -/
  openMembers : ∀ c ∈ s.conflicts, c.status = .opened → ∀ p ∈ s.proposals, p.id ∈ c.members →
    p.state.isOpen = true
  /-- What is approved is disposed. -/
  origins : ∀ a ∈ s.records, ∀ v ∈ a.versions, ∃ p ∈ s.proposals, p.id = v.origin
    ∧ p.state.isOpen = false
  certified : ∀ a ∈ s.records, ∀ v ∈ a.versions, Certified T v
  /-- A conflict with a member in an opted-in run is that run's own. -/
  occurrence : ∀ c ∈ s.conflicts, ∀ p ∈ s.proposals, p.id ∈ c.members →
    (∀ r ∈ s.runs, r.id = p.runId → r.perRun = true → c.occurrenceRunId = some p.runId)
      ∧ ∀ id, c.occurrenceRunId = some id → p.runId = id
  agree : FiguresAgree T s

/-- The members of a conflict belong to one run. -/
theorem Peers.same_run (h : Peers T s) {c : Conflict} (hc : c ∈ s.conflicts) {p q : Proposal}
    (hp : p ∈ s.proposals) (hq : q ∈ s.proposals) (hpc : p.id ∈ c.members) (hqc : q.id ∈ c.members)
    {r : ReviewRun} (hr : r ∈ s.runs) (hid : r.id = p.runId) (hper : r.perRun = true) :
    q.runId = p.runId :=
  (h.occurrence c hc q hq hqc).2 _ ((h.occurrence c hc p hp hpc).1 r hr hid hper)

/-! ## The comparison of a review -/

/-- What a review compares its inputs with. -/
structure Comparison (T : Revalidation) (s : ReviewDb) (body : ReviewBody)
    (groups : List ConflictDetail)
    (runIds : List String) (drafts : List Draft) : Prop where
  ids : (drafts.map Draft.id).Nodup
  /-- A head of a locked run is there with every draft of its key. -/
  heads : ∀ a v, (a, v) ∈ s.heads runIds → ∀ d ∈ drafts, d.id ∈ body.extractionIds →
    T.versionKey v = T.draftKey d → ∃ dv ∈ drafts, dv.id = v.origin ∧ T.draftKey dv = T.versionKey v
  /-- The draft under the origin of a head is the head's. -/
  winners : ∀ a v, (a, v) ∈ s.heads runIds → ∀ dv ∈ drafts, dv.id = v.origin →
    T.draftKey dv = T.versionKey v
      ∧ T.valueFingerprint dv.payload = T.valueFingerprint v.payload
  /-- An open group with one winner covers a detected conflict, or a head of a group of the input
  has the input's key and value. -/
  checked : ∀ c ∈ T.detectConflicts drafts, ∀ d ∈ drafts, d.id ∈ c.memberProposalIds →
    d.id ∈ body.extractionIds →
    (∃ g ∈ groups, g.status = .opened ∧ (∀ m ∈ c.memberProposalIds, m ∈ g.members)
      ∧ ∃ e ∈ body.conflictResolution, e.conflictId = g.id
        ∧ (1 < (c.memberProposalIds.filter e.selectedWinnerIds.contains).length →
          body.action.name = .merge))
    ∨ ∃ g ∈ groups, d.id ∈ g.members ∧ ∃ a v, (a, v) ∈ s.heads runIds ∧ v.origin ∈ g.members
      ∧ T.draftKey d = T.versionKey v ∧ T.valueFingerprint d.payload = T.valueFingerprint v.payload

/-- An edit leaves the other rows as they are. -/
theorem patchedRows_eq_ok {action : ReviewAction} {ids : List String} {rows patched : List Row}
    (h : patchedRows action ids rows = .ok patched) :
    patched.map Row.id = rows.map Row.id ∧ ∀ row, row.id ∉ ids → (row ∈ patched ↔ row ∈ rows) := by
  unfold patchedRows at h
  split at h
  case h_1 patch =>
      simp only [bind_eq_ok_iff, raiseIf_eq_ok_iff, pure_eq_ok, Except.ok.injEq, not_or,
        not_not] at h
      obtain ⟨-, ⟨-, hsub, -⟩, rfl⟩ := h
      have hid : ∀ row, (Row.patched patch row).id = row.id := by
        intro row
        unfold Row.patched
        split <;> rfl
      have hsame : ∀ row : Row, row.id ∉ ids → Row.patched patch row = row := by
        intro row hrow
        unfold Row.patched
        split
        case h_1 r hr =>
            have hmem : r.extractionId ∈ patch.map Replacement.extractionId :=
              List.mem_map_of_mem (List.mem_of_find?_eq_some hr)
            have hin := List.contains_iff_mem.mp (List.all_eq_true.mp hsub _ hmem)
            have hrid : r.extractionId = row.id := by simpa using List.find?_some hr
            exact absurd (hrid ▸ hin) hrow
        case h_2 => rfl
      refine ⟨?_, ?_⟩
      · rw [List.map_map]
        exact List.map_congr_left fun row _ => hid row
      · intro row hrow
        constructor
        · intro hmem
          obtain ⟨row₀, hrow₀, rfl⟩ := List.mem_map.mp hmem
          rw [hid] at hrow
          rw [hsame row₀ hrow]
          exact hrow₀
        · exact fun hmem => List.mem_map.mpr ⟨row, hmem, hsame row hrow⟩
  case h_2 =>
      rw [pure_eq_ok, Except.ok.injEq] at h
      rw [h]
      exact ⟨rfl, fun _ _ => Iff.rfl⟩

/-- **The comparison of a review.** -/
theorem comparison_of_approvals (hT : T.Lawful) (hs : Tables s) (hp : Peers T s) {body : ReviewBody}
    {plan : ReviewPlan} (hok : PlanOk T s body plan) {runIds : List String} {rows : List Row}
    (hrows : s.lockedRows T runIds = .ok rows) {current patched relevant : List Row}
    {origins : List (String × String)} {drafts : List Draft} {waived : List String}
    {groups : List ConflictDetail}
    (hcur : s.currentRows T rows runIds = .ok (current, origins))
    (hpat : patchedRows body.action body.extractionIds current = .ok patched)
    (hrel : T.relevantRows patched body.extractionIds (groups.flatMap ConflictDetail.members)
      = .ok relevant)
    (heval : T.evaluate relevant = .ok drafts)
    (hcheck : T.checkEvaluated drafts body.extractionIds groups body.conflictResolution
      body.action.name origins = .ok waived) :
    Comparison T s body groups runIds drafts := by
  have hc := currentRows_eq_ok hcur
  obtain ⟨hpids, hpsame⟩ := patchedRows_eq_ok hpat
  obtain ⟨hsub, -⟩ := relevantRows_eq_ok hrel
  have hall := hT.evaluate heval
  have hcurids : (current.map Row.id).Nodup := (lockedRows_ids_nodup hs.wf hrows).sublist hc.ids
  -- the origin of a head is no input
  have hfree : ∀ a v, (a, v) ∈ s.heads runIds → Certified T v ∧ v.origin ∉ body.extractionIds := by
    intro a v hav
    obtain ⟨ha, hv, -⟩ := mem_heads.mp hav
    have hmem := List.mem_of_find?_eq_some hv
    refine ⟨hp.certified a ha v hmem, fun hid => ?_⟩
    obtain ⟨p, hpm, hpid, hclosed⟩ := hp.origins a ha v hmem
    obtain ⟨q, hq, hqid, hopen, -⟩ := hok.inputs _ hid
    rw [List.inj_on_of_nodup_map hs.wf.proposalIds hpm hq (hpid.trans hqid.symm), hopen] at hclosed
    cases hclosed
  have hwinners : ∀ a v, (a, v) ∈ s.heads runIds → ∀ dv ∈ drafts, dv.id = v.origin →
      T.draftKey dv = T.versionKey v
        ∧ T.valueFingerprint dv.payload = T.valueFingerprint v.payload := by
    intro a v hav dv hdv hid
    obtain ⟨row, hrow, hfrom⟩ := exists_left_of_forall₂ hall hdv
    have hrowid : row.id = v.origin := hfrom.id.symm.trans hid
    have hrow' : row ∈ current :=
      (hpsame row (hrowid ▸ (hfree a v hav).2)).mp (hsub.subset hrow)
    obtain ⟨row₀, hrow₀, hid₀, hpay₀⟩ := hc.heads _ hav
    obtain rfl := List.inj_on_of_nodup_map hcurids hrow' hrow₀ (hrowid.trans hid₀.symm)
    exact hfrom.stable v (hfree a v hav).1 hpay₀
  have hids : (drafts.map Draft.id).Nodup := by
    rw [ids_of_forall₂_draftFrom hall]
    refine List.Nodup.sublist (hsub.map Row.id) ?_
    rw [hpids]
    exact hcurids
  refine ⟨hids, ?_, hwinners, ?_⟩
  · intro a v hav d hd hsel hkey
    obtain ⟨row, hrow, hid, hpay⟩ := hc.heads _ hav
    have hrow' : row ∈ patched := (hpsame row (hid ▸ (hfree a v hav).2)).mpr hrow
    obtain ⟨dv, hdv, hdvid, hdvkey, -⟩ := exists_draft_of_head hT hrel heval (hfree a v hav).1 hrow'
      hpay hd hsel hkey
    exact ⟨dv, hdv, hdvid.trans hid, hdvkey⟩
  · intro c hcd d hd hdc hsel
    refine (checkEvaluated_eq_ok hcheck hids hcd hdc hsel).imp_right ?_
    rintro ⟨g, hg, hdg, rid, w, d', dw, ho, hwg, hd', hdw, hkey, hfp⟩
    rw [hc.origins_eq] at ho
    obtain ⟨⟨a, v⟩, hav, heq⟩ := List.mem_map.mp ho
    obtain ⟨rfl, rfl⟩ := Prod.mk.inj heq
    obtain ⟨hmem', hid'⟩ := draftOf_eq_ok hd'
    obtain ⟨hmemw, hidw⟩ := draftOf_eq_ok hdw
    obtain rfl := List.inj_on_of_nodup_map hids hmem' hd hid'
    obtain ⟨hwkey, hwfp⟩ := hwinners a v hav dw hmemw hidw
    exact ⟨g, hg, hdg, a, v, hav, hwg, hkey.trans hwkey, hfp.trans hwfp⟩

section Inputs

variable {body : ReviewBody} {plan : ReviewPlan} {runIds : List String} {drafts : List Draft}

/-- The heads of the run of an input are in the comparison. -/
theorem mem_heads_of_originIn (hs : Tables s) {groups : List ConflictDetail}
    (hdisc : s.discover body.extractionIds = .ok (runIds, groups)) {p : Proposal}
    (hp : p ∈ s.proposals)
    (hsel : p.id ∈ body.extractionIds) {a : ApprovedRecord} (ha : a ∈ s.records)
    {v : ApprovedVersion}
    (hv : a.head? = some v) (hin : v.OriginIn s p.runId) : (a, v) ∈ s.heads runIds := by
  obtain ⟨-, -, hlocked⟩ := discover_eq_ok hdisc
  obtain ⟨q, hq, hqid, hqrun⟩ := hin
  exact mem_heads.mpr ⟨ha, hv, q, hs.wf.proposal?_eq.mpr ⟨hq, hqid⟩,
    .inl (hqrun ▸ hlocked p hp (.inl hsel))⟩

/-- The origin of a head is not open. -/
theorem Peers.closed_origin (hp : Peers T s) (hs : Tables s) {a : ApprovedRecord}
    (ha : a ∈ s.records)
    {v : ApprovedVersion} (hv : a.head? = some v) {p : Proposal} (hpm : p ∈ s.proposals)
    (hid : p.id = v.origin) : p.state.isOpen = false := by
  obtain ⟨q, hq, hqid, hclosed⟩ := hp.origins a ha v (List.mem_of_find?_eq_some hv)
  rwa [List.inj_on_of_nodup_map hs.wf.proposalIds hpm hq (hid.trans hqid.symm)]

/-- An input that a recorded winner waives has the key and the value of a head of its run. -/
theorem Peers.winner_in_run (hp : Peers T s) (hs : Tables s)
    (hdisc : s.discover body.extractionIds = .ok (runIds, plan.groups)) {r : ReviewRun}
    (hr : r ∈ s.runs) (hper : r.perRun = true) {p : Proposal} (hpm : p ∈ s.proposals)
    (hprun : p.runId = r.id) {g : ConflictDetail} (hg : g ∈ plan.groups) (hpg : p.id ∈ g.members)
    {a : ApprovedRecord} {v : ApprovedVersion} (hav : (a, v) ∈ s.heads runIds)
    (hvg : v.origin ∈ g.members) : v.OriginIn s r.id := by
  obtain ⟨c, hc, -, -, hmem, -⟩ := hs.wf.conflict_of_group hdisc hg
  obtain ⟨-, -, q, hq, -⟩ := mem_heads.mp hav
  obtain ⟨hqm, hqid⟩ := hs.wf.proposal?_eq.mp hq
  have hrun :=
    hp.same_run hc hpm hqm ((hmem p.id).mp hpg) (hqid ▸ (hmem _).mp hvg) hr hprun.symm hper
  exact ⟨q, hqm, hqid, hrun.trans hprun⟩

/-- **Old and new**: the draft of an input has the value of every head of its run with its key. -/
theorem Peers.value_eq_of_head (hp : Peers T s) (hs : Tables s) (hok : PlanOk T s body plan)
    (hdisc : s.discover body.extractionIds = .ok (runIds, plan.groups))
    (hcmp : Comparison T s body plan.groups runIds drafts) {r : ReviewRun} (hr : r ∈ s.runs)
    (hper : r.perRun = true) {d : Draft} (hd : d ∈ drafts) {p : Proposal} (hpm : p ∈ s.proposals)
    (hpid : p.id = d.id) (hsel : p.id ∈ body.extractionIds) (hprun : p.runId = r.id)
    {a : ApprovedRecord} (ha : a ∈ s.records) {v : ApprovedVersion} (hv : a.head? = some v)
    (hin : v.OriginIn s r.id) (hkey : T.versionKey v = T.draftKey d) :
    T.valueFingerprint v.payload = T.valueFingerprint d.payload := by
  have hav := mem_heads_of_originIn hs hdisc hpm hsel ha hv (hprun ▸ hin)
  obtain ⟨q, hq, hqid, hqrun⟩ := hin
  have hclosed := hp.closed_origin hs ha hv hq hqid
  obtain ⟨dv, hdv, hdvid, hdvkey⟩ := hcmp.heads a v hav d hd (hpid ▸ hsel) hkey
  have hne : d.id ≠ dv.id := by
    intro heq
    obtain ⟨p', hp', hpid', hopen, -⟩ := hok.inputs _ hsel
    rw [List.inj_on_of_nodup_map hs.wf.proposalIds hp' hq
      (hpid'.trans (hpid.trans (heq.trans (hdvid.trans hqid.symm)))), hclosed] at hopen
    cases hopen
  have hkeys : T.draftKey d = T.draftKey dv := hkey.symm.trans hdvkey.symm
  obtain ⟨c, hc, hckey⟩ := exists_detected hd hdv hne hkeys
  have hdc : d.id ∈ c.memberProposalIds := (mem_memberProposalIds hc).mpr ⟨d, hd, rfl, hckey.symm⟩
  have hvc : dv.id ∈ c.memberProposalIds :=
    (mem_memberProposalIds hc).mpr ⟨dv, hdv, rfl, hkeys.symm.trans hckey.symm⟩
  rcases hcmp.checked c hc d hd hdc (hpid ▸ hsel) with ⟨g, hg, hopen, hcover, -⟩ |
    ⟨g, hg, hdg, b, w, hbw, hwg, hwkey, hwfp⟩
  · -- an open group has no member that is approved
    obtain ⟨c', hc', -, hst, hmem, -⟩ := hs.wf.conflict_of_group hdisc hg
    have hqc : q.id ∈ c'.members := by
      rw [hqid, ← hdvid]
      exact (hmem _).mp (hcover _ hvc)
    rw [hp.openMembers c' hc' (hst.symm.trans hopen) q hq hqc] at hclosed
    cases hclosed
  · -- the winner is a head of the same run
    obtain ⟨hb, hw, -⟩ := mem_heads.mp hbw
    have hwin := hp.winner_in_run hs hdisc hr hper hpm hprun hg (hpid ▸ hdg) hbw hwg
    by_cases heq : a.id = b.id
    · obtain rfl := List.inj_on_of_nodup_map hs.recordIds ha hb heq
      obtain rfl := Option.some.inj (hv.symm.trans hw)
      exact hwfp.symm
    · rcases hp.agree r hr hper a ha b hb heq v w hv hw ⟨q, hq, hqid, hqrun⟩ hwin with hdiff | hsame
      · exact absurd (hkey.trans hwkey) hdiff
      · exact hsame.trans hwfp.symm

/-- The inputs of an open group are winners of an acceptance. -/
theorem winners_of_decision (hs : Tables s) (hok : PlanOk T s body plan)
    (hdisc : s.discover body.extractionIds = .ok (runIds, plan.groups))
    (haction : body.action.name = .accept ∨ body.action.name = .edit) {g : ConflictDetail}
    (hg : g ∈ plan.groups) {e : ConflictDecision} (he : e ∈ body.conflictResolution)
    (hid : e.conflictId = g.id) {m : String} (hm : m ∈ g.members) (hsel : m ∈ body.extractionIds) :
    m ∈ e.selectedWinnerIds := by
  obtain ⟨c, hc, hcid, -, -, -, haccepted⟩ := hok.decided e he
  obtain ⟨c', hc', hgid, -, hmem, -⟩ := hs.wf.conflict_of_group hdisc hg
  obtain rfl := List.inj_on_of_nodup_map hs.wf.conflictIds hc hc' (hcid.trans (hid.trans hgid))
  exact haccepted haction m ((hmem m).mp hm) hsel

/-- **New and new**: two accepted inputs of a run with one key have one value. -/
theorem Peers.value_eq_of_inputs (hp : Peers T s) (hs : Tables s) (hok : PlanOk T s body plan)
    (hdisc : s.discover body.extractionIds = .ok (runIds, plan.groups))
    (hcmp : Comparison T s body plan.groups runIds drafts)
    (haction : body.action.name = .accept ∨ body.action.name = .edit) {r : ReviewRun}
    (hr : r ∈ s.runs)
    (hper : r.perRun = true) {d e : Draft} (hd : d ∈ drafts) (he : e ∈ drafts) (hne : d.id ≠ e.id)
    {p q : Proposal} (hpm : p ∈ s.proposals) (hpid : p.id = d.id)
    (hpsel : p.id ∈ body.extractionIds)
    (hprun : p.runId = r.id) (hqm : q ∈ s.proposals) (hqid : q.id = e.id)
    (hqsel : q.id ∈ body.extractionIds) (hqrun : q.runId = r.id)
    (hkey : T.draftKey d = T.draftKey e) :
    T.valueFingerprint d.payload = T.valueFingerprint e.payload := by
  obtain ⟨c, hc, hckey⟩ := exists_detected hd he hne hkey
  have hdc : d.id ∈ c.memberProposalIds := (mem_memberProposalIds hc).mpr ⟨d, hd, rfl, hckey.symm⟩
  have hec : e.id ∈ c.memberProposalIds :=
    (mem_memberProposalIds hc).mpr ⟨e, he, rfl, hkey.symm.trans hckey.symm⟩
  rcases hcmp.checked c hc d hd hdc (hpid ▸ hpsel) with
    ⟨g, hg, -, hcover, dec, hdec, hdecid, hone⟩ | ⟨g, hg, hdg, b, w, hbw, hwg, hwkey, hwfp⟩
  · -- both would be winners of one open group
    have hwd :=
      winners_of_decision hs hok hdisc haction hg hdec hdecid (hcover _ hdc) (hpid ▸ hpsel)
    have hwe :=
      winners_of_decision hs hok hdisc haction hg hdec hdecid (hcover _ hec) (hqid ▸ hqsel)
    have hd' : d.id ∈ c.memberProposalIds.filter dec.selectedWinnerIds.contains :=
      List.mem_filter.mpr ⟨hdc, List.contains_iff_mem.mpr hwd⟩
    have he' : e.id ∈ c.memberProposalIds.filter dec.selectedWinnerIds.contains :=
      List.mem_filter.mpr ⟨hec, List.contains_iff_mem.mpr hwe⟩
    have htwo : 1 < (c.memberProposalIds.filter dec.selectedWinnerIds.contains).length := by
      rcases hl : c.memberProposalIds.filter dec.selectedWinnerIds.contains with
        _ | ⟨x, _ | ⟨y, rest⟩⟩
      · rw [hl] at hd'
        cases hd'
      · rw [hl, List.mem_singleton] at hd' he'
        exact absurd (hd'.trans he'.symm) hne
      · simp
    have hmerge := hone htwo
    rw [hmerge] at haction
    simp at haction
  · obtain ⟨hb, hw, -⟩ := mem_heads.mp hbw
    have hwin := hp.winner_in_run hs hdisc hr hper hpm hprun hg (hpid ▸ hdg) hbw hwg
    rw [hwfp]
    exact hp.value_eq_of_head hs hok hdisc hcmp hr hper he hqm hqid hqsel hqrun hb hw hwin
      (hwkey.symm.trans hkey)

end Inputs

/-! ## A review keeps the invariant -/

/-- What a new record stands for. -/
structure NewHead (T : Revalidation) (body : ReviewBody) (drafts : List Draft) (a : ApprovedRecord)
    (pid : String) (d : Draft) : Prop where
  selected : pid ∈ body.extractionIds
  mem : d ∈ drafts
  id : d.id = pid
  versions : ∀ v ∈ a.versions, v.origin = pid ∧ v.payload = d.payload.stripped
    ∧ v.comparability = d.comparability

/-- The records of a review, with the inputs that they come from. -/
theorem newRecords_heads {body : ReviewBody} {plan : ReviewPlan} {fresh : FreshIds}
    {runIds : List String} {rows : List Row}
    (hfresh : s.areFresh fresh plan.approvals.length = true)
    (happ : T.approvals s body runIds plan.groups rows = .ok plan.approvals) :
    ∃ current origins patched relevant drafts waived,
      s.currentRows T rows runIds = .ok (current, origins)
      ∧ patchedRows body.action body.extractionIds current = .ok patched
      ∧ T.relevantRows patched body.extractionIds (plan.groups.flatMap ConflictDetail.members)
        = .ok relevant
      ∧ T.evaluate relevant = .ok drafts
      ∧ T.checkEvaluated drafts body.extractionIds plan.groups body.conflictResolution
      body.action.name
          origins = .ok waived
      ∧ (∀ a ∈ newRecords plan.approvals fresh, ∃ pid d, NewHead T body drafts a pid d)
      ∧ ∀ a ∈ newRecords plan.approvals fresh, ∀ b ∈ newRecords plan.approvals fresh, a ≠ b →
        (∀ source, body.action ≠ .merge source) ∧ ∀ u ∈ a.versions, ∀ v ∈ b.versions,
          u.origin ≠ v.origin := by
  simp only [ReviewDb.areFresh, Bool.and_eq_true, beq_iff_eq] at hfresh
  have hrecords := newRecords_forall₂ hfresh.1.2 hfresh.2
  obtain ⟨current, origins, patched, relevant, drafts, waived, hcur, hpat, hrel, heval, hcheck,
    happ⟩ := approvals_eq_ok happ
  refine ⟨current, origins, patched, relevant, drafts, waived, hcur, hpat, hrel, heval, hcheck, ?_⟩
  rcases happ with ⟨source, d, runs, haction, hd, hone⟩ | ⟨hnot, hall⟩
  · -- a merge makes one record
    obtain ⟨hsource, hid, d₀, hd₀, hpay, hcomp⟩ := mergedDraft_id hd
    rw [hone] at hrecords
    obtain ⟨a, rest, ⟨recordId, versionId, rfl⟩, hnil, hlist⟩ :=
      List.forall₂_cons_right_iff.mp hrecords
    obtain rfl := List.forall₂_nil_right_iff.mp hnil
    rw [hone, hlist]
    refine ⟨?_, ?_⟩
    · intro a ha
      obtain rfl := List.mem_singleton.mp ha
      refine ⟨source, d₀, hsource, (draftOf_eq_ok hd₀).1, (draftOf_eq_ok hd₀).2, ?_⟩
      intro v hv
      obtain rfl := List.mem_singleton.mp hv
      exact ⟨hid, congrArg Doc.stripped hpay, hcomp⟩
    · intro a ha b hb hne
      exact absurd ((List.mem_singleton.mp ha).trans (List.mem_singleton.mp hb).symm) hne
  · obtain ⟨hlen₁, hrec⟩ := List.forall₂_iff_get.mp hrecords
    obtain ⟨hlen₂, hdraft⟩ := List.forall₂_iff_get.mp hall
    have hhead : ∀ i (hi : i < (newRecords plan.approvals fresh).length)
        (hi' : i < body.extractionIds.length), ∃ d, NewHead T body drafts
          ((newRecords plan.approvals fresh).get ⟨i, hi⟩) (body.extractionIds.get ⟨i, hi'⟩) d := by
      intro i hi hi'
      obtain ⟨recordId, versionId, heq⟩ := hrec i hi (by omega)
      have hd := hdraft i hi' (by omega)
      refine ⟨_, List.get_mem _ _, (draftOf_eq_ok hd).1, (draftOf_eq_ok hd).2, ?_⟩
      intro v hv
      rw [heq] at hv
      obtain rfl := List.mem_singleton.mp hv
      exact ⟨(draftOf_eq_ok hd).2, rfl, rfl⟩
    refine ⟨?_, ?_⟩
    · intro a ha
      obtain ⟨⟨i, hi⟩, rfl⟩ := List.mem_iff_get.mp ha
      exact ⟨_, hhead i hi (by omega)⟩
    · intro a ha b hb hne
      refine ⟨hnot, ?_⟩
      obtain ⟨⟨i, hi⟩, rfl⟩ := List.mem_iff_get.mp ha
      obtain ⟨⟨j, hj⟩, rfl⟩ := List.mem_iff_get.mp hb
      intro u hu v hv heq
      obtain ⟨d, hd⟩ := hhead i hi (by omega)
      obtain ⟨e, he⟩ := hhead j hj (by omega)
      rw [(hd.versions u hu).1, (he.versions v hv).1] at heq
      have hij := (List.Nodup.get_inj_iff body.unique).mp heq
      rw [Fin.mk.injEq] at hij
      subst hij
      exact hne rfl

/-- The head of a new record has the key of its draft. -/
theorem NewHead.key {body : ReviewBody} {drafts : List Draft} {a : ApprovedRecord} {pid : String}
    {d : Draft} (h : NewHead T body drafts a pid d) {v : ApprovedVersion} (hv : a.head? = some v) :
    v.origin = pid ∧ T.versionKey v = T.draftKey d
      ∧ T.valueFingerprint v.payload = T.valueFingerprint d.payload := by
  obtain ⟨horigin, hpay, hcomp⟩ := h.versions v (List.mem_of_find?_eq_some hv)
  refine ⟨horigin, ?_, ?_⟩
  · rw [Revalidation.versionKey, hpay, hcomp, T.conflictKeyFor_stripped, Revalidation.draftKey]
  · rw [hpay, T.valueFingerprint_stripped]

/-- An origin in the tables after a review is an origin before it. -/
theorem originIn_reviewWritten {body : ReviewBody} {plan : ReviewPlan} {fresh : FreshIds}
    {runs : List ReviewRun} {run : String} {v : ApprovedVersion}
    (h : v.OriginIn { s.reviewWritten body plan fresh with runs := runs } run) :
    v.OriginIn s run := by
  obtain ⟨p, hp, hid, hrun⟩ := h
  obtain ⟨p₀, hp₀, rfl⟩ := List.mem_map.mp hp
  rw [Proposal.disposed_id] at hid
  rw [Proposal.disposed_runId] at hrun
  exact ⟨p₀, hp₀, hid, hrun⟩

/-- **A review keeps the agreement.** -/
theorem Peers.agree_review (hT : T.Lawful) (hp : Peers T s) (hs : Tables s) {body : ReviewBody}
    {plan : ReviewPlan} {fresh : FreshIds} (hplan : T.planReview s body = .ok plan)
    (hfresh : s.areFresh fresh plan.approvals.length = true) :
    FiguresAgree T (s.commitReview body plan fresh) := by
  have hok := hs.wf.planOk hplan
  obtain ⟨runIds, rows, hdisc, hrows, -, -, happ, -⟩ := planReview_eq_ok hplan
  rw [ReviewDb.commitReview_eq]
  intro r hr hper a ha b hb hne u v hu hv hinu hinv
  obtain ⟨r₀, hr₀, rfl⟩ := List.mem_map.mp hr
  rw [ReviewRun.finishedIn_perRun] at hper
  rw [ReviewRun.finishedIn_id] at hinu hinv
  replace hinu := originIn_reviewWritten hinu
  replace hinv := originIn_reviewWritten hinv
  rw [or_iff_not_imp_left, not_not]
  intro hkey
  by_cases hreject : body.action = .reject
  · -- a rejection adds no records
    have hnil : plan.approvals = [] := by
      rw [Revalidation.approvalsFor, hreject] at happ
      exact (Except.ok.inj happ).symm
    have hsame : ∀ x ∈ s.records ++ newRecords plan.approvals fresh, x ∈ s.records := by
      intro x hx
      simpa [newRecords, hnil] using hx
    exact (hp.agree r₀ hr₀ hper a (hsame a ha) b (hsame b hb) hne u v hu hv hinu hinv).resolve_left
      (not_not.mpr hkey)
  · have happ' : T.approvals s body runIds plan.groups rows = .ok plan.approvals := by
      rw [Revalidation.approvalsFor] at happ
      split at happ
      case h_1 haction => exact absurd haction hreject
      case h_2 => exact happ
    obtain ⟨current, origins, patched, relevant, drafts, waived, hcur, hpat, hrel,
      heval, hcheck, hnew,
      hpair⟩ := newRecords_heads hfresh happ'
    have hcmp := comparison_of_approvals hT hs hp hok hrows hcur hpat hrel heval hcheck
    -- an old head and a new one
    have hold : ∀ x ∈ s.records, ∀ y ∈ newRecords plan.approvals fresh, ∀ w z, x.head? = some w →
        y.head? = some z → w.OriginIn s r₀.id → z.OriginIn s r₀.id →
          T.versionKey w = T.versionKey z →
        T.valueFingerprint w.payload = T.valueFingerprint z.payload := by
      intro x hx y hy w z hw hz hinw hinz hwz
      obtain ⟨pid, d, hd⟩ := hnew y hy
      obtain ⟨horigin, hzkey, hzfp⟩ := hd.key hz
      obtain ⟨p, hpm, hpid, hprun⟩ := hinz
      rw [hzfp]
      exact hp.value_eq_of_head hs hok hdisc hcmp hr₀ hper hd.mem hpm
        (hpid.trans (horigin.trans hd.id.symm)) (hpid.trans horigin ▸ hd.selected) hprun hx hw hinw
        (hwz.trans hzkey)
    rcases List.mem_append.mp ha with ha | ha <;> rcases List.mem_append.mp hb with hb | hb
    · exact (hp.agree r₀ hr₀ hper a ha b hb hne u v hu hv hinu hinv).resolve_left (not_not.mpr hkey)
    · exact hold a ha b hb u v hu hv hinu hinv hkey
    · exact (hold b hb a ha v u hv hu hinv hinu hkey.symm).symm
    · -- two new heads
      obtain ⟨hnomerge, horigins⟩ := hpair a ha b hb fun heq => hne (congrArg ApprovedRecord.id heq)
      obtain ⟨pid, d, hd⟩ := hnew a ha
      obtain ⟨qid, e, he⟩ := hnew b hb
      obtain ⟨huo, hukey, hufp⟩ := hd.key hu
      obtain ⟨hvo, hvkey, hvfp⟩ := he.key hv
      obtain ⟨p, hpm, hpid, hprun⟩ := hinu
      obtain ⟨q, hqm, hqid, hqrun⟩ := hinv
      have haction : body.action.name = .accept ∨ body.action.name = .edit := by
        cases hact : body.action with
        | accept => exact .inl rfl
        | edit patch => exact .inr rfl
        | reject => exact absurd hact hreject
        | merge source => exact absurd hact (hnomerge source)
      have hdne : d.id ≠ e.id := by
        rw [hd.id, he.id, ← huo, ← hvo]
        exact horigins u (List.mem_of_find?_eq_some hu) v (List.mem_of_find?_eq_some hv)
      rw [hufp, hvfp]
      exact hp.value_eq_of_inputs hs hok hdisc hcmp haction hr₀ hper hd.mem he.mem hdne hpm
        (hpid.trans (huo.trans hd.id.symm)) (hpid.trans huo ▸ hd.selected) hprun hqm
        (hqid.trans (hvo.trans he.id.symm)) (hqid.trans hvo ▸ he.selected) hqrun
        (hukey.symm.trans (hkey.trans hvkey))

/-- The drafts that a review approves are the validator's. -/
theorem certified_newRecords (hT : T.Lawful) {body : ReviewBody} {plan : ReviewPlan}
    {fresh : FreshIds}
    (hplan : T.planReview s body = .ok plan)
    (hfresh : s.areFresh fresh plan.approvals.length = true)
    {a : ApprovedRecord} (ha : a ∈ newRecords plan.approvals fresh) {v : ApprovedVersion}
    (hv : v ∈ a.versions) : v.origin ∈ body.extractionIds ∧ Certified T v := by
  obtain ⟨runIds, rows, -, -, -, -, happ, -⟩ := planReview_eq_ok hplan
  rw [Revalidation.approvalsFor] at happ
  split at happ
  case h_1 =>
      rw [Except.ok.injEq] at happ
      simp [newRecords, ← happ] at ha
  case h_2 =>
      obtain ⟨_, _, _, relevant, drafts, _, -, -, -, heval, -, hnew, -⟩ :=
        newRecords_heads hfresh happ
      obtain ⟨pid, d, hd⟩ := hnew a ha
      obtain ⟨horigin, hpay, hcomp⟩ := hd.versions v hv
      obtain ⟨row, -, hfrom⟩ := exists_left_of_forall₂ (hT.evaluate heval) hd.mem
      obtain ⟨rows', bodies, b, hbodies, hmem, hbpay, hbcomp⟩ := hfrom.body
      exact ⟨horigin ▸ hd.selected, rows', bodies, b, hbodies, hmem,
        hpay.trans (congrArg Doc.stripped hbpay), hcomp.trans hbcomp⟩

/-- **A review keeps the invariant.** -/
theorem Peers.review (hT : T.Lawful) (hp : Peers T s) (hs : Tables s) {body : ReviewBody}
    {plan : ReviewPlan} {fresh : FreshIds} (hplan : T.planReview s body = .ok plan)
    (hfresh : s.areFresh fresh plan.approvals.length = true) :
    Peers T (s.commitReview body plan fresh) := by
  have hok := hs.wf.planOk hplan
  have hagree := hp.agree_review hT hs hplan hfresh
  rw [ReviewDb.commitReview_eq] at hagree ⊢
  refine ⟨?_, ?_, ?_, ?_, hagree⟩
  · intro c hc hst p hpm hmem
    replace hc : c ∈ (s.reviewWritten body plan fresh).conflicts := hc
    rw [ReviewDb.reviewWritten_conflicts] at hc
    obtain ⟨c₀, hc₀, rfl⟩ := List.mem_map.mp hc
    obtain ⟨p₀, hp₀, rfl⟩ := List.mem_map.mp hpm
    rw [Proposal.disposed_id, Conflict.resolvedBy_members] at hmem
    have hopen :
        c₀.status = .opened ∧ c₀.id ∉ body.conflictResolution.map ConflictDecision.conflictId := by
      constructor
      · cases hc₀st : c₀.status with
        | opened => rfl
        | resolved =>
            rw [(Conflict.resolvedBy_status _ c₀).mpr (.inr hc₀st)] at hst
            cases hst
      · intro hin
        rw [(Conflict.resolvedBy_status _ c₀).mpr (.inl hin)] at hst
        cases hst
    -- an input of the conflict would have had it decided
    by_cases hsel : p₀.id ∈ body.extractionIds
    · exact absurd (hok.decides c₀ hc₀ hopen.1 ⟨p₀.id, hmem, hsel⟩) hopen.2
    · rw [Proposal.disposed_of_notMem hsel]
      exact hp.openMembers c₀ hc₀ hopen.1 p₀ hp₀ hmem
  · intro a ha v hv
    have hclosed : ∀ p ∈ s.proposals, p.id = v.origin → p.state.isOpen = false ∨
        p.id ∈ body.extractionIds →
        ∃ p ∈ (s.reviewWritten body plan fresh).proposals, p.id = v.origin ∧
          p.state.isOpen = false := by
      intro p hpm hid hst
      refine ⟨_, List.mem_map_of_mem hpm, (Proposal.disposed_id _ _ p).trans hid, ?_⟩
      by_cases hsel : p.id ∈ body.extractionIds
      · simp [Proposal.disposed, hsel, ActionName.disposition_closed]
      · rw [Proposal.disposed_of_notMem hsel]
        exact hst.resolve_right hsel
    rcases List.mem_append.mp ha with ha | ha
    · obtain ⟨p, hpm, hid, hst⟩ := hp.origins a ha v hv
      exact hclosed p hpm hid (.inl hst)
    · have hsel := (certified_newRecords hT hplan hfresh ha hv).1
      obtain ⟨p, hpm, hid, -⟩ := hok.inputs _ hsel
      exact hclosed p hpm hid (.inr (hid ▸ hsel))
  · intro a ha v hv
    rcases List.mem_append.mp ha with ha | ha
    · exact hp.certified a ha v hv
    · exact (certified_newRecords hT hplan hfresh ha hv).2
  · intro c hc p hpm hmem
    replace hc : c ∈ (s.reviewWritten body plan fresh).conflicts := hc
    rw [ReviewDb.reviewWritten_conflicts] at hc
    obtain ⟨c₀, hc₀, rfl⟩ := List.mem_map.mp hc
    obtain ⟨p₀, hp₀, rfl⟩ := List.mem_map.mp hpm
    rw [Proposal.disposed_id, Conflict.resolvedBy_members] at hmem
    have hocc :
        (c₀.resolvedBy (body.conflictResolution.map ConflictDecision.conflictId)).occurrenceRunId
        = c₀.occurrenceRunId := by
      unfold Conflict.resolvedBy
      split_ifs <;> rfl
    rw [hocc, Proposal.disposed_runId]
    refine ⟨?_, (hp.occurrence c₀ hc₀ p₀ hp₀ hmem).2⟩
    intro r hr hid hper
    obtain ⟨r₀, hr₀, rfl⟩ := List.mem_map.mp hr
    rw [ReviewRun.finishedIn_id] at hid
    rw [ReviewRun.finishedIn_perRun] at hper
    exact (hp.occurrence c₀ hc₀ p₀ hp₀ hmem).1 r₀ hr₀ hid hper

/-! ## A correction keeps the invariant -/

/-- A corrected head has the key of no other head of its run. -/
theorem Peers.correction_key_ne (hT : T.Lawful) (hp : Peers T s) (hs : Tables s) {c : Correction}
    {old : ApprovedVersion} {d : Draft} (hplan : T.planCorrection s c = .ok (old, d))
    {record b : ApprovedRecord} (hrec : s.record? c.recordId = some record) (hb : b ∈ s.records)
    (hne : b.id ≠ record.id) {v : ApprovedVersion} (hv : b.head? = some v) {run : String}
    (hold : old.OriginIn s run) (hin : v.OriginIn s run) : T.versionKey v ≠ T.draftKey d := by
  intro hkey
  obtain ⟨record', peerRuns, groups, rows, current, origins, source, relevant, drafts, hrec', hhead,
    hdisc, hrows, hcur, -, hrel, heval, hd, hnone⟩ := planCorrection_eq_ok hplan
  obtain rfl := Option.some.inj (hrec.symm.trans hrec')
  obtain ⟨hrecm, -⟩ := (find?_eq_some_iff_of_nodup hs.recordIds).mp hrec
  obtain ⟨hdm, hdid⟩ := draftOf_eq_ok hd
  have hc := currentRows_eq_ok hcur
  obtain ⟨p, hpm, hpid, rfl⟩ := hold
  obtain ⟨q, hqm, hqid, hqrun⟩ := hin
  obtain ⟨-, -, hlocked⟩ := discover_eq_ok hdisc
  have hrun : p.runId ∈ (peerRuns ++ old.sourceRuns).dedup.insertionSort (· ≤ ·) := by
    rw [List.mem_insertionSort, List.mem_dedup]
    exact List.mem_append_left _ (hlocked p hpm (.inl (by simp [hpid])))
  have hbv := mem_heads.mpr ⟨hb, hv, q, hs.wf.proposal?_eq.mpr ⟨hqm, hqid⟩, .inl (hqrun ▸ hrun)⟩
  have hro := mem_heads.mpr ⟨hrecm, hhead, p, hs.wf.proposal?_eq.mpr ⟨hpm, hpid⟩, .inl hrun⟩
  have horigin : v.origin ≠ old.origin := by
    intro heq
    have := List.inj_on_of_nodup_map hc.distinct hbv hro heq
    exact hne (congrArg (fun h => h.1.id) this)
  -- the other head is compared with the correction
  obtain ⟨row, hrow, hid, hpay⟩ := hc.heads _ hbv
  have hpool : row ∈ current.filter fun row => row.id != old.origin :=
    List.mem_filter.mpr ⟨hrow, by simpa [hid] using horigin⟩
  obtain ⟨dv, hdv, hdvid, hdvkey, -⟩ := exists_draft_of_head hT hrel heval
    (hp.certified b hb v (List.mem_of_find?_eq_some hv)) (List.mem_append_left _ hpool) hpay hdm
    (by simp [hdid]) hkey
  have hdne : d.id ≠ dv.id := by
    rw [hdid, hdvid, hid]
    exact horigin.symm
  obtain ⟨g, hg, hgkey⟩ := exists_detected hdm hdv hdne (hkey.symm.trans hdvkey.symm)
  have hmem : old.origin ∈ g.memberProposalIds :=
    (mem_memberProposalIds hg).mpr ⟨d, hdm, hdid, hgkey.symm⟩
  rw [← Bool.not_eq_true] at hnone
  exact hnone (List.any_eq_true.mpr ⟨g, hg, List.contains_iff_mem.mpr hmem⟩)

/-- **A correction keeps the invariant.** -/
theorem Peers.correct (hT : T.Lawful) (hp : Peers T s) (hs : Tables s) {c : Correction}
    {old : ApprovedVersion} {d : Draft} {versionId : String}
    (hplan : T.planCorrection s c = .ok (old, d)) (hfresh : s.isFreshId versionId = true) :
    Peers T (s.commitCorrection c.recordId old d versionId) := by
  obtain ⟨record, peerRuns, groups, rows, current, origins, source, relevant, drafts, hrec, hhead,
    hdisc, hrows, hcur, hsource, hrel, heval, hd, hnone⟩ := planCorrection_eq_ok hplan
  obtain ⟨hrecm, hrecid⟩ := (find?_eq_some_iff_of_nodup hs.recordIds).mp hrec
  obtain ⟨hdm, hdid⟩ := draftOf_eq_ok hd
  obtain ⟨row, hrow, hfrom⟩ := exists_left_of_forall₂ (hT.evaluate heval) hdm
  have holdm := List.mem_of_find?_eq_some hhead
  -- a version of the corrected record
  have hversions : ∀ a ∈ (s.commitCorrection c.recordId old d versionId).records, ∃ a₀ ∈ s.records,
      a.id = a₀.id ∧ ((a₀.id ≠ record.id ∧ a = a₀) ∨ (a₀ = record ∧ a = record.appended
        (d.version versionId (old.version + 1) (some old.id) old.sourceRuns))) := by
    intro a ha
    obtain ⟨a₀, ha₀, rfl⟩ := List.mem_map.mp ha
    by_cases hid : a₀.id = c.recordId
    · obtain rfl := List.inj_on_of_nodup_map hs.recordIds ha₀ hrecm (hid.trans hrecid.symm)
      rw [if_pos hid]
      exact ⟨a₀, ha₀, rfl, .inr ⟨rfl, rfl⟩⟩
    · rw [if_neg hid]
      exact ⟨a₀, ha₀, rfl, .inl ⟨fun heq => hid (heq.trans hrecid), rfl⟩⟩
  refine ⟨hp.openMembers, ?_, ?_, hp.occurrence, ?_⟩
  · intro a ha v hv
    obtain ⟨a₀, ha₀, -, ⟨-, rfl⟩ | ⟨rfl, rfl⟩⟩ := hversions a ha
    · exact hp.origins a ha₀ v hv
    · rcases List.mem_append.mp hv with hv | hv
      · exact hp.origins a₀ ha₀ v hv
      · obtain rfl := List.mem_singleton.mp hv
        obtain ⟨p, hpm, hid, hst⟩ := hp.origins a₀ ha₀ old holdm
        exact ⟨p, hpm, hid.trans hdid.symm, hst⟩
  · intro a ha v hv
    obtain ⟨a₀, ha₀, -, ⟨-, rfl⟩ | ⟨rfl, rfl⟩⟩ := hversions a ha
    · exact hp.certified a ha₀ v hv
    · rcases List.mem_append.mp hv with hv | hv
      · exact hp.certified a₀ ha₀ v hv
      · obtain rfl := List.mem_singleton.mp hv
        obtain ⟨rows', bodies, b, hbodies, hmem, hbpay, hbcomp⟩ := hfrom.body
        exact ⟨rows', bodies, b, hbodies, hmem, congrArg Doc.stripped hbpay, hbcomp⟩
  · intro r hr hper a ha b hb hne u v hu hv hinu hinv
    have hnewhead : ∀ w, (record.appended (d.version versionId (old.version + 1) (some old.id)
        old.sourceRuns)).head? = some w → T.versionKey w = T.draftKey d ∧
          w.origin = old.origin := by
      intro w hw
      have hchained := (hs.correct hplan hfresh).chained _ (List.mem_map.mpr
        ⟨record, hrecm, if_pos hrecid⟩)
      obtain ⟨w', hlast, hw'⟩ := hchained.head
      obtain rfl := Option.some.inj (hw.symm.trans hw')
      rw [ApprovedRecord.appended, List.getLast?_append, List.getLast?_singleton, Option.some_or,
        Option.some.injEq] at hlast
      rw [← hlast]
      exact ⟨T.conflictKeyFor_stripped d.payload d.comparability, hdid⟩
    obtain ⟨a₀, ha₀, haid, ⟨hane, rfl⟩ | ⟨rfl, rfl⟩⟩ := hversions a ha
    · obtain ⟨b₀, hb₀, hbid, ⟨hbne, rfl⟩ | ⟨rfl, rfl⟩⟩ := hversions b hb
      · exact hp.agree r hr hper a ha₀ b hb₀ hne u v hu hv hinu hinv
      · obtain ⟨hkey, horigin⟩ := hnewhead v hv
        obtain ⟨q, hqm, hqid, hqrun⟩ := hinv
        left
        rw [hkey]
        exact hp.correction_key_ne hT hs hplan hrec ha₀ hane hu ⟨q, hqm, hqid.trans horigin,
          hqrun⟩ hinu
    · obtain ⟨b₀, hb₀, hbid, ⟨hbne, rfl⟩ | ⟨rfl, rfl⟩⟩ := hversions b hb
      · obtain ⟨hkey, horigin⟩ := hnewhead u hu
        obtain ⟨q, hqm, hqid, hqrun⟩ := hinu
        left
        rw [hkey]
        exact (hp.correction_key_ne hT hs hplan hrec hb₀ hbne hv ⟨q, hqm, hqid.trans horigin, hqrun⟩
          hinv).symm
      · exact absurd rfl hne

/-! ## The worker keeps the invariant -/

/-- Creating a run keeps the peers. -/
theorem Peers.createRun (hp : Peers T s) (hs : Tables s) {run : ReviewRun}
    (hnew : (s.run? run.id).isNone = true) : Peers T { s with runs := s.runs ++ [run] } := by
  -- a new run has no proposals
  have hfresh : ∀ p ∈ s.proposals, p.runId ≠ run.id := by
    intro p hpm heq
    obtain ⟨r, hr, hid⟩ := hs.owner p hpm
    rw [Option.isNone_iff_eq_none] at hnew
    have := List.find?_eq_none.mp hnew r hr
    simp [hid, heq] at this
  refine ⟨hp.openMembers, hp.origins, hp.certified, ?_, ?_⟩
  · intro c hc p hpm hmem
    refine ⟨?_, (hp.occurrence c hc p hpm hmem).2⟩
    intro r hr hid hper
    rcases List.mem_append.mp hr with hr | hr
    · exact (hp.occurrence c hc p hpm hmem).1 r hr hid hper
    · obtain rfl := List.mem_singleton.mp hr
      exact absurd hid.symm (hfresh p hpm)
  · intro r hr hper a ha b hb hne u v hu hv hinu hinv
    rcases List.mem_append.mp hr with hr | hr
    · exact hp.agree r hr hper a ha b hb hne u v hu hv hinu hinv
    · obtain rfl := List.mem_singleton.mp hr
      obtain ⟨p, hpm, -, hprun⟩ := hinu
      exact absurd hprun (hfresh p hpm)

/-- Setting a status keeps the peers. -/
theorem Peers.setRunStatus (hp : Peers T s) (hs : s.WF) {runId : String} {status : RunStatus}
    (h : s.setRunStatus runId status = .ok s') : Peers T s' := by
  obtain ⟨run, -, -, -, -, rfl⟩ := setRunStatus_eq_ok hs h
  have hback : ∀ r ∈ s.runs.map fun r => if r.id = runId then { r with status := status } else r,
      ∃ r₀ ∈ s.runs, r.id = r₀.id ∧ r.perRun = r₀.perRun := by
    intro r hr
    obtain ⟨r₀, hr₀, rfl⟩ := List.mem_map.mp hr
    refine ⟨r₀, hr₀, ?_⟩
    split_ifs <;> exact ⟨rfl, rfl⟩
  refine ⟨hp.openMembers, hp.origins, hp.certified, ?_, ?_⟩
  · intro c hc p hpm hmem
    refine ⟨?_, (hp.occurrence c hc p hpm hmem).2⟩
    intro r hr hid hper
    obtain ⟨r₀, hr₀, hid₀, hper₀⟩ := hback r hr
    exact (hp.occurrence c hc p hpm hmem).1 r₀ hr₀ (hid₀.symm.trans hid) (hper₀ ▸ hper)
  · intro r hr hper a ha b hb hne u v hu hv hinu hinv
    obtain ⟨r₀, hr₀, hid₀, hper₀⟩ := hback r hr
    rw [hid₀] at hinu hinv
    exact hp.agree r₀ hr₀ (hper₀ ▸ hper) a ha b hb hne u v hu hv hinu hinv

/-- Adding a proposal keeps the peers. -/
theorem Peers.addProposal (hp : Peers T s) (hs : Tables s) {p : Proposal}
    (hfresh : ∀ q ∈ s.proposals, q.id ≠ p.id) :
    Peers T { s with proposals := s.proposals ++ [p] } := by
  -- what is named already is another proposal
  have hold : ∀ q ∈ s.proposals ++ [p], (∃ q' ∈ s.proposals, q'.id = q.id) → q ∈ s.proposals := by
    rintro q hq ⟨q', hq', hid⟩
    rcases List.mem_append.mp hq with hq | hq
    · exact hq
    · obtain rfl := List.mem_singleton.mp hq
      exact absurd hid (hfresh q' hq')
  refine ⟨?_, ?_, hp.certified, ?_, ?_⟩
  · intro c hc hst q hq hmem
    exact hp.openMembers c hc hst q (hold q hq (hs.wf.members c hc _ hmem)) hmem
  · intro a ha v hv
    obtain ⟨q, hq, hid, hst⟩ := hp.origins a ha v hv
    exact ⟨q, List.mem_append_left _ hq, hid, hst⟩
  · intro c hc q hq hmem
    exact hp.occurrence c hc q (hold q hq (hs.wf.members c hc _ hmem)) hmem
  · intro r hr hper a ha b hb hne u v hu hv hinu hinv
    have hback : ∀ a ∈ s.records, ∀ w, a.head? = some w →
        w.OriginIn { s with proposals := s.proposals ++ [p] } r.id → w.OriginIn s r.id := by
      rintro a ha w hw ⟨q, hq, hid, hrun⟩
      obtain ⟨q', hq', hid', -⟩ := hp.origins a ha w (List.mem_of_find?_eq_some hw)
      exact ⟨q, hold q hq ⟨q', hq', hid'.trans hid.symm⟩, hid, hrun⟩
    exact hp.agree r hr hper a ha b hb hne u v hu hv (hback a ha u hu hinu) (hback b hb v hv hinv)

/-- The run of a group is that of its members, once one of them has opted in. -/
theorem occurrenceRun_eq_ok (hs : s.WF) {w : String} {members : List String}
    {occurrence : Option String}
    (h : s.occurrenceRun w members = .ok occurrence) :
    ∀ p ∈ s.proposals, p.id ∈ members →
      (∀ r ∈ s.runs, r.id = p.runId → r.perRun = true → occurrence = some p.runId)
        ∧ ∀ id, occurrence = some id → p.runId = id := by
  simp only [ReviewDb.occurrenceRun, bind_eq_ok_iff, raiseIf_eq_ok_iff, pure_eq_ok, Except.ok.injEq,
    not_not, not_and] at h
  obtain ⟨-, -, -, hall, -, hone, rfl⟩ := h
  intro p hpm hmem
  obtain ⟨q, hq, hid⟩ := List.any_eq_true.mp (List.all_eq_true.mp hall p.id hmem)
  obtain rfl :=
    List.inj_on_of_nodup_map hs.proposalIds (List.mem_filter.mp hq).1 hpm (by simpa using hid)
  have hrun := List.mem_dedup.mpr (List.mem_map_of_mem (f := Proposal.runId) hq)
  revert hone hrun
  generalize ((s.proposals.filter fun p => members.contains p.id && p.workspaceId == w).map
    Proposal.runId).dedup = runs
  intro hone hrun
  -- a run that has opted in is the only one
  have honly : ∀ id, id ∈ runs.filter (fun id => (s.run? id).any ReviewRun.perRun) →
      runs = [q.runId] := by
    intro id hin
    obtain ⟨x, hx⟩ := List.length_eq_one_iff.mp (hone (List.ne_nil_of_mem hin))
    rw [hx, List.mem_singleton] at hrun
    rw [hx, hrun]
  refine ⟨?_, ?_⟩
  · intro r hr hrid hper
    have hopted : q.runId ∈ runs.filter fun id => (s.run? id).any ReviewRun.perRun := by
      refine List.mem_filter.mpr ⟨hrun, ?_⟩
      rw [hs.run?_eq.mpr ⟨hr, hrid⟩]
      exact hper
    have hlist := honly _ hopted
    rw [hlist] at hopted ⊢
    have hq' : (s.run? q.runId).any ReviewRun.perRun = true := (List.mem_filter.mp hopted).2
    simp [hq']
  · intro id hid
    have hin := List.mem_of_head? hid
    have hlist := honly id hin
    rw [hlist] at hin
    exact (List.mem_singleton.mp (List.mem_filter.mp hin).1).symm

/-- A group of proposals of a run that is not yet waiting. -/
theorem Peers.joins (hp : Peers T s) (hs : Tables s) {w : String} {d : NewConflict}
    {joined : Conflict}
    {occurrence : Option String} (hocc : s.occurrenceRun w d.memberProposalIds = .ok occurrence)
    (hjocc : joined.occurrenceRunId = occurrence) (h : Joins s s' d joined)
    (hopen : ∀ p ∈ s.proposals, p.id ∈ d.memberProposalIds → p.state.isOpen = true) :
    Peers T s' := by
  refine ⟨?_, ?_, ?_, ?_, ?_⟩
  · intro c hc hst p hpm hmem
    rw [h.proposals] at hpm
    rcases (h.mem c).mp hc with rfl | ⟨hc, -⟩
    · rcases h.joining _ hmem with ⟨c₀, hc₀, -, hst₀, -, hm⟩ | ⟨hm, -⟩
      · exact hp.openMembers c₀ hc₀ hst₀ p hpm hm
      · exact hopen p hpm hm
    · exact hp.openMembers c hc hst p hpm hmem
  · rw [h.records, h.proposals]
    exact hp.origins
  · rw [h.records]
    exact hp.certified
  · intro c hc p hpm hmem
    rw [h.proposals] at hpm
    rw [h.runs]
    rcases (h.mem c).mp hc with rfl | ⟨hc, -⟩
    · rcases h.joining _ hmem with ⟨c₀, hc₀, -, -, hocc₀, hm⟩ | ⟨hm, -⟩
      · rw [← hocc₀]
        exact hp.occurrence c₀ hc₀ p hpm hm
      · rw [hjocc]
        exact occurrenceRun_eq_ok hs.wf hocc p hpm hm
    · exact hp.occurrence c hc p hpm hmem
  · intro r hr hper a ha b hb hne u v hu hv hinu hinv
    rw [h.runs] at hr
    rw [h.records] at ha hb
    simp only [ApprovedVersion.OriginIn, h.proposals] at hinu hinv
    exact hp.agree r hr hper a ha b hb hne u v hu hv hinu hinv

/-- The worker persists what it has found before its run waits for review. -/
def Desk.Orderly (k : Desk) : DeskAct → Prop
  | .persist runId _ conflicts => (k.db.run? runId).map ReviewRun.status ≠ some .waitingReview
      ∧ ∀ d ∈ conflicts, ∀ p ∈ k.db.proposals, p.id ∈ d.memberProposalIds → p.runId = runId
  | _ => True

/-- Adding the proposals of a run keeps the peers. -/
theorem Peers.foldl_insertProposal {run : ReviewRun} (hopen : run.status.isTerminal = false)
    (proposals : List NewProposal) {s : ReviewDb} (hp : Peers T s) (hs : Tables s)
    (hrun : run ∈ s.runs) :
    Peers T (proposals.foldl (ReviewDb.insertProposal run) s)
      ∧ ∀ p ∈ (proposals.foldl (ReviewDb.insertProposal run) s).proposals,
        p ∈ s.proposals ∨ p.runId = run.id := by
  induction proposals generalizing s with
  | nil => exact ⟨hp, fun p hpm => .inl hpm⟩
  | cons d proposals ih =>
      have hfirst := insertProposal_persisted hrun hopen d
      rw [List.foldl_cons]
      have hstep : Peers T (s.insertProposal run d)
          ∧ ∀ p ∈ (s.insertProposal run d).proposals, p ∈ s.proposals ∨ p.runId = run.id := by
        rcases insertProposal_eq run s d with h | ⟨p, hid, -, -, -, hfresh, h⟩
        · rw [h]
          exact ⟨hp, fun p hpm => .inl hpm⟩
        · rw [h]
          refine ⟨hp.addProposal hs hfresh, ?_⟩
          intro q hq
          rcases List.mem_append.mp hq with hq | hq
          · exact .inl hq
          · obtain rfl := List.mem_singleton.mp hq
            exact .inr hid
      obtain ⟨hpeers, hback⟩ := ih hstep.1 (hfirst.tables hs) (hfirst.runs ▸ hrun)
      refine ⟨hpeers, ?_⟩
      intro p hpm
      rcases hback p hpm with hpm | hid
      · exact hstep.2 p hpm
      · exact .inr hid

/-- Persisting the conflicts of a run keeps the peers. -/
theorem Peers.foldlM_persistConflict {w : String} (conflicts : List NewConflict) {s s' : ReviewDb}
    (hp : Peers T s) (hs : Tables s)
    (hopen : ∀ d ∈ conflicts, ∀ p ∈ s.proposals, p.id ∈ d.memberProposalIds → p.state.isOpen = true)
    (h : conflicts.foldlM (ReviewDb.persistConflict w) s = .ok s') : Peers T s' := by
  induction conflicts generalizing s with
  | nil =>
      rw [List.foldlM_nil, pure_eq_ok, Except.ok.injEq] at h
      exact h ▸ hp
  | cons d conflicts ih =>
      rw [List.foldlM_cons, bind_eq_ok_iff] at h
      obtain ⟨m, hm, h⟩ := h
      obtain ⟨occurrence, joined, hocc, hjocc, hj⟩ := hs.wf.joins hm
      refine ih (hp.joins hs hocc hjocc hj (hopen d List.mem_cons_self)) (hs.joins hj) ?_ h
      intro d' hd' p hpm
      rw [hj.proposals] at hpm
      exact hopen d' (List.mem_cons_of_mem d hd') p hpm

/-- **Persistence keeps the invariant.** -/
theorem Peers.persist (hp : Peers T s) (hs : Tables s) {runId : String}
    {proposals : List NewProposal}
    {conflicts : List NewConflict}
    (hstatus : (s.run? runId).map ReviewRun.status ≠ some .waitingReview)
    (hown : ∀ d ∈ conflicts, ∀ p ∈ s.proposals, p.id ∈ d.memberProposalIds → p.runId = runId)
    (h : s.persistOutputs runId proposals conflicts = .ok s') : Peers T s' := by
  simp only [ReviewDb.persistOutputs, bind_eq_ok_iff, orRaise_eq_ok_iff, raiseIf_eq_ok_iff,
    Bool.not_eq_true] at h
  obtain ⟨run, hrun, -, hopen, h⟩ := h
  obtain ⟨hmem, rfl⟩ := hs.wf.run?_eq.mp hrun
  rw [hrun, Option.map_some, ne_eq, Option.some.injEq] at hstatus
  have hadd := foldl_insertProposal_persisted hopen proposals hmem
  obtain ⟨hpeers, hback⟩ := hp.foldl_insertProposal hopen proposals hs hmem
  refine hpeers.foldlM_persistConflict conflicts (hadd.tables hs) ?_ h
  intro d hd p hpm hin
  -- nothing of the run is disposed yet
  have hearly : run.status = .queued ∨ run.status = .running := by
    cases hst : run.status <;> simp_all [RunStatus.isTerminal]
  refine (hadd.tables hs).early run (hadd.runs ▸ hmem) hearly p hpm ?_
  rcases hback p hpm with hold | hid
  · exact hown d hd p hold hin
  · exact hid

/-! ## The system -/

theorem Peers.init (T : Revalidation) : Peers T Desk.init.db := by
  refine ⟨?_, ?_, ?_, ?_, ?_⟩ <;>
  · intro x hx
    cases hx

/-- **An orderly step of the desk** keeps the peers. -/
theorem Peers.step (hT : T.Lawful) {k k' : Desk} {a : DeskAct} (hp : Peers T k.db)
    (hs : Tables k.db)
    (horderly : k.Orderly a) (h : k.step T a = some k') : Peers T k'.db := by
  cases Desk.step_does h with
  | nothing => exact hp
  | createRun run hst hnew => exact hp.createRun hs hnew
  | persist runId proposals conflicts db hop => exact hp.persist hs horderly.1 horderly.2 hop
  | status a runId status db ha hop => exact hp.setRunStatus hs.wf hop
  | review body fresh plan hop hfresh => exact hp.review hT hs hop hfresh
  | correct c versionId old d hop hfresh => exact hp.correct hT hs hop hfresh

/-- The text of the parts of a document. -/
def Doc.flat : Doc → String
  | .obj members => String.intercalate ";" (members.map fun kv =>
      kv.1 ++ "=" ++ match kv.2 with
        | .str text => text
        | .num literal => literal
        | _ => "")
  | _ => ""

/-- A revalidation of plain revenue figures. -/
def Revalidation.plain : Revalidation where
  hash := Doc.flat
  canonicalUnit := id
  magnitude := fun value _ => value
  knownMetrics := ["revenue"]
  etag := fun g => g.id
  versionEtag := fun v => v.id
  validated := fun rows =>
    if rows.all fun row => row.payload.strAt "metric_id" == some "revenue" then
      .ok (rows.map fun row =>
        let repeated := decide (2 ≤ rows.countP fun other =>
          other.payload.strAt "value" == row.payload.strAt "value")
        ⟨"kpi", "revenue", row.payload, some "revenue",
          if repeated then ["duplicate_candidate"] else [], repeated, row.evidence⟩)
    else .error (.invalid "")
  pinsCurrent := fun _ => true
  fits := fun _ => true
  same := fun _ _ => true

instance decidableOrderly (k : Desk) : (a : DeskAct) → Decidable (k.Orderly a)
  | .createRun _ | .setStatus _ _ | .cancel _ | .review _ _ | .correct _ _ => .isTrue trivial
  | .persist runId _ conflicts => inferInstanceAs (Decidable (
      (k.db.run? runId).map ReviewRun.status ≠ some .waitingReview
        ∧ ∀ d ∈ conflicts, ∀ p ∈ k.db.proposals, p.id ∈ d.memberProposalIds → p.runId = runId))

end Extraction
