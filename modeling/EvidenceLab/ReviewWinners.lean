/-
# Winners of conflicts

A resolution names winners of a conflict and the records that were approved for them.  A later
review of another member of the conflict is judged against those records.

* `approvals_ids`: what a review approves, in terms of its inputs.
* `Adjudicated`: the winners that a review has recorded are approved, and their records come from
  members of the conflict.
* A rejection may name winners, and a merge may take its payload from outside a conflict that it
  decides: `Backs` excludes both.
-/
import EvidenceLab.ReviewStates

namespace Extraction

open Except Transitions

variable {T : Revalidation} {s s' : ReviewDb}

/-! ## What a review approves -/

/-- A draft is found under its identifier. -/
theorem draftOf_eq_ok {drafts : List Draft} {pid : String} {d : Draft}
    (h : draftOf drafts pid = .ok d) : d ∈ drafts ∧ d.id = pid := by
  rw [draftOf, orRaise_eq_ok_iff] at h
  exact ⟨List.mem_of_find?_eq_some h, by simpa using List.find?_some h⟩

/-- A merged draft is named by its source. -/
theorem mergedDraft_id {drafts : List Draft} {ids : List String} {source : String} {d : Draft}
    (h : T.mergedDraft drafts ids source = .ok d) : source ∈ ids ∧ d.id = source
      ∧ ∃ d₀, draftOf drafts source = .ok d₀ ∧ d.payload = d₀.payload
        ∧ d.comparability = d₀.comparability := by
  simp only [Revalidation.mergedDraft, bind_eq_ok_iff, raiseIf_eq_ok_iff, pure_eq_ok,
    Except.ok.injEq, not_not, List.contains_iff_mem] at h
  obtain ⟨-, hmem, d₀, hd₀, inputs, -, -, -, -, -, rfl⟩ := h
  exact ⟨hmem, (draftOf_eq_ok hd₀).2, d₀, hd₀, rfl, rfl⟩

/-- The parts of an approval. -/
theorem approvals_eq_ok {body : ReviewBody} {runIds : List String} {groups : List ConflictDetail}
    {rows : List Row} {approvals : List (Draft × List String)}
    (h : T.approvals s body runIds groups rows = .ok approvals) :
    ∃ current origins patched relevant drafts waived,
      s.currentRows T rows runIds = .ok (current, origins)
      ∧ patchedRows body.action body.extractionIds current = .ok patched
      ∧ T.relevantRows patched body.extractionIds (groups.flatMap ConflictDetail.members)
      = .ok relevant
      ∧ T.evaluate relevant = .ok drafts
      ∧ T.checkEvaluated drafts body.extractionIds groups body.conflictResolution body.action.name
          origins = .ok waived
      ∧ ((∃ source d runs, body.action = .merge source
            ∧ T.mergedDraft drafts body.extractionIds source = .ok d ∧ approvals = [(d, runs)])
        ∨ (∀ source, body.action ≠ .merge source) ∧ List.Forall₂
            (fun pid a => draftOf drafts pid = .ok a.1) body.extractionIds approvals) := by
  simp only [Revalidation.approvals, bind_eq_ok_iff] at h
  obtain ⟨⟨current, origins⟩, hcur, patched, hpat, relevant, hrel, drafts, heval,
    waived, hcheck, -, -,
    h⟩ := h
  refine ⟨current, origins, patched, relevant, drafts, waived, hcur, hpat, hrel, heval, hcheck, ?_⟩
  split at h
  case h_1 source haction =>
      simp only [bind_eq_ok_iff, pure_eq_ok, Except.ok.injEq] at h
      obtain ⟨d, hd, rfl⟩ := h
      exact .inl ⟨source, d, _, haction, hd, rfl⟩
  case h_2 hnot =>
      simp only [bind_eq_ok_iff] at h
      obtain ⟨-, -, h⟩ := h
      refine .inr ⟨hnot, ?_⟩
      refine (mapM_eq_ok_iff.mp h).imp fun pid a ha => ?_
      simp only [bind_eq_ok_iff, pure_eq_ok, Except.ok.injEq] at ha
      obtain ⟨d, hd, rfl⟩ := ha
      exact hd

/-- Approvals have the identifiers of the body. -/
theorem ids_of_forall₂_draftOf {drafts : List Draft} {ids : List String}
    {approvals : List (Draft × List String)}
    (h : List.Forall₂
      (fun pid (a : Draft × List String) => draftOf drafts pid = .ok a.1) ids approvals) :
    approvals.map (fun a => a.1.id) = ids := by
  induction h with
  | nil => rfl
  | cons ha _ ih => rw [List.map_cons, ih, (draftOf_eq_ok ha).2]

/-- The proposals that the approved drafts come from. -/
theorem approvals_ids {body : ReviewBody} {runIds : List String} {groups : List ConflictDetail}
    {rows : List Row} {approvals : List (Draft × List String)}
    (h : T.approvals s body runIds groups rows = .ok approvals) :
    approvals.map (fun a => a.1.id) = match body.action with
      | .merge source => [source]
      | _ => body.extractionIds := by
  obtain ⟨-, -, -, -, drafts, -, -, -, -, -, -,
      ⟨source, d, runs, haction, hd, rfl⟩ | ⟨hnot, hall⟩⟩ :=
    approvals_eq_ok h
  · rw [haction]
    simp [(mergedDraft_id hd).2.1]
  · have hids := ids_of_forall₂_draftOf hall
    cases haction : body.action with
    | merge source => exact absurd haction (hnot source)
    | accept => exact hids
    | edit patch => exact hids
    | reject => exact hids

/-- The records of a review stand for its approvals, in order. -/
theorem newRecords_forall₂ {approvals : List (Draft × List String)} {fresh : FreshIds}
    (hr : fresh.recordIds.length = approvals.length)
    (hv : fresh.versionIds.length = approvals.length) :
    List.Forall₂ (fun (r : ApprovedRecord) a => ∃ recordId versionId,
      r = a.1.record recordId versionId a.2)
      (newRecords approvals fresh) approvals := by
  unfold newRecords
  revert hr hv
  generalize fresh.recordIds = ids
  generalize fresh.versionIds = versions
  induction approvals generalizing ids versions with
  | nil =>
      intro hr _
      simp
  | cons a approvals ih =>
      intro hr hv
      cases ids with
      | nil => simp at hr
      | cons id ids =>
          cases versions with
          | nil => simp at hv
          | cons v versions =>
              simp only [List.length_cons, Nat.add_right_cancel_iff] at hr hv
              exact .cons ⟨id, v, rfl⟩ (ih ids versions hr hv)

/-- A record of a review has one version, of the input at its place. -/
theorem newRecords_origin {approvals : List (Draft × List String)} {fresh : FreshIds}
    {ids : List String}
    (hr : fresh.recordIds.length = approvals.length)
    (hv : fresh.versionIds.length = approvals.length)
    (hids : approvals.map (fun a => a.1.id) = ids) :
    List.Forall₂ (fun (r : ApprovedRecord) pid => ∀ v ∈ r.versions, v.origin = pid)
      (newRecords approvals fresh) ids := by
  rw [← hids, List.forall₂_map_right_iff]
  refine (newRecords_forall₂ hr hv).imp ?_
  rintro r a ⟨recordId, versionId, rfl⟩ v hv
  obtain rfl := List.mem_singleton.mp hv
  rfl

/-! ## Recorded winners -/

/-- What a recorded resolution with winners stands on. -/
structure WinnersApproved (s : ReviewDb) (r : ReviewRow) (id : String) (res : Resolution) :
    Prop where
  /-- The review approved something. -/
  action : r.action ≠ .reject
  inputs : ∀ w ∈ res.selectedWinnerIds, w ∈ r.inputIds
  /-- A winner is accepted, or it went into the merge. -/
  accepted : r.action ≠ .merge → ∀ w ∈ res.selectedWinnerIds, ∃ p ∈ s.proposals, p.id = w
    ∧ p.state = .accepted
  recorded : res.approvedRecordIds ≠ []
  /-- The winners are members of the conflict, and so are the origins of its records. -/
  members : ∃ c ∈ s.conflicts, c.id = id ∧ (∀ w ∈ res.selectedWinnerIds, w ∈ c.members)
    ∧ ∀ rid ∈ res.approvedRecordIds, ∃ record ∈ s.records, record.id = rid
      ∧ ∀ v ∈ record.versions, v.origin ∈ c.members

/-- The winners that reviews have recorded are approved. -/
def Adjudicated (s : ReviewDb) : Prop :=
  ∀ r ∈ s.reviews, ∀ e ∈ r.resolutions, e.2.selectedWinnerIds ≠ [] → WinnersApproved s r e.1 e.2

/-- What was approved stays approved. -/
theorem WinnersApproved.mono {r : ReviewRow} {id : String} {res : Resolution}
    (h : WinnersApproved s r id res)
    (hp : ∀ p ∈ s.proposals, p.state = .accepted → p ∈ s'.proposals)
    (hc : ∀ c ∈ s.conflicts, c.id = id → c ∈ s'.conflicts)
    (hr : ∀ record ∈ s.records, ∃ record' ∈ s'.records, record'.id = record.id
      ∧ ∀ v ∈ record'.versions, ∃ u ∈ record.versions, v.origin = u.origin) :
    WinnersApproved s' r id res := by
  refine ⟨h.action, h.inputs, ?_, h.recorded, ?_⟩
  · intro hmerge w hw
    obtain ⟨p, hmem, hid, hst⟩ := h.accepted hmerge w hw
    exact ⟨p, hp p hmem hst, hid, hst⟩
  · obtain ⟨c, hmem, hid, hw, hrec⟩ := h.members
    refine ⟨c, hc c hmem hid, hid, hw, ?_⟩
    intro rid hrid
    obtain ⟨record, hrecord, rfl, hv⟩ := hrec rid hrid
    obtain ⟨record', hrecord', hid', hv'⟩ := hr record hrecord
    refine ⟨record', hrecord', hid', ?_⟩
    intro v hmemv
    obtain ⟨u, hu, horigin⟩ := hv' v hmemv
    exact horigin ▸ hv u hu

/-- A decision that names winners approves them: it is no rejection, and the payload of a merge
comes from the conflict. -/
def ConflictDecision.Backed (s : ReviewDb) (action : ReviewAction) (d : ConflictDecision) : Prop :=
  d.selectedWinnerIds ≠ [] →
    match action with
    | .reject => False
    | .merge source => ∀ c ∈ s.conflicts, c.id = d.conflictId → source ∈ c.members
    | .accept | .edit _ => True

/-- Every review backs the winners that it names. -/
def Desk.Backs (k : Desk) : DeskAct → Prop
  | .review body _ => ∀ d ∈ body.conflictResolution, d.Backed k.db body.action
  | _ => True

/-- An approved proposal has its record. -/
theorem approvedFor_of_mem {action : ActionName} {ids : List String} {records : List ApprovedRecord}
    {winners : List String} (hmerge : action ≠ .merge)
    (horigin :
      List.Forall₂ (fun (r : ApprovedRecord) pid => ∀ v ∈ r.versions, v.origin = pid) records ids)
    (hwinners : winners ≠ []) (hsub : ∀ w ∈ winners, w ∈ ids) :
    approvedFor action ids records winners ≠ [] ∧ ∀ rid ∈ approvedFor action ids records winners,
      ∃ record ∈ records, record.id = rid ∧ ∀ v ∈ record.versions, v.origin ∈ winners := by
  have heq : approvedFor action ids records winners
      = ((records.zip ids).filter fun r => winners.contains r.2).map fun r => r.1.id := by
    cases action with
    | merge => exact absurd rfl hmerge
    | accept => rfl
    | edit => rfl
    | reject => rfl
  rw [heq]
  refine ⟨?_, ?_⟩
  · obtain ⟨w, hw⟩ := List.exists_mem_of_ne_nil winners hwinners
    obtain ⟨i, hi, hwi⟩ := List.mem_iff_getElem.mp (hsub w hw)
    have hlen : i < records.length := horigin.length_eq ▸ hi
    have hzip : (records[i], w) ∈ records.zip ids := by
      rw [List.mem_iff_getElem]
      exact ⟨i, by simp [hlen, hi], by simp [hwi]⟩
    refine List.ne_nil_of_mem (List.mem_map.mpr ⟨_, List.mem_filter.mpr ⟨hzip, ?_⟩, rfl⟩)
    exact List.contains_iff_mem.mpr hw
  · intro rid hrid
    obtain ⟨⟨record, pid⟩, hmem, rfl⟩ := List.mem_map.mp hrid
    obtain ⟨hzip, hw⟩ := List.mem_filter.mp hmem
    refine ⟨record, (List.of_mem_zip hzip).1, rfl, ?_⟩
    intro v hv
    rw [(List.forall₂_zip horigin hzip) v hv]
    exact List.contains_iff_mem.mp hw

/-- **A review approves the winners it names**, when it backs them. -/
theorem winnersApproved_review (hs : Tables s) {body : ReviewBody} {plan : ReviewPlan}
    {fresh : FreshIds}
    (hplan : T.planReview s body = .ok plan)
    (hfresh : s.areFresh fresh plan.approvals.length = true)
    {d : ConflictDecision} (hd : d ∈ body.conflictResolution) (hbacked : d.Backed s body.action)
    (hwin : d.selectedWinnerIds ≠ []) :
    WinnersApproved (s.commitReview body plan fresh)
      ⟨fresh.reviewId, body.action.name, body.extractionIds,
        resolutionsOf body (newRecords plan.approvals fresh) fresh.reviewId,
        (newRecords plan.approvals fresh).map ApprovedRecord.id⟩
      d.conflictId ⟨fresh.reviewId, d.selectedWinnerIds, approvedFor body.action.name
        body.extractionIds (newRecords plan.approvals fresh) d.selectedWinnerIds, d.reason⟩ := by
  have hok := hs.wf.planOk hplan
  obtain ⟨c, hc, hcid, hopen, -, hwinners, -⟩ := hok.decided d hd
  have hnot : body.action ≠ .reject := by
    intro haction
    rw [haction] at hbacked
    exact hbacked hwin
  have happ : ∃ runIds rows, T.approvals s body runIds plan.groups rows = .ok plan.approvals := by
    obtain ⟨runIds, rows, -, -, -, -, happ, -⟩ := planReview_eq_ok hplan
    refine ⟨runIds, rows, ?_⟩
    rw [Revalidation.approvalsFor] at happ
    split at happ
    case h_1 haction => exact absurd haction hnot
    case h_2 => exact happ
  obtain ⟨runIds, rows, happ⟩ := happ
  simp only [ReviewDb.areFresh, Bool.and_eq_true, beq_iff_eq] at hfresh
  have horigin := newRecords_origin hfresh.1.2 hfresh.2 (approvals_ids happ)
  rw [ReviewDb.commitReview_eq]
  have hname : body.action.name ≠ .reject := by
    cases haction : body.action <;> simp_all [ReviewAction.name]
  -- the records of the decision come from members of the conflict
  have hrecords : approvedFor body.action.name body.extractionIds (newRecords plan.approvals fresh)
        d.selectedWinnerIds ≠ []
      ∧ ∀ rid ∈ approvedFor body.action.name body.extractionIds (newRecords plan.approvals fresh)
        d.selectedWinnerIds, ∃ record ∈ newRecords plan.approvals fresh, record.id = rid
          ∧ ∀ v ∈ record.versions, v.origin ∈ c.members := by
    by_cases hmerge : ∃ source, body.action = .merge source
    · obtain ⟨source, haction⟩ := hmerge
      rw [haction] at horigin hbacked ⊢
      simp only [ReviewAction.name, approvedFor]
      have hsource := hbacked hwin c hc hcid
      refine ⟨?_, ?_⟩
      · intro hnil
        rw [List.map_eq_nil_iff] at hnil
        rw [hnil] at horigin
        cases horigin
      · intro rid hrid
        obtain ⟨record, hrecord, rfl⟩ := List.mem_map.mp hrid
        refine ⟨record, hrecord, rfl, ?_⟩
        intro v hv
        obtain ⟨record', rest, ho, hnil, heq⟩ := List.forall₂_cons_right_iff.mp horigin
        obtain rfl := List.forall₂_nil_right_iff.mp hnil
        rw [heq, List.mem_singleton] at hrecord
        rw [hrecord] at hv
        rw [ho v hv]
        exact hsource
    · have hids : (match body.action with
          | .merge source => [source]
          | _ => body.extractionIds) = body.extractionIds := by
        cases haction : body.action with
        | merge source => exact absurd ⟨source, haction⟩ hmerge
        | accept => rfl
        | edit patch => rfl
        | reject => rfl
      rw [hids] at horigin
      have hnomerge : body.action.name ≠ .merge := by
        cases haction : body.action <;> simp_all [ReviewAction.name]
      obtain ⟨hne, hall⟩ := approvedFor_of_mem hnomerge horigin hwin fun w hw => (hwinners w hw).2
      refine ⟨hne, fun rid hrid => ?_⟩
      obtain ⟨record, hrecord, hid, hv⟩ := hall rid hrid
      exact ⟨record, hrecord, hid, fun v hmem => (hwinners _ (hv v hmem)).1⟩
  refine ⟨hname, fun w hw => (hwinners w hw).2, ?_, hrecords.1, ?_⟩
  · intro hmerge w hw
    obtain ⟨p, hp, hid, -⟩ := hok.inputs w (hwinners w hw).2
    refine ⟨p.disposed body.extractionIds body.action.name.disposition, List.mem_map_of_mem hp,
      (Proposal.disposed_id _ _ p).trans hid, ?_⟩
    have hsel : p.id ∈ body.extractionIds := hid ▸ (hwinners w hw).2
    simp only [Proposal.disposed, List.contains_iff_mem.mpr hsel, if_true]
    cases hn : body.action.name with
    | accept => rfl
    | edit => rfl
    | reject => exact absurd hn hname
    | merge => exact absurd hn hmerge
  · refine ⟨c.resolvedBy (body.conflictResolution.map ConflictDecision.conflictId), ?_, ?_, ?_, ?_⟩
    · show _ ∈ (s.reviewWritten body plan fresh).conflicts
      rw [ReviewDb.reviewWritten_conflicts]
      exact List.mem_map_of_mem hc
    · exact (Conflict.resolvedBy_id _ c).trans hcid
    · intro w hw
      rw [Conflict.resolvedBy_members]
      exact (hwinners w hw).1
    · intro rid hrid
      obtain ⟨record, hrecord, hid, hv⟩ := hrecords.2 rid hrid
      rw [Conflict.resolvedBy_members]
      exact ⟨record, List.mem_append_right _ hrecord, hid, hv⟩

/-! ## The system -/

/-- A decided conflict stays as it is. -/
theorem Desk.Evolves.decided_kept {k k' : Desk} {a : DeskAct} (h : k.Evolves a k')
    (hs : Tables k.db)
    {r : ReviewRow} (hr : r ∈ k.db.reviews) {e : String × Resolution} (he : e ∈ r.resolutions)
    {c : Conflict} (hc : c ∈ k.db.conflicts) (hid : c.id = e.1) : c ∈ k'.db.conflicts := by
  refine h.conflicts c hc ((hs.decided c hc).mpr ?_)
  rw [hid]
  exact List.mem_flatMap.mpr ⟨r, hr, List.mem_map_of_mem he⟩

/-- An accepted proposal stays accepted. -/
theorem Desk.Evolves.accepted_kept {k k' : Desk} {a : DeskAct} (h : k.Evolves a k') {p : Proposal}
    (hp : p ∈ k.db.proposals) (hst : p.state = .accepted) : p ∈ k'.db.proposals := by
  rcases h.proposals p hp with hp | ⟨hopen, -⟩
  · exact hp
  · rw [hst] at hopen
    cases hopen

/-- A step that keeps the reviews and the origins of the records keeps their resolutions. -/
theorem Adjudicated.keep {k k' : Desk} {a : DeskAct} (hadj : Adjudicated k.db) (hs : Tables k.db)
    (hevolves : k.Evolves a k') (hreviews : k'.db.reviews = k.db.reviews)
    (hr : ∀ record ∈ k.db.records, ∃ record' ∈ k'.db.records, record'.id = record.id
      ∧ ∀ v ∈ record'.versions, ∃ u ∈ record.versions, v.origin = u.origin) :
    Adjudicated k'.db := by
  intro r hmem e he hwin
  rw [hreviews] at hmem
  exact (hadj r hmem e he hwin).mono (fun p hp hst => hevolves.accepted_kept hp hst)
    (fun c hc hid => hevolves.decided_kept hs hmem he hc hid) hr

/-- **A review** keeps the winners approved. -/
theorem Adjudicated.review {k : Desk} (hadj : Adjudicated k.db) (hs : Tables k.db)
    {body : ReviewBody}
    {plan : ReviewPlan} {fresh : FreshIds} (hplan : T.planReview k.db body = .ok plan)
    (hfresh : k.db.areFresh fresh plan.approvals.length = true)
    (hbacks : ∀ d ∈ body.conflictResolution, d.Backed k.db body.action) :
    Adjudicated (k.db.commitReview body plan fresh) := by
  intro r hr e he hwin
  have hmem : r ∈ (k.db.reviewWritten body plan fresh).reviews := by
    rw [ReviewDb.commitReview_eq] at hr
    exact hr
  rcases List.mem_append.mp hmem with hold | hnew
  · have hevolves := Desk.evolves_review hs (hs.wf.planOk hplan) fresh
    refine (hadj r hold e he hwin).mono (fun p hp hst => hevolves.accepted_kept hp hst)
      (fun c hc hid => hevolves.decided_kept hs hold he hc hid) ?_
    intro record hrecord
    refine ⟨record, ?_, rfl, fun v hv => ⟨v, hv, rfl⟩⟩
    rw [ReviewDb.commitReview_eq]
    exact List.mem_append_left _ hrecord
  · obtain rfl := List.mem_singleton.mp hnew
    obtain ⟨d, hd, rfl⟩ := List.mem_map.mp he
    rw [List.mem_insertionSort] at hd
    exact winnersApproved_review hs hplan hfresh hd (hbacks d hd) hwin

/-- **A step of the desk** keeps the winners approved. -/
theorem Adjudicated.step {k k' : Desk} {a : DeskAct} (hadj : Adjudicated k.db) (hs : Tables k.db)
    (hbacks : k.Backs a) (h : k.step T a = some k') : Adjudicated k'.db := by
  have hevolves := Desk.evolves hs h
  have hsame : ∀ record ∈ k.db.records, ∃ record' ∈ k.db.records, record'.id = record.id
      ∧ ∀ v ∈ record'.versions, ∃ u ∈ record.versions, v.origin = u.origin :=
    fun record hrecord => ⟨record, hrecord, rfl, fun v hv => ⟨v, hv, rfl⟩⟩
  cases Desk.step_does h with
  | nothing => exact hadj
  | createRun run hst hnew => exact hadj.keep hs hevolves rfl hsame
  | persist runId proposals conflicts db hop =>
      have hp := persistOutputs_persisted hs hop
      refine hadj.keep hs hevolves hp.reviews ?_
      rw [hp.records]
      exact hsame
  | status a runId status db ha hop =>
      obtain ⟨run, -, -, -, -, rfl⟩ := setRunStatus_eq_ok hs.wf hop
      exact hadj.keep hs hevolves rfl hsame
  | review body fresh plan hop hfresh => exact hadj.review hs hop hfresh hbacks
  | correct c versionId old d hop hfresh =>
      refine hadj.keep hs hevolves rfl ?_
      intro record hrecord
      refine ⟨_, List.mem_map_of_mem hrecord, ?_, ?_⟩
      · split_ifs <;> rfl
      · intro v hv
        split_ifs at hv with hid
        · -- the corrected version has the origin of the head
          rcases List.mem_append.mp hv with hv | hv
          · exact ⟨v, hv, rfl⟩
          · obtain rfl := List.mem_singleton.mp hv
            obtain ⟨record', -, -, -, -, -, -, -, drafts, hrec, hhead, -, -, -, -, -, -, hd, -⟩ :=
              planCorrection_eq_ok hop
            obtain ⟨hmem', hid'⟩ := (find?_eq_some_iff_of_nodup hs.recordIds).mp hrec
            obtain rfl := List.inj_on_of_nodup_map hs.recordIds hrecord hmem' (hid.trans hid'.symm)
            exact ⟨old, List.mem_of_find?_eq_some hhead, (draftOf_eq_ok hd).2⟩
        · exact ⟨v, hv, rfl⟩

/-- The head of a record with an origin in the locked runs is among the current origins. -/
theorem mem_origins_of_currentRows (hs : Tables s) {rows current : List Row} {runIds : List String}
    {origins : List (String × String)} (h : s.currentRows T rows runIds = .ok (current, origins))
    {record : ApprovedRecord} (hrecord : record ∈ s.records) {v : ApprovedVersion}
    (hv : record.head? = some v) {p : Proposal} (hp : p ∈ s.proposals) (hid : p.id = v.origin)
    (hrun : p.runId ∈ runIds) : (record.id, v.origin) ∈ origins := by
  simp only [ReviewDb.currentRows, bind_eq_ok_iff, pure_eq_ok, Except.ok.injEq, Prod.mk.injEq] at h
  obtain ⟨-, -, -, -, -, -, -, -, -, -, -, rfl⟩ := h
  refine List.mem_map.mpr ⟨(record, v), List.mem_filterMap.mpr ⟨record, hrecord, ?_⟩, rfl⟩
  have hfind : s.proposal? v.origin = some p := hs.wf.proposal?_eq.mpr ⟨hp, hid⟩
  simp [hv, hfind, hrun]

/-- The resolution of a group is one that a review has recorded. -/
theorem mem_reviews_of_detail {id : String} {g : ConflictDetail} (h : s.detail id = .ok g)
    {res : Resolution} (hres : g.resolution = some res) :
    ∃ r ∈ s.reviews, (id, res) ∈ r.resolutions := by
  obtain ⟨c, -, -, -, -, hr⟩ := detail_eq_ok h
  rw [hr] at hres
  obtain ⟨r, hmem, hfind⟩ := List.mem_filterMap.mp (List.mem_of_head? hres)
  obtain ⟨e, he, rfl⟩ := Option.map_eq_some_iff.mp hfind
  have hid : e.1 = id := by simpa using List.find?_some he
  exact ⟨r, hmem, hid ▸ List.mem_of_find?_eq_some he⟩

/-- Whoever reviews a member of a resolved group with recorded winners finds a current winner. -/
theorem Adjudicated.currentWinners_ne_nil (hadj : Adjudicated s) (hs : Tables s)
    {ids runIds : List String}
    {groups : List ConflictDetail} (hdisc : s.discover ids = .ok (runIds, groups))
    {rows current : List Row}
    {origins : List (String × String)} (hcur : s.currentRows T rows runIds = .ok (current, origins))
    {g : ConflictDetail} (hg : g ∈ groups) {res : Resolution} (hres : g.resolution = some res)
    (hwin : res.selectedWinnerIds ≠ []) : currentWinners origins g res ≠ [] := by
  obtain ⟨-, hgroups, hlocked⟩ := discover_eq_ok hdisc
  obtain ⟨id, hid, hdetail⟩ := exists_of_mem_mapM hgroups hg
  obtain ⟨r, hr, he⟩ := mem_reviews_of_detail hdetail hres
  have happ := hadj r hr _ he hwin
  obtain ⟨c, hc, hcid, -, hrecords⟩ := happ.members
  obtain ⟨rid, hrid⟩ := List.exists_mem_of_ne_nil _ happ.recorded
  obtain ⟨record, hrecord, rfl, horigin⟩ := hrecords rid hrid
  obtain ⟨v, hlast, hhead⟩ := (hs.chained record hrecord).head
  have hmem := horigin v (List.mem_of_find?_eq_some hhead)
  obtain ⟨c', hc', hgid, -, hmembers, -⟩ := detail_eq_ok hdetail
  obtain rfl := Option.some.inj ((hs.wf.conflict?_eq.mpr ⟨hc, hcid⟩).symm.trans hc')
  have hgm : v.origin ∈ g.members := (hs.wf.mem_members hc hmembers).mpr hmem
  obtain ⟨p, hp, hpid⟩ := hs.wf.members c hc _ hmem
  have hin := mem_origins_of_currentRows hs hcur hrecord hhead hp hpid
    (hlocked p hp (.inr ⟨g, hg, hpid ▸ hgm⟩))
  have hcurrent : v.origin ∈ currentWinners origins g res := by
    refine List.mem_filterMap.mpr ⟨_, hin, ?_⟩
    simp only [List.contains_iff_mem.mpr hrid, List.contains_iff_mem.mpr hgm,
      Bool.and_self, if_true]
  exact List.ne_nil_of_mem hcurrent

/-- **Conflict winners are approved.**  In every run whose reviews back the winners that they name:
recorded winners are approved, and a later review of the conflict finds a current winner. -/
theorem conflict_winners_approved {T : Revalidation} {acts : List DeskAct} {k : Desk}
    (hC : Admits (Desk.step T) Desk.Backs Desk.init acts)
    (h : run (Desk.step T) Desk.init acts = some k) :
    Adjudicated k.db ∧ ∀ ids runIds groups rows current origins,
      k.db.discover ids = .ok (runIds, groups) →
      k.db.currentRows T rows runIds = .ok (current, origins) →
      ∀ g ∈ groups, ∀ res, g.resolution = some res → res.selectedWinnerIds ≠ [] →
        currentWinners origins g res ≠ [] := by
  have hinv : Tables k.db ∧ Adjudicated k.db := by
    refine run_invariant_of_admits (P := fun k => Tables k.db ∧ Adjudicated k.db) ?_ ?_ hC h
    · rintro k a k' ⟨hs, hadj⟩ hbacks hstep
      exact ⟨hs.step hstep, hadj.step hs hbacks hstep⟩
    · refine ⟨Tables.init, ?_⟩
      intro r hr
      cases hr
  refine ⟨hinv.2, ?_⟩
  intro ids runIds groups rows current origins hdisc hcur g hg res hres hwin
  exact hinv.2.currentWinners_ne_nil hinv.1 hdisc hcur hg hres hwin

/-! ### A rejection with a winner -/

/-- A review that rejects a proposal and names it the winner of its conflict. -/
def rejectedWinner : List DeskAct :=
  [.createRun ⟨"r", "w", .queued, true⟩, .setStatus "r" .running,
    .persist "r" [.sample "q1", .sample "q2"] [⟨"g", "k", [], ["q1", "q2"]⟩],
    .setStatus "r" .waitingReview,
    .review (rejection ["q1"] (by decide) [⟨"g", "g", [("q1", 1), ("q2", 1)], ["q1"], "no"⟩])
      ⟨"v1", [], []⟩]

/-- The resolution names a rejected proposal and no record. -/
theorem rejected_winner_recorded :
    ∃ k, run (Desk.step .inert) Desk.init rejectedWinner = some k
      ∧ ∃ r ∈ k.db.reviews, ∃ e ∈ r.resolutions, e.2.selectedWinnerIds = ["q1"]
        ∧ e.2.approvedRecordIds = []
        ∧ (k.db.proposal? "q1").map Proposal.state = some .rejected := by
  refine ⟨_, rfl, _, List.mem_cons_self, _, List.mem_cons_self, ?_⟩
  decide

/-- An acceptance of the winner of a conflict. -/
def acceptedWinner : List DeskAct :=
  [.createRun ⟨"r", "w", .queued, true⟩, .setStatus "r" .running,
    .persist "r" [.sample "q1", .sample "q2"] [⟨"g", "k", [], ["q1", "q2"]⟩],
    .setStatus "r" .waitingReview,
    .review ⟨.accept, ["q1"], [("q1", 1)], "yes",
      [⟨"g", "g", [("q1", 1), ("q2", 1)], ["q1"], "yes"⟩],
      by decide⟩ ⟨"v1", ["a1"], ["b1"]⟩]

instance decidableBacked (s : ReviewDb) (action : ReviewAction) (d : ConflictDecision) :
    Decidable (d.Backed s action) :=
  match action with
  | .reject => inferInstanceAs (Decidable (d.selectedWinnerIds ≠ [] → False))
  | .merge source => inferInstanceAs (Decidable (d.selectedWinnerIds ≠ [] →
      ∀ c ∈ s.conflicts, c.id = d.conflictId → source ∈ c.members))
  | .accept | .edit _ => inferInstanceAs (Decidable (d.selectedWinnerIds ≠ [] → True))

instance decidableBacks (k : Desk) : (a : DeskAct) → Decidable (k.Backs a)
  | .createRun _ | .persist _ _ _ | .setStatus _ _ | .cancel _ | .correct _ _ => .isTrue trivial
  | .review body _ =>
      inferInstanceAs (Decidable (∀ d ∈ body.conflictResolution, d.Backed k.db body.action))

theorem conflict_winners_approved_acceptedWinner :
    Admits (Desk.step .inert) Desk.Backs Desk.init acceptedWinner
      ∧ ∃ k, run (Desk.step .inert) Desk.init acceptedWinner = some k ∧ Adjudicated k.db
        ∧ (k.db.reviews.flatMap fun r => r.resolutions.map fun e => e.2.approvedRecordIds)
        = [["a1"]] := by
  have hC : Admits (Desk.step .inert) Desk.Backs Desk.init acceptedWinner := by decide
  refine ⟨hC, _, rfl, (conflict_winners_approved hC rfl).1, ?_⟩
  decide

end Extraction
