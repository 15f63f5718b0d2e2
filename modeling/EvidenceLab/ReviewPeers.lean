/-
# What a review compares

A review and a correction evaluate their inputs among the current figures of the locked runs.

* `exists_detected`: two drafts with one key are in a detected conflict.
* `checkEvaluated_eq_ok`: an open group covers a detected conflict and allows one winner in it, or
  the selected members repeat the value of a recorded winner.
* `exists_draft_of_head`: a current head is among the drafts whenever a selected draft has its key.

`Lawful` is what the comparison uses of the validator.
-/
import EvidenceLab.ReviewWinners

namespace Extraction

open Except Transitions

variable {T : Revalidation} {s s' : ReviewDb}

/-! ## Detected conflicts -/

/-- A conflict has a reason. -/
theorem Revalidation.conflictReasons_ne_nil (T : Revalidation) {members : List Draft}
    (h : members ≠ []) : T.conflictReasons members ≠ [] := by
  have hne : (members.map fun m => T.valueFingerprint m.payload).dedup ≠ [] := by
    simpa using h
  have hlen := List.length_pos_iff.mpr hne
  unfold Revalidation.conflictReasons
  by_cases h1 : (members.map fun m => T.valueFingerprint m.payload).dedup.length = 1
  · simp [h1]
  · have h2 : 2 ≤ (members.map fun m => T.valueFingerprint m.payload).dedup.length := by omega
    simp [h2]

/-- What a detected conflict stands for: the drafts with its key, at least two. -/
theorem mem_detectConflicts {drafts : List Draft} {c : Detected} :
    c ∈ T.detectConflicts drafts ↔ ∃ key, key ∈ drafts.map T.draftKey
      ∧ 2 ≤ (drafts.filter fun d => T.draftKey d == key).length
      ∧ c = ⟨key, T.conflictReasons (drafts.filter fun d => T.draftKey d == key),
          ((drafts.filter fun d => T.draftKey d == key).map Draft.id).insertionSort (· ≤ ·)⟩ := by
  simp only [Revalidation.detectConflicts, List.mem_filterMap, List.mem_insertionSort,
    List.mem_dedup]
  constructor
  · rintro ⟨key, hkey, h⟩
    split_ifs at h with hc
    rw [not_or, Nat.not_lt] at hc
    exact ⟨key, hkey, hc.1, (Option.some.inj h).symm⟩
  · rintro ⟨key, hkey, hlen, rfl⟩
    refine ⟨key, hkey, ?_⟩
    have hne : (drafts.filter fun d => T.draftKey d == key) ≠ [] :=
      List.length_pos_iff.mp (by omega)
    rw [if_neg]
    rintro (h | h)
    · omega
    · exact T.conflictReasons_ne_nil hne h

/-- The members of a conflict are the proposals with its key. -/
theorem mem_memberProposalIds {drafts : List Draft} {c : Detected}
    (hc : c ∈ T.detectConflicts drafts)
    {m : String} : m ∈ c.memberProposalIds ↔ ∃ d ∈ drafts, d.id = m ∧
    T.draftKey d = c.conflictKey := by
  obtain ⟨key, -, -, rfl⟩ := mem_detectConflicts.mp hc
  simp only [List.mem_insertionSort, List.mem_map, List.mem_filter, beq_iff_eq]
  constructor
  · rintro ⟨d, ⟨hd, hkey⟩, hid⟩
    exact ⟨d, hd, hid, hkey⟩
  · rintro ⟨d, hd, hid, hkey⟩
    exact ⟨d, ⟨hd, hkey⟩, hid⟩

/-- Two drafts with one key are detected. -/
theorem exists_detected {drafts : List Draft} {d e : Draft} (hd : d ∈ drafts) (he : e ∈ drafts)
    (hne : d.id ≠ e.id) (hkey : T.draftKey d = T.draftKey e) :
    ∃ c ∈ T.detectConflicts drafts, c.conflictKey = T.draftKey d := by
  refine ⟨_, mem_detectConflicts.mpr ⟨T.draftKey d, List.mem_map_of_mem hd, ?_, rfl⟩, rfl⟩
  have hd' : d ∈ drafts.filter fun x => T.draftKey x == T.draftKey d :=
    List.mem_filter.mpr ⟨hd, by simp⟩
  have he' : e ∈ drafts.filter fun x => T.draftKey x == T.draftKey d :=
    List.mem_filter.mpr ⟨he, by simp [hkey]⟩
  rcases hl : drafts.filter fun x => T.draftKey x == T.draftKey d with _ | ⟨a, _ | ⟨b, rest⟩⟩
  · rw [hl] at hd'
    cases hd'
  · rw [hl, List.mem_singleton] at hd' he'
    exact absurd (congrArg Draft.id (hd'.trans he'.symm)) hne
  · simp

/-- A pair is detected only when its keys agree. -/
theorem draftKey_eq_of_detected {d e : Draft} (h : (T.detectConflicts [d, e]).isEmpty = false) :
    T.draftKey d = T.draftKey e := by
  by_contra hne
  have hnil : T.detectConflicts [d, e] = [] := by
    refine List.eq_nil_iff_forall_not_mem.mpr fun c hc => ?_
    obtain ⟨key, -, hlen, -⟩ := mem_detectConflicts.mp hc
    by_cases h₁ : T.draftKey d = key
    · have h₂ : T.draftKey e ≠ key := fun h₂ => hne (h₁.trans h₂.symm)
      simp [h₁, h₂] at hlen
    · by_cases h₂ : T.draftKey e = key <;> simp [h₁, h₂] at hlen
  rw [hnil] at h
  cases h

/-- Different conflicts have different keys. -/
theorem detectConflicts_keys_nodup (drafts : List Draft) :
    ((T.detectConflicts drafts).map Detected.conflictKey).Nodup := by
  have hsub : ((T.detectConflicts drafts).map Detected.conflictKey).Sublist
      ((drafts.map T.draftKey).dedup.insertionSort (· ≤ ·)) := by
    unfold Revalidation.detectConflicts
    generalize (drafts.map T.draftKey).dedup.insertionSort (· ≤ ·) = keys
    induction keys with
    | nil => simp
    | cons key keys ih =>
        rw [List.filterMap_cons]
        split
        · exact ih.cons key
        case h_2 c hc =>
            simp only at hc
            split_ifs at hc
            obtain rfl := Option.some.inj hc
            exact ih.cons_cons key
  exact hsub.nodup ((List.perm_insertionSort _ _).nodup_iff.mpr (List.nodup_dedup _))

/-! ## What the comparison uses of the validator -/

/-- The key and the value of what the validator returns. -/
def Revalidation.bodyKey (T : Revalidation) (b : DraftBody) : String :=
  T.conflictKeyFor b.payload b.comparability

/-- What the validator does to a row and to its metric. -/
structure Revalidation.Lawful (T : Revalidation) : Prop where
  /-- The payload of a row names a metric, and the normalizer keeps it. -/
  metric : ∀ {rows bodies}, T.validated rows = .ok bodies →
    List.Forall₂ (fun (row : Row) (b : DraftBody) => ∃ m, row.payload.strAt "metric_id" = some m
      ∧ b.payload.strAt "metric_id" = some m) rows bodies
  /-- The conflict key names the metric: the ontology's comparability keys do. -/
  keyMetric : ∀ {rows bodies rows' bodies'}, T.validated rows = .ok bodies →
    T.validated rows' = .ok bodies' → ∀ b ∈ bodies, ∀ b' ∈ bodies', T.bodyKey b = T.bodyKey b' →
      b.payload.strAt "metric_id" = b'.payload.strAt "metric_id"
  /-- Normalizing a normalized payload again changes neither its key nor its value. -/
  stable : ∀ {rows bodies rows' bodies'}, T.validated rows = .ok bodies →
    T.validated rows' = .ok bodies' → ∀ b ∈ bodies,
      List.Forall₂ (fun (row' : Row) (b' : DraftBody) => row'.payload = b.payload.stripped →
        T.bodyKey b' = T.bodyKey b ∧ T.valueFingerprint b'.payload = T.valueFingerprint b.payload)
        rows' bodies'

/-- Stripping a body keeps its other fields. -/
theorem Doc.get?_stripped (d : Doc) {key : String} (h₁ : key ≠ "evidence")
    (h₂ : key ≠ "source_span_ids") : d.stripped.get? key = d.get? key := by
  cases d with
  | obj members =>
      simp only [Doc.stripped, Doc.get?, List.find?_filter]
      congr 2
      funext kv
      by_cases h : kv.1 = key
      · simp [h, h₁, h₂]
      · simp [h]
  | null => rfl
  | bool b => rfl
  | num literal => rfl
  | str text => rfl
  | arr xs => rfl

theorem Doc.strAt_stripped (d : Doc) : d.stripped.strAt "metric_id" = d.strAt "metric_id" := by
  rw [Doc.strAt, Doc.get?_stripped d (by decide) (by decide), Doc.strAt]

/-- What is stripped from an approved payload is no part of its key. -/
theorem Revalidation.conflictKeyFor_stripped (T : Revalidation) (d : Doc) (key : Option String) :
    T.conflictKeyFor d.stripped key = T.conflictKeyFor d key := by
  have hfield : ∀ k, k ≠ "evidence" → k ≠ "source_span_ids" → d.stripped.field k = d.field k := by
    intro k h₁ h₂
    rw [Doc.field, Doc.get?_stripped d h₁ h₂, Doc.field]
  have hid : T.comparabilityKeyFor d.stripped = T.comparabilityKeyFor d := by
    simp only [Revalidation.comparabilityKeyFor]
    rw [hfield "kind" (by decide) (by decide), hfield "metric_id" (by decide) (by decide),
      hfield "entity_id" (by decide) (by decide), hfield "period" (by decide) (by decide),
      hfield "unit" (by decide) (by decide), hfield "currency" (by decide) (by decide),
      hfield "dimensions" (by decide) (by decide), hfield "qualifiers" (by decide) (by decide)]
  simp only [Revalidation.conflictKeyFor, hid]

/-- What is stripped from an approved payload is no part of its value. -/
theorem Revalidation.valueFingerprint_stripped (T : Revalidation) (d : Doc) :
    T.valueFingerprint d.stripped = T.valueFingerprint d := by
  have hfield : ∀ k, k ≠ "evidence" → k ≠ "source_span_ids" → d.stripped.field k = d.field k := by
    intro k h₁ h₂
    rw [Doc.field, Doc.get?_stripped d h₁ h₂, Doc.field]
  simp only [Revalidation.valueFingerprint]
  rw [hfield "scale" (by decide) (by decide), hfield "value" (by decide) (by decide),
    hfield "low" (by decide) (by decide), hfield "high" (by decide) (by decide),
    hfield "text" (by decide) (by decide), hfield "category" (by decide) (by decide),
    hfield "direction" (by decide) (by decide)]

/-- The key of an approved version. -/
def Revalidation.versionKey (T : Revalidation) (v : ApprovedVersion) : String :=
  T.conflictKeyFor v.payload v.comparability

/-- The version holds what the validator has returned. -/
def Certified (T : Revalidation) (v : ApprovedVersion) : Prop :=
  ∃ rows bodies b, T.validated rows = .ok bodies ∧ b ∈ bodies ∧ v.payload = b.payload.stripped
    ∧ v.comparability = b.comparability

/-- What a draft keeps of its row. -/
structure DraftFrom (T : Revalidation) (row : Row) (d : Draft) : Prop where
  id : d.id = row.id
  metric : ∃ m, row.payload.strAt "metric_id" = some m ∧ d.payload.strAt "metric_id" = some m
  body : ∃ rows bodies b, T.validated rows = .ok bodies ∧ b ∈ bodies ∧ d.payload = b.payload
    ∧ d.comparability = b.comparability
  /-- The row of a head gives its key and its value again. -/
  stable : ∀ v, Certified T v → row.payload = v.payload →
    T.draftKey d = T.versionKey v ∧ T.valueFingerprint d.payload = T.valueFingerprint v.payload

/-- **The drafts of an evaluation.** -/
theorem Revalidation.Lawful.evaluate (hT : T.Lawful) {rows : List Row} {drafts : List Draft}
    (h : T.evaluate rows = .ok drafts) : List.Forall₂ (DraftFrom T) rows drafts := by
  simp only [Revalidation.evaluate, bind_eq_ok_iff, raiseIf_eq_ok_iff, pure_eq_ok,
    Except.ok.injEq] at h
  obtain ⟨-, -, bodies, hbodies, -, hlen, rfl⟩ := h
  rw [not_not] at hlen
  rw [List.forall₂_iff_get]
  refine ⟨by simp [hlen], ?_⟩
  intro i hrow hdraft
  have hb : i < bodies.length := by omega
  have hget : (List.zipWith Row.draft rows bodies).get ⟨i, hdraft⟩
      = (rows.get ⟨i, hrow⟩).draft (bodies.get ⟨i, hb⟩) := by
    simp
  rw [hget]
  refine ⟨rfl, ?_, ⟨rows, bodies, bodies.get ⟨i, hb⟩, hbodies, List.get_mem _ _, rfl, rfl⟩, ?_⟩
  · exact (List.forall₂_iff_get.mp (hT.metric hbodies)).2 i hrow hb
  · rintro v ⟨rows', bodies', b, hbodies', hmem, hpayload, hcomp⟩ hrow'
    have := (List.forall₂_iff_get.mp (hT.stable hbodies' hbodies b hmem)).2 i hrow hb
      (hrow'.trans hpayload)
    rw [Revalidation.versionKey, hpayload, hcomp, T.conflictKeyFor_stripped,
      T.valueFingerprint_stripped]
    exact this

/-- A version and a draft with one key have one metric. -/
theorem Revalidation.Lawful.metric_eq (hT : T.Lawful) {v : ApprovedVersion} (hv : Certified T v)
    {row : Row} {d : Draft} (hd : DraftFrom T row d) (hkey : T.versionKey v = T.draftKey d) :
    v.payload.strAt "metric_id" = row.payload.strAt "metric_id" := by
  obtain ⟨rows, bodies, b, hbodies, hmem, hpayload, hcomp⟩ := hv
  obtain ⟨rows', bodies', b', hbodies', hmem', hpayload', hcomp'⟩ := hd.body
  obtain ⟨m, hrow, hdraft⟩ := hd.metric
  have hkeys : T.bodyKey b = T.bodyKey b' := by
    rw [Revalidation.versionKey, hpayload, hcomp, T.conflictKeyFor_stripped, Revalidation.draftKey,
      hpayload', hcomp'] at hkey
    exact hkey
  rw [hpayload, Doc.strAt_stripped, hT.keyMetric hbodies hbodies' b hmem b' hmem' hkeys,
    ← hpayload',
    hdraft, hrow]

/-! ## The checks of an evaluation -/

/-- A step over a covering group waives touched members only. -/
theorem coverStep_subset {action : ActionName} {decisions : List ConflictDecision}
    {members touched waived waived' : List String} {g : ConflictDetail}
    (h : coverStep action decisions members touched waived g = .ok waived') :
    ∀ x ∈ waived', x ∈ waived ∨ x ∈ touched := by
  intro x hx
  unfold coverStep at h
  cases hst : g.status with
  | opened =>
      rw [hst] at h
      simp only [bind_eq_ok_iff] at h
      obtain ⟨d, -, -, -, h⟩ := h
      split_ifs at h
      · rw [pure_eq_ok, Except.ok.injEq] at h
        rw [← h] at hx
        exact List.mem_append.mp hx
      · rw [pure_eq_ok, Except.ok.injEq] at h
        exact .inl (h ▸ hx)
  | resolved =>
      rw [hst] at h
      simp only [bind_eq_ok_iff, pure_eq_ok, Except.ok.injEq] at h
      obtain ⟨-, -, rfl⟩ := h
      exact .inl hx

/-- A detected conflict waives its own members only. -/
theorem detectedStep_subset {action : ActionName} {groups : List ConflictDetail}
    {decisions : List ConflictDecision} {selected waived waived' : List String} {c : Detected}
    (h : detectedStep action groups decisions selected waived c = .ok waived') :
    ∀ x ∈ waived', x ∈ waived ∨ x ∈ c.memberProposalIds := by
  unfold detectedStep at h
  simp only at h
  split_ifs at h with htouched
  · rw [pure_eq_ok, Except.ok.injEq] at h
    exact fun x hx => .inl (h ▸ hx)
  · rw [bind_eq_ok_iff] at h
    obtain ⟨-, -, h⟩ := h
    refine foldlM_ok_run (fun _ w => ∀ x ∈ w, x ∈ waived ∨ x ∈ c.memberProposalIds) ?_
      (fun x hx => .inl hx) h
    intro done g rest w w' _ hinv hstep x hx
    rcases coverStep_subset hstep x hx with hx | hx
    · exact hinv x hx
    · exact .inr (List.mem_filter.mp hx).1

/-- A detected conflict of a selected proposal: an open group covers it and allows one winner in it,
or its selected members are waived already. -/
theorem detectedStep_eq_ok {action : ActionName} {groups : List ConflictDetail}
    {decisions : List ConflictDecision} {selected waived waived' : List String} {c : Detected}
    (h : detectedStep action groups decisions selected waived c = .ok waived') {x : String}
    (hx : x ∈ c.memberProposalIds) (hsel : x ∈ selected) :
    (∃ g ∈ groups, g.status = .opened ∧ (∀ m ∈ c.memberProposalIds, m ∈ g.members)
      ∧ ∃ d ∈ decisions, d.conflictId = g.id
        ∧ (1 < (c.memberProposalIds.filter d.selectedWinnerIds.contains).length → action = .merge))
    ∨ x ∈ waived := by
  unfold detectedStep at h
  simp only at h
  have htouched : x ∈ c.memberProposalIds.filter selected.contains :=
    List.mem_filter.mpr ⟨hx, List.contains_iff_mem.mpr hsel⟩
  rw [if_neg (List.ne_nil_of_mem htouched), bind_eq_ok_iff] at h
  obtain ⟨u, hcover, h⟩ := h
  rw [raiseIf_eq_ok_iff] at hcover
  by_cases hopen : ∃ g ∈ groups.filter fun g => c.memberProposalIds.all g.members.contains,
      g.status = .opened
  · left
    obtain ⟨g, hg, hst⟩ := hopen
    obtain ⟨hmem, hall⟩ := List.mem_filter.mp hg
    obtain ⟨done, rest, w, w', -, -, hstep⟩ := foldlM_ok_at (fun _ _ => True)
      (fun _ _ _ _ _ _ _ _ => trivial) trivial h hg
    unfold coverStep at hstep
    rw [hst] at hstep
    simp only [bind_eq_ok_iff, orRaise_eq_ok_iff, raiseIf_eq_ok_iff] at hstep
    obtain ⟨d, hd, -, hcompeting, -⟩ := hstep
    refine ⟨g, hmem, hst, ?_, d, List.mem_of_find?_eq_some hd, by
      simpa using List.find?_some hd, ?_⟩
    · intro m hm
      exact List.contains_iff_mem.mp (List.all_eq_true.mp hall m hm)
    · intro hlen
      by_contra hmerge
      exact hcompeting ⟨hlen, hmerge⟩
  · right
    obtain ⟨g, rest, hcov⟩ := List.exists_cons_of_ne_nil hcover
    -- the first group that covers it is resolved, and it is asked before anything is waived
    have hst : g.status = .resolved := by
      cases hg : g.status with
      | opened => exact absurd ⟨g, hcov ▸ List.mem_cons_self, hg⟩ hopen
      | resolved => rfl
    rw [hcov, List.foldlM_cons, bind_eq_ok_iff] at h
    obtain ⟨w, hstep, -⟩ := h
    unfold coverStep at hstep
    rw [hst] at hstep
    simp only [bind_eq_ok_iff, raiseIf_eq_ok_iff, not_not] at hstep
    obtain ⟨-, hall, -⟩ := hstep
    exact List.contains_iff_mem.mp (List.all_eq_true.mp hall x htouched)

/-- What a waiver by a recorded winner stands on: the input repeats the winner's value. -/
theorem exists_winner_of_recorded {drafts : List Draft} {selected : List String} {edit : Bool}
    {origins : List (String × String)} {g : ConflictDetail} {waived : List String}
    (h : T.againstResolved drafts selected edit origins g = .ok waived) {x : String}
    (hx : x ∈ waived) :
    x ∈ g.members ∧ ∃ rid w d dw, (rid, w) ∈ origins ∧ w ∈ g.members ∧ draftOf drafts x = .ok d
      ∧ draftOf drafts w = .ok dw ∧ T.draftKey d = T.draftKey dw
      ∧ T.valueFingerprint d.payload = T.valueFingerprint dw.payload := by
  unfold Revalidation.againstResolved at h
  simp only at h
  split_ifs at h with hnone
  · rw [pure_eq_ok, Except.ok.injEq] at h
    rw [← h] at hx
    cases hx
  · simp only [bind_eq_ok_iff, orRaise_eq_ok_iff] at h
    obtain ⟨res, -, -, -, each, heach, h⟩ := h
    rw [pure_eq_ok, Except.ok.injEq] at h
    rw [← h] at hx
    obtain ⟨l, hl, hxl⟩ := List.mem_flatten.mp hx
    obtain ⟨pid, hpid, hpair⟩ := exists_of_mem_mapM heach hl
    rw [bind_eq_ok_iff] at hpair
    obtain ⟨ls, hls, hpair⟩ := hpair
    rw [pure_eq_ok, Except.ok.injEq] at hpair
    rw [← hpair] at hxl
    obtain ⟨l', hl', hxl'⟩ := List.mem_flatten.mp hxl
    obtain ⟨w, hw, hagainst⟩ := exists_of_mem_mapM hls hl'
    -- one comparison with one winner
    unfold Revalidation.againstWinner at hagainst
    simp only [bind_eq_ok_iff] at hagainst
    obtain ⟨d, hd, dw, hdw, hagainst⟩ := hagainst
    split_ifs at hagainst with hempty
    · rw [pure_eq_ok, Except.ok.injEq] at hagainst
      rw [← hagainst] at hxl'
      cases hxl'
    · simp only [bind_eq_ok_iff, raiseIf_eq_ok_iff, pure_eq_ok, Except.ok.injEq, not_or,
        not_not] at hagainst
      obtain ⟨-, ⟨-, hfp⟩, rfl⟩ := hagainst
      obtain rfl := List.mem_singleton.mp hxl'
      obtain ⟨⟨rid, origin⟩, ho, hsome⟩ := List.mem_filterMap.mp hw
      split_ifs at hsome with hc
      rw [Bool.and_eq_true, List.contains_iff_mem, List.contains_iff_mem] at hc
      obtain rfl := Option.some.inj hsome
      exact ⟨(List.mem_filter.mp hpid).1, rid, origin, d, dw, ho, hc.2, hd, hdw,
        draftKey_eq_of_detected (by simpa using hempty), hfp⟩

/-- **What the checks say of a detected conflict**: an open group covers it and allows one winner in
it, or its selected members repeat the value of a recorded winner. -/
theorem checkEvaluated_eq_ok {drafts : List Draft} {selected : List String}
    {groups : List ConflictDetail} {decisions : List ConflictDecision} {action : ActionName}
    {origins : List (String × String)} {waived : List String}
    (h : T.checkEvaluated drafts selected groups decisions action origins = .ok waived)
    (hids : (drafts.map Draft.id).Nodup) {c : Detected} (hc : c ∈ T.detectConflicts drafts)
    {x : String}
    (hx : x ∈ c.memberProposalIds) (hsel : x ∈ selected) :
    (∃ g ∈ groups, g.status = .opened ∧ (∀ m ∈ c.memberProposalIds, m ∈ g.members)
      ∧ ∃ d ∈ decisions, d.conflictId = g.id
        ∧ (1 < (c.memberProposalIds.filter d.selectedWinnerIds.contains).length → action = .merge))
    ∨ ∃ g ∈ groups, x ∈ g.members ∧ ∃ rid w d dw, (rid, w) ∈ origins ∧ w ∈ g.members
      ∧ draftOf drafts x = .ok d ∧ draftOf drafts w = .ok dw ∧ T.draftKey d = T.draftKey dw
      ∧ T.valueFingerprint d.payload = T.valueFingerprint dw.payload := by
  simp only [Revalidation.checkEvaluated, bind_eq_ok_iff] at h
  obtain ⟨recorded, hrecorded, h⟩ := h
  have hstep : ∀ done y rest w w', done ++ y :: rest = T.detectConflicts drafts →
      (∀ z ∈ w, z ∈ recorded.flatten ∨ ∃ e ∈ done, z ∈ e.memberProposalIds) →
      detectedStep action groups decisions selected w y = .ok w' →
      ∀ z ∈ w', z ∈ recorded.flatten ∨ ∃ e ∈ done ++ [y], z ∈ e.memberProposalIds := by
    intro done y rest w w' _ hinv hok z hz
    rcases detectedStep_subset hok z hz with hz | hz
    · rcases hinv z hz with hz | ⟨e, he, hz⟩
      · exact .inl hz
      · exact .inr ⟨e, List.mem_append_left _ he, hz⟩
    · exact .inr ⟨y, List.mem_append_right _ List.mem_cons_self, hz⟩
  obtain ⟨done, rest, w, w', hsplit, hinv, hok⟩ := foldlM_ok_at
    (fun done w => ∀ z ∈ w, z ∈ recorded.flatten ∨ ∃ e ∈ done, z ∈ e.memberProposalIds) hstep
    (fun z hz => .inl hz) h hc
  refine (detectedStep_eq_ok hok hx hsel).imp_right fun hw => ?_
  have hrec : x ∈ recorded.flatten := by
    rcases hinv x hw with hrec | ⟨e, he, hxe⟩
    · exact hrec
    · -- a proposal is in one detected conflict
      have he' : e ∈ T.detectConflicts drafts := by
        rw [← hsplit]
        exact List.mem_append_left _ he
      obtain ⟨d, hd, hdid, hdkey⟩ := (mem_memberProposalIds hc).mp hx
      obtain ⟨d', hd', hdid', hdkey'⟩ := (mem_memberProposalIds he').mp hxe
      obtain rfl := List.inj_on_of_nodup_map hids hd hd' (hdid.trans hdid'.symm)
      have hkeys := detectConflicts_keys_nodup (T := T) drafts
      rw [← hsplit, List.map_append, List.map_cons, List.nodup_append] at hkeys
      exact absurd (hdkey'.symm.trans hdkey)
        (hkeys.2.2 _ (List.mem_map_of_mem he) _ List.mem_cons_self)
  obtain ⟨l, hl, hxl⟩ := List.mem_flatten.mp hrec
  obtain ⟨g, hg, hagainst⟩ := exists_of_mem_mapM hrecorded hl
  obtain ⟨hxg, hrest⟩ := exists_winner_of_recorded hagainst hxl
  exact ⟨g, hg, hxg, hrest⟩

/-! ## The rows of a comparison -/

/-- Locked rows have distinct identifiers. -/
theorem lockedRows_ids_nodup (hs : s.WF) {runIds : List String} {rows : List Row}
    (h : s.lockedRows T runIds = .ok rows) : (rows.map Row.id).Nodup := by
  obtain rfl := lockedRows_eq_ok h
  rw [List.map_map]
  exact hs.proposalIds.sublist (List.filter_sublist.map Proposal.id)

/-- The heads are the latest versions of the records. -/
theorem mem_heads {runIds : List String} {a : ApprovedRecord} {v : ApprovedVersion} :
    (a, v) ∈ s.heads runIds ↔ a ∈ s.records ∧ a.head? = some v ∧ ∃ p, s.proposal? v.origin = some p
      ∧ (p.runId ∈ runIds ∨ ∃ id ∈ v.sourceRuns, id ∈ runIds) := by
  simp only [ReviewDb.heads, List.mem_filterMap]
  constructor
  · rintro ⟨r, hr, h⟩
    split at h
    case h_1 => cases h
    case h_2 w hw =>
        split at h
        case h_1 => cases h
        case h_2 p hp =>
            split_ifs at h with hc
            simp only [Option.some.injEq, Prod.mk.injEq] at h
            obtain ⟨rfl, rfl⟩ := h
            exact ⟨hr, hw, p, hp, by simpa using hc⟩
  · rintro ⟨hr, hv, p, hp, hc⟩
    refine ⟨a, hr, ?_⟩
    simp only [hv, hp]
    rw [if_pos (by simpa using hc)]

/-- Rows that keep their ids are a part of the rows by id. -/
theorem map_id_filterMap_sublist {f : Row → Option Row} (hf : ∀ row row', f row = some row' →
    row'.id = row.id) (rows : List Row) :
    ((rows.filterMap f).map Row.id).Sublist (rows.map Row.id) := by
  induction rows with
  | nil => simp
  | cons row rows ih =>
      rw [List.filterMap_cons]
      cases hrow : f row with
      | none => exact ih.cons _
      | some row' =>
          rw [List.map_cons, List.map_cons, hf row row' hrow]
          exact ih.cons_cons _

/-- What `current_rows` returns. -/
structure CurrentOk (s : ReviewDb) (rows current : List Row) (runIds : List String)
    (origins : List (String × String)) : Prop where
  origins_eq : origins = (s.heads runIds).map fun h => (h.1.id, h.2.origin)
  distinct : ((s.heads runIds).map fun h => h.2.origin).Nodup
  ids : (current.map Row.id).Sublist (rows.map Row.id)
  /-- A head stands in its origin's row. -/
  heads : ∀ h ∈ s.heads runIds, ∃ row ∈ current, row.id = h.2.origin ∧ row.payload = h.2.payload

/-- The current rows are the locked ones and those of the heads. -/
theorem currentRows_eq_ok {rows current : List Row} {runIds : List String}
    {origins : List (String × String)} (h : s.currentRows T rows runIds = .ok (current, origins)) :
    CurrentOk s rows current runIds origins := by
  simp only [ReviewDb.currentRows, bind_eq_ok_iff, raiseIf_eq_ok_iff, pure_eq_ok, Except.ok.injEq,
    Prod.mk.injEq, not_not] at h
  obtain ⟨-, -, -, -, -, hrows, -, hdistinct, -, -, rfl, rfl⟩ := h
  refine ⟨rfl, hdistinct, ?_, ?_⟩
  · refine map_id_filterMap_sublist ?_ rows
    intro row row' hrow
    split at hrow
    · obtain rfl := Option.some.inj hrow
      rfl
    · split_ifs at hrow
      obtain rfl := Option.some.inj hrow
      rfl
  · intro h hh
    have hrow : (rows.any fun row => row.id == h.2.origin) = true := by
      by_contra hno
      exact hrows (List.any_eq_true.mpr ⟨h, hh, by simpa using hno⟩)
    obtain ⟨row, hmem, hid⟩ := List.any_eq_true.mp hrow
    rw [beq_iff_eq] at hid
    refine ⟨row.withHead h.2, List.mem_filterMap.mpr ⟨row, hmem, ?_⟩, hid, rfl⟩
    have hfind : (s.heads runIds).find? (fun h => h.2.origin == row.id) = some h :=
      (find?_eq_some_iff_of_nodup (f := fun h => h.2.origin) hdistinct).mpr ⟨hh, hid.symm⟩
    rw [hfind]

/-- A row of the metric of a selected one is relevant. -/
theorem relevantRows_eq_ok {rows relevant : List Row} {selected required : List String}
    (h : T.relevantRows rows selected required = .ok relevant) :
    relevant.Sublist rows ∧ ∀ row ∈ rows, ∀ chosen ∈ rows, chosen.id ∈ selected →
      ∀ m, chosen.payload.strAt "metric_id" = some m → row.payload.strAt "metric_id" = some m →
        row ∈ relevant := by
  simp only [Revalidation.relevantRows, bind_eq_ok_iff, pure_eq_ok, Except.ok.injEq] at h
  obtain ⟨-, -, rfl⟩ := h
  refine ⟨List.filter_sublist, ?_⟩
  intro row hrow chosen hchosen hid m hm hrowm
  refine List.mem_filter.mpr ⟨hrow, ?_⟩
  have hmem : m ∈ (rows.filter fun row => selected.contains row.id).filterMap fun row =>
      row.payload.strAt "metric_id" :=
    List.mem_filterMap.mpr ⟨chosen, List.mem_filter.mpr ⟨hchosen, List.contains_iff_mem.mpr hid⟩,
      hm⟩
  simp only [hrowm, Bool.or_eq_true, List.contains_iff_mem, List.mem_append]
  exact .inr (.inr (.inl hmem))

theorem exists_left_of_forall₂ {α β : Type} {R : α → β → Prop} {l : List α} {l' : List β}
    (h : List.Forall₂ R l l') {b : β} (hb : b ∈ l') : ∃ a ∈ l, R a b := by
  induction h with
  | nil => cases hb
  | cons hab _ ih =>
      rcases List.mem_cons.mp hb with rfl | hb
      · exact ⟨_, List.mem_cons_self, hab⟩
      · obtain ⟨a, ha, hR⟩ := ih hb
        exact ⟨a, List.mem_cons_of_mem _ ha, hR⟩

theorem exists_right_of_forall₂ {α β : Type} {R : α → β → Prop} {l : List α} {l' : List β}
    (h : List.Forall₂ R l l') {a : α} (ha : a ∈ l) : ∃ b ∈ l', R a b := by
  obtain ⟨b, hb, hR⟩ := exists_left_of_forall₂ h.flip ha
  exact ⟨b, hb, hR⟩

/-- Drafts have the identifiers of their rows. -/
theorem ids_of_forall₂_draftFrom {rows : List Row} {drafts : List Draft}
    (h : List.Forall₂ (DraftFrom T) rows drafts) : drafts.map Draft.id = rows.map Row.id := by
  induction h with
  | nil => rfl
  | cons hd _ ih => rw [List.map_cons, List.map_cons, ih, hd.id]

/-- **A head is compared with a selected draft of its key.** -/
theorem exists_draft_of_head (hT : T.Lawful) {pool relevant : List Row}
    {selected required : List String}
    {drafts : List Draft} (hrel : T.relevantRows pool selected required = .ok relevant)
    (heval : T.evaluate relevant = .ok drafts) {v : ApprovedVersion} (hv : Certified T v)
    {row : Row}
    (hrow : row ∈ pool) (hpayload : row.payload = v.payload) {d : Draft} (hd : d ∈ drafts)
    (hsel : d.id ∈ selected) (hkey : T.versionKey v = T.draftKey d) :
    ∃ dv ∈ drafts, dv.id = row.id ∧ T.draftKey dv = T.versionKey v
      ∧ T.valueFingerprint dv.payload = T.valueFingerprint v.payload := by
  obtain ⟨hsub, hmetric⟩ := relevantRows_eq_ok hrel
  have hall := hT.evaluate heval
  obtain ⟨chosen, hchosen, hfrom⟩ := exists_left_of_forall₂ hall hd
  obtain ⟨m, hm, -⟩ := hfrom.metric
  have hrowm : row.payload.strAt "metric_id" = some m := by
    rw [hpayload, hT.metric_eq hv hfrom hkey, hm]
  have hin := hmetric row hrow chosen (hsub.subset hchosen) (hfrom.id ▸ hsel) m hm hrowm
  obtain ⟨dv, hdv, hdvfrom⟩ := exists_right_of_forall₂ hall hin
  exact ⟨dv, hdv, hdvfrom.id, hdvfrom.stable v hv hpayload⟩

end Extraction
