/-
# Isolation in calibration datasets

What the scan over the records accepts, without the order of the records.

* `Consistent` is the condition on a list of records; `scanRecords_eq_ok_iff`: the scan accepts
  exactly the lists of readable items whose records are consistent.  The step is
  `scanRecord_eq_ok_iff`.
* `NoLeakage` is the isolation of a dataset: records of different splits share no issuer, source or
  proposal, and no context of an earlier split reaches a later one.
-/
import EvidenceLab.CalibrationDataset

namespace CalibrationDataset

open Except (bind_eq_ok_iff raiseIf_eq_ok_iff)
open StableSort (sortBy sortBy_perm mem_sortBy)

/-! ## One step of the scan -/

/-- The checks of `_record` on one item. -/
def readRecord (kind : EvidenceKind) (value : PyJson) : Except DatasetError Record := do
  let members ← requireKeys recordKeys value
  let sampleId ← canonicalUuid (PyJson.member members "sample_id")
  readFields kind members sampleId

/-- A record fits what was scanned before. -/
structure Fits (manifest : Manifest) (st : ScanState) (r : Record) : Prop where
  sample_new : r.sampleId ∉ st.sampleIds
  label_new : r.labelKey ∉ st.proposalFields
  split_agrees : ∀ s ∈ st.proposalSplit.get? r.proposalSha256, s = r.split
  meta_agrees : ∀ m ∈ st.proposalMeta.get? r.proposalSha256, m = r.proposalMeta
  source_agrees : ∀ s ∈ st.sourceSplit.get? r.sourceSha256, s = r.split
  issuer_mem : r.issuerId ∈ (manifest.window r.split).issuerIds
  published_mem : (manifest.window r.split).startAt ≤ r.publishedAt ∧
    r.publishedAt ≤ (manifest.window r.split).endAt
  strata_le : (st.add r).strata.length ≤ maxStrata

variable {kind : EvidenceKind} {manifest : Manifest} {st : ScanState} {value : PyJson} {r : Record}

/-- A record is accepted if it agrees with what the scan has seen. -/
theorem accept_eq_ok_iff : st.accept manifest r = .ok () ↔
    r.labelKey ∉ st.proposalFields
      ∧ (∀ s ∈ st.proposalSplit.get? r.proposalSha256, s = r.split)
      ∧ (∀ m ∈ st.proposalMeta.get? r.proposalSha256, m = r.proposalMeta)
      ∧ (∀ s ∈ st.sourceSplit.get? r.sourceSha256, s = r.split)
      ∧ r.issuerId ∈ (manifest.window r.split).issuerIds
      ∧ ((manifest.window r.split).startAt ≤ r.publishedAt
        ∧ r.publishedAt ≤ (manifest.window r.split).endAt)
      ∧ (st.add r).strata.length ≤ maxStrata := by
  simp only [ScanState.accept, bind_eq_ok_iff, raiseIf_eq_ok_iff, exists_const, not_exists, not_and,
    not_not, not_lt, Classical.not_imp]

/-- The record read under a sample id has it. -/
theorem sampleId_of_readFields {members : List (PyStr × PyJson)} {sampleId : Uuid}
    (h : readFields kind members sampleId = .ok r) : r.sampleId = sampleId := by
  simp only [readFields, bind_eq_ok_iff, raiseIf_eq_ok_iff, Except.pure_eq_ok, Except.ok.injEq] at h
  obtain ⟨_, -, _, -, _, -, _, -, _, -, _, -, _, -, _, -, _, -, _, -, _, -, _, -, _,
    -, _, -, rfl⟩ := h
  rfl

/-- **Everything a step of the scan can do.** -/
theorem scanRecord_eq_ok_iff {p : ScanState × Record} :
    scanRecord kind manifest st value = .ok p ↔
      ∃ r, readRecord kind value = .ok r ∧ Fits manifest st r ∧ p = (st.add r, r) := by
  simp only [scanRecord, readRecord, bind_eq_ok_iff, raiseIf_eq_ok_iff, Except.pure_eq_ok,
    Except.ok.injEq]
  constructor
  · rintro ⟨members, hkeys, sampleId, hid, _, hnew, r, hr, _, hadmit, rfl⟩
    have hsample := sampleId_of_readFields hr
    obtain ⟨hlabel, hsplit, hmeta, hsource, hissuer, hpub, hstrata⟩ := accept_eq_ok_iff.mp hadmit
    exact ⟨r, ⟨members, hkeys, sampleId, hid, hr⟩,
      ⟨hsample ▸ hnew, hlabel, hsplit, hmeta, hsource, hissuer, hpub, hstrata⟩, rfl⟩
  · rintro ⟨r, ⟨members, hkeys, sampleId, hid, hr⟩, hfit, rfl⟩
    have hsample := sampleId_of_readFields hr
    exact ⟨members, hkeys, sampleId, hid, (), hsample ▸ hfit.sample_new, r, hr, (),
      accept_eq_ok_iff.mpr ⟨hfit.label_new, hfit.split_agrees, hfit.meta_agrees, hfit.source_agrees,
        hfit.issuer_mem,
        hfit.published_mem, hfit.strata_le⟩, rfl⟩

/-! ## The state after some records -/

/-- The state that some records lead to. -/
def stateOf (records : List Record) : ScanState := records.foldl ScanState.add .empty

/-- One more record is added to the state. -/
@[simp] theorem stateOf_snoc (records : List Record) (r : Record) :
    stateOf (records ++ [r]) = (stateOf records).add r := by
  rw [stateOf, List.foldl_append]
  rfl

theorem exists_mem_snoc {α : Type} {l : List α} {a : α} {p : α → Prop} :
    (∃ b ∈ l ++ [a], p b) ↔ (∃ b ∈ l, p b) ∨ p a := by
  simp only [List.mem_append, List.mem_singleton, or_and_right, exists_or, exists_eq_left]

theorem forall_mem_snoc {α : Type} {l : List α} {a : α} {p : α → Prop} :
    (∀ b ∈ l ++ [a], p b) ↔ (∀ b ∈ l, p b) ∧ p a := by
  simp only [List.forall_mem_append, List.forall_mem_singleton]

/-- The sample identifiers are those of the records. -/
theorem mem_sampleIds {records : List Record} {i : Uuid} :
    i ∈ (stateOf records).sampleIds ↔ ∃ r ∈ records, r.sampleId = i := by
  induction records using List.reverseRecOn with
  | nil => simp [stateOf, ScanState.empty]
  | append_singleton records r ih =>
      rw [stateOf_snoc, ScanState.add, List.mem_insert_iff, ih, exists_mem_snoc, or_comm, eq_comm]

/-- The label keys are those of the records. -/
theorem mem_proposalFields {records : List Record} {k : Hash × Family × FieldName} :
    k ∈ (stateOf records).proposalFields ↔ ∃ r ∈ records, r.labelKey = k := by
  induction records using List.reverseRecOn with
  | nil => simp [stateOf, ScanState.empty]
  | append_singleton records r ih =>
      rw [stateOf_snoc, ScanState.add, List.mem_insert_iff, ih, exists_mem_snoc, or_comm, eq_comm]

/-- The strata are listed once each. -/
theorem strata_eq {records : List Record} :
    (stateOf records).strata.Nodup ∧ (stateOf records).strata.toFinset
    = (records.map Record.stratum).toFinset := by
  induction records using List.reverseRecOn with
  | nil => exact ⟨List.nodup_nil, rfl⟩
  | append_singleton records r ih =>
      obtain ⟨hnodup, hset⟩ := ih
      rw [stateOf_snoc, ScanState.add]
      refine ⟨hnodup.insert, ?_⟩
      ext k
      rw [List.mem_toFinset, List.mem_insert_iff, ← List.mem_toFinset, hset, List.map_append,
        List.map_singleton,
        List.mem_toFinset, List.mem_toFinset, List.mem_append, List.mem_singleton, or_comm]

/-- The strata are counted once each. -/
theorem length_strata (records : List Record) :
    (stateOf records).strata.length = (records.map Record.stratum).toFinset.card := by
  rw [← strata_eq.2, List.toFinset_card_of_nodup strata_eq.1]

section Maps

variable {κ α : Type} [DecidableEq κ] (key : Record → κ) (val : Record → α)
    (map : ScanState → Dict κ α)

/-- A map of the state that each record sets under a key. -/
structure Fills : Prop where
  empty : map .empty = []
  add : ∀ st r, map (st.add r) = (map st).set (key r) (val r)

variable {key val map}

/-- A value in such a map is the value of a record with its key, and a key of a record has a value.
-/
theorem Fills.get? (h : Fills key val map) {records : List Record} {k : κ} :
    (∀ a, (map (stateOf records)).get? k = some a → ∃ r ∈ records, key r = k ∧ val r = a)
      ∧ (∀ r ∈ records, key r = k → ∃ a, (map (stateOf records)).get? k = some a) := by
  induction records using List.reverseRecOn with
  | nil =>
      rw [stateOf, List.foldl_nil, h.empty]
      simp
  | append_singleton records r ih =>
      rw [stateOf_snoc, h.add]
      simp only [Dict.get?_set]
      by_cases hk : key r = k
      · simp only [if_pos hk]
        exact ⟨fun a ha => ⟨r, by simp, hk, Option.some.inj ha⟩, fun _ _ _ => ⟨_, rfl⟩⟩
      · simp only [if_neg hk]
        constructor
        · intro a ha
          obtain ⟨r', hr', hkey, hval⟩ := ih.1 a ha
          exact ⟨r', List.mem_append_left _ hr', hkey, hval⟩
        · intro r' hr' hkey
          rcases List.mem_append.mp hr' with hr' | hr'
          · exact ih.2 r' hr' hkey
          · rw [List.mem_singleton.mp hr'] at hkey
            exact absurd hkey hk

/-- When the records with one key agree, a new value agrees with the map exactly when it agrees with
them. -/
theorem Fills.agrees_iff (h : Fills key val map) {records : List Record}
    (hagree : ∀ r ∈ records, ∀ r' ∈ records, key r = key r' → val r = val r') {k : κ} {a : α} :
    (∀ b ∈ (map (stateOf records)).get? k, b = a) ↔ ∀ r ∈ records, key r = k → val r = a := by
  obtain ⟨hsome, hkey⟩ :
      (∀ a, (map (stateOf records)).get? k = some a → ∃ r ∈ records, key r = k ∧ val r = a)
      ∧ ∀ r ∈ records, key r = k → ∃ a, (map (stateOf records)).get? k = some a := h.get?
  constructor
  · intro hb r hr hrk
    obtain ⟨b, hget⟩ := hkey r hr hrk
    obtain ⟨r', hr', hrk', hval⟩ := hsome b hget
    rw [hagree r hr r' hr' (hrk.trans hrk'.symm), hval]
    exact hb b hget
  · intro hr b hb
    obtain ⟨r, hrm, hrk, rfl⟩ := hsome b hb
    exact hr r hrm hrk

end Maps

theorem fills_proposalSplit : Fills Record.proposalSha256 Record.split ScanState.proposalSplit :=
  ⟨rfl, fun _ _ => rfl⟩

theorem fills_proposalMeta :
    Fills Record.proposalSha256 Record.proposalMeta ScanState.proposalMeta :=
  ⟨rfl, fun _ _ => rfl⟩

theorem fills_sourceSplit : Fills Record.sourceSha256 Record.split ScanState.sourceSplit :=
  ⟨rfl, fun _ _ => rfl⟩

/-! ## What the scan accepts -/

/-- A condition on records that does not speak of their order. -/
structure Consistent (manifest : Manifest) (records : List Record) : Prop where
  samples : (records.map Record.sampleId).Nodup
  labels : (records.map Record.labelKey).Nodup
  proposals : ∀ r ∈ records, ∀ r' ∈ records, r.proposalSha256 = r'.proposalSha256 →
    r.proposalMeta = r'.proposalMeta
  sources : ∀ r ∈ records, ∀ r' ∈ records, r.sourceSha256 = r'.sourceSha256 → r.split = r'.split
  issuers : ∀ r ∈ records, r.issuerId ∈ (manifest.window r.split).issuerIds
  published : ∀ r ∈ records,
    (manifest.window r.split).startAt ≤ r.publishedAt ∧
    r.publishedAt ≤ (manifest.window r.split).endAt
  strata : (records.map Record.stratum).toFinset.card ≤ maxStrata

/-- Records of one proposal are in one split. -/
theorem Consistent.splits {records : List Record} (h : Consistent manifest records) :
    ∀ r ∈ records, ∀ r' ∈ records, r.proposalSha256 = r'.proposalSha256 → r.split = r'.split :=
  fun r hr r' hr' heq => congrArg ProposalMeta.split (h.proposals r hr r' hr' heq)

/-- **One more record**: a consistent list stays consistent exactly when the record fits its state.
-/
theorem consistent_snoc_iff {records : List Record} {r : Record} :
    Consistent manifest (records ++ [r]) ↔ Consistent manifest records ∧
    Fits manifest (stateOf records) r := by
  have hlen := length_strata (records ++ [r])
  rw [stateOf_snoc] at hlen
  constructor
  · -- the earlier records are consistent, and the new one fits them
    intro h
    have hrec : Consistent manifest records := by
      obtain ⟨hs, hl, hp, hsrc, hi, hpub, hst⟩ := h
      rw [List.map_append, List.nodup_append] at hs hl
      refine ⟨hs.1, hl.1, ?_, ?_, (forall_mem_snoc.mp hi).1, (forall_mem_snoc.mp hpub).1, ?_⟩
      · exact fun a ha b hb => hp a (List.mem_append_left _ ha) b (List.mem_append_left _ hb)
      · exact fun a ha b hb => hsrc a (List.mem_append_left _ ha) b (List.mem_append_left _ hb)
      · refine le_trans (Finset.card_le_card ?_) hst
        rw [List.map_append, List.toFinset_append]
        exact Finset.subset_union_left
    have hr : r ∈ records ++ [r] := by simp
    refine ⟨hrec, ?_, ?_, ?_, ?_, ?_, h.issuers r hr, h.published r hr, hlen ▸ h.strata⟩
    · -- its sample is new
      rw [mem_sampleIds]
      rintro ⟨a, ha, heq⟩
      have := h.samples
      rw [List.map_append, List.nodup_append] at this
      exact this.2.2 _ (List.mem_map_of_mem ha) _ (by simp) heq
    · -- its label is new
      rw [mem_proposalFields]
      rintro ⟨a, ha, heq⟩
      have := h.labels
      rw [List.map_append, List.nodup_append] at this
      exact this.2.2 _ (List.mem_map_of_mem ha) _ (by simp) heq
    · exact (fills_proposalSplit.agrees_iff hrec.splits).mpr fun a ha =>
        h.splits a (List.mem_append_left _ ha) r hr
    · exact (fills_proposalMeta.agrees_iff hrec.proposals).mpr fun a ha =>
        h.proposals a (List.mem_append_left _ ha) r hr
    · exact (fills_sourceSplit.agrees_iff hrec.sources).mpr fun a ha =>
        h.sources a (List.mem_append_left _ ha) r hr
  · rintro ⟨h, hfit⟩
    have hmeta := (fills_proposalMeta.agrees_iff h.proposals).mp hfit.meta_agrees
    have hsource := (fills_sourceSplit.agrees_iff h.sources).mp hfit.source_agrees
    refine ⟨?_, ?_, ?_, ?_, forall_mem_snoc.mpr ⟨h.issuers, hfit.issuer_mem⟩,
      forall_mem_snoc.mpr ⟨h.published, hfit.published_mem⟩, hlen ▸ hfit.strata_le⟩
    · rw [List.map_append, List.map_singleton, List.nodup_append]
      refine ⟨h.samples, List.nodup_singleton _, ?_⟩
      rintro i hi _ hj rfl
      rw [List.mem_singleton.mp hj] at hi
      exact hfit.sample_new (mem_sampleIds.mpr (by simpa using hi))
    · rw [List.map_append, List.map_singleton, List.nodup_append]
      refine ⟨h.labels, List.nodup_singleton _, ?_⟩
      rintro i hi _ hj rfl
      rw [List.mem_singleton.mp hj] at hi
      exact hfit.label_new (mem_proposalFields.mpr (by simpa using hi))
    · rw [forall_mem_snoc]
      simp only [forall_mem_snoc]
      exact ⟨fun a ha => ⟨h.proposals a ha, hmeta a ha⟩, fun a ha heq => (hmeta a ha heq.symm).symm,
        fun _ => trivial⟩
    · rw [forall_mem_snoc]
      simp only [forall_mem_snoc]
      exact ⟨fun a ha => ⟨h.sources a ha, hsource a ha⟩,
        fun a ha heq => (hsource a ha heq.symm).symm, fun _ => trivial⟩

theorem consistent_nil : Consistent manifest [] :=
  ⟨List.nodup_nil, List.nodup_nil, by simp, by simp, by simp, by simp, by simp⟩

/-- A step of the scan reads a record that fits what has been seen. -/
theorem scanStep_eq_ok_iff {found p : ScanState × List Record} :
    scanStep kind manifest found value = .ok p ↔
      ∃ r, readRecord kind value = .ok r ∧ Fits manifest found.1 r ∧
      p = (found.1.add r, found.2 ++ [r]) := by
  simp only [scanStep, bind_eq_ok_iff, scanRecord_eq_ok_iff, Except.pure_eq_ok, Except.ok.injEq]
  constructor
  · rintro ⟨_, ⟨r, hr, hfit, rfl⟩, rfl⟩
    exact ⟨r, hr, hfit, rfl⟩
  · rintro ⟨r, hr, hfit, rfl⟩
    exact ⟨_, ⟨r, hr, hfit, rfl⟩, rfl⟩

theorem forall₂_snoc_left {α β : Type} {R : α → β → Prop} {l : List α} {a : α} {ys : List β} :
    List.Forall₂ R (l ++ [a]) ys ↔ ∃ ys' b, ys = ys' ++ [b] ∧ List.Forall₂ R l ys' ∧ R a b := by
  constructor
  · intro h
    rw [← List.forall₂_reverse_iff, List.reverse_concat, List.forall₂_cons_left_iff] at h
    obtain ⟨b, ys', hb, hl, hys⟩ := h
    rw [← List.forall₂_reverse_iff, List.reverse_reverse] at hl
    exact ⟨ys'.reverse, b, by rw [← List.reverse_reverse ys, hys, List.reverse_cons], hl, hb⟩
  · rintro ⟨ys', b, rfl, hl, hb⟩
    exact List.rel_append hl (.cons hb .nil)

/-- **The scan accepts** the readable items whose records are consistent, in any order. -/
theorem scanRecords_eq_ok_iff {items : List PyJson} {p : ScanState × List Record} :
    scanRecords kind manifest items = .ok p ↔
      List.Forall₂ (fun item r => readRecord kind item = .ok r) items p.2 ∧ Consistent manifest p.2
        ∧ p.1 = stateOf p.2 := by
  induction items using List.reverseRecOn generalizing p with
  | nil =>
      rw [scanRecords, List.foldlM_nil, Except.pure_eq_ok, Except.ok.injEq]
      constructor
      · rintro rfl
        exact ⟨.nil, consistent_nil, rfl⟩
      · rintro ⟨hread, -, hst⟩
        obtain ⟨st, records⟩ := p
        obtain rfl : records = [] := List.forall₂_nil_left_iff.mp hread
        rw [show st = ScanState.empty from hst]
  | append_singleton items item ih =>
      have hsplit : scanRecords kind manifest (items ++ [item]) =
          scanRecords kind manifest items >>= fun found => scanStep kind manifest found item := by
        rw [scanRecords, List.foldlM_append]
        simp only [List.foldlM_cons, List.foldlM_nil, bind_pure]
        rfl
      simp only [hsplit, bind_eq_ok_iff, ih, scanStep_eq_ok_iff, forall₂_snoc_left]
      constructor
      · rintro ⟨⟨st, records⟩, ⟨hread, hcons, hst⟩, r, hr, hfit, rfl⟩
        simp only at hst hread hcons hfit ⊢
        subst hst
        exact ⟨⟨records, r, rfl, hread, hr⟩, consistent_snoc_iff.mpr ⟨hcons, hfit⟩, by
          rw [stateOf_snoc]⟩
      · rintro ⟨⟨records, r, hrec, hread, hr⟩, hcons, hst⟩
        rw [hrec, consistent_snoc_iff] at hcons
        rw [hrec, stateOf_snoc] at hst
        exact ⟨(stateOf records, records), ⟨hread, hcons.1, rfl⟩, r, hr, hcons.2, Prod.ext hst hrec⟩

/-! ## The cutoff -/

/-- The greatest of some values is below the least of others exactly when each one is below each
other. -/
theorem max?_lt_min?_iff {α : Type} [LinearOrder α] {xs ys : List α} :
    (∀ a ∈ xs.max?, ∀ p ∈ ys.min?, a < p) ↔ ∀ x ∈ xs, ∀ y ∈ ys, x < y := by
  constructor
  · intro h x hx y hy
    obtain ⟨a, ha⟩ := Option.ne_none_iff_exists'.mp fun hnone =>
      List.ne_nil_of_mem hx (List.max?_eq_none_iff.mp hnone)
    obtain ⟨p, hp⟩ := Option.ne_none_iff_exists'.mp fun hnone =>
      List.ne_nil_of_mem hy (List.min?_eq_none_iff.mp hnone)
    calc x ≤ a := (List.max?_eq_some_iff.mp ha).2 x hx
      _ < p := h a ha p hp
      _ ≤ y := (List.min?_eq_some_iff.mp hp).2 y hy
  · intro h a ha p hp
    exact h a (List.max?_eq_some_iff.mp ha).1 p (List.min?_eq_some_iff.mp hp).1

/-- The latest context of a split stays before the earliest publication of another exactly when
every context does. -/
theorem checkCutoff_eq_ok_iff {records : List Record} {s t : Split} {u : Unit} :
    checkCutoff (maxAsOf records s) (minPublished records t) = .ok u ↔
      ∀ r ∈ records, ∀ r' ∈ records, r.split = s → r'.split = t → r.asOf < r'.publishedAt := by
  rw [checkCutoff, raiseIf_eq_ok_iff, maxAsOf, minPublished]
  simp only [not_exists, not_and, not_not]
  rw [max?_lt_min?_iff]
  simp only [List.forall_mem_map, List.mem_filter, decide_eq_true_eq, and_imp]
  constructor
  · intro hall r hr r' hr' hs ht
    exact hall r hr hs r' hr' ht
  · intro hall r hr hs r' hr' ht
    exact hall r hr r' hr' hs ht

/-- No context of an earlier split reaches the publications of a later one. -/
def Ordered (records : List Record) : Prop :=
  ∀ r ∈ records, ∀ r' ∈ records, r.split.rank < r'.split.rank → r.asOf < r'.publishedAt

/-- The cutoffs pass if the splits are in order of time. -/
theorem crossSplitCutoff_eq_ok_iff {records : List Record} {u : Unit} :
    crossSplitCutoff records = .ok u ↔ Ordered records := by
  simp only [crossSplitCutoff, bind_eq_ok_iff, checkCutoff_eq_ok_iff, exists_const]
  constructor
  · rintro ⟨htc, hce, hte⟩ r hr r' hr' hrank
    cases hs : r.split <;> cases ht :
      r'.split <;> rw [hs, ht] at hrank <;> simp only [Split.rank] at hrank
    · omega
    · exact htc r hr r' hr' hs ht
    · exact hte r hr r' hr' hs ht
    · omega
    · omega
    · exact hce r hr r' hr' hs ht
    all_goals omega
  · intro h
    refine ⟨?_, ?_, ?_⟩ <;> intro r hr r' hr' hs ht <;> refine h r hr r' hr' ?_
      <;> rw [hs, ht] <;> decide

/-! ## Accepted datasets -/

/-- The issuers of the splits are apart. -/
def Apart (manifest : Manifest) : Prop :=
  ∀ s t, s ≠ t → ∀ i ∈ (manifest.window s).issuerIds, i ∉ (manifest.window t).issuerIds

/-- The windows of an accepted manifest are apart. -/
theorem apart_of_splitManifest (h : splitManifest value = .ok manifest) : Apart manifest := by
  simp only [splitManifest, bind_eq_ok_iff, raiseIf_eq_ok_iff, Except.pure_eq_ok,
    Except.ok.injEq, not_or] at h
  obtain ⟨_, -, train, -, calibration, -, evaluation, -, _, -, _, ⟨htc, hte, hce⟩, rfl⟩ := h
  intro s t hst i hi hj
  cases s <;> cases t <;> first | exact hst rfl | skip
  · exact htc ⟨i, hi, hj⟩
  · exact hte ⟨i, hi, hj⟩
  · exact htc ⟨i, hj, hi⟩
  · exact hce ⟨i, hi, hj⟩
  · exact hte ⟨i, hj, hi⟩
  · exact hce ⟨i, hj, hi⟩

/-- **Isolation of the splits.** -/
structure NoLeakage (records : List Record) : Prop where
  isolated : ∀ r ∈ records, ∀ r' ∈ records, r.split ≠ r'.split →
    r.issuerId ≠ r'.issuerId ∧ r.sourceSha256 ≠ r'.sourceSha256 ∧
      r.proposalSha256 ≠ r'.proposalSha256
  ordered : ∀ r ∈ records, ∀ r' ∈ records, r.split.rank < r'.split.rank → r.asOf < r'.publishedAt
  proposals : ∀ r ∈ records, ∀ r' ∈ records, r.proposalSha256 = r'.proposalSha256 →
    r.issuerId = r'.issuerId ∧ r.sourceSha256 = r'.sourceSha256 ∧ r.publishedAt = r'.publishedAt ∧
      r.asOf = r'.asOf
      ∧ r.adjudicatedAt = r'.adjudicatedAt ∧ r.split = r'.split
  labels : (records.map Record.labelKey).Nodup
  samples : (records.map Record.sampleId).Nodup

/-- Consistent records in their order are isolated. -/
theorem noLeakage_of_consistent {records : List Record} (hm : Apart manifest)
    (hc : Consistent manifest records)
    (ho : Ordered records) : NoLeakage records := by
  refine ⟨?_, ho, ?_, hc.labels, hc.samples⟩
  · intro r hr r' hr' hsplit
    refine ⟨?_, fun h => hsplit (hc.sources r hr r' hr' h),
      fun h => hsplit (hc.splits r hr r' hr' h)⟩
    intro h
    exact hm _ _ hsplit _ (hc.issuers r hr) (h ▸ hc.issuers r' hr')
  · intro r hr r' hr' h
    simpa [Record.proposalMeta] using hc.proposals r hr r' hr' h

/-- The order of the records does not matter to their consistency. -/
theorem Consistent.perm {records records' : List Record} (h : Consistent manifest records)
    (hp : records.Perm records') : Consistent manifest records' := by
  obtain ⟨hs, hl, hprop, hsrc, hi, hpub, hst⟩ := h
  refine ⟨(hp.map _).nodup_iff.mp hs, (hp.map _).nodup_iff.mp hl, ?_, ?_, ?_, ?_, ?_⟩
  · simpa only [hp.mem_iff] using hprop
  · simpa only [hp.mem_iff] using hsrc
  · simpa only [hp.mem_iff] using hi
  · simpa only [hp.mem_iff] using hpub
  · rwa [List.toFinset_eq_of_perm _ _ (hp.symm.map _)]

/-- Everything `parse` checked of the dataset it returns. -/
theorem parse_spec {payload : PyJson} {d : Dataset} (h : parse payload = .ok d) :
    Apart d.splits ∧ Consistent d.splits d.records ∧ Ordered d.records := by
  simp only [parse, bind_eq_ok_iff, raiseIf_eq_ok_iff, Except.pure_eq_ok, Except.ok.injEq] at h
  obtain ⟨_, -, _, -, _, -, kind, -, _, -, splits, hsplits, raw, -, _, -, scanned, hscan,
    _, hcut, rfl⟩ := h
  obtain ⟨-, hcons, -⟩ := scanRecords_eq_ok_iff.mp hscan
  exact ⟨apart_of_splitManifest hsplits, hcons.perm (sortBy_perm _ _).symm,
    crossSplitCutoff_eq_ok_iff.mp hcut⟩

end CalibrationDataset
