/-
# The steps of normalizing, repeated

A payload that was normalized is normalized again when a run is resumed and when a reviewer edits a
proposal.  Each step of `normalize_payload` leaves its own result alone: the ordered keys and
qualifiers, the dates, the merged blockers (`SharedDone.normalizeShared`), a figure that was written
(`reread`) and bounds that are in order (`orderBounds_again`).  What is left is the sign, which is
taken from the number before it is rounded (`signName_rounded_iff`).
-/
import EvidenceLab.Comparability
import EvidenceLab.NumericRoundTrip

namespace Extraction

namespace Normalize

open Decimal (Context)
open Numeric

/-! ## Ordered keys -/

/-- Distinct texts in order. -/
theorem sorted_again {l : List String} (hnodup : l.Nodup) (hsorted : l.Pairwise (· ≤ ·)) :
    (l.dedup).insertionSort (· ≤ ·) = l := by
  rw [hnodup.dedup]
  exact hsorted.insertionSort_eq

/-- The keys are sorted and distinct. -/
theorem sortedKeys_spec (members : List (String × Doc)) :
    (sortedKeys members).Nodup ∧ (sortedKeys members).Pairwise (· ≤ ·) :=
  ⟨(List.perm_insertionSort (· ≤ ·) _).nodup_iff.mpr (List.nodup_dedup _),
    List.pairwise_insertionSort (· ≤ ·) _⟩

/-- The fields of an object that was written key by key. -/
theorem field_of_map {keys : List String} {f : String → Doc} {key : String} (hkey : key ∈ keys) :
    (Doc.obj (keys.map fun k => (k, f k))).field key = f key := by
  have hfind : (keys.map fun k => (k, f k)).find? (fun kv => kv.1 == key) = some (key, f key) := by
    induction keys with
    | nil => exact absurd hkey List.not_mem_nil
    | cons k keys ih =>
        by_cases hk : k = key
        · simp [hk]
        · rw [List.map_cons, List.find?_cons_of_neg (by simpa using hk)]
          exact ih ((List.mem_cons.mp hkey).resolve_left (Ne.symm hk))
  rw [Doc.field, Doc.get?, hfind]
  rfl

theorem map_fst_map {keys : List String} {f : String → Doc} :
    (keys.map fun k => (k, f k)).map Prod.fst = keys := by
  rw [List.map_map]
  exact List.map_id keys

/-- Members written in the order of their keys are in order. -/
theorem sortedKeys_map {keys : List String} {f : String → Doc} (hnodup : keys.Nodup)
    (hsorted : keys.Pairwise (· ≤ ·)) :
    sortedKeys (keys.map fun k => (k, f k)) = keys := by
  rw [sortedKeys, map_fst_map]
  exact sorted_again hnodup hsorted

/-- **Dimensions in order stay.** -/
theorem normalizeDimensions_again {d dimensions : Doc} {blockers : List String}
    (h : normalizeDimensions d = .ok (dimensions, blockers)) :
    normalizeDimensions dimensions = .ok (dimensions, []) := by
  unfold normalizeDimensions at h
  split at h
  next =>
      cases h
      rfl
  next members =>
      cases h
      set keys := (sortedKeys members).filter fun k => isText ((Doc.obj members).field k) with hkeys
      have hspec := sortedKeys_spec members
      have hnodup : keys.Nodup := hspec.1.filter _
      have hsorted : keys.Pairwise (· ≤ ·) := hspec.2.filter _
      have htext : ∀ k ∈ keys,
          isText ((Doc.obj (keys.map fun k => (k, (Doc.obj members).field k))).field k) = true := by
        intro k hk
        rw [field_of_map (f := fun k => (Doc.obj members).field k) hk]
        exact (List.mem_filter.mp hk).2
      unfold normalizeDimensions
      simp only
      rw [sortedKeys_map (f := fun k => (Doc.obj members).field k) hnodup hsorted,
        List.filter_eq_self.mpr htext,
        if_pos (List.all_eq_true.mpr htext)]
      congr 3
      apply List.map_congr_left
      intro k hk
      rw [field_of_map (f := fun k => (Doc.obj members).field k) hk]
  next => cases h

/-- **Qualifiers in order stay.** -/
theorem normalizeQualifiers_again {d qualifiers : Doc}
    (h : normalizeQualifiers d = .ok qualifiers) :
    normalizeQualifiers qualifiers = .ok qualifiers := by
  unfold normalizeQualifiers at h
  split at h
  next =>
      cases h
      rfl
  next members =>
      cases h
      have hspec := sortedKeys_spec members
      unfold normalizeQualifiers
      simp only
      rw [sortedKeys_map (f := fun k => (Doc.obj members).field k) hspec.1 hspec.2]
      congr 2
      apply List.map_congr_left
      intro k hk
      rw [field_of_map (f := fun k => (Doc.obj members).field k) hk]
  next => cases h

section Texts

variable {repr : Doc → String}

/-- **Targets in order stay.** -/
theorem normalizeTargets_again {d targets : Doc} (h : normalizeTargets repr d = .ok targets) :
    normalizeTargets repr targets = .ok targets := by
  unfold normalizeTargets at h
  split at h
  next x xs =>
      cases h
      set texts := (((x :: xs).map (Doc.toText repr)).dedup).insertionSort (· ≤ ·) with htexts
      have hnodup : texts.Nodup :=
        (List.perm_insertionSort (· ≤ ·) _).nodup_iff.mpr (List.nodup_dedup _)
      have hsorted : texts.Pairwise (· ≤ ·) := List.pairwise_insertionSort (· ≤ ·) _
      have hmap : (texts.map Doc.str).map (Doc.toText repr) = texts := by
        rw [List.map_map]
        exact List.map_id texts
      have hne : x.toText repr ∈ texts := by
        rw [htexts, List.mem_insertionSort, List.mem_dedup]
        exact List.mem_cons_self
      cases hcases : texts.map Doc.str with
      | nil =>
          rw [List.map_eq_nil_iff] at hcases
          rw [hcases] at hne
          exact absurd hne List.not_mem_nil
      | cons y ys =>
          rw [hcases] at hmap
          unfold normalizeTargets
          simp only
          rw [hmap, sorted_again hnodup hsorted, hcases]
  next => cases h

/-! ## Blockers -/

/-- Merging keeps all texts. -/
theorem mem_mergeTexts {texts merged : List String} {t : String} :
    t ∈ mergeTexts merged texts ↔ t ∈ merged ∨ t ∈ texts := by
  unfold mergeTexts
  induction texts generalizing merged with
  | nil => simp
  | cons x texts ih =>
      rw [List.foldl_cons, ih]
      split_ifs with hx
      · rw [List.mem_cons]
        constructor
        · rintro (h | h)
          · exact Or.inl h
          · exact Or.inr (Or.inr h)
        · rintro (h | rfl | h)
          · exact Or.inl h
          · exact Or.inl hx
          · exact Or.inr h
      · rw [List.mem_append, List.mem_singleton, List.mem_cons, or_assoc]

theorem nodup_mergeTexts {texts merged : List String} (h : merged.Nodup) :
    (mergeTexts merged texts).Nodup := by
  unfold mergeTexts
  induction texts generalizing merged with
  | nil => exact h
  | cons x texts ih =>
      rw [List.foldl_cons]
      apply ih
      split_ifs with hx
      · exact h
      · exact List.nodup_append.mpr ⟨h, List.nodup_singleton x, by
          intro a ha b hb hab
          rw [List.mem_singleton.mp hb] at hab
          exact hx (hab ▸ ha)⟩

/-- Merging known texts adds none. -/
theorem mergeTexts_of_subset {texts merged : List String} (h : texts ⊆ merged) :
    mergeTexts merged texts = merged := by
  unfold mergeTexts
  induction texts with
  | nil => rfl
  | cons x texts ih =>
      rw [List.foldl_cons, if_pos (h List.mem_cons_self)]
      exact ih fun t ht => h (List.mem_cons_of_mem x ht)

/-- Merging new texts appends them. -/
theorem mergeTexts_of_nodup {texts merged : List String} (h : (merged ++ texts).Nodup) :
    mergeTexts merged texts = merged ++ texts := by
  unfold mergeTexts
  induction texts generalizing merged with
  | nil => rw [List.foldl_nil, List.append_nil]
  | cons x texts ih =>
      have hx : x ∉ merged := fun hx => (List.nodup_append.mp h).2.2 x hx x List.mem_cons_self rfl
      rw [List.foldl_cons, if_neg hx, ih (by rwa [List.append_assoc, List.singleton_append]),
        List.append_assoc,
        List.singleton_append]

/-- The blockers of the document are merged already. -/
structure Merged (repr : Doc → String) (d : Doc) : Prop where
  nodup : (carried repr d).Nodup
  settled :
    carried repr d = [] ∨ Doc.Settled normalizerBlockersKey (.arr ((carried repr d).map .str)) d

/-- Recorded blockers are carried. -/
theorem carried_of_settled {d : Doc} {texts : List String}
    (h : Doc.Settled normalizerBlockersKey (.arr (texts.map .str)) d) :
    carried repr d = texts := by
  rw [carried, Doc.listAt, h.get?]
  show (texts.map Doc.str).map (Doc.toText repr) = texts
  rw [List.map_map]
  exact List.map_id texts

/-- Blockers that are there already are not recorded again. -/
theorem Merged.record_eq {d : Doc} (h : Merged repr d) {blockers : List String}
    (hsub : blockers ⊆ carried repr d) :
    recordBlockers repr d blockers = d := by
  have hmerged : mergeTexts [] (carried repr d ++ blockers) = carried repr d := by
    have happ : mergeTexts [] (carried repr d ++ blockers)
        = mergeTexts (mergeTexts [] (carried repr d)) blockers := by
      rw [mergeTexts, List.foldl_append]
      rfl
    have hself : mergeTexts [] (carried repr d) = carried repr d :=
      mergeTexts_of_nodup (show ([] ++ carried repr d).Nodup from h.nodup)
    rw [happ, hself, mergeTexts_of_subset hsub]
  unfold recordBlockers
  simp only [hmerged]
  split_ifs with hnil
  · rfl
  · exact (h.settled.resolve_left hnil).set_eq

/-- Recording merges. -/
theorem merged_record {d : Doc} (hobj : d.isObj = true) (blockers : List String) :
    Merged repr (recordBlockers repr d blockers)
      ∧ blockers ⊆ carried repr (recordBlockers repr d blockers)
      ∧ carried repr d ⊆ carried repr (recordBlockers repr d blockers) := by
  set merged := mergeTexts [] (carried repr d ++ blockers) with hmerged
  have hcarried : carried repr (recordBlockers repr d blockers) = merged
      ∧
        (merged = [] ∨ Doc.Settled normalizerBlockersKey (.arr (merged.map .str))
        (recordBlockers repr d blockers)) := by
    unfold recordBlockers
    simp only [← hmerged]
    split_ifs with hnil
    · have hnone : ∀ t, t ∉ carried repr d := by
        intro t ht
        have : t ∈ merged := mem_mergeTexts.mpr (Or.inr (List.mem_append_left _ ht))
        rw [hnil] at this
        exact absurd this List.not_mem_nil
      exact ⟨by rw [hnil]; exact List.eq_nil_iff_forall_not_mem.mpr hnone, Or.inl hnil⟩
    · have hset : Doc.Settled normalizerBlockersKey (.arr (merged.map .str))
          (Doc.set normalizerBlockersKey (.arr (merged.map .str)) d) := Doc.settled_set hobj
      exact ⟨carried_of_settled hset, Or.inr hset⟩
  refine ⟨⟨?_, ?_⟩, ?_, ?_⟩
  · rw [hcarried.1]
    exact nodup_mergeTexts List.nodup_nil
  · rw [hcarried.1]
    exact hcarried.2
  · rw [hcarried.1]
    exact fun t ht => mem_mergeTexts.mpr (Or.inr (List.mem_append_right _ ht))
  · rw [hcarried.1]
    exact fun t ht => mem_mergeTexts.mpr (Or.inr (List.mem_append_left _ ht))

/-- Writing another key keeps the blockers. -/
theorem carried_set {d v : Doc} {key : String} (hkey : key ≠ normalizerBlockersKey) :
    carried repr (Doc.set key v d) = carried repr d := by
  rw [carried, carried, Doc.listAt, Doc.listAt, Doc.get?_set_of_ne hkey]

/-- Writing another key keeps the blockers merged. -/
theorem Merged.set {d v : Doc} {key : String} (hkey : key ≠ normalizerBlockersKey)
    (h : Merged repr d) :
    Merged repr (Doc.set key v d) := by
  refine ⟨by rw [carried_set hkey]; exact h.nodup, ?_⟩
  rw [carried_set hkey]
  exact h.settled.imp_right fun hs => hs.set_of_ne (Ne.symm hkey)

/-! ## Periods -/

/-- Stripping twice is stripping once. -/
theorem stripped_stripped (s : String) : stripped (stripped s) = stripped s := by
  unfold stripped
  rw [String.toList_ofList]
  congr 1
  by_cases hnil : PyText.strip s.toList = []
  · rw [hnil]
    rfl
  · exact strip_of_solid (solid_strip hnil)

/-- The entry of a key, where there is a value. -/
def entry (key : String) (v : Option Doc) : List (String × Doc) := v.toList.map fun d => (key, d)

/-- A period, from its four optional entries. -/
def periodDoc (ptype : String) (instant start stop fiscal : Option Doc) : Doc :=
  .obj (("type", .str ptype) :: (entry "instant" instant ++ entry "start" start ++ entry "end" stop
    ++ entry "fiscal_period" fiscal))

/-- The entries of a period are read back. -/
theorem periodDoc_get? (ptype : String) (instant start stop fiscal : Option Doc) :
    (periodDoc ptype instant start stop fiscal).get? "type" = some (.str ptype)
      ∧ (periodDoc ptype instant start stop fiscal).get? "instant" = instant
      ∧ (periodDoc ptype instant start stop fiscal).get? "start" = start
      ∧ (periodDoc ptype instant start stop fiscal).get? "end" = stop
      ∧ (periodDoc ptype instant start stop fiscal).get? "fiscal_period" = fiscal := by
  cases instant <;> cases start <;> cases stop <;> cases fiscal
    <;> simp [periodDoc, entry, Doc.get?]

/-- A date as it is written. -/
def DateDone (repr : Doc → String) (v : Option Doc) : Prop :=
  ∀ d ∈ v, ∃ text, d = .str text ∧ normalizeDate repr text = .ok text

/-- A date has no blanks at its ends. -/
theorem strip_isoFormat (d : Calendar.CivilDate) : PyText.strip d.isoFormat = d.isoFormat := by
  have hspace : ∀ c ∈ d.isoFormat, PyText.isSpace c = false := by
    intro c hc
    have hdigit : ∀ {w n : ℕ}, c ∈ Calendar.padded w n → PyText.isSpace c = false := fun hmem =>
      PyText.not_isSpace_of_isDecimal (isDecimal_of_isDigit (Calendar.padded_digits _ _ c hmem))
    rw [Calendar.CivilDate.isoFormat, List.mem_append, List.mem_cons, List.mem_append,
      List.mem_cons] at hc
    rcases hc with hc | rfl | hc | rfl | hc
    · exact hdigit hc
    · decide
    · exact hdigit hc
    · decide
    · exact hdigit hc
  have hne : d.isoFormat ≠ [] := by
    rw [Calendar.CivilDate.isoFormat]
    simp
  apply strip_of_solid
  refine ⟨hne, ?_, ?_⟩
  · intro c hc
    simp [hspace c (List.mem_of_head? hc)]
  · intro c hc
    simp [hspace c (List.mem_of_getLast? hc)]

/-- A normalized date is normalized. -/
theorem normalizeDate_again {value text : String} (h : normalizeDate repr value = .ok text) :
    normalizeDate repr text = .ok text := by
  unfold normalizeDate at h
  split at h
  next d hd =>
      cases h
      unfold normalizeDate
      rw [String.toList_ofList, strip_isoFormat, Calendar.fromIsoFormat_isoFormat]
  next => cases h

/-- A date entry is absent or normalized. -/
theorem dateEntry_eq_ok {period : Doc} {key : String} {e : List (String × Doc)}
    (h : dateEntry repr period key = .ok e) :
    ∃ v, e = entry key v ∧ DateDone repr v := by
  unfold dateEntry at h
  split at h
  next =>
      cases h
      exact ⟨none, rfl, fun d hd => nomatch hd⟩
  next =>
      obtain ⟨text, htext, he⟩ := Except.bind_eq_ok_iff.mp h
      refine ⟨some (.str text), (Except.ok.inj he).symm, ?_⟩
      rintro d ⟨⟩
      exact ⟨text, rfl, normalizeDate_again htext⟩

/-- A normalized date entry is kept. -/
theorem dateEntry_done {period : Doc} {key : String} {v : Option Doc} (hv : DateDone repr v)
    (hget : period.get? key = v) :
    dateEntry repr period key = .ok (entry key v) := by
  unfold dateEntry
  rw [Doc.field, hget]
  cases v with
  | none => rfl
  | some d =>
      obtain ⟨text, rfl, htext⟩ := hv d rfl
      show (normalizeDate repr text >>= fun text => pure [(key, Doc.str text)]) = _
      rw [htext]
      rfl

/-- A fiscal period as it is written. -/
def FiscalDone (v : Option Doc) : Prop :=
  ∀ d ∈ v, d = .null ∨ ∃ s, d = .str s ∧ stripped s = s ∧ s ≠ ""

/-- A fiscal period is absent or normalized. -/
theorem fiscalEntry_eq (period : Doc) : ∃ v, fiscalEntry repr period = entry "fiscal_period" v ∧
    FiscalDone v := by
  unfold fiscalEntry
  split
  next => exact ⟨none, rfl, fun d hd => nomatch hd⟩
  next =>
      refine ⟨some .null, rfl, ?_⟩
      rintro d ⟨⟩
      exact Or.inl rfl
  next d _ _ =>
      refine ⟨some (if stripped (d.toText repr) = "" then .null
        else .str (stripped (d.toText repr))), rfl, ?_⟩
      rintro v ⟨⟩
      split_ifs with hnil
      · exact Or.inl rfl
      · exact Or.inr ⟨_, rfl, stripped_stripped _, hnil⟩

/-- A normalized fiscal period is kept. -/
theorem fiscalEntry_done {period : Doc} {v : Option Doc} (hv : FiscalDone v)
    (hget : period.get? "fiscal_period" = v) :
    fiscalEntry repr period = entry "fiscal_period" v := by
  unfold fiscalEntry
  rw [hget]
  cases v with
  | none => rfl
  | some d =>
      rcases hv d rfl with rfl | ⟨s, rfl, hs, hne⟩
      · rfl
      · show [("fiscal_period", if stripped s = "" then Doc.null else .str (stripped s))] = _
        rw [hs, if_neg hne]
        rfl

/-- **A normalized period stays.** -/
theorem normalizePeriod_again {period period' : Doc}
    (h : normalizePeriod repr period = .ok period') :
    normalizePeriod repr period' = .ok period' := by
  unfold normalizePeriod at h
  split at h
  next members =>
      obtain ⟨known, hknown, h⟩ := Except.bind_eq_ok_iff.mp h
      split at h
      next _ _ ptype htype =>
          simp only [Except.bind_eq_ok_iff, Except.pure_eq_ok, Except.ok.injEq] at h
          obtain ⟨_, hstarts, _, hmiddles, _, hends, _, hshape, rfl⟩ := h
          obtain ⟨instant, rfl, hinstant⟩ := dateEntry_eq_ok hstarts
          obtain ⟨start, rfl, hstart⟩ := dateEntry_eq_ok hmiddles
          obtain ⟨stop, rfl, hstop⟩ := dateEntry_eq_ok hends
          obtain ⟨fiscal, hfiscal, hdone⟩ := @fiscalEntry_eq repr (.obj members)
          rw [hfiscal] at hshape ⊢
          obtain ⟨g₁, g₂, g₃, g₄, g₅⟩ := periodDoc_get? ptype instant start stop fiscal
          have hfield : (periodDoc ptype instant start stop fiscal).field "type" = .str ptype := by
            rw [Doc.field, g₁]
            rfl
          rw [htype] at hknown
          change validateShape ptype (periodDoc ptype instant start stop fiscal) = _ at hshape
          show normalizePeriod repr (periodDoc ptype instant start stop fiscal)
            = .ok (periodDoc ptype instant start stop fiscal)
          obtain ⟨entries, hentries⟩ :
            ∃ entries, periodDoc ptype instant start stop fiscal = .obj entries := ⟨_, rfl⟩
          have hsame :
              Doc.obj (("type", .str ptype)
                :: (entry "instant" instant ++ entry "start" start ++ entry "end" stop
              ++ entry "fiscal_period" fiscal)) = .obj entries := hentries
          rw [hentries] at hshape hfield g₂ g₃ g₄ g₅ ⊢
          unfold normalizePeriod
          simp only [hfield, hknown, Except.ok_bind, dateEntry_done hinstant g₂,
            dateEntry_done hstart g₃, dateEntry_done hstop g₄,
            fiscalEntry_done hdone g₅, hsame, hshape, Except.pure_eq_ok]
      next => cases h
  next => cases h

/-! ## The shared part -/

/-- What the shared part leaves behind. -/
structure SharedDone (repr : Doc → String) (d : Doc) : Prop where
  kind : oneOf (d.field "kind") ["kpi", "guidance", "revenue_driver"] = .ok true
  raw : ∃ raw, Doc.Settled "raw_value" (.str raw) d
  period : d.get? "period" = none ∨ ∃ period, Doc.Settled "period" period d ∧
    normalizePeriod repr period = .ok period
  dimensions : ∃ dimensions, Doc.Settled "dimensions" dimensions d ∧ normalizeDimensions dimensions
    = .ok (dimensions, [])
  qualifiers : ∃ qualifiers, Doc.Settled "qualifiers" qualifiers d ∧ normalizeQualifiers qualifiers
    = .ok qualifiers
  merged : Merged repr d

/-- The keys that the shared part reads. -/
def ownKeys : List String :=
  ["kind", "raw_value", "period", "dimensions", "qualifiers", normalizerBlockersKey]

/-- **The shared part leaves its own result alone.** -/
theorem SharedDone.normalizeShared {d : Doc} (h : SharedDone repr d) :
    normalizeShared repr d = .ok d := by
  obtain ⟨raw, hraw⟩ := h.raw
  obtain ⟨dimensions, hdims, hdims'⟩ := h.dimensions
  obtain ⟨qualifiers, hquals, hquals'⟩ := h.qualifiers
  have hcheck : checkKind repr d = .ok d := by
    unfold checkKind
    rw [h.kind, hraw.field]
    simp only [Except.ok_bind, Except.raiseIf, Bool.true_eq_false, if_false, hraw.set_eq,
      Except.pure_eq_ok]
  have hperiod : setPeriod repr d = .ok d := by
    unfold setPeriod
    rcases h.period with hnone | ⟨period, hset, hsame⟩
    · rw [hnone]
    · rw [hset.get?]
      simp only [hsame, Except.ok_bind, hset.set_eq, Except.pure_eq_ok]
  have hdimensions : setDimensions repr d = .ok d := by
    unfold setDimensions
    rw [hdims.field, hdims']
    simp only [Except.ok_bind, hdims.set_eq, h.merged.record_eq (List.nil_subset _),
      Except.pure_eq_ok]
  have hqualifiers : setQualifiers d = .ok d := by
    unfold setQualifiers
    rw [hquals.field, hquals']
    simp only [Except.ok_bind, hquals.set_eq, Except.pure_eq_ok]
  unfold Normalize.normalizeShared
  simp only [hcheck, hperiod, hdimensions, hqualifiers, Except.ok_bind]

/-- Writing another key keeps what the shared normalizer has done. -/
theorem SharedDone.set {d v : Doc} {key : String} (h : SharedDone repr d) (hkey : key ∉ ownKeys) :
    SharedDone repr (Doc.set key v d) := by
  have hne : ∀ own ∈ ownKeys, own ≠ key := fun own hown heq => hkey (heq ▸ hown)
  refine ⟨?_, ?_, ?_, ?_, ?_, h.merged.set (hne _ (by simp [ownKeys])).symm⟩
  · rw [Doc.agree_set.field (by simpa using hne "kind" (by simp [ownKeys]))]
    exact h.kind
  · obtain ⟨raw, hraw⟩ := h.raw
    exact ⟨raw, hraw.set_of_ne (hne _ (by simp [ownKeys]))⟩
  · rw [Doc.get?_set_of_ne (hne "period" (by simp [ownKeys])).symm]
    exact h.period.imp_right fun ⟨period, hset, hsame⟩ =>
      ⟨period, hset.set_of_ne (hne _ (by simp [ownKeys])), hsame⟩
  · obtain ⟨dimensions, hset, hsame⟩ := h.dimensions
    exact ⟨dimensions, hset.set_of_ne (hne _ (by simp [ownKeys])), hsame⟩
  · obtain ⟨qualifiers, hset, hsame⟩ := h.qualifiers
    exact ⟨qualifiers, hset.set_of_ne (hne _ (by simp [ownKeys])), hsame⟩

/-- Recording blockers keeps what the shared normalizer has done. -/
theorem SharedDone.record {d : Doc} (h : SharedDone repr d) (blockers : List String) :
    SharedDone repr (recordBlockers repr d blockers) := by
  have hobj : d.isObj = true := by
    obtain ⟨raw, hraw⟩ := h.raw
    exact hraw.isObj
  have hagree : Doc.Agree [normalizerBlockersKey] d (recordBlockers repr d blockers) :=
    agree_recordBlockers blockers
  refine ⟨?_, ?_, ?_, ?_, ?_, (merged_record hobj blockers).1⟩
  · rw [hagree.field (by simp [normalizerBlockersKey])]
    exact h.kind
  · obtain ⟨raw, hraw⟩ := h.raw
    exact ⟨raw, settled_recordBlockers hraw (by simp [normalizerBlockersKey]) _⟩
  · rw [hagree "period" (by simp [normalizerBlockersKey])]
    exact h.period.imp_right (Exists.imp fun period =>
      And.imp_left fun hset => settled_recordBlockers hset (by simp [normalizerBlockersKey]) _)
  · obtain ⟨dimensions, hset, hsame⟩ := h.dimensions
    exact ⟨dimensions, settled_recordBlockers hset (by simp [normalizerBlockersKey]) _, hsame⟩
  · obtain ⟨qualifiers, hset, hsame⟩ := h.qualifiers
    exact ⟨qualifiers, settled_recordBlockers hset (by simp [normalizerBlockersKey]) _, hsame⟩

/-- **The shared part is done** once it has run. -/
theorem sharedDone_of_ok {d out : Doc} (hobj : d.isObj = true)
    (h : normalizeShared repr d = .ok out) : SharedDone repr out := by
  obtain ⟨d₁, d₂, d₃, h₁, h₂, h₃, h₄⟩ := normalizeShared_eq_ok h
  obtain ⟨hkind, raw, hraw, rfl⟩ := checkKind_eq_ok h₁
  obtain ⟨dimensions, blockers, hdims, rfl⟩ := setDimensions_eq_ok h₃
  obtain ⟨qualifiers, hquals, rfl⟩ := setQualifiers_eq_ok h₄
  have o₁ : (Doc.set "raw_value" (.str raw) d).isObj = true := Doc.isObj_set hobj
  have hraw₁ : Doc.Settled "raw_value" (.str raw) (Doc.set "raw_value" (.str raw) d) :=
    Doc.settled_set hobj
  -- the document with its period
  obtain ⟨o₂, hraw₂, hkind₂, hperiod₂⟩ : d₂.isObj = true ∧ Doc.Settled "raw_value" (.str raw) d₂
      ∧ d₂.field "kind" = d.field "kind"
      ∧ (d₂.get? "period" = none ∨ ∃ period, Doc.Settled "period" period d₂
        ∧ normalizePeriod repr period = .ok period) := by
    rcases setPeriod_eq_ok h₂ with ⟨hnone, rfl⟩ | ⟨_, period, -, hperiod, rfl⟩
    · exact ⟨o₁, hraw₁, Doc.agree_set.field (by simp), Or.inl hnone⟩
    · exact ⟨Doc.isObj_set o₁, hraw₁.set_of_ne (by simp),
        (Doc.agree_set.trans Doc.agree_set).field (by simp),
        Or.inr ⟨period, Doc.settled_set o₁, normalizePeriod_again hperiod⟩⟩
  have o₃ : (Doc.set "dimensions" dimensions d₂).isObj = true := Doc.isObj_set o₂
  have hne : ∀ {key : String}, key ∈ ["kind", "raw_value", "period", "dimensions"] →
      key ≠ normalizerBlockersKey := by
    rintro key hkey rfl
    simp [normalizerBlockersKey] at hkey
  have hagree : Doc.Agree (["dimensions"] ++ [normalizerBlockersKey] ++ ["qualifiers"]) d₂
      (Doc.set "qualifiers" qualifiers
      (recordBlockers repr (Doc.set "dimensions" dimensions d₂) blockers)) :=
    (Doc.agree_set.trans (agree_recordBlockers blockers)).trans Doc.agree_set
  have hkeep : ∀ {key : String} {v : Doc}, key ∈ ["raw_value", "period", "dimensions"] →
      Doc.Settled key v (Doc.set "dimensions" dimensions d₂) →
      Doc.Settled key v (Doc.set "qualifiers" qualifiers
        (recordBlockers repr (Doc.set "dimensions" dimensions d₂) blockers)) := by
    intro key v hkey hset
    refine (settled_recordBlockers hset (hne (List.mem_cons_of_mem _ hkey)) _).set_of_ne ?_
    rintro rfl
    simp at hkey
  refine ⟨?_, ⟨raw, hkeep (by simp) (hraw₂.set_of_ne (by simp))⟩, ?_, ?_, ?_, ?_⟩
  · rw [hagree.field (by simp [normalizerBlockersKey]), hkind₂]
    exact hkind
  · rw [hagree "period" (by simp [normalizerBlockersKey])]
    exact hperiod₂.imp_right (Exists.imp fun period =>
      And.imp_left fun hset => hkeep (by simp) (hset.set_of_ne (by simp)))
  · exact ⟨dimensions, hkeep (by simp) (Doc.settled_set o₂), normalizeDimensions_again hdims⟩
  · exact ⟨qualifiers, Doc.settled_set (isObj_recordBlockers blockers o₃),
      normalizeQualifiers_again hquals⟩
  · exact (merged_record o₃ blockers).1.set (by simp [normalizerBlockersKey])

end Texts

/-! ## Figures that are read again -/

/-- A number that rounding does not turn from a negative one into zero. -/
def Kept (d : Decimal) : Prop := d.value < 0 → ambient.Result d ∨ d.value ≤ -1

/-- A kept negative number stays negative when it is rounded. -/
theorem Kept.neg {d : Decimal} (h : Kept d) (hneg : d.value < 0) {w : ℚ}
    (hw : ambient.roundValue d.value = some w) : w < 0 := by
  rcases h hneg with hres | hle
  · rw [hres.roundValue] at hw
    rwa [← Option.some.inj hw]
  · have hone : ambient.roundValue (-1) = some (-1) := by
      have hres : ambient.Result ⟨true, 1, 0⟩ := ⟨by decide, by decide, by
        have hone : (1 : ℚ) < 10 ^ (ambient.emax + 1) := one_lt_zpow₀ (by norm_num) (by decide)
        rw [Decimal.abs_value_eq_coeff]
        simpa using hone⟩
      have hround := hres.roundValue
      rwa [show (⟨true, 1, 0⟩ : Decimal).value = -1 by simp [Decimal.value]] at hround
    have := Context.roundValue_mono rfl hle hw hone
    linarith

section Again

variable {isWord : Char → Bool} {hint : Option ℤ} {source : Doc} {f : Decimal} {s common : ℤ}

/-- A negative number was negated by the arithmetic, or is an integer. -/
theorem kept_of_readSource {key : String} (h : readSource isWord hint key source = .ok (f, s)) :
    Kept f := by
  intro hneg
  unfold readSource at h
  split at h
  next => cases h
  next text =>
      unfold readText at h
      split at h
      next value scale sign hparse =>
          cases h
          obtain ⟨-, m, -, hm, -⟩ := parseNumeric_eq_ok.mp hparse
          by_cases hsign : m.negated = true ∨ m.sign = some '+'
          · exact Or.inl (result_of_parse hparse hm hsign)
          · obtain ⟨-, -, -, hnonneg, hvalue⟩ := value_of_parse hparse hm
            rw [not_or] at hsign
            rw [signedValue, if_neg hsign.1, if_neg hsign.2] at hvalue
            rw [← Option.some.inj hvalue] at hneg
            exact absurd hneg (not_lt.mpr hnonneg)
      next => cases h
  next =>
      split at h
      next i _ =>
          cases h
          rw [value_ofInt] at hneg ⊢
          refine Or.inr ?_
          have : i ≤ -1 := by
            have : i < 0 := by exact_mod_cast hneg
            omega
          exact_mod_cast this
      next => cases h

/-- Restating keeps a kept number kept. -/
theorem Kept.restate {r : Decimal} (hf : Kept f) (h : restate common (f, s) = .ok r) : Kept r := by
  unfold Normalize.restate at h
  simp only at h
  split_ifs at h with hs
  · exact fun _ => Or.inl (Context.result_of_finalize ambient_range (raised_eq_ok.mp h))
  · rwa [← Except.ok.inj h]

/-- A number is written as zero without a hyphen. -/
theorem normalized_zero {o z : Decimal} (hkept : Kept o) (h : normalized o = .ok z)
    (hz : z.coeff = 0) : z.neg = false := by
  obtain ⟨-, hround, -⟩ := normalized_spec h
  unfold normalized at h
  split_ifs at h with hc
  · have hnonneg : o.neg = false := by
      by_contra hneg
      rw [Bool.not_eq_false] at hneg
      have := hkept.neg ((Decimal.Context.value_neg_iff hc).mpr hneg) hround
      rw [(Decimal.value_eq_zero_iff z).mpr hz] at this
      exact lt_irrefl _ this
    have hnormalize := raised_eq_ok.mp h
    unfold Context.normalize at hnormalize
    obtain ⟨p, hp, hnormalize⟩ := Except.bind_eq_ok_iff.mp hnormalize
    have hpneg : p.neg = o.neg := by
      unfold Context.plus Context.finalize at hp
      simp only [if_neg hc] at hp
      split_ifs at hp
      rw [← Except.ok.inj hp]
    split_ifs at hnormalize
    · rw [← Except.ok.inj hnormalize, hpneg, hnonneg]
    · rw [← Except.ok.inj hnormalize, hpneg, hnonneg]
  · rw [← Except.ok.inj h]
    rfl

/-- **A figure that was written** is read again as the rounded number, and written as before. -/
theorem reread (isWord : Char → Bool) {o : Decimal} {text : List Char} (hkept : Kept o)
    (h : formatDecimal o = .ok text) :
    ∃ v : Decimal, parseNumeric isWord text = .ok (v, 0, signWord v) ∧
    ambient.roundValue o.value = some v.value
      ∧ formatDecimal v = .ok text := by
  obtain ⟨z, hz, rfl⟩ := formatDecimal_eq_ok h
  obtain ⟨hnormal, hround, hres⟩ := normalized_spec hz
  have hexact := exact_value hres
  have hexp : -1000030 ≤ z.exp := by
    by_cases hc : z.coeff = 0
    · rw [hnormal.1 hc]
      norm_num
    · exact le_trans (by decide) (hres hc).etiny_le
  have habs : |z.value| < (10 : ℚ) ^ (1000000 : ℤ) := by
    by_cases hc : z.coeff = 0
    · rw [(Decimal.value_eq_zero_iff z).mpr hc, abs_zero]
      exact zpow_pos (by norm_num) _
    · exact (hres hc).abs_lt
  obtain ⟨v, hparse, hv⟩ := parseNumeric_fixedText isWord (fun _ => hexact) hexp habs
  exact ⟨v, hparse, by rw [hround, hv],
    formatDecimal_of_value_eq hnormal hexact (normalized_zero hkept hz) hv⟩

/-- **Written numbers are read back** as numbers that are written alike. -/
theorem exists_reread (isWord : Char → Bool) {os : List Decimal} {texts : List (List Char)}
    (hkept : ∀ o ∈ os, Kept o)
    (h : List.Forall₂ (fun o text => formatDecimal o = .ok text) os texts) :
    ∃ vs : List Decimal,
    List.Forall₂ (fun text v => parseNumeric isWord text = .ok (v, 0, signWord v)) texts vs
      ∧ List.Forall₂ (fun o v => ambient.roundValue o.value = some v.value) os vs
      ∧ List.Forall₂ (fun v text => formatDecimal v = .ok text) vs texts := by
  induction h with
  | nil => exact ⟨[], .nil, .nil, .nil⟩
  | cons hot hrest ih =>
      obtain ⟨v, hparse, hround, hformat⟩ := reread isWord (hkept _ List.mem_cons_self) hot
      obtain ⟨vs, h₁, h₂, h₃⟩ := ih fun o ho => hkept o (List.mem_cons_of_mem _ ho)
      exact ⟨v :: vs, .cons hparse h₁, .cons hround h₂, .cons hformat h₃⟩

theorem zero_value : (Decimal.ofNat 0).value = 0 := (Decimal.value_eq_zero_iff _).mpr rfl

/-- **Bounds in order stay**, also when they are rounded. -/
theorem orderBounds_again {keys : List String} {restated vs : List Decimal}
    (h : List.Forall₂ (fun o v => ambient.roundValue o.value = some v.value)
      (orderBounds keys restated) vs) :
    orderBounds keys vs = vs := by
  have hpair : ∀ {a b : Decimal},
      List.Forall₂ (fun o v => ambient.roundValue o.value = some v.value) [a, b] vs →
      ¬ (b.value < a.value ∧ a.value < 0) → orderBounds keys vs = vs := by
    intro a b hab hnot
    obtain ⟨v, _, hv, hvs, rfl⟩ := List.forall₂_cons_left_iff.mp hab
    obtain ⟨v', _, hv', hvs', rfl⟩ := List.forall₂_cons_left_iff.mp hvs
    obtain rfl := List.forall₂_nil_left_iff.mp hvs'
    unfold orderBounds
    simp only [lt_iff, zero_value]
    rw [if_neg]
    rintro ⟨-, hlt, hneg⟩
    -- rounding keeps the order and the sign
    rcases le_or_gt a.value b.value with hle | hgt
    · have := Context.roundValue_mono rfl hle hv hv'
      linarith
    · have hnonneg : 0 ≤ a.value := not_lt.mp fun hneg' => hnot ⟨hgt, hneg'⟩
      have := Context.roundValue_of_nonneg hnonneg hv
      linarith
  cases restated with
  | nil =>
      obtain rfl := List.forall₂_nil_left_iff.mp h
      rfl
  | cons low rest =>
      cases rest with
      | nil =>
          obtain ⟨v, _, hv, hvs, rfl⟩ := List.forall₂_cons_left_iff.mp h
          obtain rfl := List.forall₂_nil_left_iff.mp hvs
          rfl
      | cons high rest =>
          cases rest with
          | nil =>
              unfold orderBounds at h
              simp only [lt_iff, zero_value] at h
              -- the bounds were swapped, or there was no need
              split_ifs at h with hswap
              · exact hpair h fun hno => by linarith [hno.1, hswap.2.1]
              · by_cases hkeys : keys = ["low", "high"]
                · exact hpair h fun hyes => hswap ⟨hkeys, hyes⟩
                · obtain ⟨v, _, hv, hvs, rfl⟩ := List.forall₂_cons_left_iff.mp h
                  obtain ⟨v', _, hv', hvs', rfl⟩ := List.forall₂_cons_left_iff.mp hvs
                  obtain rfl := List.forall₂_nil_left_iff.mp hvs'
                  unfold orderBounds
                  simp only [hkeys, false_and, if_false]
          | cons other rest =>
              obtain ⟨v, _, hv, hvs, rfl⟩ := List.forall₂_cons_left_iff.mp h
              obtain ⟨v', _, hv', hvs', rfl⟩ := List.forall₂_cons_left_iff.mp hvs
              obtain ⟨v'', _, hv'', hvs'', rfl⟩ := List.forall₂_cons_left_iff.mp hvs'
              rfl

/-- The ordered bounds are the bounds. -/
theorem mem_orderBounds {keys : List String} {restated : List Decimal} {o : Decimal}
    (h : o ∈ orderBounds keys restated) :
    o ∈ restated := by
  unfold orderBounds at h
  split at h
  · split_ifs at h
    · simp only [List.mem_cons, List.not_mem_nil, or_false] at h ⊢
      exact h.symm
    · exact h
  · exact h

/-- The word for the sign is that of the value. -/
theorem signWord_eq (d : Decimal) :
    signWord d = if d.value = 0 then .zero else if d.value < 0 then .negative else .positive := by
  unfold signWord
  by_cases hc : d.coeff = 0
  · rw [if_pos hc, if_pos ((Decimal.value_eq_zero_iff d).mpr hc)]
  · rw [if_neg hc, if_neg fun h => hc ((Decimal.value_eq_zero_iff d).mp h)]
    simp only [Decimal.Context.value_neg_iff hc]

/-- **The sign of a rounded number** is another one when a positive number becomes zero. -/
theorem signName_rounded_iff {o v : Decimal} (hkept : Kept o)
    (h : ambient.roundValue o.value = some v.value) :
    signName (signWord v) = signName (signWord o) ↔ ¬ (0 < o.value ∧ v.value = 0) := by
  have hinj : ∀ a b : SignWord, signName a = signName b ↔ a = b := by
    intro a b
    cases a <;> cases b <;> decide
  rw [hinj, signWord_eq, signWord_eq]
  rcases lt_trichotomy o.value 0 with hneg | hzero | hpos
  · have hv := hkept.neg hneg h
    simp [hneg, hneg.ne, hv, hv.ne]
  · rw [hzero, Context.roundValue_zero] at h
    simp [hzero, ← Option.some.inj h]
  · have hv := Context.roundValue_of_nonneg hpos.le h
    by_cases hv0 : v.value = 0
    · simp [hv0, hpos, hpos.ne', not_lt.mpr hpos.le]
    · simp [hv0, hpos, hpos.ne', not_lt.mpr hpos.le, not_lt.mpr hv]

end Again

end Normalize

end Extraction
