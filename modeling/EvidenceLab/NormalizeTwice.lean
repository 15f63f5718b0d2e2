/-
# Normalizing twice

A second pass of `normalize_payload` over its own result always succeeds, and reads, restates and
writes what the first one wrote.  The sign alone can differ: it is taken from the number before it
is rounded, so that a positive number that rounds to zero is written as a zero with a positive sign,
which the second pass corrects and reports.

`normalize_twice_iff` says for which payloads the second pass changes nothing.
-/
import EvidenceLab.Renormalize

namespace Extraction

namespace Normalize

open Decimal (Context)
open Numeric

/-! ## The fields of a numeric result -/

section Result

variable {repr : Doc → String} {isWord : Char → Bool} {keys : List String} {d : Doc}

/-- A unit that is accepted is stripped and not empty. -/
theorem requiredUnit_eq_ok {unit : String} (h : requiredUnit d = .ok unit) :
    stripped unit = unit ∧ unit ≠ "" := by
  unfold requiredUnit at h
  split at h
  · split_ifs at h with hnil
    rw [← Except.ok.inj h]
    exact ⟨stripped_stripped _, hnil⟩
  · cases h

/-- An accepted unit is accepted again. -/
theorem requiredUnit_of_settled {unit : String} (h : Doc.Settled "unit" (.str unit) d)
    (hunit : stripped unit = unit ∧ unit ≠ "") :
    requiredUnit d = .ok unit := by
  unfold requiredUnit
  rw [h.field]
  simp only [hunit.1, if_neg hunit.2]

/-- A code is in capitals already. -/
theorem toUpper_of_isIso4217 {s : String} (h : isIso4217 s = true) :
    String.ofList (s.toList.map Char.toUpper) = s := by
  unfold isIso4217 at h
  rw [Bool.and_eq_true] at h
  have hself : s.toList.map Char.toUpper = s.toList := by
    conv_rhs => rw [← List.map_id s.toList]
    apply List.map_congr_left
    intro c hc
    have hupper := List.all_eq_true.mp h.2 c hc
    rw [Bool.and_eq_true, decide_eq_true_eq, decide_eq_true_eq] at hupper
    have hnot : ¬ c.isLower = true := by
      intro hlower
      have h₁ : c.val ≤ 90 := hupper.2
      have h₂ : 97 ≤ c.val := (by simpa [Char.isLower] using hlower : 97 ≤ c.val ∧ c.val ≤ 122).1
      rw [UInt32.le_iff_toNat_le] at h₁ h₂
      have h₃ : (90 : UInt32).toNat = 90 := rfl
      have h₄ : (97 : UInt32).toNat = 97 := rfl
      omega
    exact Char.toUpper_eq_of_not_isLower hnot
  rw [hself, String.ofList_toList]

/-- A currency that is kept is the one of the payload. -/
theorem normalizeCurrency_code {currency : Doc} {unit code : String} {blockers : List String}
    (h : normalizeCurrency repr currency unit = .ok (some code, blockers)) :
    currency = .str code := by
  unfold normalizeCurrency at h
  split at h
  · cases h
  next s =>
      split_ifs at h with hiso
      rw [toUpper_of_isIso4217 hiso] at h
      cases h
      rfl
  · cases h

/-- The unit and the currency are settled. -/
theorem settled_withUnit (hobj : d.isObj = true) (unit : String) (currency : Option String) :
    Doc.Settled "unit" (.str unit) (withUnit unit currency d)
      ∧ ∀ code, currency = some code →
      Doc.Settled "currency" (.str code) (withUnit unit currency d) := by
  cases currency with
  | none => exact ⟨Doc.settled_set hobj, fun code h => nomatch h⟩
  | some code =>
      refine ⟨(Doc.settled_set hobj).set_of_ne (by simp), ?_⟩
      rintro _ ⟨⟩
      exact Doc.settled_set (Doc.isObj_set hobj)

/-- Writing a settled unit changes nothing. -/
theorem withUnit_of_settled {unit : String} {currency : Option String}
    (hunit : Doc.Settled "unit" (.str unit) d)
    (hcurrency : ∀ code, currency = some code → Doc.Settled "currency" (.str code) d) :
    withUnit unit currency d = d := by
  cases currency with
  | none => exact hunit.set_eq
  | some code =>
      show Doc.set "currency" (.str code) (Doc.set "unit" (.str unit) d) = d
      rw [hunit.set_eq, (hcurrency code rfl).set_eq]

/-- Writing settled fields changes nothing. -/
theorem setFields_of_settled {entries : List (String × Doc)}
    (h : ∀ e ∈ entries, Doc.Settled e.1 e.2 d) : setFields d entries = d := by
  unfold setFields
  induction entries with
  | nil => rfl
  | cons e entries ih =>
      rw [List.foldl_cons, (h e List.mem_cons_self).set_eq]
      exact ih fun e' he' => h e' (List.mem_cons_of_mem e he')

/-- The stamp writes two keys. -/
theorem agree_stamp (kind out : Doc) :
    Doc.Agree ["reported_or_derived", "_normalizer_version"] out (stamp kind out) := by
  unfold stamp
  split
  · exact Doc.agree_set.mono (by simp)
  · exact (Doc.agree_set.trans Doc.agree_set).mono (by simp)

namespace NumericRun

variable (r : NumericRun repr isWord keys d)

/-- What the document holds under a key that the numeric part does not write. -/
theorem agree_result :
    Doc.Agree (["unit", "currency"] ++ (keys ++ ["scale"]) ++ ["sign"] ++ [normalizerBlockersKey]) d
    r.result :=
  (((agree_withUnit r.unit r.currency.1).trans
    (agree_withFigures keys r.texts r.blockers (commonScale r.mantissas))).trans
    Doc.agree_set).trans (agree_recordBlockers _)

theorem isObj_withFigures (hobj : d.isObj = true) (texts : List (List Char))
    (blockers : List String) (common : ℤ) :
    (withFigures keys texts blockers common d).isObj = true := by
  unfold withFigures
  simp only
  split_ifs
  · exact Doc.isObj_set (isObj_setFields hobj _)
  · exact isObj_setFields hobj _

theorem isObj_figures (hobj : d.isObj = true) : r.figures.isObj = true :=
  isObj_withFigures (isObj_withUnit hobj _ _) _ _ _

/-- The derived sign stands in the result. -/
theorem settled_sign (hobj : d.isObj = true) :
    Doc.Settled "sign" (.str (derivedSign r.ordered)) r.result :=
  settled_recordBlockers (Doc.settled_set (r.isObj_figures hobj))
    (by simp [normalizerBlockersKey]) _

/-- A field that the figures leave alone. -/
theorem settled_of_withUnit (hkeys : NumericKeys keys) {key : String} {v : Doc}
    (h : Doc.Settled key v (withUnit r.unit r.currency.1 d))
    (hkey : key ∉ ["value", "low", "high", "scale", "sign", normalizerBlockersKey]) :
    Doc.Settled key v r.result := by
  simp only [List.mem_cons, List.not_mem_nil, or_false, not_or] at hkey
  obtain ⟨h₁, h₂, h₃, h₄, h₅, h₆⟩ := hkey
  refine r.settled_result ?_ ⟨h₅, h₆⟩
  have hnot :
      key ∉ (keys.zip (r.texts.map fun text => Doc.str (String.ofList text))).map Prod.fst := by
    intro hmem
    obtain ⟨e, he, rfl⟩ := List.mem_map.mp hmem
    have := hkeys.subset (List.of_mem_zip he).1
    simp [h₁, h₂, h₃] at this
  unfold figures withFigures
  simp only
  split_ifs
  · exact (settled_setFields_of_not_mem h hnot).set_of_ne h₄
  · exact settled_setFields_of_not_mem h hnot

/-- The unit of a result is settled. -/
theorem settled_unit (hkeys : NumericKeys keys) (hobj : d.isObj = true) :
    Doc.Settled "unit" (.str r.unit) r.result :=
  r.settled_of_withUnit hkeys (settled_withUnit hobj _ _).1 (by simp [normalizerBlockersKey])

/-- The currency of a result is settled. -/
theorem settled_currency (hkeys : NumericKeys keys) (hobj : d.isObj = true) {code : String}
    (h : r.currency.1 = some code) :
    Doc.Settled "currency" (.str code) r.result :=
  r.settled_of_withUnit hkeys ((settled_withUnit hobj _ _).2 code h)
    (by simp [normalizerBlockersKey])

/-- The currency of the result is that of the document. -/
theorem field_currency (hkeys : NumericKeys keys) (hobj : d.isObj = true) :
    r.result.field "currency" = d.field "currency" := by
  cases hc : r.currency.1 with
  | some code =>
      rw [(r.settled_currency hkeys hobj hc).field]
      have hcurrency := r.currency_eq
      rw [show r.currency = (some code, r.currency.2) by rw [← hc]] at hcurrency
      exact (normalizeCurrency_code hcurrency).symm
  | none =>
      have hagree :
          Doc.Agree (["unit"] ++ (keys ++ ["scale"]) ++ ["sign"] ++ [normalizerBlockersKey])
            d r.result := by
        have hunit : Doc.Agree ["unit"] d (withUnit r.unit r.currency.1 d) := by
          rw [hc]
          exact Doc.agree_set
        exact ((hunit.trans
          (agree_withFigures keys r.texts r.blockers (commonScale r.mantissas))).trans
          Doc.agree_set).trans (agree_recordBlockers _)
      apply hagree.field
      simp [normalizerBlockersKey, hkeys.not_mem]

/-- A refused scale stays where it is. -/
theorem field_scale_of_refused (hkeys : NumericKeys keys) (h : r.blockers ≠ []) :
    r.result.field "scale" = d.field "scale" := by
  have hfigures : Doc.Agree keys (withUnit r.unit r.currency.1 d) r.figures := by
    unfold figures withFigures
    simp only
    rw [if_neg h]
    refine (agree_setFields _).mono fun key hkey => ?_
    obtain ⟨e, he, rfl⟩ := List.mem_map.mp hkey
    exact (List.of_mem_zip he).1
  have hagree :
      Doc.Agree (["unit", "currency"] ++ keys ++ ["sign"] ++ [normalizerBlockersKey]) d r.result :=
    (((agree_withUnit r.unit r.currency.1).trans hfigures).trans Doc.agree_set).trans
    (agree_recordBlockers _)
  apply hagree.field
  simp [normalizerBlockersKey, hkeys.not_mem]

/-- The blockers of the pass are recorded. -/
theorem recorded (hobj : d.isObj = true) : Merged repr r.result
    ∧ r.blockers ++ r.signs ++ r.currency.2 ⊆ carried repr r.result := by
  have hsigned : (Doc.set "sign" (.str (derivedSign r.ordered)) r.figures).isObj = true :=
    Doc.isObj_set (r.isObj_figures hobj)
  have hmerged := @merged_record repr _ hsigned (r.blockers ++ r.signs ++ r.currency.2)
  exact ⟨hmerged.1, hmerged.2.1⟩

/-- Every number that is written is one that rounding keeps below zero. -/
theorem kept_ordered : ∀ o ∈ r.ordered, Kept o := by
  intro o ho
  obtain ⟨⟨f, s⟩, hm, hrestate⟩ :=
    mem_of_forall₂_left (Except.mapM_eq_ok_iff.mp r.restated_eq) (mem_orderBounds ho)
  obtain ⟨key, -, hread⟩ := mem_of_forall₂_left (Except.mapM_eq_ok_iff.mp r.mantissas_eq) hm
  exact (kept_of_readSource hread).restate hrestate

end NumericRun

/-! ## The second run -/

/-- What a second run finds. -/
structure Passed {keys : List String} {d : Doc} (r : NumericRun repr isWord keys d) (e : Doc) :
    Prop where
  unit : Doc.Settled "unit" (.str r.unit) e
  currency : e.field "currency" = d.field "currency"
  code : ∀ code, r.currency.1 = some code → Doc.Settled "currency" (.str code) e
  figures : ∀ key text, (key, text) ∈ keys.zip r.texts →
    Doc.Settled key (.str (String.ofList text)) e
  scale : r.blockers = [] → Doc.Settled "scale" (.num (toString (commonScale r.mantissas))) e
  refused : r.blockers ≠ [] → e.field "scale" = d.field "scale"
  sign : Doc.Settled "sign" (.str (derivedSign r.ordered)) e
  merged : Merged repr e
  recorded : r.blockers ++ r.signs ++ r.currency.2 ⊆ carried repr e

/-- The stamp keeps the blockers. -/
theorem merged_stamp {e : Doc} (h : Merged repr e) (kind : Doc) : Merged repr (stamp kind e)
    ∧ carried repr (stamp kind e) = carried repr e := by
  unfold stamp
  split
  · exact ⟨h.set (by simp [normalizerBlockersKey]), carried_set (by simp [normalizerBlockersKey])⟩
  · refine ⟨(h.set (by simp [normalizerBlockersKey])).set (by simp [normalizerBlockersKey]), ?_⟩
    rw [carried_set (by simp [normalizerBlockersKey]),
      carried_set (by simp [normalizerBlockersKey])]

/-- The result of a run, stamped. -/
theorem passed_stamp (r : NumericRun repr isWord keys d) (hkeys : NumericKeys keys)
    (hobj : d.isObj = true) (kind : Doc) :
    Passed r (stamp kind r.result) := by
  have hne : ∀ {key : String}, key ∉ ["reported_or_derived", "_normalizer_version"] →
      key ≠ "reported_or_derived" ∧ key ≠ "_normalizer_version" := by
    intro key hkey
    simpa using hkey
  obtain ⟨hmerged, hrecorded⟩ := r.recorded hobj
  obtain ⟨hmerged', hcarried⟩ := merged_stamp hmerged kind
  refine ⟨settled_stamp (r.settled_unit hkeys hobj) (by simp) kind, ?_, ?_, ?_, ?_, ?_,
    ?_, hmerged', ?_⟩
  · rw [(agree_stamp kind r.result).field (by simp)]
    exact r.field_currency hkeys hobj
  · exact fun code hcode => settled_stamp (r.settled_currency hkeys hobj hcode) (by simp) kind
  · intro key text hmem
    refine settled_stamp (r.settled_figure hkeys hobj hmem) (hne ?_) kind
    intro hstamp
    have hfigure := hkeys.subset (List.of_mem_zip hmem).1
    simp only [List.mem_cons, List.not_mem_nil, or_false] at hfigure hstamp
    rcases hfigure with rfl | rfl | rfl <;> simp at hstamp
  · exact fun hblockers => settled_stamp (r.settled_scale hobj hblockers) (by simp) kind
  · intro hblockers
    rw [(agree_stamp kind r.result).field (by simp)]
    exact r.field_scale_of_refused hkeys hblockers
  · exact settled_stamp (r.settled_sign hobj) (by simp) kind
  · rw [hcarried]
    exact hrecorded

/-- Figures of one scale have it in common. -/
theorem commonScale_const {vs : List Decimal} (h : vs ≠ []) (c : ℤ) :
    commonScale (vs.map fun v => (v, c)) = c := by
  have hne : vs.map (fun v => (v, c)) ≠ [] := by simpa using h
  obtain ⟨⟨m, hm, heq⟩, -⟩ := commonScale_spec hne
  obtain ⟨v, -, rfl⟩ := List.mem_map.mp hm
  exact heq.symm

/-- A relation of the texts to the numbers that they are read as, carried to the keys. -/
theorem forall₂_of_zip {keys : List String} {texts : List (List Char)} {vs : List Decimal}
    {S : List Char → Decimal → Prop}
    {T : String → Decimal → Prop} (hlen : texts.length = keys.length) (h : List.Forall₂ S texts vs)
    (hzip : ∀ key text, (key, text) ∈ keys.zip texts → ∀ v, S text v → T key v) :
    List.Forall₂ T keys vs := by
  induction h generalizing keys with
  | nil =>
      rw [List.length_nil, eq_comm, List.length_eq_zero_iff] at hlen
      rw [hlen]
      exact .nil
  | cons hS hrest ih =>
      cases keys with
      | nil => cases hlen
      | cons key keys =>
          refine .cons (hzip key _ (by simp) _ hS) (ih (by simpa using hlen) ?_)
          exact fun key' text hmem => hzip key' text (by simp [hmem])

/-- **The second run** succeeds: it reads the rounded numbers, and changes nothing but, perhaps, the
sign. -/
theorem Passed.again {r : NumericRun repr isWord keys d} {e : Doc} (h : Passed r e)
    (hkeys : NumericKeys keys)
    (hrange : r.blockers = [] → 0 ≤ commonScale r.mantissas ∧ commonScale r.mantissas ≤ 12) :
    ∃ r' : NumericRun repr isWord keys e,
      List.Forall₂ (fun o v => ambient.roundValue o.value = some v.value) r.ordered r'.ordered
        ∧ (derivedSign r'.ordered = derivedSign r.ordered → r'.result = e) := by
  -- the texts that the first pass wrote are read back as the rounded figures
  obtain ⟨vs, hparse, hround, hformat⟩ :=
    exists_reread isWord r.kept_ordered (Except.mapM_eq_ok_iff.mp r.texts_eq)
  have hvs : vs ≠ [] := by
    rintro rfl
    have hlen := hparse.length_eq
    rw [r.length_texts, List.length_nil, List.length_eq_zero_iff] at hlen
    exact hkeys.ne_nil hlen
  have horder : orderBounds keys vs = vs := orderBounds_again hround
  -- a scale that settled is a number of the range; one that was refused is refused again
  have hblockers : scaleBlockers (e.field "scale") = .ok r.blockers := by
    by_cases hnil : r.blockers = []
    · obtain ⟨hlow, hhigh⟩ := hrange hnil
      obtain ⟨n, hn⟩ := Int.eq_ofNat_of_zero_le hlow
      rw [(h.scale hnil).field, hnil, hn, scaleBlockers]
      · rw [int?_toString]
        simp only
        rw [if_neg (by omega)]
      · exact fun hnull => nomatch hnull
    · rw [h.refused hnil]
      exact r.blockers_eq
  set hint := scaleHint (e.field "scale") r.blockers with hhint
  -- each figure is now a text, read with the hint alone
  have hread : keys.mapM (readField isWord e (keys.length = 1) hint)
      = .ok (vs.map fun v => (v, hint.getD 0)) := by
    rw [Except.mapM_eq_ok_iff, List.forall₂_map_right_iff]
    refine forall₂_of_zip r.length_texts hparse ?_
    intro key text hmem v hv
    unfold readField fieldSource
    rw [(h.figures key text hmem).field]
    simp only [readSource, readText, String.toList_ofList, hv]
    rfl
  have hcommon := commonScale_const hvs (hint.getD 0)
  -- all have that scale, so the second pass shifts none
  have hrestated :
      (vs.map fun v => (v, hint.getD 0)).mapM
      (restate (commonScale (vs.map fun v => (v, hint.getD 0)))) = .ok vs := by
    rw [hcommon, Except.mapM_eq_ok_iff, List.forall₂_map_left_iff, List.forall₂_same]
    intro v _
    rw [restate, if_neg (by simp)]
  -- the recorded sign is a known one, and a blocker needs another sign
  have hsigns :
      ∃ signs, signBlockers repr (e.field "sign") (derivedSign (orderBounds keys vs)) = .ok signs
      ∧ (derivedSign (orderBounds keys vs) = derivedSign r.ordered → signs = []) := by
    have hknown : ∀ o : List Decimal, oneOf (.str (derivedSign o)) ["positive", "negative", "zero"]
        = .ok true := by
      intro o
      unfold derivedSign
      cases signWord (o.headD (Decimal.ofNat 0)) <;> rfl
    rw [h.sign.field]
    unfold signBlockers
    rw [hknown]
    refine ⟨_, rfl, fun hsame => ?_⟩
    rw [hsame, if_neg (by simp)]
  obtain ⟨signs, hsigns, hnosigns⟩ := hsigns
  refine ⟨⟨r.unit, r.currency, r.blockers, _, vs, r.texts, signs,
    requiredUnit_of_settled h.unit (requiredUnit_eq_ok r.unit_eq),
    by rw [h.currency]; exact r.currency_eq, hblockers, hread, hrestated,
    by rw [horder]; exact Except.mapM_eq_ok_iff.mpr hformat, hsigns⟩, ?_, ?_⟩
  · show List.Forall₂ _ r.ordered (orderBounds keys vs)
    rw [horder]
    exact hround
  · intro hsame
    change derivedSign (orderBounds keys vs) = derivedSign r.ordered at hsame
    -- the second pass writes what is there
    have hwritten : withFigures keys r.texts r.blockers (hint.getD 0) e = e := by
      unfold withFigures
      have hfields :
          setFields e (keys.zip (r.texts.map fun text => Doc.str (String.ofList text))) = e := by
        apply setFields_of_settled
        intro entry hentry
        rw [List.zip_map_right] at hentry
        obtain ⟨⟨key, text⟩, hmem, rfl⟩ := List.mem_map.mp hentry
        exact h.figures key text hmem
      simp only [hfields]
      split_ifs with hnil
      · have hscale := h.scale hnil
        obtain ⟨n, hn⟩ := Int.eq_ofNat_of_zero_le (hrange hnil).1
        have hhint' : hint.getD 0 = commonScale r.mantissas := by
          rw [hhint, scaleHint, if_pos hnil, hscale.field, hn, int?_toString]
          rfl
        rw [hhint']
        exact hscale.set_eq
      · rfl
    unfold NumericRun.result NumericRun.figures NumericRun.ordered
    simp only [hcommon, withUnit_of_settled h.unit h.code, hwritten, hsame,
      h.sign.set_eq, hnosigns hsame]
    -- and adds no blocker that the record lacks
    apply h.merged.record_eq
    rw [List.append_nil]
    intro t ht
    apply h.recorded
    rw [List.mem_append] at ht ⊢
    exact ht.imp_left fun hb => List.mem_append_left _ hb

end Result

/-! ## Too small a number -/

/-- **A positive number rounds to zero** when it is at most half of the smallest one. -/
theorem roundValue_eq_zero_iff {a : ℚ} (ha : 0 < a) :
    ambient.roundValue a = some 0 ↔ a ≤ 10 ^ ambient.etiny / 2 := by
  have hmode : ambient.rounding = .halfEven := rfl
  have hprec : (ambient.prec : ℤ) = 28 := rfl
  have hplace : ambient.lastPlace a = max (Int.log 10 a - 27) ambient.etiny := by
    unfold Context.lastPlace
    rw [abs_of_pos ha, hprec]
    norm_num
  constructor
  · intro h
    obtain ⟨k, -, hnear, -⟩ := Decimal.roundValue_nearestEven hmode ha h
    rw [zero_sub, abs_neg, abs_of_pos ha] at hnear
    rcases le_or_gt (Int.log 10 a - 27) ambient.etiny with hle | hgt
    · rwa [hplace, max_eq_right hle] at hnear
    · -- the last place of a larger number is far below its first
      rw [hplace, max_eq_left hgt.le] at hnear
      have hlog : (10 : ℚ) ^ Int.log 10 a ≤ a := by
        exact_mod_cast Int.zpow_log_le_self (b := 10) (by norm_num) ha
      have hmono : (10 : ℚ) ^ (Int.log 10 a - 27) ≤ 10 ^ Int.log 10 a :=
        zpow_le_zpow_right₀ (by norm_num) (by omega)
      have hpow : (0 : ℚ) < 10 ^ Int.log 10 a := zpow_pos (by norm_num) _
      linarith
  · intro h
    have hpow : (0 : ℚ) < 10 ^ ambient.etiny := zpow_pos (by norm_num) _
    have hlog : Int.log 10 a < ambient.etiny := by
      apply (Int.lt_zpow_iff_log_lt (b := 10) (by norm_num) ha).mp
      have : a < (10 : ℚ) ^ ambient.etiny := by linarith
      exact_mod_cast this
    have hmag : ambient.roundMagnitude a = 0 := by
      have hnear : Decimal.NearestEven (10 ^ ambient.etiny) a (ambient.roundMagnitude a) := by
        unfold Context.roundMagnitude
        rw [hmode, hplace, max_eq_right (by omega), abs_of_pos ha]
        exact Decimal.roundRat_nearestEven _ hpow ha.le
      refine Decimal.NearestEven.unique hpow hnear ⟨0, by simp, ?_, fun _ => ⟨0, rfl⟩⟩
      rw [zero_sub, abs_neg, abs_of_pos ha]
      exact h
    have hmax : ¬ (10 : ℚ) ^ (ambient.emax + 1) ≤ 0 := not_le.mpr (zpow_pos (by norm_num) _)
    unfold Context.roundValue
    rw [hmag, if_neg ha.ne', if_neg hmax, if_neg (not_lt.mpr ha.le)]

/-- The number of a field that rounds to zero, and is positive before it does. -/
def Lost (d : Decimal) : Prop := 0 < d.value ∧ ambient.roundValue d.value = some 0

/-- A result of the context is not lost. -/
theorem not_lost_of_result {d : Decimal} (h : ambient.Result d) : ¬ Lost d := by
  rintro ⟨hpos, hzero⟩
  rw [h.roundValue] at hzero
  exact hpos.ne' (Option.some.inj hzero)

/-- A number that was put onto another exponent is rounded already. -/
theorem lost_restate_iff {common s : ℤ} {f r : Decimal} (h : restate common (f, s) = .ok r) :
    Lost r ↔ s = common ∧ Lost f := by
  unfold restate at h
  simp only at h
  split_ifs at h with hs
  · have hres := Context.result_of_finalize ambient_range (raised_eq_ok.mp h)
    exact ⟨fun hlost => absurd hlost (not_lost_of_result hres), fun hlost => absurd hlost.1 hs⟩
  · rw [not_not] at hs
    rw [← Except.ok.inj h]
    exact ⟨fun hlost => ⟨hs, hlost⟩, And.right⟩

/-- The first of the bounds. -/
theorem lost_orderBounds_iff {keys : List String} {d o : Decimal} {ds os : List Decimal}
    (h : orderBounds keys (d :: ds) = o :: os) : Lost o ↔ Lost d := by
  unfold orderBounds at h
  split at h
  next low high heq =>
      cases heq
      split_ifs at h with hswap
      · cases h
        simp only [lt_iff, zero_value] at hswap
        exact ⟨fun hlost => by linarith [hlost.1, hswap.2.1, hswap.2.2], fun hlost => by
          linarith [hlost.1, hswap.2.2]⟩
      · cases h
        exact Iff.rfl
  next =>
      cases h
      exact Iff.rfl

section Vanish

variable (isWord : Char → Bool)

/-- The field is a text without a sign, and its number is positive and at most half of the smallest
one that the arithmetic holds. -/
def Vanishes (source : Doc) : Prop :=
  ∃ text m, source = .str text ∧ search isWord [] (cleaned text.toList) = some m
    ∧ ¬ (m.PlainNegative ∨ m.sign = some '+') ∧ 0 < amount m.body
      ∧ amount m.body ≤ 10 ^ ambient.etiny / 2

/-- The scale that the payload declares, where it is not refused. -/
def usableScale (p : Doc) : Option ℤ :=
  match scaleBlockers (p.field "scale") with
  | .ok blockers => scaleHint (p.field "scale") blockers
  | .error _ => none

/-- The number of a field and its exponent, that of its suffix or the declared scale. -/
noncomputable def figureOn (p : Doc) (key : String) : Option (ℚ × ℤ) :=
  denoted isWord (usableScale p) (sourceOf p key)

/-- The first numeric field of the payload vanishes, and no other has a smaller exponent. -/
def FirstVanishes (p : Doc) : Prop :=
  ∃ key rest, numericKeys p = key :: rest ∧ Vanishes isWord (sourceOf p key)
    ∧ (figureOn isWord p key).map Prod.snd
      = some (commonScale ((numericKeys p).filterMap (figureOn isWord p)))

variable {isWord}

/-- The number of a field is lost if it vanishes in its rounding. -/
theorem lost_readSource_iff {hint : Option ℤ} {key : String} {source : Doc} {f : Decimal} {s : ℤ}
    (h : readSource isWord hint key source = .ok (f, s)) : Lost f ↔ Vanishes isWord source := by
  unfold readSource at h
  split at h
  next => cases h
  next text =>
      unfold readText at h
      split at h
      next value scale sign hparse =>
          cases h
          obtain ⟨-, m, -, hm, -⟩ := parseNumeric_eq_ok.mp hparse
          obtain ⟨-, -, -, hnonneg, hvalue⟩ := value_of_parse hparse hm
          have hvanishes : Vanishes isWord (.str text) ↔ ¬ (m.negated = true ∨ m.sign = some '+') ∧
              0 < amount m.body
              ∧ amount m.body ≤ 10 ^ ambient.etiny / 2 := by
            rw [negated_iff hm]
            constructor
            · rintro ⟨text', m', ⟨⟩, hm', hrest⟩
              rw [hm] at hm'
              cases hm'
              exact hrest
            · exact fun hrest => ⟨text, m, rfl, hm, hrest⟩
          rw [hvanishes]
          -- a sign that is seen rounds the figure already, so nothing is left to lose
          by_cases hsign : m.negated = true ∨ m.sign = some '+'
          · exact ⟨fun hlost => absurd hlost (not_lost_of_result (result_of_parse hparse hm hsign)),
              fun hno => absurd hsign hno.1⟩
          · have hneg := not_or.mp hsign
            rw [signedValue, if_neg hneg.1, if_neg hneg.2] at hvalue
            unfold Lost
            rw [← Option.some.inj hvalue]
            constructor
            · exact fun hlost => ⟨hsign, hlost.1, (roundValue_eq_zero_iff hlost.1).mp hlost.2⟩
            · exact fun hlost => ⟨hlost.2.1, (roundValue_eq_zero_iff hlost.2.1).mpr hlost.2.2⟩
      next => cases h
  -- an integer is at least one when it is positive, and so not rounded to zero
  next _ hstr =>
      split at h
      next i _ =>
          cases h
          constructor
          · rintro ⟨hpos, hzero⟩
            rw [value_ofInt] at hpos hzero
            have hone : (1 : ℚ) ≤ i := by
              have : 0 < i := by exact_mod_cast hpos
              exact_mod_cast this
            have hsmall := (roundValue_eq_zero_iff hpos).mp hzero
            have hpow : (10 : ℚ) ^ ambient.etiny ≤ 1 :=
              zpow_le_one_of_nonpos₀ (by norm_num) (by decide)
            linarith
          · rintro ⟨text, _, rfl, -⟩
            exact absurd rfl (hstr text)
      next => cases h

end Vanish

/-! ## The second pass -/

section Payload

variable {repr : Doc → String} {isWord : Char → Bool} {p d out : Doc}

/-- A field that the shared part does not write. -/
theorem settled_normalizeShared (h : normalizeShared repr d = .ok out) {key : String} {v : Doc}
    (hkey : key ∉ "raw_value" :: sharedKeys) (hs : Doc.Settled key v d) :
    Doc.Settled key v out := by
  simp only [sharedKeys, List.mem_cons, List.not_mem_nil, or_false, not_or] at hkey
  obtain ⟨hraw, hperiod, hdims, hblockers, hquals⟩ := hkey
  obtain ⟨d₁, d₂, d₃, h₁, h₂, h₃, h₄⟩ := normalizeShared_eq_ok h
  obtain ⟨-, raw, -, rfl⟩ := checkKind_eq_ok h₁
  have hs₁ : Doc.Settled key v (Doc.set "raw_value" (.str raw) d) := hs.set_of_ne hraw
  have hs₂ : Doc.Settled key v d₂ := by
    rcases setPeriod_eq_ok h₂ with ⟨-, rfl⟩ | ⟨_, _, -, -, rfl⟩
    · exact hs₁
    · exact hs₁.set_of_ne hperiod
  obtain ⟨_, blockers, -, rfl⟩ := setDimensions_eq_ok h₃
  obtain ⟨_, -, rfl⟩ := setQualifiers_eq_ok h₄
  exact (settled_recordBlockers (hs₂.set_of_ne hdims) hblockers _).set_of_ne hquals

/-- The stamp writes its version, and the kind of the figure where there is one. -/
theorem stamp_forms (kind : Doc) :
    (∀ x, stamp kind x = Doc.set "_normalizer_version" (.str "normalize/v2") x)
    ∨ ∀ x, stamp kind x = Doc.set "_normalizer_version" (.str "normalize/v2")
      (Doc.set "reported_or_derived" (.str "management_assertion") x) := by
  by_cases hkind : kind = .str "kpi"
  · rw [hkind]
    exact Or.inl fun _ => rfl
  · refine Or.inr fun x => ?_
    unfold stamp
    split
    · exact absurd rfl hkind
    · rfl

/-- Stamping twice is stamping once. -/
theorem stamp_stamp (hobj : d.isObj = true) (kind : Doc) :
    stamp kind (stamp kind d) = stamp kind d := by
  rcases stamp_forms kind with h | h
  · rw [h, h]
    exact (Doc.settled_set hobj).set_eq
  · have hreported :
    Doc.Settled "reported_or_derived" (.str "management_assertion") (stamp kind d) := by
      rw [h]
      exact (Doc.settled_set hobj).set_of_ne (by simp)
    have hversion : Doc.Settled "_normalizer_version" (.str "normalize/v2") (stamp kind d) := by
      rw [h]
      exact Doc.settled_set (Doc.isObj_set hobj)
    rw [h, hreported.set_eq, hversion.set_eq]

/-- The stamp keeps what the shared normalizer has done. -/
theorem SharedDone.stamp {e : Doc} (h : SharedDone repr e) (kind : Doc) :
    SharedDone repr (stamp kind e) := by
  unfold Normalize.stamp
  split
  · exact h.set (by simp [ownKeys, normalizerBlockersKey])
  · exact (h.set (by simp [ownKeys, normalizerBlockersKey])).set
      (by simp [ownKeys, normalizerBlockersKey])

/-- Writing figures keeps what the shared normalizer has done. -/
theorem SharedDone.setFields {entries : List (String × Doc)} {e : Doc} (h : SharedDone repr e)
    (hkeys : ∀ entry ∈ entries, entry.1 ∉ ownKeys) : SharedDone repr (setFields e entries) := by
  induction entries generalizing e with
  | nil => exact h
  | cons entry entries ih =>
      exact ih (h.set (hkeys entry List.mem_cons_self)) fun entry' hmem =>
        hkeys entry' (List.mem_cons_of_mem _ hmem)

/-- The numeric part keeps what the shared part has done. -/
theorem sharedDone_result {keys : List String} (hkeys : NumericKeys keys) (h : SharedDone repr d)
    (r : NumericRun repr isWord keys d) :
    SharedDone repr r.result := by
  have hunit : SharedDone repr (withUnit r.unit r.currency.1 d) := by
    cases r.currency.1 with
    | none => exact h.set (by simp [ownKeys, normalizerBlockersKey])
    | some code => exact (h.set (by simp [ownKeys, normalizerBlockersKey])).set (by simp [ownKeys,
        normalizerBlockersKey])
  have hfields : SharedDone repr (setFields (withUnit r.unit r.currency.1 d)
      (keys.zip (r.texts.map fun text => Doc.str (String.ofList text)))) := by
    apply hunit.setFields
    intro entry hentry
    have hfigure := hkeys.subset (List.of_mem_zip hentry).1
    simp only [List.mem_cons, List.not_mem_nil, or_false] at hfigure
    rcases hfigure with hk | hk | hk <;> simp [hk, ownKeys, normalizerBlockersKey]
  have hfigures : SharedDone repr r.figures := by
    unfold NumericRun.figures withFigures
    simp only
    split_ifs
    · exact hfields.set (by simp [ownKeys, normalizerBlockersKey])
    · exact hfields
  exact (hfigures.set (by simp [ownKeys, normalizerBlockersKey])).record _

/-- **The second pass over figures** succeeds; it changes nothing exactly when it derives the same
sign. -/
theorem normalizePayload_again (hobj : p.isObj = true) (hkeys : numericKeys p ≠ []) {shared : Doc}
    (hshared :
      normalizeShared repr (Doc.set "schema_version" (.str "extraction-payload/v1") p) = .ok shared)
    (r : NumericRun repr isWord (numericKeys p) shared) :
    ∃ r' : NumericRun repr isWord (numericKeys p) (stamp (p.field "kind") r.result),
      List.Forall₂ (fun o v => ambient.roundValue o.value = some v.value) r.ordered r'.ordered
        ∧ normalizePayload repr isWord (stamp (p.field "kind") r.result)
        = .ok (stamp (p.field "kind") r'.result)
        ∧ (stamp (p.field "kind") r'.result = stamp (p.field "kind") r.result ↔
          derivedSign r'.ordered = derivedSign r.ordered) := by
  have hnumeric := numericKeys_ok hkeys
  have hobj' : shared.isObj = true := isObj_normalizeShared hshared (Doc.isObj_set hobj)
  have hdone := sharedDone_of_ok (Doc.isObj_set hobj) hshared
  set e := stamp (p.field "kind") r.result with he
  have hpassed : Passed r e := passed_stamp r hnumeric hobj' _
  have hrange : r.blockers = [] → 0 ≤ commonScale r.mantissas ∧ commonScale r.mantissas ≤ 12 := by
    intro hnil
    have hblockers := r.blockers_eq
    rw [hnil] at hblockers
    have hread := r.mantissas_eq
    rw [hnil] at hread
    exact plausible_commonScale (fun i hi => plausible_declaredScale hblockers hi) hread
  obtain ⟨r', hround, hsame⟩ := hpassed.again hnumeric hrange
  -- the second pass finds the same fields
  have hagree : Doc.Agree (["schema_version"] ++ sharedKeys
      ++ (["unit", "currency"] ++ (numericKeys p ++ ["scale"]) ++ ["sign"]
        ++ [normalizerBlockersKey])
      ++ ["reported_or_derived", "_normalizer_version"]) p e :=
    ((agree_schema.trans (agree_normalizeShared hshared)).trans r.agree_result).trans
    (agree_stamp _ _)
  have hnot : ∀ key, key ∈ ["kind", "shape"] → key ∉ ["schema_version"] ++ sharedKeys
      ++ (["unit", "currency"] ++ (numericKeys p ++ ["scale"]) ++ ["sign"]
        ++ [normalizerBlockersKey])
      ++ ["reported_or_derived", "_normalizer_version"] := by
    intro key hkey
    have hfigure : key ∉ numericKeys p := hnumeric.not_mem (by
      simp only [List.mem_cons, List.not_mem_nil, or_false] at hkey
      rcases hkey with rfl | rfl <;> simp)
    simp only [List.mem_cons, List.not_mem_nil, or_false] at hkey
    rcases hkey with rfl | rfl <;> simp [sharedKeys, normalizerBlockersKey, hfigure]
  have hkind : e.field "kind" = p.field "kind" := hagree.field (hnot "kind" (by simp))
  have hshape : e.field "shape" = p.field "shape" := hagree.field (hnot "shape" (by simp))
  have hkeys' : numericKeys e = numericKeys p := by
    simp only [numericKeys, guidanceKeys, hkind, hshape]
  have hschema : Doc.Settled "schema_version" (.str "extraction-payload/v1") e := by
    have h₁ : Doc.Settled "schema_version" (.str "extraction-payload/v1") shared :=
      settled_normalizeShared hshared (by simp [sharedKeys, normalizerBlockersKey])
        (Doc.settled_set hobj)
    have h₂ :
        Doc.Settled "schema_version" (.str "extraction-payload/v1")
          (withUnit r.unit r.currency.1 shared) := by
      cases r.currency.1 with
      | none => exact h₁.set_of_ne (by simp)
      | some code => exact (h₁.set_of_ne (by simp)).set_of_ne (by simp)
    exact settled_stamp (r.settled_of_withUnit hnumeric h₂ (by simp [normalizerBlockersKey]))
      (by simp) _
  have hshared' :
      normalizeShared repr (Doc.set "schema_version" (.str "extraction-payload/v1") e) = .ok e := by
    rw [hschema.set_eq]
    exact ((sharedDone_result hnumeric hdone r).stamp _).normalizeShared
  have hrun : normalizePayload repr isWord e = .ok (stamp (p.field "kind") r'.result) := by
    rw [normalizePayload_numeric (by rw [hkeys']; exact hkeys)]
    refine ⟨e, hshared', ?_⟩
    rw [hkeys', hkind]
    exact ⟨r', rfl⟩
  have hobj'' : r.result.isObj = true := (r.settled_sign hobj').isObj
  refine ⟨r', hround, hrun, ?_, ?_⟩
  · intro heq
    have hsign' : (stamp (p.field "kind") r'.result).field "sign" = .str (derivedSign r'.ordered) :=
      (settled_stamp (r'.settled_sign hpassed.sign.isObj) (by simp) _).field
    rw [heq, hpassed.sign.field, Doc.str.injEq] at hsign'
    exact hsign'.symm
  · intro heq
    rw [hsame heq, he, stamp_stamp hobj'']

/-- The sign is derived anew when the first figure vanishes. -/
theorem derivedSign_again_iff (hkeys : numericKeys p ≠ []) {shared e : Doc}
    (hshared :
      normalizeShared repr (Doc.set "schema_version" (.str "extraction-payload/v1") p) = .ok shared)
    (r : NumericRun repr isWord (numericKeys p) shared)
    (r' : NumericRun repr isWord (numericKeys p) e)
    (hround :
      List.Forall₂ (fun o v => ambient.roundValue o.value = some v.value) r.ordered r'.ordered) :
    derivedSign r'.ordered = derivedSign r.ordered ↔ ¬ FirstVanishes isWord p := by
  have hnumeric := numericKeys_ok hkeys
  -- the shared fields leave the figures and the scale as they were
  have hagree := agree_schema.trans (agree_normalizeShared hshared)
  have hscale : shared.field "scale" = p.field "scale" :=
    hagree.field (by simp [sharedKeys, normalizerBlockersKey])
  have hhint : scaleHint (shared.field "scale") r.blockers = usableScale p := by
    have hblockers := r.blockers_eq
    rw [hscale] at hblockers ⊢
    rw [usableScale, hblockers]
  have hread :
      List.Forall₂ (fun key m => readSource isWord (usableScale p) key (sourceOf p key) = .ok m)
        (numericKeys p) r.mantissas := by
    have hmantissas := r.mantissas_eq
    rw [hhint] at hmantissas
    rw [← Except.mapM_eq_ok_iff, ← hmantissas]
    apply Except.mapM_congr
    intro key hkey
    have hfigure := hnumeric.subset hkey
    have hne : key ∉ ["schema_version"] ++ sharedKeys := by
      intro hmem
      simp only [sharedKeys, normalizerBlockersKey, List.mem_append, List.mem_cons,
        List.not_mem_nil, or_false] at hmem hfigure
      rcases hfigure with rfl | rfl | rfl <;> simp at hmem
    exact (readField_congr hagree hne (by simp [sharedKeys, normalizerBlockersKey])).symm
  -- the common scale is that of the figures of the payload
  have hleast :
      commonScale ((numericKeys p).filterMap (figureOn isWord p)) = commonScale r.mantissas :=
    commonScale_congr (scales_eq hread)
  have hrestated := Except.mapM_eq_ok_iff.mp r.restated_eq
  have hordering : r.ordered = orderBounds (numericKeys p) r.restated := rfl
  obtain ⟨mantissas, hmants⟩ : ∃ l, r.mantissas = l := ⟨_, rfl⟩
  obtain ⟨restated, hrest⟩ : ∃ l, r.restated = l := ⟨_, rfl⟩
  rw [hmants] at hread hleast hrestated
  rw [hrest] at hrestated hordering
  obtain ⟨key, rest, hcons⟩ := List.exists_cons_of_ne_nil hkeys
  rw [hcons] at hread
  obtain ⟨⟨f, s⟩, ms, hm, -, rfl⟩ := List.forall₂_cons_left_iff.mp hread
  obtain ⟨dec, ds, hd, -, rfl⟩ := List.forall₂_cons_left_iff.mp hrestated
  obtain ⟨o, os, hordered⟩ : ∃ o os, r.ordered = o :: os := by
    apply List.exists_cons_of_ne_nil
    intro hnil
    have hlen := congrArg List.length hordering
    rw [hnil, length_orderBounds] at hlen
    cases hlen
  -- the first figure of the second pass is lost exactly where the first one vanishes
  have hlost : Lost o ↔ FirstVanishes isWord p := by
    have horder : orderBounds (numericKeys p) (dec :: ds) = o :: os := by
      rw [← hordering]; exact hordered
    rw [lost_orderBounds_iff horder, lost_restate_iff hd, lost_readSource_iff hm]
    obtain ⟨v, hdenoted, -⟩ := readSource_spec hm
    have hfigure : figureOn isWord p key = some (v, s) := hdenoted
    unfold FirstVanishes
    rw [hleast]
    constructor
    · rintro ⟨hs, hvanish⟩
      exact ⟨key, rest, hcons, hvanish, by rw [hfigure, ← hs]; rfl⟩
    · rintro ⟨key', rest', hcons', hvanish, hexp⟩
      rw [hcons, List.cons.injEq] at hcons'
      obtain ⟨rfl, -⟩ := hcons'
      rw [hfigure, Option.map_some, Option.some.injEq] at hexp
      exact ⟨hexp, hvanish⟩
  rw [hordered] at hround
  obtain ⟨v, vs, hov, -, hv⟩ := List.forall₂_cons_left_iff.mp hround
  have hmem : o ∈ r.ordered := by
    rw [hordered]
    exact List.mem_cons_self
  -- the sign word changes with a lost figure only
  rw [← hlost, hordered, hv]
  show signName (signWord v) = signName (signWord o) ↔ _
  rw [signName_rounded_iff (r.kept_ordered o hmem) hov, Lost, hov, Option.some.injEq]

/-! ## Payloads without figures -/

/-- A text that is accepted is stripped and not empty. -/
theorem requiredText_eq_ok {key message : String} (h : requiredText key message d = .ok out) :
    ∃ s, out = Doc.set key (.str s) d ∧ stripped s = s ∧ s ≠ "" := by
  unfold requiredText at h
  split at h
  · split_ifs at h with hnil
    exact ⟨_, (Except.ok.inj h).symm, stripped_stripped _, hnil⟩
  · cases h

/-- An accepted text is accepted again. -/
theorem requiredText_of_settled {key message s : String} (h : Doc.Settled key (.str s) d)
    (hs : stripped s = s ∧ s ≠ "") :
    requiredText key message d = .ok d := by
  unfold requiredText
  rw [h.field]
  simp only [hs.1, if_neg hs.2, h.set_eq]

/-- **Guidance in words** stays. -/
theorem normalizeGuidance_again (hobj : d.isObj = true)
    (hshape : d.field "shape" = .str "qualitative")
    (h : normalizeGuidance repr isWord d = .ok out) (hdone : SharedDone repr d) :
    SharedDone repr (Doc.set "_normalizer_version" (.str "normalize/v2") out)
      ∧ normalizeGuidance repr isWord (Doc.set "_normalizer_version" (.str "normalize/v2") out)
        = .ok (Doc.set "_normalizer_version" (.str "normalize/v2") out) := by
  unfold normalizeGuidance at h
  rw [hshape] at h
  obtain ⟨d', htext, hout⟩ := Except.bind_eq_ok_iff.mp h
  obtain ⟨s, rfl, hs⟩ := requiredText_eq_ok htext
  obtain rfl := (Except.ok.inj hout).symm
  set e := Doc.set "_normalizer_version" (.str "normalize/v2")
    (Doc.set "reported_or_derived" (.str "management_assertion") (Doc.set "text" (.str s) d))
    with he
  have htext' : Doc.Settled "text" (.str s) e :=
    ((Doc.settled_set hobj).set_of_ne (by simp)).set_of_ne (by simp)
  have hreported : Doc.Settled "reported_or_derived" (.str "management_assertion") e :=
    (Doc.settled_set (Doc.isObj_set hobj)).set_of_ne (by simp)
  have hshape' : e.field "shape" = .str "qualitative" := by
    rw [((Doc.agree_set.trans Doc.agree_set).trans Doc.agree_set).field (d := d) (by simp)]
    exact hshape
  refine ⟨((hdone.set (by simp [ownKeys, normalizerBlockersKey])).set
    (by simp [ownKeys, normalizerBlockersKey])).set
    (by simp [ownKeys, normalizerBlockersKey]), ?_⟩
  unfold normalizeGuidance
  rw [hshape']
  simp only [requiredText_of_settled htext' hs, Except.ok_bind, hreported.set_eq, Except.pure_eq_ok]

/-- The fields of a driver are checked and stripped. -/
theorem normalizeDriver_eq_ok (h : normalizeDriver repr d = .ok out) : ∃ description targets,
    (stripped description = description ∧ description ≠ "")
      ∧ oneOf (d.field "category") driverCategories = .ok true
      ∧ oneOf ((d.get? "direction").getD (.str "unknown")) ["positive", "negative", "mixed",
        "unknown"] = .ok true
      ∧ normalizeTargets repr targets = .ok targets
      ∧ out = Doc.set "reported_or_derived" (.str "management_assertion")
      (Doc.set "target_metric_ids" targets
        (Doc.set "direction" ((d.get? "direction").getD (.str "unknown"))
          (Doc.set "description" (.str description) d))) := by
  unfold normalizeDriver at h
  simp only [Except.bind_eq_ok_iff, Except.raiseIf_eq_ok_iff, Bool.not_eq_false] at h
  obtain ⟨_, hcategory, -, rfl, d', hdescription, _, hdirection, -, rfl, targets, htargets, hout⟩ :=
    h
  obtain ⟨description, rfl, hstripped⟩ := requiredText_eq_ok hdescription
  rw [Doc.get?_set_of_ne (by simp)] at hdirection hout
  exact ⟨description, targets, hstripped, hcategory, hdirection, normalizeTargets_again htargets,
    (Except.ok.inj hout).symm⟩

/-- **A driver** stays. -/
theorem normalizeDriver_again (hobj : d.isObj = true) (h : normalizeDriver repr d = .ok out)
    (hdone : SharedDone repr d) :
    SharedDone repr (Doc.set "_normalizer_version" (.str "normalize/v2") out)
      ∧ normalizeDriver repr (Doc.set "_normalizer_version" (.str "normalize/v2") out)
        = .ok (Doc.set "_normalizer_version" (.str "normalize/v2") out) := by
  obtain ⟨description, targets, hstripped, hcategory, hdirection, htargets, rfl⟩ :=
    normalizeDriver_eq_ok h
  set direction := (d.get? "direction").getD (.str "unknown") with hdir
  have o₁ : (Doc.set "description" (.str description) d).isObj = true := Doc.isObj_set hobj
  have o₂ : (Doc.set "direction" direction (Doc.set "description" (.str description) d)).isObj
    = true := Doc.isObj_set o₁
  have o₃ :
      (Doc.set "target_metric_ids" targets
      (Doc.set "direction" direction (Doc.set "description" (.str description) d))).isObj
      = true := Doc.isObj_set o₂
  set e :=
    Doc.set "_normalizer_version" (.str "normalize/v2")
      (Doc.set "reported_or_derived" (.str "management_assertion")
    (Doc.set "target_metric_ids" targets
    (Doc.set "direction" direction (Doc.set "description" (.str description) d)))) with he
  have s₁ : Doc.Settled "description" (.str description) e :=
    ((((Doc.settled_set hobj).set_of_ne (by simp)).set_of_ne (by simp)).set_of_ne
    (by simp)).set_of_ne (by simp)
  have s₂ : Doc.Settled "direction" direction e :=
    (((Doc.settled_set o₁).set_of_ne (by simp)).set_of_ne (by simp)).set_of_ne (by simp)
  have s₃ : Doc.Settled "target_metric_ids" targets e :=
    ((Doc.settled_set o₂).set_of_ne (by simp)).set_of_ne (by simp)
  have s₄ : Doc.Settled "reported_or_derived" (.str "management_assertion") e :=
    (Doc.settled_set o₃).set_of_ne (by simp)
  have hcategory' : e.field "category" = d.field "category" :=
    ((((Doc.agree_set.trans Doc.agree_set).trans Doc.agree_set).trans Doc.agree_set).trans
    Doc.agree_set).field (by simp)
  have hkeys : ∀ key ∈ ["description", "direction", "target_metric_ids", "reported_or_derived",
      "_normalizer_version"],
      key ∉ ownKeys := by simp [ownKeys, normalizerBlockersKey]
  refine ⟨((((hdone.set (hkeys _ (by simp))).set (hkeys _ (by simp))).set (hkeys _ (by simp))).set
    (hkeys _ (by simp))).set
    (hkeys _ (by simp)), ?_⟩
  unfold normalizeDriver
  simp only [hcategory', hcategory, requiredText_of_settled s₁ hstripped, s₂.get?, Option.getD_some,
    hdirection, s₂.set_eq,
    s₃.field, htargets, s₃.set_eq, s₄.set_eq, Except.ok_bind, Except.raiseIf, Bool.true_eq_false,
    if_false, Except.pure_eq_ok]

/-- **The second pass over a payload without figures** changes nothing. -/
theorem normalizePayload_plain (hkeys : numericKeys p = [])
    (h : normalizePayload repr isWord p = .ok out) :
    normalizePayload repr isWord out = .ok out := by
  cases p with
  | obj members =>
      have hobj : (Doc.obj members).isObj = true := rfl
      simp only [normalizePayload, Except.bind_eq_ok_iff, Except.pure_eq_ok, Except.ok.injEq] at h
      obtain ⟨shared, hshared, written, hwritten, rfl⟩ := h
      have hobj' := isObj_normalizeShared hshared (Doc.isObj_set hobj)
      have hdone := sharedDone_of_ok (Doc.isObj_set hobj) hshared
      have hagree := agree_schema.trans (agree_normalizeShared hshared)
      have hkind : shared.field "kind" = (Doc.obj members).field "kind" :=
        hagree.field (by simp [sharedKeys, normalizerBlockersKey])
      have hshape : shared.field "shape" = (Doc.obj members).field "shape" :=
        hagree.field (by simp [sharedKeys, normalizerBlockersKey])
      have hschema : Doc.Settled "schema_version" (.str "extraction-payload/v1") shared :=
        settled_normalizeShared hshared (by simp [sharedKeys, normalizerBlockersKey])
          (Doc.settled_set hobj)
      have hsame : numericKeys shared = [] := by
        rw [← hkeys]
        simp only [numericKeys, guidanceKeys, hkind, hshape]
      -- what the part for the kind leaves behind
      obtain ⟨hdone', hschema', hagain⟩ :
          SharedDone repr (Doc.set "_normalizer_version" (.str "normalize/v2") written)
          ∧ Doc.Settled "schema_version" (.str "extraction-payload/v1")
            (Doc.set "_normalizer_version" (.str "normalize/v2") written)
          ∧ normalizeKind repr isWord (Doc.set "_normalizer_version" (.str "normalize/v2") written)
            = .ok (Doc.set "_normalizer_version" (.str "normalize/v2") written) := by
        unfold normalizeKind at hwritten
        split at hwritten
        next hk =>
            rw [numericKeys, hk] at hsame
            cases hsame
        next hk =>
            have hqualitative : shared.field "shape" = .str "qualitative" := by
              rw [numericKeys, hk] at hsame
              simp only [guidanceKeys] at hsame
              unfold normalizeGuidance at hwritten
              split at hwritten
              next hq => exact hq
              next shape _ hq =>
                  rw [hq] at hsame
                  cases hfind : shapeKeys.find? fun entry => entry.1 == shape with
                  | none =>
                      simp only [hfind, Except.bind_eq_ok_iff] at hwritten
                      obtain ⟨_, hno, -⟩ := hwritten
                      cases hno
                  | some entry =>
                      have hentry := List.find?_some hfind
                      rw [beq_iff_eq] at hentry
                      have hshapes : NumericKeys entry.2 :=
                        numericKeys_of_shape (hfind.trans (by rw [← hentry]))
                      simp only [hfind, Option.map_some, Option.getD_some] at hsame
                      exact absurd hsame hshapes.ne_nil
              next =>
                  obtain ⟨_, hno, -⟩ := Except.bind_eq_ok_iff.mp hwritten
                  cases hno
            obtain ⟨hd, hr⟩ := normalizeGuidance_again hobj' hqualitative hwritten hdone
            have hwritten' := hwritten
            unfold normalizeGuidance at hwritten'
            rw [hqualitative] at hwritten'
            obtain ⟨d', htext, hout⟩ := Except.bind_eq_ok_iff.mp hwritten'
            obtain ⟨s, rfl, -⟩ := requiredText_eq_ok htext
            obtain rfl := (Except.ok.inj hout).symm
            refine ⟨hd, ((hschema.set_of_ne (by simp)).set_of_ne (by simp)).set_of_ne (by simp), ?_⟩
            unfold normalizeKind
            rw [((Doc.agree_set.trans Doc.agree_set).trans Doc.agree_set).field
              (d := shared) (by simp), hk]
            exact hr
        next hk₁ hk₂ =>
            obtain ⟨hd, hr⟩ := normalizeDriver_again hobj' hwritten hdone
            obtain ⟨_, _, -, -, -, -, rfl⟩ := normalizeDriver_eq_ok hwritten
            refine ⟨hd,
              (((((hschema.set_of_ne (by simp)).set_of_ne (by simp)).set_of_ne (by simp)).set_of_ne
              (by simp))).set_of_ne
              (by simp), ?_⟩
            unfold normalizeKind
            rw [((((Doc.agree_set.trans Doc.agree_set).trans Doc.agree_set).trans
              Doc.agree_set).trans Doc.agree_set).field
              (d := shared) (by simp)]
            split
            next hk => exact absurd hk hk₁
            next hk => exact absurd hk hk₂
            next => exact hr
      have hversion : Doc.Settled "_normalizer_version" (.str "normalize/v2")
          (Doc.set "_normalizer_version" (.str "normalize/v2") written) := by
        refine Doc.settled_set ?_
        cases written with
        | obj _ => rfl
        | _ =>
            obtain ⟨raw, hraw⟩ := hdone'.raw
            cases hraw.isObj
      obtain ⟨entries, hentries⟩ : ∃ entries,
          Doc.set "_normalizer_version" (.str "normalize/v2") written = .obj entries := by
        have hisObj := hversion.isObj
        cases hcases : Doc.set "_normalizer_version" (.str "normalize/v2") written with
        | obj entries => exact ⟨entries, rfl⟩
        | _ =>
            rw [hcases] at hisObj
            cases hisObj
      have hfirst := hschema'.set_eq
      have hrun := hdone'.normalizeShared
      have hlast := hversion.set_eq
      rw [hentries] at hfirst hrun hlast hagain ⊢
      unfold normalizePayload
      simp only [hfirst, hrun, hagain, hlast, Except.ok_bind, Except.pure_eq_ok]
  | _ => cases h

/-- **Normalizing twice.**  For a payload that `normalize_payload` accepts, a second pass returns
the result unchanged exactly when the first figure of the payload is not a positive number without a
sign that is too small for the arithmetic. -/
theorem normalize_twice_iff (repr : Doc → String) (isWord : Char → Bool) (p out : Doc)
    (h : normalizePayload repr isWord p = .ok out) :
    normalizePayload repr isWord out = .ok out ↔ ¬ FirstVanishes isWord p := by
  by_cases hkeys : numericKeys p = []
  · refine iff_of_true (normalizePayload_plain hkeys h) ?_
    rintro ⟨key, rest, hcons, -⟩
    rw [hkeys] at hcons
    cases hcons
  · have hobj : p.isObj = true := by
      cases p with
      | obj members => rfl
      | _ => cases h
    obtain ⟨shared, hshared, r, rfl⟩ := (normalizePayload_numeric hkeys).mp h
    obtain ⟨r', hround, hrun, hsame⟩ := normalizePayload_again hobj hkeys hshared r
    rw [hrun, Except.ok.injEq, hsame, derivedSign_again_iff hkeys hshared r r' hround]

end Payload

theorem normalize_twice_iff_lossRange :
    normalizePayload (fun _ => "") asciiWord lossResult = .ok lossResult ↔
    ¬ FirstVanishes asciiWord lossRange :=
  normalize_twice_iff (fun _ => "") asciiWord lossRange lossResult normalizePayload_lossRange

/-- A number below the smallest one that the arithmetic holds, with a million zeros behind its
point. -/
def tinyFigure : Decimal := ⟨false, 1, -1000028⟩

theorem tinyFigure_value : tinyFigure.value = 10 ^ (-1000028 : ℤ) := by
  rw [tinyFigure, Decimal.value]
  simp only [Bool.false_eq_true, if_false, one_mul, Nat.cast_one]

theorem tinyFigure_lost : Lost tinyFigure := by
  have hpos : 0 < tinyFigure.value := by
    rw [tinyFigure_value]
    exact zpow_pos (by norm_num) _
  refine ⟨hpos, (roundValue_eq_zero_iff hpos).mpr ?_⟩
  have hetiny : ambient.etiny = -1000028 + 2 := by decide
  have htwo : (10 : ℚ) ^ (2 : ℤ) = 100 := by norm_num
  rw [tinyFigure_value] at hpos ⊢
  rw [hetiny, zpow_add₀ (by norm_num), htwo]
  -- the power itself is not to be evaluated
  generalize (10 : ℚ) ^ (-1000028 : ℤ) = q at hpos ⊢
  linarith

/-- A figure that is written in full and read as a number that is lost. -/
def tinyPayload : Doc := kpiPayload (String.ofList tinyFigure.fixedText)

/-- The shared part of a figure of its own. -/
theorem normalizeShared_kpiPayload (raw : String) : ∃ shared, normalizeShared (fun _ => "")
    (Doc.set "schema_version" (.str "extraction-payload/v1") (kpiPayload raw)) = .ok shared
    ∧ shared.field "unit" = .str "USD" ∧ shared.field "currency" = .str "USD"
    ∧ shared.field "scale" = .null
    ∧ shared.field "sign" = .null ∧ shared.field "value" = .str raw :=
  ⟨_, rfl, rfl, rfl, rfl, rfl, rfl⟩

theorem numericKeys_kpiPayload (raw : String) : numericKeys (kpiPayload raw) = ["value"] := rfl

/-- The first pass writes a zero with a positive sign, the second one corrects the sign. -/
theorem tinyFigure_not_fixed : ∃ out, normalizePayload (fun _ => "") asciiWord tinyPayload = .ok out
    ∧ normalizePayload (fun _ => "") asciiWord out ≠ .ok out := by
  obtain ⟨hpos, hround⟩ := tinyFigure_lost
  have habs : |tinyFigure.value| < (10 : ℚ) ^ (1000000 : ℤ) := by
    rw [abs_of_pos hpos, tinyFigure_value]
    exact zpow_lt_zpow_right₀ (by norm_num) (by norm_num)
  -- the text of the figure is read back as the figure
  obtain ⟨f, hparse, hf⟩ :=
    parseNumeric_fixedText asciiWord (z := tinyFigure) (fun h => nomatch h) (by decide) habs
  rw [← hf] at hpos hround
  obtain ⟨z, hz, -⟩ := Context.normalize_of_roundValue ambient_range hround
  have hc : f.coeff ≠ 0 := fun h0 => hpos.ne' ((Decimal.value_eq_zero_iff f).mpr h0)
  obtain ⟨text, htext⟩ : ∃ text, formatDecimal f = .ok text := by
    unfold formatDecimal normalized
    rw [if_pos hc, show Retrieval.defaultContext.normalize f = .ok z from hz]
    exact ⟨_, rfl⟩
  obtain ⟨raw, hraw⟩ : ∃ raw, raw = String.ofList tinyFigure.fixedText := ⟨_, rfl⟩
  have hkeys := numericKeys_kpiPayload raw
  obtain ⟨shared, hshared, hunit, hcurrency, hscale, hsign, hvalue⟩ :=
    normalizeShared_kpiPayload raw
  have hread : readField asciiWord shared true none "value" = .ok (f, 0) := by
    unfold readField fieldSource
    rw [hvalue]
    simp only [readSource, readText, hraw, String.toList_ofList, hparse]
    rfl
  -- the first pass, step by step
  let r : NumericRun (fun _ => "") asciiWord (numericKeys (kpiPayload raw)) shared := {
    unit := "USD"
    currency := (some "USD", [])
    blockers := []
    mantissas := [(f, 0)]
    restated := [f]
    texts := [text]
    signs := []
    unit_eq := by
      rw [requiredUnit, hunit]
      rfl
    currency_eq := by
      rw [hcurrency]
      rfl
    blockers_eq := by
      rw [hscale]
      rfl
    mantissas_eq := by
      rw [hkeys, hscale]
      show (do let m ← readField asciiWord shared true none "value"; pure [m]) = _
      rw [hread]
      rfl
    restated_eq := rfl
    texts_eq := by
      show (do let t ← formatDecimal f; pure [t]) = _
      rw [htext]
      rfl
    signs_eq := by
      rw [hsign]
      rfl }
  obtain ⟨r', hround', hrun, hsame⟩ :=
    normalizePayload_again (p := kpiPayload raw) rfl (by rw [hkeys]; simp) hshared r
  rw [tinyPayload, ← hraw]
  refine ⟨stamp ((kpiPayload raw).field "kind") r.result, ?_, ?_⟩
  · exact (normalizePayload_numeric (d := kpiPayload raw) (by rw [hkeys]; simp)).mpr ⟨shared,
      hshared, r, rfl⟩
  · -- the second pass derives another sign, for the first figure is lost
    rw [hrun, Ne, Except.ok.injEq, hsame]
    have hordered : r.ordered = [f] := rfl
    rw [hordered] at hround' ⊢
    obtain ⟨v, _, hv, -, hvs⟩ := List.forall₂_cons_left_iff.mp hround'
    rw [hvs]
    show ¬ signName (signWord v) = signName (signWord f)
    rw [signName_rounded_iff (fun hneg => absurd hpos (not_lt.mpr hneg.le)) hv, not_not]
    rw [hround] at hv
    exact ⟨hpos, (Option.some.inj hv).symm⟩

end Normalize

end Extraction
