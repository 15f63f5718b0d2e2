/-
# Reported outputs

A reported output is its source value, quantized once.  `Decimal.quantize` rounds to the exponent of
the quantum and never reads its coefficient.

* `Reports`: what a reported output computes of its source; `Walked.reported` finds it in an
  evaluation.
* **`reports_nearest_iff`**: for which quanta the reported value is the nearest multiple.
-/
import EvidenceLab.AmbientContexts
import EvidenceLab.HalfEven

namespace CalcEngine

open Decimal (numDigits NearestEven)

/-! ## What a node reports -/

/-- The node reports `r` for the source value `v`, with the quantum `q`. -/
def Reports (amb : AmbientContext) (n : Node) (q v r : Decimal) : Prop :=
  ∃ source metricId quantum, n.body = .reportedFinancialOutput source metricId quantum
    ∧ quantumOf amb n quantum = .ok q
    ∧ ∃ parent inputs cutoff out, compute amb n (parent :: inputs) cutoff = .ok out
      ∧ parent.value = v ∧ out.quantity.value = r

/-- The quantum of a node is positive, and its digits fit. -/
theorem quantumOf_ok {amb : AmbientContext} {n : Node} {source metricId : String}
    {quantum : Option Decimal} {q : Decimal}
    (hb : n.body = .reportedFinancialOutput source metricId quantum)
    (hq : quantumOf amb n quantum = .ok q) :
    numDigits q.coeff ≤ calcContext.prec ∧ 0 < q.value := by
  have hok := n.bodyOk
  rw [NodeFields.BodyOk, hb] at hok
  cases quantum with
  | some q' =>
      obtain rfl : q' = q := Except.ok.inj hq
      exact hok.2.2.2.2 q' rfl
  | none =>
      cases hcur : n.unit.currency with
      | none => simp [quantumOf, hcur] at hq
      | some code =>
          simp only [quantumOf, hcur, minorUnitQuantum_eq] at hq
          cases hdigits : minorUnits code with
          | none => simp [hdigits] at hq
          | some digits =>
              simp only [hdigits, Except.ok.injEq] at hq
              subst hq
              refine ⟨show numDigits 1 ≤ calcContext.prec by decide, ?_⟩
              rw [Decimal.value_eq_signed]
              simp only [Decimal.signed, Bool.false_eq_true, if_false, Nat.cast_one, Int.cast_one,
                one_mul]
              positivity

/-- A node quantizes its source and does nothing else. -/
theorem compute_reported {amb : AmbientContext} {n : Node} {source metricId : String}
    {quantum : Option Decimal} {q : Decimal} {parent : CalcResult} {inputs : List CalcResult}
    {cutoff : AwareDatetime} {out : Computed}
    (hb : n.body = .reportedFinancialOutput source metricId quantum)
    (hq : quantumOf amb n quantum = .ok q)
    (h : compute amb n (parent :: inputs) cutoff = .ok out) :
    calcContext.quantize parent.value q = .ok out.quantity.value := by
  unfold compute at h
  simp only [hb] at h
  obtain ⟨t, -, h⟩ := Except.bind_eq_ok_iff.mp h
  obtain ⟨lineage, -, h⟩ := Except.bind_eq_ok_iff.mp h
  obtain ⟨⟨quantity, version, passed⟩, hd, h⟩ := Except.bind_eq_ok_iff.mp h
  rw [Except.pure_eq_ok, Except.ok.injEq] at h
  unfold computeDerived at hd
  simp only [hb, hq, Except.ok_bind] at hd
  obtain ⟨p, hp, hd⟩ := Except.bind_eq_ok_iff.mp hd
  obtain rfl : parent = p := Except.ok.inj hp
  obtain ⟨r, hr, hd⟩ := Except.bind_eq_ok_iff.mp hd
  rw [Except.pure_eq_ok, Except.ok.injEq, Prod.mk.injEq] at hd
  obtain ⟨hval, -⟩ := (Quantity.quantize_eq_ok_iff (quantumOf_ok hb hq).1).mp hr
  rw [← h]
  show calcContext.quantize parent.value q = .ok quantity.value
  rw [← hd.1]
  exact hval

/-- Every value that the context can quantize is reported for some parent. -/
theorem reports_of_quantize {amb : AmbientContext} {n : Node} {source metricId : String}
    {quantum : Option Decimal} {q v r : Decimal}
    (hb : n.body = .reportedFinancialOutput source metricId quantum)
    (hq : quantumOf amb n quantum = .ok q) (h : calcContext.quantize v q = .ok r) :
    Reports amb n q v r := by
  let parent : CalcResult :=
    ⟨"r", source, .sourceFact, .reported, v, n.unit, n.period, firstInstant,
    ⟨.reported, some "s", none, none, []⟩, [], none, none, none, resultSchema⟩
  have hlineage :
      Lineage.make ⟨.derived, none, none, none, ["r"]⟩ = .ok ⟨.derived, none, none, none, ["r"]⟩ :=
    derivedLineage_ok (by simp) (by simp) (by decide)
  have hquantize : parent.quantity.quantize q = .ok ⟨r, n.unit⟩ :=
    (Quantity.quantize_eq_ok_iff (quantumOf_ok hb hq).1).mpr ⟨h, rfl⟩
  refine ⟨source, metricId, quantum, hb, hq, parent, [], firstInstant,
    ⟨⟨r, n.unit⟩, firstInstant, ⟨.derived, none, none, none, ["r"]⟩, none, none⟩, ?_, rfl, rfl⟩
  have hparents : [parent].map (fun p => p.resultId) = ["r"] := rfl
  unfold compute computeDerived
  simp only [hb, hq, maxAvailable, hparents, hlineage, Except.ok_bind, inputAt,
    List.getElem?_cons_zero, hquantize, List.foldl_nil]
  rfl

theorem Reports.quantize {amb : AmbientContext} {n : Node} {q v r : Decimal}
    (h : Reports amb n q v r) :
    calcContext.quantize v q = .ok r := by
  obtain ⟨source, metricId, quantum, hb, hq, parent, inputs, cutoff, out, hc, rfl, rfl⟩ := h
  exact compute_reported hb hq hc

/-- **The reported outputs of an evaluation**: the result of the node is what it reports for the
result of its source. -/
theorem Walked.reported {sha : String → String} {amb : AmbientContext} {g : ModelGraph}
    {cutoff : AwareDatetime} {st : EvalState} (hg : g.WellFormed)
    (hw : Walked sha amb g cutoff g.executionPlan st) {n : Node} (hn : n ∈ g.nodes)
    {source metricId : String} {quantum : Option Decimal}
    (hb : n.body = .reportedFinancialOutput source metricId quantum) :
    ∃ s c q, st.results.get? source = some s ∧ st.results.get? n.nodeId = some c
      ∧ Reports amb n q s.value c.value := by
  obtain ⟨e, he⟩ := hw.ownRun hg hn (by rw [hb]; rfl)
  have hrefs : n.refs = [source] := by rw [NodeFields.refs, hb]; rfl
  obtain ⟨s, hs, hinputs⟩ : ∃ s, st.results.get? source = some s ∧ e.inputs = [s] := by
    have hin := Except.mapM_eq_ok_iff.mp e.inputs_eq
    rw [hrefs] at hin
    generalize e.inputs = inputs at hin
    cases hin with
    | cons hs hnil =>
        cases hnil
        exact ⟨_, lookup_eq_ok_iff.mp hs, rfl⟩
  have hc := e.computed_eq
  rw [hinputs] at hc
  obtain ⟨q, hq⟩ : ∃ q, quantumOf amb n quantum = .ok q := by
    unfold compute computeDerived at hc
    simp only [hb, Except.bind_eq_ok_iff] at hc
    obtain ⟨-, -, -, -, -, ⟨q, hq, -⟩, -⟩ := hc
    exact ⟨q, hq⟩
  exact ⟨s, _, q, hs, he, source, metricId, quantum, hb, hq, s, [], cutoff,
    e.computed, hc, rfl, rfl⟩

/-! ## Which quanta report the nearest multiple -/

/-- Some value has a multiple of the place of the quantum. -/
def Reportable (q : Decimal) : Prop := calcContext.etiny ≤ q.exp ∧ q.exp ≤ calcContext.emax

/-- A quantum with coefficient one is the place it is rounded to. -/
theorem value_of_coeff_one {q : Decimal} (hpos : 0 < q.value) (hone : q.coeff = 1) :
    q.value = (10 : ℚ) ^ q.exp := by
  rw [← abs_of_pos hpos, Decimal.abs_value_eq_coeff, hone, Nat.cast_one, one_mul]

/-- One in the place of a quantum is reported as it is. -/
theorem quantize_one {q : Decimal} (h : Reportable q) :
    calcContext.quantize ⟨false, 1, q.exp⟩ q = .ok ⟨false, 1, q.exp⟩ := by
  have hround :
      Decimal.roundDiv calcContext.rounding false (Decimal.scaleFrac 1 1 (q.exp - q.exp)).1
      (Decimal.scaleFrac 1 1 (q.exp - q.exp)).2 = 1 := by
    rw [sub_self]
    rfl
  unfold Decimal.Context.quantize
  simp only [hround]
  rw [if_neg (not_or.mpr ⟨not_lt.mpr h.1, not_lt.mpr h.2⟩), if_neg]
  have hdigits : numDigits 1 = 1 := rfl
  rw [hdigits]
  refine not_or.mpr ⟨by decide, ?_⟩
  rintro ⟨-, hlt⟩
  have hmax := h.2
  omega

/-- A reportable quantum reports nearest multiples only if its coefficient is one. -/
theorem coeff_eq_one_of_nearest {amb : AmbientContext} {n : Node} {source metricId : String}
    {quantum : Option Decimal} {q : Decimal}
    (hb : n.body = .reportedFinancialOutput source metricId quantum)
    (hq : quantumOf amb n quantum = .ok q) (h : Reportable q)
    (hnear : ∀ v r, Reports amb n q v r → NearestEven q.value v.value r.value) : q.coeff = 1 := by
  obtain ⟨k, hk, -⟩ := hnear _ _ (reports_of_quantize hb hq (quantize_one h))
  have hpos := (quantumOf_ok hb hq).2
  have hu : (10 : ℚ) ^ q.exp ≠ 0 := by positivity
  rw [← abs_of_pos hpos, Decimal.abs_value_eq_coeff, Decimal.value_eq_signed] at hk
  simp only [Decimal.signed, Bool.false_eq_true, if_false, Nat.cast_one, Int.cast_one, ← mul_assoc]
    at hk
  -- one is a multiple of the coefficient
  have hunit : k * (q.coeff : ℤ) = 1 := by exact_mod_cast (mul_right_cancel₀ hu hk).symm
  rcases Int.eq_one_or_neg_one_of_mul_eq_one' hunit with ⟨-, h⟩ | ⟨-, h⟩
  · exact_mod_cast h
  · omega

/-- **When reports are nearest multiples.**  Two outputs whose quanta are numerically equal report
the nearest multiple of the quantum for every source value, and the same one, exactly when both
quanta are written with the coefficient one. -/
theorem reports_nearest_iff (amb : AmbientContext) {n n' : Node}
    {source metricId source' metricId' : String}
    {quantum quantum' : Option Decimal} {q q' : Decimal}
    (hb : n.body = .reportedFinancialOutput source metricId quantum)
    (hb' : n'.body = .reportedFinancialOutput source' metricId' quantum')
    (hq : quantumOf amb n quantum = .ok q) (hq' : quantumOf amb n' quantum' = .ok q')
    (hvalue : q.value = q'.value) :
    ((∀ v r, Reports amb n q v r → NearestEven q.value v.value r.value)
        ∧ (∀ v r, Reports amb n' q' v r → NearestEven q'.value v.value r.value)
        ∧ ∀ v r r', Reports amb n q v r → Reports amb n' q' v r' → r.value = r'.value)
      ↔ (Reportable q → q.coeff = 1) ∧ (Reportable q' → q'.coeff = 1) := by
  have hreportable : ∀ {n : Node} {q v r : Decimal}, Reports amb n q v r → Reportable q := by
    intro n q v r h
    have hquant := h.quantize
    unfold Decimal.Context.quantize at hquant
    simp only at hquant
    split_ifs at hquant with hrange
    exact ⟨not_lt.mp (not_or.mp hrange).1, not_lt.mp (not_or.mp hrange).2⟩
  have hpos := (quantumOf_ok hb hq).2
  have hpos' := (quantumOf_ok hb' hq').2
  constructor
  · rintro ⟨hnear, hnear', -⟩
    exact ⟨fun h => coeff_eq_one_of_nearest hb hq h hnear,
      fun h => coeff_eq_one_of_nearest hb' hq' h hnear'⟩
  · rintro ⟨hone, hone'⟩
    refine ⟨?_, ?_, ?_⟩
    · intro v r h
      rw [value_of_coeff_one hpos (hone (hreportable h))]
      exact Decimal.quantize_nearestEven rfl h.quantize
    · intro v r h
      rw [value_of_coeff_one hpos' (hone' (hreportable h))]
      exact Decimal.quantize_nearestEven rfl h.quantize
    · intro v r r' h h'
      have hexp : q.exp = q'.exp := by
        rw [value_of_coeff_one hpos (hone (hreportable h)),
          value_of_coeff_one hpos' (hone' (hreportable h'))] at hvalue
        exact zpow_right_injective₀ (by norm_num) (by norm_num) hvalue
      have hsame : (calcContext.quantize v q).toOption.map Decimal.value
          = (calcContext.quantize v q').toOption.map Decimal.value := by
        rw [Decimal.Context.quantize_value, Decimal.Context.quantize_value, hexp]
      rw [h.quantize, h'.quantize] at hsame
      exact Option.some.inj hsame

/-- A report of `x`, in dollars. -/
def reportX (quantum : Option Decimal) : NodeFields :=
  ⟨"y", "", usd, fy2024, .reportedFinancialOutput "x" "m" quantum⟩

def minorUnitReport : Node := ⟨reportX none, by decide⟩

def centReport : Node := ⟨reportX (some ⟨false, 1, -2⟩), by decide⟩

def fiveCentReport : Node := ⟨reportX (some ⟨false, 5, -2⟩), by decide⟩

/-- The minor unit and the same quantum written out. -/
theorem reports_nearest_iff_cents :
    (∀ v r, Reports defaultAmbient minorUnitReport ⟨false, 1, -2⟩ v r →
        NearestEven (1 / 100) v.value r.value)
      ∧ ∀ v r r', Reports defaultAmbient minorUnitReport ⟨false, 1, -2⟩ v r →
        Reports defaultAmbient centReport ⟨false, 1, -2⟩ v r' → r.value = r'.value := by
  have hvalue : (⟨false, 1, -2⟩ : Decimal).value = 1 / 100 := by
    norm_num [Decimal.value]
  have hq : quantumOf defaultAmbient minorUnitReport none = .ok ⟨false, 1, -2⟩ := by
    decide
  have h :=
    (@reports_nearest_iff defaultAmbient minorUnitReport centReport _ _ _ _ _ _ _ _ rfl rfl hq rfl
    rfl).mpr ⟨fun _ => rfl, fun _ => rfl⟩
  rw [hvalue] at h
  exact ⟨h.1, h.2.2⟩

/-- **A quantum of five cents reports single cents.** -/
theorem fiveCentReport_reports_cents :
    ∃ q v r, Reports defaultAmbient fiveCentReport q v r ∧ q.value = 5 / 100 ∧ v.value = 103 / 100
      ∧ ¬ NearestEven q.value v.value r.value := by
  have hvalue : ∀ c : ℕ, (⟨false, c, -2⟩ : Decimal).value = c / 100 := by
    intro c
    norm_num [Decimal.value, div_eq_mul_inv]
  refine ⟨⟨false, 5, -2⟩, ⟨false, 103, -2⟩, ⟨false, 103, -2⟩,
    reports_of_quantize rfl rfl (by decide), hvalue 5, hvalue 103, ?_⟩
  rintro ⟨k, hk, -⟩
  rw [hvalue, hvalue] at hk
  have h : (103 : ℤ) = k * 5 := by
    have hq : (103 : ℚ) = k * 5 := by
      push_cast at hk
      linarith
    exact_mod_cast hq
  omega

end CalcEngine
