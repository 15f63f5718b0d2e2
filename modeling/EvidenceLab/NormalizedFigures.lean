/-
# The figures of a normalized payload

A numeric field goes through the pattern, through the arithmetic that a sign puts it through, onto
the shared exponent and through the formatter.  Three of the four round to the twenty-eight digits
of the ambient context. `magnitudes_preserved_iff` says for which payloads the figures that come out
are the ones that were written.
-/
import EvidenceLab.Normalize
import EvidenceLab.NumericSigns

namespace Decimal

/-! ## Texts without trailing zeros -/

/-- The last digit of a numeral is its remainder by ten. -/
theorem toDigits_last (n : ℕ) : ∃ ds, Nat.toDigits 10 n = ds ++ [Nat.digitChar (n % 10)] := by
  rw [Nat.toDigits_eq_if (by norm_num)]
  split_ifs with h
  · exact ⟨[], by rw [Nat.mod_eq_of_lt h]; rfl⟩
  · exact ⟨_, rfl⟩

theorem digitChar_ne_zero {n : ℕ} (h : n % 10 ≠ 0) : Nat.digitChar (n % 10) ≠ '0' := by
  have hlt : n % 10 < 10 := Nat.mod_lt n (by norm_num)
  generalize n % 10 = k at *
  interval_cases k <;> first | exact absurd rfl h | decide

/-- The last digit of a number with places. -/
theorem fixedBody_last {c : ℕ} {e : ℤ} (he : e < 0) :
    ∃ cs, fixedBody c e = cs ++ [Nat.digitChar (c % 10)] := by
  obtain ⟨ds, hds⟩ := toDigits_last c
  unfold fixedBody
  rw [if_neg (not_le.mpr he)]
  simp only
  obtain ⟨qs, hqs⟩ : ∃ qs, paddedDigits c (-e).toNat = qs ++ [Nat.digitChar (c % 10)] := by
    refine ⟨List.replicate ((-e).toNat + 1 - (Nat.toDigits 10 c).length) '0' ++ ds, ?_⟩
    rw [paddedDigits, List.append_assoc, ← hds]
  rw [hqs]
  have hk : 0 < (-e).toNat := by omega
  have hle : (qs ++ [Nat.digitChar (c % 10)]).length - (-e).toNat ≤ qs.length := by
    rw [List.length_append, List.length_singleton]
    omega
  rw [List.drop_append_of_le_length hle]
  exact ⟨_, by rw [← List.cons_append, ← List.append_assoc]⟩

end Decimal

namespace Extraction

namespace Normalize

open Decimal (Context)

/-- The arithmetic that the normalizer runs in. -/
abbrev ambient : Context := Retrieval.defaultContext

theorem ambient_range : ambient.etiny ≤ ambient.emax := by decide

/-! ## The formatter -/

/-- A normalized number is written without trailing zeros, so that none is stripped. -/
theorem stripZeros_fixedText {z : Decimal} (h : z.Normal) :
    stripZeros z.fixedText = z.fixedText := by
  unfold stripZeros
  split_ifs with hpoint
  swap
  · rfl
  -- a text with a point has a negative exponent
  have hexp : z.exp < 0 := by
    by_contra hexp
    have hdigits : ∀ c ∈ z.fixedText, c ≠ '.' := by
      have hbody : ∀ c ∈ Decimal.fixedBody z.coeff z.exp, c.isDigit = true := by
        intro c hc
        rw [Decimal.fixedBody, if_pos (not_lt.mp hexp)] at hc
        rcases List.mem_append.mp hc with hc | hc
        · exact Json.isDigit_toDigits z.coeff c hc
        · rw [List.eq_of_mem_replicate hc]
          rfl
      intro c hc
      rintro rfl
      unfold Decimal.fixedText at hc
      split_ifs at hc
      · rcases List.mem_cons.mp hc with hc | hc
        · cases hc
        · exact absurd (hbody '.' hc) (by decide)
      · exact absurd (hbody '.' hc) (by decide)
    exact hdigits '.' hpoint rfl
  have hcoeff : z.coeff ≠ 0 := fun h0 => hexp.ne (h.1 h0)
  obtain ⟨cs, hcs⟩ := Decimal.fixedBody_last (c := z.coeff) hexp
  obtain ⟨ds, hds⟩ : ∃ ds, z.fixedText = ds ++ [Nat.digitChar (z.coeff % 10)] := by
    unfold Decimal.fixedText
    rw [hcs]
    split_ifs
    · exact ⟨'-' :: cs, rfl⟩
    · exact ⟨cs, rfl⟩
  have hzero := Decimal.digitChar_ne_zero (h.2 hcoeff)
  have hdot : Nat.digitChar (z.coeff % 10) ≠ '.' := by
    intro heq
    have := Decimal.digitChar_isDigit (Nat.mod_lt z.coeff (by norm_num : 10 > 0))
    rw [heq] at this
    cases this
  -- neither strip finds anything at the end
  have hkeep : ∀ d : Char, Nat.digitChar (z.coeff % 10) ≠ d →
      z.fixedText.rdropWhile (· == d) = z.fixedText := by
    intro d hd
    rw [hds, List.rdropWhile_concat_neg]
    simpa using hd
  rw [hkeep '0' hzero, hkeep '.' hdot]

theorem raised_eq_ok {α : Type} {x : Except Decimal.Signal α} {a : α} :
    raised x = .ok a ↔ x = .ok a := by
  cases x <;> simp [raised]

theorem fixedText_ne_nil (z : Decimal) : z.fixedText ≠ [] := by
  obtain ⟨d, ds, hd, -⟩ := Decimal.fixedBody_head z.coeff z.exp
  unfold Decimal.fixedText
  rw [hd]
  split_ifs <;> simp

/-- The value that is written: the rounded one, without trailing zeros. -/
theorem normalized_spec {v z : Decimal} (h : normalized v = .ok z) :
    z.Normal ∧ ambient.roundValue v.value = some z.value ∧ (z.coeff ≠ 0 → ambient.Result z) := by
  unfold normalized at h
  split_ifs at h with hc
  · obtain ⟨hround, hnormal, hresult⟩ := Context.normalize_spec ambient_range (raised_eq_ok.mp h)
    exact ⟨hnormal, hround, hresult⟩
  · rw [not_not] at hc
    rw [← Except.ok.inj h, (Decimal.value_eq_zero_iff v).mpr hc]
    refine ⟨by simp [Decimal.Normal, Decimal.ofNat], ?_, fun h0 => absurd rfl h0⟩
    rw [Context.roundValue_zero, (Decimal.value_eq_zero_iff (Decimal.ofNat 0)).mpr rfl]

/-- What `format_decimal` writes is the text of the normalized number. -/
theorem formatDecimal_eq_ok {v : Decimal} {text : List Char} (h : formatDecimal v = .ok text) :
    ∃ z, normalized v = .ok z ∧ text = z.fixedText := by
  unfold formatDecimal at h
  obtain ⟨z, hz, htext⟩ := Except.bind_eq_ok_iff.mp h
  refine ⟨z, hz, ?_⟩
  simp only [Except.pure_eq_ok, Except.ok.injEq, stripZeros_fixedText (normalized_spec hz).1]
    at htext
  rw [if_neg (fixedText_ne_nil z)] at htext
  exact htext.symm

/-- **The text of a figure**: the rounded value, in its one spelling without trailing zeros. -/
theorem formatDecimal_spec {v : Decimal} {text : List Char} (h : formatDecimal v = .ok text) :
    ∃ z : Decimal,
    text = z.fixedText ∧ z.Normal ∧ ambient.roundValue v.value = some z.value ∧
    (z.coeff ≠ 0 → ambient.Result z) := by
  obtain ⟨z, hz, htext⟩ := formatDecimal_eq_ok h
  exact ⟨z, htext, normalized_spec hz⟩

/-! ## What a field denotes -/

section Denoted

variable (isWord : Char → Bool)

open Classical in
/-- The number that a match denotes: its digits in full, negative behind a minus sign or in
parentheses. -/
noncomputable def written (m : Numeric.Match) : ℚ :=
  if m.Negative then -Numeric.amount m.body else Numeric.amount m.body

/-- The number that a numeric field denotes and its exponent, that of its own suffix or else the
declared scale. -/
noncomputable def denoted (hint : Option ℤ) (source : Doc) : Option (ℚ × ℤ) :=
  match source with
  | .str text =>
      (Numeric.search isWord [] (Numeric.cleaned text.toList)).bind fun m =>
          m.scale.toOption.map fun scale =>
        (written m, effectiveScale scale hint)
  | d => d.int?.map fun (i : ℤ) => ((i : ℚ), effectiveScale 0 hint)

/-- A field whose text has a sign that the pattern sees. -/
def SignSeen (source : Doc) : Prop :=
  ∃ text m, source = .str text ∧ Numeric.search isWord [] (Numeric.cleaned text.toList) = some m
    ∧ (m.PlainNegative ∨ m.sign = some '+')

/-- A field whose text denotes a negative number that the pattern does not see as one. -/
def SignMissed (source : Doc) : Prop :=
  ∃ text m, source = .str text ∧ Numeric.search isWord [] (Numeric.cleaned text.toList) = some m
    ∧ m.Negative ∧ ¬ m.PlainNegative ∧ Numeric.amount m.body ≠ 0

variable {isWord} {hint : Option ℤ} {source : Doc} {f : Decimal} {s : ℤ}

/-- A minus sign or parentheses that the pattern takes make the amount negative. -/
theorem negative_of_plain {m : Numeric.Match} (h : m.PlainNegative) : m.Negative := by
  have hgap : ∀ {cs : List Char}, Numeric.Blank cs → Numeric.Gap cs := fun {cs} hcs =>
    ⟨cs, [], [], by simp, hcs, fun c hc => absurd hc List.not_mem_nil, Or.inl rfl⟩
  rcases h with ⟨rest, c, gap, hleft, hc, hgap'⟩ | ⟨⟨rest, gap, sign, gap', hleft, h₁, h₂, h₃⟩,
    suffix, gap'', rest', h₄, h₅, h₆⟩
  · exact Or.inl ⟨rest, c, gap, hleft, by simp [List.mem_singleton.mp hc], hgap hgap'⟩
  · exact Or.inr ⟨⟨rest, gap, sign, gap', hleft, hgap h₁, h₂, hgap h₃⟩, suffix, gap'', rest',
      h₄, h₅, hgap h₆⟩

theorem value_ofInt (i : ℤ) : (ofInt i).value = i := by
  rw [ofInt, Decimal.value_eq_signed]
  simp only [Decimal.signed, zpow_zero, mul_one]
  split_ifs with h
  · rw [decide_eq_true_eq] at h
    push_cast
    rw [abs_of_neg (by exact_mod_cast h), neg_neg]
  · rw [decide_eq_true_eq, not_lt] at h
    push_cast
    rw [abs_of_nonneg (by exact_mod_cast h)]

/-- An amount that is neither negated nor missed is written as it stands. -/
theorem written_of_not_missed {m : Numeric.Match}
    (hnot : ¬ (m.Negative ∧ ¬ m.negated = true ∧ Numeric.amount m.body ≠ 0))
    (hneg : ¬ m.negated = true) : written m = Numeric.amount m.body := by
  unfold written
  split_ifs with hnegative
  · have hzero : Numeric.amount m.body = 0 := by
      by_contra hzero
      exact hnot ⟨hnegative, hneg, hzero⟩
    rw [hzero, neg_zero]
  · rfl

/-- **The reading of a field**: the number it denotes, rounded where the pattern saw a sign; a field
whose sign was missed is read as a number that is not negative. -/
theorem readSource_spec {key : String} (h : readSource isWord hint key source = .ok (f, s)) : ∃ v,
    denoted isWord hint source = some (v, s)
      ∧ (SignMissed isWord source → v < 0 ∧ 0 ≤ f.value)
      ∧ (¬ SignMissed isWord source → SignSeen isWord source → ambient.Result f
        ∧ ambient.roundValue v = some f.value)
      ∧ (¬ SignMissed isWord source → ¬ SignSeen isWord source → f.value = v) := by
  unfold readSource at h
  split at h
  next => cases h
  -- a text is read by the pattern
  next text =>
      unfold readText at h
      split at h
      next value scale sign hparse =>
          cases h
          obtain ⟨-, m, -, hm, -⟩ := Numeric.parseNumeric_eq_ok.mp hparse
          obtain ⟨-, hscale, -, hnonneg, hvalue⟩ := Numeric.value_of_parse hparse hm
          have hresult := Numeric.result_of_parse hparse hm
          have hmissed : SignMissed isWord (.str text) ↔ m.Negative ∧ ¬ m.PlainNegative ∧
              Numeric.amount m.body ≠ 0 := by
            constructor
            · rintro ⟨text', m', ⟨⟩, hm', h⟩
              rw [hm] at hm'
              cases hm'
              exact h
            · exact fun h => ⟨text, m, rfl, hm, h⟩
          have hseen : SignSeen isWord (.str text) ↔ m.PlainNegative ∨ m.sign = some '+' := by
            constructor
            · rintro ⟨text', m', ⟨⟩, hm', h⟩
              rw [hm] at hm'
              cases hm'
              exact h
            · exact fun h => ⟨text, m, rfl, hm, h⟩
          have hdenoted :
              denoted isWord hint (.str text) = some (written m, effectiveScale scale hint) := by
            simp [denoted, hm, hscale, Except.toOption]
          refine ⟨_, hdenoted, ?_, ?_, ?_⟩
          · -- the sign was missed: the amount is read without it
            rw [hmissed]
            rintro ⟨hneg, hplain, hzero⟩
            have hpos : 0 < Numeric.amount m.body := lt_of_le_of_ne hnonneg (Ne.symm hzero)
            refine ⟨by rw [written, if_pos hneg]; exact neg_lt_zero.mpr hpos, ?_⟩
            unfold Numeric.signedValue at hvalue
            rw [if_neg (fun h => hplain ((Numeric.negated_iff hm).mp h))] at hvalue
            split_ifs at hvalue
            · exact Context.roundValue_of_nonneg hnonneg hvalue
            · rw [← Option.some.inj hvalue]
              exact hnonneg
          · -- the sign was seen: `abs` and minus round in the ambient context
            rw [hmissed, hseen]
            intro hnot hsign
            rw [← Numeric.negated_iff hm] at hsign hnot
            refine ⟨hresult hsign, ?_⟩
            unfold Numeric.signedValue at hvalue
            split_ifs at hvalue with hneg hplus
            · have hwritten : written m = -Numeric.amount m.body :=
              if_pos (negative_of_plain ((Numeric.negated_iff hm).mp hneg))
              rw [hwritten, Context.roundValue_neg rfl]
              exact hvalue
            · rw [written_of_not_missed hnot hneg]
              exact hvalue
            · exact absurd hsign (not_or.mpr ⟨hneg, hplus⟩)
          · -- no sign: the digits are the value
            rw [hmissed, hseen]
            intro hnot hsign
            rw [← Numeric.negated_iff hm] at hsign hnot
            obtain ⟨hneg, hplus⟩ := not_or.mp hsign
            rw [Numeric.signedValue, if_neg hneg, if_neg hplus] at hvalue
            rw [written_of_not_missed hnot hneg]
            exact (Option.some.inj hvalue).symm
      next => cases h
  -- any other source has no sign to see
  next hnull hstr =>
      split at h
      next i hi =>
          cases h
          have hno : ∀ {P : Numeric.Match → Prop}, ¬ ∃ text m, source = .str text
              ∧ Numeric.search isWord [] (Numeric.cleaned text.toList) = some m ∧ P m := by
            rintro P ⟨text, m, rfl, -⟩
            exact hstr text rfl
          refine ⟨i, ?_, fun hmissed => absurd hmissed hno, fun _ hseen => absurd hseen hno,
            fun _ _ => value_ofInt i⟩
          unfold denoted
          split
          next text => exact absurd rfl (hstr text)
          next => rw [hi]; rfl
      next => cases h

end Denoted

/-! ## Restating and writing a figure -/

/-- A number that the arithmetic holds exactly: at most twenty-eight digits, with an exponent in its
range. -/
def Exact (v : ℚ) : Prop := ambient.roundValue v = some v

/-- A result of the ambient context is a number that the arithmetic holds exactly. -/
theorem exact_value {z : Decimal} (hres : z.coeff ≠ 0 → ambient.Result z) : Exact z.value := by
  by_cases hc : z.coeff = 0
  · rw [(Decimal.value_eq_zero_iff z).mpr hc]
    exact Context.roundValue_zero
  · exact (hres hc).roundValue

/-- A figure on its way from the field to the text. -/
structure Figure (isWord : Char → Bool) (hint : Option ℤ) (source : Doc) (common : ℤ) where
  v : ℚ
  s : ℤ
  f : Decimal
  r : Decimal
  w : ℚ
  denoted_eq : denoted isWord hint source = some (v, s)
  common_le : common ≤ s
  missed : SignMissed isWord source → v < 0 ∧ 0 ≤ f.value
  seen : ¬ SignMissed isWord source → SignSeen isWord source → ambient.Result f ∧
    ambient.roundValue v = some f.value
  plain : ¬ SignMissed isWord source → ¬ SignSeen isWord source → f.value = v
  restate_eq : restate common (f, s) = .ok r
  round_eq : ambient.roundValue r.value = some w
  exact_w : Exact w

/-- The field is read, restated and written without a loss: its sign is not missed, and its number,
where it has a sign also before it is restated, has at most twenty-eight digits. -/
structure Lossless (isWord : Char → Bool) (hint : Option ℤ) (common : ℤ) (source : Doc) : Prop where
  sign : ¬ SignMissed isWord source
  signed : SignSeen isWord source → ∀ v s, denoted isWord hint source = some (v, s) → Exact v
  restated : ∀ v s, denoted isWord hint source = some (v, s) → Exact (v * 10 ^ (s - common))

namespace Figure

variable {isWord : Char → Bool} {hint : Option ℤ} {source : Doc} {common : ℤ}
    (x : Figure isWord hint source common)

/-- The exact number on the common exponent. -/
def exact : ℚ := x.v * 10 ^ (x.s - common)

/-- A figure is restated by a shift unless its exponent is already the common one. -/
theorem restated_cases : (x.s = common ∧ x.r = x.f)
    ∨ (common < x.s ∧ ambient.scaleb x.f (x.s - common) = .ok x.r) := by
  have h := x.restate_eq
  unfold restate at h
  simp only at h
  split_ifs at h with hs
  · have := x.common_le
    exact Or.inr ⟨by omega, raised_eq_ok.mp h⟩
  · exact Or.inl ⟨by omega, (Except.ok.inj h).symm⟩

/-- A field without a loss is restated and written exactly. -/
theorem eq_exact (h : Lossless isWord hint common source) :
    x.r.value = x.exact ∧ x.w = x.exact := by
  have hv : x.f.value = x.v := by
    by_cases hseen : SignSeen isWord source
    · have hround := (x.seen h.sign hseen).2
      rw [h.signed hseen x.v x.s x.denoted_eq] at hround
      exact (Option.some.inj hround).symm
    · exact x.plain h.sign hseen
  have hexact : Exact x.exact := h.restated x.v x.s x.denoted_eq
  have hr : x.r.value = x.exact := by
    rcases x.restated_cases with ⟨hs, hr⟩ | ⟨hs, hr⟩
    · rw [hr, hv, exact, hs, sub_self, zpow_zero, mul_one]
    · have hround := Context.toOption_of_ok (Context.scaleb_value x.f (x.s - common)) hr
      rw [hv] at hround
      exact (Option.some.inj (hround.symm.trans hexact))
  have hw := x.round_eq
  rw [hr, hexact] at hw
  exact ⟨hr, (Option.some.inj hw).symm⟩

/-- The restated value of a field with a sign that was seen. -/
theorem of_seen (hmissed : ¬ SignMissed isWord source) (hseen : SignSeen isWord source) :
    x.r.value = x.f.value * 10 ^ (x.s - common) ∧ x.w = x.r.value := by
  obtain ⟨hres, -⟩ := x.seen hmissed hseen
  rcases x.restated_cases with ⟨hs, hr⟩ | ⟨hs, hr⟩
  · have hw := x.round_eq
    rw [hr] at hw ⊢
    rw [hres.roundValue] at hw
    exact ⟨by rw [hs, sub_self, zpow_zero, mul_one], (Option.some.inj hw).symm⟩
  · have hw := x.round_eq
    rw [(Context.result_of_finalize ambient_range hr).roundValue] at hw
    exact ⟨hres.scaleb (by omega) hr, (Option.some.inj hw).symm⟩

/-- A field that is written exactly was read without a loss. -/
theorem lossless_of_eq (hmissed : ¬ SignMissed isWord source) (hw : x.w = x.exact) :
    Lossless isWord hint common source := by
  have hexact : Exact x.exact := hw ▸ x.exact_w
  have hdenoted : ∀ v s, denoted isWord hint source = some (v, s) → v = x.v ∧ s = x.s := by
    intro v s h
    rw [x.denoted_eq] at h
    cases h
    exact ⟨rfl, rfl⟩
  refine ⟨hmissed, ?_, ?_⟩
  · intro hseen v s h
    obtain ⟨rfl, rfl⟩ := hdenoted v s h
    obtain ⟨hr, hwr⟩ := x.of_seen hmissed hseen
    have hpow : (10 : ℚ) ^ (x.s - common) ≠ 0 := by positivity
    have hf : x.f.value = x.v := mul_right_cancel₀ hpow (hr.symm.trans (hwr.symm.trans hw))
    have hround := (x.seen hmissed hseen).2
    rw [hf] at hround
    exact hround
  · intro v s h
    obtain ⟨rfl, rfl⟩ := hdenoted v s h
    exact hexact

/-- A missed sign leaves a number that is not negative for one that is. -/
theorem of_missed (hmissed : SignMissed isWord source) : x.exact < 0 ∧ 0 ≤ x.r.value ∧ 0 ≤ x.w := by
  obtain ⟨hneg, hpos⟩ := x.missed hmissed
  have hpow : (0 : ℚ) < 10 ^ (x.s - common) := by positivity
  have hr : 0 ≤ x.r.value := by
    rcases x.restated_cases with ⟨-, hr⟩ | ⟨-, hr⟩
    · rw [hr]
      exact hpos
    · exact Context.roundValue_of_nonneg (by positivity)
        (Context.toOption_of_ok (Context.scaleb_value x.f (x.s - common)) hr)
  exact ⟨mul_neg_of_neg_of_pos hneg hpow, hr, Context.roundValue_of_nonneg hr x.round_eq⟩

/-- A field on the common exponent whose number is exact is read without a loss. -/
theorem lossless_of_exact (hmissed : ¬ SignMissed isWord source) (hs : x.s = common)
    (hexact : Exact x.exact) :
    Lossless isWord hint common source := by
  have hv : x.exact = x.v := by rw [exact, hs, sub_self, zpow_zero, mul_one]
  have hdenoted : ∀ v s, denoted isWord hint source = some (v, s) → v = x.v ∧ s = x.s := by
    intro v s h
    rw [x.denoted_eq] at h
    cases h
    exact ⟨rfl, rfl⟩
  refine ⟨hmissed, ?_, ?_⟩
  · intro _ v s h
    obtain ⟨rfl, -⟩ := hdenoted v s h
    rwa [hv] at hexact
  · intro v s h
    obtain ⟨rfl, rfl⟩ := hdenoted v s h
    exact hexact

end Figure

/-- Bounds that are written for each other are equal, and neither has lost anything. -/
theorem lossless_of_cross {isWord : Char → Bool} {hint : Option ℤ} {low high : Doc} {common : ℤ}
    (x : Figure isWord hint low common) (y : Figure isWord hint high common)
    (hx : ¬ SignMissed isWord low)
    (hy : ¬ SignMissed isWord high) (hs : x.s = common) (hxw : x.w = y.exact)
    (hyw : y.w = x.exact) :
    Lossless isWord hint common low ∧ Lossless isWord hint common high := by
  have hlow := x.lossless_of_exact hx hs (hyw ▸ y.exact_w)
  have heq : x.exact = y.exact := (x.eq_exact hlow).2.symm.trans hxw
  exact ⟨hlow, y.lossless_of_eq hy (hyw.trans heq)⟩

/-- The two bounds of a range, as they are written. -/
theorem bounds_eq_iff {isWord : Char → Bool} {hint : Option ℤ} {low high : Doc} {common : ℤ}
    (x : Figure isWord hint low common) (y : Figure isWord hint high common)
    (hcommon : x.s = common ∨ y.s = common)
    {swapped : Prop} (hswapped : swapped ↔ y.r.value < x.r.value ∧ x.r.value < 0) {inverted : Prop}
    (hinverted : inverted ↔ y.exact < x.exact ∧ x.exact < 0) {a b : ℚ}
    (ha : (swapped → a = y.w ∧ b = x.w) ∧ (¬ swapped → a = x.w ∧ b = y.w)) :
    ((inverted → a = y.exact ∧ b = x.exact) ∧ (¬ inverted → a = x.exact ∧ b = y.exact))
      ↔ Lossless isWord hint common low ∧ Lossless isWord hint common high := by
  constructor
  · rintro ⟨hinv, hnot⟩
    -- a bound with a missed sign is never turned around, and never negative
    have hmissed : ¬ SignMissed isWord low ∧ ¬ SignMissed isWord high := by
      constructor
      · intro hlow
        obtain ⟨hneg, hr, hw⟩ := x.of_missed hlow
        obtain ⟨haw, -⟩ := ha.2 fun hs => absurd (hswapped.mp hs).2 (not_lt.mpr hr)
        by_cases hi : inverted
        · linarith [(hinv hi).1, (hinverted.mp hi).1]
        · linarith [(hnot hi).1]
      · intro hhigh
        obtain ⟨hneg, hr, hw⟩ := y.of_missed hhigh
        obtain ⟨-, hbw⟩ := ha.2 fun hs => by linarith [(hswapped.mp hs).1, (hswapped.mp hs).2]
        by_cases hi : inverted
        · linarith [(hinv hi).2, (hinverted.mp hi).2]
        · linarith [(hnot hi).2]
    have hcross : x.w = y.exact → y.w = x.exact → Lossless isWord hint common low ∧
        Lossless isWord hint common high := by
      intro hxw hyw
      rcases hcommon with hs | hs
      · exact lossless_of_cross x y hmissed.1 hmissed.2 hs hxw hyw
      · exact (lossless_of_cross y x hmissed.2 hmissed.1 hs hyw hxw).symm
    by_cases hs : swapped
    · obtain ⟨ha₁, hb₁⟩ := ha.1 hs
      by_cases hi : inverted
      · obtain ⟨ha₂, hb₂⟩ := hinv hi
        exact ⟨x.lossless_of_eq hmissed.1 (hb₁.symm.trans hb₂),
          y.lossless_of_eq hmissed.2 (ha₁.symm.trans ha₂)⟩
      · obtain ⟨ha₂, hb₂⟩ := hnot hi
        exact hcross (hb₁.symm.trans hb₂) (ha₁.symm.trans ha₂)
    · obtain ⟨ha₁, hb₁⟩ := ha.2 hs
      by_cases hi : inverted
      · obtain ⟨ha₂, hb₂⟩ := hinv hi
        exact hcross (ha₁.symm.trans ha₂) (hb₁.symm.trans hb₂)
      · obtain ⟨ha₂, hb₂⟩ := hnot hi
        exact ⟨x.lossless_of_eq hmissed.1 (ha₁.symm.trans ha₂),
          y.lossless_of_eq hmissed.2 (hb₁.symm.trans hb₂)⟩
  · rintro ⟨hlow, hhigh⟩
    obtain ⟨hxr, hxw⟩ := x.eq_exact hlow
    obtain ⟨hyr, hyw⟩ := y.eq_exact hhigh
    have hsame : inverted ↔ swapped := by rw [hinverted, hswapped, hxr, hyr]
    rw [hsame, ← hxw, ← hyw]
    exact ha

/-! ## The fields of the result -/

section Result

variable {repr : Doc → String} {isWord : Char → Bool} {keys : List String}
    {d v : Doc} {key : String}

/-- Blockers are recorded under a key of their own. -/
theorem settled_recordBlockers (h : Doc.Settled key v d) (hkey : key ≠ normalizerBlockersKey)
    (blockers : List String) :
    Doc.Settled key v (recordBlockers repr d blockers) := by
  unfold recordBlockers
  simp only
  split_ifs
  · exact h
  · exact h.set_of_ne hkey

/-- Fields that are not named keep their values. -/
theorem settled_setFields_of_not_mem (h : Doc.Settled key v d) {entries : List (String × Doc)}
    (hkey : key ∉ entries.map Prod.fst) : Doc.Settled key v (setFields d entries) := by
  induction entries generalizing d with
  | nil => exact h
  | cons e entries ih =>
      rw [List.map_cons, List.mem_cons, not_or] at hkey
      exact ih (h.set_of_ne hkey.1) hkey.2

/-- A field that is written once has the value that was written. -/
theorem settled_setFields (h : d.isObj = true) {entries : List (String × Doc)}
    (hnodup : (entries.map Prod.fst).Nodup)
    (hmem : (key, v) ∈ entries) : Doc.Settled key v (setFields d entries) := by
  induction entries generalizing d with
  | nil => exact absurd hmem List.not_mem_nil
  | cons e entries ih =>
      rw [List.map_cons, List.nodup_cons] at hnodup
      rcases List.mem_cons.mp hmem with rfl | hmem
      · exact settled_setFields_of_not_mem (Doc.settled_set h) hnodup.1
      · exact ih (Doc.isObj_set h) hnodup.2 hmem

/-- The stamp writes two keys of its own. -/
theorem settled_stamp (h : Doc.Settled key v d)
    (hkey : key ≠ "reported_or_derived" ∧ key ≠ "_normalizer_version")
    (kind : Doc) : Doc.Settled key v (stamp kind d) := by
  unfold stamp
  refine Doc.Settled.set_of_ne hkey.2 ?_
  split
  · exact h
  · exact h.set_of_ne hkey.1

theorem isObj_withUnit (h : d.isObj = true) (unit : String) (currency : Option String) :
    (withUnit unit currency d).isObj = true := by
  cases currency with
  | none => exact Doc.isObj_set h
  | some code => exact Doc.isObj_set (Doc.isObj_set h)

/-- Ordering the bounds drops none. -/
theorem length_orderBounds (restated : List Decimal) :
    (orderBounds keys restated).length = restated.length := by
  unfold orderBounds
  split
  · split_ifs <;> rfl
  · rfl

namespace NumericRun

variable (r : NumericRun repr isWord keys d)

theorem length_restated : r.restated.length = keys.length :=
  (Except.mapM_eq_ok_iff.mp r.restated_eq).length_eq.symm.trans
  (Except.mapM_eq_ok_iff.mp r.mantissas_eq).length_eq.symm

theorem length_texts : r.texts.length = keys.length := by
  rw [← (Except.mapM_eq_ok_iff.mp r.texts_eq).length_eq, length_orderBounds, r.length_restated]

/-- What no step after the figures writes. -/
theorem settled_result (h : Doc.Settled key v r.figures)
    (hkey : key ≠ "sign" ∧ key ≠ normalizerBlockersKey) :
    Doc.Settled key v r.result := settled_recordBlockers (h.set_of_ne hkey.1) hkey.2 _

theorem isObj_setFields (h : d.isObj = true) (entries : List (String × Doc)) :
    (setFields d entries).isObj = true := by
  induction entries generalizing d with
  | nil => exact h
  | cons e entries ih => exact ih (Doc.isObj_set h)

/-- Each figure stands under its key. -/
theorem settled_figure (hkeys : NumericKeys keys) (hobj : d.isObj = true) {text : List Char}
    (hmem : (key, text) ∈ keys.zip r.texts) :
    Doc.Settled key (.str (String.ofList text)) r.result := by
  have hfigure := hkeys.subset (List.of_mem_zip hmem).1
  have hne : ∀ other, other ∉ ["value", "low", "high"] → key ≠ other :=
    fun other hother heq => hother (heq ▸ hfigure)
  apply r.settled_result _ ⟨hne _ (by simp), hne _ (by simp [normalizerBlockersKey])⟩
  have hentries :
      Doc.Settled key (.str (String.ofList text)) (setFields (withUnit r.unit r.currency.1 d)
      (keys.zip (r.texts.map fun text => Doc.str (String.ofList text)))) := by
    apply settled_setFields (isObj_withUnit hobj _ _)
    · rw [List.map_fst_zip (by rw [List.length_map, r.length_texts])]
      exact hkeys.nodup
    · rw [List.zip_map_right]
      exact List.mem_map.mpr ⟨(key, text), hmem, rfl⟩
  unfold figures withFigures
  simp only
  split_ifs
  · exact hentries.set_of_ne (hne _ (by simp))
  · exact hentries

/-- The shared exponent, unless the declared one was refused. -/
theorem settled_scale (hobj : d.isObj = true) (h : r.blockers = []) :
    Doc.Settled "scale" (.num (toString (commonScale r.mantissas))) r.result := by
  apply r.settled_result _ (by simp [normalizerBlockersKey])
  unfold figures withFigures
  rw [h]
  exact Doc.settled_set (isObj_setFields (isObj_withUnit hobj _ _) _)

end NumericRun

end Result

/-! ## Payloads -/

section Payload

variable (isWord : Char → Bool)

/-- The scale that a payload declares. -/
def declaredScale (p : Doc) : Option ℤ := (p.field "scale").int?

/-- What a numeric field of the payload is read from. -/
def sourceOf (p : Doc) (key : String) : Doc := fieldSource p ((numericKeys p).length = 1) key

/-- The exact magnitude that a numeric field denotes. -/
noncomputable def magnitude (p : Doc) (key : String) : ℚ :=
  ((denoted isWord (declaredScale p) (sourceOf p key)).map fun m => m.1 * (10 : ℚ) ^ m.2).getD 0

/-- The least exponent of the numeric fields. -/
noncomputable def leastScale (p : Doc) : ℤ :=
  commonScale ((numericKeys p).filterMap fun key =>
    denoted isWord (declaredScale p) (sourceOf p key))

/-- A range with its bounds the wrong way round, both of them negative. -/
def Inverted (p : Doc) : Prop :=
  numericKeys p = ["low", "high"] ∧ magnitude isWord p "high" < magnitude isWord p "low" ∧
    magnitude isWord p "low" < 0

/-- The other bound of a range. -/
def otherBound (key : String) : String := if key = "low" then "high" else "low"

/-- The result has the magnitudes of the payload: each figure times its power of ten is what its
field denotes, the bounds of an inverted negative range changing places, and the bounds keep their
order. -/
structure MagnitudesKept (p out : Doc) : Prop where
  figures : ∀ key ∈ numericKeys p, ∃ text scale, out.field key = .str text ∧
    (out.field "scale").int? = some scale
    ∧ (Inverted isWord p → Decimal.readFixed text.toList * (10 : ℚ) ^ scale
      = magnitude isWord p (otherBound key))
    ∧ (¬ Inverted isWord p → Decimal.readFixed text.toList * (10 : ℚ) ^ scale
      = magnitude isWord p key)
  order : numericKeys p = ["low", "high"] → ∀ low high, out.field "low" = .str low →
    out.field "high" = .str high →
    (Decimal.readFixed low.toList ≤ Decimal.readFixed high.toList
      ↔ magnitude isWord p "low" ≤ magnitude isWord p "high" ∨ Inverted isWord p)

/-- The field loses nothing in the payload. -/
def FieldLossless (p : Doc) (key : String) : Prop :=
  Lossless isWord (declaredScale p) (leastScale isWord p) (sourceOf p key)

end Payload

/-- A scale is read back from its text. -/
theorem int?_toString {n : ℕ} : (Doc.num (toString (n : ℤ))).int? = some (n : ℤ) := by
  have htext : (toString (n : ℤ)).toList = Nat.toDigits 10 n := by
    show (Nat.repr n).toList = _
    rw [Nat.repr_eq_ofList_toDigits, String.toList_ofList]
  obtain ⟨c, cs, hcs, hc⟩ := Json.toDigits_head n
  have hdigits : Decimal.digits? (Nat.toDigits 10 n) = some n := by
    rw [Decimal.digits?, if_pos]
    · rw [Nat.ofDigitChars_toDigits (by norm_num) (by norm_num)]
    · exact ⟨by rw [hcs]; exact List.cons_ne_nil c cs,
        List.all_eq_true.mpr (Json.isDigit_toDigits n)⟩
  unfold Doc.int?
  simp only [htext]
  split
  next ds heq =>
      rw [hcs] at heq
      rw [(List.cons.inj heq).1] at hc
      cases hc
  next => rw [hdigits]; rfl

section Payload

variable {repr : Doc → String} {isWord : Char → Bool} {p out : Doc}

/-- The shared normalizer returns an object for an object. -/
theorem isObj_normalizeShared (h : normalizeShared repr p = .ok out) (hobj : p.isObj = true) :
    out.isObj = true := by
  obtain ⟨d₁, d₂, d₃, h₁, h₂, h₃, h₄⟩ := normalizeShared_eq_ok h
  obtain ⟨-, raw, -, rfl⟩ := checkKind_eq_ok h₁
  have o₂ : d₂.isObj = true := by
    rcases setPeriod_eq_ok h₂ with ⟨-, rfl⟩ | ⟨_, _, -, -, rfl⟩
    · exact Doc.isObj_set hobj
    · exact Doc.isObj_set (Doc.isObj_set hobj)
  obtain ⟨_, blockers, -, rfl⟩ := setDimensions_eq_ok h₃
  obtain ⟨_, -, rfl⟩ := setQualifiers_eq_ok h₄
  exact Doc.isObj_set (isObj_recordBlockers blockers (Doc.isObj_set o₂))

/-- An exponent that the normalizer takes. -/
def Plausible (s : ℤ) : Prop := 0 ≤ s ∧ s ≤ 12

/-- No suffix of an amount stands for more than a trillion. -/
theorem scale_le {m : Numeric.Match} {scale : ℕ} (h : m.scale = .ok scale) : scale ≤ 12 := by
  unfold Numeric.Match.scale at h
  split at h
  · rw [← Except.ok.inj h]
    norm_num
  · split at h
    next entry hentry =>
        have hmem := List.mem_of_find?_eq_some hentry
        have hall : ∀ e ∈ Numeric.scaleSuffix, e.2 ≤ 12 := by decide
        rw [← Except.ok.inj h]
        exact hall entry hmem
    next => cases h

/-- A suffix, or else the declared scale, is plausible. -/
theorem plausible_effectiveScale {parsed : ℕ} {hint : Option ℤ} (hparsed : parsed ≤ 12)
    (h : ∀ i, hint = some i → Plausible i) : Plausible (effectiveScale parsed hint) := by
  unfold effectiveScale
  split_ifs
  · exact ⟨by positivity, by exact_mod_cast hparsed⟩
  · cases hint with
    | none => exact ⟨le_rfl, by norm_num⟩
    | some i => exact h i rfl

theorem lt_iff {a b : Decimal} : lt a b = true ↔ a.value < b.value := by
  rw [lt, Bool.not_eq_true', ← Bool.not_eq_true, Decimal.le_iff_value_le, not_le]

/-- A figure, put together. -/
theorem exists_figure {hint : Option ℤ} {source : Doc} {common s : ℤ} {f r : Decimal} {key : String}
    {text : List Char}
    (hread : readSource isWord hint key source = .ok (f, s)) (hle : common ≤ s)
    (hrestate : restate common (f, s) = .ok r)
    (htext : formatDecimal r = .ok text) : ∃ x : Figure isWord hint source common,
      x.s = s ∧ x.r = r ∧ x.w = Decimal.readFixed text := by
  obtain ⟨v, hdenoted, hmissed, hseen, hplain⟩ := readSource_spec hread
  obtain ⟨z, rfl, -, hround, hres⟩ := formatDecimal_spec htext
  rw [Decimal.readFixed_fixedText]
  exact ⟨⟨v, s, f, r, z.value, hdenoted, hle, hmissed, hseen, hplain, hrestate, hround,
    exact_value hres⟩, rfl, rfl, rfl⟩

/-- The common scale depends on the scales only. -/
theorem commonScale_congr {α β : Type} {l : List (α × ℤ)} {l' : List (β × ℤ)}
    (h : l.map Prod.snd = l'.map Prod.snd) :
    commonScale l = commonScale l' := by
  have hfold : ∀ {γ : Type} (l : List (γ × ℤ)) (s : ℤ),
      l.foldl (fun least m => min least m.2) s = (l.map Prod.snd).foldl min s :=
      fun l s => by rw [List.foldl_map]
  cases l with
  | nil =>
      rw [List.map_nil, eq_comm, List.map_eq_nil_iff] at h
      rw [h]
      rfl
  | cons m l =>
      cases l' with
      | nil => cases h
      | cons m' l' =>
          rw [List.map_cons, List.map_cons, List.cons.injEq] at h
          show l.foldl _ m.2 = l'.foldl _ m'.2
          rw [hfold, hfold, h.1, h.2]

/-- The exponents of the fields, as they are read. -/
theorem scales_eq {hint : Option ℤ} {source : String → Doc} {keys : List String}
    {mantissas : List (Decimal × ℤ)}
    (h : List.Forall₂ (fun key m => readSource isWord hint key (source key) = .ok m)
      keys mantissas) :
    (keys.filterMap fun key => denoted isWord hint (source key)).map Prod.snd
    = mantissas.map Prod.snd := by
  induction h with
  | nil => rfl
  | cons hm _ ih =>
      obtain ⟨v, hv, -⟩ := readSource_spec hm
      rw [List.filterMap_cons]
      simp only [hv, List.map_cons, ih]

/-- The least scale of the fields is the common scale that the run computes. -/
theorem leastScale_eq {mantissas : List (Decimal × ℤ)} (h : (numericKeys p).mapM (fun key =>
    readSource isWord (declaredScale p) key (sourceOf p key)) = .ok mantissas) :
    leastScale isWord p = commonScale mantissas :=
  commonScale_congr (scales_eq (Except.mapM_eq_ok_iff.mp h))

/-- A declared scale that passes its check is plausible. -/
theorem plausible_declaredScale (hscale : scaleBlockers (p.field "scale") = .ok []) {i : ℤ}
    (hi : declaredScale p = some i) :
    Plausible i := by
  unfold scaleBlockers at hscale
  unfold declaredScale at hi
  split at hscale
  next hnull =>
      rw [hnull] at hi
      cases hi
  next hd =>
      rw [hi] at hscale
      simp only at hscale
      split_ifs at hscale with hrange
      · split at hscale <;> cases hscale
      · exact ⟨by omega, by omega⟩

/-- A field is read with a plausible exponent. -/
theorem plausible_readSource {hint : Option ℤ} {key : String} {source : Doc} {m : Decimal × ℤ}
    (hhint : ∀ i, hint = some i → Plausible i) (h : readSource isWord hint key source = .ok m) :
    Plausible m.2 := by
  unfold readSource readText at h
  split at h
  · cases h
  · split at h
    next hparse =>
        cases h
        obtain ⟨-, _, _, -, -, -, hscale, -⟩ := Numeric.parseNumeric_eq_ok.mp hparse
        exact plausible_effectiveScale (scale_le hscale) hhint
    next => cases h
  · split at h
    · cases h
      show Plausible (effectiveScale 0 hint)
      exact plausible_effectiveScale (Nat.zero_le 12) hhint
    · cases h

/-- The least of the exponents is one of them, and is at most each of them. -/
theorem commonScale_spec {α : Type} {l : List (α × ℤ)} (h : l ≠ []) :
    (∃ m ∈ l, m.2 = commonScale l) ∧ ∀ m ∈ l, commonScale l ≤ m.2 := by
  cases l with
  | nil => exact absurd rfl h
  | cons m l =>
      show (∃ m' ∈ m :: l, m'.2 = l.foldl _ m.2) ∧ ∀ m' ∈ m :: l, l.foldl _ m.2 ≤ m'.2
      have hfold : ∀ (l : List (α × ℤ)) (s : ℤ), (l.foldl (fun least m => min least m.2) s = s
          ∨ ∃ m ∈ l, m.2 = l.foldl (fun least m => min least m.2) s)
          ∧ l.foldl (fun least m => min least m.2) s ≤ s ∧ ∀ m ∈ l,
            l.foldl (fun least m => min least m.2) s ≤ m.2 := by
        intro l
        induction l with
        | nil => exact fun s => ⟨Or.inl rfl, le_rfl, fun m hm => absurd hm List.not_mem_nil⟩
        | cons m l ih =>
            intro s
            obtain ⟨hmem, hle, hall⟩ := ih (min s m.2)
            rw [List.foldl_cons]
            refine ⟨?_, hle.trans (min_le_left _ _), ?_⟩
            · rcases hmem with heq | ⟨m', hm', heq⟩
              · rcases min_choice s m.2 with hmin | hmin
                · exact Or.inl (heq.trans hmin)
                · exact Or.inr ⟨m, List.mem_cons_self, (heq.trans hmin).symm⟩
              · exact Or.inr ⟨m', List.mem_cons_of_mem m hm', heq⟩
            · intro m' hm'
              rcases List.mem_cons.mp hm' with rfl | hm'
              · exact hle.trans (min_le_right _ _)
              · exact hall m' hm'
      obtain ⟨hmem, hle, hall⟩ := hfold l m.2
      refine ⟨?_, ?_⟩
      · rcases hmem with heq | ⟨m', hm', heq⟩
        · exact ⟨m, List.mem_cons_self, heq.symm⟩
        · exact ⟨m', List.mem_cons_of_mem m hm', heq⟩
      · intro m' hm'
        rcases List.mem_cons.mp hm' with rfl | hm'
        · exact hle
        · exact hall m' hm'

/-- The common scale of the fields is plausible. -/
theorem plausible_commonScale {hint : Option ℤ} (hhint : ∀ i, hint = some i → Plausible i)
    {keys : List String}
    {source : String → Doc} {mantissas : List (Decimal × ℤ)}
    (h : keys.mapM (fun key => readSource isWord hint key (source key)) = .ok mantissas) :
    Plausible (commonScale mantissas) := by
  by_cases hnil : mantissas = []
  · rw [hnil]
    exact ⟨le_rfl, by decide⟩
  · obtain ⟨m, hm, heq⟩ := (commonScale_spec hnil).1
    obtain ⟨key, -, hkey⟩ := mem_of_forall₂_left (Except.mapM_eq_ok_iff.mp h) hm
    rw [← heq]
    exact plausible_readSource hhint hkey

/-- A payload with figures has one of them or two bounds. -/
theorem numericKeys_forms (h : numericKeys p ≠ []) :
    (∃ key, numericKeys p = [key]) ∨ numericKeys p = ["low", "high"] := by
  rcases numericKeys_cases h with ⟨-, hkeys⟩ | ⟨-, shape, -, hfind⟩
  · exact Or.inl ⟨"value", hkeys⟩
  · have hmem := List.mem_of_find?_eq_some hfind
    simp only [shapeKeys, List.mem_cons, List.not_mem_nil, or_false, Prod.mk.injEq] at hmem
    rcases hmem with ⟨-, hk⟩ | ⟨-, hk⟩ | ⟨-, hk⟩ | ⟨-, hk⟩
    · exact Or.inl ⟨_, hk⟩
    · exact Or.inr hk
    · exact Or.inl ⟨_, hk⟩
    · exact Or.inl ⟨_, hk⟩

/-- The magnitude of a field is the number it denotes at its exponent. -/
theorem magnitude_eq {key : String} {v : ℚ} {s : ℤ}
    (h : denoted isWord (declaredScale p) (sourceOf p key) = some (v, s)) :
    magnitude isWord p key = v * 10 ^ s := by
  rw [magnitude, h]
  rfl

/-- The magnitude of a field, on the shared exponent. -/
theorem Figure.magnitude_eq {key : String} {common : ℤ}
    (x : Figure isWord (declaredScale p) (sourceOf p key) common) :
    magnitude isWord p key = x.exact * 10 ^ common := by
  rw [Normalize.magnitude_eq x.denoted_eq, Figure.exact, mul_assoc, ← zpow_add₀ (by norm_num),
    sub_add_cancel]

/-- Numbers at one exponent are compared without it. -/
theorem mul_zpow_inj {a b : ℚ} {e : ℤ} : a * 10 ^ e = b * 10 ^ e ↔ a = b :=
  ⟨fun h => mul_right_cancel₀ (by positivity) h, fun h => by rw [h]⟩

theorem mul_zpow_lt {a b : ℚ} {e : ℤ} : a * 10 ^ e < b * 10 ^ e ↔ a < b :=
  mul_lt_mul_iff_left₀ (by positivity)

/-- A payload with one figure. -/
theorem kept_iff_of_single {key : String} (hkey : numericKeys p = [key]) {common : ℤ}
    (x : Figure isWord (declaredScale p) (sourceOf p key) common)
    (hleast : leastScale isWord p = common) {text : String}
    (htext : out.field key = .str text) (hscale : (out.field "scale").int? = some common)
    (hw : x.w = Decimal.readFixed text.toList) (hs : x.s = common) :
    MagnitudesKept isWord p out ↔ ∀ key ∈ numericKeys p, FieldLossless isWord p key := by
  have hinv : ¬ Inverted isWord p := fun hinv => absurd (hkey.symm.trans hinv.1) (by simp)
  rw [hkey]
  simp only [List.mem_singleton, forall_eq, FieldLossless, hleast]
  constructor
  · rintro ⟨hfigures, -⟩
    obtain ⟨text', scale', htext', hscale', -, hkept⟩ :=
      hfigures key (by rw [hkey]; exact List.mem_singleton_self key)
    rw [htext] at htext'
    rw [hscale] at hscale'
    cases htext'
    cases hscale'
    have heq := hkept hinv
    rw [x.magnitude_eq, ← hw, mul_zpow_inj] at heq
    refine x.lossless_of_eq ?_ heq
    intro hmissed
    obtain ⟨hneg, -, hpos⟩ := x.of_missed hmissed
    linarith
  · intro hlossless
    refine ⟨?_, fun hrange => absurd (hkey.symm.trans hrange) (by simp)⟩
    intro key' hmem
    rw [hkey, List.mem_singleton] at hmem
    subst hmem
    refine ⟨text, common, htext, hscale, fun h => absurd h hinv, fun _ => ?_⟩
    rw [x.magnitude_eq, ← hw, (x.eq_exact hlossless).2]

/-- A payload with a range. -/
theorem kept_iff_of_range (hkeys : numericKeys p = ["low", "high"]) {common : ℤ}
    (x : Figure isWord (declaredScale p) (sourceOf p "low") common)
    (y : Figure isWord (declaredScale p) (sourceOf p "high") common)
    (hcommon : x.s = common ∨ y.s = common)
    (hleast : leastScale isWord p = common) {low high : String} (hlow : out.field "low" = .str low)
    (hhigh : out.field "high" = .str high) (hscale : (out.field "scale").int? = some common)
    (hbounds : (y.r.value < x.r.value ∧ x.r.value < 0 → Decimal.readFixed low.toList = y.w ∧
      Decimal.readFixed high.toList = x.w)
      ∧ (¬ (y.r.value < x.r.value ∧ x.r.value < 0) → Decimal.readFixed low.toList = x.w
        ∧ Decimal.readFixed high.toList = y.w)) :
    MagnitudesKept isWord p out ↔ ∀ key ∈ numericKeys p, FieldLossless isWord p key := by
  -- the rounded and the exact bounds are inverted together
  have hinverted : Inverted isWord p ↔ y.exact < x.exact ∧ x.exact < 0 := by
    have hzero : (0 : ℚ) = 0 * 10 ^ common := by rw [zero_mul]
    unfold Inverted
    rw [x.magnitude_eq, y.magnitude_eq, mul_zpow_lt]
    nth_rewrite 1 [hzero]
    rw [mul_zpow_lt]
    exact ⟨fun h => h.2, fun h => ⟨hkeys, h⟩⟩
  have hiff := bounds_eq_iff x y hcommon Iff.rfl hinverted hbounds
  have hall : (∀ key ∈ numericKeys p, FieldLossless isWord p key)
      ↔ Lossless isWord (declaredScale p) common (sourceOf p "low") ∧
        Lossless isWord (declaredScale p) common (sourceOf p "high") := by
    rw [hkeys]
    simp [FieldLossless, hleast]
  rw [hall, ← hiff]
  constructor
  · -- both bounds of the output are the exact ones, in the order that they take
    rintro ⟨hfigures, -⟩
    obtain ⟨text₁, scale₁, ht₁, hs₁, hi₁, hn₁⟩ := hfigures "low" (by rw [hkeys]; simp)
    obtain ⟨text₂, scale₂, ht₂, hs₂, hi₂, hn₂⟩ := hfigures "high" (by rw [hkeys]; simp)
    rw [hlow] at ht₁
    rw [hhigh] at ht₂
    rw [hscale] at hs₁ hs₂
    cases ht₁
    cases ht₂
    cases hs₁
    cases hs₂
    refine ⟨fun hi => ⟨?_, ?_⟩, fun hn => ⟨?_, ?_⟩⟩
    · have heq := hi₁ hi
      rwa [show otherBound "low" = "high" from rfl, y.magnitude_eq, mul_zpow_inj] at heq
    · have heq := hi₂ hi
      rwa [show otherBound "high" = "low" from rfl, x.magnitude_eq, mul_zpow_inj] at heq
    · have heq := hn₁ hn
      rwa [x.magnitude_eq, mul_zpow_inj] at heq
    · have heq := hn₂ hn
      rwa [y.magnitude_eq, mul_zpow_inj] at heq
  · -- the output has the exact bounds, and they stay ordered
    rintro ⟨hi, hn⟩
    refine ⟨?_, ?_⟩
    · intro key hkey
      rw [hkeys, List.mem_cons, List.mem_singleton] at hkey
      rcases hkey with rfl | rfl
      · refine ⟨low, common, hlow, hscale, fun h => ?_, fun h => ?_⟩
        · rw [show otherBound "low" = "high" from rfl, y.magnitude_eq, (hi h).1]
        · rw [x.magnitude_eq, (hn h).1]
      · refine ⟨high, common, hhigh, hscale, fun h => ?_, fun h => ?_⟩
        · rw [show otherBound "high" = "low" from rfl, x.magnitude_eq, (hi h).2]
        · rw [y.magnitude_eq, (hn h).2]
    · intro _ low' high' hlow' hhigh'
      rw [hlow] at hlow'
      rw [hhigh] at hhigh'
      cases hlow'
      cases hhigh'
      rw [x.magnitude_eq, y.magnitude_eq, mul_le_mul_iff_left₀ (by positivity)]
      by_cases h : Inverted isWord p
      · obtain ⟨hl, hh⟩ := hi h
        rw [hl, hh]
        exact ⟨fun _ => Or.inr h, fun _ => (hinverted.mp h).1.le⟩
      · obtain ⟨hl, hh⟩ := hn h
        rw [hl, hh]
        exact ⟨Or.inl, fun h' => h'.resolve_right h⟩

/-- A payload without figures. -/
theorem kept_iff_of_no_figures (hkeys : numericKeys p = []) :
    MagnitudesKept isWord p out ↔ ∀ key ∈ numericKeys p, FieldLossless isWord p key := by
  rw [hkeys]
  refine ⟨fun _ key hkey => absurd hkey List.not_mem_nil, fun _ => ⟨?_, ?_⟩⟩
  · rw [hkeys]
    exact fun key hkey => absurd hkey List.not_mem_nil
  · rw [hkeys]
    exact fun hrange => absurd hrange (by simp)

/-- What a result holds of the figures of its payload: they are read, restated at the common scale,
put in order and written in place of the fields. -/
structure FiguresWritten (isWord : Char → Bool) (p out : Doc) (mantissas : List (Decimal × ℤ))
    (restated : List Decimal) (texts : List (List Char)) : Prop where
  read :
    List.Forall₂ (fun key m => readSource isWord (declaredScale p) key (sourceOf p key) = .ok m)
    (numericKeys p) mantissas
  restate_eq : List.Forall₂ (fun m d => restate (commonScale mantissas) m = .ok d)
    mantissas restated
  format_eq : List.Forall₂ (fun d text => formatDecimal d = .ok text)
    (orderBounds (numericKeys p) restated) texts
  least : leastScale isWord p = commonScale mantissas
  field : ∀ {key text}, (key, text) ∈ (numericKeys p).zip texts →
    out.field key = .str (String.ofList text)
  scale : (out.field "scale").int? = some (commonScale mantissas)

/-- The shared normalizer leaves the fields of the figures as they are. -/
theorem readField_shared {shared : Doc} (hkeys : NumericKeys (numericKeys p))
    (hagree : Doc.Agree (["schema_version"] ++ sharedKeys) p shared) {key : String}
    (hkey : key ∈ numericKeys p) :
    readField isWord shared ((numericKeys p).length = 1) (declaredScale p) key
      = readSource isWord (declaredScale p) key (sourceOf p key) := by
  have hfigure := hkeys.subset hkey
  have hne : key ∉ ["schema_version"] ++ sharedKeys := by
    intro hmem
    simp only [sharedKeys, normalizerBlockersKey, List.mem_append, List.mem_cons,
      List.not_mem_nil, or_false] at hmem hfigure
    rcases hfigure with rfl | rfl | rfl <;> simp at hmem
  have hraw : "raw_value" ∉ ["schema_version"] ++ sharedKeys := by
    simp [sharedKeys, normalizerBlockersKey]
  exact readField_congr hagree hne hraw

/-- A run writes the figures of its payload, where the declared scale is not refused. -/
theorem figuresWritten_of_run {shared : Doc} (hkeys : numericKeys p ≠ [])
    (hscale : scaleBlockers (p.field "scale") = .ok [])
    (hshared : normalizeShared repr (Doc.set "schema_version" (.str "extraction-payload/v1") p)
      = .ok shared)
    (r : NumericRun repr isWord (numericKeys p) shared) :
    FiguresWritten isWord p (stamp (p.field "kind") r.result) r.mantissas r.restated r.texts := by
  have hnumeric := numericKeys_ok hkeys
  have hobj : p.isObj = true := by
    cases p with
    | obj members => rfl
    | _ => exact absurd rfl hkeys
  have hobj' := isObj_normalizeShared hshared (Doc.isObj_set hobj)
  have hagree := agree_schema.trans (agree_normalizeShared hshared)
  have hfield : shared.field "scale" = p.field "scale" :=
    hagree.field (by simp [sharedKeys, normalizerBlockersKey])
  have hblockers : r.blockers = [] := by
    have := r.blockers_eq
    rw [hfield, hscale] at this
    exact (Except.ok.inj this).symm
  have hmantissas :
      (numericKeys p).mapM (fun key => readSource isWord (declaredScale p) key (sourceOf p key))
      = .ok r.mantissas := by
    rw [← r.mantissas_eq, hfield, hblockers]
    exact Except.mapM_congr fun key hkey => (readField_shared hnumeric hagree hkey).symm
  refine ⟨Except.mapM_eq_ok_iff.mp hmantissas, Except.mapM_eq_ok_iff.mp r.restated_eq,
    Except.mapM_eq_ok_iff.mp r.texts_eq, leastScale_eq hmantissas, fun {key text} hmem => ?_, ?_⟩
  · have hfigure := hnumeric.subset (List.of_mem_zip hmem).1
    refine (settled_stamp (r.settled_figure hnumeric hobj' hmem) ?_ _).field
    simp only [List.mem_cons, List.not_mem_nil, or_false] at hfigure
    rcases hfigure with rfl | rfl | rfl <;> simp
  · rw [(settled_stamp (r.settled_scale hobj' hblockers) (by simp) _).field]
    obtain ⟨n, hn⟩ := Int.eq_ofNat_of_zero_le
      (plausible_commonScale (fun i hi => plausible_declaredScale hscale hi) hmantissas).1
    rw [hn]
    exact int?_toString

section Written

variable {mantissas : List (Decimal × ℤ)} {restated : List Decimal} {texts : List (List Char)}

/-- The one figure of a payload is written without a loss or not. -/
theorem FiguresWritten.kept_iff_of_single (h : FiguresWritten isWord p out mantissas restated texts)
    {key : String} (hkey : numericKeys p = [key]) :
    MagnitudesKept isWord p out ↔ ∀ key ∈ numericKeys p, FieldLossless isWord p key := by
  obtain ⟨hread, hrestated, htexts, hleast, hfield, hcommon⟩ := h
  rw [hkey] at hread
  obtain ⟨⟨f, s⟩, _, hm, hms, rfl⟩ := List.forall₂_cons_left_iff.mp hread
  obtain rfl := List.forall₂_nil_left_iff.mp hms
  obtain ⟨d, _, hd, hds, rfl⟩ := List.forall₂_cons_left_iff.mp hrestated
  obtain rfl := List.forall₂_nil_left_iff.mp hds
  obtain ⟨text, _, ht, hts, rfl⟩ := List.forall₂_cons_left_iff.mp htexts
  obtain rfl := List.forall₂_nil_left_iff.mp hts
  obtain ⟨x, hxs, -, hxw⟩ := exists_figure hm le_rfl hd ht
  refine Normalize.kept_iff_of_single hkey x hleast (hfield ?_) hcommon
    (by rw [hxw, String.toList_ofList]) hxs
  rw [hkey]
  exact List.mem_singleton_self _

/-- One of two exponents is the common one. -/
theorem commonScale_pair (f f' : Decimal) (s s' : ℤ) :
    s = commonScale [(f, s), (f', s')] ∨ s' = commonScale [(f, s), (f', s')] := by
  obtain ⟨⟨m, hm, heq⟩, -⟩ := commonScale_spec (List.cons_ne_nil (f, s) [(f', s')])
  rw [List.mem_cons, List.mem_singleton] at hm
  rcases hm with rfl | rfl
  · exact Or.inl heq
  · exact Or.inr heq

/-- Two bounds have two texts. -/
theorem texts_of_pair {a b : Decimal}
    (h : List.Forall₂ (fun d text => formatDecimal d = .ok text) [a, b] texts) :
    ∃ t t', texts = [t, t'] ∧ formatDecimal a = .ok t ∧ formatDecimal b = .ok t' := by
  obtain ⟨t, _, ht, hts, rfl⟩ := List.forall₂_cons_left_iff.mp h
  obtain ⟨t', _, ht', hts', rfl⟩ := List.forall₂_cons_left_iff.mp hts
  obtain rfl := List.forall₂_nil_left_iff.mp hts'
  exact ⟨t, t', rfl, ht, ht'⟩

/-- The bounds of a range are written without a loss, each in its own place or, where they are
inverted and negative, in that of the other one. -/
theorem FiguresWritten.kept_iff_of_range (h : FiguresWritten isWord p out mantissas restated texts)
    (hkeys : numericKeys p = ["low", "high"]) :
    MagnitudesKept isWord p out ↔ ∀ key ∈ numericKeys p, FieldLossless isWord p key := by
  obtain ⟨hread, hrestated, htexts, hleast, hfield, hscale⟩ := h
  rw [hkeys] at hread
  obtain ⟨⟨f, s⟩, _, hm, hms, rfl⟩ := List.forall₂_cons_left_iff.mp hread
  obtain ⟨⟨f', s'⟩, _, hm', hms', rfl⟩ := List.forall₂_cons_left_iff.mp hms
  obtain rfl := List.forall₂_nil_left_iff.mp hms'
  obtain ⟨d, _, hd, hds, rfl⟩ := List.forall₂_cons_left_iff.mp hrestated
  obtain ⟨d', _, hd', hds', rfl⟩ := List.forall₂_cons_left_iff.mp hds
  obtain rfl := List.forall₂_nil_left_iff.mp hds'
  have hle := (commonScale_spec (List.cons_ne_nil (f, s) [(f', s')])).2
  have hles := hle (f, s) (by simp)
  have hles' := hle (f', s') (by simp)
  have hcommon := commonScale_pair f f' s s'
  have hzero : (Decimal.ofNat 0).value = 0 := (Decimal.value_eq_zero_iff _).mpr rfl
  -- the texts come in the order of the bounds
  simp only [orderBounds, hkeys, true_and, lt_iff, hzero] at htexts
  split_ifs at htexts with hswap
  · obtain ⟨t, t', rfl, ht, ht'⟩ := texts_of_pair htexts
    obtain ⟨x, hxs, hxr, hxw⟩ := exists_figure hm hles hd ht'
    obtain ⟨y, hys, hyr, hyw⟩ := exists_figure hm' hles' hd' ht
    have hlow := hfield (show ("low", t) ∈ (numericKeys p).zip [t, t'] by rw [hkeys]; simp)
    have hhigh := hfield (show ("high", t') ∈ (numericKeys p).zip [t, t'] by rw [hkeys]; simp)
    refine Normalize.kept_iff_of_range hkeys x y (by rw [hxs, hys]; exact hcommon) hleast hlow hhigh
      hscale ⟨fun _ => ?_, fun hno => absurd ?_ hno⟩
    · rw [String.toList_ofList, String.toList_ofList]
      exact ⟨hyw.symm, hxw.symm⟩
    · rw [hxr, hyr]
      exact hswap
  · obtain ⟨t, t', rfl, ht, ht'⟩ := texts_of_pair htexts
    obtain ⟨x, hxs, hxr, hxw⟩ := exists_figure hm hles hd ht
    obtain ⟨y, hys, hyr, hyw⟩ := exists_figure hm' hles' hd' ht'
    have hlow := hfield (show ("low", t) ∈ (numericKeys p).zip [t, t'] by rw [hkeys]; simp)
    have hhigh := hfield (show ("high", t') ∈ (numericKeys p).zip [t, t'] by rw [hkeys]; simp)
    refine Normalize.kept_iff_of_range hkeys x y (by rw [hxs, hys]; exact hcommon) hleast hlow hhigh
      hscale ⟨fun hyes => absurd ?_ hswap, fun _ => ?_⟩
    · rw [hxr, hyr] at hyes
      exact hyes
    · rw [String.toList_ofList, String.toList_ofList]
      exact ⟨hxw.symm, hyw.symm⟩

end Written

/-- **Magnitudes.**  For a payload that `normalize_payload` accepts and whose declared scale it does
not refuse, the result has the magnitudes of the payload exactly when no field has a sign that the
pattern misses or a number that the arithmetic does not hold in full. -/
theorem magnitudes_preserved_iff (repr : Doc → String) (isWord : Char → Bool) (p out : Doc)
    (h : normalizePayload repr isWord p = .ok out)
    (hscale : scaleBlockers (p.field "scale") = .ok []) :
    MagnitudesKept isWord p out ↔ ∀ key ∈ numericKeys p, FieldLossless isWord p key := by
  by_cases hkeys : numericKeys p = []
  · exact kept_iff_of_no_figures hkeys
  · obtain ⟨shared, hshared, r, rfl⟩ := (normalizePayload_numeric hkeys).mp h
    have hwritten := figuresWritten_of_run hkeys hscale hshared r
    rcases numericKeys_forms hkeys with ⟨key, hkey⟩ | hrange
    · exact hwritten.kept_iff_of_single hkey
    · exact hwritten.kept_iff_of_range hrange

end Payload

/-- A figure of its own, with nothing else to normalize. -/
def kpiPayload (value : String) : Doc :=
  .obj [("kind", .str "kpi"), ("raw_value", .str value), ("unit", .str "USD"),
    ("currency", .str "USD"),
    ("value", .str value)]

/-- Two losses in accounting parentheses, of one scale each, the smaller one first. -/
def lossRange : Doc :=
  .obj [("kind", .str "guidance"), ("shape", .str "range"),
    ("raw_value", .str "a loss of 1.5 million to 2,500 thousand"), ("low", .str "(1.5 million)"),
    ("high", .str "$(2,500 thousand)"), ("unit", .str "USD"), ("currency", .str "USD")]

/-- What `normalize_payload` makes of them: thousands, in order. -/
def lossResult : Doc :=
  .obj [("kind", .str "guidance"), ("shape", .str "range"),
    ("raw_value", .str "a loss of 1.5 million to 2,500 thousand"), ("low", .str "-2500"),
    ("high", .str "-1500"), ("unit", .str "USD"), ("currency", .str "USD"),
    ("schema_version", .str "extraction-payload/v1"), ("dimensions", .obj []),
    ("qualifiers", .obj []),
    ("scale", .num "3"), ("sign", .str "negative"),
    ("reported_or_derived", .str "management_assertion"),
    ("_normalizer_version", .str "normalize/v2")]

theorem normalizePayload_lossRange :
    normalizePayload (fun _ => "") Numeric.asciiWord lossRange = .ok lossResult := rfl

theorem magnitudes_preserved_iff_lossRange :
    MagnitudesKept Numeric.asciiWord lossRange lossResult
      ↔ ∀ key ∈ ["low", "high"], FieldLossless Numeric.asciiWord lossRange key :=
  magnitudes_preserved_iff (fun _ => "") Numeric.asciiWord lossRange lossResult
    normalizePayload_lossRange rfl

/-- One more than ten to the twenty-eighth, as matched. -/
def longMatch : Numeric.Match :=
  ⟨[], false, [], none, [], '1' :: (List.replicate 27 '0' ++ ['1']), none, none, none, []⟩

theorem longMatch_not_negative : ¬ longMatch.Negative := by
  rintro (⟨rest, c, gap, hleft, -, -⟩ | ⟨⟨rest, gap, sign, gap', hleft, -⟩, -⟩)
  · exact absurd hleft.symm (by simp [Numeric.Match.left, Numeric.Match.lead, longMatch])
  · exact absurd hleft.symm (by simp [Numeric.Match.left, Numeric.Match.lead, longMatch])

/-- The text of a figure and the scale, as they come out. -/
def figureOf (key : String) (out : Doc) : Option String × Option ℤ :=
  (out.strAt key, (out.field "scale").int?)

theorem field_of_strAt {d : Doc} {key s : String} (h : d.strAt key = some s) :
    d.field key = .str s := by
  unfold Doc.strAt at h
  split at h
  next s' hget =>
      cases h
      rw [Doc.field, hget]
      rfl
  next => cases h

def longPayload : Doc := kpiPayload "10000000000000000000000000001"

/-- The figure of the long payload is one more than ten to the twenty-eighth. -/
theorem longPayload_denotes : magnitude Numeric.asciiWord longPayload "value" = 10 ^ 28 + 1 := by
  have hsearch :
      Numeric.search Numeric.asciiWord [] (Numeric.cleaned "10000000000000000000000000001".toList)
      = some longMatch := by decide
  have hdenoted : denoted Numeric.asciiWord none (.str "10000000000000000000000000001")
      = some (written longMatch, 0) := by
    simp only [denoted, hsearch, Option.bind_some]
    rfl
  have hdigits : Nat.ofDigitChars 10 ((longMatch.body.filter (· != ',')).map Decimal.asciiDigit) 0
      = 10 ^ 28 + 1 := by
    decide
  have hplaces :
      (((longMatch.body.filter (· != ',')).map Decimal.asciiDigit).dropWhile (· ≠ '.')).length - 1
      = 0 := by
    decide
  have hpoint : ((longMatch.body.filter (· != ',')).map Decimal.asciiDigit).filter (· ≠ '.')
      = (longMatch.body.filter (· != ',')).map Decimal.asciiDigit := by decide
  rw [magnitude_eq hdenoted, written, if_neg longMatch_not_negative, Numeric.amount,
    Decimal.readBody, hpoint, hdigits, hplaces]
  norm_num

/-- A figure of twenty-nine digits loses its last one. -/
theorem longFigure_rounded :
    ∃ out, normalizePayload (fun _ => "") Numeric.asciiWord longPayload = .ok out
    ∧ scaleBlockers (longPayload.field "scale") = .ok []
    ∧ ¬ MagnitudesKept Numeric.asciiWord longPayload out := by
  have hview :
      (normalizePayload (fun _ => "") Numeric.asciiWord longPayload).toOption.map (figureOf "value")
      = some (some "10000000000000000000000000000", some 0) := by decide
  cases hrun : normalizePayload (fun _ => "") Numeric.asciiWord longPayload with
  | error f =>
      rw [hrun] at hview
      cases hview
  | ok out =>
      rw [hrun] at hview
      obtain ⟨hvalue, hscale⟩ := Prod.mk.inj (Option.some.inj hview)
      refine ⟨out, rfl, rfl, ?_⟩
      rintro ⟨hfigures, -⟩
      obtain ⟨text, scale, htext, hscale', -, hkept⟩ := hfigures "value" (by decide)
      rw [field_of_strAt hvalue] at htext
      rw [hscale] at hscale'
      cases htext
      cases hscale'
      have heq := hkept fun h => absurd h.1 (by decide)
      have hread : Decimal.readFixed "10000000000000000000000000000".toList = 10 ^ 28 := by
        have hdigits :
            Nat.ofDigitChars 10 ("10000000000000000000000000000".toList.filter (· ≠ '.')) 0
              = 10 ^ 28 := by
          decide
        have hplaces : ("10000000000000000000000000000".toList.dropWhile (· ≠ '.')).length - 1
          = 0 := by decide
        show Decimal.readBody "10000000000000000000000000000".toList = 10 ^ 28
        rw [Decimal.readBody, hdigits, hplaces]
        norm_num
      rw [hread, longPayload_denotes] at heq
      norm_num at heq

end Normalize

end Extraction
