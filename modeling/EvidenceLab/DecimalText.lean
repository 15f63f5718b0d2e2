/-
# Fixed-point text of a decimal and its normal form

`Decimal.fixedText` is the plain notation without an exponent part (`0.05`, `1200`), and
`Decimal.readFixed` the number such a text denotes: `readFixed_fixedText` says the text
determines the value.  `Decimal.Normal` singles out one spelling for every number, without
trailing zeros; two normal spellings of one number are equal (`Normal.eq_of_value_eq`), and
`Context.normalize` reaches the normal one as long as the number fits the context.
-/
import EvidenceLab.DecimalArith
import EvidenceLab.JsonText

namespace Decimal

/-! ## Fixed-point notation -/

/-- The digits of the coefficient, with enough leading zeros for `k` places. -/
def paddedDigits (c k : ℕ) : List Char :=
  List.replicate (k + 1 - (Nat.toDigits 10 c).length) '0' ++ Nat.toDigits 10 c

/-- The notation of the magnitude: zeros appended, or a point inserted. -/
def fixedBody (c : ℕ) (e : ℤ) : List Char :=
  if 0 ≤ e then Nat.toDigits 10 c ++ List.replicate e.toNat '0'
  else
    let ps := paddedDigits c (-e).toNat
    ps.take (ps.length - (-e).toNat) ++ '.' :: ps.drop (ps.length - (-e).toNat)

/-- Fixed-point notation, as produced by the format code `f`. -/
def fixedText (a : Decimal) : List Char :=
  if a.neg then '-' :: fixedBody a.coeff a.exp else fixedBody a.coeff a.exp

/-- The number denoted by digits with at most one point. -/
def readBody (cs : List Char) : ℚ :=
  (Nat.ofDigitChars 10 (cs.filter (· ≠ '.')) 0 : ℚ)
    / 10 ^ ((cs.dropWhile (· ≠ '.')).length - 1)

/-- The number denoted by a fixed-point text. -/
def readFixed : List Char → ℚ
  | '-' :: cs => -readBody cs
  | cs => readBody cs

theorem filter_point_of_digits {cs : List Char} (h : ∀ c ∈ cs, c.isDigit = true) :
    cs.filter (· ≠ '.') = cs ∧ cs.dropWhile (· ≠ '.') = [] := by
  have hne : ∀ c ∈ cs, decide (c ≠ '.') = true := by
    intro c hc
    rw [decide_eq_true_iff]
    rintro rfl
    exact absurd (h '.' hc) (by decide)
  exact ⟨List.filter_eq_self.mpr hne, List.dropWhile_eq_nil_iff.mpr hne⟩

theorem paddedDigits_digits (c k : ℕ) : ∀ d ∈ paddedDigits c k, d.isDigit = true := by
  intro d hd
  rw [paddedDigits, List.mem_append] at hd
  rcases hd with hd | hd
  · rw [List.eq_of_mem_replicate hd]
    decide
  · exact Json.isDigit_toDigits c d hd

theorem length_paddedDigits (c k : ℕ) : k + 1 ≤ (paddedDigits c k).length := by
  rw [paddedDigits, List.length_append, List.length_replicate]
  omega

/-- Padding keeps the number. -/
theorem ofDigitChars_paddedDigits (c k : ℕ) : Nat.ofDigitChars 10 (paddedDigits c k) 0 = c := by
  rw [paddedDigits, Nat.ofDigitChars_append, Nat.ofDigitChars_replicate_zero, Nat.mul_zero,
    Nat.ofDigitChars_ten_toDigits]

/-- **The digits are read back** as their value. -/
theorem readBody_fixedBody (c : ℕ) (e : ℤ) :
    readBody (fixedBody c e) = (c : ℚ) * (10 : ℚ) ^ e := by
  unfold fixedBody
  split_ifs with he
  · have hdig : ∀ d ∈ Nat.toDigits 10 c ++ List.replicate e.toNat '0', d.isDigit = true := by
      intro d hd
      rcases List.mem_append.mp hd with hd | hd
      · exact Json.isDigit_toDigits c d hd
      · rw [List.eq_of_mem_replicate hd]
        decide
    obtain ⟨hf, hd⟩ := filter_point_of_digits hdig
    rw [readBody, hf, hd, Nat.ofDigitChars_append, Nat.ofDigitChars_ten_toDigits,
      Nat.ofDigitChars_replicate_zero]
    push_cast
    rw [← zpow_natCast, Int.toNat_of_nonneg he]
    simp [mul_comm]
  · simp only
    set k := (-e).toNat with hk
    set ps := paddedDigits c k with hps
    have hlen : k + 1 ≤ ps.length := length_paddedDigits c k
    have hall := paddedDigits_digits c k
    rw [← hps] at hall
    obtain ⟨hf1, hd1⟩ := filter_point_of_digits
      (fun d hd => hall d (List.mem_of_mem_take hd) : ∀ d ∈ ps.take (ps.length - k), _)
    obtain ⟨hf2, -⟩ := filter_point_of_digits
      (fun d hd => hall d (List.mem_of_mem_drop hd) : ∀ d ∈ ps.drop (ps.length - k), _)
    have hpoint : (ps.take (ps.length - k) ++ '.' :: ps.drop (ps.length - k)).dropWhile (· ≠ '.')
        = '.' :: ps.drop (ps.length - k) := by
      rw [List.dropWhile_append, hd1]
      simp
    have hfilter : (ps.take (ps.length - k) ++ '.' :: ps.drop (ps.length - k)).filter (· ≠ '.')
        = ps := by
      rw [List.filter_append, hf1, List.filter_cons_of_neg (by simp), hf2, List.take_append_drop]
    have hplaces : (ps.drop (ps.length - k)).length = k := by
      rw [List.length_drop]
      omega
    rw [readBody, hpoint, hfilter, List.length_cons, Nat.add_sub_cancel, hplaces, hps,
      ofDigitChars_paddedDigits]
    have hpow : (10 : ℚ) ^ e = (10 ^ k)⁻¹ := by
      rw [← zpow_natCast, hk, Int.toNat_of_nonneg (by omega), zpow_neg, inv_inv]
    rw [hpow, div_eq_mul_inv]

/-- A fixed-point magnitude starts with a digit. -/
theorem fixedBody_head (c : ℕ) (e : ℤ) : ∃ d ds, fixedBody c e = d :: ds ∧ d.isDigit = true := by
  unfold fixedBody
  split_ifs with he
  · obtain ⟨d, ds, hd, hdig⟩ := Json.toDigits_head c
    exact ⟨d, _, by rw [hd, List.cons_append], hdig⟩
  · simp only
    set k := (-e).toNat
    have hlen := length_paddedDigits c k
    have hall := paddedDigits_digits c k
    cases hps : paddedDigits c k with
    | nil =>
        rw [hps, List.length_nil] at hlen
        omega
    | cons d ds =>
        rw [hps] at hlen hall
        obtain ⟨m, hm⟩ : ∃ m, (d :: ds).length - k = m + 1 := ⟨(d :: ds).length - k - 1, by omega⟩
        rw [hm, List.take_succ_cons, List.cons_append]
        exact ⟨d, _, rfl, hall d List.mem_cons_self⟩

/-- **The fixed-point text determines the value.** -/
theorem readFixed_fixedText (a : Decimal) : readFixed (fixedText a) = a.value := by
  unfold fixedText
  cases hneg : a.neg with
  | true =>
      simp only [if_true]
      rw [readFixed, readBody_fixedBody, value, hneg]
      simp
  | false =>
      obtain ⟨d, ds, hd, hdig⟩ := fixedBody_head a.coeff a.exp
      have hread : readFixed (fixedBody a.coeff a.exp) = readBody (fixedBody a.coeff a.exp) := by
        rw [hd]
        unfold readFixed
        split
        · rename_i heq
          rw [(List.cons.inj heq).1] at hdig
          exact absurd hdig (by decide)
        · rfl
      simp only [Bool.false_eq_true, if_false]
      rw [hread, readBody_fixedBody, value, hneg]
      simp

/-! ## Normal spellings -/

/-- The spelling without trailing zeros; zero is spelled with exponent zero. -/
def Normal (a : Decimal) : Prop :=
  (a.coeff = 0 → a.exp = 0) ∧ (a.coeff ≠ 0 → a.coeff % 10 ≠ 0)

/-- A value has one form without trailing zeros. -/
theorem coeff_exp_unique {c c' : ℕ} {e e' : ℤ} (hc : c % 10 ≠ 0) (hc' : c' % 10 ≠ 0)
    (h : (c : ℚ) * (10 : ℚ) ^ e = (c' : ℚ) * (10 : ℚ) ^ e') : c = c' ∧ e = e' := by
  -- the larger exponent would put a trailing zero on the other side
  have key : ∀ {c c' : ℕ} {e e' : ℤ}, c % 10 ≠ 0 → e < e' →
      (c : ℚ) * (10 : ℚ) ^ e ≠ (c' : ℚ) * (10 : ℚ) ^ e' := by
    intro c c' e e' hc hlt heq
    obtain ⟨k, hk⟩ : ∃ k : ℕ, e' = e + ((k + 1 : ℕ) : ℤ) := ⟨(e' - e - 1).toNat, by omega⟩
    rw [hk, zpow_add₀ (by norm_num), zpow_natCast, ← mul_assoc, mul_right_comm] at heq
    have h10 : (10 : ℚ) ^ e ≠ 0 := by positivity
    have hmul := mul_right_cancel₀ h10 heq
    have hnat : c = c' * 10 ^ (k + 1) := by exact_mod_cast hmul
    exact hc (by rw [hnat, pow_succ, ← mul_assoc, Nat.mul_mod_left])
  rcases lt_trichotomy e e' with hlt | heq | hgt
  · exact absurd h (key hc hlt)
  · subst heq
    have h10 : (10 : ℚ) ^ e ≠ 0 := by positivity
    exact ⟨by exact_mod_cast mul_right_cancel₀ h10 h, rfl⟩
  · exact absurd h.symm (key hc' hgt)

/-- Two normal spellings of one nonzero number are equal. -/
theorem Normal.eq_of_value_eq {a b : Decimal} (ha : a.Normal) (hb : b.Normal)
    (h : a.value = b.value) (hne : a.value ≠ 0) : a = b := by
  have hac : a.coeff ≠ 0 := fun h0 => hne ((value_eq_zero_iff a).mpr h0)
  have hbc : b.coeff ≠ 0 := fun h0 => hne (h.trans ((value_eq_zero_iff b).mpr h0))
  have habs : |a.value| = |b.value| := by rw [h]
  rw [abs_value_eq_coeff, abs_value_eq_coeff] at habs
  obtain ⟨hc, he⟩ := coeff_exp_unique (ha.2 hac) (hb.2 hbc) habs
  have hneg : a.neg = b.neg := by
    rw [Bool.eq_iff_iff, ← Context.value_neg_iff hac, ← Context.value_neg_iff hbc, h]
  obtain ⟨an, ac, ae⟩ := a
  obtain ⟨bn, bc, be⟩ := b
  simp only at hc he hneg
  rw [hc, he, hneg]

/-- With enough fuel, dropping zeros stops at a nonzero last digit or at the ideal exponent. -/
theorem dropZeros_stops : ∀ (fuel c : ℕ) (e ideal : ℤ), 0 < c → c < 10 ^ fuel →
    (dropZeros fuel c e ideal).1 % 10 ≠ 0 ∨ ideal ≤ (dropZeros fuel c e ideal).2
  | 0, c, e, ideal, hpos, hlt => by
      rw [pow_zero] at hlt
      omega
  | fuel + 1, c, e, ideal, hpos, hlt => by
      rw [dropZeros]
      split_ifs with h
      · apply dropZeros_stops fuel (c / 10) (e + 1) ideal
        · omega
        · rw [pow_succ] at hlt
          omega
      · by_cases he : e < ideal
        · exact Or.inl (fun h0 => h ⟨he, h0⟩)
        · exact Or.inr (not_lt.mp he)

theorem dropZeros_pos : ∀ (fuel : ℕ) {c : ℕ} (e ideal : ℤ), 0 < c →
    0 < (dropZeros fuel c e ideal).1
  | 0, c, e, ideal, hpos => hpos
  | fuel + 1, c, e, ideal, hpos => by
      rw [dropZeros]
      split_ifs with h
      · exact dropZeros_pos fuel (e + 1) ideal (by omega)
      · exact hpos

/-- A decimal whose digits and exponent a context holds, with room above. -/
structure Context.Holds (ctx : Context) (a : Decimal) : Prop where
  digits : numDigits a.coeff ≤ ctx.prec
  etiny_le : ctx.etiny ≤ a.exp
  below : a.exp + ctx.prec ≤ ctx.emax

theorem Context.Holds.abs_lt {ctx : Context} {a : Decimal} (h : ctx.Holds a) :
    |a.value| < (10 : ℚ) ^ ctx.emax := by
  rw [abs_value_eq_coeff]
  have hc : (a.coeff : ℚ) < (10 : ℚ) ^ (ctx.prec : ℤ) := by
    rw [zpow_natCast]
    exact_mod_cast (numDigits_le_iff ctx.prec_pos).mp h.digits
  calc (a.coeff : ℚ) * (10 : ℚ) ^ a.exp < (10 : ℚ) ^ (ctx.prec : ℤ) * (10 : ℚ) ^ a.exp := by
        gcongr
    _ = (10 : ℚ) ^ ((ctx.prec : ℤ) + a.exp) := (zpow_add₀ (by norm_num) _ _).symm
    _ ≤ (10 : ℚ) ^ ctx.emax := zpow_le_zpow_right₀ (by norm_num) (by have := h.below; omega)

/-- **Normalization** keeps the value of a decimal the context holds and returns its normal
spelling. -/
theorem Context.normalize_of_holds {ctx : Context} {a : Decimal} (h : ctx.Holds a) :
    ∃ r, ctx.normalize a = .ok r ∧ r.value = a.value ∧ r.Normal := by
  have hmax : |a.value| < (10 : ℚ) ^ (ctx.emax + 1) :=
    lt_trans h.abs_lt (zpow_lt_zpow_right₀ (by norm_num) (by omega))
  have hplus := ctx.plus_value a
  rw [ctx.roundValue_of_fits h.digits h.etiny_le hmax] at hplus
  cases hp : ctx.plus a with
  | error s =>
      rw [hp] at hplus
      simp [Except.toOption] at hplus
  | ok r =>
      rw [hp] at hplus
      simp only [Except.toOption, Option.map_some, Option.some.injEq] at hplus
      unfold Context.normalize
      simp only [hp, bind, Except.bind, pure, Except.pure]
      by_cases hr : r.coeff = 0
      · refine ⟨_, if_pos hr, ?_, ?_⟩
        · rw [← hplus, (value_eq_zero_iff r).mpr hr]
          simp [value]
        · simp [Normal]
      · have hrpos : 0 < r.coeff := Nat.pos_of_ne_zero hr
        obtain ⟨hval, hle, hexp⟩ := dropZeros_spec ctx.prec r.coeff r.exp ctx.emax
        have hzpos := dropZeros_pos ctx.prec r.exp ctx.emax hrpos
        have hlt : r.coeff < 10 ^ ctx.prec :=
          (numDigits_le_iff ctx.prec_pos).mp (ctx.plus_numDigits hp)
        refine ⟨_, if_neg hr, ?_, ?_⟩
        · rw [← hplus, value, value, mul_assoc, mul_assoc, hval]
        · refine ⟨fun h0 => absurd h0 hzpos.ne', fun _ => ?_⟩
          rcases dropZeros_stops ctx.prec r.coeff r.exp ctx.emax hrpos hlt with hz | hz
          · exact hz
          · -- an exponent as large as `emax` would make the number too large
            exfalso
            have hmag := h.abs_lt
            rw [← hplus, abs_value_eq_coeff, ← hval] at hmag
            have h1 : (1 : ℚ) ≤ (dropZeros ctx.prec r.coeff r.exp ctx.emax).1 := by
              exact_mod_cast hzpos
            have h2 : (10 : ℚ) ^ ctx.emax
                ≤ (10 : ℚ) ^ (dropZeros ctx.prec r.coeff r.exp ctx.emax).2 :=
              zpow_le_zpow_right₀ (by norm_num) hz
            have h3 : (0 : ℚ) < (10 : ℚ) ^ ctx.emax := by positivity
            nlinarith

end Decimal
