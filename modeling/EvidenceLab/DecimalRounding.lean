/-
# Rounding and normalizing

What a context does to a number: rounding half to even respects the order, a result is not rounded
again, and `normalize` returns the one spelling of the rounded value that has no trailing zeros.
-/
import EvidenceLab.DecimalText
import EvidenceLab.HalfEven

namespace Decimal

namespace Context

variable {ctx : Context}

theorem roundValue_zero : ctx.roundValue 0 = some 0 := by
  rw [roundValue, if_pos rfl]

theorem roundMagnitude_nonneg (v : ℚ) : 0 ≤ ctx.roundMagnitude v := by
  rw [roundMagnitude]
  positivity

/-- Rounding keeps numbers that are not negative so. -/
theorem roundValue_of_nonneg {v w : ℚ} (hv : 0 ≤ v) (h : ctx.roundValue v = some w) : 0 ≤ w := by
  unfold roundValue at h
  split_ifs at h with hzero hover hneg
  · exact (Option.some.inj h).le
  · exact absurd hneg (not_lt.mpr hv)
  · rw [← Option.some.inj h]
    exact roundMagnitude_nonneg v

/-- Rounding keeps numbers that are not positive so. -/
theorem roundValue_of_nonpos {v w : ℚ} (hv : v ≤ 0) (h : ctx.roundValue v = some w) : w ≤ 0 := by
  unfold roundValue at h
  split_ifs at h with hzero hover hneg
  · exact (Option.some.inj h).ge
  · rw [← Option.some.inj h]
    exact neg_nonpos.mpr (roundMagnitude_nonneg v)
  · exact absurd (lt_of_le_of_ne hv hzero) hneg

/-! ## Results -/

/-- A result that its context holds. -/
structure Result (ctx : Context) (a : Decimal) : Prop where
  digits : numDigits a.coeff ≤ ctx.prec
  etiny_le : ctx.etiny ≤ a.exp
  abs_lt : |a.value| < (10 : ℚ) ^ (ctx.emax + 1)

/-- What is finalized is a result of the context. -/
theorem result_of_finalize (hrange : ctx.etiny ≤ ctx.emax) {neg : Bool} {n : ℕ}
    {x ideal : ℤ} {a : Decimal}
    (h : ctx.finalize neg n 1 x ideal = .ok a) : Result ctx a :=
  ⟨ctx.finalize_numDigits Nat.one_pos h, (ctx.finalize_range hrange Nat.one_pos h).1,
    (ctx.finalize_range hrange Nat.one_pos h).2⟩

/-- A result is not rounded again. -/
theorem Result.roundValue {a : Decimal} (h : Result ctx a) :
    ctx.roundValue a.value = some a.value :=
  ctx.roundValue_of_fits h.digits h.etiny_le h.abs_lt

/-- The opposite of a result is one. -/
theorem Result.copyNegate {a : Decimal} (h : Result ctx a) : Result ctx a.copyNegate :=
  ⟨h.digits, h.etiny_le, by rw [value_copyNegate, abs_neg]; exact h.abs_lt⟩

/-- A computation with a value returned it. -/
theorem exists_of_toOption {x : Except Signal Decimal} {w : ℚ} (h : x.toOption.map value = some w) :
    ∃ r, x = .ok r ∧ r.value = w := by
  cases x with
  | error s => cases h
  | ok r => exact ⟨r, rfl, Option.some.inj h⟩

theorem toOption_of_ok {x : Except Signal Decimal} {r : Decimal} {o : Option ℚ}
    (h : x.toOption.map value = o)
    (hx : x = .ok r) : o = some r.value := by
  rw [← h, hx]
  rfl

/-- A shifted operand, rounded. -/
theorem scaleb_value (a : Decimal) (n : ℤ) :
    (ctx.scaleb a n).toOption.map Decimal.value = ctx.roundValue (a.value * 10 ^ n) := by
  rw [scaleb, ctx.finalize_value _ _ Nat.one_pos]
  congr 1
  unfold exact Decimal.value
  rw [zpow_add₀ (by norm_num)]
  simp only [Nat.cast_one, div_one]
  ring

/-- An operand of few enough digits is rounded to itself or overflows. -/
theorem roundValue_eq_self {a : Decimal} (hd : numDigits a.coeff ≤ ctx.prec)
    (hexp : ctx.etiny ≤ a.exp) {w : ℚ}
    (h : ctx.roundValue a.value = some w) : w = a.value := by
  by_cases hzero : a.value = 0
  · rw [hzero, roundValue_zero] at h
    rw [hzero, ← Option.some.inj h]
  · have hcoeff : a.coeff ≠ 0 := fun h0 => hzero ((value_eq_zero_iff a).mpr h0)
    rw [Context.roundValue, if_neg hzero, ctx.roundMagnitude_of_fits hcoeff hd hexp] at h
    split_ifs at h with hover hneg
    · rw [← Option.some.inj h, abs_of_neg hneg, neg_neg]
    · rw [← Option.some.inj h, abs_of_nonneg (not_lt.mp hneg)]

/-- A result shifted to the left is exact. -/
theorem Result.scaleb {a r : Decimal} (ha : Result ctx a) {n : ℤ} (hn : 0 ≤ n)
    (h : ctx.scaleb a n = .ok r) :
    r.value = a.value * 10 ^ n := by
  have hround := toOption_of_ok (scaleb_value a n) h
  have hvalue : (⟨a.neg, a.coeff, a.exp + n⟩ : Decimal).value = a.value * 10 ^ n := by
    simp only [Decimal.value]
    rw [zpow_add₀ (by norm_num)]
    ring
  have hexp : ctx.etiny ≤ (⟨a.neg, a.coeff, a.exp + n⟩ : Decimal).exp := by
    have := ha.etiny_le
    simp only
    omega
  rw [← hvalue] at hround ⊢
  exact roundValue_eq_self (a := ⟨a.neg, a.coeff, a.exp + n⟩) ha.digits hexp hround

/-! ## Order -/

/-- Larger numbers have higher last places. -/
theorem lastPlace_mono {x y : ℚ} (hx : 0 < x) (hxy : x ≤ y) :
    ctx.lastPlace x ≤ ctx.lastPlace y := by
  unfold lastPlace
  rw [abs_of_pos hx, abs_of_pos (hx.trans_le hxy)]
  have := Int.log_mono_right (b := 10) hx hxy
  omega

/-- **Rounding respects the order** of positive numbers. -/
theorem roundValue_mono_of_pos (hmode : ctx.rounding = .halfEven) {x y w z : ℚ}
    (hx : 0 < x) (hxy : x ≤ y)
    (hw : ctx.roundValue x = some w) (hz : ctx.roundValue y = some z) : w ≤ z := by
  have hy : 0 < y := hx.trans_le hxy
  have hnx := roundValue_nearestEven hmode hx hw
  have hny := roundValue_nearestEven hmode hy hz
  rcases (ctx.lastPlace_mono hx hxy).eq_or_lt with heq | hlt
  · rw [← heq] at hny
    exact hnx.mono (by positivity) hny hxy
  · -- a power of ten lies between the two numbers, on the grids of both
    have hlog : Int.log 10 x < Int.log 10 y := by
      unfold lastPlace at hlt
      rw [abs_of_pos hx, abs_of_pos hy] at hlt
      omega
    have hplace : ctx.lastPlace y = Int.log 10 y - (ctx.prec - 1) := by
      unfold lastPlace at hlt ⊢
      rw [abs_of_pos hx, abs_of_pos hy] at hlt
      rw [abs_of_pos hy]
      omega
    have hprec := ctx.prec_pos
    have hgrid : ∀ e : ℤ, e ≤ Int.log 10 y →
        ∃ k : ℤ, (10 : ℚ) ^ Int.log 10 y = k * (10 : ℚ) ^ e := by
      intro e he
      refine ⟨(10 : ℤ) ^ (Int.log 10 y - e).toNat, ?_⟩
      push_cast
      rw [← zpow_natCast, Int.toNat_of_nonneg (by omega), ← zpow_add₀ (by norm_num), sub_add_cancel]
    obtain ⟨k, hk⟩ := hgrid (ctx.lastPlace x) (by omega)
    obtain ⟨l, hl⟩ := hgrid (ctx.lastPlace y) (by omega)
    have hbelow : x ≤ (10 : ℚ) ^ Int.log 10 y := by
      have := Int.lt_zpow_succ_log_self (b := 10) (by norm_num) x
      refine this.le.trans ?_
      exact_mod_cast zpow_le_zpow_right₀ (a := (10 : ℚ)) (by norm_num) (by omega)
    have habove : (10 : ℚ) ^ Int.log 10 y ≤ y := by
      exact_mod_cast Int.zpow_log_le_self (b := 10) (by norm_num) hy
    calc w ≤ (10 : ℚ) ^ Int.log 10 y := by
          rw [hk] at hbelow ⊢
          exact hnx.mono (by positivity) (nearestEven_multiple (by positivity) k) hbelow
      _ ≤ z := by
          rw [hl] at habove ⊢
          exact (nearestEven_multiple (by positivity) l).mono (by positivity) hny habove

/-- Rounding to even does not depend on the sign. -/
theorem roundValue_neg (hmode : ctx.rounding = .halfEven) (v : ℚ) :
    ctx.roundValue (-v) = (ctx.roundValue v).map (- ·) := by
  have hmag : ctx.roundMagnitude (-v) = ctx.roundMagnitude v := by
    unfold roundMagnitude lastPlace
    rw [abs_neg, hmode]
    rfl
  unfold roundValue
  rw [hmag]
  rcases lt_trichotomy v 0 with hv | rfl | hv
  · simp only [neg_eq_zero, hv.ne, if_false, neg_neg_iff_pos, not_lt.mpr hv.le, hv, if_true]
    split_ifs <;> simp
  · simp
  · simp only [neg_eq_zero, hv.ne', if_false, neg_neg_iff_pos, hv, not_lt.mpr hv.le, if_true]
    split_ifs <;> simp

/-- **Rounding respects the order.** -/
theorem roundValue_mono (hmode : ctx.rounding = .halfEven) {x y w z : ℚ} (hxy : x ≤ y)
    (hw : ctx.roundValue x = some w) (hz : ctx.roundValue y = some z) : w ≤ z := by
  rcases lt_trichotomy x 0 with hx | rfl | hx
  · rcases lt_or_ge y 0 with hy | hy
    · have hw' : ctx.roundValue (-x) = some (-w) := by rw [roundValue_neg hmode, hw]; rfl
      have hz' : ctx.roundValue (-y) = some (-z) := by rw [roundValue_neg hmode, hz]; rfl
      have := roundValue_mono_of_pos hmode (neg_pos.mpr hy) (neg_le_neg hxy) hz' hw'
      linarith
    · exact (roundValue_of_nonpos hx.le hw).trans (roundValue_of_nonneg hy hz)
  · rw [roundValue_zero] at hw
    rw [← Option.some.inj hw]
    exact roundValue_of_nonneg hxy hz
  · exact roundValue_mono_of_pos hmode hx hxy hw hz

/-! ## Normalizing -/

/-- **The normalized operand**: the rounded value, without trailing zeros. -/
theorem normalize_spec (hrange : ctx.etiny ≤ ctx.emax) {a r : Decimal}
    (h : ctx.normalize a = .ok r) :
    ctx.roundValue a.value = some r.value ∧ r.Normal ∧ (r.coeff ≠ 0 → Result ctx r) := by
  unfold normalize at h
  cases hp : ctx.plus a with
  | error s =>
      rw [hp] at h
      cases h
  | ok p =>
      rw [hp] at h
      have hround := toOption_of_ok (ctx.plus_value a) hp
      have hres := result_of_finalize hrange hp
      simp only [bind, Except.bind, pure, Except.pure] at h
      by_cases hc : p.coeff = 0
      · rw [if_pos hc, Except.ok.injEq] at h
        subst h
        refine ⟨?_, by simp [Normal], fun h0 => absurd rfl h0⟩
        rw [hround, (value_eq_zero_iff p).mpr hc, (value_eq_zero_iff ⟨p.neg, 0, 0⟩).mpr rfl]
      · rw [if_neg hc, Except.ok.injEq] at h
        subst h
        have hpos : 0 < p.coeff := Nat.pos_of_ne_zero hc
        have hlt : p.coeff < 10 ^ ctx.prec := (numDigits_le_iff ctx.prec_pos).mp hres.digits
        obtain ⟨hval, hle, hexp⟩ := dropZeros_spec ctx.prec p.coeff p.exp ctx.emax
        have hzpos := dropZeros_pos ctx.prec p.exp ctx.emax hpos
        have hstop := dropZeros_stops ctx.prec p.coeff p.exp ctx.emax hpos hlt
        set z := dropZeros ctx.prec p.coeff p.exp ctx.emax with hz
        have hvalue : (⟨p.neg, z.1, z.2⟩ : Decimal).value = p.value := by
          simp only [Decimal.value, mul_assoc]
          rw [hval]
        have habs : |(⟨p.neg, z.1, z.2⟩ : Decimal).value| < (10 : ℚ) ^ (ctx.emax + 1) := by
          rw [hvalue]
          exact hres.abs_lt
        refine ⟨by rw [hround, hvalue], ⟨fun h0 => absurd h0 hzpos.ne', fun _ => ?_⟩,
          fun _ => ⟨?_, ?_, habs⟩⟩
        · rcases hstop with hmod | hmax
          · exact hmod
          · -- at the largest exponent the number has one digit
            rw [abs_value_eq_coeff] at habs
            simp only at habs
            have hten : (10 : ℚ) ^ ctx.emax ≤ 10 ^ z.2 := zpow_le_zpow_right₀ (by norm_num) hmax
            have hpow : (0 : ℚ) < 10 ^ ctx.emax := by positivity
            rw [zpow_add₀ (by norm_num), zpow_one] at habs
            have hsmall : (z.1 : ℚ) < 10 := by
              by_contra hge
              rw [not_lt] at hge
              nlinarith
            have hlast : z.1 < 10 := by exact_mod_cast hsmall
            show z.1 % 10 ≠ 0
            omega
        · exact (numDigits_le_iff ctx.prec_pos).mpr (lt_of_le_of_lt hle hlt)
        · have := hres.etiny_le
          simp only
          omega

/-- A number that rounds is normalized to what it rounds to. -/
theorem normalize_of_roundValue {a : Decimal} {w : ℚ} (hrange : ctx.etiny ≤ ctx.emax)
    (h : ctx.roundValue a.value = some w) :
    ∃ r, ctx.normalize a = .ok r ∧ r.value = w := by
  obtain ⟨p, hp, -⟩ := exists_of_toOption ((ctx.plus_value a).trans h)
  have hok : ∃ r, ctx.normalize a = .ok r := by
    unfold normalize
    rw [hp]
    simp only [bind, Except.bind, pure, Except.pure]
    split_ifs
    · exact ⟨_, rfl⟩
    · exact ⟨_, rfl⟩
  obtain ⟨r, hr⟩ := hok
  refine ⟨r, hr, ?_⟩
  have := (normalize_spec hrange hr).1
  rw [h] at this
  exact (Option.some.inj this).symm

end Context

end Decimal
