/-
# Rounding half to even

`NearestEven q v r` says that `r` is the multiple of `q` nearest to `v`, the even one of two.  It
holds of one `r` for every `v` and respects the order.  Rounding to a fine grid first and to a
coarse one afterwards is harmless for numbers that keep their distance from the ties of the coarse
grid (`NearestEven.trans`), which fractions with a small denominator do (`eq_of_near`).
-/
import EvidenceLab.DecimalArith

namespace Decimal

/-! ## The nearest multiple -/

/-- The multiple of `q` nearest to `v`, the even one of two. -/
def NearestEven (q v r : ℚ) : Prop :=
  ∃ k : ℤ, r = k * q ∧ |r - v| ≤ q / 2 ∧ (|r - v| = q / 2 → Even k)

section Nearest

variable {p q v v' w r r' : ℚ}

/-- **Rounding respects the order.** -/
theorem NearestEven.mono (hq : 0 < q) (h : NearestEven q v r) (h' : NearestEven q v' r')
    (hv : v ≤ v') :
    r ≤ r' := by
  obtain ⟨k, rfl, hle, heven⟩ := h
  obtain ⟨k', rfl, hle', heven'⟩ := h'
  by_contra hlt
  rw [not_le] at hlt
  have hk : k' + 1 ≤ k := by
    have : (k' : ℚ) < k := lt_of_mul_lt_mul_right hlt hq.le
    exact_mod_cast this
  have hstep : (k' + 1 : ℚ) * q ≤ k * q := by
    have hcast : (k' + 1 : ℚ) ≤ k := by exact_mod_cast hk
    gcongr
  rw [abs_le] at hle hle'
  -- both numbers are the tie between the two neighbours
  have htie : |(k : ℚ) * q - v| = q / 2 := by
    rw [abs_of_nonneg (by linarith)]
    linarith
  have htie' : |(k' : ℚ) * q - v'| = q / 2 := by
    rw [abs_of_nonpos (by linarith)]
    linarith
  have hnext : k = k' + 1 := by
    have hmul : (k : ℚ) * q = (k' + 1) * q := by linarith
    have hcast : (k : ℚ) = k' + 1 := mul_right_cancel₀ hq.ne' hmul
    exact_mod_cast hcast
  have hk_even := heven htie
  rw [hnext, Int.even_add_one] at hk_even
  exact hk_even (heven' htie')

theorem NearestEven.unique (hq : 0 < q) (h : NearestEven q v r) (h' : NearestEven q v r') :
    r = r' :=
  le_antisymm (h.mono hq h' le_rfl) (h'.mono hq h le_rfl)

/-- A multiple is its own nearest. -/
theorem nearestEven_multiple (hq : 0 < q) (k : ℤ) : NearestEven q (k * q) (k * q) := by
  refine ⟨k, rfl, ?_, fun h => ?_⟩
  · rw [sub_self, abs_zero]
    positivity
  · rw [sub_self, abs_zero] at h
    exact absurd h (by positivity)

/-- **Rounding twice**: when the ties of the coarse grid lie on the fine one, and `v` is a tie as
soon as it is half a fine step from it, the detour over the fine grid changes nothing. -/
theorem NearestEven.trans (hp : 0 < p) (hfine : ∃ m : ℤ, q / 2 = m * p)
    (hties : ∀ k : ℤ, |v - (2 * k + 1) * (q / 2)| ≤ p / 2 → v = (2 * k + 1) * (q / 2))
    (h : NearestEven p v w) (h' : NearestEven q w r) : NearestEven q v r := by
  obtain ⟨k, rfl, hle, heven⟩ := h'
  have hw : |w - v| ≤ p / 2 := by
    obtain ⟨_, -, hw, -⟩ := h
    exact hw
  rw [abs_le] at hw hle
  -- beyond the ties around `k * q` the fine rounding could not have come back
  have hbelow : v ≤ k * q + q / 2 := by
    by_contra hlt
    rw [not_le] at hlt
    have htie := hties k (by rw [abs_of_nonneg] <;> linarith)
    linarith
  have habove : k * q - q / 2 ≤ v := by
    by_contra hlt
    rw [not_le] at hlt
    have hcast : ((k - 1 : ℤ) : ℚ) = k - 1 := by push_cast; ring
    have htie := hties (k - 1) (by rw [abs_of_nonpos] <;> rw [hcast] <;> linarith)
    rw [hcast] at htie
    linarith
  refine ⟨k, rfl, by rw [abs_le]; constructor <;> linarith, fun heq => heven ?_⟩
  -- a tie lies on the fine grid and is kept there
  obtain ⟨m, hm⟩ := hfine
  have hgrid : ∃ j : ℤ, v = j * p := by
    rcases abs_cases ((k : ℚ) * q - v) with ⟨habs, -⟩ | ⟨habs, -⟩
    · refine ⟨(2 * k - 1) * m, ?_⟩
      push_cast
      linear_combination heq.symm.trans habs + (2 * k - 1) * hm
    · refine ⟨(2 * k + 1) * m, ?_⟩
      push_cast
      linear_combination (2 * k + 1) * hm - heq.symm.trans habs
  obtain ⟨j, rfl⟩ := hgrid
  rw [h.unique hp (nearestEven_multiple hp j)]
  exact heq

/-- Fractions that are closer than their denominators allow are equal. -/
theorem eq_of_near {D M : ℕ} (hD : 0 < D) (hM : 0 < M) {z c : ℤ}
    (h : |(z : ℚ) / D - c / M| < 1 / (D * M)) : (z : ℚ) / D = c / M := by
  have hD' : (0 : ℚ) < D := by exact_mod_cast hD
  have hM' : (0 : ℚ) < M := by exact_mod_cast hM
  have hdist : (z : ℚ) / D - c / M = ((z * M - c * D : ℤ) : ℚ) / (D * M) := by
    push_cast
    field_simp
  rw [hdist, abs_div, abs_of_pos (by positivity : (0 : ℚ) < D * M),
    div_lt_div_iff_of_pos_right (by positivity)]
    at h
  have hlt : |z * M - c * D| < 1 := by exact_mod_cast h
  have hzero : z * M - c * D = 0 := Int.abs_lt_one_iff.mp hlt
  rw [hzero, Int.cast_zero, zero_div, sub_eq_zero] at hdist
  exact hdist

end Nearest

/-! ## The operations of a context -/

/-- Half to even, over the integers. -/
theorem roundDiv_halfEven (neg : Bool) (n : ℕ) {d : ℕ} (hd : 0 < d) :
    2 * |(roundDiv .halfEven neg n d * d : ℤ) - n| ≤ d
      ∧ (2 * |(roundDiv .halfEven neg n d * d : ℤ) - n| = d →
        Even (roundDiv .halfEven neg n d)) := by
  have hsplit : (n : ℤ) = (n / d : ℕ) * d + (n % d : ℕ) := by
    exact_mod_cast (Nat.div_add_mod' n d).symm
  have hlt : n % d < d := Nat.mod_lt n hd
  have hdown : |((n / d : ℕ) * d : ℤ) - n| = (n % d : ℕ) := by
    rw [hsplit, sub_add_cancel_left, abs_neg, Nat.abs_cast]
  have hup : |((n / d + 1 : ℕ) * d : ℤ) - n| = d - (n % d : ℕ) := by
    rw [hsplit, Nat.cast_add, Nat.cast_one, add_mul, one_mul, add_sub_add_left_eq_sub,
      abs_of_nonneg]
    omega
  unfold roundDiv
  split_ifs with hzero hinc
  · rw [hdown]
    omega
  · rw [hup]
    have hhalf : d < 2 * (n % d) ∨ 2 * (n % d) = d ∧ (n / d) % 2 = 1 := by
      simpa [Rounding.increments, compare_gt_iff_gt, compare_eq_iff_eq] using hinc
    refine ⟨by omega, fun heq => ?_⟩
    rw [Nat.even_iff]
    omega
  · rw [hdown]
    have hhalf : 2 * (n % d) ≤ d ∧ (2 * (n % d) = d → (n / d) % 2 = 0) := by
      simpa [Rounding.increments, compare_gt_iff_gt, compare_eq_iff_eq] using hinc
    refine ⟨by omega, fun heq => ?_⟩
    rw [Nat.even_iff]
    omega

/-- Rounding a number in steps of `q`. -/
theorem roundRat_nearestEven (neg : Bool) {q v : ℚ} (hq : 0 < q) (hv : 0 ≤ v) :
    NearestEven q v (roundRat .halfEven neg (v / q) * q) := by
  obtain ⟨x, hx⟩ : ∃ x, v / q = x := ⟨_, rfl⟩
  obtain rfl : v = x * q := (div_eq_iff hq.ne').mp hx
  rw [hx]
  have hnum : 0 ≤ x.num := Rat.num_nonneg.mpr (by rw [← hx]; positivity)
  obtain ⟨hle, htie⟩ := roundDiv_halfEven neg x.num.toNat x.den_pos
  rw [Int.toNat_of_nonneg hnum] at hle htie
  have hden : (0 : ℚ) < x.den := by exact_mod_cast x.den_pos
  -- the distance, in steps
  have hdist : |roundRat .halfEven neg x * q - x * q|
      = ((2 * |(roundDiv .halfEven neg x.num.toNat x.den * x.den : ℤ) - x.num| : ℤ) : ℚ) / x.den
        * (q / 2) := by
    have hscale : (roundRat .halfEven neg x : ℚ) - x
        = ((roundDiv .halfEven neg x.num.toNat x.den * x.den : ℤ) - x.num : ℤ) / x.den := by
      rw [roundRat, eq_div_iff hden.ne', sub_mul, Rat.mul_den_eq_num]
      push_cast
      rfl
    rw [← sub_mul, hscale, abs_mul, abs_div, abs_of_pos hden, abs_of_pos hq]
    push_cast
    ring
  refine ⟨roundRat .halfEven neg x, by rw [Int.cast_natCast], ?_, fun heq => ?_⟩
  · rw [hdist]
    have hone :
        ((2 * |(roundDiv .halfEven neg x.num.toNat x.den * x.den : ℤ) - x.num| : ℤ) : ℚ) / x.den
        ≤ 1 := by
      rw [div_le_one hden]
      exact_mod_cast hle
    calc _ ≤ 1 * (q / 2) := by gcongr
      _ = q / 2 := one_mul _
  · rw [hdist] at heq
    have hone := mul_right_cancel₀ (by positivity : q / 2 ≠ 0) (heq.trans (one_mul _).symm)
    rw [div_eq_one_iff_eq hden.ne'] at hone
    exact (Int.even_coe_nat _).mpr (htie (by exact_mod_cast hone))

/-- What a context makes of a positive number is the nearest multiple of its last place. -/
theorem roundValue_nearestEven {ctx : Context} (hmode : ctx.rounding = .halfEven)
    {v w : ℚ} (hv : 0 < v)
    (h : ctx.roundValue v = some w) : NearestEven ((10 : ℚ) ^ ctx.lastPlace v) v w := by
  unfold Context.roundValue at h
  split_ifs at h with hzero hover hneg
  · exact absurd hzero hv.ne'
  · exact absurd hneg (not_lt.mpr hv.le)
  · rw [← Option.some.inj h, Context.roundMagnitude, hmode, abs_of_pos hv]
    exact roundRat_nearestEven _ (by positivity) hv.le

/-- A positive number below a representable bound rounds to at most the bound. -/
theorem roundValue_le {ctx : Context} (hmode : ctx.rounding = .halfEven) {v b : ℚ} (hv : 0 < v)
    (hvb : v ≤ b) {m : ℤ}
    (hb : b = m * (10 : ℚ) ^ ctx.lastPlace v) (hrange : b < (10 : ℚ) ^ (ctx.emax + 1)) :
    ∃ w, ctx.roundValue v = some w ∧ NearestEven ((10 : ℚ) ^ ctx.lastPlace v) v w ∧
    0 ≤ w ∧ w ≤ b := by
  have hq : (0 : ℚ) < (10 : ℚ) ^ ctx.lastPlace v := by positivity
  have hnear : NearestEven ((10 : ℚ) ^ ctx.lastPlace v) v (ctx.roundMagnitude v) := by
    rw [Context.roundMagnitude, hmode, abs_of_pos hv]
    exact roundRat_nearestEven _ hq hv.le
  have hle : ctx.roundMagnitude v ≤ b := by
    rw [hb] at hvb ⊢
    exact hnear.mono hq (nearestEven_multiple hq m) hvb
  have hnonneg : 0 ≤ ctx.roundMagnitude v := by
    rw [Context.roundMagnitude]
    positivity
  refine ⟨ctx.roundMagnitude v, ?_, hnear, hnonneg, hle⟩
  rw [Context.roundValue, if_neg hv.ne', if_neg (not_le.mpr (hle.trans_lt hrange)),
    if_neg (not_lt.mpr hv.le)]

/-- **A quantized value is the nearest multiple of the place of its quantum.** -/
theorem quantize_nearestEven {ctx : Context} (hmode : ctx.rounding = .halfEven) {a q r : Decimal}
    (h : ctx.quantize a q = .ok r) :
    NearestEven ((10 : ℚ) ^ q.exp) a.value r.value := by
  obtain ⟨c, hc, hr⟩ : ∃ c, roundDiv .halfEven a.neg (scaleFrac a.coeff 1 (a.exp - q.exp)).1
      (scaleFrac a.coeff 1 (a.exp - q.exp)).2 = c
      ∧ r = ⟨a.neg, c, q.exp⟩ := by
    unfold Context.quantize at h
    simp only [hmode] at h
    split_ifs at h
    exact ⟨_, rfl, (Except.ok.inj h).symm⟩
  have hden := scaleFrac_den_pos a.coeff Nat.one_pos (a.exp - q.exp)
  have hratio := scaleFrac_ratio a.coeff Nat.one_pos (a.exp - q.exp)
  obtain ⟨hle, htie⟩ := roundDiv_halfEven a.neg (scaleFrac a.coeff 1 (a.exp - q.exp)).1 hden
  rw [hc] at hle htie
  generalize (scaleFrac a.coeff 1 (a.exp - q.exp)).1 = n at hratio hle htie
  generalize (scaleFrac a.coeff 1 (a.exp - q.exp)).2 = d at hden hratio hle htie
  have hd : (0 : ℚ) < d := by exact_mod_cast hden
  have hu : (0 : ℚ) < (10 : ℚ) ^ q.exp := by positivity
  -- the distance, in places of the quantum
  have hdist :
      |r.value - a.value| = ((2 * |(c * d : ℤ) - n| : ℤ) : ℚ) / d * ((10 : ℚ) ^ q.exp / 2) := by
    have hv : (a.coeff : ℚ) * (10 : ℚ) ^ a.exp = n / d * (10 : ℚ) ^ q.exp := by
      rw [hratio, Nat.cast_one, div_one, mul_assoc, ← zpow_add₀ (by norm_num), sub_add_cancel]
    have hmag :
        |r.value - a.value| = |(c : ℚ) * (10 : ℚ) ^ q.exp - a.coeff * (10 : ℚ) ^ a.exp| := by
      rw [hr, value_eq_signed, value_eq_signed]
      cases hneg : a.neg with
      | false => simp [signed, hneg]
      | true =>
          simp only [signed, hneg, if_true, Int.cast_neg, Int.cast_natCast, neg_mul]
          rw [← abs_neg]
          congr 1
          ring
    have hscale : (c : ℚ) * (10 : ℚ) ^ q.exp - n / d * (10 : ℚ) ^ q.exp
        = ((c * d : ℤ) - n : ℤ) / d * (10 : ℚ) ^ q.exp := by
      push_cast
      field_simp
    rw [hmag, hv, hscale, abs_mul, abs_div, abs_of_pos hd, abs_of_pos hu]
    push_cast
    ring
  refine ⟨if a.neg then -c else c, ?_, ?_, ?_⟩
  · rw [hr, value_eq_signed]
    simp [signed]
  · rw [hdist]
    have hone : ((2 * |(c * d : ℤ) - n| : ℤ) : ℚ) / d ≤ 1 := by
      rw [div_le_one hd]
      exact_mod_cast hle
    calc ((2 * |(c * d : ℤ) - n| : ℤ) : ℚ) / d * ((10 : ℚ) ^ q.exp / 2)
        ≤ 1 * ((10 : ℚ) ^ q.exp / 2) := by gcongr
      _ = (10 : ℚ) ^ q.exp / 2 := one_mul _
  · intro heq
    rw [hdist] at heq
    have hone : ((2 * |(c * d : ℤ) - n| : ℤ) : ℚ) / d = 1 := by
      have hhalf : (10 : ℚ) ^ q.exp / 2 ≠ 0 := by positivity
      exact mul_right_cancel₀ hhalf (heq.trans (one_mul _).symm)
    rw [div_eq_one_iff_eq hd.ne'] at hone
    have heven : Even c := htie (by exact_mod_cast hone)
    split_ifs
    · exact ((Int.even_coe_nat c).mpr heven).neg
    · exact (Int.even_coe_nat c).mpr heven

theorem quantize_exp {ctx : Context} {a q r : Decimal} (h : ctx.quantize a q = .ok r) :
    r.exp = q.exp := by
  unfold Context.quantize at h
  simp only at h
  split_ifs at h
  cases h
  rfl

/-- A number below a multiple of the quantum that fits the context quantizes to at most the
multiple. -/
theorem quantize_le {ctx : Context} (hmode : ctx.rounding = .halfEven) {a q : Decimal}
    (ha : 0 ≤ a.value) {m : ℕ}
    (ham : a.value ≤ m * (10 : ℚ) ^ q.exp) (hm : m < 10 ^ ctx.prec) (hlow : ctx.etiny ≤ q.exp)
    (hhigh : ctx.prec - 1 + q.exp ≤ ctx.emax) (hprec : 0 < ctx.prec) :
    ∃ r, ctx.quantize a q = .ok r ∧ r.exp = q.exp ∧ 0 ≤ r.value ∧
    r.value ≤ m * (10 : ℚ) ^ q.exp := by
  have hq : (0 : ℚ) < (10 : ℚ) ^ q.exp := by positivity
  obtain ⟨c, hc⟩ :
    ∃ c, roundRat .halfEven (decide (a.value < 0)) (a.value / (10 : ℚ) ^ q.exp) = c := ⟨_, rfl⟩
  have hnear : NearestEven ((10 : ℚ) ^ q.exp) a.value (c * (10 : ℚ) ^ q.exp) := by
    rw [← hc]
    exact roundRat_nearestEven _ hq ha
  have hle : (c : ℚ) * (10 : ℚ) ^ q.exp ≤ m * (10 : ℚ) ^ q.exp := by
    have hmult := nearestEven_multiple hq (m : ℤ)
    rw [Int.cast_natCast] at hmult
    exact hnear.mono hq hmult ham
  have hcm : c ≤ m := by exact_mod_cast le_of_mul_le_mul_right hle hq
  have hdigits : numDigits c ≤ ctx.prec := (numDigits_le_iff hprec).mpr (hcm.trans_lt hm)
  have hvalue := ctx.quantize_value a q
  have hquantized : ctx.quantizeValue a.value q.exp = some (c * (10 : ℚ) ^ q.exp) := by
    rw [Context.quantizeValue, hmode, abs_of_nonneg ha, hc, if_neg (by omega), if_neg (by omega),
      if_neg (not_lt.mpr ha),
      one_mul]
  rw [hquantized] at hvalue
  cases hr : ctx.quantize a q with
  | error e =>
      rw [hr] at hvalue
      cases hvalue
  | ok r =>
      rw [hr] at hvalue
      have hrv : r.value = c * (10 : ℚ) ^ q.exp := Option.some.inj hvalue
      refine ⟨r, rfl, quantize_exp hr, ?_, ?_⟩
      · rw [hrv]
        positivity
      · rw [hrv]
        exact hle

end Decimal
