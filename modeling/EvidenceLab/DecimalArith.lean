/-
# Decimal floating-point arithmetic

A finite decimal number is a sign, a coefficient and a power of ten.  The same
number has many spellings (`1.5`, `1.50`, `15E-1`), and an arithmetic context
fixes how an exact result is brought back to a bounded coefficient: a precision,
a rounding rule and a range of exponents.  This file gives

* the representation `Decimal` and its value `Decimal.value` in `ℚ`;
* the eight rounding rules and the rounding of a fraction to an integer;
* `Context.finalize`, which turns an exact result into a decimal of the context:
  correctly rounded, as close to the ideal exponent as an exact result allows,
  and an overflow when it leaves the exponent range;
* the operations `add`, `subtract`, `multiply`, `divide`, `plus`, `abs`,
  `quantize` and `normalize` built on it.

The central fact is `Context.finalize_value`: the *value* of a result is a
function of the exact value alone (`Context.roundValue`), never of the spelling
of the operands.
-/
import Mathlib

/-! ## Finite decimals -/

/-- A finite decimal: sign, coefficient and exponent, denoting `± coeff · 10 ^ exp`. -/
structure Decimal where
  neg : Bool
  coeff : ℕ
  exp : ℤ
  deriving DecidableEq, Repr, Inhabited

namespace Decimal

/-- The number of decimal digits of a coefficient; zero is written with one digit. -/
def numDigits (n : ℕ) : ℕ := Nat.log 10 n + 1

/-- The rational number a decimal denotes. -/
def value (a : Decimal) : ℚ :=
  (if a.neg then -1 else 1) * a.coeff * (10 : ℚ) ^ a.exp

/-- The coefficient with its sign. -/
def signed (a : Decimal) : ℤ := if a.neg then -(a.coeff : ℤ) else a.coeff

/-- The coefficient with its sign, moved to a lower exponent `e`. -/
def alignedTo (a : Decimal) (e : ℤ) : ℤ := a.signed * 10 ^ (a.exp - e).toNat

/-- Exact comparison `a ≤ b`; no context is involved. -/
def le (a b : Decimal) : Bool :=
  decide (a.alignedTo (min a.exp b.exp) ≤ b.alignedTo (min a.exp b.exp))

/-- The sign flipped, exactly. -/
def copyNegate (a : Decimal) : Decimal := { a with neg := !a.neg }

/-- The sign cleared, exactly. -/
def copyAbs (a : Decimal) : Decimal := { a with neg := false }

/-- The integer `n` as a decimal with exponent zero. -/
def ofNat (n : ℕ) : Decimal := ⟨false, n, 0⟩

/-- A value is the signed coefficient at its exponent. -/
theorem value_eq_signed (a : Decimal) : a.value = a.signed * (10 : ℚ) ^ a.exp := by
  unfold value signed
  cases a.neg <;> simp

theorem value_eq_zero_iff (a : Decimal) : a.value = 0 ↔ a.coeff = 0 := by
  have h10 : (10 : ℚ) ^ a.exp ≠ 0 := by positivity
  unfold value
  cases a.neg <;> simp [h10]

@[simp] theorem value_copyNegate (a : Decimal) : a.copyNegate.value = -a.value := by
  unfold copyNegate value
  cases a.neg <;> simp

@[simp] theorem value_ofNat (n : ℕ) : (ofNat n).value = n := by
  simp [ofNat, value]

/-- The magnitude of a value is its coefficient at its exponent. -/
theorem abs_value_eq_coeff (a : Decimal) : |a.value| = a.coeff * (10 : ℚ) ^ a.exp := by
  have h10 : (0 : ℚ) < (10 : ℚ) ^ a.exp := by positivity
  unfold value
  rw [abs_mul, abs_mul, abs_of_pos h10, Nat.abs_cast]
  cases a.neg <;> simp

@[simp] theorem value_copyAbs (a : Decimal) : a.copyAbs.value = |a.value| := by
  rw [abs_value_eq_coeff]
  simp [copyAbs, value]

/-- Moving a decimal to an exponent at most its own does not change its value. -/
theorem alignedTo_mul_zpow (a : Decimal) {e : ℤ} (he : e ≤ a.exp) :
    (a.alignedTo e : ℚ) * (10 : ℚ) ^ e = a.value := by
  have hk : (((a.exp - e).toNat : ℕ) : ℤ) = a.exp - e := Int.toNat_of_nonneg (by omega)
  rw [value_eq_signed, alignedTo]
  push_cast
  rw [mul_assoc, ← zpow_natCast, hk, ← zpow_add₀ (by norm_num)]
  congr 2
  ring

/-- The exact comparison agrees with the order of the values. -/
theorem le_iff_value_le (a b : Decimal) : a.le b = true ↔ a.value ≤ b.value := by
  have h10 : (0 : ℚ) < (10 : ℚ) ^ (min a.exp b.exp) := by positivity
  rw [le, decide_eq_true_iff, ← a.alignedTo_mul_zpow (min_le_left _ b.exp),
    ← b.alignedTo_mul_zpow (min_le_right a.exp _), mul_le_mul_iff_of_pos_right h10]
  exact Int.cast_le.symm

/-! ## Counting digits -/

theorem lt_pow_numDigits (n : ℕ) : n < 10 ^ numDigits n :=
  Nat.lt_pow_succ_log_self (by norm_num) n

theorem pow_le_of_pos {n : ℕ} (hn : 0 < n) : 10 ^ (numDigits n - 1) ≤ n := by
  rw [numDigits, Nat.add_sub_cancel]
  exact Nat.pow_log_le_self 10 hn.ne'

theorem numDigits_pos (n : ℕ) : 0 < numDigits n := Nat.succ_pos _

/-- A number has at most `k` digits if and only if it is below the power of ten. -/
theorem numDigits_le_iff {n k : ℕ} (hk : 0 < k) : numDigits n ≤ k ↔ n < 10 ^ k := by
  rcases Nat.eq_zero_or_pos n with hn | hn
  · subst hn
    simpa [numDigits] using Nat.succ_le_of_lt hk
  · rw [numDigits, Nat.succ_le_iff]
    exact Nat.log_lt_iff_lt_pow (by norm_num) hn.ne'

/-! ## Rounding a fraction to an integer -/

/-- The rounding rules of a decimal context. -/
inductive Rounding where
  | down
  | up
  | ceiling
  | floor
  | halfUp
  | halfDown
  | halfEven
  | zeroFiveUp
  deriving DecidableEq, Repr, Inhabited

/-- Whether an inexact quotient with integer part `q` moves away from zero.  The
ordering compares the discarded part with one half. -/
def Rounding.increments (mode : Rounding) (neg : Bool) (q : ℕ) (half : Ordering) : Bool :=
  match mode with
  | .down => false
  | .up => true
  | .ceiling => !neg
  | .floor => neg
  | .halfUp => half != .lt
  | .halfDown => half == .gt
  | .halfEven => half == .gt || (half == .eq && q % 2 == 1)
  | .zeroFiveUp => q % 5 == 0

/-- The fraction `n / d` rounded to an integer. -/
def roundDiv (mode : Rounding) (neg : Bool) (n d : ℕ) : ℕ :=
  if n % d = 0 then n / d
  else if mode.increments neg (n / d) (compare (2 * (n % d)) d) then n / d + 1 else n / d

/-- A nonnegative rational rounded to an integer. -/
def roundRat (mode : Rounding) (neg : Bool) (q : ℚ) : ℕ :=
  roundDiv mode neg q.num.toNat q.den

theorem div_eq_of_cross {n d n' d' : ℕ} (hd : 0 < d) (hd' : 0 < d') (h : n * d' = n' * d) :
    n / d = n' / d' := by
  symm
  apply Nat.div_eq_of_lt_le
  · apply Nat.le_of_mul_le_mul_right _ hd
    calc n / d * d' * d = n / d * d * d' := by ring
      _ ≤ n * d' := Nat.mul_le_mul_right _ (Nat.div_mul_le_self n d)
      _ = n' * d := h
  · apply Nat.lt_of_mul_lt_mul_right (a := d)
    calc n' * d = n * d' := h.symm
      _ < (n / d + 1) * d * d' := by
          apply Nat.mul_lt_mul_of_pos_right _ hd'
          have := Nat.lt_div_mul_add (a := n) hd
          linarith
      _ = (n / d + 1) * d' * d := by ring

theorem mod_cross {n d n' d' : ℕ} (hd : 0 < d) (hd' : 0 < d') (h : n * d' = n' * d) :
    n % d * d' = n' % d' * d := by
  have hq := div_eq_of_cross hd hd' h
  have h1 := Nat.div_add_mod n d
  have h2 := Nat.div_add_mod n' d'
  have h3 : (d * (n / d) + n % d) * d' = (d' * (n' / d') + n' % d') * d := by rw [h1, h2, h]
  rw [← hq] at h3
  nlinarith [h3]

/-- Rounding looks at the fraction, not at the numbers that spell it. -/
theorem roundDiv_congr (mode : Rounding) (neg : Bool) {n d n' d' : ℕ} (hd : 0 < d)
    (hd' : 0 < d') (h : n * d' = n' * d) :
    roundDiv mode neg n d = roundDiv mode neg n' d' := by
  have hq := div_eq_of_cross hd hd' h
  have hr := mod_cross hd hd' h
  have hzero : n % d = 0 ↔ n' % d' = 0 := by
    constructor
    · intro h0
      rw [h0, zero_mul] at hr
      exact (Nat.mul_eq_zero.mp hr.symm).resolve_right hd.ne'
    · intro h0
      rw [h0, zero_mul] at hr
      exact (Nat.mul_eq_zero.mp hr).resolve_right hd'.ne'
  have hcmp : compare (2 * (n % d)) d = compare (2 * (n' % d')) d' := by
    have hs : ∀ {x y k : ℕ}, 0 < k → compare (x * k) (y * k) = compare x y := by
      intro x y k hk
      rcases lt_trichotomy x y with hxy | hxy | hxy
      · rw [compare_lt_iff_lt.mpr hxy, compare_lt_iff_lt.mpr (Nat.mul_lt_mul_of_pos_right hxy hk)]
      · rw [hxy, compare_eq_iff_eq.mpr rfl, compare_eq_iff_eq.mpr rfl]
      · rw [compare_gt_iff_gt.mpr hxy, compare_gt_iff_gt.mpr (Nat.mul_lt_mul_of_pos_right hxy hk)]
    rw [← hs hd', ← hs (x := 2 * (n' % d')) hd, mul_assoc, hr, ← mul_assoc, mul_comm d d']
  unfold roundDiv
  simp only [hzero, hq, hcmp]

/-- **Rounding a division** is rounding its quotient. -/
theorem roundDiv_eq_roundRat (mode : Rounding) (neg : Bool) {n d : ℕ} (hd : 0 < d) :
    roundDiv mode neg n d = roundRat mode neg ((n : ℚ) / d) := by
  have hnonneg : 0 ≤ ((n : ℚ) / d).num := Rat.num_nonneg.mpr (by positivity)
  apply roundDiv_congr mode neg hd ((n : ℚ) / d).den_pos
  have hden : (((n : ℚ) / d).den : ℚ) ≠ 0 := by exact_mod_cast ((n : ℚ) / d).den_nz
  have hd0 : (d : ℚ) ≠ 0 := by exact_mod_cast hd.ne'
  have hcross : (n : ℚ) * ((n : ℚ) / d).den = ((n : ℚ) / d).num * d := by
    have h := Rat.num_div_den ((n : ℚ) / d)
    rw [div_eq_div_iff hden hd0] at h
    exact h.symm
  have hz : ((n * ((n : ℚ) / d).den : ℕ) : ℤ) = ((((n : ℚ) / d).num.toNat * d : ℕ) : ℤ) := by
    push_cast
    rw [Int.toNat_of_nonneg hnonneg]
    exact_mod_cast hcross
  exact_mod_cast hz

/-! ## Contexts -/

/-- The trapped conditions an operation can raise. -/
inductive Signal where
  | invalidOperation
  | divisionByZero
  | overflow
  deriving DecidableEq, Repr, Inhabited

/-- An arithmetic context: precision, rounding rule and exponent range. -/
structure Context where
  prec : ℕ
  rounding : Rounding
  emin : ℤ
  emax : ℤ
  prec_pos : 0 < prec

namespace Context

variable (ctx : Context)

/-- The least exponent a subnormal result may have. -/
def etiny : ℤ := ctx.emin - ctx.prec + 1

end Context

/-- The fraction `n / d` multiplied by `10 ^ x`, again as a fraction. -/
def scaleFrac (n d : ℕ) (x : ℤ) : ℕ × ℕ :=
  if 0 ≤ x then (n * 10 ^ x.toNat, d) else (n, d * 10 ^ (-x).toNat)

/-- The decimal exponent of the leading digit of the fraction `n / d`. -/
def leadingExp (n d : ℕ) : ℤ :=
  let k : ℤ := numDigits n - numDigits d
  let s := scaleFrac n d (-k)
  if s.2 ≤ s.1 then k else k - 1

/-- Trailing zeros of `c · 10 ^ e` dropped while the exponent stays at most `ideal`. -/
def dropZeros : ℕ → ℕ → ℤ → ℤ → ℕ × ℤ
  | 0, c, e, _ => (c, e)
  | fuel + 1, c, e, ideal =>
    if e < ideal ∧ c % 10 = 0 then dropZeros fuel (c / 10) (e + 1) ideal else (c, e)

namespace Context

variable (ctx : Context)

/-- The coefficient and exponent of the nonzero exact result `n / d · 10 ^ x`: rounded at
the last place the precision and the exponent range leave, and moved towards the ideal
exponent when the result is exact. -/
def rounded (neg : Bool) (n d : ℕ) (x ideal : ℤ) : ℕ × ℤ :=
  let e := max (leadingExp n d + x - (ctx.prec - 1)) ctx.etiny
  let s := scaleFrac n d (x - e)
  let c := roundDiv ctx.rounding neg s.1 s.2
  if s.1 % s.2 = 0 then dropZeros ctx.prec c e ideal
  else if c = 10 ^ ctx.prec then (c / 10, e + 1) else (c, e)

/-- Bring the exact result `± n / d · 10 ^ x` into the context. -/
def finalize (neg : Bool) (n d : ℕ) (x ideal : ℤ) : Except Signal Decimal :=
  if n = 0 then .ok ⟨neg, 0, min (max ideal ctx.etiny) ctx.emax⟩
  else
    let r := ctx.rounded neg n d x ideal
    if r.1 ≠ 0 ∧ ctx.emax < numDigits r.1 - 1 + r.2 then .error .overflow
    else .ok ⟨neg, r.1, r.2⟩

end Context

/-! ## The value of a result -/

/-- `scaleFrac` multiplies the fraction by the power of ten. -/
theorem scaleFrac_ratio (n : ℕ) {d : ℕ} (hd : 0 < d) (x : ℤ) :
    ((scaleFrac n d x).1 : ℚ) / (scaleFrac n d x).2 = (n : ℚ) / d * (10 : ℚ) ^ x := by
  have hd0 : (d : ℚ) ≠ 0 := by exact_mod_cast hd.ne'
  unfold scaleFrac
  split_ifs with hx
  · have hk : (10 : ℚ) ^ x = 10 ^ x.toNat := by
      rw [← zpow_natCast, Int.toNat_of_nonneg hx]
    simp only [Nat.cast_mul, Nat.cast_pow, Nat.cast_ofNat]
    rw [hk]
    ring
  · have hk : (10 : ℚ) ^ x = ((10 : ℚ) ^ (-x).toNat)⁻¹ := by
      rw [← zpow_natCast, Int.toNat_of_nonneg (by omega), zpow_neg, inv_inv]
    simp only [Nat.cast_mul, Nat.cast_pow, Nat.cast_ofNat]
    rw [hk]
    field_simp

theorem scaleFrac_den_pos (n : ℕ) {d : ℕ} (hd : 0 < d) (x : ℤ) : 0 < (scaleFrac n d x).2 := by
  unfold scaleFrac
  split_ifs
  · exact hd
  · positivity

theorem numDigits_bounds {n : ℕ} (hn : 0 < n) :
    (10 : ℚ) ^ ((numDigits n : ℤ) - 1) ≤ n ∧ (n : ℚ) < (10 : ℚ) ^ (numDigits n : ℤ) := by
  constructor
  · have hcast : ((numDigits n : ℤ) - 1) = ((numDigits n - 1 : ℕ) : ℤ) := by
      have := numDigits_pos n
      omega
    rw [hcast, zpow_natCast]
    exact_mod_cast pow_le_of_pos hn
  · rw [zpow_natCast]
    exact_mod_cast lt_pow_numDigits n

/-- The logarithm of a number between two powers of ten. -/
theorem int_log_eq {r : ℚ} (hr : 0 < r) {a : ℤ} (hlo : (10 : ℚ) ^ a ≤ r)
    (hhi : r < (10 : ℚ) ^ (a + 1)) : Int.log 10 r = a := by
  have h1 : a ≤ Int.log 10 r := (Int.zpow_le_iff_le_log (by norm_num) hr).mp (by exact_mod_cast hlo)
  have h2 : Int.log 10 r < a + 1 :=
    (Int.lt_zpow_iff_log_lt (by norm_num) hr).mp (by exact_mod_cast hhi)
  omega

/-- `leadingExp` is the decimal logarithm of the fraction, rounded down. -/
theorem leadingExp_eq_log {n d : ℕ} (hn : 0 < n) (hd : 0 < d) :
    leadingExp n d = Int.log 10 ((n : ℚ) / d) := by
  have hdq : (0 : ℚ) < d := by exact_mod_cast hd
  have hnq : (0 : ℚ) < n := by exact_mod_cast hn
  obtain ⟨hnlo, hnhi⟩ := numDigits_bounds hn
  obtain ⟨hdlo, hdhi⟩ := numDigits_bounds hd
  have h10 : (10 : ℚ) ≠ 0 := by norm_num
  have hlow : (10 : ℚ) ^ ((numDigits n : ℤ) - numDigits d - 1) ≤ (n : ℚ) / d := by
    rw [le_div_iff₀ hdq]
    calc (10 : ℚ) ^ ((numDigits n : ℤ) - numDigits d - 1) * d
        ≤ (10 : ℚ) ^ ((numDigits n : ℤ) - numDigits d - 1) * (10 : ℚ) ^ (numDigits d : ℤ) := by
          gcongr
      _ = (10 : ℚ) ^ ((numDigits n : ℤ) - 1) := by
          rw [← zpow_add₀ h10]
          congr 1
          ring
      _ ≤ n := hnlo
  have hhigh : (n : ℚ) / d < (10 : ℚ) ^ ((numDigits n : ℤ) - numDigits d + 1) := by
    rw [div_lt_iff₀ hdq]
    calc (n : ℚ) < (10 : ℚ) ^ (numDigits n : ℤ) := hnhi
      _ = (10 : ℚ) ^ ((numDigits n : ℤ) - numDigits d + 1)
        * (10 : ℚ) ^ ((numDigits d : ℤ) - 1) := by
          rw [← zpow_add₀ h10]
          congr 1
          ring
      _ ≤ (10 : ℚ) ^ ((numDigits n : ℤ) - numDigits d + 1) * d := by gcongr
  have hsd : (0 : ℚ) < (scaleFrac n d (-((numDigits n : ℤ) - numDigits d))).2 := by
    exact_mod_cast scaleFrac_den_pos n hd _
  have htest : (scaleFrac n d (-((numDigits n : ℤ) - numDigits d))).2
        ≤ (scaleFrac n d (-((numDigits n : ℤ) - numDigits d))).1
      ↔ (10 : ℚ) ^ ((numDigits n : ℤ) - numDigits d) ≤ (n : ℚ) / d := by
    rw [← Nat.cast_le (α := ℚ), ← one_le_div hsd, scaleFrac_ratio n hd, zpow_neg,
      ← div_eq_mul_inv, one_le_div (by positivity)]
  have hpos : (0 : ℚ) < (n : ℚ) / d := by positivity
  unfold leadingExp
  simp only
  split_ifs with h
  · exact (int_log_eq hpos (htest.mp h) hhigh).symm
  · have hlt : (n : ℚ) / d < (10 : ℚ) ^ ((numDigits n : ℤ) - numDigits d - 1 + 1) := by
      rw [sub_add_cancel]
      exact lt_of_not_ge (fun hge => h (htest.mpr hge))
    exact (int_log_eq hpos hlow hlt).symm

/-- Dropping zeros keeps the number and does not lengthen the coefficient. -/
theorem dropZeros_spec (fuel c : ℕ) (e ideal : ℤ) :
    ((dropZeros fuel c e ideal).1 : ℚ) * (10 : ℚ) ^ (dropZeros fuel c e ideal).2
        = (c : ℚ) * (10 : ℚ) ^ e
      ∧ (dropZeros fuel c e ideal).1 ≤ c ∧ e ≤ (dropZeros fuel c e ideal).2 := by
  induction fuel generalizing c e with
  | zero => simp [dropZeros]
  | succ fuel ih =>
      rw [dropZeros]
      split_ifs with h
      · obtain ⟨hval, hle, hexp⟩ := ih (c / 10) (e + 1)
        have hc : ((c / 10 : ℕ) : ℚ) * 10 = c := by
          exact_mod_cast Nat.div_mul_cancel (Nat.dvd_of_mod_eq_zero h.2)
        refine ⟨?_, hle.trans (Nat.div_le_self c 10), by omega⟩
        rw [hval, zpow_add₀ (by norm_num), zpow_one, ← hc]
        ring
      · simp

namespace Context

variable (ctx : Context)

/-- The exponent of the last place kept for a nonzero value `v`. -/
def lastPlace (v : ℚ) : ℤ := max (Int.log 10 |v| - (ctx.prec - 1)) ctx.etiny

/-- The magnitude of `v` rounded at its last place. -/
def roundMagnitude (v : ℚ) : ℚ :=
  roundRat ctx.rounding (decide (v < 0)) (|v| / (10 : ℚ) ^ ctx.lastPlace v)
    * (10 : ℚ) ^ ctx.lastPlace v

/-- **The context as a function on numbers**: the correctly rounded value, or `none` when it
overflows. -/
def roundValue (v : ℚ) : Option ℚ :=
  if v = 0 then some 0
  else if (10 : ℚ) ^ (ctx.emax + 1) ≤ ctx.roundMagnitude v then none
  else some (if v < 0 then -ctx.roundMagnitude v else ctx.roundMagnitude v)

end Context

/-- Rounding moves a fraction by less than one. -/
theorem roundDiv_le (mode : Rounding) (neg : Bool) (n d : ℕ) :
    n / d ≤ roundDiv mode neg n d ∧ roundDiv mode neg n d ≤ n / d + 1 := by
  unfold roundDiv
  split_ifs <;> omega

/-- A number has `prec` digits above its last place. -/
theorem lt_pow_of_lastPlace (ctx : Context) {v : ℚ} (hv : v ≠ 0) :
    |v| / (10 : ℚ) ^ ctx.lastPlace v < (10 : ℚ) ^ (ctx.prec : ℤ) := by
  have hpos : 0 < |v| := abs_pos.mpr hv
  have hlog : |v| < (10 : ℚ) ^ (Int.log 10 |v| + 1) := by
    exact_mod_cast Int.lt_zpow_succ_log_self (by norm_num : 1 < 10) |v|
  rw [div_lt_iff₀ (by positivity), ← zpow_add₀ (by norm_num)]
  refine lt_of_lt_of_le hlog (zpow_le_zpow_right₀ (by norm_num) ?_)
  have : Int.log 10 |v| - (ctx.prec - 1) ≤ ctx.lastPlace v := le_max_left _ _
  omega

namespace Context

variable (ctx : Context)

/-- The signed exact result `± n / d · 10 ^ x`. -/
def exact (neg : Bool) (n d : ℕ) (x : ℤ) : ℚ :=
  (if neg then -1 else 1) * ((n : ℚ) / d * (10 : ℚ) ^ x)

theorem abs_exact (neg : Bool) (n d : ℕ) (x : ℤ) :
    |exact neg n d x| = (n : ℚ) / d * (10 : ℚ) ^ x := by
  have h : (0 : ℚ) ≤ (n : ℚ) / d * (10 : ℚ) ^ x := by positivity
  unfold exact
  cases neg <;> simp [abs_of_nonneg h]

/-- The sign of an exact result is the flag. -/
theorem exact_neg_iff {neg : Bool} {n d : ℕ} (hn : 0 < n) (hd : 0 < d) (x : ℤ) :
    exact neg n d x < 0 ↔ neg = true := by
  have h : (0 : ℚ) < (n : ℚ) / d * (10 : ℚ) ^ x := by
    have : (0 : ℚ) < n := by exact_mod_cast hn
    have : (0 : ℚ) < d := by exact_mod_cast hd
    positivity
  unfold exact
  cases neg
  · simp [h.le]
  · simpa using h

theorem exact_ne_zero {neg : Bool} {n d : ℕ} (hn : 0 < n) (hd : 0 < d) (x : ℤ) :
    exact neg n d x ≠ 0 := by
  have hnq : (0 : ℚ) < n := by exact_mod_cast hn
  have hdq : (0 : ℚ) < d := by exact_mod_cast hd
  intro h
  have habs := abs_exact neg n d x
  rw [h, abs_zero] at habs
  have : (0 : ℚ) < (n : ℚ) / d * (10 : ℚ) ^ x := by positivity
  linarith

/-- The last place of an exact result is the exponent `rounded` works at. -/
theorem lastPlace_exact (neg : Bool) {n d : ℕ} (hn : 0 < n) (hd : 0 < d) (x : ℤ) :
    ctx.lastPlace (exact neg n d x) = max (leadingExp n d + x - (ctx.prec - 1)) ctx.etiny := by
  have hnq : (0 : ℚ) < n := by exact_mod_cast hn
  have hdq : (0 : ℚ) < d := by exact_mod_cast hd
  have hr : (0 : ℚ) < (n : ℚ) / d := by positivity
  have hlo : (10 : ℚ) ^ Int.log 10 ((n : ℚ) / d) ≤ (n : ℚ) / d := by
    exact_mod_cast Int.zpow_log_le_self (by norm_num : 1 < 10) hr
  have hhi : (n : ℚ) / d < (10 : ℚ) ^ (Int.log 10 ((n : ℚ) / d) + 1) := by
    exact_mod_cast Int.lt_zpow_succ_log_self (by norm_num : 1 < 10) ((n : ℚ) / d)
  have hlog : Int.log 10 ((n : ℚ) / d * (10 : ℚ) ^ x) = leadingExp n d + x := by
    rw [leadingExp_eq_log hn hd]
    apply int_log_eq (by positivity)
    · rw [zpow_add₀ (by norm_num)]
      gcongr
    · rw [add_right_comm, zpow_add₀ (by norm_num)]
      gcongr
  rw [lastPlace, abs_exact, hlog]

/-- The scaled fraction `rounded` divides is the magnitude in units of the last place. -/
theorem scaleFrac_lastPlace (neg : Bool) (n : ℕ) {d : ℕ} (hd : 0 < d) (x e : ℤ) :
    ((scaleFrac n d (x - e)).1 : ℚ) / (scaleFrac n d (x - e)).2
      = |exact neg n d x| / (10 : ℚ) ^ e := by
  rw [scaleFrac_ratio n hd, abs_exact, zpow_sub₀ (by norm_num)]
  ring

/-- **Correct rounding**, on coefficients: the pair `rounded` returns denotes the rounded
magnitude, and its coefficient fits the precision. -/
theorem rounded_spec (neg : Bool) {n d : ℕ} (hn : 0 < n) (hd : 0 < d) (x ideal : ℤ) :
    ((ctx.rounded neg n d x ideal).1 : ℚ) * (10 : ℚ) ^ (ctx.rounded neg n d x ideal).2
        = ctx.roundMagnitude (exact neg n d x)
      ∧ (ctx.rounded neg n d x ideal).1 < 10 ^ ctx.prec
      ∧ ctx.etiny ≤ (ctx.rounded neg n d x ideal).2 := by
  set v := exact neg n d x with hv
  have hvne : v ≠ 0 := exact_ne_zero hn hd x
  have hneg : decide (v < 0) = neg := by
    rw [Bool.eq_iff_iff, decide_eq_true_iff]
    exact exact_neg_iff hn hd x
  set e := ctx.lastPlace v with he
  have hcode : max (leadingExp n d + x - (ctx.prec - 1)) ctx.etiny = e :=
    (ctx.lastPlace_exact neg hn hd x).symm
  have hetiny : ctx.etiny ≤ e := le_max_right _ _
  set s := scaleFrac n d (x - e) with hs
  have hsd : 0 < s.2 := scaleFrac_den_pos n hd _
  have hratio : (s.1 : ℚ) / s.2 = |v| / (10 : ℚ) ^ e := scaleFrac_lastPlace neg n hd x e
  set c := roundDiv ctx.rounding neg s.1 s.2 with hc
  have hmag : ctx.roundMagnitude v = (c : ℚ) * (10 : ℚ) ^ e := by
    rw [roundMagnitude, hneg, ← he, ← hratio, hc, roundDiv_eq_roundRat _ _ hsd]
  -- the quotient stays below the precision, so rounding reaches it at most from below
  have hquot : s.1 / s.2 < 10 ^ ctx.prec := by
    have hlt := lt_pow_of_lastPlace ctx hvne
    rw [← he, ← hratio, zpow_natCast] at hlt
    have hdq : (0 : ℚ) < s.2 := by exact_mod_cast hsd
    rw [div_lt_iff₀ hdq] at hlt
    exact Nat.div_lt_of_lt_mul (by rw [mul_comm]; exact_mod_cast hlt)
  have hcle : c ≤ s.1 / s.2 + 1 := (roundDiv_le _ _ _ _).2
  unfold rounded
  simp only [hcode, ← hs, ← hc]
  split_ifs with hexact hcarry
  · obtain ⟨hval, hle, hexp⟩ := dropZeros_spec ctx.prec c e ideal
    have hcq : c = s.1 / s.2 := by rw [hc, roundDiv, if_pos hexact]
    exact ⟨hval.trans hmag.symm, by omega, by omega⟩
  · have hpow : 10 ^ ctx.prec = 10 * 10 ^ (ctx.prec - 1) := by
      rw [← pow_succ', Nat.sub_add_cancel ctx.prec_pos]
    have hdiv : c / 10 = 10 ^ (ctx.prec - 1) := by
      rw [hcarry, hpow, Nat.mul_div_cancel_left _ (by norm_num)]
    refine ⟨?_, ?_, by omega⟩
    · rw [hmag, hdiv, hcarry, hpow, zpow_add₀ (by norm_num), zpow_one]
      push_cast
      ring
    · rw [hdiv]
      exact Nat.pow_lt_pow_right (by norm_num) (by have := ctx.prec_pos; omega)
  · exact ⟨hmag.symm, by omega, hetiny⟩

/-- The overflow test of `finalize` compares the rounded magnitude with the largest power. -/
theorem overflow_test_iff (c : ℕ) (e : ℤ) :
    (c ≠ 0 ∧ ctx.emax < numDigits c - 1 + e)
      ↔ (10 : ℚ) ^ (ctx.emax + 1) ≤ (c : ℚ) * (10 : ℚ) ^ e := by
  rcases Nat.eq_zero_or_pos c with hc | hc
  · subst hc
    have : ¬ ((10 : ℚ) ^ (ctx.emax + 1) ≤ 0) := not_le.mpr (by positivity)
    simpa using this
  · obtain ⟨hlo, hhi⟩ := numDigits_bounds hc
    have h10 : (10 : ℚ) ≠ 0 := by norm_num
    constructor
    · rintro ⟨_, hlt⟩
      calc (10 : ℚ) ^ (ctx.emax + 1) ≤ (10 : ℚ) ^ ((numDigits c : ℤ) - 1 + e) :=
            zpow_le_zpow_right₀ (by norm_num) (by omega)
        _ = (10 : ℚ) ^ ((numDigits c : ℤ) - 1) * (10 : ℚ) ^ e := zpow_add₀ h10 _ _
        _ ≤ c * (10 : ℚ) ^ e := by gcongr
    · intro hle
      refine ⟨hc.ne', ?_⟩
      have hlt : (10 : ℚ) ^ (ctx.emax + 1) < (10 : ℚ) ^ ((numDigits c : ℤ) + e) := by
        rw [zpow_add₀ h10 (numDigits c : ℤ)]
        refine lt_of_le_of_lt hle ?_
        gcongr
      have := (zpow_lt_zpow_iff_right₀ (by norm_num : (1 : ℚ) < 10)).mp hlt
      omega

/-- **The value of a result depends on the exact value only.** -/
theorem finalize_value (neg : Bool) (n : ℕ) {d : ℕ} (hd : 0 < d) (x ideal : ℤ) :
    (ctx.finalize neg n d x ideal).toOption.map Decimal.value
      = ctx.roundValue (exact neg n d x) := by
  unfold finalize
  split_ifs with hn
  · subst hn
    have hzero : exact neg 0 d x = 0 := by simp [exact]
    simp [hzero, roundValue, Decimal.value, Except.toOption]
  · have hpos : 0 < n := Nat.pos_of_ne_zero hn
    obtain ⟨hmag, -, -⟩ := ctx.rounded_spec neg hpos hd x ideal
    rw [roundValue, if_neg (exact_ne_zero hpos hd x), ← hmag]
    simp only [overflow_test_iff]
    split_ifs with _ hlt
    · rfl
    · have hneg := (exact_neg_iff hpos hd x).mp hlt
      simp [Except.toOption, Decimal.value, hneg]
    · have hneg : neg = false := by
        rw [exact_neg_iff hpos hd x] at hlt
        simpa using hlt
      simp [Except.toOption, Decimal.value, hneg]

/-- A result of the context has a coefficient within the precision. -/
theorem finalize_numDigits {neg : Bool} {n d : ℕ} (hd : 0 < d) {x ideal : ℤ} {a : Decimal}
    (h : ctx.finalize neg n d x ideal = .ok a) : numDigits a.coeff ≤ ctx.prec := by
  rw [numDigits_le_iff ctx.prec_pos]
  unfold finalize at h
  simp only at h
  split_ifs at h with hn hover
  · cases h
    exact Nat.pow_pos (by norm_num)
  · cases h
    exact (ctx.rounded_spec neg (Nat.pos_of_ne_zero hn) hd x ideal).2.1

/-! ## Operations -/

/-- The sign of a zero sum: that of the operands when they agree. -/
def zeroSumNeg (a b : Decimal) : Bool :=
  if a.neg = b.neg then a.neg else decide (ctx.rounding = .floor)

/-- `a + b` in the context. -/
def add (a b : Decimal) : Except Signal Decimal :=
  let e := min a.exp b.exp
  let s := a.alignedTo e + b.alignedTo e
  ctx.finalize (if s = 0 then ctx.zeroSumNeg a b else decide (s < 0)) s.natAbs 1 e e

/-- `a - b` in the context. -/
def subtract (a b : Decimal) : Except Signal Decimal := ctx.add a b.copyNegate

/-- `a * b` in the context. -/
def multiply (a b : Decimal) : Except Signal Decimal :=
  ctx.finalize (xor a.neg b.neg) (a.coeff * b.coeff) 1 (a.exp + b.exp) (a.exp + b.exp)

/-- `a / b` in the context; a zero divisor is trapped. -/
def divide (a b : Decimal) : Except Signal Decimal :=
  if b.coeff = 0 then .error (if a.coeff = 0 then .invalidOperation else .divisionByZero)
  else ctx.finalize (xor a.neg b.neg) a.coeff b.coeff (a.exp - b.exp) (a.exp - b.exp)

/-- `+a` in the context: the operand rounded. -/
def plus (a : Decimal) : Except Signal Decimal :=
  ctx.finalize (if a.coeff = 0 then a.neg && decide (ctx.rounding = .floor) else a.neg)
    a.coeff 1 a.exp a.exp

/-- `abs(a)` in the context: the magnitude, rounded. -/
def abs (a : Decimal) : Except Signal Decimal := ctx.finalize false a.coeff 1 a.exp a.exp

/-- `a.scaleb(n)` in the context. -/
def scaleb (a : Decimal) (n : ℤ) : Except Signal Decimal :=
  ctx.finalize a.neg a.coeff 1 (a.exp + n) (a.exp + n)

/-- `a.quantize(q)`: the operand rounded to the exponent of `q`, or an invalid operation when
the result does not fit. -/
def quantize (a q : Decimal) : Except Signal Decimal :=
  let s := scaleFrac a.coeff 1 (a.exp - q.exp)
  let c := roundDiv ctx.rounding a.neg s.1 s.2
  if q.exp < ctx.etiny ∨ ctx.emax < q.exp then .error .invalidOperation
  else if ctx.prec < numDigits c ∨ (c ≠ 0 ∧ ctx.emax < numDigits c - 1 + q.exp) then
    .error .invalidOperation
  else .ok ⟨a.neg, c, q.exp⟩

/-- `a.normalize()`: the operand rounded, then without trailing zeros. -/
def normalize (a : Decimal) : Except Signal Decimal := do
  let r ← ctx.plus a
  if r.coeff = 0 then return ⟨r.neg, 0, 0⟩
  let z := dropZeros ctx.prec r.coeff r.exp ctx.emax
  return ⟨r.neg, z.1, z.2⟩

/-- A signed integer as an exact result. -/
theorem exact_natAbs (s : ℤ) (neg0 : Bool) (e : ℤ) :
    exact (if s = 0 then neg0 else decide (s < 0)) s.natAbs 1 e = (s : ℚ) * (10 : ℚ) ^ e := by
  rcases lt_trichotomy s 0 with hs | hs | hs
  · have habs : ((s.natAbs : ℕ) : ℚ) = -(s : ℚ) := by
      rw [← Int.cast_natCast, Int.ofNat_natAbs_of_nonpos hs.le]
      push_cast
      ring
    simp [exact, hs.ne, hs, habs]
  · simp [exact, hs]
  · have habs : ((s.natAbs : ℕ) : ℚ) = (s : ℚ) := by
      rw [← Int.cast_natCast, Int.natAbs_of_nonneg hs.le]
    simp [exact, hs.ne', not_lt.mpr hs.le, habs]

/-- Addition rounds the exact sum. -/
theorem add_value (a b : Decimal) :
    (ctx.add a b).toOption.map Decimal.value = ctx.roundValue (a.value + b.value) := by
  rw [add, ctx.finalize_value _ _ Nat.one_pos, exact_natAbs, Int.cast_add, add_mul,
    a.alignedTo_mul_zpow (min_le_left _ b.exp), b.alignedTo_mul_zpow (min_le_right a.exp _)]

/-- Subtraction rounds the exact difference. -/
theorem subtract_value (a b : Decimal) :
    (ctx.subtract a b).toOption.map Decimal.value = ctx.roundValue (a.value - b.value) := by
  rw [subtract, add_value, value_copyNegate, sub_eq_add_neg]

/-- Division by a nonzero number rounds the exact quotient; by zero it is trapped. -/
theorem divide_value (a b : Decimal) :
    (ctx.divide a b).toOption.map Decimal.value
      = if b.value = 0 then none else ctx.roundValue (a.value / b.value) := by
  unfold divide
  by_cases hb : b.coeff = 0
  · rw [if_pos hb, if_pos ((value_eq_zero_iff b).mpr hb)]
    rfl
  · rw [if_neg hb, if_neg (fun h => hb ((value_eq_zero_iff b).mp h)),
      ctx.finalize_value _ _ (Nat.pos_of_ne_zero hb)]
    congr 1
    unfold exact Decimal.value
    rw [zpow_sub₀ (by norm_num)]
    cases a.neg <;> cases b.neg <;> simp <;> ring

theorem exact_one (a : Decimal) : exact a.neg a.coeff 1 a.exp = a.value := by
  unfold exact Decimal.value
  simp only [Nat.cast_one, div_one]
  ring

/-- `plus` rounds the operand. -/
theorem plus_value (a : Decimal) :
    (ctx.plus a).toOption.map Decimal.value = ctx.roundValue a.value := by
  rw [plus, ctx.finalize_value _ _ Nat.one_pos, ← exact_one]
  split_ifs with hz
  · simp [exact, hz]
  · rfl

/-- `abs` rounds the magnitude. -/
theorem abs_value (a : Decimal) :
    (ctx.abs a).toOption.map Decimal.value = ctx.roundValue |a.value| := by
  rw [abs, ctx.finalize_value _ _ Nat.one_pos, abs_value_eq_coeff]
  simp [exact]

/-- The value `quantize` returns: a multiple of the quantum's place, if it fits. -/
def quantizeValue (v : ℚ) (e : ℤ) : Option ℚ :=
  let c := roundRat ctx.rounding (decide (v < 0)) (|v| / (10 : ℚ) ^ e)
  if e < ctx.etiny ∨ ctx.emax < e then none
  else if ctx.prec < numDigits c ∨ (c ≠ 0 ∧ ctx.emax < numDigits c - 1 + e) then none
  else some ((if v < 0 then -1 else 1) * c * (10 : ℚ) ^ e)

theorem value_neg_iff {a : Decimal} (ha : a.coeff ≠ 0) : a.value < 0 ↔ a.neg = true := by
  rw [← exact_one]
  exact exact_neg_iff (Nat.pos_of_ne_zero ha) Nat.one_pos a.exp

theorem roundDiv_zero (mode : Rounding) (neg : Bool) (d : ℕ) : roundDiv mode neg 0 d = 0 := by
  simp [roundDiv]

/-- The value of a quantized result depends on the operand's value and on the *exponent* of
the quantum. -/
theorem quantize_value (a q : Decimal) :
    (ctx.quantize a q).toOption.map Decimal.value = ctx.quantizeValue a.value q.exp := by
  have hratio := scaleFrac_lastPlace a.neg a.coeff Nat.one_pos a.exp q.exp
  rw [exact_one] at hratio
  have hsd := scaleFrac_den_pos a.coeff Nat.one_pos (a.exp - q.exp)
  have hc : roundDiv ctx.rounding a.neg (scaleFrac a.coeff 1 (a.exp - q.exp)).1
        (scaleFrac a.coeff 1 (a.exp - q.exp)).2
      = roundRat ctx.rounding (decide (a.value < 0)) (|a.value| / (10 : ℚ) ^ q.exp) := by
    rw [roundDiv_eq_roundRat _ _ hsd, hratio]
    by_cases ha : a.coeff = 0
    · have hv : a.value = 0 := (value_eq_zero_iff a).mpr ha
      simp [hv, roundRat, roundDiv_zero]
    · congr 1
      rw [Bool.eq_iff_iff, decide_eq_true_iff]
      exact (value_neg_iff ha).symm
  unfold quantize quantizeValue
  simp only [hc]
  split_ifs with hrange hfit hneg
  · rfl
  · rfl
  · by_cases ha : a.coeff = 0
    · rw [(value_eq_zero_iff a).mpr ha] at hneg
      exact absurd hneg (lt_irrefl 0)
    · simp [Except.toOption, Decimal.value, (value_neg_iff ha).mp hneg]
  · by_cases ha : a.coeff = 0
    · have hzero :
      roundRat ctx.rounding (decide (a.value < 0)) (|a.value| / (10 : ℚ) ^ q.exp) = 0 := by
        simp [(value_eq_zero_iff a).mpr ha, roundRat, roundDiv_zero]
      rw [hzero]
      simp [Except.toOption, Decimal.value]
    · have hpos : a.neg = false := by
        rw [value_neg_iff ha] at hneg
        simpa using hneg
      simp [Except.toOption, Decimal.value, hpos]

/-! ## Results stay within the precision -/

theorem add_numDigits {a b r : Decimal} (h : ctx.add a b = .ok r) :
    numDigits r.coeff ≤ ctx.prec := ctx.finalize_numDigits Nat.one_pos h

theorem subtract_numDigits {a b r : Decimal} (h : ctx.subtract a b = .ok r) :
    numDigits r.coeff ≤ ctx.prec := ctx.add_numDigits h

theorem multiply_numDigits {a b r : Decimal} (h : ctx.multiply a b = .ok r) :
    numDigits r.coeff ≤ ctx.prec := ctx.finalize_numDigits Nat.one_pos h

theorem divide_numDigits {a b r : Decimal} (h : ctx.divide a b = .ok r) :
    numDigits r.coeff ≤ ctx.prec := by
  unfold divide at h
  by_cases hb : b.coeff = 0
  · rw [if_pos hb] at h
    cases h
  · rw [if_neg hb] at h
    exact ctx.finalize_numDigits (Nat.pos_of_ne_zero hb) h

theorem plus_numDigits {a r : Decimal} (h : ctx.plus a = .ok r) :
    numDigits r.coeff ≤ ctx.prec := ctx.finalize_numDigits Nat.one_pos h

theorem quantize_numDigits {a q r : Decimal} (h : ctx.quantize a q = .ok r) :
    numDigits r.coeff ≤ ctx.prec := by
  unfold quantize at h
  simp only at h
  split_ifs at h with hrange hfit
  cases h
  dsimp only
  omega

theorem leadingExp_one {n : ℕ} (hn : 0 < n) : leadingExp n 1 = numDigits n - 1 := by
  rw [leadingExp_eq_log hn Nat.one_pos]
  obtain ⟨hlo, hhi⟩ := numDigits_bounds hn
  exact int_log_eq (by positivity) (by simpa using hlo) (by simpa using hhi)

/-- An operand that already fits the context is not rounded. -/
theorem roundMagnitude_of_fits {a : Decimal} (ha : a.coeff ≠ 0) (hd : numDigits a.coeff ≤ ctx.prec)
    (hexp : ctx.etiny ≤ a.exp) : ctx.roundMagnitude a.value = |a.value| := by
  have hpos : 0 < a.coeff := Nat.pos_of_ne_zero ha
  have hlp : ctx.lastPlace a.value ≤ a.exp := by
    rw [← exact_one, ctx.lastPlace_exact a.neg hpos Nat.one_pos]
    rw [leadingExp_one hpos]
    omega
  have hint : |a.value| / (10 : ℚ) ^ ctx.lastPlace a.value
      = ((a.coeff * 10 ^ (a.exp - ctx.lastPlace a.value).toNat : ℕ) : ℚ) / (1 : ℕ) := by
    rw [abs_value_eq_coeff]
    push_cast
    rw [← zpow_natCast, Int.toNat_of_nonneg (by omega), zpow_sub₀ (by norm_num)]
    ring
  rw [roundMagnitude, hint, ← roundDiv_eq_roundRat _ _ Nat.one_pos, roundDiv,
    if_pos (Nat.mod_one _), Nat.div_one, ← div_mul_cancel₀ |a.value|
      (show (10 : ℚ) ^ ctx.lastPlace a.value ≠ 0 by positivity), hint]
  simp

theorem dropZeros_mul_pow (n : ℕ) : ∀ (fuel k : ℕ) (e : ℤ), k ≤ fuel →
    dropZeros fuel (n * 10 ^ k) e (e + k) = (n, e + k)
  | 0, k, e, hk => by
      obtain rfl : k = 0 := by omega
      simp [dropZeros]
  | fuel + 1, 0, e, _ => by simp [dropZeros]
  | fuel + 1, k + 1, e, hk => by
      have hmod : n * 10 ^ (k + 1) % 10 = 0 := by
        rw [pow_succ, ← mul_assoc, Nat.mul_mod_left]
      have hdiv : n * 10 ^ (k + 1) / 10 = n * 10 ^ k := by
        rw [pow_succ, ← mul_assoc, Nat.mul_div_cancel _ (by norm_num)]
      have he : e + ((k + 1 : ℕ) : ℤ) = e + 1 + (k : ℤ) := by push_cast; ring
      rw [dropZeros, if_pos ⟨by omega, hmod⟩, hdiv, he]
      exact dropZeros_mul_pow n fuel k (e + 1) (by omega)

/-- An exact result that fits the context keeps its coefficient and exponent. -/
theorem finalize_of_fits (neg : Bool) {n : ℕ} {x : ℤ} (hd : numDigits n ≤ ctx.prec)
    (hexp : ctx.etiny ≤ x - (ctx.prec - numDigits n : ℕ))
    (hmax : numDigits n - 1 + x ≤ ctx.emax) :
    ctx.finalize neg n 1 x x = .ok ⟨neg, n, x⟩ := by
  have hdig := numDigits_pos n
  unfold finalize
  by_cases hn : n = 0
  · have h0 : numDigits n = 1 := by rw [hn]; rfl
    rw [if_pos hn, max_eq_left (by omega), min_eq_left (by omega), hn]
  · have hlead := leadingExp_one (Nat.pos_of_ne_zero hn)
    have he : max (leadingExp n 1 + x - (ctx.prec - 1)) ctx.etiny
        = x - (ctx.prec - numDigits n : ℕ) := by
      rw [hlead, max_eq_left (by omega)]
      omega
    have hround : ctx.rounded neg n 1 x x = (n, x) := by
      have hx : x - (x - ((ctx.prec - numDigits n : ℕ) : ℤ)) = (ctx.prec - numDigits n : ℕ) := by
        ring
      have hdrop := dropZeros_mul_pow n ctx.prec (ctx.prec - numDigits n)
        (x - (ctx.prec - numDigits n : ℕ)) (by omega)
      rw [sub_add_cancel] at hdrop
      simp only [rounded, he, hx, scaleFrac, if_pos (Int.natCast_nonneg _), Int.toNat_natCast,
        Nat.mod_one, if_true, roundDiv, Nat.div_one]
      exact hdrop
    simp only [if_neg hn, hround]
    rw [if_neg (by omega)]

/-- An operand within the precision and the exponent range is its own rounding. -/
theorem roundValue_of_fits {a : Decimal} (hd : numDigits a.coeff ≤ ctx.prec)
    (hexp : ctx.etiny ≤ a.exp) (hmax : |a.value| < (10 : ℚ) ^ (ctx.emax + 1)) :
    ctx.roundValue a.value = some a.value := by
  by_cases ha : a.coeff = 0
  · rw [roundValue, if_pos ((value_eq_zero_iff a).mpr ha), (value_eq_zero_iff a).mpr ha]
  · rw [roundValue, if_neg (fun h => ha ((value_eq_zero_iff a).mp h)),
      ctx.roundMagnitude_of_fits ha hd hexp, if_neg (not_le.mpr hmax)]
    split_ifs with hneg
    · rw [abs_of_neg hneg, neg_neg]
    · rw [abs_of_nonneg (not_lt.mp hneg)]

/-! ## Range -/

/-- A result lies within the exponent range of its context. -/
theorem finalize_range (hrange : ctx.etiny ≤ ctx.emax) {neg : Bool} {n d : ℕ} (hd : 0 < d)
    {x ideal : ℤ} {a : Decimal} (h : ctx.finalize neg n d x ideal = .ok a) :
    ctx.etiny ≤ a.exp ∧ |a.value| < (10 : ℚ) ^ (ctx.emax + 1) := by
  unfold finalize at h
  by_cases hn : n = 0
  · rw [if_pos hn, Except.ok.injEq] at h
    subst h
    refine ⟨by simp only; omega, ?_⟩
    rw [(value_eq_zero_iff _).mpr rfl, abs_zero]
    positivity
  · rw [if_neg hn] at h
    simp only at h
    split_ifs at h with hover
    rw [Except.ok.injEq] at h
    subst h
    refine ⟨(ctx.rounded_spec neg (Nat.pos_of_ne_zero hn) hd x ideal).2.2, ?_⟩
    rw [ctx.overflow_test_iff, not_le] at hover
    rw [abs_value_eq_coeff]
    exact hover

/-- A sum that does not overflow is in the range of the context. -/
theorem add_range (hrange : ctx.etiny ≤ ctx.emax) {a b r : Decimal} (h : ctx.add a b = .ok r) :
    ctx.etiny ≤ r.exp ∧ |r.value| < (10 : ℚ) ^ (ctx.emax + 1) :=
  ctx.finalize_range hrange Nat.one_pos h

/-- A difference that does not overflow is in the range of the context. -/
theorem subtract_range (hrange : ctx.etiny ≤ ctx.emax) {a b r : Decimal}
    (h : ctx.subtract a b = .ok r) :
    ctx.etiny ≤ r.exp ∧ |r.value| < (10 : ℚ) ^ (ctx.emax + 1) := ctx.add_range hrange h

/-! ## Magnitudes -/

/-- `abs` returns the rounded magnitude. -/
theorem abs_eq_ok_of {a : Decimal} {v : ℚ} (h : ctx.roundValue |a.value| = some v) :
    ∃ r, ctx.abs a = .ok r ∧ r.value = v := by
  have hval := ctx.abs_value a
  rw [h] at hval
  cases hr : ctx.abs a with
  | error s => simp [hr, Except.toOption] at hval
  | ok r => exact ⟨r, rfl, by simpa [hr, Except.toOption] using hval⟩

/-- `abs` overflows where the magnitude does. -/
theorem abs_eq_error_of {a : Decimal} (h : ctx.roundValue |a.value| = none) :
    ctx.abs a = .error .overflow := by
  have hval := ctx.abs_value a
  rw [h] at hval
  cases hr : ctx.abs a with
  | ok r => simp [hr, Except.toOption] at hval
  | error s =>
      unfold abs finalize at hr
      simp only at hr
      split_ifs at hr
      rw [← hr]

/-- The magnitude of an operand that fits the context is exact. -/
theorem abs_of_fits {a : Decimal} (hd : numDigits a.coeff ≤ ctx.prec) (hexp : ctx.etiny ≤ a.exp)
    (hmax : |a.value| < (10 : ℚ) ^ (ctx.emax + 1)) :
    ∃ r, ctx.abs a = .ok r ∧ r.value = |a.value| := by
  apply ctx.abs_eq_ok_of
  have hfit := ctx.roundValue_of_fits (a := a.copyAbs) hd hexp (by rwa [value_copyAbs, abs_abs])
  rwa [value_copyAbs] at hfit

end Context

/-- The rules under which a magnitude never rounds up to one more digit. -/
def Rounding.Truncates (mode : Rounding) : Prop :=
  mode = .down ∨ mode = .floor ∨ mode = .zeroFiveUp

instance (mode : Rounding) : Decidable mode.Truncates := inferInstanceAs (Decidable (_ ∨ _ ∨ _))

/-- Truncation never carries into one more digit. -/
theorem Rounding.Truncates.roundDiv_lt {mode : Rounding} (hmode : mode.Truncates) {n d p : ℕ}
    (hp : 0 < p) (h : n / d < 10 ^ p) : roundDiv mode false n d < 10 ^ p := by
  obtain ⟨k, hk⟩ : (5 : ℕ) ∣ 10 ^ p := dvd_pow (by norm_num) hp.ne'
  unfold roundDiv
  split_ifs with hz hinc
  · exact h
  · rcases hmode with rfl | rfl | rfl
    · simp [Rounding.increments] at hinc
    · simp [Rounding.increments] at hinc
    · -- the last digit is zero or five, so it is not the nine that would carry
      have hfive : n / d % 5 = 0 := by simpa [Rounding.increments] using hinc
      omega
  · exact h

/-- A mode that does not truncate rounds up above the half. -/
theorem Rounding.increments_of_not_truncates {mode : Rounding} (hmode : ¬ mode.Truncates) (q : ℕ) :
    mode.increments false q .gt = true := by
  cases mode <;> first | rfl | exact absurd (by decide) hmode

namespace Context

variable (ctx : Context)

/-- A magnitude within the range stays within it under a truncating rule. -/
theorem abs_of_truncates (hmode : ctx.rounding.Truncates) (hemin : ctx.emin ≤ ctx.emax)
    {a : Decimal} (hmax : |a.value| < (10 : ℚ) ^ (ctx.emax + 1)) : ∃ r, ctx.abs a = .ok r := by
  by_cases hv : |a.value| = 0
  · obtain ⟨r, hr, -⟩ := ctx.abs_eq_ok_of (a := a) (v := 0) (by rw [roundValue, if_pos hv])
    exact ⟨r, hr⟩
  · have hlt := lt_pow_of_lastPlace ctx hv
    set lp := ctx.lastPlace |a.value| with hlp
    set q := |(|a.value|)| / (10 : ℚ) ^ lp with hq
    have hqnonneg : 0 ≤ q := by positivity
    have hneg : decide (|a.value| < 0) = false := by simp
    -- the digits that the context keeps are not carried over by truncation
    have hfloor : q.num.toNat / q.den < 10 ^ ctx.prec := by
      rw [Nat.div_lt_iff_lt_mul q.den_pos]
      have hnum : (q.num.toNat : ℚ) = q * q.den := by
        have h1 : ((q.num.toNat : ℤ) : ℚ) = q.num := by
          rw [Int.toNat_of_nonneg (Rat.num_nonneg.mpr hqnonneg)]
        calc (q.num.toNat : ℚ) = ((q.num.toNat : ℤ) : ℚ) := (Int.cast_natCast _).symm
          _ = q.num := h1
          _ = q * q.den := (Rat.mul_den_eq_num q).symm
      have hden : (0 : ℚ) < q.den := by exact_mod_cast q.den_pos
      have hmul : (q.num.toNat : ℚ) < 10 ^ ctx.prec * q.den := by
        rw [hnum]
        apply mul_lt_mul_of_pos_right _ hden
        exact_mod_cast hlt
      exact_mod_cast hmul
    have hc : roundRat ctx.rounding false q < 10 ^ ctx.prec :=
      hmode.roundDiv_lt ctx.prec_pos hfloor
    -- their last place is not above the largest exponent
    have htop : (ctx.prec : ℤ) + lp ≤ ctx.emax + 1 := by
      have hlog : Int.log 10 |(|a.value|)| < ctx.emax + 1 := by
        rw [abs_abs]
        exact (Int.lt_zpow_iff_log_lt (by norm_num) (abs_pos.mpr (by simpa using hv))).mp
          (by exact_mod_cast hmax)
      rw [hlp, lastPlace, etiny]
      omega
    have hmag : ctx.roundMagnitude |a.value| < (10 : ℚ) ^ (ctx.emax + 1) := by
      rw [roundMagnitude, hneg, ← hlp, ← hq]
      calc (roundRat ctx.rounding false q : ℚ) * (10 : ℚ) ^ lp
          < (10 : ℚ) ^ (ctx.prec : ℤ) * (10 : ℚ) ^ lp := by
            apply mul_lt_mul_of_pos_right _ (by positivity)
            exact_mod_cast hc
        _ = (10 : ℚ) ^ ((ctx.prec : ℤ) + lp) := by rw [zpow_add₀ (by norm_num)]
        _ ≤ (10 : ℚ) ^ (ctx.emax + 1) := zpow_le_zpow_right₀ (by norm_num) htop
    obtain ⟨r, hr, -⟩ := ctx.abs_eq_ok_of (a := a)
      (v := if |a.value| < 0 then -ctx.roundMagnitude |a.value| else ctx.roundMagnitude |a.value|)
      (by rw [roundValue, if_neg hv, if_neg (not_le.mpr hmag)])
    exact ⟨r, hr⟩

/-- The largest magnitude with more digits than the precision overflows under any other rule. -/
theorem abs_overflow (hmode : ¬ ctx.rounding.Truncates) (hemin : ctx.emin ≤ ctx.emax)
    {k : ℕ} (hk : ctx.prec < k) {a : Decimal} (hcoeff : a.coeff = 10 ^ k - 1)
    (hexp : a.exp + (k - 1) = ctx.emax) : ctx.abs a = .error .overflow := by
  apply ctx.abs_eq_error_of
  have hprec := ctx.prec_pos
  have hpow : 1 ≤ 10 ^ k := Nat.one_le_pow _ _ (by norm_num)
  have hten : 10 ≤ 10 ^ (k - ctx.prec) := by
    calc 10 = 10 ^ 1 := by norm_num
      _ ≤ 10 ^ (k - ctx.prec) := Nat.pow_le_pow_right (by norm_num) (by omega)
  have hsplit : 10 ^ k = 10 ^ ctx.prec * 10 ^ (k - ctx.prec) := by
    rw [← pow_add]
    congr 1
    omega
  have hpos : 0 < a.coeff := by
    have : 10 ≤ 10 ^ k := by
      calc 10 = 10 ^ 1 := by norm_num
        _ ≤ 10 ^ k := Nat.pow_le_pow_right (by norm_num) (by omega)
    omega
  -- the coefficient is a row of `k` nines
  have hdigits : numDigits a.coeff = k := by
    apply le_antisymm
    · rw [numDigits_le_iff (by omega)]
      omega
    · by_contra hlt
      have h1 : numDigits a.coeff ≤ k - 1 := by omega
      rw [numDigits_le_iff (by omega)] at h1
      have h2 : 10 ^ k = 10 ^ (k - 1) * 10 := by
        rw [← pow_succ]
        congr 1
        omega
      have h3 : 1 ≤ 10 ^ (k - 1) := Nat.one_le_pow _ _ (by norm_num)
      omega
  have habs : |a.value| = a.copyAbs.value := (value_copyAbs a).symm
  have hv : a.copyAbs.value ≠ 0 := by
    rw [ne_eq, value_eq_zero_iff]
    exact hpos.ne'
  -- the last place that the context keeps stands `k - prec` digits above that of the number
  have hlp : ctx.lastPlace a.copyAbs.value = ctx.emax - ctx.prec + 1 := by
    have hpos' : 0 < a.copyAbs.coeff := hpos
    rw [← exact_one, ctx.lastPlace_exact _ hpos' Nat.one_pos, leadingExp_one hpos',
      show numDigits a.copyAbs.coeff = k from hdigits, show a.copyAbs.exp = a.exp from rfl, etiny]
    omega
  have hq : |a.copyAbs.value| / (10 : ℚ) ^ (ctx.emax - ctx.prec + 1)
      = ((10 ^ k - 1 : ℕ) : ℚ) / ((10 ^ (k - ctx.prec) : ℕ) : ℚ) := by
    have hm : (10 : ℚ) ^ a.exp = (10 : ℚ) ^ (ctx.emax - ctx.prec + 1) / 10 ^ (k - ctx.prec) := by
      rw [← zpow_natCast, ← zpow_sub₀ (by norm_num)]
      congr 1
      omega
    have hne : (10 : ℚ) ^ (ctx.emax - ctx.prec + 1) ≠ 0 := by positivity
    rw [← habs, abs_abs, abs_value_eq_coeff, hcoeff, hm]
    push_cast
    field_simp
  -- rounding the nines away carries into a new digit
  have hround : roundRat ctx.rounding false
      (((10 ^ k - 1 : ℕ) : ℚ) / ((10 ^ (k - ctx.prec) : ℕ) : ℚ)) = 10 ^ ctx.prec := by
    have hpp : 1 ≤ 10 ^ ctx.prec := Nat.one_le_pow _ _ (by norm_num)
    have hform : 10 ^ k - 1
        = 10 ^ (k - ctx.prec) * (10 ^ ctx.prec - 1) + (10 ^ (k - ctx.prec) - 1) := by
      rw [hsplit, Nat.mul_sub, mul_comm (10 ^ ctx.prec)]
      have := Nat.le_mul_of_pos_right (10 ^ (k - ctx.prec)) hpp
      omega
    have hdiv : (10 ^ k - 1) / 10 ^ (k - ctx.prec) = 10 ^ ctx.prec - 1 := by
      rw [hform, Nat.mul_add_div (by omega), Nat.div_eq_of_lt (by omega), add_zero]
    have hmod : (10 ^ k - 1) % 10 ^ (k - ctx.prec) = 10 ^ (k - ctx.prec) - 1 := by
      rw [hform, Nat.mul_add_mod, Nat.mod_eq_of_lt (by omega)]
    have hcmp : compare (2 * (10 ^ (k - ctx.prec) - 1)) (10 ^ (k - ctx.prec)) = .gt := by
      rw [Nat.compare_eq_gt]
      omega
    rw [← roundDiv_eq_roundRat _ _ (by omega), roundDiv, hdiv, hmod, hcmp,
      if_neg (by omega), if_pos (Rounding.increments_of_not_truncates hmode _)]
    omega
  -- the result has one digit more than the largest exponent allows
  have hmag : ctx.roundMagnitude a.copyAbs.value = (10 : ℚ) ^ (ctx.emax + 1) := by
    have hneg : decide (a.copyAbs.value < 0) = false := by
      rw [value_copyAbs]
      simp
    rw [roundMagnitude, hneg, hlp, hq, hround]
    push_cast
    rw [← zpow_natCast, ← zpow_add₀ (by norm_num)]
    congr 1
    omega
  rw [habs, roundValue, if_neg hv, hmag, if_pos le_rfl]

end Context

end Decimal
