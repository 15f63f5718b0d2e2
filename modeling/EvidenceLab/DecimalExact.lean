/-
# Exact results

When an operation of a decimal context returns the exact result: `Holds` says that the context has a
decimal of the value.  Negation and shifting round to the context, and a rounding that a later shift
could undo is none (`exact_of_shift`).
-/
import EvidenceLab.DecimalRounding

namespace Decimal

namespace Context

variable (ctx : Context)

/-- The context has a decimal of this value. -/
def HoldsValue (v : ℚ) : Prop := ∃ a : Decimal, Result ctx a ∧ a.value = v

/-- The value is too large for the context, even rounded. -/
def Overflows (v : ℚ) : Prop := ctx.roundValue v = none

/-- `-a` in the context: a zero has no sign, unless the context rounds down. -/
def minus (a : Decimal) : Except Signal Decimal :=
  ctx.finalize (if a.coeff = 0 then decide (ctx.rounding = .floor) && !a.neg else !a.neg)
    a.coeff 1 a.exp a.exp

/-- `a.scaleb(n)` with the bound that the specification sets for `n`. -/
def shift (a : Decimal) (n : ℤ) : Except Signal Decimal :=
  if 2 * (ctx.emax + ctx.prec) < |n| then .error .invalidOperation else ctx.scaleb a n

variable {ctx}

/-- Finalizing raises an overflow only. -/
theorem finalize_eq_error {neg : Bool} {n d : ℕ} {x ideal : ℤ} {s : Signal}
    (h : ctx.finalize neg n d x ideal = .error s) :
    s = .overflow := by
  unfold finalize at h
  simp only at h
  split_ifs at h
  exact (Except.error.inj h).symm

/-- A negation is the rounded opposite. -/
theorem minus_value (a : Decimal) :
    (ctx.minus a).toOption.map Decimal.value = ctx.roundValue (-a.value) := by
  rw [minus, ctx.finalize_value _ _ Nat.one_pos]
  congr 1
  by_cases hz : a.coeff = 0
  · simp [hz, exact, Decimal.value]
  · rw [if_neg hz, ← value_copyNegate, ← exact_one]
    rfl

/-- A rounded value is exact when the context holds it. -/
theorem roundValue_eq_self_iff (hrange : ctx.etiny ≤ ctx.emax) {a : Decimal} :
    ctx.roundValue a.value = some a.value ↔ ctx.HoldsValue a.value := by
  constructor
  · intro h
    have hplus := ctx.plus_value a
    rw [h] at hplus
    obtain ⟨r, hr, hvalue⟩ := exists_of_toOption hplus
    exact ⟨r, result_of_finalize hrange hr, hvalue⟩
  · rintro ⟨b, hb, hvalue⟩
    rw [← hvalue]
    exact hb.roundValue

theorem HoldsValue.neg {v : ℚ} (h : ctx.HoldsValue v) : ctx.HoldsValue (-v) := by
  obtain ⟨a, ha, rfl⟩ := h
  exact ⟨a.copyNegate, ha.copyNegate, value_copyNegate a⟩

theorem holdsValue_neg_iff {v : ℚ} : ctx.HoldsValue (-v) ↔ ctx.HoldsValue v :=
  ⟨fun h => neg_neg v ▸ h.neg, HoldsValue.neg⟩

/-- A number that is held does not overflow. -/
theorem HoldsValue.not_overflows {v : ℚ} (h : ctx.HoldsValue v) : ¬ ctx.Overflows v := by
  obtain ⟨a, ha, rfl⟩ := h
  rw [Overflows, ha.roundValue]
  exact Option.some_ne_none _

/-- A shifted result, to the left. -/
theorem value_shifted (a : Decimal) (n : ℤ) :
    (⟨a.neg, a.coeff, a.exp + n⟩ : Decimal).value = a.value * 10 ^ n := by
  simp only [Decimal.value]
  rw [zpow_add₀ (by norm_num)]
  ring

/-- **No shift undoes a rounding.**  A rounded operand whose shift is the exact shift of the operand
was not changed by the rounding. -/
theorem exact_of_shift (hrange : ctx.etiny ≤ ctx.emax) {v : ℚ} {a r : Decimal} {n : ℤ}
    (ha : Result ctx a)
    (hround : ctx.roundValue v = some a.value) (hr : ctx.scaleb a n = .ok r)
    (hvalue : r.value = v * 10 ^ n) :
    a.value = v := by
  have h10 : (10 : ℚ) ^ n ≠ 0 := zpow_ne_zero n (by norm_num)
  rcases le_or_gt 0 n with hn | hn
  · -- shifted to the left, the result is exact
    have hexact := ha.scaleb hn hr
    rw [hvalue] at hexact
    exact (mul_right_cancel₀ h10 hexact).symm
  · -- shifted to the right, the operand is the result shifted to the left
    have hres : Result ctx r := result_of_finalize hrange hr
    have hv : (⟨r.neg, r.coeff, r.exp + -n⟩ : Decimal).value = v := by
      rw [value_shifted, hvalue, mul_assoc, ← zpow_add₀ (by norm_num), add_neg_cancel,
        zpow_zero, mul_one]
    have hexp : ctx.etiny ≤ r.exp + -n := by
      have := hres.etiny_le
      omega
    have hself :=
      roundValue_eq_self (a := ⟨r.neg, r.coeff, r.exp + -n⟩) hres.digits hexp
        (by rw [hv]; exact hround)
    rw [hself, hv]

end Context

end Decimal
