/-
# Plain decimal texts

The fixed-point text of a decimal without the zeros behind its last place.

* `trimPlaces` drops the zeros on the number, `stripPlaces` on the text; `stripPlaces_fixedBody`
  says that the two agree.
* `plainText_eq_iff`: two decimals have one plain text exactly when they are equal, with equal signs
  for zeros.
-/
import EvidenceLab.NormalizedFigures

namespace Decimal

/-! ## Zeros behind the point -/

/-- A coefficient with `k` places, without the zeros at its end. -/
def trimPlaces : ℕ → ℕ → ℕ × ℕ
  | 0, c => (c, 0)
  | k + 1, c => if c % 10 = 0 then trimPlaces k (c / 10) else (c, k + 1)

/-- `text.rstrip("0").rstrip(".")` of a text with a point. -/
def stripPlaces (text : List Char) : List Char :=
  if '.' ∈ text then (text.rdropWhile (· == '0')).rdropWhile (· == '.') else text

/-- The coefficient and the places of the plain spelling. -/
def plainParts (a : Decimal) : ℕ × ℕ :=
  if 0 ≤ a.exp then (a.coeff * 10 ^ a.exp.toNat, 0) else trimPlaces (-a.exp).toNat a.coeff

/-- The plain spelling of a decimal. -/
def plain (a : Decimal) : Decimal := ⟨a.neg, a.plainParts.1, -(a.plainParts.2 : ℤ)⟩

/-- `format(a, "f")`: a zero is written without the zeros of its exponent. -/
def formatF (a : Decimal) : List Char :=
  fixedText (if a.coeff = 0 ∧ 0 < a.exp then { a with exp := 0 } else a)

/-- The plain text. -/
def plainText (a : Decimal) : List Char := stripPlaces a.formatF

/-- Trimming keeps the value and leaves no trailing zero behind the point. -/
theorem trimPlaces_spec (k c : ℕ) :
    ((trimPlaces k c).1 : ℚ) * 10 ^ (-((trimPlaces k c).2 : ℤ)) = c * 10 ^ (-(k : ℤ))
      ∧ ((trimPlaces k c).2 ≠ 0 → (trimPlaces k c).1 % 10 ≠ 0) := by
  induction k generalizing c with
  | zero => exact ⟨rfl, fun h => absurd rfl h⟩
  | succ k ih =>
      rw [trimPlaces]
      split_ifs with h
      · obtain ⟨hvalue, hlast⟩ := ih (c / 10)
        refine ⟨?_, hlast⟩
        have hc : (c : ℚ) = ((c / 10 : ℕ) : ℚ) * 10 := by
          exact_mod_cast (Nat.div_mul_cancel (Nat.dvd_of_mod_eq_zero h)).symm
        rw [hvalue, hc, mul_assoc, ← zpow_one_add₀ (by norm_num)]
        push_cast
        congr 2
        ring
      · exact ⟨rfl, fun _ => h⟩

theorem plain_value (a : Decimal) : a.plain.value = a.value := by
  unfold plain plainParts
  split_ifs with he
  · simp only [Decimal.value]
    push_cast
    rw [← zpow_natCast, Int.toNat_of_nonneg he]
    ring
  · have h := (trimPlaces_spec (-a.exp).toNat a.coeff).1
    rw [Int.toNat_of_nonneg (by omega), neg_neg] at h
    simp only [Decimal.value]
    rw [mul_assoc, h, ← mul_assoc]

/-- Equal numbers have one plain spelling. -/
theorem plainParts_eq {a b : Decimal} (h : |a.value| = |b.value|) :
    a.plainParts = b.plainParts := by
  have hlast : ∀ d : Decimal, d.plainParts.2 ≠ 0 → d.plainParts.1 % 10 ≠ 0 := by
    intro d hd
    unfold plainParts at hd ⊢
    split_ifs at hd ⊢ with he
    · exact absurd rfl hd
    · exact (trimPlaces_spec _ _).2 hd
  have hvalue : (a.plainParts.1 : ℚ) * 10 ^ (-(a.plainParts.2 : ℤ)) = b.plainParts.1
      * 10 ^ (-(b.plainParts.2 : ℤ)) := by
    rw [← plain_value a, ← plain_value b, abs_value_eq_coeff, abs_value_eq_coeff] at h
    exact h
  -- a number with places is no whole number
  have hwhole : ∀ {c c' k : ℕ}, k ≠ 0 → c % 10 ≠ 0 → (c : ℚ) * 10 ^ (-(k : ℤ)) ≠ c' := by
    intro c c' k hk hc heq
    obtain ⟨m, rfl⟩ := Nat.exists_eq_succ_of_ne_zero hk
    rw [zpow_neg, zpow_natCast, ← div_eq_mul_inv, div_eq_iff (by positivity), pow_succ] at heq
    have hnat : c = c' * (10 ^ m * 10) := by exact_mod_cast heq
    exact hc (by rw [hnat, ← mul_assoc, Nat.mul_mod_left])
  by_cases ha : a.plainParts.2 = 0 <;> by_cases hb : b.plainParts.2 = 0
  · rw [ha, hb] at hvalue
    simp only [Nat.cast_zero, neg_zero, zpow_zero, mul_one] at hvalue
    exact Prod.ext (by exact_mod_cast hvalue) (ha.trans hb.symm)
  · rw [ha] at hvalue
    simp only [Nat.cast_zero, neg_zero, zpow_zero, mul_one] at hvalue
    exact absurd hvalue.symm (hwhole hb (hlast b hb))
  · rw [hb] at hvalue
    simp only [Nat.cast_zero, neg_zero, zpow_zero, mul_one] at hvalue
    exact absurd hvalue (hwhole ha (hlast a ha))
  · obtain ⟨hc, he⟩ := coeff_exp_unique (hlast a ha) (hlast b hb) hvalue
    exact Prod.ext hc (by omega)

/-- Plain forms are equal where the values are, and the signs of zeros. -/
theorem plain_eq_iff {a b : Decimal} :
    a.plain = b.plain ↔ a.value = b.value ∧ (a.value = 0 → a.neg = b.neg) := by
  constructor
  · intro h
    exact ⟨by rw [← plain_value a, h, plain_value],
      fun _ => (congrArg Decimal.neg h : a.plain.neg = b.plain.neg)⟩
  · rintro ⟨hvalue, hzero⟩
    have hneg : a.neg = b.neg := by
      by_cases h0 : a.value = 0
      · exact hzero h0
      · have hac : a.coeff ≠ 0 := fun hc => h0 ((value_eq_zero_iff a).mpr hc)
        have hbc : b.coeff ≠ 0 := fun hc => h0 (hvalue.trans ((value_eq_zero_iff b).mpr hc))
        rw [Bool.eq_iff_iff, ← Context.value_neg_iff hac, ← Context.value_neg_iff hbc, hvalue]
    have hparts := plainParts_eq (congrArg abs hvalue)
    rw [plain, plain, hparts, hneg]

/-! ## Zeros behind the point of a text -/

/-- Ten times a number has one zero more. -/
theorem toDigits_mul_ten {c : ℕ} (hc : 0 < c) :
    Nat.toDigits 10 (c * 10) = Nat.toDigits 10 c ++ ['0'] := by
  have h := Nat.toDigits_append_toDigits (b := 10) (n := c) (d := 0) (by norm_num) hc (by norm_num)
  rw [Nat.toDigits_zero, Nat.add_zero, mul_comm] at h
  exact h.symm

theorem toDigits_mul_pow {c : ℕ} (hc : 0 < c) (k : ℕ) :
    Nat.toDigits 10 (c * 10 ^ k) = Nat.toDigits 10 c ++ List.replicate k '0' := by
  induction k with
  | zero => simp
  | succ k ih =>
      rw [pow_succ, ← mul_assoc, toDigits_mul_ten (Nat.mul_pos hc (Nat.pow_pos (by norm_num))), ih,
        List.append_assoc,
        ← List.replicate_succ']

theorem paddedDigits_mul_ten (c k : ℕ) :
    paddedDigits (c * 10) (k + 1) = paddedDigits c k ++ ['0'] := by
  rcases Nat.eq_zero_or_pos c with rfl | hc
  · rw [Nat.zero_mul, paddedDigits, paddedDigits, Nat.toDigits_zero, List.length_singleton,
      Nat.add_sub_cancel,
      Nat.add_sub_cancel, List.replicate_succ']
  · rw [paddedDigits, paddedDigits, toDigits_mul_ten hc, List.length_append, List.length_singleton,
      Nat.add_sub_add_right, List.append_assoc]

theorem paddedDigits_zero (c : ℕ) : paddedDigits c 0 = Nat.toDigits 10 c := by
  obtain ⟨d, ds, hd, -⟩ := Json.toDigits_head c
  rw [paddedDigits, hd, List.length_cons, Nat.sub_eq_zero_of_le (by omega), List.replicate_zero,
    List.nil_append]

/-- One place more, a zero. -/
theorem fixedBody_mul_ten (c k : ℕ) :
    fixedBody (c * 10) (-((k + 1 : ℕ) : ℤ)) =
      (paddedDigits c k).take ((paddedDigits c k).length - k) ++ '.'
      :: ((paddedDigits c k).drop ((paddedDigits c k).length - k) ++ ['0']) := by
  have hk : (-(-((k + 1 : ℕ) : ℤ))).toNat = k + 1 := by omega
  rw [fixedBody, if_neg (by omega)]
  simp only [hk, paddedDigits_mul_ten, List.length_append, List.length_singleton,
    Nat.add_sub_add_right]
  rw [List.take_append_of_le_length (by omega), List.drop_append_of_le_length (by omega)]

theorem no_point_of_digits {cs : List Char} (h : ∀ c ∈ cs, c.isDigit = true) : '.' ∉ cs := by
  intro hmem
  exact absurd (h _ hmem) (by decide)

theorem rdropWhile_of_last {p : Char → Bool} {cs : List Char} {c : Char} (hc : p c = false) :
    (cs ++ [c]).rdropWhile p = cs ++ [c] := List.rdropWhile_concat_neg _ _ _ (by simp [hc])

/-- A trailing zero behind the point is stripped. -/
theorem stripPlaces_zero {text : List Char} (h : '.' ∈ text) :
    stripPlaces (text ++ ['0']) = stripPlaces text := by
  rw [stripPlaces, if_pos (List.mem_append_left _ h), stripPlaces, if_pos h,
    List.rdropWhile_concat_pos _ _ _ (by decide)]

/-- A fraction of zero is stripped with its point. -/
theorem stripPlaces_point {cs : List Char} (hne : cs ≠ []) (h : ∀ c ∈ cs, c.isDigit = true) :
    stripPlaces (cs ++ ['.', '0']) = cs := by
  obtain ⟨ds, d, rfl⟩ := List.eq_nil_or_concat cs |>.resolve_left hne
  rw [List.concat_eq_append] at h ⊢
  have hd : (d == '.') = false := by
    rw [beq_eq_false_iff_ne]
    rintro rfl
    exact absurd (h '.' (by simp)) (by decide)
  rw [stripPlaces, if_pos (by simp), show ds ++ [d] ++ ['.', '0'] = (ds ++ [d] ++ ['.']) ++ ['0'] by
    simp,
    List.rdropWhile_concat_pos _ _ _ (by decide), rdropWhile_of_last (by decide),
    List.rdropWhile_concat_pos _ _ _ (by decide),
    rdropWhile_of_last (p := (· == '.')) hd]

/-- **Stripping the text is trimming the number.** -/
theorem stripPlaces_fixedBody (k c : ℕ) :
    stripPlaces (fixedBody c (-(k : ℤ)))
    = fixedBody (trimPlaces k c).1 (-((trimPlaces k c).2 : ℤ)) := by
  have hwhole : ∀ c, fixedBody c (-((0 : ℕ) : ℤ)) = Nat.toDigits 10 c := by
    intro c
    rw [fixedBody, if_pos (by norm_num)]
    simp
  induction k generalizing c with
  | zero =>
      rw [trimPlaces, hwhole]
      exact if_neg (no_point_of_digits (Json.isDigit_toDigits c))
  | succ k ih =>
      rw [trimPlaces]
      split_ifs with hc
      · obtain ⟨c', rfl⟩ : ∃ c', c = c' * 10 :=
        ⟨c / 10, (Nat.div_mul_cancel (Nat.dvd_of_mod_eq_zero hc)).symm⟩
        rw [Nat.mul_div_cancel _ (by norm_num), ← ih, fixedBody_mul_ten]
        cases k with
        | zero =>
            obtain ⟨d, ds, hd, -⟩ := Json.toDigits_head c'
            rw [hwhole, paddedDigits_zero, Nat.sub_zero, List.take_length, List.drop_length,
              List.nil_append,
              stripPlaces_point (by rw [hd]; simp) (Json.isDigit_toDigits c')]
            exact (if_neg (no_point_of_digits (Json.isDigit_toDigits c'))).symm
        | succ k =>
            have hbody : fixedBody c' (-((k + 1 : ℕ) : ℤ))
                = (paddedDigits c' (k + 1)).take ((paddedDigits c' (k + 1)).length - (k + 1))
                ++ '.' :: (paddedDigits c' (k + 1)).drop
                  ((paddedDigits c' (k + 1)).length - (k + 1)) := by
              have hk : (-(-((k + 1 : ℕ) : ℤ))).toNat = k + 1 := by omega
              rw [fixedBody, if_neg (by omega)]
              simp only [hk]
            rw [hbody, ← List.cons_append, ← List.append_assoc, stripPlaces_zero (by simp)]
      · -- the last digit stays
        obtain ⟨cs, hcs⟩ := fixedBody_last (c := c) (e := -((k + 1 : ℕ) : ℤ)) (by omega)
        have hlast : (Nat.digitChar (c % 10) == '0') = false :=
          beq_eq_false_iff_ne.mpr (digitChar_ne_zero hc)
        have hpoint : (Nat.digitChar (c % 10) == '.') = false := by
          have hlt : c % 10 < 10 := Nat.mod_lt c (by norm_num)
          generalize c % 10 = n at hlt
          interval_cases n <;> decide
        simp only
        rw [hcs, stripPlaces]
        split_ifs with hmem
        · rw [rdropWhile_of_last (p := (· == '0')) hlast,
            rdropWhile_of_last (p := (· == '.')) hpoint]
        · rfl

theorem rdropWhile_cons {p : Char → Bool} {cs : List Char} (h : cs.rdropWhile p ≠ []) (c : Char) :
    (c :: cs).rdropWhile p = c :: cs.rdropWhile p := by
  rw [List.rdropWhile, ne_eq, List.reverse_eq_nil_iff] at h
  have hempty : (cs.reverse.dropWhile p).isEmpty = false := by
    rw [List.isEmpty_eq_false_iff]
    exact h
  rw [List.rdropWhile, List.reverse_cons, List.dropWhile_append, hempty]
  simp [List.rdropWhile]

/-- The sign is not stripped. -/
theorem stripPlaces_sign {c : Char} {cs : List Char} (hc : c.isDigit = true) :
    stripPlaces ('-' :: c :: cs) = '-' :: stripPlaces (c :: cs) := by
  have hsign : '.' ∈ '-' :: c :: cs ↔ '.' ∈ c :: cs := by simp
  rw [stripPlaces, stripPlaces]
  simp only [hsign]
  split_ifs with hmem
  · have hzero : (c :: cs).rdropWhile (· == '0') ≠ [] := by
      rw [ne_eq, List.rdropWhile_eq_nil_iff]
      intro hall
      exact absurd (hall '.' hmem) (by decide)
    have hpoint : ((c :: cs).rdropWhile (· == '0')).rdropWhile (· == '.') ≠ [] := by
      rw [ne_eq, List.rdropWhile_eq_nil_iff]
      intro hall
      -- the first digit is still there
      obtain ⟨d, ds, hd⟩ := List.exists_cons_of_ne_nil hzero
      have hprefix := List.rdropWhile_prefix (p := (· == '0')) (l := c :: cs)
      rw [hd, List.cons_prefix_cons] at hprefix
      have hpd := hall d (by rw [hd]; exact List.mem_cons_self)
      rw [beq_iff_eq] at hpd
      rw [← hprefix.1, hpd] at hc
      exact absurd hc (by decide)
    rw [rdropWhile_cons hzero, rdropWhile_cons hpoint]
  · rfl

/-- **The plain text is the text of the plain spelling.** -/
theorem plainText_eq (a : Decimal) : a.plainText = a.plain.fixedText := by
  have hbody : ∀ c e, (c = 0 → e ≤ 0) → stripPlaces (fixedBody c e) =
      fixedBody (plainParts ⟨false, c, e⟩).1 (-((plainParts ⟨false, c, e⟩).2 : ℤ)) := by
    intro c e hce
    unfold plainParts
    simp only
    split_ifs with he
    · have hno : '.' ∉ fixedBody c e := by
        rw [fixedBody, if_pos he]
        refine no_point_of_digits fun d hd => ?_
        rcases List.mem_append.mp hd with hd | hd
        · exact Json.isDigit_toDigits c d hd
        · rw [List.eq_of_mem_replicate hd]
          rfl
      rw [stripPlaces, if_neg hno, fixedBody, if_pos he, fixedBody, if_pos (by simp)]
      rcases Nat.eq_zero_or_pos c with rfl | hc
      · obtain rfl : e = 0 := le_antisymm (hce rfl) he
        rfl
      · simp [toDigits_mul_pow hc]
    · obtain ⟨k, rfl⟩ : ∃ k : ℕ, e = -(k : ℤ) := ⟨(-e).toNat, by omega⟩
      rw [neg_neg, Int.toNat_natCast]
      exact stripPlaces_fixedBody k c
  have hzero : ∀ a : Decimal, (a.coeff = 0 → a.exp ≤ 0) →
      stripPlaces a.fixedText = a.plain.fixedText := by
    intro a ha
    obtain ⟨neg, c, e⟩ := a
    have hb := hbody c e ha
    obtain ⟨d, ds, hd, hdig⟩ := fixedBody_head c e
    cases neg with
    | false => exact hb
    | true =>
        rw [fixedText, if_pos rfl, hd, stripPlaces_sign hdig, ← hd, hb]
        rfl
  rw [plainText, formatF]
  split_ifs with h
  · rw [hzero _ (by simp)]
    have hplain : ({ a with exp := 0 } : Decimal).plain = a.plain := by
      simp [plain, plainParts, h.1, h.2.le]
    rw [hplain]
  · exact hzero a fun hc => not_lt.mp fun he => h ⟨hc, he⟩

/-- A plain text starts with a sign or a digit. -/
theorem plainText_ne_nil (a : Decimal) : a.plainText ≠ [] := by
  rw [plainText_eq, fixedText]
  obtain ⟨d, ds, hd, -⟩ := fixedBody_head a.plain.coeff a.plain.exp
  split_ifs <;> simp [hd]

/-- **The plain text is read back** as its value. -/
theorem readFixed_plainText (a : Decimal) : readFixed a.plainText = a.value := by
  rw [plainText_eq, readFixed_fixedText, plain_value]

/-- The plain text begins with a minus sign if the number is negative. -/
theorem head?_plainText (a : Decimal) : a.plainText.head? = some '-' ↔ a.neg = true := by
  rw [plainText_eq, fixedText]
  obtain ⟨d, ds, hd, hdig⟩ := fixedBody_head a.plain.coeff a.plain.exp
  have hne : d ≠ '-' := by
    rintro rfl
    exact absurd hdig (by decide)
  cases hneg : a.neg with
  | true => simp [plain, hneg]
  | false => simp [show a.plain.neg = false from hneg, hd, hne]

/-- **One plain text, one number**, with a sign on zero. -/
theorem plainText_eq_iff {a b : Decimal} :
    a.plainText = b.plainText ↔ a.value = b.value ∧ (a.value = 0 → a.neg = b.neg) := by
  constructor
  · intro h
    refine ⟨by rw [← readFixed_plainText a, h, readFixed_plainText], fun _ => ?_⟩
    rw [Bool.eq_iff_iff, ← head?_plainText, ← head?_plainText, h]
  · intro h
    rw [plainText_eq, plainText_eq, plain_eq_iff.mpr h]

end Decimal
