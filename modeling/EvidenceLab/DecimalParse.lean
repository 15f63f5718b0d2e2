/-
# Decimals from texts

`Decimal.ofText` is the decimal constructor of Python on a text: blanks at the ends and underscores
go, decimal digits of every script count, and the number is taken over exactly, with an error for an
exponent that the type does not hold.
-/
import EvidenceLab.DecimalText
import EvidenceLab.PyText

namespace PyText

/-- The value of a decimal digit. -/
def digitValue? (c : Char) : Option ℕ :=
  (decimalZeros.find? fun first => first ≤ c.toNat && c.toNat < first + 10).map fun first =>
  c.toNat - first

theorem not_isSpace_of_isDecimal {c : Char} (h : isDecimal c = true) : isSpace c = false := by
  by_contra hspace
  rw [Bool.not_eq_false] at hspace
  unfold isDecimal at h
  unfold isSpace at hspace
  generalize c.toNat = n at h hspace
  simp only [Bool.or_eq_true, Bool.and_eq_true, decide_eq_true_eq, beq_iff_eq] at hspace
  have hcases : (9 ≤ n ∧ n ≤ 13) ∨ (28 ≤ n ∧ n ≤ 32) ∨ n = 0x85 ∨ n = 0xa0 ∨ n = 0x1680
      ∨ (0x2000 ≤ n ∧ n ≤ 0x200a) ∨ n = 0x2028 ∨ n = 0x2029 ∨ n = 0x202f ∨ n = 0x205f
        ∨ n = 0x3000 := by
    tauto
  rcases hcases with ⟨h1, h2⟩ | ⟨h1, h2⟩ | rfl | rfl | rfl | ⟨h1, h2⟩ | rfl | rfl | rfl | rfl | rfl
  all_goals first
    | (revert h; decide)
    | (interval_cases n <;> (revert h; decide))

/-- A decimal digit has a value below ten. -/
theorem digitValue?_lt {c : Char} (h : isDecimal c = true) :
    ∃ n, digitValue? c = some n ∧ n < 10 := by
  unfold isDecimal at h
  rw [List.any_eq_true] at h
  have hsome :
      (decimalZeros.find? fun first => first ≤ c.toNat && c.toNat < first + 10).isSome := by
    rw [List.find?_isSome]
    exact h
  obtain ⟨first, hfirst⟩ := Option.isSome_iff_exists.mp hsome
  refine ⟨c.toNat - first, by rw [digitValue?, hfirst]; rfl, ?_⟩
  have hrange := List.find?_some hfirst
  simp only [Bool.and_eq_true, decide_eq_true_eq] at hrange
  omega

end PyText

namespace Decimal

/-- What the constructor makes of a text that it accepts. -/
inductive Reading where
  | finite (d : Decimal)
  /-- An infinity or a NaN. -/
  | special
  deriving DecidableEq

/-- A character as the constructor reads it. -/
def asciiOf (c : Char) : Option Char :=
  if 0 < c.toNat ∧ c.toNat ≤ 127 then some c
  else if PyText.isSpace c then some ' '
  else (PyText.digitValue? c).map Nat.digitChar

/-- The number of a run of digits. -/
def digits? (cs : List Char) : Option ℕ :=
  if cs ≠ [] ∧ cs.all Char.isDigit then some (Nat.ofDigitChars 10 cs 0) else none

/-- An exponent part. -/
def exponent? : List Char → Option ℤ
  | '+' :: ds => (digits? ds).map fun n => (n : ℤ)
  | '-' :: ds => (digits? ds).map fun n => -(n : ℤ)
  | ds => (digits? ds).map fun n => (n : ℤ)

def notIndicator (c : Char) : Bool := c != 'e' && c != 'E'

/-- The places after the point. -/
def fraction? : List Char → Option (List Char)
  | [] => some []
  | '.' :: ds => if ds.all Char.isDigit then some ds else none
  | _ => none

/-- Coefficient and exponent of a number without a sign. -/
def number? (cs : List Char) : Option (ℕ × ℤ) := do
  let mantissa := cs.takeWhile notIndicator
  let whole := mantissa.takeWhile Char.isDigit
  let places ← fraction? (mantissa.dropWhile Char.isDigit)
  let exponent ← match cs.dropWhile notIndicator with
    | [] => some 0
    | _ :: ds => exponent? ds
  if whole ++ places = [] then none
  else some (Nat.ofDigitChars 10 (whole ++ places) 0, exponent - places.length)

/-- `Infinity` and the NaNs, in any case. -/
def isSpecial (cs : List Char) : Bool :=
  let low := cs.map Char.toLower
  low = "inf".toList || low = "infinity".toList
    || (low.take 3 = "nan".toList && (low.drop 3).all Char.isDigit)
    || (low.take 4 = "snan".toList && (low.drop 4).all Char.isDigit)

/-- The exponents that the type holds. -/
def InRange (c : ℕ) (e : ℤ) : Prop :=
  e + numDigits c ≤ 1000000000000000000 ∧ -1999999999999999997 ≤ e

instance (c : ℕ) (e : ℤ) : Decidable (InRange c e) := inferInstanceAs (Decidable (_ ∧ _))

/-- The sign and the rest. -/
def splitSign : List Char → Bool × List Char
  | '-' :: cs => (true, cs)
  | '+' :: cs => (false, cs)
  | cs => (false, cs)

/-- `Decimal(text)`, with `none` for `InvalidOperation`. -/
def ofText (text : List Char) : Option Reading := do
  let ascii ← ((PyText.strip text).filter (· != '_')).mapM asciiOf
  let (neg, rest) := splitSign ascii
  if isSpecial rest then some .special
  else
    let (c, e) ← number? rest
    if InRange c e then some (.finite ⟨neg, c, e⟩) else none

/-! ## The spelling without trailing zeros -/

/-- Coefficient and exponent without the trailing zeros of the coefficient. -/
def trimmed (d : Decimal) : ℕ × ℤ :=
  dropZeros (numDigits d.coeff) d.coeff d.exp (d.exp + numDigits d.coeff)

/-- Trimming keeps the value and leaves no trailing zero. -/
theorem trimmed_spec (d : Decimal) (h : d.coeff ≠ 0) :
    (d.trimmed.1 : ℚ) * 10 ^ d.trimmed.2 = d.coeff * 10 ^ d.exp ∧ d.trimmed.1 % 10 ≠ 0 := by
  have hpos : 0 < d.coeff := Nat.pos_of_ne_zero h
  obtain ⟨hval, hle, hexp⟩ :=
    dropZeros_spec (numDigits d.coeff) d.coeff d.exp (d.exp + numDigits d.coeff)
  refine ⟨hval, ?_⟩
  rcases dropZeros_stops (numDigits d.coeff) d.coeff d.exp (d.exp + numDigits d.coeff) hpos
    (lt_pow_numDigits d.coeff) with hz | hz
  · exact hz
  · -- dropping as many zeros as there are digits would leave nothing
    exfalso
    have hone : (1 : ℚ) ≤ d.trimmed.1 := by exact_mod_cast dropZeros_pos _ _ _ hpos
    have hlt : (d.coeff : ℚ) < 10 ^ ((numDigits d.coeff : ℕ) : ℤ) := by
      rw [zpow_natCast]
      exact_mod_cast lt_pow_numDigits d.coeff
    have h10 : (0 : ℚ) < 10 ^ d.exp := by positivity
    have hpow : (10 : ℚ) ^ (d.exp + numDigits d.coeff) ≤ 10 ^ d.trimmed.2 :=
      zpow_le_zpow_right₀ (by norm_num) hz
    rw [zpow_add₀ (by norm_num)] at hpow
    have hval' : (d.trimmed.1 : ℚ) * 10 ^ d.trimmed.2 = d.coeff * 10 ^ d.exp := hval
    nlinarith [mul_le_mul_of_nonneg_right hone (show (0 : ℚ) ≤ 10 ^ d.trimmed.2 by positivity)]

/-! ## Plain numbers -/

open PyText

theorem digitChar_isDigit {n : ℕ} (h : n < 10) : (Nat.digitChar n).isDigit = true := by
  interval_cases n <;> rfl

/-- A digit of any script as an ASCII one. -/
def asciiDigit (c : Char) : Char := ((digitValue? c).map Nat.digitChar).getD c

/-- A decimal digit has an ASCII form. -/
theorem asciiDigit_isDigit {c : Char} (h : isDecimal c = true) : (asciiDigit c).isDigit = true := by
  obtain ⟨n, hn, hlt⟩ := digitValue?_lt h
  rw [asciiDigit, hn]
  exact digitChar_isDigit hlt

theorem asciiDigit_of_ascii {c : Char} (h : isDecimal c = true) (hc : c.toNat ≤ 127) :
    asciiDigit c = c := by
  have hrange : 48 ≤ c.toNat ∧ c.toNat < 58 := by
    unfold isDecimal at h
    rw [List.any_eq_true] at h
    obtain ⟨first, hmem, hfirst⟩ := h
    simp only [Bool.and_eq_true, decide_eq_true_eq] at hfirst
    have hzeros : ∀ z ∈ decimalZeros, z = 48 ∨ 127 < z := by decide
    rcases hzeros first hmem with rfl | hlarge <;> omega
  obtain ⟨hlo, hhi⟩ := hrange
  rw [← Char.ofNat_toNat c]
  generalize c.toNat = n at *
  interval_cases n <;> decide

/-- A decimal digit is read as its ASCII form. -/
theorem asciiOf_of_isDecimal {c : Char} (h : isDecimal c = true) :
    asciiOf c = some (asciiDigit c) := by
  unfold asciiOf
  split_ifs with hascii hspace
  · rw [asciiDigit_of_ascii h hascii.2]
  · rw [not_isSpace_of_isDecimal h] at hspace
    cases hspace
  · obtain ⟨n, hn, -⟩ := digitValue?_lt h
    rw [asciiDigit, hn]
    rfl

/-- A whole part and its places, with a point where there are any. -/
def pointed (whole places : List Char) : List Char :=
  if places = [] then whole else whole ++ '.' :: places

theorem mem_pointed {whole places : List Char} {c : Char} (h : c ∈ pointed whole places) :
    c ∈ whole ∨ c ∈ places ∨ c = '.' := by
  unfold pointed at h
  split_ifs at h
  · exact Or.inl h
  · rcases List.mem_append.mp h with h | h
    · exact Or.inl h
    · rcases List.mem_cons.mp h with h | h
      · exact Or.inr (Or.inr h)
      · exact Or.inr (Or.inl h)

theorem map_pointed {f : Char → Char} (hf : f '.' = '.') (whole places : List Char) :
    (pointed whole places).map f = pointed (whole.map f) (places.map f) := by
  unfold pointed
  simp only [List.map_eq_nil_iff]
  split_ifs
  · rfl
  · simp [hf]

/-- The constructor on ASCII digits with a point. -/
theorem number?_pointed {whole places : List Char} (hwhole : ∀ c ∈ whole, c.isDigit = true)
    (hplaces : ∀ c ∈ places, c.isDigit = true) (hne : whole ++ places ≠ []) :
    number? (pointed whole places) = some (Nat.ofDigitChars 10 (whole ++ places) 0,
      -(places.length : ℤ)) := by
  have hind : ∀ c ∈ pointed whole places, notIndicator c = true := by
    intro c hc
    have hdigit : ∀ d : Char, d.isDigit = true → notIndicator d = true := by
      intro d hd
      unfold notIndicator
      rw [Bool.and_eq_true, bne_iff_ne, bne_iff_ne]
      constructor <;> rintro rfl <;> revert hd <;> decide
    rcases mem_pointed hc with hc | hc | rfl
    · exact hdigit c (hwhole c hc)
    · exact hdigit c (hplaces c hc)
    · decide
  have htake : (pointed whole places).takeWhile notIndicator = pointed whole places :=
    List.takeWhile_eq_self_iff.mpr hind
  have hdrop : (pointed whole places).dropWhile notIndicator = [] :=
    List.dropWhile_eq_nil_iff.mpr hind
  have hsplit : (pointed whole places).takeWhile Char.isDigit = whole
      ∧ fraction? ((pointed whole places).dropWhile Char.isDigit) = some places := by
    unfold pointed
    split_ifs with hnil
    · rw [List.takeWhile_eq_self_iff.mpr hwhole, List.dropWhile_eq_nil_iff.mpr hwhole, hnil]
      exact ⟨rfl, rfl⟩
    · rw [List.takeWhile_append_of_pos hwhole, List.dropWhile_append_of_pos hwhole,
        List.takeWhile_cons_of_neg (by decide), List.dropWhile_cons_of_neg (by decide),
        List.append_nil]
      refine ⟨rfl, ?_⟩
      rw [fraction?, if_pos (List.all_eq_true.mpr hplaces)]
  unfold number?
  simp only [htake, hdrop, hsplit.1, hsplit.2, Option.bind_eq_bind, Option.bind_some]
  rw [if_neg hne]
  simp

/-- Without a sign at its head a text has none. -/
theorem splitSign_of_head {cs : List Char} (h : ∀ c ∈ cs.head?, c ≠ '-' ∧ c ≠ '+') :
    splitSign cs = (false, cs) := by
  unfold splitSign
  split
  next rest => exact absurd rfl (h '-' rfl).1
  next rest => exact absurd rfl (h '+' rfl).2
  next => rfl

/-- A number does not begin like a special value. -/
theorem isSpecial_of_head {c : Char} {cs : List Char} (h : c.isDigit = true ∨ c = '.') :
    isSpecial (c :: cs) = false := by
  have hlower : c.toLower ≠ 'i' ∧ c.toLower ≠ 'n' ∧ c.toLower ≠ 's' := by
    rcases h with h | rfl
    · have hrange : 48 ≤ c.toNat ∧ c.toNat ≤ 57 := by
        simpa [Char.isDigit, UInt32.le_iff_toNat_le] using h
      obtain ⟨hlo, hhi⟩ := hrange
      rw [← Char.ofNat_toNat c]
      generalize c.toNat = n at *
      interval_cases n <;> decide
    · decide
  simp [isSpecial, hlower]

theorem mapM_of_forall {f : Char → Option Char} {g : Char → Char} :
    ∀ {cs : List Char}, (∀ c ∈ cs, f c = some (g c)) →
    cs.mapM f = some (cs.map g)
  | [], _ => rfl
  | c :: cs, h => by
      rw [List.mapM_cons, h c List.mem_cons_self,
        mapM_of_forall fun d hd => h d (List.mem_cons_of_mem c hd)]
      rfl

/-- **A plain number is taken over exactly.** -/
theorem ofText_pointed {whole places : List Char} (hwhole : ∀ c ∈ whole, isDecimal c = true)
    (hplaces : ∀ c ∈ places, isDecimal c = true) (hne : whole ++ places ≠ []) :
    ofText (pointed whole places)
      = if InRange (Nat.ofDigitChars 10 ((whole ++ places).map asciiDigit) 0) (-(places.length : ℤ))
      then
          some (.finite ⟨false, Nat.ofDigitChars 10 ((whole ++ places).map asciiDigit) 0,
            -(places.length : ℤ)⟩)
        else none := by
  set cs := pointed whole places with hcs
  have hcases : ∀ c ∈ cs, isDecimal c = true ∨ c = '.' := by
    intro c hc
    rcases mem_pointed hc with hc | hc | hc
    · exact Or.inl (hwhole c hc)
    · exact Or.inl (hplaces c hc)
    · exact Or.inr hc
  -- a digit and a point are no blanks, so nothing is stripped
  have hspace : ∀ c ∈ cs, isSpace c = false := by
    intro c hc
    rcases hcases c hc with h | rfl
    · exact not_isSpace_of_isDecimal h
    · decide
  have hstrip : strip cs = cs := by
    have hkeep : ∀ l : List Char, (∀ c ∈ l, isSpace c = false) → l.dropWhile isSpace = l := by
      intro l hl
      cases l with
      | nil => rfl
      | cons c l => exact List.dropWhile_cons_of_neg (by simp [hl c List.mem_cons_self])
    rw [strip, hkeep cs hspace, hkeep cs.reverse (fun c hc => hspace c (List.mem_reverse.mp hc)),
      List.reverse_reverse]
  have hfilter : cs.filter (· != '_') = cs := by
    rw [List.filter_eq_self]
    intro c hc
    rw [bne_iff_ne]
    rintro rfl
    rcases hcases '_' hc with h | h
    · revert h
      decide
    · cases h
  -- the digits of other scripts become ASCII digits
  have hascii : cs.mapM asciiOf = some (cs.map asciiDigit) := by
    apply mapM_of_forall
    intro c hc
    rcases hcases c hc with h | rfl
    · exact asciiOf_of_isDecimal h
    · decide
  have hmap : cs.map asciiDigit = pointed (whole.map asciiDigit) (places.map asciiDigit) :=
    map_pointed (by decide) whole places
  have hdigits : ∀ {l : List Char}, (∀ c ∈ l, isDecimal c = true) → ∀ c ∈ l.map asciiDigit,
      c.isDigit = true := by
    intro l hl c hc
    obtain ⟨d, hd, rfl⟩ := List.mem_map.mp hc
    exact asciiDigit_isDigit (hl d hd)
  have hnumber :=
    number?_pointed (hdigits hwhole) (hdigits hplaces) (by rw [← List.map_append]; simpa using hne)
  rw [← hmap, ← List.map_append, List.length_map] at hnumber
  have hhead : ∀ c ∈ (cs.map asciiDigit).head?, c.isDigit = true ∨ c = '.' := by
    intro c hc
    obtain ⟨d, hd, rfl⟩ := List.mem_map.mp (List.mem_of_head? hc)
    rcases hcases d hd with h | rfl
    · exact Or.inl (asciiDigit_isDigit h)
    · exact Or.inr (by decide)
  unfold ofText
  rw [hstrip, hfilter, hascii]
  simp only [Option.bind_eq_bind, Option.bind_some]
  rw [splitSign_of_head]
  · simp only
    rw [if_neg, hnumber]
    · rfl
    · -- a text of digits and a point is no special value
      cases hc : cs.map asciiDigit with
      | nil => decide
      | cons c rest => simp [isSpecial_of_head (hhead c (by rw [hc]; rfl))]
  · intro c hc
    rcases hhead c hc with h | rfl
    · constructor <;> rintro rfl <;> revert h <;> decide
    · decide

/-- The number that digits of any script with at most one point denote. -/
theorem readBody_pointed {whole places : List Char} (hwhole : ∀ c ∈ whole, c.isDigit = true)
    (hplaces : ∀ c ∈ places, c.isDigit = true) :
    readBody (pointed whole places) = Nat.ofDigitChars 10 (whole ++ places) 0
    * (10 : ℚ) ^ (-(places.length : ℤ)) := by
  have hpoint : ∀ {l : List Char}, (∀ c ∈ l, c.isDigit = true) →
      ∀ c ∈ l, decide (c ≠ '.') = true := by
    intro l hl c hc
    rw [decide_eq_true_eq]
    rintro rfl
    exact absurd (hl '.' hc) (by decide)
  unfold readBody pointed
  split_ifs with hnil
  · rw [(filter_point_of_digits hwhole).1, (filter_point_of_digits hwhole).2, hnil]
    simp
  · rw [List.filter_append, (filter_point_of_digits hwhole).1, List.filter_cons_of_neg (by decide),
      (filter_point_of_digits hplaces).1, List.dropWhile_append_of_pos (hpoint hwhole),
      List.dropWhile_cons_of_neg (by decide)]
    simp [div_eq_mul_inv]

end Decimal
