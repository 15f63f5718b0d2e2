/-
# Figures read back

The formatter writes plain numbers: a hyphen, digits, a point.  `parse_numeric` reads such a text
back as the number that was written (`parseNumeric_fixedText`), and the formatter writes that number
as the same text again (`formatDecimal_of_value_eq`).
-/
import EvidenceLab.NormalizedFigures

namespace Decimal

theorem value_nonpos {a : Decimal} (h : a.neg = true) : a.value ≤ 0 := by
  rw [value, h]
  simp only [if_true, neg_mul, one_mul, Left.neg_nonpos_iff]
  positivity

theorem value_nonneg {a : Decimal} (h : a.neg = false) : 0 ≤ a.value := by
  rw [value, h]
  simp only [Bool.false_eq_true, if_false, one_mul]
  positivity

/-- The digits of a fixed-point text. -/
theorem fixedBody_pointed (c : ℕ) (e : ℤ) :
    ∃ whole places, fixedBody c e = pointed whole places ∧ whole ≠ []
    ∧ (∀ d ∈ whole, d.isDigit = true) ∧ (∀ d ∈ places, d.isDigit = true)
    ∧ places.length = (-e).toNat := by
  unfold fixedBody
  split_ifs with he
  · refine ⟨Nat.toDigits 10 c ++ List.replicate e.toNat '0', [], rfl, ?_, ?_, by simp, ?_⟩
    · obtain ⟨d, ds, hd, -⟩ := Json.toDigits_head c
      rw [hd]
      simp
    · intro d hd
      rcases List.mem_append.mp hd with hd | hd
      · exact Json.isDigit_toDigits c d hd
      · rw [List.eq_of_mem_replicate hd]
        rfl
    · rw [List.length_nil]
      omega
  · have hlen := length_paddedDigits c (-e).toNat
    have hdigits := paddedDigits_digits c (-e).toNat
    set ps := paddedDigits c (-e).toNat with hps
    refine ⟨ps.take (ps.length - (-e).toNat), ps.drop (ps.length - (-e).toNat), ?_, ?_, ?_, ?_, ?_⟩
    · rw [pointed, if_neg]
      intro hnil
      have := congrArg List.length hnil
      rw [List.length_drop, List.length_nil] at this
      omega
    · intro hnil
      have := congrArg List.length hnil
      rw [List.length_take, List.length_nil] at this
      omega
    · exact fun d hd => hdigits d (List.mem_of_mem_take hd)
    · exact fun d hd => hdigits d (List.mem_of_mem_drop hd)
    · rw [List.length_drop]
      omega

end Decimal

namespace Extraction

namespace Normalize

open Decimal (Context)
open Numeric PyText

theorem isDecimal_of_isDigit {c : Char} (h : c.isDigit = true) : isDecimal c = true := by
  have hrange : 48 ≤ c.toNat ∧ c.toNat ≤ 57 := by
    simpa [Char.isDigit, UInt32.le_iff_toNat_le] using h
  unfold isDecimal
  rw [List.any_eq_true]
  refine ⟨48, by decide, ?_⟩
  simp only [Bool.and_eq_true, decide_eq_true_eq]
  omega

/-- A plain number is read in full. -/
theorem scanBody_of_pointed {whole places : List Char} (hwhole : ∀ c ∈ whole, isDecimal c = true)
    (hplaces : ∀ c ∈ places, isDecimal c = true) :
    scanBody (Decimal.pointed whole places) = (Decimal.pointed whole places, []) := by
  have hfraction : ∀ rest : List Char, (rest = [] ∨ ∃ ds, rest = '.' :: ds) →
      scanGroups rest = ([], rest) := by
    rintro rest (rfl | ⟨ds, rfl⟩)
    · rfl
    · rw [scanGroups]
      simp
  obtain ⟨rest, hrest, hpointed⟩ :
      ∃ rest, ((rest = [] ∧ places = []) ∨ (rest = '.' :: places ∧ places ≠ []))
      ∧ Decimal.pointed whole places = whole ++ rest := by
    by_cases hnil : places = []
    · exact ⟨[], Or.inl ⟨rfl, hnil⟩, by rw [Decimal.pointed, if_pos hnil, List.append_nil]⟩
    · exact ⟨'.' :: places, Or.inr ⟨rfl, hnil⟩, by rw [Decimal.pointed, if_neg hnil]⟩
  have hstop : rest.takeWhile isDecimal = [] ∧ rest.dropWhile isDecimal = rest := by
    rcases hrest with ⟨rfl, -⟩ | ⟨rfl, -⟩
    · exact ⟨rfl, rfl⟩
    · exact ⟨List.takeWhile_cons_of_neg (by decide), List.dropWhile_cons_of_neg (by decide)⟩
  have hscan : scanWhole (whole ++ rest) = (whole, rest) := by
    unfold scanWhole
    rw [List.takeWhile_append_of_pos hwhole, List.dropWhile_append_of_pos hwhole, hstop.1, hstop.2,
      List.append_nil]
    have hgroups := hfraction rest (by
      rcases hrest with ⟨h, -⟩ | ⟨h, -⟩
      · exact Or.inl h
      · exact Or.inr ⟨places, h⟩)
    simp only [hgroups, List.append_nil, ite_self]
  unfold scanBody
  rw [hpointed, hscan]
  simp only
  rcases hrest with ⟨rfl, -⟩ | ⟨rfl, hnil⟩
  · rfl
  · rw [scanFraction, List.takeWhile_eq_self_iff.mpr hplaces, List.dropWhile_eq_nil_iff.mpr hplaces,
      if_neg hnil]

/-- The match of a plain number. -/
def plainMatch (neg : Bool) (body : List Char) : Match :=
  ⟨[], false, [], if neg then some '-' else none, [], body, none, none, none, []⟩

section Plain

variable {body : List Char} (hbody : ∀ c ∈ body, c.isDigit = true ∨ c = '.') (hne : body ≠ [])

include hbody in
/-- A plain number begins with a digit or a point. -/
theorem plain_head {c : Char} (hc : c ∈ body.head?) :
    isSpace c = false ∧ c ≠ '(' ∧ c ≠ '-' ∧ c ≠ '+' := by
  have hstart : StartsNumber c := by
    rcases hbody c (List.mem_of_head? hc) with h | h
    · exact Or.inl (isDecimal_of_isDigit h)
    · exact Or.inr h
  exact ⟨hstart.not_isSpace, hstart.ne⟩

include hbody hne in
/-- A plain number is matched as a whole. -/
theorem search_plain (isWord : Char → Bool) (neg : Bool) (hscan : scanBody body = (body, [])) :
    search isWord [] ((if neg then ['-'] else []) ++ body) = some (plainMatch neg body) := by
  have hstop : body.dropWhile isSpace = body ∧ body.takeWhile isSpace = [] := by
    cases body with
    | nil => exact absurd rfl hne
    | cons c cs =>
        have hc := (plain_head hbody (c := c) rfl).1
        exact ⟨List.dropWhile_cons_of_neg (by simp [hc]), List.takeWhile_cons_of_neg (by simp [hc])⟩
  have hmatch :
      matchAt isWord [] ((if neg then ['-'] else []) ++ body) = some (plainMatch neg body) := by
    cases neg with
    | true =>
        have hopen : scanOpen ('-' :: body) = (false, '-' :: body) := rfl
        have hdrop : ('-' :: body).dropWhile isSpace = '-' :: body := rfl
        have htake : ('-' :: body).takeWhile isSpace = [] := rfl
        unfold matchAt
        simp only [if_true, List.singleton_append, hopen, hdrop, htake, scanSign,
          hstop.1, hstop.2, hscan]
        rw [if_neg hne]
        rfl
    | false =>
        have hopen : scanOpen body = (false, body) :=
          scanOpen_of_head fun c hc => (plain_head hbody hc).2.1
        have hsign : scanSign body = (none, body) :=
          scanSign_of_head fun c hc => (plain_head hbody hc).2.2
        unfold matchAt
        simp only [Bool.false_eq_true, if_false, List.nil_append, hopen, hstop.1,
          hstop.2, hsign, hscan]
        rw [if_neg hne]
        rfl
  obtain ⟨c, cs, hcs⟩ : ∃ c cs, (if neg then ['-'] else []) ++ body = c :: cs := by
    cases h : (if neg then ['-'] else []) ++ body with
    | nil => exact absurd (List.append_eq_nil_iff.mp h).2 hne
    | cons c cs => exact ⟨c, cs, rfl⟩
  rw [hcs] at hmatch ⊢
  rw [search, hmatch]

include hbody in
/-- A plain number is clean. -/
theorem cleaned_plain (neg : Bool) :
    cleaned ((if neg then ['-'] else []) ++ body) = (if neg then ['-'] else []) ++ body := by
  set text := (if neg then ['-'] else []) ++ body with htext
  have hchars : ∀ c ∈ text, c.isDigit = true ∨ c = '.' ∨ c = '-' := by
    intro c hc
    rcases List.mem_append.mp hc with hc | hc
    · cases neg with
      | true => exact Or.inr (Or.inr (List.mem_singleton.mp hc))
      | false => exact absurd hc List.not_mem_nil
    · rcases hbody c hc with h | h
      · exact Or.inl h
      · exact Or.inr (Or.inl h)
  have hspace : ∀ c ∈ text, isSpace c = false := by
    intro c hc
    rcases hchars c hc with h | rfl | rfl
    · exact not_isSpace_of_isDecimal (isDecimal_of_isDigit h)
    · decide
    · decide
  have hkeep : ∀ l : List Char, (∀ c ∈ l, isSpace c = false) → l.dropWhile isSpace = l := by
    intro l hl
    cases l with
    | nil => rfl
    | cons c l => exact List.dropWhile_cons_of_neg (by simp [hl c List.mem_cons_self])
  have hfilter : text.filter (fun c => c != '$' && c != '%') = text := by
    rw [List.filter_eq_self]
    intro c hc
    rw [Bool.and_eq_true, bne_iff_ne, bne_iff_ne]
    rcases hchars c hc with h | rfl | rfl
    · constructor <;> rintro rfl <;> revert h <;> decide
    · decide
    · decide
  rw [cleaned, hfilter, strip, hkeep text hspace,
    hkeep text.reverse fun c hc => hspace c (List.mem_reverse.mp hc),
    List.reverse_reverse]

end Plain

/-- The numbers that the constructor takes. -/
theorem mantissa_fixedBody {z : Decimal} (hexp : -1000030 ≤ z.exp)
    (habs : |z.value| < (10 : ℚ) ^ (1000000 : ℤ)) :
    ∃ d : Decimal, mantissa (Decimal.fixedBody z.coeff z.exp) = .ok d ∧ d.neg = false ∧
    d.value = |z.value| := by
  obtain ⟨whole, places, hbody, hne, hwhole, hplaces, hlen⟩ :=
    Decimal.fixedBody_pointed z.coeff z.exp
  have hdec : ∀ {l : List Char}, (∀ d ∈ l, d.isDigit = true) → ∀ d ∈ l, isDecimal d = true :=
    fun hl d hd => isDecimal_of_isDigit (hl d hd)
  have hself : ∀ {l : List Char}, (∀ d ∈ l, d.isDigit = true) → l.map Decimal.asciiDigit = l := by
    intro l hl
    conv_rhs => rw [← List.map_id l]
    apply List.map_congr_left
    intro d hd
    refine Decimal.asciiDigit_of_ascii (isDecimal_of_isDigit (hl d hd)) ?_
    have := hl d hd
    simp [Char.isDigit, UInt32.le_iff_toNat_le] at this
    omega
  have hcomma :
      (Decimal.pointed whole places).filter (· != ',') = Decimal.pointed whole places := by
    rw [List.filter_eq_self]
    intro c hc
    rcases Decimal.mem_pointed hc with hc | hc | rfl
    · exact isDecimal_ne_comma (hdec hwhole c hc)
    · exact isDecimal_ne_comma (hdec hplaces c hc)
    · decide
  -- the number that the digits spell
  set n := Nat.ofDigitChars 10 (whole ++ places) 0 with hn
  have hvalue : (n : ℚ) * (10 : ℚ) ^ (-(places.length : ℤ)) = |z.value| := by
    rw [← Decimal.readBody_pointed hwhole hplaces, ← hbody, Decimal.readBody_fixedBody,
      Decimal.abs_value_eq_coeff]
  have hrange : Decimal.InRange n (-(places.length : ℤ)) := by
    have hsmall : (n : ℚ) < (10 : ℚ) ^ ((1000000 + places.length : ℕ) : ℤ) := by
      rw [← hvalue, zpow_neg] at habs
      have hpow : (0 : ℚ) < (10 : ℚ) ^ (places.length : ℤ) := by positivity
      rw [← div_eq_mul_inv, div_lt_iff₀ hpow, ← zpow_add₀ (by norm_num)] at habs
      push_cast
      exact habs
    have hnat : n < 10 ^ (1000000 + places.length) := by
      rw [zpow_natCast] at hsmall
      exact_mod_cast hsmall
    have hdigits := (Decimal.numDigits_le_iff (by omega)).mpr hnat
    unfold Decimal.InRange
    omega
  refine ⟨⟨false, n, -(places.length : ℤ)⟩, ?_, rfl, ?_⟩
  · unfold mantissa
    rw [hbody, hcomma, Decimal.ofText_pointed (hdec hwhole) (hdec hplaces) (by simp [hne]),
      hself, if_pos hrange]
    intro d hd
    rcases List.mem_append.mp hd with hd | hd
    · exact hwhole d hd
    · exact hplaces d hd
  · rw [← hvalue]
    simp [Decimal.value]

/-- **A written figure is read back.** -/
theorem parseNumeric_fixedText (isWord : Char → Bool) {z : Decimal}
    (hexact : z.neg = true → Exact z.value)
    (hexp : -1000030 ≤ z.exp) (habs : |z.value| < (10 : ℚ) ^ (1000000 : ℤ)) :
    ∃ v : Decimal, parseNumeric isWord z.fixedText = .ok (v, 0, signWord v) ∧
    v.value = z.value := by
  obtain ⟨whole, places, hbody, hne, hwhole, hplaces, -⟩ := Decimal.fixedBody_pointed z.coeff z.exp
  obtain ⟨d, hd, hneg, hvalue⟩ := mantissa_fixedBody hexp habs
  have hchars : ∀ c ∈ Decimal.fixedBody z.coeff z.exp, c.isDigit = true ∨ c = '.' := by
    intro c hc
    rw [hbody] at hc
    rcases Decimal.mem_pointed hc with hc | hc | hc
    · exact Or.inl (hwhole c hc)
    · exact Or.inl (hplaces c hc)
    · exact Or.inr hc
  have hscan :
      scanBody (Decimal.fixedBody z.coeff z.exp) = (Decimal.fixedBody z.coeff z.exp, []) := by
    rw [hbody]
    exact scanBody_of_pointed (fun c hc => isDecimal_of_isDigit (hwhole c hc)) fun c hc =>
      isDecimal_of_isDigit (hplaces c hc)
  have hnonempty : Decimal.fixedBody z.coeff z.exp ≠ [] := by
    obtain ⟨c, cs, hcs, -⟩ := Decimal.fixedBody_head z.coeff z.exp
    rw [hcs]
    exact List.cons_ne_nil c cs
  have htext : z.fixedText = (if z.neg then ['-'] else []) ++ Decimal.fixedBody z.coeff z.exp := by
    unfold Decimal.fixedText
    cases z.neg <;> rfl
  have hsearch := search_plain hchars hnonempty isWord z.neg hscan
  -- the sign is a hyphen or none, and the number is exact under both
  have hsigned :
      (signed (plainMatch z.neg (Decimal.fixedBody z.coeff z.exp)) d).toOption.map Decimal.value
      = some z.value := by
    rw [signed_value hneg, hvalue]
    cases hz : z.neg with
    | true =>
        rw [abs_of_nonpos (Decimal.value_nonpos hz)]
        have hnegated : (plainMatch true (Decimal.fixedBody z.coeff z.exp)).negated = true := rfl
        rw [signedValue, if_pos hnegated, Context.roundValue_neg rfl, hexact hz]
        simp
    | false =>
        have hnegated : (plainMatch false (Decimal.fixedBody z.coeff z.exp)).negated = false := rfl
        have hsign : (plainMatch false (Decimal.fixedBody z.coeff z.exp)).sign = none := rfl
        rw [abs_of_nonneg (Decimal.value_nonneg hz), signedValue, hnegated, hsign]
        simp
  cases hs : signed (plainMatch z.neg (Decimal.fixedBody z.coeff z.exp)) d with
  | error f =>
      rw [hs] at hsigned
      cases hsigned
  | ok v =>
      rw [hs] at hsigned
      refine ⟨v, ?_, Option.some.inj hsigned⟩
      rw [parseNumeric_eq_ok]
      refine ⟨fixedText_ne_nil z, plainMatch z.neg (Decimal.fixedBody z.coeff z.exp), d, ?_, ?_,
        hd, rfl, hs, rfl⟩
      · rw [htext, cleaned_plain hchars, hsearch]
      · unfold requireFullConsumption
        cases z.neg <;> rfl

/-- **A figure has one text**: numbers of one value are written alike. -/
theorem formatDecimal_of_value_eq {v z : Decimal} (hnormal : z.Normal) (hexact : Exact z.value)
    (hzero : z.coeff = 0 → z.neg = false)
    (h : v.value = z.value) : formatDecimal v = .ok z.fixedText := by
  have hnormalized : normalized v = .ok z := by
    unfold normalized
    by_cases hc : v.coeff = 0
    · rw [if_neg (not_not.mpr hc)]
      have hz : z.coeff = 0 := by
        rw [← Decimal.value_eq_zero_iff, ← h]
        exact (Decimal.value_eq_zero_iff v).mpr hc
      obtain ⟨neg, coeff, exp⟩ := z
      simp only at hz
      subst hz
      obtain rfl : neg = false := hzero rfl
      obtain rfl : exp = 0 := hnormal.1 rfl
      rfl
    · rw [if_pos hc]
      obtain ⟨r, hr, hrv⟩ :=
        Context.normalize_of_roundValue ambient_range (h ▸ hexact : ambient.roundValue v.value
          = some z.value)
      have hne : r.value ≠ 0 := by
        rw [hrv, ← h]
        exact fun h0 => hc ((Decimal.value_eq_zero_iff v).mp h0)
      rw [show Retrieval.defaultContext.normalize v = .ok r from hr]
      rw [(Context.normalize_spec ambient_range hr).2.1.eq_of_value_eq hnormal hrv hne]
      rfl
  unfold formatDecimal
  rw [hnormalized]
  simp only [Except.ok_bind, Except.pure_eq_ok, stripZeros_fixedText hnormal]
  rw [if_neg (fixedText_ne_nil z)]

end Normalize

end Extraction
