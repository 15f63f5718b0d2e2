/-
# Plain decimals as JSON numbers

The plain text of a decimal is a JSON number: a sign, an integer and places.  `decode_write_plain`:
a document that is written with such numbers is read back, an integer for each decimal without
places.

* `mapDecimals_of_write_eq`: documents with one text are read alike.
-/
import EvidenceLab.DecimalParse
import EvidenceLab.JsonGrammar
import EvidenceLab.JsonSame

namespace Decimal

open JsonReader (IntegerText)

/-! ## Whole digits and places -/

/-- The digits before the point of the plain text. -/
def wholeDigits (d : Decimal) : List Char :=
  (paddedDigits d.plainParts.1 d.plainParts.2).take
    ((paddedDigits d.plainParts.1 d.plainParts.2).length - d.plainParts.2)

/-- The digits behind it. -/
def placeDigits (d : Decimal) : List Char :=
  (paddedDigits d.plainParts.1 d.plainParts.2).drop
    ((paddedDigits d.plainParts.1 d.plainParts.2).length - d.plainParts.2)

/-- The digits before and behind the point are all the digits. -/
theorem whole_append_places (d : Decimal) :
    d.wholeDigits ++ d.placeDigits = paddedDigits d.plainParts.1 d.plainParts.2 :=
  List.take_append_drop _ _

theorem length_placeDigits (d : Decimal) : d.placeDigits.length = d.plainParts.2 := by
  have h := length_paddedDigits d.plainParts.1 d.plainParts.2
  rw [placeDigits, List.length_drop]
  omega

theorem placeDigits_eq_nil_iff (d : Decimal) : d.placeDigits = [] ↔ d.plainParts.2 = 0 := by
  rw [← length_placeDigits, List.length_eq_zero_iff]

theorem isDigit_placeDigits (d : Decimal) : ∀ c ∈ d.placeDigits, c.isDigit = true :=
  fun c hc => paddedDigits_digits _ _ c (List.mem_of_mem_drop hc)

/-- **A JSON integer** stands before the point. -/
theorem integerText_wholeDigits (d : Decimal) : IntegerText d.wholeDigits := by
  refine ⟨fun c hc => paddedDigits_digits _ _ c (List.mem_of_mem_take hc), ?_⟩
  unfold wholeDigits
  generalize d.plainParts.1 = c
  generalize d.plainParts.2 = k
  by_cases hlen : k + 1 ≤ (Nat.toDigits 10 c).length
  · have hpad : paddedDigits c k = Nat.toDigits 10 c := by
      rw [paddedDigits, Nat.sub_eq_zero_of_le hlen, List.replicate_zero, List.nil_append]
    rw [hpad]
    rcases Nat.eq_zero_or_pos c with rfl | hc
    · have hk : k = 0 := by
        have : (Nat.toDigits 10 0).length = 1 := rfl
        omega
      subst hk
      exact .inl rfl
    · obtain ⟨x, xs, hx, hne⟩ := JsonReader.head_toDigits hc
      right
      refine ⟨x, xs.take ((Nat.toDigits 10 c).length - k - 1), ?_, hne⟩
      obtain ⟨m, hm⟩ : ∃ m, (Nat.toDigits 10 c).length - k = m + 1 :=
        ⟨_, (Nat.sub_add_cancel (by omega)).symm⟩
      rw [hm, hx, List.take_succ_cons, Nat.add_sub_cancel]
  · -- the digits are padded to one before the point
    left
    have hlength : (paddedDigits c k).length = k + 1 := by
      rw [paddedDigits, List.length_append, List.length_replicate]
      omega
    rw [hlength, Nat.add_sub_cancel_left, paddedDigits]
    obtain ⟨m, hm⟩ : ∃ m, k + 1 - (Nat.toDigits 10 c).length = m + 1 :=
      ⟨_, (Nat.sub_add_cancel (by omega)).symm⟩
    rw [hm, List.replicate_succ, List.cons_append, List.take_succ_cons, List.take_zero]

/-- The sign of a text. -/
def signText (neg : Bool) : List Char := if neg then ['-'] else []

/-- The plain text is the sign, the digits and the fraction. -/
theorem plainText_parts (d : Decimal) :
    d.plainText = signText d.neg ++ d.wholeDigits ++ JsonReader.fractionText d.placeDigits := by
  have hbody : fixedBody d.plainParts.1 (-(d.plainParts.2 : ℤ))
      = d.wholeDigits ++ JsonReader.fractionText d.placeDigits := by
    unfold JsonReader.fractionText
    split_ifs with hnil
    · have hk := (placeDigits_eq_nil_iff d).mp hnil
      rw [List.append_nil, ← List.append_nil d.wholeDigits, ← hnil, whole_append_places, hk,
        paddedDigits_zero]
      simp [fixedBody]
    · have hk : d.plainParts.2 ≠ 0 := fun h => hnil ((placeDigits_eq_nil_iff d).mpr h)
      rw [fixedBody, if_neg (by omega), neg_neg, Int.toNat_natCast]
      rfl
  rw [plainText_eq, fixedText, List.append_assoc, ← hbody]
  cases hneg : d.neg <;> simp [plain, hneg, signText]

end Decimal

namespace JsonReader

open PyJson (plainNumber)

/-! ## Tokens of plain texts -/

/-- The token of the plain text. -/
def plainToken (d : Decimal) : Token := numberToken d.plainText d.placeDigits

/-- The plain text is lexed as a number. -/
theorem lexesValue_plainText (d : Decimal) : LexesValue d.plainText [plainToken d] := by
  have h := lexesValue_number d.neg d.integerText_wholeDigits d.isDigit_placeDigits
  rw [plainToken, Decimal.plainText_parts]
  exact h

/-- A style that writes plain decimals. -/
structure Style.Plain (style : Style) : Prop where
  decimal : ∀ d, style.decimal d = d.plainText
  token : ∀ d, style.token d = plainToken d

/-! ## Reading numbers without limits -/

/-- The integer of a literal. -/
def readInt (literal : List Char) : ℤ :=
  let n : ℤ := Nat.ofDigitChars 10 (literal.filter Char.isDigit) 0
  if literal.head? = some '-' then -n else n

/-- The decimal of a literal with places. -/
def readDecimal (literal : List Char) : Option Decimal :=
  (Decimal.number? (Decimal.splitSign literal).2).map fun n =>
  ⟨(Decimal.splitSign literal).1, n.1, n.2⟩

theorem readInt_sign (neg : Bool) {digits : List Char} (h : ∀ c ∈ digits, c.isDigit = true) :
    readInt (Decimal.signText neg ++ digits)
      = if neg then -(Nat.ofDigitChars 10 digits 0 : ℤ) else Nat.ofDigitChars 10 digits 0 := by
  have hfilter : digits.filter Char.isDigit = digits := List.filter_eq_self.mpr h
  have hhead : digits.head? ≠ some '-' := by
    intro hhead
    exact absurd (h '-' (List.mem_of_mem_head? hhead)) (by decide)
  have hsign : ['-'].filter Char.isDigit = [] := by decide
  cases neg with
  | false =>
      simp only [Decimal.signText, readInt, Bool.false_eq_true, if_false, List.nil_append,
        hfilter, if_neg hhead]
  | true =>
      simp only [Decimal.signText, readInt, if_true, List.filter_append, hsign,
        List.nil_append, hfilter]
      rfl

/-- An integer is read back. -/
theorem readInt_intText (i : ℤ) : readInt (Json.intText i) = i := by
  have htext : Json.intText i = Decimal.signText (decide (i < 0)) ++ Nat.toDigits 10 i.natAbs := by
    unfold Json.intText Decimal.signText
    by_cases hi : i < 0 <;> simp [hi]
  rw [htext, readInt_sign _ (Json.isDigit_toDigits _), Nat.ofDigitChars_ten_toDigits]
  by_cases hi : i < 0
  · simp only [hi, decide_true, if_true]
    omega
  · simp only [hi, decide_false, Bool.false_eq_true, if_false]
    omega

/-- The text of a decimal without places is read as its integer. -/
theorem readInt_plainText {d : Decimal} (h : d.plainParts.2 = 0) :
    readInt d.plainText = d.plain.signed := by
  have hnil := (Decimal.placeDigits_eq_nil_iff d).mpr h
  have hdigits : Nat.ofDigitChars 10 d.wholeDigits 0 = d.plainParts.1 := by
    rw [← List.append_nil d.wholeDigits, ← hnil, Decimal.whole_append_places,
      Decimal.ofDigitChars_paddedDigits]
  rw [Decimal.plainText_parts, hnil, fractionText, if_pos rfl, List.append_nil,
    readInt_sign _ d.integerText_wholeDigits.isDigit, hdigits]
  rfl

/-- The text of a decimal with places is read as its plain spelling. -/
theorem readDecimal_plainText {d : Decimal} : readDecimal d.plainText = some d.plain := by
  have hbody : d.wholeDigits ++ fractionText d.placeDigits
      = Decimal.pointed d.wholeDigits d.placeDigits := by
    unfold fractionText Decimal.pointed
    split_ifs <;> simp
  have hne : d.wholeDigits ++ d.placeDigits ≠ [] := by
    rcases d.integerText_wholeDigits.head with h | ⟨c, cs, h, -⟩ <;> simp [h]
  have hsplit :
      Decimal.splitSign d.plainText = (d.neg, Decimal.pointed d.wholeDigits d.placeDigits) := by
    rw [Decimal.plainText_parts, List.append_assoc, hbody]
    cases hneg : d.neg with
    | true => rfl
    | false =>
        refine Decimal.splitSign_of_head fun c hc => ?_
        have hdigit : c.isDigit = true := by
          rcases d.integerText_wholeDigits.head with h | ⟨x, xs, h, -⟩
          all_goals
            have hx := d.integerText_wholeDigits.isDigit
            rw [Decimal.pointed, h] at hc
            rw [h] at hx
            split_ifs at hc <;>
            · obtain rfl := Option.some.inj hc
              exact hx _ List.mem_cons_self
        constructor <;> rintro rfl <;> revert hdigit <;> decide
  rw [readDecimal, hsplit]
  simp only [Decimal.number?_pointed d.integerText_wholeDigits.isDigit d.isDigit_placeDigits hne,
    Option.map_some,
    Decimal.whole_append_places, Decimal.ofDigitChars_paddedDigits, Decimal.length_placeDigits]
  rfl

/-- A decoder without limits on its numbers. -/
def lenient (maxDepth : ℕ) : Hooks Unit where
  int literal := .ok (.int (readInt literal))
  float literal := (readDecimal literal).elim (.error ()) fun d => .ok (.decimal d)
  constant _ := .error ()
  pairs members := .ok (.obj members)
  malformed := ()
  tooDeep := ()
  maxDepth := maxDepth

/-- The lenient reader reads what a plain style writes. -/
theorem reads_lenient (maxDepth : ℕ) {style : Style} (h : style.Plain) :
    Reads (lenient maxDepth) style (fun _ => True) plainNumber where
  int i _ := by
    show Except.ok (PyJson.int (readInt _)) = _
    rw [readInt_intText]
  decimal d n := by
    rw [h.token, plainToken, numberToken, plainNumber]
    by_cases hnil : d.placeDigits = []
    · rw [if_pos hnil, if_pos ((Decimal.placeDigits_eq_nil_iff d).mp hnil)]
      refine .int ?_
      show Except.ok (PyJson.int (readInt _)) = _
      rw [readInt_plainText ((Decimal.placeDigits_eq_nil_iff d).mp hnil)]
    · rw [if_neg hnil, if_neg fun hk => hnil ((Decimal.placeDigits_eq_nil_iff d).mpr hk)]
      refine .float ?_
      show (readDecimal _).elim _ _ = _
      rw [readDecimal_plainText]
      rfl
  pairs _ _ := rfl

/-- **A document with plain decimals is read back.** -/
theorem decode_write_plain {style : Style} (hstyle : style.Plain) {v : PyJson}
    (h : Readable (fun _ => True) v)
    {maxDepth : ℕ} (hdepth : depth v ≤ maxDepth) :
    decode (lenient maxDepth) (write style v) = .ok (mapDecimals plainNumber v) :=
  decode_write (reads_lenient maxDepth hstyle) h hdepth

/-- **Documents with one text are read alike.** -/
theorem mapDecimals_of_write_eq {style : Style} (hstyle : style.Plain) {v w : PyJson}
    (hv : Readable (fun _ => True) v)
    (hw : Readable (fun _ => True) w) (h : write style v = write style w) :
    mapDecimals plainNumber v = mapDecimals plainNumber w := by
  have hread := decode_write_plain hstyle hv (le_max_left (depth v) (depth w))
  rw [h, decode_write_plain hstyle hw (le_max_right _ _)] at hread
  exact (Except.ok.inj hread).symm

end JsonReader
