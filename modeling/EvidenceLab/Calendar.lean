/-
# Proleptic Gregorian dates and their ISO text

Days are counted from the first of January of year one, which is day `0` here.
`civilOfDay` splits a day number into year, month and day by the usual cycles of
400, 100, 4 and 1 years, and `dayOfCivil` counts the days back.  The two are
inverse (`dayOfCivil_civilOfDay`), so the ISO texts `YYYY-MM-DD` and
`YYYY-MM-DDTHH:MM:SS[.ffffff]+00:00` determine the day and the microsecond
(`isoDate_inj`, `isoDateTimeUtc_inj`).
-/
import EvidenceLab.JsonText

namespace Calendar

/-! ## Days and civil dates -/

/-- Days before month `m` (`1 ≤ m ≤ 12`) of a common year. -/
def daysBeforeMonth (m : ℕ) : ℕ :=
  ([0, 0, 31, 59, 90, 120, 151, 181, 212, 243, 273, 304, 334] : List ℕ).getD m 0

/-- Days before month `m`, in a leap year when `leap` holds. -/
def daysBefore (leap : Bool) (m : ℕ) : ℕ :=
  daysBeforeMonth m + if 2 < m ∧ leap = true then 1 else 0

/-- Month and day of the `n`-th day of a year, counted from zero. -/
def monthDay (leap : Bool) (n : ℕ) : ℕ × ℕ :=
  let m := (n + 50) / 32
  if daysBefore leap m ≤ n then (m, n - daysBefore leap m + 1)
  else (m - 1, n - daysBefore leap (m - 1) + 1)

/-- Leap years of the Gregorian rule. -/
def isLeap (y : ℕ) : Bool := y % 4 == 0 && (y % 100 != 0 || y % 400 == 0)

/-- Year, month and day of a day number. -/
def civilOfDay (n : ℕ) : ℕ × ℕ × ℕ :=
  let n400 := n / 146097
  let r400 := n % 146097
  let n100 := r400 / 36524
  let r100 := r400 % 36524
  let n4 := r100 / 1461
  let r4 := r100 % 1461
  let n1 := r4 / 365
  let r1 := r4 % 365
  let year := n400 * 400 + n100 * 100 + n4 * 4 + n1 + 1
  if n1 = 4 ∨ n100 = 4 then (year - 1, 12, 31)
  else (year, monthDay (n1 == 3 && (n4 != 24 || n100 == 3)) r1)

/-- Days before the first of January of year `y`. -/
def daysBeforeYear (y : ℕ) : ℕ := (y - 1) * 365 + (y - 1) / 4 - (y - 1) / 100 + (y - 1) / 400

/-- The day number of a civil date. -/
def dayOfCivil (c : ℕ × ℕ × ℕ) : ℕ :=
  daysBeforeYear c.1 + daysBefore (isLeap c.1) c.2.1 + (c.2.2 - 1)

/-- A day of the year is the day of its month. -/
theorem monthDay_spec : ∀ leap : Bool, ∀ n < 366, (leap = false → n < 365) →
    daysBefore leap (monthDay leap n).1 + ((monthDay leap n).2 - 1) = n := by
  decide +kernel

/-- The last day of a leap year is the thirty-first of December. -/
theorem daysBefore_december : daysBefore true 12 + 30 = 365 := by decide

/-- The leap day decides the length of the year the cycles leave. -/
theorem isLeap_of_cycles (a : ℕ) {b c d : ℕ} (hb : b < 4) (hc : c < 25) (hd : d < 4) :
    isLeap (a * 400 + b * 100 + c * 4 + d + 1) = (d == 3 && (c != 24 || b == 3)) := by
  have h4 : (a * 400 + b * 100 + c * 4 + d + 1) % 4 = (d + 1) % 4 := by omega
  have h100 : (a * 400 + b * 100 + c * 4 + d + 1) % 100 = (c * 4 + d + 1) % 100 := by omega
  have h400 : (a * 400 + b * 100 + c * 4 + d + 1) % 400 = (b * 100 + c * 4 + d + 1) % 400 := by
    omega
  rw [isLeap, h4, h100, h400, Bool.eq_iff_iff]
  simp only [Bool.and_eq_true, Bool.or_eq_true, beq_iff_eq, bne_iff_ne, ne_eq]
  omega

/-- The days before a year, counted by cycles. -/
theorem daysBeforeYear_of_cycles (a : ℕ) {b c d : ℕ} (hb : b < 4) (hc : c < 25) (hd : d < 4) :
    daysBeforeYear (a * 400 + b * 100 + c * 4 + d + 1)
      = 146097 * a + 36524 * b + 1461 * c + 365 * d := by
  unfold daysBeforeYear
  rw [Nat.add_sub_cancel]
  have h4 : (a * 400 + b * 100 + c * 4 + d) / 4 = 100 * a + 25 * b + c := by omega
  have h100 : (a * 400 + b * 100 + c * 4 + d) / 100 = 4 * a + b := by omega
  have h400 : (a * 400 + b * 100 + c * 4 + d) / 400 = a := by omega
  rw [h4, h100, h400]
  omega

/-- **Counting the days back**: the civil date determines the day number. -/
theorem dayOfCivil_civilOfDay (n : ℕ) : dayOfCivil (civilOfDay n) = n := by
  have h400 := Nat.div_add_mod n 146097
  have hlt400 : n % 146097 < 146097 := Nat.mod_lt _ (by norm_num)
  have h100 := Nat.div_add_mod (n % 146097) 36524
  have hlt100 : n % 146097 % 36524 < 36524 := Nat.mod_lt _ (by norm_num)
  have h4 := Nat.div_add_mod (n % 146097 % 36524) 1461
  have hlt4 : n % 146097 % 36524 % 1461 < 1461 := Nat.mod_lt _ (by norm_num)
  have h1 := Nat.div_add_mod (n % 146097 % 36524 % 1461) 365
  have hlt1 : n % 146097 % 36524 % 1461 % 365 < 365 := Nat.mod_lt _ (by norm_num)
  unfold civilOfDay
  simp only
  generalize n / 146097 = a at *
  generalize n % 146097 = ra at *
  generalize ra / 36524 = b at *
  generalize ra % 36524 = rb at *
  generalize rb / 1461 = c at *
  generalize rb % 1461 = rc at *
  generalize rc / 365 = d at *
  generalize rc % 365 = rd at *
  split_ifs with hlast
  · -- the thirty-first of December of a leap year closes a cycle of four or 400 years
    have hleap : isLeap (a * 400 + b * 100 + c * 4 + d) = true := by
      rw [isLeap, Bool.and_eq_true, Bool.or_eq_true, beq_iff_eq, bne_iff_ne, beq_iff_eq]
      rcases hlast with hd4 | hb4 <;> constructor <;> omega
    have hbefore : daysBeforeYear (a * 400 + b * 100 + c * 4 + d) + 365 = n := by
      rcases hlast with hd4 | hb4
      · have hyear : a * 400 + b * 100 + c * 4 + d = a * 400 + b * 100 + c * 4 + 3 + 1 := by omega
        rw [hyear, daysBeforeYear_of_cycles a (by omega) (by omega) (by omega)]
        omega
      · have hyear : a * 400 + b * 100 + c * 4 + d = a * 400 + 3 * 100 + 24 * 4 + 3 + 1 := by omega
        rw [hyear, daysBeforeYear_of_cycles a (b := 3) (c := 24) (d := 3) (by omega) (by omega)
          (by omega)]
        omega
    have hdec := daysBefore_december
    unfold dayOfCivil
    simp only [Nat.add_sub_cancel, hleap]
    omega
  · have hb : b < 4 := by omega
    have hc : c < 25 := by omega
    have hd : d < 4 := by omega
    unfold dayOfCivil
    simp only [isLeap_of_cycles a hb hc hd, daysBeforeYear_of_cycles a hb hc hd]
    have hmd := monthDay_spec (d == 3 && (c != 24 || b == 3)) rd (by omega) (by omega)
    omega

/-- A day is known by its date. -/
theorem civilOfDay_injective : Function.Injective civilOfDay :=
  Function.LeftInverse.injective dayOfCivil_civilOfDay

/-! ## ISO texts -/

/-- A number padded with zeros to `width` digits. -/
def padded (width n : ℕ) : List Char :=
  List.replicate (width - (Nat.toDigits 10 n).length) '0' ++ Nat.toDigits 10 n

/-- `YYYY-MM-DD`. -/
def isoDate (day : ℕ) : List Char :=
  padded 4 (civilOfDay day).1 ++ '-' :: (padded 2 (civilOfDay day).2.1
    ++ '-' :: padded 2 (civilOfDay day).2.2)

/-- Microseconds in a day. -/
def dayMicros : ℕ := 86400000000

/-- `YYYY-MM-DDTHH:MM:SS`, a fraction when it is not zero, and the text of the UTC offset, for a
number of microseconds since the start of year one. -/
def isoDateTime (t : ℕ) (offset : List Char) : List Char :=
  let micro := t % dayMicros
  let secs := micro / 1000000
  isoDate (t / dayMicros) ++ 'T' :: (padded 2 (secs / 3600) ++ ':' :: (padded 2 (secs / 60 % 60)
    ++ ':' :: (padded 2 (secs % 60)
      ++ ((if micro % 1000000 = 0 then [] else '.' :: padded 6 (micro % 1000000)) ++ offset))))

/-- The text of a UTC offset in microseconds; seconds and a fraction appear only when they are not
zero. -/
def offsetText (offset : ℤ) : List Char :=
  let micro := offset.natAbs
  let secs := micro / 1000000
  (if offset < 0 then '-' else '+') :: (padded 2 (secs / 3600) ++ ':' :: (padded 2 (secs / 60 % 60)
    ++ (if micro % 60000000 = 0 then []
      else ':' :: (padded 2 (secs % 60)
        ++ (if micro % 1000000 = 0 then [] else '.' :: padded 6 (micro % 1000000))))))

/-- The text of an instant in UTC. -/
def isoDateTimeUtc (t : ℕ) : List Char := isoDateTime t ['+', '0', '0', ':', '0', '0']

theorem padded_digits (w n : ℕ) : ∀ c ∈ padded w n, c.isDigit = true := by
  intro c hc
  rw [padded, List.mem_append] at hc
  rcases hc with hc | hc
  · rw [List.eq_of_mem_replicate hc]
    decide
  · exact Json.isDigit_toDigits n c hc

theorem ofDigitChars_padded (w n : ℕ) : Nat.ofDigitChars 10 (padded w n) 0 = n := by
  rw [padded, Nat.ofDigitChars_append, Nat.ofDigitChars_replicate_zero, Nat.mul_zero,
    Nat.ofDigitChars_ten_toDigits]

/-- A padded number followed by a non-digit is determined, and so is the rest. -/
theorem padded_append_inj {w n n' : ℕ} {rest rest' : List Char} (hr : Json.StopsNumber rest)
    (hr' : Json.StopsNumber rest') (h : padded w n ++ rest = padded w n' ++ rest') :
    n = n' ∧ rest = rest' := by
  obtain ⟨ht, hd⟩ := Json.takeWhile_digits (padded_digits w n) hr
  obtain ⟨ht', hd'⟩ := Json.takeWhile_digits (padded_digits w n') hr'
  have hdig : padded w n = padded w n' := by rw [← ht, ← ht', h]
  refine ⟨?_, by rw [← hd, ← hd', h]⟩
  rw [← ofDigitChars_padded w n, hdig, ofDigitChars_padded]

/-- A padded number is known by its digits. -/
theorem padded_cons_inj {w n n' : ℕ} {c : Char} {rest rest' : List Char}
    (hc : c.isDigit = false) (h : padded w n ++ c :: rest = padded w n' ++ c :: rest') :
    n = n' ∧ rest = rest' := by
  obtain ⟨hn, hr⟩ := padded_append_inj (Json.stopsNumber_cons hc rest)
    (Json.stopsNumber_cons hc rest') h
  exact ⟨hn, (List.cons.inj hr).2⟩

/-- A date is known by its text. -/
theorem isoDate_append_inj {day day' : ℕ} {rest rest' : List Char} (hr : Json.StopsNumber rest)
    (hr' : Json.StopsNumber rest') (h : isoDate day ++ rest = isoDate day' ++ rest') :
    day = day' ∧ rest = rest' := by
  simp only [isoDate, List.append_assoc, List.cons_append] at h
  obtain ⟨hy, h⟩ := padded_cons_inj (by decide) h
  obtain ⟨hm, h⟩ := padded_cons_inj (by decide) h
  obtain ⟨hd, h⟩ := padded_append_inj hr hr' h
  exact ⟨civilOfDay_injective (Prod.ext hy (Prod.ext hm hd)), h⟩

/-- **The text of a date determines the day.** -/
theorem isoDate_inj {day day' : ℕ} (h : isoDate day = isoDate day') : day = day' := by
  have h' : isoDate day ++ [] = isoDate day' ++ [] := by rw [h]
  exact (isoDate_append_inj Json.stopsNumber_nil Json.stopsNumber_nil h').1

/-- The fraction of a second and the offset determine the fraction. -/
theorem fraction_inj {f f' : ℕ}
    (h : (if f = 0 then [] else '.' :: padded 6 f) ++ ['+', '0', '0', ':', '0', '0']
      = (if f' = 0 then [] else '.' :: padded 6 f') ++ ['+', '0', '0', ':', '0', '0']) :
    f = f' := by
  split_ifs at h with hf hf' hf'
  · rw [hf, hf']
  · simp at h
  · simp at h
  · rw [List.cons_append, List.cons_append, List.cons.injEq] at h
    exact (padded_cons_inj (by decide) h.2).1

/-- **The UTC text of an instant determines the instant.** -/
theorem isoDateTimeUtc_inj {t t' : ℕ} (h : isoDateTimeUtc t = isoDateTimeUtc t') : t = t' := by
  simp only [isoDateTimeUtc, isoDateTime] at h
  obtain ⟨hday, h⟩ := isoDate_append_inj (Json.stopsNumber_cons (by decide) _)
    (Json.stopsNumber_cons (by decide) _) h
  obtain ⟨hh, h⟩ := padded_cons_inj (by decide) (List.cons.inj h).2
  obtain ⟨hm, h⟩ := padded_cons_inj (by decide) h
  have hstop : ∀ f : ℕ, Json.StopsNumber
      ((if f = 0 then [] else '.' :: padded 6 f) ++ ['+', '0', '0', ':', '0', '0']) := by
    intro f
    split_ifs
    · exact Json.stopsNumber_cons (by decide) _
    · exact Json.stopsNumber_cons (by decide) _
  obtain ⟨hs, h⟩ := padded_append_inj (hstop _) (hstop _) h
  have hf := fraction_inj h
  have ht := Nat.div_add_mod t dayMicros
  have ht' := Nat.div_add_mod t' dayMicros
  have hmicro : t % dayMicros = t' % dayMicros := by omega
  rw [← ht, ← ht', hday, hmicro]

end Calendar
