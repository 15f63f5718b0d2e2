/-
# Dates from ISO texts

`date.fromisoformat`: a calendar date with or without hyphens, or a week date.  A text that
`isoformat` wrote is read back as the date it was written for (`fromIsoFormat_isoFormat`).
-/
import EvidenceLab.Calendar
import EvidenceLab.DecimalParse

namespace Calendar

/-- The days of a month. -/
def daysInMonth (year month : ℕ) : ℕ :=
  ([0, 31, if isLeap year then 29 else 28, 31, 30, 31, 30, 31, 31, 30, 31, 30, 31] : List ℕ).getD
  month 0

/-- A date that the type holds. -/
structure CivilDate where
  year : ℕ
  month : ℕ
  day : ℕ
  year_mem : 1 ≤ year ∧ year ≤ 9999
  month_mem : 1 ≤ month ∧ month ≤ 12
  day_mem : 1 ≤ day ∧ day ≤ daysInMonth year month

/-- `date(year, month, day)`. -/
def civilDate? (year month day : ℕ) : Option CivilDate :=
  if h : (1 ≤ year ∧ year ≤ 9999) ∧ (1 ≤ month ∧ month ≤ 12) ∧ 1 ≤ day ∧
      day ≤ daysInMonth year month then
    some ⟨year, month, day, h.1, h.2.1, h.2.2⟩
  else none

/-- `d.isoformat()`. -/
def CivilDate.isoFormat (d : CivilDate) : List Char :=
  padded 4 d.year ++ '-' :: (padded 2 d.month ++ '-' :: padded 2 d.day)

/-- A number of exactly so many digits at the head of a text. -/
def scanDigits (width : ℕ) (cs : List Char) : Option (ℕ × List Char) :=
  if (cs.take width).length = width ∧ (cs.take width).all Char.isDigit then
    some (Nat.ofDigitChars 10 (cs.take width) 0, cs.drop width)
  else none

/-- A hyphen, where the text uses them. -/
def scanHyphen (hyphens : Bool) (cs : List Char) : Option (List Char) :=
  if hyphens then
    match cs with
    | '-' :: rest => some rest
    | _ => none
  else some cs

/-- The day number of a week date. -/
def dayOfWeekDate (year week day : ℕ) : Option ℕ :=
  let first := daysBeforeYear year
  let weekday := first % 7
  let monday := if 3 < weekday then first - weekday + 7 else first - weekday
  let long := weekday = 3 ∨ (weekday = 2 ∧ isLeap year)
  if 1 ≤ year ∧ 1 ≤ week ∧ (week ≤ 52 ∨ (week = 53 ∧ long)) ∧ 1 ≤ day ∧ day ≤ 7 then
    some (monday + (week - 1) * 7 + (day - 1))
  else none

/-- `date.fromisoformat`, `none` for a `ValueError`. -/
def fromIsoFormat (cs : List Char) : Option CivilDate := do
  let size := (cs.map Char.utf8Size).sum
  if size ≠ 7 ∧ size ≠ 8 ∧ size ≠ 10 then none
  else
    let (year, afterYear) ← scanDigits 4 cs
    let hyphens := afterYear.head? == some '-'
    let rest := if hyphens then afterYear.tail else afterYear
    match rest with
    | 'W' :: rest =>
        let (week, rest) ← scanDigits 2 rest
        let day ← if rest = [] then some 1 else do
          let rest ← scanHyphen hyphens rest
          let (day, _) ← scanDigits 1 rest
          some day
        let n ← dayOfWeekDate year week day
        civilDate? (civilOfDay n).1 (civilOfDay n).2.1 (civilOfDay n).2.2
    | rest =>
        let (month, rest) ← scanDigits 2 rest
        let rest ← scanHyphen hyphens rest
        let (day, rest) ← scanDigits 2 rest
        if rest = [] then civilDate? year month day else none

/-- A padded number has its width. -/
theorem length_padded {w n : ℕ} (h : n < 10 ^ w) (hw : 0 < w) : (padded w n).length = w := by
  have hdigits : (Nat.toDigits 10 n).length ≤ w := Nat.toDigits_length 10 n w hw h
  simp only [padded, List.length_append, List.length_replicate]
  omega

/-- A padded number is scanned back. -/
theorem scanDigits_padded {w n : ℕ} (h : n < 10 ^ w) (hw : 0 < w) (rest : List Char) :
    scanDigits w (padded w n ++ rest) = some (n, rest) := by
  have hlen := length_padded h hw
  unfold scanDigits
  rw [List.take_left' hlen, List.drop_left' hlen, if_pos, ofDigitChars_padded]
  exact ⟨hlen, List.all_eq_true.mpr (padded_digits w n)⟩

/-- The fields of a date make it again. -/
theorem civilDate?_self (d : CivilDate) : civilDate? d.year d.month d.day = some d := by
  rw [civilDate?, dif_pos ⟨d.year_mem, d.month_mem, d.day_mem⟩]

theorem CivilDate.day_lt (d : CivilDate) : d.day < 100 := by
  have h := d.day_mem.2
  have hm : daysInMonth d.year d.month ≤ 31 := by
    obtain ⟨hlo, hhi⟩ := d.month_mem
    generalize d.month = m at *
    unfold daysInMonth
    interval_cases m <;> simp
    split <;> omega
  omega

theorem utf8Size_of_isDigit {c : Char} (h : c.isDigit = true) : c.utf8Size = 1 := by
  have hrange : 48 ≤ c.toNat ∧ c.toNat ≤ 57 := by
    simpa [Char.isDigit, UInt32.le_iff_toNat_le] using h
  obtain ⟨hlo, hhi⟩ := hrange
  rw [← Char.ofNat_toNat c]
  generalize c.toNat = n at *
  interval_cases n <;> decide

theorem sum_utf8Size_padded {w n : ℕ} (h : n < 10 ^ w) (hw : 0 < w) :
    ((padded w n).map Char.utf8Size).sum = w := by
  have hone : (padded w n).map Char.utf8Size = List.replicate w 1 := by
    rw [List.eq_replicate_iff]
    refine ⟨by rw [List.length_map, length_padded h hw], ?_⟩
    intro k hk
    obtain ⟨c, hc, rfl⟩ := List.mem_map.mp hk
    exact utf8Size_of_isDigit (padded_digits w n c hc)
  rw [hone]
  simp

/-- **A written date is read back.** -/
theorem fromIsoFormat_isoFormat (d : CivilDate) : fromIsoFormat d.isoFormat = some d := by
  have hyear : d.year < 10 ^ 4 := lt_of_le_of_lt d.year_mem.2 (by norm_num)
  have hmonth : d.month < 10 ^ 2 := lt_of_le_of_lt d.month_mem.2 (by norm_num)
  have hday : d.day < 10 ^ 2 := d.day_lt
  have hsize : (d.isoFormat.map Char.utf8Size).sum = 10 := by
    simp only [CivilDate.isoFormat, List.map_append, List.map_cons, List.sum_append, List.sum_cons,
      sum_utf8Size_padded hyear (by norm_num), sum_utf8Size_padded hmonth (by norm_num),
      sum_utf8Size_padded hday (by norm_num)]
    decide
  unfold fromIsoFormat
  simp only [hsize]
  rw [if_neg (by decide), CivilDate.isoFormat, scanDigits_padded hyear (by norm_num)]
  simp only [Option.bind_eq_bind, Option.bind_some, List.head?_cons, List.tail_cons,
    beq_self_eq_true, if_true]
  split
  next rest heq =>
      -- the month starts with a digit, not with the letter of a week date
      exfalso
      cases hp : padded 2 d.month with
      | nil =>
          have hlen := length_padded hmonth (by norm_num)
          rw [hp] at hlen
          cases hlen
      | cons c cs =>
          rw [hp, List.cons_append] at heq
          have hdigit := padded_digits 2 d.month c (by rw [hp]; exact List.mem_cons_self)
          rw [(List.cons.inj heq).1] at hdigit
          revert hdigit
          decide
  next rest heq =>
      rw [scanDigits_padded hmonth (by norm_num)]
      simp only [Option.bind_some, scanHyphen, if_true]
      have hlast := scanDigits_padded hday (by norm_num) []
      rw [List.append_nil] at hlast
      rw [hlast]
      simp only [Option.bind_some, if_true]
      exact civilDate?_self d

end Calendar
