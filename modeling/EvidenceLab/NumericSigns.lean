/-
# Negative amounts in texts

The pattern sees a minus sign or a parenthesis only where nothing but blanks stands between it and
the digits. `negative_amount_read_iff` says for which texts an amount that is written as a negative
one is read as such.
-/
import EvidenceLab.NumericText

namespace Extraction

namespace Numeric

open PyText

/-! ## Notations of a negative amount -/

/-- The currency symbols of Unicode, as ranges. -/
def currencySymbols : List (ℕ × ℕ) :=
  [(0x24, 0x24), (0xa2, 0xa5), (0x58f, 0x58f), (0x60b, 0x60b), (0x7fe, 0x7ff),
    (0x9f2, 0x9f3), (0x9fb, 0x9fb),
    (0xaf1, 0xaf1), (0xbf9, 0xbf9), (0xe3f, 0xe3f), (0x17db, 0x17db), (0x20a0, 0x20c0),
    (0xa838, 0xa838),
    (0xfdfc, 0xfdfc), (0xfe69, 0xfe69), (0xff04, 0xff04), (0xffe0, 0xffe1), (0xffe5, 0xffe6),
    (0x11fdd, 0x11fe0),
    (0x1e2ff, 0x1e2ff), (0x1ecb0, 0x1ecb0)]

/-- A currency symbol or a code of three capital letters. -/
def IsCurrency (cs : List Char) : Prop :=
  (∃ c, cs = [c] ∧ (currencySymbols.any fun r => r.1 ≤ c.toNat && c.toNat ≤ r.2) = true)
    ∨ (cs.length = 3 ∧ ∀ c ∈ cs, c.isUpper = true)

/-- Blanks with at most one currency among them. -/
def Gap (cs : List Char) : Prop :=
  ∃ blanks currency blanks', cs = blanks ++ currency ++ blanks' ∧ Blank blanks ∧ Blank blanks'
    ∧ (currency = [] ∨ IsCurrency currency)

/-- No sign, or one. -/
def IsSign (cs : List Char) : Prop := cs = [] ∨ cs = ['-'] ∨ cs = ['+']

namespace Match

variable (m : Match)

/-- The text on the left of the number. -/
def left : List Char := m.before ++ m.lead

/-- The text on the right of the number. -/
def right : List Char := m.trail ++ m.after

/-- One of the signs directly before the number, up to a gap. -/
def SignBefore (signs : List Char) (IsGap : List Char → Prop) : Prop :=
  ∃ rest c gap, m.left = rest ++ c :: gap ∧ c ∈ signs ∧ IsGap gap

/-- A parenthesis that opens before the number and its sign, up to gaps. -/
def OpensBefore (IsGap : List Char → Prop) : Prop :=
  ∃ rest gap sign gap', m.left = rest ++ '(' :: (gap ++ sign ++ gap') ∧ IsGap gap ∧
    IsSign sign ∧ IsGap gap'

/-- A parenthesis that closes after the number or its suffix, up to a gap. -/
def ClosesAfter (IsGap : List Char → Prop) : Prop :=
  ∃ suffix gap rest, m.right = suffix ++ gap ++ ')' :: rest ∧
    (suffix = [] ∨ suffix = m.suffixText) ∧ IsGap gap

/-- The amount stands in parentheses. -/
def Enclosed (IsGap : List Char → Prop) : Prop := m.OpensBefore IsGap ∧ m.ClosesAfter IsGap

/-- The amount is written as a negative one: a minus sign, also the one of Unicode, or parentheses,
with blanks and a currency between them and the number. -/
def Negative : Prop := m.SignBefore ['-', '\u2212'] Gap ∨ m.Enclosed Gap

/-- The notations that the pattern knows: a hyphen or parentheses, with blanks between them and the
number. -/
def PlainNegative : Prop := m.SignBefore ['-'] Blank ∨ m.Enclosed Blank

/-- The number is zero, or becomes zero in the arithmetic that an explicit plus sign puts it
through. -/
def Vanishes : Prop :=
  amount m.body = 0 ∨
    (m.sign = some '+' ∧ Retrieval.defaultContext.roundValue (amount m.body) = some 0)

end Match

/-! ## What the pattern sees -/

/-- The last character that is no blank, and what stands before and after it. -/
theorem last_solid {x y b b' : List Char} {c d : Char} (hb : Blank b) (hb' : Blank b')
    (hc : isSpace c = false)
    (hd : isSpace d = false) (h : x ++ c :: b = y ++ d :: b') : x = y ∧ c = d ∧ b = b' := by
  have key : ∀ {x y b b' : List Char} {c d : Char}, Blank b → isSpace d = false →
      x ++ c :: b = y ++ d :: b' → ∀ as, y = x ++ as → as = [] := by
    rintro x _ b b' c d hb hd h as rfl
    rw [List.append_assoc] at h
    have := List.append_cancel_left h
    cases as with
    | nil => rfl
    | cons a as =>
        rw [List.cons_append] at this
        have hmem : d ∈ b := by
          rw [(List.cons.inj this).2]
          simp
        rw [hb d hmem] at hd
        cases hd
  have hxy : x = y := by
    rcases List.append_eq_append_iff.mp h with ⟨as, has, -⟩ | ⟨as, has, -⟩
    · rw [has, key hb hd h as has, List.append_nil]
    · rw [has, key hb' hc h.symm as has, List.append_nil]
  subst hxy
  exact ⟨rfl, List.cons.inj (List.append_cancel_left h)⟩

/-- Blanks at the end belong to the blanks after the last other character. -/
theorem split_blank {x y b b' : List Char} {d : Char} (hb : Blank b) (hd : isSpace d = false)
    (h : x ++ b = y ++ d :: b') : ∃ b₁, x = y ++ d :: b₁ ∧ b' = b₁ ++ b := by
  rcases List.append_eq_append_iff.mp h with ⟨as, -, has⟩ | ⟨bs, hbs, hbs'⟩
  · have hmem : d ∈ b := by
      rw [has]
      simp
    rw [hb d hmem] at hd
    cases hd
  · cases bs with
    | nil =>
        have hmem : d ∈ b := by
          rw [List.nil_append] at hbs'
          rw [← hbs']
          exact List.mem_cons_self
        rw [hb d hmem] at hd
        cases hd
    | cons e bs =>
        rw [List.cons_append] at hbs'
        obtain ⟨rfl, rfl⟩ := List.cons.inj hbs'
        exact ⟨bs, hbs, rfl⟩

theorem blank_append {b b' : List Char} : Blank (b ++ b') ↔ Blank b ∧ Blank b' := by
  simp only [Blank, List.mem_append, or_imp, forall_and]

section Found

variable {isWord : Char → Bool} {cs : List Char} {m : Match}

/-- Before the match there is no text that could belong to it. -/
theorem no_lead_before (h : search isWord [] cs = some m) {rest q : List Char}
    (hbefore : m.before = rest ++ q)
    (hq : q ≠ []) {opened : Bool} {sign : Option Char} : ¬ IsLead opened sign (q ++ m.lead) := by
  intro hlead
  obtain ⟨-, hscan, hfirst⟩ := search_spec isWord h
  have hnone := hfirst rest q (by simpa using hbefore) hq
  have hbody : (scanBody (m.body ++ (m.trail ++ m.after))).1 ≠ [] := by
    rw [hscan.body]
    exact hscan.body_ne
  have hsome : (matchAt isWord rest (q ++ m.lead ++ (m.body ++ (m.trail ++ m.after)))).isSome :=
    matchAt_isSome isWord hlead hbody
  simp only [List.append_assoc, List.nil_append] at hnone hsome
  rw [hnone] at hsome
  cases hsome

/-- The sign of a match is a hyphen when one stands before the number. -/
theorem sign_eq_minus_iff (h : search isWord [] cs = some m) :
    m.sign = some '-' ↔ m.SignBefore ['-'] Blank := by
  obtain ⟨-, hscan, -⟩ := search_spec isWord h
  constructor
  · intro hsign
    refine ⟨m.before ++ ((if m.opened then ['('] else []) ++ m.blanks), '-', m.gap, ?_,
      List.mem_singleton_self _, hscan.gap⟩
    simp [Match.left, Match.lead, hsign]
  · rintro ⟨rest, c, gap, hleft, hc, hgap⟩
    obtain rfl := List.mem_singleton.mp hc
    rcases hscan.sign with hsign | hsign | hsign
    · exfalso
      cases hopen : m.opened with
      | true =>
          have heq : m.before ++ '(' :: (m.blanks ++ m.gap) = rest ++ '-' :: gap := by
            rw [← hleft]
            simp [Match.left, Match.lead, hsign, hopen]
          have :=
            (last_solid (blank_append.mpr ⟨hscan.blanks, hscan.gap⟩) hgap (by decide)
            (by decide) heq).2.1
          cases this
      | false =>
          have heq : m.before ++ (m.blanks ++ m.gap) = rest ++ '-' :: gap := by
            rw [← hleft]
            simp [Match.left, Match.lead, hsign, hopen]
          obtain ⟨b, hbefore, rfl⟩ :=
            split_blank (blank_append.mpr ⟨hscan.blanks, hscan.gap⟩) (by decide) heq
          have hlead : IsLead false (some '-') ('-' :: b ++ m.lead) := by
            refine ⟨⟨[], b ++ (m.blanks ++ m.gap), fun c hc => absurd hc List.not_mem_nil,
              hgap, ?_⟩, by simp⟩
            simp [Match.lead, hsign, hopen]
          exact no_lead_before h hbefore (List.cons_ne_nil _ _) hlead
    · exact hsign
    · have heq : (m.before ++ ((if m.opened then ['('] else []) ++ m.blanks)) ++ '+' :: m.gap = rest
      ++ '-' :: gap := by
        rw [← hleft]
        simp [Match.left, Match.lead, hsign]
      have := (last_solid hscan.gap hgap (by decide) (by decide) heq).2.1
      cases this

/-- A match starts at the parenthesis that opens before its number. -/
theorem opened_iff (h : search isWord [] cs = some m) : m.opened = true ↔ m.OpensBefore Blank := by
  obtain ⟨-, hscan, -⟩ := search_spec isWord h
  constructor
  · intro hopen
    refine ⟨m.before, m.blanks, m.sign.toList, m.gap, by simp [Match.left, Match.lead, hopen],
      hscan.blanks, ?_, hscan.gap⟩
    rcases hscan.sign with hsign | hsign | hsign <;> simp [IsSign, hsign]
  · rintro ⟨rest, gap, sign, gap', hleft, hgap, hsign', hgap'⟩
    by_contra hopen
    rw [Bool.not_eq_true] at hopen
    -- the sign between the parenthesis and the number
    obtain ⟨s, rfl, hs⟩ :
        ∃ s : Option Char, sign = s.toList ∧ (s = none ∨ s = some '-' ∨ s = some '+') := by
      rcases hsign' with rfl | rfl | rfl
      · exact ⟨none, rfl, by simp⟩
      · exact ⟨some '-', rfl, by simp⟩
      · exact ⟨some '+', rfl, by simp⟩
    have hsolid : ∀ c, s = some c → isSpace c = false := by
      rcases hs with rfl | rfl | rfl
      · exact fun c hc => absurd hc (by simp)
      · rintro c ⟨⟩
        decide
      · rintro c ⟨⟩
        decide
    have hsolid' : ∀ c, m.sign = some c → isSpace c = false ∧ c ≠ '(' := by
      rcases hscan.sign with h | h | h <;> rw [h]
      · exact fun c hc => absurd hc (by simp)
      · rintro c ⟨⟩
        decide
      · rintro c ⟨⟩
        decide
    cases hm : m.sign with
    | none =>
        have hblank : Blank (m.blanks ++ m.gap) := blank_append.mpr ⟨hscan.blanks, hscan.gap⟩
        have hleft' :
            m.before ++ (m.blanks ++ m.gap) = rest ++ '(' :: (gap ++ s.toList ++ gap') := by
          rw [← hleft]
          simp [Match.left, Match.lead, hm, hopen]
        cases s with
        | none =>
            simp only [Option.toList_none, List.append_nil] at hleft'
            obtain ⟨b, hbefore, hgaps⟩ := split_blank hblank (by decide) hleft'
            have hlead : IsLead true none ('(' :: b ++ m.lead) := by
              refine ⟨⟨gap ++ gap', [], blank_append.mpr ⟨hgap, hgap'⟩,
                fun c hc => absurd hc List.not_mem_nil, ?_⟩, by simp⟩
              rw [hgaps]
              simp [Match.lead, hm, hopen]
            exact no_lead_before h hbefore (List.cons_ne_nil _ _) hlead
        | some c =>
            have hleft'' : m.before ++ (m.blanks ++ m.gap) = (rest ++ '(' :: gap) ++ c :: gap' := by
              rw [hleft']
              simp
            obtain ⟨b, hbefore, rfl⟩ := split_blank hblank (hsolid c rfl) hleft''
            have hlead : IsLead true (some c) (('(' :: gap ++ c :: b) ++ m.lead) := by
              refine ⟨⟨gap, b ++ (m.blanks ++ m.gap), hgap, hgap', ?_⟩, hs⟩
              simp [Match.lead, hm, hopen]
            have hbefore' : m.before = rest ++ ('(' :: gap ++ c :: b) := by
              rw [hbefore]
              simp
            exact no_lead_before h hbefore' (by simp) hlead
    | some d =>
        obtain ⟨hd, hd'⟩ := hsolid' d hm
        have hleft' :
            (m.before ++ m.blanks) ++ d :: m.gap = rest ++ '(' :: (gap ++ s.toList ++ gap') := by
          rw [← hleft]
          simp [Match.left, Match.lead, hm, hopen]
        cases s with
        | none =>
            simp only [Option.toList_none, List.append_nil] at hleft'
            exact hd'
              (last_solid hscan.gap (blank_append.mpr ⟨hgap, hgap'⟩) hd (by decide) hleft').2.1
        | some c =>
            have hleft'' :
                (m.before ++ m.blanks) ++ d :: m.gap = (rest ++ '(' :: gap) ++ c :: gap' := by
              rw [hleft']
              simp
            obtain ⟨hbefore', rfl, rfl⟩ := last_solid hscan.gap hgap' hd (hsolid c rfl) hleft''
            obtain ⟨b, hbefore, rfl⟩ := split_blank hscan.blanks (by decide) hbefore'
            have hlead : IsLead true (some d) ('(' :: b ++ m.lead) := by
              refine ⟨⟨b ++ m.blanks, m.gap, hgap, hscan.gap, ?_⟩, hs⟩
              simp [Match.lead, hm, hopen]
            exact no_lead_before h hbefore (List.cons_ne_nil _ _) hlead

/-- A closing parenthesis after the number or its suffix is part of the match. -/
theorem closed_iff (h : search isWord [] cs = some m) :
    (m.closeBare.isSome || m.closeSuffixed.isSome) = true ↔ m.ClosesAfter Blank := by
  obtain ⟨-, hscan, -⟩ := search_spec isWord h
  have hbare := hscan.closeBare
  have hsuffixed := hscan.closeSuffixed
  -- a parenthesis that was scanned closes the amount
  constructor
  · intro hclose
    cases hb : m.closeBare with
    | some blanks =>
        refine ⟨[], blanks, m.suffixText ++ Match.closing m.closeSuffixed ++ m.after,
          ?_, Or.inl rfl, ?_⟩
        · simp [Match.right, Match.trail, hb, Match.closing]
        · rcases scanClose_cases (m.trail ++ m.after) with ⟨b, rest, hb', hblank, -⟩ | ⟨hnone, -⟩
          · rw [hbare, hb] at hb'
            cases hb'
            exact hblank
          · rw [hbare, hb] at hnone
            cases hnone
    | none =>
        rw [hb, Option.isSome_none, Bool.false_or] at hclose
        obtain ⟨blanks, hs⟩ := Option.isSome_iff_exists.mp hclose
        refine ⟨m.suffixText, blanks, m.after, ?_, Or.inr rfl, ?_⟩
        · simp [Match.right, Match.trail, hb, hs, Match.closing]
        · rcases scanClose_cases (Match.closing m.closeSuffixed ++ m.after)
          with ⟨b, rest, hb', hblank, -⟩ | ⟨hnone, -⟩
          · rw [hsuffixed, hs] at hb'
            cases hb'
            exact hblank
          · rw [hsuffixed, hs] at hnone
            cases hnone
  · -- one that closes the amount was scanned: the pattern passes no closing parenthesis over
    rintro ⟨suffix, gap, rest, hright, hsuffix, hgap⟩
    rw [Match.right] at hright
    cases hb : m.closeBare with
    | some blanks => rfl
    | none =>
        rcases scanClose_cases (m.trail ++ m.after) with ⟨b, r, hb', -, -⟩ | ⟨-, hno⟩
        · rw [hbare, hb] at hb'
          cases hb'
        · rcases hsuffix with rfl | rfl
          · exact absurd hright (hno gap rest hgap)
          · rcases scanClose_cases (Match.closing m.closeSuffixed ++ m.after)
            with ⟨b, r, hb', -, -⟩ | ⟨-, hno'⟩
            · rw [hsuffixed] at hb'
              rw [(Prod.mk.inj hb').1]
              rfl
            · refine absurd ?_ (hno' gap rest hgap)
              have hcancel : m.suffixText ++ (Match.closing m.closeSuffixed ++ m.after)
                  = m.suffixText ++ (gap ++ ')' :: rest) := by
                rw [← List.append_assoc m.suffixText gap, ← hright]
                simp [Match.trail, hb, Match.closing]
              exact List.append_cancel_left hcancel

/-- **The negative amounts that the pattern sees** are those in a plain notation. -/
theorem negated_iff (h : search isWord [] cs = some m) : m.negated = true ↔ m.PlainNegative := by
  unfold Match.negated Match.parenthesized Match.PlainNegative Match.Enclosed
  rw [Bool.or_eq_true, Bool.and_eq_true, beq_iff_eq, sign_eq_minus_iff h,
    opened_iff h, closed_iff h]

end Found

/-! ## Digits -/

/-- A blank is no digit. -/
theorem isDigit_of_isSpace {c : Char} (h : isSpace c = true) : isDigit c = false := by
  have hdec : isDecimal c = false := by
    by_contra hdec
    rw [Bool.not_eq_false] at hdec
    rw [not_isSpace_of_isDecimal hdec] at h
    cases h
  rw [isDigit, hdec, Bool.false_or]
  unfold isSpace at h
  generalize c.toNat = n at h
  simp only [Bool.or_eq_true, Bool.and_eq_true, decide_eq_true_eq, beq_iff_eq] at h
  have hcases : (9 ≤ n ∧ n ≤ 13) ∨ (28 ≤ n ∧ n ≤ 32) ∨ n = 0x85 ∨ n = 0xa0 ∨ n = 0x1680
      ∨ (0x2000 ≤ n ∧ n ≤ 0x200a) ∨ n = 0x2028 ∨ n = 0x2029 ∨ n = 0x202f ∨ n = 0x205f
        ∨ n = 0x3000 := by
    tauto
  rcases hcases with ⟨h1, h2⟩ | ⟨h1, h2⟩ | rfl | rfl | rfl | ⟨h1, h2⟩ | rfl | rfl | rfl | rfl | rfl
  all_goals first
    | decide
    | (interval_cases n <;> decide)

/-- A text without digits. -/
def Digitless (cs : List Char) : Prop := cs.filter isDigit = []

instance (cs : List Char) : Decidable (Digitless cs) := inferInstanceAs (Decidable (_ = _))

theorem digitless_iff {cs : List Char} : Digitless cs ↔ ∀ c ∈ cs, isDigit c = false := by
  simp [Digitless, List.filter_eq_nil_iff]

/-- Texts without digits have none together. -/
theorem Digitless.append {cs ds : List Char} (h : Digitless cs) (h' : Digitless ds) :
    Digitless (cs ++ ds) := by
  rw [Digitless, List.filter_append, h, h']
  rfl

theorem Blank.digitless {cs : List Char} (h : Blank cs) : Digitless cs :=
  digitless_iff.mpr fun c hc => isDigit_of_isSpace (h c hc)

/-- Stripping blanks keeps the digits. -/
theorem filter_dropWhile_isSpace (cs : List Char) :
    (cs.dropWhile isSpace).filter isDigit = cs.filter isDigit := by
  have happ :=
    congrArg (List.filter isDigit) (List.takeWhile_append_dropWhile (p := isSpace) (l := cs))
  rw [List.filter_append, (blank_takeWhile cs).digitless] at happ
  exact happ

/-- Cleaning keeps the digits. -/
theorem filter_cleaned (raw : List Char) : (cleaned raw).filter isDigit = raw.filter isDigit := by
  have hreverse :
      (((raw.filter fun c => c != '$' && c != '%').dropWhile isSpace).reverse.dropWhile
      isSpace).filter isDigit
      = ((raw.filter fun c => c != '$' && c != '%').filter isDigit).reverse := by
    rw [filter_dropWhile_isSpace, List.filter_reverse, filter_dropWhile_isSpace]
  rw [cleaned, strip, List.filter_reverse, hreverse, List.reverse_reverse, List.filter_filter]
  apply List.filter_congr
  intro c _
  by_cases hc : c = '$' ∨ c = '%'
  · rcases hc with rfl | rfl <;> decide
  · obtain ⟨h₁, h₂⟩ := not_or.mp hc
    simp [h₁, h₂]

/-- A scanned word matches the letters of its pattern. -/
theorem scanWord_letters : ∀ {ps cs word rest : List Char}, scanWord ps cs = some (word, rest) →
    ∀ c ∈ word, ∃ p ∈ ps, matchesLetter p c = true
  | [], cs, word, rest, h => by
      rw [scanWord] at h
      cases h
      exact fun c hc => absurd hc List.not_mem_nil
  | _ :: _, [], _, _, h => by
      rw [scanWord] at h
      cases h
  | p :: ps, c :: cs, word, rest, h => by
      rw [scanWord] at h
      split_ifs at h with hc
      obtain ⟨⟨w, r⟩, hw, hr⟩ := Option.map_eq_some_iff.mp h
      cases hr
      intro d hd
      rcases List.mem_cons.mp hd with rfl | hd
      · exact ⟨p, List.mem_cons_self, hc⟩
      · obtain ⟨q, hq, hqd⟩ := scanWord_letters hw d hd
        exact ⟨q, List.mem_cons_of_mem p hq, hqd⟩

/-- What matches a letter is no digit. -/
theorem isDigit_of_matchesLetter {p c : Char} (hp : isDigit p = false)
    (hp' : isDigit p.toUpper = false)
    (h : matchesLetter p c = true) : isDigit c = false := by
  simp only [matchesLetter, Bool.or_eq_true, Bool.and_eq_true, beq_iff_eq] at h
  rcases h with (((rfl | rfl) | ⟨-, rfl⟩) | ⟨-, rfl⟩) | ⟨-, rfl | rfl⟩
  · exact hp
  · exact hp'
  all_goals decide

theorem isDigit_lower {p : Char} (h : p.isLower = true) :
    isDigit p = false ∧ isDigit p.toUpper = false := by
  have hrange : 97 ≤ p.toNat ∧ p.toNat ≤ 122 := by
    simpa [Char.isLower, UInt32.le_iff_toNat_le] using h
  obtain ⟨hlo, hhi⟩ := hrange
  rw [← Char.ofNat_toNat p]
  generalize p.toNat = n at *
  interval_cases n <;> decide

theorem isLower_suffix : ∀ pattern ∈ suffixAlternation, ∀ p ∈ pattern.toList, p.isLower = true := by
  intro pattern hpattern
  simp only [suffixAlternation, List.mem_cons, List.not_mem_nil, or_false] at hpattern
  rcases hpattern with rfl | rfl | rfl | rfl | rfl | rfl | rfl | rfl | rfl | rfl | rfl
  all_goals simp

section Found

variable {isWord : Char → Bool} {cs : List Char} {m : Match}

/-- The suffix of an amount has no digits. -/
theorem suffixText_digitless (h : Scanned isWord m) : Digitless m.suffixText := by
  have hsuffix := h.suffix
  unfold scanSuffix at hsuffix
  split at hsuffix
  next word plural rest hfind =>
      obtain ⟨pattern, hpattern, hp⟩ := List.exists_of_findSome?_eq_some hfind
      have hs := (Prod.mk.inj hsuffix).1
      rw [Match.suffixText, ← hs]
      have hblanks :=
        (blank_takeWhile (m.suffixText ++ (Match.closing m.closeSuffixed ++ m.after))).digitless
      have hletter : ∀ {p c : Char}, p.isLower = true → matchesLetter p c = true →
          isDigit c = false :=
        fun hp hc => isDigit_of_matchesLetter (isDigit_lower hp).1 (isDigit_lower hp).2 hc
      unfold scanAlternative at hp
      split at hp
      next => cases hp
      next w hw =>
          have hword : Digitless w := digitless_iff.mpr fun c hc => by
            obtain ⟨p, hp, hpc⟩ := scanWord_letters hw c hc
            exact hletter (isLower_suffix pattern hpattern p hp) hpc
          cases hp
          exact (hblanks.append hword).append rfl
      next w c r hw =>
          have hword : Digitless w := digitless_iff.mpr fun c hc => by
            obtain ⟨p, hp, hpc⟩ := scanWord_letters hw c hc
            exact hletter (isLower_suffix pattern hpattern p hp) hpc
          split_ifs at hp with hplural hend
          · cases hp
            rw [Bool.and_eq_true] at hplural
            exact (hblanks.append hword).append (digitless_iff.mpr (by
              intro d hd
              obtain rfl := List.mem_singleton.mp hd
              exact hletter (p := 's') (by decide) hplural.1))
          · cases hp
            exact (hblanks.append hword).append rfl
  next =>
      rw [Match.suffixText, ← (Prod.mk.inj hsuffix).1]
      rfl

/-- A closing parenthesis has no digits. -/
theorem closing_digitless {cs : List Char} {close : Option (List Char)} {rest : List Char}
    (h : scanClose cs = (close, rest)) :
    Digitless (Match.closing close) := by
  rcases scanClose_cases cs with ⟨blanks, r, hb, hblank, -⟩ | ⟨hnone, -⟩
  · rw [h] at hb
    cases hb
    exact hblank.digitless.append (by decide)
  · rw [h] at hnone
    cases hnone
    rfl

/-- **Every digit of an accepted text belongs to its number.** -/
theorem filter_digits {raw : List Char} (h : search isWord [] (cleaned raw) = some m)
    (hfull : requireFullConsumption raw m = .ok ()) :
    raw.filter isDigit = m.body.filter isDigit := by
  obtain ⟨htext, hscan, -⟩ := search_spec isWord h
  unfold requireFullConsumption at hfull
  split_ifs at hfull with hrest
  simp only [Bool.not_eq_true, List.any_append, Bool.or_eq_false_iff, List.any_eq_false] at hrest
  have hbefore : Digitless m.before := digitless_iff.mpr fun c hc => by simpa using hrest.1 c hc
  have hafter : Digitless m.after := digitless_iff.mpr fun c hc => by simpa using hrest.2 c hc
  have hlead : Digitless m.lead := by
    have hsign : Digitless m.sign.toList := by
      rcases hscan.sign with hs | hs | hs <;> rw [hs] <;> decide
    have hopen : Digitless (if m.opened then ['('] else []) := by
      cases m.opened <;> decide
    exact ((hopen.append hscan.blanks.digitless).append hsign).append hscan.gap.digitless
  have htrail : Digitless m.trail :=
    ((closing_digitless hscan.closeBare).append (suffixText_digitless hscan)).append
    (closing_digitless hscan.closeSuffixed)
  rw [← filter_cleaned, ← List.nil_append (cleaned raw), ← htext, Match.text]
  simp only [List.filter_append]
  rw [hbefore, hlead, htrail, hafter]
  simp

/-- The number that was read, under the sign that the pattern saw. -/
theorem value_of_parse {raw : List Char} {value : Decimal} {scale : ℕ} {sign : SignWord}
    (hparse : parseNumeric isWord raw = .ok (value, scale, sign))
    (h : search isWord [] (cleaned raw) = some m) :
    requireFullConsumption raw m = .ok () ∧ m.scale = .ok scale ∧ sign = signWord value
      ∧ 0 ≤ amount m.body ∧ signedValue m (amount m.body) = some value.value := by
  obtain ⟨-, m', exact, hm, hfull, hexact, hscale, hvalue, hsign⟩ := parseNumeric_eq_ok.mp hparse
  rw [h] at hm
  cases hm
  obtain ⟨-, hscan, -⟩ := search_spec isWord h
  have hbody : (scanBody (m.body ++ (m.trail ++ m.after))).1 = m.body := by rw [hscan.body]
  obtain ⟨hneg, -, hval⟩ :=
    mantissa_eq_ok (by rw [hbody]; exact hscan.body_ne) (by rw [hbody]; exact hexact)
  rw [hbody] at hval
  have hnonneg : 0 ≤ exact.value := by
    simp only [Decimal.value, hneg, Bool.false_eq_true, if_false]
    positivity
  refine ⟨hfull, hscale, hsign, by rwa [← hval], ?_⟩
  rw [← hval, ← signed_value hneg, hvalue]
  rfl

/-- What is parsed is the signed value of the match. -/
theorem result_of_parse {raw : List Char} {value : Decimal} {scale : ℕ} {sign : SignWord}
    (hparse : parseNumeric isWord raw = .ok (value, scale, sign))
    (h : search isWord [] (cleaned raw) = some m)
    (hsign : m.negated = true ∨ m.sign = some '+') : Retrieval.defaultContext.Result value := by
  obtain ⟨-, m', exact, hm, -, -, -, hvalue, -⟩ := parseNumeric_eq_ok.mp hparse
  rw [h] at hm
  cases hm
  exact signed_result hsign hvalue

end Found

/-- A signed value is not positive if it is negated, zero, or a plus rounds it to zero. -/
theorem signedValue_le_zero_iff {m : Match} {v w : ℚ} (hv : 0 ≤ v) (h : signedValue m v = some w) :
    w ≤ 0 ↔ m.negated = true ∨ v = 0 ∨
    (m.sign = some '+' ∧ Retrieval.defaultContext.roundValue v = some 0) := by
  unfold signedValue at h
  split_ifs at h with hneg hplus
  · obtain ⟨r, hr, rfl⟩ := Option.map_eq_some_iff.mp h
    have := Decimal.Context.roundValue_of_nonneg hv hr
    exact ⟨fun _ => Or.inl hneg, fun _ => by linarith⟩
  · have hw := Decimal.Context.roundValue_of_nonneg hv h
    rw [h]
    constructor
    · intro hle
      exact Or.inr (Or.inr ⟨hplus, by rw [le_antisymm hle hw]⟩)
    · rintro (hn | rfl | ⟨-, hw0⟩)
      · exact absurd hn hneg
      · rw [Decimal.Context.roundValue, if_pos rfl] at h
        exact (Option.some.inj h).symm.le
      · exact (Option.some.inj hw0).le
  · cases h
    constructor
    · intro hle
      exact Or.inr (Or.inl (le_antisymm hle hv))
    · rintro (hn | hz | ⟨hp, -⟩)
      · exact absurd hn hneg
      · exact hz.le
      · exact absurd hp hplus

/-- **Negative amounts.**  For a text that `parse_numeric` accepts: an amount written as a negative
one is read as at most zero, and every digit of the text belongs to its number, exactly when the
amount is not written as a negative one, or is zero, or when nothing but blanks stands between the
number and its hyphen or parentheses. -/
theorem negative_amount_read_iff (isWord : Char → Bool) (raw : List Char) (value : Decimal)
    (scale : ℕ) (sign : SignWord)
    (m : Match) (hparse : parseNumeric isWord raw = .ok (value, scale, sign))
    (hm : search isWord [] (cleaned raw) = some m) :
    ((m.Negative → value.value ≤ 0) ∧ raw.filter isDigit = m.body.filter isDigit)
      ↔ (¬ m.Negative ∨ m.Vanishes ∨ m.PlainNegative) := by
  obtain ⟨hfull, -, -, hnonneg, hvalue⟩ := value_of_parse hparse hm
  have hle := signedValue_le_zero_iff hnonneg hvalue
  rw [negated_iff hm] at hle
  constructor
  · rintro ⟨hneg, -⟩
    by_cases h : m.Negative
    · rcases hle.mp (hneg h) with hplain | hzero
      · exact Or.inr (Or.inr hplain)
      · exact Or.inr (Or.inl hzero)
    · exact Or.inl h
  · intro hcond
    refine ⟨fun h => hle.mpr ?_, filter_digits hm hfull⟩
    rcases hcond with hnot | hzero | hplain
    · exact absurd h hnot
    · exact Or.inr hzero
    · exact Or.inl hplain

/-- The word characters of ASCII. -/
def asciiWord (c : Char) : Bool := c.isAlphanum || c == '_'

/-- `(1,234.50 million)`. -/
def lossText : List Char := "(1,234.50 million)".toList

/-- Its match: the suffix stands in the parentheses. -/
def lossMatch : Match :=
  ⟨[], true, [], none, [], "1,234.50".toList, none, some ⟨[' '], "million".toList, []⟩, some [], []⟩

theorem negative_amount_read_iff_loss :
    ((lossMatch.Negative → (⟨true, 123450, -2⟩ : Decimal).value ≤ 0)
        ∧ lossText.filter isDigit = "1,234.50".toList.filter isDigit)
      ↔ (¬ lossMatch.Negative ∨ lossMatch.Vanishes ∨ lossMatch.PlainNegative) :=
  negative_amount_read_iff asciiWord lossText ⟨true, 123450, -2⟩ 6 .negative lossMatch
    (by decide) (by decide)

/-- `(€5)`, as matched. -/
def euroMatch : Match := ⟨['(', '€'], false, [], none, [], ['5'], some [], none, none, []⟩

/-- Five euros in accounting parentheses are read as a positive amount. -/
theorem euroParens_read_positive :
    parseNumeric asciiWord ['(', '€', '5', ')'] = .ok (⟨false, 5, 0⟩, 0, .positive)
      ∧ search asciiWord [] (cleaned ['(', '€', '5', ')']) = some euroMatch
      ∧ euroMatch.Negative ∧ ¬ (⟨false, 5, 0⟩ : Decimal).value ≤ 0 := by
  refine ⟨by decide, by decide, Or.inr ⟨?_, ?_⟩, ?_⟩
  · refine ⟨[], ['€'], [], [], rfl,
      ⟨[], ['€'], [], rfl, ?_, ?_, Or.inr (Or.inl ⟨'€', rfl, by decide⟩)⟩, Or.inl rfl,
      ⟨[], [], [], rfl, ?_, ?_, Or.inl rfl⟩⟩
    all_goals exact fun c hc => absurd hc List.not_mem_nil
  · refine ⟨[], [], [], rfl, Or.inl rfl, ⟨[], [], [], rfl, ?_, ?_, Or.inl rfl⟩⟩
    all_goals exact fun c hc => absurd hc List.not_mem_nil
  · norm_num [Decimal.value]

end Numeric

end Extraction
