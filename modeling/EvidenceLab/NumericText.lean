/-
# Amounts in texts

`parse_numeric` of the normalizer: the pattern `_NUM_RE` as a scanner, the guard that every digit is
read and the mantissa, exponent and sign that come out.  Everything after the number itself is
optional in the pattern, so that the first reading of the number stands and the scanner never has to
come back to it.
-/
import EvidenceLab.DecimalParse
import EvidenceLab.DecimalRounding
import EvidenceLab.Verification

namespace Extraction

namespace Numeric

open PyText

/-! ## The pattern -/

/-- A magnitude word after an amount: the blanks before it, the word and the `s` of its plural. -/
structure Suffix where
  blanks : List Char
  word : List Char
  plural : List Char
  deriving DecidableEq

/-- One match of `_NUM_RE`: its groups and the texts between them, with the text before and after
it. -/
structure Match where
  before : List Char
  opened : Bool
  blanks : List Char
  sign : Option Char
  gap : List Char
  body : List Char
  closeBare : Option (List Char)
  suffix : Option Suffix
  closeSuffixed : Option (List Char)
  after : List Char
  deriving DecidableEq

/-- `(?P<open>\()?`. -/
def scanOpen : List Char → Bool × List Char
  | '(' :: cs => (true, cs)
  | cs => (false, cs)

/-- `(?P<sign>[-+])?`. -/
def scanSign : List Char → Option Char × List Char
  | '-' :: cs => (some '-', cs)
  | '+' :: cs => (some '+', cs)
  | cs => (none, cs)

/-- `(?:,\d{3})*`. -/
def scanGroups : List Char → List Char × List Char
  | ',' :: a :: b :: c :: cs =>
      if isDecimal a ∧ isDecimal b ∧ isDecimal c then
        (',' :: a :: b :: c :: (scanGroups cs).1, (scanGroups cs).2)
      else ([], ',' :: a :: b :: c :: cs)
  | cs => ([], cs)

/-- `(?:\.\d+)?`. -/
def scanFraction : List Char → List Char × List Char
  | '.' :: cs =>
      if cs.takeWhile isDecimal = [] then ([], '.' :: cs)
      else ('.' :: cs.takeWhile isDecimal, cs.dropWhile isDecimal)
  | cs => ([], cs)

/-- `\d{1,3}(?:,\d{3})+|\d+`: groups may follow at most three digits. -/
def scanWhole (cs : List Char) : List Char × List Char :=
  let digits := cs.takeWhile isDecimal
  let rest := cs.dropWhile isDecimal
  if digits ≠ [] ∧ digits.length ≤ 3 then (digits ++ (scanGroups rest).1, (scanGroups rest).2)
    else (digits, rest)

/-- `(?P<body>…)`, empty where the pattern has no match. -/
def scanBody (cs : List Char) : List Char × List Char :=
  let whole := scanWhole cs
  let fraction := scanFraction whole.2
  (whole.1 ++ fraction.1, fraction.2)

/-- `(\s*\))?`. -/
def scanClose (cs : List Char) : Option (List Char) × List Char :=
  match cs.dropWhile isSpace with
  | ')' :: rest => (some (cs.takeWhile isSpace), rest)
  | _ => (none, cs)

/-- A letter of a pattern that ignores case. -/
def matchesLetter (p c : Char) : Bool :=
  c == p || c == p.toUpper || (p == 'k' && c == '\u212A') || (p == 's' && c == '\u017F')
    || (p == 'i' && (c == '\u0130' || c == '\u0131'))

/-- A word of the pattern at the head of a text. -/
def scanWord : List Char → List Char → Option (List Char × List Char)
  | [], cs => some ([], cs)
  | _ :: _, [] => none
  | p :: ps, c :: cs => if matchesLetter p c then (scanWord ps cs).map fun r => (c :: r.1, r.2)
      else none

/-- The case mapping that a backreference compares with, on the characters of a suffix. -/
def simpleLower (c : Char) : Char :=
  if c = '\u212A' then 'k' else if c = '\u0130' then 'i' else c.toLower

section Pattern

variable (isWord : Char → Bool)

/-- `\b(?!/(?P=suffix))` after a suffix. -/
def endsWord (word rest : List Char) : Bool :=
  match rest with
  | [] => true
  | c :: cs => !isWord c
      && !(c == '/' && (cs.take word.length).map simpleLower == word.map simpleLower)

/-- One alternative of the suffix, with the optional `s`. -/
def scanAlternative (pattern cs : List Char) : Option (List Char × List Char × List Char) :=
  match scanWord pattern cs with
  | none => none
  | some (word, []) => some (word, [], [])
  | some (word, c :: rest) =>
      if matchesLetter 's' c && endsWord isWord word rest then some (word, [c], rest)
      else if endsWord isWord word (c :: rest) then some (word, [], c :: rest)
      else none

/-- `_SUFFIX_ALTERNATION`. -/
def suffixAlternation : List String :=
  ["trillion", "billion", "million", "thousand", "mm", "mn", "bn", "tn", "k", "m", "b"]

/-- The optional suffix group. -/
def scanSuffix (cs : List Char) : Option Suffix × List Char :=
  match suffixAlternation.findSome? fun pattern =>
    scanAlternative isWord pattern.toList (cs.dropWhile isSpace) with
  | some (word, plural, rest) => (some ⟨cs.takeWhile isSpace, word, plural⟩, rest)
  | none => (none, cs)

/-- `_NUM_RE.match` at one position. -/
def matchAt (before cs : List Char) : Option Match :=
  let opening := scanOpen cs
  let signed := scanSign (opening.2.dropWhile isSpace)
  let number := scanBody (signed.2.dropWhile isSpace)
  let bare := scanClose number.2
  let suffixed := scanSuffix isWord bare.2
  let closing := scanClose suffixed.2
  if number.1 = [] then none
  else some
    { before := before, opened := opening.1, blanks := opening.2.takeWhile isSpace, sign :=
      signed.1,
      gap := signed.2.takeWhile isSpace, body := number.1, closeBare := bare.1, suffix :=
      suffixed.1,
      closeSuffixed := closing.1, after := closing.2 }

/-- `_NUM_RE.search`: the first position with a match. -/
def search (before : List Char) : List Char → Option Match
  | [] => none
  | c :: cs =>
      match matchAt isWord before (c :: cs) with
      | some m => some m
      | none => search (before ++ [c]) cs

end Pattern

/-! ## Reading the match -/

/-- The characters with `str.isdigit` beyond the decimal digits, as ranges. -/
def otherDigits : List (ℕ × ℕ) :=
  [(0xb2, 0xb3), (0xb9, 0xb9), (0x1369, 0x1371), (0x19da, 0x19da), (0x2070, 0x2070),
    (0x2074, 0x2079),
    (0x2080, 0x2089), (0x2460, 0x2468), (0x2474, 0x247c), (0x2488, 0x2490), (0x24ea, 0x24ea),
    (0x24f5, 0x24fd),
    (0x24ff, 0x24ff), (0x2776, 0x277e), (0x2780, 0x2788), (0x278a, 0x2792), (0x10a40, 0x10a43),
    (0x10e60, 0x10e68), (0x11052, 0x1105a), (0x1f100, 0x1f10a)]

/-- `str.isdigit` of one character. -/
def isDigit (c : Char) : Bool :=
  isDecimal c || otherDigits.any fun r => r.1 ≤ c.toNat && c.toNat ≤ r.2

/-- What `parse_numeric` raises.  A suffix outside of the table is a `KeyError`, a signal of the
arithmetic an `ArithmeticError`; the others are each a `ValueError` about the text. -/
inductive Failure where
  | required
  | noToken (raw : List Char)
  | remainder (raw read : List Char)
  | malformedGroup (raw body : List Char)
  | invalidDecimal (body : List Char)
  | unknownSuffix (suffix : List Char)
  | signal (s : Decimal.Signal)
  deriving DecidableEq

/-- `_SCALE_SUFFIX`. -/
def scaleSuffix : List (String × ℕ) :=
  [("k", 3), ("thousand", 3), ("m", 6), ("mm", 6), ("mn", 6), ("million", 6), ("b", 9),
    ("bn", 9), ("billion", 9),
    ("tn", 12), ("trillion", 12)]

inductive SignWord where
  | positive
  | negative
  | zero
  deriving DecidableEq

/-- The sign of a number, as a word. -/
def signWord (d : Decimal) : SignWord :=
  if d.coeff = 0 then .zero else if d.neg then .negative else .positive

namespace Match

variable (m : Match)

/-- The text of the match before its number. -/
def lead : List Char := (if m.opened then ['('] else []) ++ m.blanks ++ m.sign.toList ++ m.gap

/-- A closing parenthesis with the blanks before it. -/
def closing : Option (List Char) → List Char
  | none => []
  | some blanks => blanks ++ [')']

/-- The text of a suffix group. -/
def suffixChars : Option Suffix → List Char
  | none => []
  | some s => s.blanks ++ s.word ++ s.plural

def suffixText : List Char := suffixChars m.suffix

/-- The text of the match after its number. -/
def trail : List Char := closing m.closeBare ++ m.suffixText ++ closing m.closeSuffixed

/-- The whole text that was searched. -/
def text : List Char := m.before ++ m.lead ++ m.body ++ m.trail ++ m.after

/-- The text of the match. -/
def read : List Char := m.lead ++ m.body ++ m.trail

/-- Accounting parentheses around the match. -/
def parenthesized : Bool := m.opened && (m.closeBare.isSome || m.closeSuffixed.isSome)

/-- The matches whose amount is read as a negative one. -/
def negated : Bool := m.sign == some '-' || m.parenthesized

/-- A grouping mark directly at the number. -/
def grouped : Bool :=
  let mark := fun c : Char => c == ',' || c == '.'
  ((m.before ++ m.lead).getLast?.any mark) || ((m.trail ++ m.after).head?.any mark)

/-- The exponent of the suffix. -/
def scale : Except Failure ℕ :=
  match m.suffix with
  | none => .ok 0
  | some s =>
      match scaleSuffix.find? fun entry => entry.1.toList == lower (String.ofList s.word) with
      | some entry => .ok entry.2
      | none => .error (.unknownSuffix s.word)

end Match

/-- `_require_full_consumption`. -/
def requireFullConsumption (raw : List Char) (m : Match) : Except Failure Unit :=
  if (m.before ++ m.after).any isDigit then .error (.remainder raw m.read)
  else if m.grouped then .error (.malformedGroup raw m.body)
  else .ok ()

/-- The text without dollar and percent signs and without blanks around it. -/
def cleaned (raw : List Char) : List Char := strip (raw.filter fun c => c != '$' && c != '%')

/-- A signal of the arithmetic, raised. -/
def raised (result : Except Decimal.Signal Decimal) : Except Failure Decimal :=
  match result with
  | .ok d => .ok d
  | .error s => .error (.signal s)

/-- The exact mantissa of a number. -/
def mantissa (body : List Char) : Except Failure Decimal :=
  match Decimal.ofText (body.filter (· != ',')) with
  | some (.finite d) => .ok d
  | _ => .error (.invalidDecimal body)

/-- The mantissa under the sign of its match; a sign makes it an operand of the ambient arithmetic.
-/
def signed (m : Match) (value : Decimal) : Except Failure Decimal :=
  let ctx := Retrieval.defaultContext
  if m.negated then do
    let magnitude ← raised (ctx.abs value)
    raised (ctx.plus magnitude.copyNegate)
  else if m.sign = some '+' then raised (ctx.abs value)
  else .ok value

/-- `parse_numeric`: mantissa, exponent and sign. -/
def parseNumeric (isWord : Char → Bool) (raw : List Char) :
    Except Failure (Decimal × ℕ × SignWord) :=
  if raw = [] then .error .required
  else
    match search isWord [] (cleaned raw) with
    | none => .error (.noToken raw)
    | some m => do
        requireFullConsumption raw m
        let exact ← mantissa m.body
        let scale ← m.scale
        let value ← signed m exact
        return (value, scale, signWord value)

/-! ## The scanner -/

/-- A run of blanks. -/
def Blank (cs : List Char) : Prop := ∀ c ∈ cs, isSpace c = true

/-- What is skipped is blank. -/
theorem blank_takeWhile (cs : List Char) : Blank (cs.takeWhile isSpace) :=
  fun _ h => List.mem_takeWhile_imp h

/-- A character at which a number may start. -/
def StartsNumber (c : Char) : Prop := isDecimal c = true ∨ c = '.'

/-- A number does not begin with a blank. -/
theorem StartsNumber.not_isSpace {c : Char} (h : StartsNumber c) : isSpace c = false := by
  rcases h with h | rfl
  · exact not_isSpace_of_isDecimal h
  · decide

/-- A number begins with neither a parenthesis nor a sign. -/
theorem StartsNumber.ne {c : Char} (h : StartsNumber c) : c ≠ '(' ∧ c ≠ '-' ∧ c ≠ '+' := by
  rcases h with h | rfl
  · refine ⟨?_, ?_, ?_⟩
    all_goals
      rintro rfl
      revert h
      decide
  · decide

theorem scanOpen_append (cs : List Char) :
    (if (scanOpen cs).1 then ['('] else []) ++ (scanOpen cs).2 = cs := by
  unfold scanOpen
  split <;> simp

theorem scanSign_append (cs : List Char) : (scanSign cs).1.toList ++ (scanSign cs).2 = cs := by
  unfold scanSign
  split <;> simp

/-- The sign is a minus, a plus or nothing. -/
theorem scanSign_cases (cs : List Char) :
    (scanSign cs).1 = none ∨ (scanSign cs).1 = some '-' ∨ (scanSign cs).1 = some '+' := by
  unfold scanSign
  split <;> simp

theorem scanGroups_append (cs : List Char) : (scanGroups cs).1 ++ (scanGroups cs).2 = cs := by
  fun_induction scanGroups cs with
  | case1 a b c cs h ih => simp [ih]
  | case2 a b c cs h => rfl
  | case3 cs h => rfl

/-- The fraction is cut off the front of the text. -/
theorem scanFraction_append (cs : List Char) : (scanFraction cs).1 ++ (scanFraction cs).2 = cs := by
  unfold scanFraction
  split
  · split_ifs
    · rfl
    · simp
  · rfl

theorem scanWhole_append (cs : List Char) : (scanWhole cs).1 ++ (scanWhole cs).2 = cs := by
  unfold scanWhole
  simp only
  split_ifs
  · rw [List.append_assoc, scanGroups_append, List.takeWhile_append_dropWhile]
  · rw [List.takeWhile_append_dropWhile]

/-- The digits are cut off the front of the text. -/
theorem scanBody_append (cs : List Char) : (scanBody cs).1 ++ (scanBody cs).2 = cs := by
  unfold scanBody
  simp only [List.append_assoc]
  rw [scanFraction_append, scanWhole_append]

/-- A closing parenthesis is taken where one follows after blanks. -/
theorem scanClose_cases (cs : List Char) :
    (∃ blanks rest, scanClose cs = (some blanks, rest) ∧ Blank blanks ∧ cs = blanks ++ ')' :: rest)
      ∨ (scanClose cs = (none, cs) ∧ ∀ blanks rest, Blank blanks → cs ≠ blanks ++ ')' :: rest) := by
  unfold scanClose
  split
  next rest h =>
      refine Or.inl ⟨_, rest, rfl, blank_takeWhile cs, ?_⟩
      rw [← h, List.takeWhile_append_dropWhile]
  next h =>
      refine Or.inr ⟨rfl, ?_⟩
      rintro blanks rest hblank rfl
      refine h rest ?_
      rw [List.dropWhile_append_of_pos hblank]
      rfl

theorem scanClose_append (cs : List Char) :
    Match.closing (scanClose cs).1 ++ (scanClose cs).2 = cs := by
  rcases scanClose_cases cs with ⟨blanks, rest, h, -, rfl⟩ | ⟨h, -⟩
  · rw [h]
    simp [Match.closing]
  · rw [h]
    rfl

/-- A word is cut off the front of the text. -/
theorem scanWord_append : ∀ {ps cs word rest : List Char}, scanWord ps cs = some (word, rest) →
    word ++ rest = cs
  | [], cs, word, rest, h => by
      rw [scanWord] at h
      cases h
      rfl
  | _ :: _, [], _, _, h => by
      rw [scanWord] at h
      cases h
  | p :: ps, c :: cs, word, rest, h => by
      rw [scanWord] at h
      split_ifs at h
      obtain ⟨⟨w, r⟩, hw, hr⟩ := Option.map_eq_some_iff.mp h
      cases hr
      rw [List.cons_append, scanWord_append hw]

section Pattern

variable (isWord : Char → Bool)

/-- A word and its plural are cut off the front of the text. -/
theorem scanAlternative_append {ps cs word plural rest : List Char}
    (h : scanAlternative isWord ps cs = some (word, plural, rest)) :
    word ++ plural ++ rest = cs := by
  unfold scanAlternative at h
  split at h
  next => cases h
  next w hw =>
      cases h
      rw [← scanWord_append hw]
      simp
  next w c r hw =>
      split_ifs at h
      · cases h
        rw [← scanWord_append hw]
        simp
      · cases h
        rw [← scanWord_append hw]
        simp

/-- The suffix is cut off the front of the text. -/
theorem scanSuffix_append (cs : List Char) :
    Match.suffixChars (scanSuffix isWord cs).1 ++ (scanSuffix isWord cs).2 = cs := by
  unfold scanSuffix
  split
  next word plural rest h =>
      obtain ⟨pattern, -, hp⟩ := List.exists_of_findSome?_eq_some h
      have happ := scanAlternative_append isWord hp
      simp only [Match.suffixChars, List.append_assoc] at happ ⊢
      rw [happ, List.takeWhile_append_dropWhile]
  next => rfl

/-- What the scanner knows of the match it returns. -/
structure Scanned (m : Match) : Prop where
  blanks : Blank m.blanks
  sign : m.sign = none ∨ m.sign = some '-' ∨ m.sign = some '+'
  gap : Blank m.gap
  body : scanBody (m.body ++ (m.trail ++ m.after)) = (m.body, m.trail ++ m.after)
  body_ne : m.body ≠ []
  closeBare : scanClose (m.trail ++ m.after)
    = (m.closeBare, m.suffixText ++ (Match.closing m.closeSuffixed ++ m.after))
  suffix : scanSuffix isWord (m.suffixText ++ (Match.closing m.closeSuffixed ++ m.after))
    = (m.suffix, Match.closing m.closeSuffixed ++ m.after)
  closeSuffixed : scanClose (Match.closing m.closeSuffixed ++ m.after) = (m.closeSuffixed, m.after)

/-- **A match** covers the text where it stands, and each of its parts is scanned. -/
theorem matchAt_spec {before cs : List Char} {m : Match} (h : matchAt isWord before cs = some m) :
    m.before = before ∧ m.lead ++ m.body ++ m.trail ++ m.after = cs ∧ Scanned isWord m := by
  unfold matchAt at h
  simp only at h
  split_ifs at h with hbody
  cases h
  set opening := scanOpen cs with hopening
  set signed := scanSign (opening.2.dropWhile isSpace) with hsigned
  set number := scanBody (signed.2.dropWhile isSpace) with hnumber
  set bare := scanClose number.2 with hbare
  set suffixed := scanSuffix isWord bare.2 with hsuffixed
  set closing := scanClose suffixed.2 with hclosing
  have e₁ : Match.closing closing.1 ++ closing.2 = suffixed.2 := scanClose_append _
  have e₂ : Match.suffixChars suffixed.1 ++ suffixed.2 = bare.2 := scanSuffix_append isWord _
  have e₃ : Match.closing bare.1 ++ bare.2 = number.2 := scanClose_append _
  have e₄ : number.1 ++ number.2 = signed.2.dropWhile isSpace := scanBody_append _
  have e₅ : signed.1.toList ++ signed.2 = opening.2.dropWhile isSpace := scanSign_append _
  have e₆ : (if opening.1 then ['('] else []) ++ opening.2 = cs := scanOpen_append cs
  have htrail :
      (Match.closing bare.1 ++ Match.suffixChars suffixed.1 ++ Match.closing closing.1) ++ closing.2
      = number.2 := by
    rw [List.append_assoc, e₁, List.append_assoc, e₂, e₃]
  refine ⟨rfl, ?_, blank_takeWhile _, scanSign_cases _, blank_takeWhile _, ?_, hbody, ?_, ?_, ?_⟩
  · simp only [Match.lead, Match.trail, Match.suffixText, List.append_assoc] at htrail ⊢
    rw [htrail, e₄, List.takeWhile_append_dropWhile, e₅, List.takeWhile_append_dropWhile, e₆]
  · simp only [Match.trail, Match.suffixText]
    rw [htrail, e₄]
  · simp only [Match.trail, Match.suffixText]
    rw [htrail, e₁, e₂]
  · simp only [Match.suffixText]
    rw [e₁, e₂]
  · simp only
    rw [e₁]

end Pattern

/-! ### Numbers -/

/-- Digits that are found begin with a digit or a point. -/
theorem scanBody_head {cs : List Char} (h : (scanBody cs).1 ≠ []) :
    ∃ c rest, cs = c :: rest ∧ StartsNumber c := by
  cases cs with
  | nil => exact absurd rfl h
  | cons c rest =>
      refine ⟨c, rest, rfl, ?_⟩
      by_contra hc
      obtain ⟨hdec, hpoint⟩ := not_or.mp hc
      apply h
      -- no digit at the head: the number would be a fraction
      have hwhole : scanWhole (c :: rest) = ([], c :: rest) := by
        simp [scanWhole, List.takeWhile_cons_of_neg hdec, List.dropWhile_cons_of_neg hdec]
      have hfraction : scanFraction (c :: rest) = ([], c :: rest) := by
        unfold scanFraction
        split
        next cs heq =>
            cases heq
            exact absurd rfl hpoint
        next => rfl
      simp [scanBody, hwhole, hfraction]

/-- Without a parenthesis at its head a text opens none. -/
theorem scanOpen_of_head {cs : List Char} (h : ∀ c ∈ cs.head?, c ≠ '(') :
    scanOpen cs = (false, cs) := by
  unfold scanOpen
  split
  next rest => exact absurd rfl (h '(' rfl)
  next => rfl

/-- Without a sign at its head a text has none. -/
theorem scanSign_of_head {cs : List Char} (h : ∀ c ∈ cs.head?, c ≠ '-' ∧ c ≠ '+') :
    scanSign cs = (none, cs) := by
  unfold scanSign
  split
  next rest => exact absurd rfl (h '-' rfl).1
  next rest => exact absurd rfl (h '+' rfl).2
  next => rfl

theorem dropWhile_of_blank {g cs : List Char} (hg : Blank g)
    (hcs : ∀ c ∈ cs.head?, isSpace c = false) :
    (g ++ cs).dropWhile isSpace = cs := by
  rw [List.dropWhile_append_of_pos hg]
  cases cs with
  | nil => rfl
  | cons c rest => rw [List.dropWhile_cons_of_neg (by simpa using hcs c rfl)]

/-- The texts that the pattern has before a number. -/
structure IsLead (opened : Bool) (sign : Option Char) (lead : List Char) : Prop where
  exists_blanks : ∃ blanks gap, Blank blanks ∧ Blank gap
    ∧ lead = (if opened then ['('] else []) ++ blanks ++ sign.toList ++ gap
  sign : sign = none ∨ sign = some '-' ∨ sign = some '+'

/-- A number behind such a text is found. -/
theorem matchAt_isSome (isWord : Char → Bool) {before lead n : List Char} {opened : Bool}
    {sign : Option Char}
    (hlead : IsLead opened sign lead) (hn : (scanBody n).1 ≠ []) :
    (matchAt isWord before (lead ++ n)).isSome := by
  obtain ⟨⟨blanks, gap, hblanks, hgap, rfl⟩, hsign⟩ := hlead
  obtain ⟨d, rest, rfl, hd⟩ := scanBody_head hn
  set n := d :: rest with hdef
  have hspace : ∀ c ∈ n.head?, isSpace c = false := by
    rintro c ⟨⟩
    exact hd.not_isSpace
  -- what follows the parenthesis is no second one
  have hhead : ∀ c ∈ (blanks ++ (sign.toList ++ (gap ++ n))).head?, c ≠ '(' := by
    rintro c hc rfl
    have hparen : ∀ {g : List Char}, Blank g → g.head? ≠ some '(' := fun hg h =>
      absurd (hg '(' (List.mem_of_head? h)) (by decide)
    simp only [List.head?_append, Option.mem_def, Option.or_eq_some_iff] at hc
    rcases hc with hc | ⟨-, hc | ⟨-, hc | ⟨-, hc⟩⟩⟩
    · exact hparen hblanks hc
    · rcases hsign with rfl | rfl | rfl <;> revert hc <;> decide
    · exact hparen hgap hc
    · cases hc
      exact hd.ne.1 rfl
  have hopen : (scanOpen ((if opened then ['('] else []) ++ blanks ++ sign.toList ++ gap ++ n)).2
      = blanks ++ (sign.toList ++ (gap ++ n)) := by
    cases opened with
    | true => simp [scanOpen]
    | false =>
        simp only [Bool.false_eq_true, if_false, List.nil_append, List.append_assoc]
        rw [scanOpen_of_head hhead]
  have hsigned : (scanSign ((blanks ++ (sign.toList ++ (gap ++ n))).dropWhile isSpace)).2.dropWhile
      isSpace = n := by
    -- the sign, and the blanks before and behind it
    rcases hsign with rfl | rfl | rfl
    · have : blanks ++ ((none : Option Char).toList ++ (gap ++ n)) = (blanks ++ gap) ++ n := by simp
      rw [this, dropWhile_of_blank _ hspace, scanSign_of_head]
      · exact dropWhile_of_blank (g := []) (fun c hc => absurd hc List.not_mem_nil) hspace
      · rintro c ⟨⟩
        exact ⟨hd.ne.2.1, hd.ne.2.2⟩
      · intro c hc
        rcases List.mem_append.mp hc with hc | hc
        · exact hblanks c hc
        · exact hgap c hc
    · rw [dropWhile_of_blank hblanks]
      · exact dropWhile_of_blank hgap hspace
      · rintro c ⟨⟩
        decide
    · rw [dropWhile_of_blank hblanks]
      · exact dropWhile_of_blank hgap hspace
      · rintro c ⟨⟩
        decide
  unfold matchAt
  simp only [hopen, hsigned]
  rw [if_neg hn]
  rfl

/-- **The first match**: no number is found at a position before it. -/
theorem search_spec (isWord : Char → Bool) {m : Match} :
    ∀ {before cs : List Char}, search isWord before cs = some m →
    m.text = before ++ cs ∧ Scanned isWord m
      ∧ ∀ p q, m.before = before ++ p ++ q → q ≠ [] →
        matchAt isWord (before ++ p) (q ++ (m.lead ++ m.body ++ m.trail ++ m.after)) = none
  | before, [], h => by
      rw [search] at h
      cases h
  | before, c :: cs, h => by
      rw [search] at h
      split at h
      next m' hm =>
          cases h
          obtain ⟨hbefore, htext, hscan⟩ := matchAt_spec isWord hm
          refine ⟨?_, hscan, ?_⟩
          · rw [← htext, ← hbefore]
            simp [Match.text]
          · intro p q hpq hq
            rw [hbefore, List.append_assoc] at hpq
            exact absurd (List.append_eq_nil_iff.mp (List.self_eq_append_right.mp hpq)).2 hq
      next hnone =>
          obtain ⟨htext, hscan, hfirst⟩ := search_spec isWord h
          refine ⟨by rw [htext]; simp, hscan, ?_⟩
          intro p q hpq hq
          have hcs : p ++ (q ++ (m.lead ++ m.body ++ m.trail ++ m.after)) = c :: cs := by
            rw [Match.text, hpq] at htext
            exact List.append_cancel_left (show before ++ _ = before ++ _ by simpa using htext)
          cases p with
          | nil =>
              -- the search stood at this position
              rw [List.nil_append] at hcs
              rw [List.append_nil, hcs]
              exact hnone
          | cons d p =>
              obtain rfl : d = c := by
                rw [List.cons_append] at hcs
                exact (List.cons.inj hcs).1
              have := hfirst p q (by simpa using hpq) hq
              simpa using this

/-! ### The number of a match -/

/-- The number that a body denotes: digits of any script, without the separators. -/
def amount (body : List Char) : ℚ :=
  Decimal.readBody ((body.filter (· != ',')).map Decimal.asciiDigit)

theorem isDecimal_point : isDecimal '.' = false := by decide

theorem isDecimal_ne_comma {c : Char} (h : isDecimal c = true) : (c != ',') = true := by
  rw [bne_iff_ne]
  rintro rfl
  revert h
  decide

/-- Digits have no commas to drop. -/
theorem filter_comma_of_digits {cs : List Char} (h : ∀ c ∈ cs, isDecimal c = true) :
    cs.filter (· != ',') = cs :=
  List.filter_eq_self.mpr fun c hc => isDecimal_ne_comma (h c hc)

/-- Groups without their commas are digits. -/
theorem scanGroups_digits (cs : List Char) :
    ∀ c ∈ (scanGroups cs).1.filter (· != ','), isDecimal c = true := by
  fun_induction scanGroups cs with
  | case1 a b c cs h ih =>
      obtain ⟨ha, hb, hc⟩ := h
      intro d hd
      simp only [List.filter_cons, isDecimal_ne_comma ha, isDecimal_ne_comma hb,
        isDecimal_ne_comma hc, bne_self_eq_false,
        Bool.false_eq_true, if_false, if_true] at hd
      rcases List.mem_cons.mp hd with rfl | hd
      · exact ha
      rcases List.mem_cons.mp hd with rfl | hd
      · exact hb
      rcases List.mem_cons.mp hd with rfl | hd
      · exact hc
      exact ih d hd
  | case2 a b c cs h => exact fun d hd => absurd hd List.not_mem_nil
  | case3 cs h => exact fun d hd => absurd hd List.not_mem_nil

/-- The whole part without its commas is digits. -/
theorem scanWhole_digits (cs : List Char) :
    ∀ c ∈ (scanWhole cs).1.filter (· != ','), isDecimal c = true := by
  have hdigits : ∀ c ∈ cs.takeWhile isDecimal, isDecimal c = true :=
    fun c hc => List.mem_takeWhile_imp hc
  unfold scanWhole
  simp only
  split_ifs
  · rw [List.filter_append]
    intro c hc
    rcases List.mem_append.mp hc with hc | hc
    · exact hdigits c (List.mem_of_mem_filter hc)
    · exact scanGroups_digits _ c hc
  · exact fun c hc => hdigits c (List.mem_of_mem_filter hc)

/-- A fraction is empty, or a point and digits. -/
theorem scanFraction_cases (cs : List Char) : (scanFraction cs).1 = []
    ∨ ∃ ds, (scanFraction cs).1 = '.' :: ds ∧ ds ≠ [] ∧ ∀ c ∈ ds, isDecimal c = true := by
  unfold scanFraction
  split
  next rest =>
      split_ifs with hnil
      · exact Or.inl rfl
      · exact Or.inr ⟨_, rfl, hnil, fun c hc => List.mem_takeWhile_imp hc⟩
  next => exact Or.inl rfl

/-- A scanned number without its separators: digits, with places after a point. -/
theorem scanBody_pointed {cs : List Char} (h : (scanBody cs).1 ≠ []) : ∃ whole places,
    (scanBody cs).1.filter (· != ',') = Decimal.pointed whole places ∧ whole ++ places ≠ []
      ∧ (∀ c ∈ whole, isDecimal c = true) ∧ ∀ c ∈ places, isDecimal c = true := by
  have hwhole := scanWhole_digits cs
  rcases scanFraction_cases (scanWhole cs).2 with hnil | ⟨ds, hds, hne, hdigits⟩
  · have hbody : (scanBody cs).1 = (scanWhole cs).1 := by simp [scanBody, hnil]
    refine ⟨(scanWhole cs).1.filter (· != ','), [], by rw [hbody]; rfl, ?_, hwhole,
      fun c hc => absurd hc List.not_mem_nil⟩
    rw [List.append_nil]
    intro hempty
    obtain ⟨c, rest, rfl, hc⟩ := scanBody_head h
    rcases hc with hc | rfl
    · -- the first digit stays
      have hmem : c ∈ (scanWhole (c :: rest)).1 := by
        unfold scanWhole
        simp only [List.takeWhile_cons_of_pos hc]
        split_ifs <;> simp
      have hstays := (List.mem_filter (p := fun x => x != ',')).mpr ⟨hmem, isDecimal_ne_comma hc⟩
      rw [hempty] at hstays
      exact absurd hstays List.not_mem_nil
    · rw [hbody] at h
      exact h (by simp [scanWhole, isDecimal_point])
  · have hbody : (scanBody cs).1 = (scanWhole cs).1 ++ '.' :: ds := by simp [scanBody, hds]
    refine ⟨(scanWhole cs).1.filter (· != ','), ds, ?_, ?_, hwhole, hdigits⟩
    · rw [hbody, List.filter_append, List.filter_cons_of_pos (by decide),
        filter_comma_of_digits hdigits, Decimal.pointed,
        if_neg hne]
    · exact fun h0 => hne (List.append_eq_nil_iff.mp h0).2

/-- **The mantissa is the number as written.** -/
theorem mantissa_eq_ok {cs : List Char} (h : (scanBody cs).1 ≠ []) {d : Decimal}
    (hd : mantissa (scanBody cs).1 = .ok d) :
    d.neg = false ∧ d.exp ≤ 0 ∧ d.value = amount (scanBody cs).1 := by
  obtain ⟨whole, places, hbody, hne, hwhole, hplaces⟩ := scanBody_pointed h
  have hdigits : ∀ {l : List Char}, (∀ c ∈ l, isDecimal c = true) → ∀ c ∈ l.map Decimal.asciiDigit,
      c.isDigit = true := by
    intro l hl c hc
    obtain ⟨d, hd, rfl⟩ := List.mem_map.mp hc
    exact Decimal.asciiDigit_isDigit (hl d hd)
  have hamount : amount (scanBody cs).1
      = Nat.ofDigitChars 10 ((whole ++ places).map Decimal.asciiDigit) 0
        * (10 : ℚ) ^ (-(places.length : ℤ)) := by
    rw [amount, hbody, Decimal.map_pointed (by decide),
      Decimal.readBody_pointed (hdigits hwhole) (hdigits hplaces),
      List.map_append, List.length_map]
  unfold mantissa at hd
  rw [hbody, Decimal.ofText_pointed hwhole hplaces hne] at hd
  split_ifs at hd with hrange
  cases hd
  refine ⟨rfl, by simp, ?_⟩
  rw [hamount]
  simp [Decimal.value]

/-! ## What comes out -/

theorem raised_eq_ok {x : Except Decimal.Signal Decimal} {d : Decimal} :
    raised x = .ok d ↔ x = .ok d := by
  cases x <;> simp [raised]

/-- The value under a sign: rounded to the ambient precision as soon as a sign is written. -/
def signedValue (m : Match) (v : ℚ) : Option ℚ :=
  if m.negated then (Retrieval.defaultContext.roundValue v).map (- ·)
  else if m.sign = some '+' then Retrieval.defaultContext.roundValue v
  else some v

theorem defaultContext_range :
    Retrieval.defaultContext.etiny ≤ Retrieval.defaultContext.emax := by decide

/-- The sign of a match changes the value as `signedValue` says. -/
theorem signed_value {m : Match} {exact : Decimal} (hexact : exact.neg = false) :
    (signed m exact).toOption.map Decimal.value = signedValue m exact.value := by
  have hnonneg : 0 ≤ exact.value := by
    simp only [Decimal.value, hexact, Bool.false_eq_true, if_false]
    positivity
  have habs := Retrieval.defaultContext.abs_value exact
  rw [abs_of_nonneg hnonneg] at habs
  unfold signed signedValue
  simp only
  split_ifs with hneg hplus
  · rw [← habs]
    cases hr : Retrieval.defaultContext.abs exact with
    | error s => rfl
    | ok r =>
        -- the magnitude fits already, so that its negation is exact
        have hminus := (Decimal.Context.result_of_finalize defaultContext_range hr).copyNegate
        have hplus := Retrieval.defaultContext.plus_value r.copyNegate
        rw [hminus.roundValue, Decimal.value_copyNegate] at hplus
        simp only [raised, Except.ok_bind]
        cases hs : Retrieval.defaultContext.plus r.copyNegate with
        | error s =>
            rw [hs] at hplus
            simp [Except.toOption] at hplus
        | ok v =>
            rw [hs] at hplus
            simpa [Except.toOption] using hplus
  · rw [← habs]
    cases Retrieval.defaultContext.abs exact with
    | error s => rfl
    | ok r => rfl
  · rfl

/-- Under a sign the value is a result of the arithmetic. -/
theorem signed_result {m : Match} {exact value : Decimal}
    (hsign : m.negated = true ∨ m.sign = some '+')
    (h : signed m exact = .ok value) : Retrieval.defaultContext.Result value := by
  unfold signed at h
  simp only at h
  split_ifs at h with hneg hplus
  · obtain ⟨r, -, hr⟩ := Except.bind_eq_ok_iff.mp h
    exact Decimal.Context.result_of_finalize defaultContext_range (raised_eq_ok.mp hr)
  · exact Decimal.Context.result_of_finalize defaultContext_range (raised_eq_ok.mp h)
  · exact absurd hsign (not_or.mpr ⟨hneg, hplus⟩)

/-- **An accepted text**: the number it holds, read in full. -/
theorem parseNumeric_eq_ok {isWord : Char → Bool} {raw : List Char} {value : Decimal} {scale : ℕ}
    {sign : SignWord} :
    parseNumeric isWord raw = .ok (value, scale, sign) ↔ raw ≠ [] ∧ ∃ m exact,
    search isWord [] (cleaned raw) = some m
      ∧ requireFullConsumption raw m = .ok () ∧ mantissa m.body = .ok exact ∧ m.scale = .ok scale
      ∧ signed m exact = .ok value ∧ sign = signWord value := by
  unfold parseNumeric
  by_cases hraw : raw = []
  · simp [hraw]
  rw [if_neg hraw]
  cases hm : search isWord [] (cleaned raw) with
  | none => simp
  | some m =>
      simp only [Except.bind_eq_ok_iff, Except.pure_eq_ok, Except.ok.injEq, Prod.mk.injEq]
      constructor
      · rintro ⟨⟨⟩, hfull, exact, hexact, s, hs, v, hv, rfl, rfl, rfl⟩
        exact ⟨hraw, m, exact, rfl, hfull, hexact, hs, hv, rfl⟩
      · rintro ⟨-, m', exact, ⟨⟩, hfull, hexact, hs, hv, rfl⟩
        exact ⟨(), hfull, exact, hexact, scale, hs, value, hv, rfl, rfl, rfl⟩

end Numeric

end Extraction
