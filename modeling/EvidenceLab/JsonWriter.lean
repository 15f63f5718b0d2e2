/-
# Writing JSON

The texts that `json.dumps` writes with `ensure_ascii=False`, and the tokens they give: string
literals (`lexes_quote`), numbers (`lexesValue_number`), and whole values between any separators
(`lexesValue_write`). `decode_write`: a written value is read back, up to what the decoder makes of
its decimals.
-/
import EvidenceLab.JsonReader

namespace JsonReader

/-! ## String literals -/

/-- One character of a string literal; characters beyond ASCII stand for themselves. -/
def escapePlain (c : Char) : List Char :=
  if c = '"' then ['\\', '"']
  else if c = '\\' then ['\\', '\\']
  else if c = '\n' then ['\\', 'n']
  else if c = '\r' then ['\\', 'r']
  else if c = '\t' then ['\\', 't']
  else if c = '\x0c' then ['\\', 'f']
  else if c = '\x08' then ['\\', 'b']
  else if c.toNat < 0x20 then Json.unicodeEscape c.toNat
  else [c]

/-- `json.dumps(text, ensure_ascii=False)`. -/
def quote (cs : List Char) : List Char := '"' :: (cs.flatMap escapePlain ++ ['"'])

/-- A hexadecimal digit is read back. -/
theorem hexDigit?_digitChar : ∀ n < 16, hexDigit? (Nat.digitChar n) = some n := by decide

/-- A character is read back from its escape. -/
theorem scanUnits_escapePlain (c : Char) (rest : List Char) :
    scanUnits (escapePlain c ++ rest) = (scanUnits rest).map fun u => (c.toNat :: u.1, u.2) := by
  unfold escapePlain
  split_ifs with h1 h2 h3 h4 h5 h6 h7 h8
  · subst h1; cases h : scanUnits rest <;> simp [scanUnits, escapeUnit?, h]
  · subst h2; cases h : scanUnits rest <;> simp [scanUnits, escapeUnit?, h]
  · subst h3; cases h : scanUnits rest <;> simp [scanUnits, escapeUnit?, h]
  · subst h4; cases h : scanUnits rest <;> simp [scanUnits, escapeUnit?, h]
  · subst h5; cases h : scanUnits rest <;> simp [scanUnits, escapeUnit?, h]
  · subst h6; cases h : scanUnits rest <;> simp [scanUnits, escapeUnit?, h]
  · subst h7; cases h : scanUnits rest <;> simp [scanUnits, escapeUnit?, h]
  · have hsum : c.toNat / 4096 % 16 * 4096 + c.toNat / 256 % 16 * 256 + c.toNat / 16 % 16
        * 16 + c.toNat % 16
        = c.toNat := by omega
    have hlt : ∀ n : ℕ, n % 16 < 16 := fun n => Nat.mod_lt n (by decide)
    cases h : scanUnits rest <;>
      simp [Json.unicodeEscape, scanUnits, hexDigit?_digitChar _ (hlt _), h, hsum]
  · rw [List.singleton_append, scanUnits.eq_def]
    cases h : scanUnits rest <;> simp [h1, h2, h8, h]

/-- **A string is read back** up to its closing quote. -/
theorem scanUnits_escaped (cs : List Char) (rest : List Char) :
    scanUnits (cs.flatMap escapePlain ++ '"' :: rest) = some (cs.map Char.toNat, rest) := by
  induction cs with
  | nil =>
      rw [List.flatMap_nil, List.nil_append, scanUnits.eq_def]
      rfl
  | cons c cs ih =>
      rw [List.flatMap_cons, List.append_assoc, scanUnits_escapePlain, ih]
      rfl

/-- **A string literal is read back.** -/
theorem lexes_quote (cs : List Char) : Lexes (quote cs) [.str (.text (String.ofList cs))] := by
  intro rest
  rw [quote, List.cons_append, List.append_assoc, List.singleton_append]
  refine lex_token (by decide) ?_
  rw [scanToken]
  simp only [scanUnits_escaped, Option.map_some, PyStr.ofUnits_chars]
  rfl

/-! ## Numbers -/

/-- The digits of an integer: a lone zero, or digits that do not start with one. -/
structure IntegerText (digits : List Char) : Prop where
  isDigit : ∀ c ∈ digits, c.isDigit = true
  head : digits = ['0'] ∨ ∃ c cs, digits = c :: cs ∧ c ≠ '0'

/-- Digits are read up to the first other character. -/
theorem takeWhile_digits_append {ds rest : List Char} (hds : ∀ c ∈ ds, c.isDigit = true)
    (hrest : ∀ c ∈ rest.head?, c.isDigit = false) :
    (ds ++ rest).takeWhile Char.isDigit = ds ∧ (ds ++ rest).dropWhile Char.isDigit = rest := by
  have hstop : rest.takeWhile Char.isDigit = [] ∧ rest.dropWhile Char.isDigit = rest := by
    cases rest with
    | nil => exact ⟨rfl, rfl⟩
    | cons c rest =>
        have := hrest c rfl
        exact ⟨List.takeWhile_cons_of_neg (by simp [this]),
          List.dropWhile_cons_of_neg (by simp [this])⟩
  rw [List.takeWhile_append_of_pos hds, List.dropWhile_append_of_pos hds, hstop.1, hstop.2,
    List.append_nil]
  exact ⟨rfl, rfl⟩

/-- An integer is read up to the first other character. -/
theorem scanInteger_append {ds rest : List Char} (h : IntegerText ds)
    (hrest : ∀ c ∈ rest.head?, c.isDigit = false) :
    scanInteger (ds ++ rest) = some (ds, rest) := by
  obtain ⟨htake, hdrop⟩ := takeWhile_digits_append h.isDigit hrest
  rcases h.head with rfl | ⟨c, cs, rfl, hc⟩
  · rfl
  · have hd : c.isDigit = true := h.isDigit c (by simp)
    rw [List.cons_append] at htake hdrop ⊢
    unfold scanInteger
    split
    · rename_i heq
      exact absurd (List.cons.inj heq).1 hc
    · rename_i c' rest' _ heq
      obtain ⟨rfl, rfl⟩ := List.cons.inj heq
      rw [if_pos hd, htake, hdrop]
    · rename_i heq
      cases heq

theorem scanExponent_of_endsNumber {rest : List Char} (h : EndsNumber rest) :
    scanExponent rest = ([], rest) := by
  cases rest with
  | nil => rfl
  | cons c rest =>
      have hc := (h c rfl).2
      simp only [List.mem_cons, List.not_mem_nil, or_false, not_or] at hc
      simp [scanExponent, hc.2.1, hc.2.2]

/-- The fraction part of a text. -/
def fractionText (places : List Char) : List Char := if places = [] then [] else '.' :: places

/-- A fraction is read up to the end of the number. -/
theorem scanFraction_append {places rest : List Char} (hplaces : ∀ c ∈ places, c.isDigit = true)
    (h : EndsNumber rest) :
    scanFraction (fractionText places ++ rest) = (fractionText places, rest) := by
  obtain ⟨htake, hdrop⟩ := takeWhile_digits_append hplaces fun c hc => (h c hc).1
  unfold fractionText
  split_ifs with hnil
  · cases rest with
    | nil => rfl
    | cons c rest =>
        have hc := (h c rfl).2
        simp only [List.mem_cons, not_or] at hc
        unfold scanFraction
        split
        · rename_i heq
          exact absurd (List.cons.inj heq).1 hc.1
        · rfl
  · rw [List.cons_append, scanFraction, htake, hdrop, if_neg hnil]

theorem head_fraction {places rest : List Char} (h : EndsNumber rest) :
    ∀ c ∈ (fractionText places ++ rest).head?, c.isDigit = false := by
  unfold fractionText
  split_ifs
  · exact fun c hc => (h c hc).1
  · rintro c ⟨⟩
    rfl

/-- The token of a number. -/
def numberToken (literal places : List Char) : Token :=
  if places = [] then .int literal else .float literal

/-- **A number is read back** up to its end. -/
theorem scanNumber_append {sign ds places rest : List Char} (hds : IntegerText ds)
    (hplaces : ∀ c ∈ places, c.isDigit = true) (h : EndsNumber rest) :
    scanNumber sign (ds ++ (fractionText places ++ rest))
      = some (numberToken (sign ++ ds ++ fractionText places) places, rest) := by
  rw [scanNumber, scanInteger_append hds (head_fraction h)]
  simp only [bind, Option.bind_some, scanFraction_append hplaces h, scanExponent_of_endsNumber h,
    and_true,
    List.append_nil, numberToken]
  by_cases hnil : places = []
  · rw [if_pos hnil, if_pos (by rw [fractionText, if_pos hnil])]
    rfl
  · rw [if_neg hnil, if_neg (by rw [fractionText, if_neg hnil]; simp)]
    rfl

/-- **A number is read back**, with its sign and its fraction. -/
theorem lexesValue_number (neg : Bool) {ds places : List Char} (hds : IntegerText ds)
    (hplaces : ∀ c ∈ places, c.isDigit = true) :
    LexesValue ((if neg then ['-'] else []) ++ ds ++ fractionText places)
      [numberToken ((if neg then ['-'] else []) ++ ds ++ fractionText places) places] := by
  intro rest hrest
  obtain ⟨c, cs, hcs⟩ : ∃ c cs, ds = c :: cs := by
    rcases hds.head with rfl | ⟨c, cs, rfl, -⟩
    · exact ⟨_, _, rfl⟩
    · exact ⟨_, _, rfl⟩
  have hc : c.isDigit = true := hds.isDigit c (by rw [hcs]; simp)
  have hmarks : c ∉ ['{', '}', '[', ']', ',', ':', '"', 'I', ' ', '\t', '\n', '\r'] := by
    intro hmem
    simp only [List.mem_cons, List.not_mem_nil, or_false] at hmem
    rcases hmem with rfl | rfl | rfl | rfl | rfl | rfl | rfl | rfl | rfl | rfl | rfl | rfl
      <;> cases hc
  simp only [List.mem_cons, List.not_mem_nil, or_false, not_or] at hmarks
  have hscan : scanNumber (if neg then ['-'] else []) (ds ++ (fractionText places ++ rest))
      = some (numberToken ((if neg then ['-'] else []) ++ ds ++ fractionText places) places,
        rest) :=
    scanNumber_append hds hplaces hrest
  cases neg with
  | false =>
      simp only [Bool.false_eq_true, if_false, List.nil_append] at hscan ⊢
      rw [List.append_assoc, hcs, List.cons_append]
      rw [hcs, List.cons_append] at hscan
      refine lex_token (by simp [isBlank, hmarks]) ?_
      rw [scanToken]
      simp only [hmarks, if_false, hc, if_true]
      exact hscan
  | true =>
      simp only [if_true, List.nil_append, List.cons_append] at hscan ⊢
      rw [List.append_assoc]
      refine lex_token (by decide) ?_
      have hword : scanWord ('-' :: (ds ++ (fractionText places ++ rest))) = none := by
        rw [hcs]
        simp [scanWord, words, List.isPrefixOf, Ne.symm hmarks.2.2.2.2.2.2.2.1]
      rw [scanToken, hword]
      exact hscan

/-- A positive numeral does not begin with zero. -/
theorem head_toDigits {n : ℕ} (hn : 0 < n) : ∃ c cs, Nat.toDigits 10 n = c :: cs ∧ c ≠ '0' := by
  induction n using Nat.strong_induction_on with
  | h n ih =>
      rw [Nat.toDigits_eq_if (by norm_num)]
      split_ifs with hlt
      · refine ⟨_, [], rfl, ?_⟩
        interval_cases n <;> decide
      · obtain ⟨c, cs, heq, hc⟩ := ih (n / 10) (by omega) (by omega)
        exact ⟨c, cs ++ [Nat.digitChar (n % 10)], by rw [heq, List.cons_append], hc⟩

/-- The digits of a number. -/
theorem integerText_toDigits (n : ℕ) : IntegerText (Nat.toDigits 10 n) := by
  refine ⟨Json.isDigit_toDigits n, ?_⟩
  rcases Nat.eq_zero_or_pos n with rfl | hn
  · exact .inl rfl
  · exact .inr (head_toDigits hn)

/-- An integer is read back. -/
theorem lexesValue_int (i : ℤ) : LexesValue (Json.intText i) [.int (Json.intText i)] := by
  have h :=
    lexesValue_number (decide (i < 0)) (integerText_toDigits i.natAbs) (show ∀ c ∈ ([] : List Char),
      c.isDigit = true by simp)
  have htext :
      (if decide (i < 0) = true then ['-'] else []) ++ Nat.toDigits 10 i.natAbs ++ fractionText []
      = Json.intText i := by
    unfold Json.intText
    by_cases hi : i < 0 <;> simp [hi, fractionText]
  rw [htext] at h
  exact h

/-! ## Values -/

/-- The separators and the decimals of a writer, with their tokens. -/
structure Style where
  comma : List Char
  colon : List Char
  decimal : Decimal → List Char
  token : Decimal → Token
  comma_lexes : Lexes comma [.comma]
  comma_ends : ∀ rest, EndsNumber (comma ++ rest)
  colon_lexes : Lexes colon [.colon]
  decimal_lexes : ∀ d, LexesValue (decimal d) [token d]

section Write

variable (style : Style)

/-- A text with a lone surrogate has no characters. -/
def writeStr : PyStr → List Char
  | .text s => quote s.toList
  | .lone _ => quote []

mutual

/-- The text of a value, its members in their order. -/
def write : PyJson → List Char
  | .null => ['n', 'u', 'l', 'l']
  | .bool true => ['t', 'r', 'u', 'e']
  | .bool false => ['f', 'a', 'l', 's', 'e']
  | .int i => Json.intText i
  | .decimal d => style.decimal d
  | .str s => writeStr s
  | .arr items => '[' :: (writeItems items ++ [']'])
  | .obj members => '{' :: (writeMembers members ++ ['}'])

def writeItems : List PyJson → List Char
  | [] => []
  | [v] => write v
  | v :: w :: vs => write v ++ (style.comma ++ writeItems (w :: vs))

def writeMembers : List (PyStr × PyJson) → List Char
  | [] => []
  | [(k, v)] => writeStr k ++ (style.colon ++ write v)
  | (k, v) :: m :: ms => writeStr k
      ++ (style.colon ++ (write v ++ (style.comma ++ writeMembers (m :: ms))))

end

/-- The token of a string. -/
def strToken : PyStr → Token
  | .text s => .str (.text s)
  | .lone _ => .str (.text "")

mutual

/-- The tokens of a value. -/
def tokens : PyJson → List Token
  | .null => [.null]
  | .bool b => [.bool b]
  | .int i => [.int (Json.intText i)]
  | .decimal d => [style.token d]
  | .str s => [strToken s]
  | .arr items => .openArr :: tokensItems items ++ [.closeArr]
  | .obj members => .openObj :: tokensMembers members ++ [.closeObj]

def tokensItems : List PyJson → List Token
  | [] => []
  | [v] => tokens v
  | v :: w :: vs => tokens v ++ .comma :: tokensItems (w :: vs)

def tokensMembers : List (PyStr × PyJson) → List Token
  | [] => []
  | [(k, v)] => strToken k :: .colon :: tokens v
  | (k, v) :: m :: ms => strToken k :: .colon :: tokens v ++ .comma :: tokensMembers (m :: ms)

end

/-- A string is lexed as it was written. -/
theorem lexes_writeStr (s : PyStr) : Lexes (writeStr s) [strToken s] := by
  cases s with
  | text s =>
      have h := lexes_quote s.toList
      rwa [String.ofList_toList] at h
  | lone _ => exact lexes_quote []

theorem endsNumber_cons {c : Char} (hc : c.isDigit = false ∧ c ∉ ['.', 'e', 'E'])
    (rest : List Char) :
    EndsNumber (c :: rest) := by
  rintro _ ⟨⟩
  exact hc

mutual

/-- **A written value gives its tokens.** -/
theorem lexesValue_write : ∀ v : PyJson, LexesValue (write style v) (tokens style v)
  | .null => lexes_null.value
  | .bool true => lexes_true.value
  | .bool false => lexes_false.value
  | .int i => lexesValue_int i
  | .decimal d => style.decimal_lexes d
  | .str s => (lexes_writeStr s).value
  | .arr items => by
      have h := (lexes_openArr.append_value (lexesValue_items items)).append lexes_closeArr
        (endsNumber_cons (by decide))
      rw [write, tokens]
      exact h.value
  | .obj members => by
      have h := (lexes_openObj.append_value (lexesValue_members members)).append lexes_closeObj
        (endsNumber_cons (by decide))
      rw [write, tokens]
      exact h.value

/-- Items are lexed as they were written. -/
theorem lexesValue_items :
    ∀ vs : List PyJson, LexesValue (writeItems style vs) (tokensItems style vs)
  | [] => lexes_nil.value
  | [v] => by
      rw [writeItems, tokensItems]
      exact lexesValue_write v
  | v :: w :: vs => by
      have h := ((lexesValue_write v).append style.comma_lexes style.comma_ends).append_value
        (lexesValue_items (w :: vs))
      rw [writeItems, tokensItems]
      simpa only [List.append_assoc, List.singleton_append] using h

theorem lexesValue_members : ∀ ms : List (PyStr × PyJson),
    LexesValue (writeMembers style ms) (tokensMembers style ms)
  | [] => lexes_nil.value
  | [(k, v)] => by
      rw [writeMembers, tokensMembers]
      exact (lexes_writeStr k).append_value (style.colon_lexes.append_value (lexesValue_write v))
  | (k, v) :: m :: ms => by
      have htail := ((lexesValue_write v).append style.comma_lexes style.comma_ends).append_value
        (lexesValue_members (m :: ms))
      have h := (lexes_writeStr k).append_value (style.colon_lexes.append_value htail)
      rw [writeMembers, tokensMembers]
      simpa only [List.append_assoc, List.singleton_append, List.cons_append, List.nil_append]
        using h

end

/-- The tokens of a whole text. -/
theorem lex_write (v : PyJson) : lex (write style v) = tokens style v := by
  have h := lexesValue_write style v [] (by simp [EndsNumber])
  rwa [List.append_nil, lex_nil, List.append_nil] at h

end Write

/-! ## Reading back -/

mutual

/-- A value with its decimals replaced by what the decoder makes of them. -/
def mapDecimals (num : Decimal → PyJson) : PyJson → PyJson
  | .decimal d => num d
  | .arr items => .arr (mapItems num items)
  | .obj members => .obj (mapMembers num members)
  | v => v

def mapItems (num : Decimal → PyJson) : List PyJson → List PyJson
  | [] => []
  | v :: vs => mapDecimals num v :: mapItems num vs

def mapMembers (num : Decimal → PyJson) : List (PyStr × PyJson) → List (PyStr × PyJson)
  | [] => []
  | (k, v) :: ms => (k, mapDecimals num v) :: mapMembers num ms

end

mutual

/-- The containers that nest in a value. -/
def depth : PyJson → ℕ
  | .arr items => depthItems items + 1
  | .obj members => depthMembers members + 1
  | _ => 0

def depthItems : List PyJson → ℕ
  | [] => 0
  | v :: vs => max (depth v) (depthItems vs)

def depthMembers : List (PyStr × PyJson) → ℕ
  | [] => 0
  | (_, v) :: ms => max (depth v) (depthMembers ms)

end

mutual

/-- A value that a decoder reads back: its texts have characters, its objects have distinct keys and
its integers convert. -/
def Readable (int : ℤ → Prop) : PyJson → Prop
  | .int i => int i
  | .str (.lone _) => False
  | .arr items => ReadableItems int items
  | .obj members => (members.map Prod.fst).Nodup ∧ ReadableMembers int members
  | _ => True

def ReadableItems (int : ℤ → Prop) : List PyJson → Prop
  | [] => True
  | v :: vs => Readable int v ∧ ReadableItems int vs

def ReadableMembers (int : ℤ → Prop) : List (PyStr × PyJson) → Prop
  | [] => True
  | (k, v) :: ms => (∃ s, k = .text s) ∧ Readable int v ∧ ReadableMembers int ms

end

/-- Mapping the numbers keeps the keys. -/
theorem keys_mapMembers (num : Decimal → PyJson) (ms : List (PyStr × PyJson)) :
    (mapMembers num ms).map Prod.fst = ms.map Prod.fst := by
  induction ms with
  | nil => rfl
  | cons m ms ih =>
      rw [mapMembers, List.map_cons, List.map_cons, ih]

variable {ε : Type}

/-- A decoder that reads the numbers of a writer, and builds dictionaries from distinct keys. -/
structure Reads (hooks : Hooks ε) (style : Style) (int : ℤ → Prop) (num : Decimal → PyJson) :
    Prop where
  int : ∀ i, int i → hooks.int (Json.intText i) = .ok (.int i)
  decimal : ∀ d n, Writes hooks (num d) [style.token d] n
  pairs : ∀ members : List (PyStr × PyJson), (members.map Prod.fst).Nodup →
    hooks.pairs members = .ok (.obj members)

section Reads

variable {hooks : Hooks ε} {style : Style} {int : ℤ → Prop} {num : Decimal → PyJson}

mutual

/-- **The tokens of a readable value write it**, with its decimals as the decoder reads them. -/
theorem writes_tokens (hr : Reads hooks style int num) :
    ∀ {v : PyJson}, Readable int v → ∀ {n : ℕ}, depth v ≤ n →
    Writes hooks (mapDecimals num v) (tokens style v) n
  | .null, _, _, _ => .null
  | .bool _, _, _, _ => .bool
  | .int i, h, _, _ => .int (hr.int i h)
  | .decimal d, _, n, _ => hr.decimal d n
  | .str (.text _), _, _, _ => .str
  | .str (.lone _), h, _, _ => h.elim
  | .arr items, h, n, hn => by
      obtain ⟨m, rfl⟩ : ∃ m, n = m + 1 := ⟨n - 1, by rw [depth] at hn; omega⟩
      rw [depth, Nat.add_le_add_iff_right] at hn
      exact .arr (writes_items hr h hn)
  | .obj members, h, n, hn => by
      obtain ⟨m, rfl⟩ : ∃ m, n = m + 1 := ⟨n - 1, by rw [depth] at hn; omega⟩
      rw [depth, Nat.add_le_add_iff_right] at hn
      refine .obj (writes_members hr h.2 hn) (hr.pairs _ ?_)
      rw [keys_mapMembers]
      exact h.1

/-- The tokens of items write their values. -/
theorem writes_items (hr : Reads hooks style int num) :
    ∀ {vs : List PyJson}, ReadableItems int vs → ∀ {n : ℕ},
    depthItems vs ≤ n →
    WritesItems hooks (mapItems num vs) (tokensItems style vs) n
  | [], _, _, _ => .nil
  | [_], h, _, hn => .one (writes_tokens hr h.1 ((le_max_left _ _).trans hn))
  | _ :: w :: vs, h, _, hn => by
      have hvs : ReadableItems int (w :: vs) := h.2
      exact .cons (writes_tokens hr h.1 ((le_max_left _ _).trans hn))
        (writes_items hr hvs ((le_max_right _ _).trans hn))
        (by simp [mapItems])

theorem writes_members (hr : Reads hooks style int num) :
    ∀ {ms : List (PyStr × PyJson)}, ReadableMembers int ms →
    ∀ {n : ℕ}, depthMembers ms ≤ n →
    WritesMembers hooks (mapMembers num ms) (tokensMembers style ms) n
  | [], _, _, _ => .nil
  | [(k, v)], h, _, hn => by
      obtain ⟨⟨s, rfl⟩, hv, -⟩ := h
      exact .one (writes_tokens hr hv ((le_max_left _ _).trans hn))
  | (k, v) :: m :: ms, h, _, hn => by
      obtain ⟨⟨s, rfl⟩, hv, hms⟩ := h
      exact .cons (writes_tokens hr hv ((le_max_left _ _).trans hn))
        (writes_members hr hms ((le_max_right _ _).trans hn))
        (by obtain ⟨k', v'⟩ := m; simp [mapMembers])

end

/-- **A written value is read back**, up to its decimals. -/
theorem decode_write (hr : Reads hooks style int num) {v : PyJson} (h : Readable int v)
    (hdepth : depth v ≤ hooks.maxDepth) :
    decode hooks (write style v) = .ok (mapDecimals num v) := by
  refine decode_of_writes ?_ hdepth
  rw [lex_write]
  exact writes_tokens hr h le_rfl

end Reads

end JsonReader
