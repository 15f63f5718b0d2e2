/-
# Reading the ASCII text of a tree

`Json.dump` is the text of `json.dumps` with its default `ensure_ascii=True` and the separators `,`
and `:`. `lexesValue_dump` gives its tokens, `decode_dump` says that a decoder reads the tree back,
and `printable_dump` that the text is printable ASCII: it has no line break, and as many bytes as
characters.
-/
import EvidenceLab.JsonWriter

namespace PyStr

/-- The UTF-16 code units of a character. -/
def unitsOf (c : Char) : List ℕ :=
  if c.toNat < 0x10000 then [c.toNat]
  else [0xd800 + (c.toNat - 0x10000) / 0x400, 0xdc00 + (c.toNat - 0x10000) % 0x400]

/-- A unit that is no first half stands for itself. -/
theorem joinPairs_cons {n : ℕ} (hn : isHigh n = false) (units : List ℕ) :
    joinPairs (n :: units) = n :: joinPairs units := by
  cases units with
  | nil => rfl
  | cons m units => rw [joinPairs, hn, Bool.false_and, if_neg Bool.false_ne_true]

/-- Two halves of a surrogate pair stand for one character. -/
theorem joinPairs_pair {n m : ℕ} (hn : isHigh n = true) (hm : isLow m = true) (units : List ℕ) :
    joinPairs (n :: m :: units) = (0x10000 + (n - 0xd800) * 0x400 + (m - 0xdc00))
    :: joinPairs units := by
  rw [joinPairs, hn, hm, Bool.and_self, if_pos rfl]

theorem toNat_lt (c : Char) : c.toNat < 0x110000 := by
  rcases c.valid with h | ⟨-, h⟩
  · exact lt_trans h (by norm_num)
  · exact h

/-- The surrogates of a character join to it. -/
theorem joinPairs_unitsOf (c : Char) (units : List ℕ) :
    joinPairs (unitsOf c ++ units) = c.toNat :: joinPairs units := by
  rw [unitsOf]
  split_ifs with hc
  · exact joinPairs_cons (not_isHigh c) units
  · have hle := toNat_lt c
    have hhigh : isHigh (0xd800 + (c.toNat - 0x10000) / 0x400) = true := by
      simp only [isHigh, Bool.and_eq_true, decide_eq_true_eq]
      omega
    have hlow : isLow (0xdc00 + (c.toNat - 0x10000) % 0x400) = true := by
      simp only [isLow, Bool.and_eq_true, decide_eq_true_eq]
      omega
    have hjoin : 0x10000 + (0xd800 + (c.toNat - 0x10000) / 0x400 - 0xd800) * 0x400
        + (0xdc00 + (c.toNat - 0x10000) % 0x400 - 0xdc00) = c.toNat := by omega
    exact (joinPairs_pair hhigh hlow units).trans (congrArg (· :: joinPairs units) hjoin)

/-- **The code units of a text are the text.** -/
theorem ofUnits_unitsOf (cs : List Char) :
    ofUnits (cs.flatMap unitsOf) = .text (String.ofList cs) := by
  have hjoin : joinPairs (cs.flatMap unitsOf) = joinPairs (cs.map Char.toNat) := by
    rw [joinPairs_chars]
    induction cs with
    | nil => rfl
    | cons c cs ih => rw [List.flatMap_cons, joinPairs_unitsOf, ih, List.map_cons]
  rw [ofUnits, hjoin, ← ofUnits, ofUnits_chars]

end PyStr

namespace Json

/-! ## Printable ASCII -/

/-- The characters of a text that `json.dumps` escaped. -/
def Printable (text : List Char) : Prop := ∀ c ∈ text, 0x20 ≤ c.toNat ∧ c.toNat ≤ 0x7e

/-- Printable texts are printable one after the other. -/
theorem Printable.append {a b : List Char} (ha : Printable a) (hb : Printable b) :
    Printable (a ++ b) := by
  intro c hc
  rcases List.mem_append.mp hc with hc | hc
  · exact ha c hc
  · exact hb c hc

theorem Printable.cons {c : Char} {b : List Char} (hc : 0x20 ≤ c.toNat ∧ c.toNat ≤ 0x7e)
    (hb : Printable b) :
    Printable (c :: b) := by
  rintro d (_ | ⟨_, hd⟩)
  · exact hc
  · exact hb d hd

theorem printable_nil : Printable [] := fun _ hc => absurd hc List.not_mem_nil

theorem printable_digit :
    ∀ n < 16, 0x20 ≤ (Nat.digitChar n).toNat ∧ (Nat.digitChar n).toNat ≤ 0x7e := by decide

theorem printable_unicodeEscape (n : ℕ) : Printable (unicodeEscape n) := by
  have hdigit : ∀ m : ℕ, 0x20 ≤ (Nat.digitChar (m % 16)).toNat ∧
      (Nat.digitChar (m % 16)).toNat ≤ 0x7e :=
    fun m => printable_digit _ (Nat.mod_lt m (by decide))
  exact .cons (by decide) (.cons (by decide)
    (.cons (hdigit _) (.cons (hdigit _) (.cons (hdigit _) (.cons (hdigit _) printable_nil)))))

/-- Escaping makes every character printable. -/
theorem printable_escapeChar (c : Char) : Printable (escapeChar c) := by
  unfold escapeChar
  split_ifs with h₁ h₂ h₃ h₄ h₅ h₆ h₇ h₈ h₉
  · exact .cons (by decide) (.cons (by decide) printable_nil)
  · exact .cons (by decide) (.cons (by decide) printable_nil)
  · exact .cons (by decide) (.cons (by decide) printable_nil)
  · exact .cons (by decide) (.cons (by decide) printable_nil)
  · exact .cons (by decide) (.cons (by decide) printable_nil)
  · exact .cons (by decide) (.cons (by decide) printable_nil)
  · exact .cons (by decide) (.cons (by decide) printable_nil)
  · exact .cons h₈ printable_nil
  · exact printable_unicodeEscape _
  · exact (printable_unicodeEscape _).append (printable_unicodeEscape _)

/-- **Strings are written in printable characters.** -/
theorem printable_strText (s : String) : Printable (strText s) := by
  refine .cons (by decide) (Printable.append (fun c hc => ?_) (.cons (by decide) printable_nil))
  obtain ⟨d, -, hd⟩ := List.mem_flatMap.mp hc
  exact printable_escapeChar d c hd

theorem printable_of_isDigit {text : List Char} (h : ∀ c ∈ text, c.isDigit = true) :
    Printable text := by
  intro c hc
  have hdigit := h c hc
  simp only [Char.isDigit, Bool.and_eq_true, decide_eq_true_eq, ge_iff_le, UInt32.le_iff_toNat_le]
    at hdigit
  obtain ⟨hlo, hhi⟩ := hdigit
  have hlo' : 48 ≤ c.toNat := hlo
  have hhi' : c.toNat ≤ 57 := hhi
  omega

/-- Integers are written in printable characters. -/
theorem printable_intText (i : ℤ) : Printable (intText i) := by
  have hdigits := printable_of_isDigit (isDigit_toDigits i.natAbs)
  rw [intText]
  split_ifs
  · exact .cons (by decide) hdigits
  · exact hdigits

theorem printable_separator (first : Bool) : Printable (if first then [] else [',']) := by
  cases first with
  | true => exact printable_nil
  | false => exact .cons (by decide) printable_nil

mutual

/-- **The text of a tree is printable ASCII.** -/
theorem printable_dump : ∀ t : Json, Printable t.dump
  | .null => by
      rw [dump]
      exact .cons (by decide)
        (.cons (by decide) (.cons (by decide) (.cons (by decide) printable_nil)))
  | .bool true => by
      rw [dump]
      exact .cons (by decide)
        (.cons (by decide) (.cons (by decide) (.cons (by decide) printable_nil)))
  | .bool false => by
      rw [dump]
      exact .cons (by decide)
        (.cons (by decide)
        (.cons (by decide) (.cons (by decide) (.cons (by decide) printable_nil))))
  | .int i => by
      rw [dump]
      exact printable_intText i
  | .str s => by
      rw [dump]
      exact printable_strText s
  | .arr xs => by
      rw [dump]
      exact .cons (by decide)
        ((printable_dumpItems true xs).append (.cons (by decide) printable_nil))
  | .obj members => by
      rw [dump]
      exact .cons (by decide)
        ((printable_dumpMembers true members).append (.cons (by decide) printable_nil))

theorem printable_dumpItems : ∀ (first : Bool) (xs : List Json), Printable (dumpItems first xs)
  | _, [] => by
      rw [dumpItems]
      exact printable_nil
  | first, x :: xs => by
      rw [dumpItems]
      exact (printable_separator first).append
        ((printable_dump x).append (printable_dumpItems false xs))

theorem printable_dumpMembers : ∀ (first : Bool) (members : List (String × Json)),
    Printable (dumpMembers first members)
  | _, [] => by
      rw [dumpMembers]
      exact printable_nil
  | first, (key, x) :: members => by
      rw [dumpMembers]
      exact (printable_separator first).append ((printable_strText key).append
        (.cons (by decide) ((printable_dump x).append (printable_dumpMembers false members))))

end

/-! ## Trees as decoded values -/

mutual

/-- What a decoder makes of a tree. -/
def decoded : Json → PyJson
  | .null => .null
  | .bool b => .bool b
  | .int i => .int i
  | .str s => .str (.text s)
  | .arr xs => .arr (decodedItems xs)
  | .obj members => .obj (decodedMembers members)

def decodedItems : List Json → List PyJson
  | [] => []
  | x :: xs => x.decoded :: decodedItems xs

def decodedMembers : List (String × Json) → List (PyStr × PyJson)
  | [] => []
  | (key, x) :: members => (.text key, x.decoded) :: decodedMembers members

end

mutual

/-- The nesting of a tree. -/
def nesting : Json → ℕ
  | .arr xs => nestingItems xs + 1
  | .obj members => nestingMembers members + 1
  | _ => 0

def nestingItems : List Json → ℕ
  | [] => 0
  | x :: xs => max x.nesting (nestingItems xs)

def nestingMembers : List (String × Json) → ℕ
  | [] => 0
  | (_, x) :: members => max x.nesting (nestingMembers members)

end

mutual

/-- Every object has distinct keys, and the decoder reads every integer. -/
def Readable (int : ℤ → Prop) : Json → Prop
  | .int i => int i
  | .arr xs => ReadableItems int xs
  | .obj members => (members.map Prod.fst).Nodup ∧ ReadableMembers int members
  | _ => True

def ReadableItems (int : ℤ → Prop) : List Json → Prop
  | [] => True
  | x :: xs => x.Readable int ∧ ReadableItems int xs

def ReadableMembers (int : ℤ → Prop) : List (String × Json) → Prop
  | [] => True
  | (_, x) :: members => x.Readable int ∧ ReadableMembers int members

end

/-- Decoding keeps the keys. -/
theorem keys_decodedMembers (members : List (String × Json)) :
    (decodedMembers members).map Prod.fst = (members.map Prod.fst).map PyStr.text := by
  induction members with
  | nil => rfl
  | cons m members ih =>
      obtain ⟨key, x⟩ := m
      rw [decodedMembers, List.map_cons, ih]
      rfl

end Json

namespace JsonReader

open Json (decoded decodedItems decodedMembers nesting nestingItems nestingMembers)

/-! ## String literals -/

theorem hex_sum (n : ℕ) (h : n < 0x10000) :
    n / 4096 % 16 * 4096 + n / 256 % 16 * 256 + n / 16 % 16 * 16 + n % 16 = n := by
  omega

/-- An escape is read as its code unit. -/
theorem scanUnits_unicodeEscape {n : ℕ} (h : n < 0x10000) (rest : List Char) :
    scanUnits (Json.unicodeEscape n ++ rest) = (scanUnits rest).map fun u => (n :: u.1, u.2) := by
  have hlt : ∀ m : ℕ, m % 16 < 16 := fun m => Nat.mod_lt m (by decide)
  cases hrest : scanUnits rest <;>
    simp [Json.unicodeEscape, scanUnits, hexDigit?_digitChar _ (hlt _), hrest, hex_sum n h]

/-- A character is read back from its escape. -/
theorem scanUnits_escapeChar (c : Char) (rest : List Char) :
    scanUnits (Json.escapeChar c ++ rest) = (scanUnits rest).map fun u =>
    (PyStr.unitsOf c ++ u.1, u.2) := by
  unfold Json.escapeChar PyStr.unitsOf
  by_cases hbig : c.toNat < 0x10000
  · simp only [if_pos hbig]
    split_ifs with h₁ h₂ h₃ h₄ h₅ h₆ h₇ h₈
    · subst h₁; cases h : scanUnits rest <;> simp [scanUnits, escapeUnit?, h]
    · subst h₂; cases h : scanUnits rest <;> simp [scanUnits, escapeUnit?, h]
    · subst h₃; cases h : scanUnits rest <;> simp [scanUnits, escapeUnit?, h]
    · subst h₄; cases h : scanUnits rest <;> simp [scanUnits, escapeUnit?, h]
    · subst h₅; cases h : scanUnits rest <;> simp [scanUnits, escapeUnit?, h]
    · subst h₆; cases h : scanUnits rest <;> simp [scanUnits, escapeUnit?, h]
    · subst h₇; cases h : scanUnits rest <;> simp [scanUnits, escapeUnit?, h]
    · have hctl : ¬ c.toNat < 0x20 := by omega
      rw [List.singleton_append, scanUnits.eq_def]
      cases h : scanUnits rest <;> simp [h₁, h₂, hctl, h]
    · exact scanUnits_unicodeEscape hbig rest
  · have hle := PyStr.toNat_lt c
    -- none of the characters with an escape of their own is beyond the basic plane
    have hne : ∀ d : Char, d.toNat < 0x10000 → c ≠ d := by
      rintro d hd rfl
      exact hbig hd
    rw [if_neg (hne _ (by decide)), if_neg (hne _ (by decide)), if_neg (hne _ (by decide)),
      if_neg (hne _ (by decide)),
      if_neg (hne _ (by decide)), if_neg (hne _ (by decide)), if_neg (hne _ (by decide)),
      if_neg (by omega),
      if_neg hbig, if_neg hbig, List.append_assoc, scanUnits_unicodeEscape (by omega),
      scanUnits_unicodeEscape (by omega)]
    cases scanUnits rest <;> rfl

/-- **A string is read back** up to its closing quote. -/
theorem scanUnits_escapeAll (cs rest : List Char) :
    scanUnits (Json.escapeAll cs ++ '"' :: rest) = some (cs.flatMap PyStr.unitsOf, rest) := by
  induction cs with
  | nil =>
      rw [Json.escapeAll, List.flatMap_nil, List.nil_append, scanUnits.eq_def]
      rfl
  | cons c cs ih =>
      rw [Json.escapeAll] at ih ⊢
      rw [List.flatMap_cons, List.append_assoc, scanUnits_escapeChar, ih, List.flatMap_cons]
      rfl

/-- **An escaped string literal is read back.** -/
theorem lexes_strText (s : String) : Lexes (Json.strText s) [.str (.text s)] := by
  intro rest
  rw [Json.strText, List.cons_append, List.append_assoc, List.singleton_append]
  refine lex_token (by decide) ?_
  rw [scanToken]
  simp only [scanUnits_escapeAll, Option.map_some, PyStr.ofUnits_unitsOf, String.ofList_toList]
  rfl

/-! ## Values -/

mutual

/-- The tokens of a tree. -/
def tokensOf : Json → List Token
  | .null => [.null]
  | .bool b => [.bool b]
  | .int i => [.int (Json.intText i)]
  | .str s => [.str (.text s)]
  | .arr xs => .openArr :: tokensOfItems true xs ++ [.closeArr]
  | .obj members => .openObj :: tokensOfMembers true members ++ [.closeObj]

def tokensOfItems : Bool → List Json → List Token
  | _, [] => []
  | first, x :: xs => (if first then [] else [.comma]) ++ (tokensOf x ++ tokensOfItems false xs)

def tokensOfMembers : Bool → List (String × Json) → List Token
  | _, [] => []
  | first, (key, x) :: members =>
      (if first then [] else [.comma])
      ++ (.str (.text key) :: .colon :: (tokensOf x ++ tokensOfMembers false members))

end

/-- What follows an item ends a number. -/
theorem endsNumber_dumpItems (xs : List Json) {rest : List Char} (h : EndsNumber rest) :
    EndsNumber (Json.dumpItems false xs ++ rest) := by
  cases xs with
  | nil =>
      rw [Json.dumpItems]
      exact h
  | cons x xs =>
      rw [Json.dumpItems]
      exact endsNumber_cons (by decide) _

theorem endsNumber_dumpMembers (members : List (String × Json)) {rest : List Char}
    (h : EndsNumber rest) :
    EndsNumber (Json.dumpMembers false members ++ rest) := by
  cases members with
  | nil =>
      rw [Json.dumpMembers]
      exact h
  | cons m members =>
      obtain ⟨key, x⟩ := m
      rw [Json.dumpMembers]
      exact endsNumber_cons (by decide) _

theorem lexes_separator (first : Bool) :
    Lexes (if first then [] else [',']) (if first then [] else [Token.comma]) := by
  cases first with
  | true => exact lexes_nil
  | false => exact lexes_comma

mutual

/-- **The text of a tree gives its tokens.** -/
theorem lexesValue_dump : ∀ t : Json, LexesValue t.dump (tokensOf t)
  | .null => by
      rw [Json.dump]
      exact lexes_null.value
  | .bool true => by
      rw [Json.dump]
      exact lexes_true.value
  | .bool false => by
      rw [Json.dump]
      exact lexes_false.value
  | .int i => by
      rw [Json.dump]
      exact lexesValue_int i
  | .str s => by
      rw [Json.dump]
      exact (lexes_strText s).value
  | .arr xs => by
      have hclose : ∀ rest, EndsNumber ([']'] ++ rest) :=
        fun rest => endsNumber_cons (by decide) rest
      rw [Json.dump]
      exact (lexes_openArr.append
        ((lexesValue_dumpItems true xs).append lexes_closeArr hclose)).value
  | .obj members => by
      have hclose : ∀ rest, EndsNumber (['}'] ++ rest) :=
        fun rest => endsNumber_cons (by decide) rest
      rw [Json.dump]
      exact (lexes_openObj.append
        ((lexesValue_dumpMembers true members).append lexes_closeObj hclose)).value

/-- Items are lexed as they are dumped. -/
theorem lexesValue_dumpItems : ∀ (first : Bool) (xs : List Json),
    LexesValue (Json.dumpItems first xs) (tokensOfItems first xs)
  | _, [] => by
      rw [Json.dumpItems]
      exact lexes_nil.value
  | first, x :: xs => by
      rw [Json.dumpItems]
      refine (lexes_separator first).append_value ?_
      intro rest hrest
      rw [List.append_assoc, lexesValue_dump x _ (endsNumber_dumpItems xs hrest),
        lexesValue_dumpItems false xs rest hrest,
        List.append_assoc]

theorem lexesValue_dumpMembers : ∀ (first : Bool) (members : List (String × Json)),
    LexesValue (Json.dumpMembers first members) (tokensOfMembers first members)
  | _, [] => by
      rw [Json.dumpMembers]
      exact lexes_nil.value
  | first, (key, x) :: members => by
      have hkey : Lexes (Json.strText key ++ [':']) [.str (.text key), .colon] :=
        (lexes_strText key).append lexes_colon
      rw [Json.dumpMembers]
      refine (lexes_separator first).append_value ?_
      have hvalue :
          LexesValue (x.dump ++ Json.dumpMembers false members)
            (tokensOf x ++ tokensOfMembers false members) := by
        intro rest hrest
        rw [List.append_assoc, lexesValue_dump x _ (endsNumber_dumpMembers members hrest),
          lexesValue_dumpMembers false members rest hrest, List.append_assoc]
      simpa using hkey.append_value hvalue

end

section Decode

variable {ε : Type} {hooks : Hooks ε} {int : ℤ → Prop}

/-- A decoder that reads integers, and builds dictionaries from distinct keys. -/
structure ReadsTrees (hooks : Hooks ε) (int : ℤ → Prop) : Prop where
  int : ∀ i, int i → hooks.int (Json.intText i) = .ok (.int i)
  pairs : ∀ members : List (PyStr × PyJson), (members.map Prod.fst).Nodup →
    hooks.pairs members = .ok (.obj members)

mutual

/-- The tokens of a tree write its value. -/
theorem writes_tokensOf (hr : ReadsTrees hooks int) :
    ∀ {t : Json}, t.Readable int → ∀ {n : ℕ}, nesting t ≤ n →
    Writes hooks t.decoded (tokensOf t) n
  | .null, _, _, _ => .null
  | .bool _, _, _, _ => .bool
  | .int i, h, _, _ => .int (hr.int i h)
  | .str _, _, _, _ => .str
  | .arr xs, h, n, hn => by
      obtain ⟨m, rfl⟩ : ∃ m, n = m + 1 := ⟨n - 1, by rw [nesting] at hn; omega⟩
      rw [nesting, Nat.add_le_add_iff_right] at hn
      exact .arr (writes_tokensOfItems hr h hn)
  | .obj members, h, n, hn => by
      obtain ⟨m, rfl⟩ : ∃ m, n = m + 1 := ⟨n - 1, by rw [nesting] at hn; omega⟩
      rw [nesting, Nat.add_le_add_iff_right] at hn
      refine .obj (writes_tokensOfMembers hr h.2 hn) (hr.pairs _ ?_)
      rw [Json.keys_decodedMembers]
      exact h.1.map fun _ _ heq => PyStr.text.inj heq

/-- The tokens of items write their decoded values. -/
theorem writes_tokensOfItems (hr : ReadsTrees hooks int) :
    ∀ {xs : List Json}, Json.ReadableItems int xs → ∀ {n : ℕ},
    nestingItems xs ≤ n → WritesItems hooks (decodedItems xs) (tokensOfItems true xs) n
  | [], _, _, _ => .nil
  | [x], h, _, hn => by
      have hx := writes_tokensOf hr h.1 ((le_max_left _ _).trans hn)
      simpa [tokensOfItems, decodedItems] using WritesItems.one hx
  | x :: y :: xs, h, _, hn => by
      have hx := writes_tokensOf hr h.1 ((le_max_left _ _).trans hn)
      have hxs : Json.ReadableItems int (y :: xs) := h.2
      have hrest := writes_tokensOfItems hr hxs ((le_max_right _ _).trans hn)
      simpa [tokensOfItems, decodedItems] using WritesItems.cons hx hrest (by simp [decodedItems])

theorem writes_tokensOfMembers (hr : ReadsTrees hooks int) : ∀ {members : List (String × Json)},
    Json.ReadableMembers int members → ∀ {n : ℕ}, nestingMembers members ≤ n →
    WritesMembers hooks (decodedMembers members) (tokensOfMembers true members) n
  | [], _, _, _ => .nil
  | [(key, x)], h, _, hn => by
      have hx := writes_tokensOf hr h.1 ((le_max_left _ _).trans hn)
      simpa [tokensOfMembers, decodedMembers] using WritesMembers.one (k := .text key) hx
  | (key, x) :: (key', y) :: members, h, _, hn => by
      have hx := writes_tokensOf hr h.1 ((le_max_left _ _).trans hn)
      have hms : Json.ReadableMembers int ((key', y) :: members) := h.2
      have hrest := writes_tokensOfMembers hr hms ((le_max_right _ _).trans hn)
      simpa [tokensOfMembers, decodedMembers] using WritesMembers.cons (k := .text key) hx hrest
        (by simp [decodedMembers])

end

/-- **The text of a tree is read back.** -/
theorem decode_dump (hr : ReadsTrees hooks int) {t : Json} (h : t.Readable int)
    (hdepth : nesting t ≤ hooks.maxDepth) :
    decode hooks t.dump = .ok t.decoded := by
  have hlex : lex t.dump = tokensOf t := by
    have hall := lexesValue_dump t [] (by simp [EndsNumber])
    have hnil : lex [] = [] := rfl
    rwa [List.append_nil, hnil, List.append_nil] at hall
  refine decode_of_writes ?_ hdepth
  rw [hlex]
  exact writes_tokensOf hr h le_rfl

end Decode

end JsonReader
