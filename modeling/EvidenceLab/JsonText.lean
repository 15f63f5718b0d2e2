/-
# JSON trees and their compact text

`Json` is the tree of a JSON document and `Json.dump` its compact ASCII text: no
blanks, strings escaped so that only printable ASCII remains, object members in
the order of the tree.  `Json.sortKeys` puts the members of every object into
key order first.

The main result is `Json.dump_injective`: the text determines the tree.  Its proof
never builds a parser for whole documents.  It shows that the texts are
self-delimiting (`Json.dump_append_inj`): two texts followed by something that does
not start with a digit can only agree when both the trees and the rests agree.
-/
import Mathlib

/-- A JSON document. -/
inductive Json where
  | null
  | bool (b : Bool)
  | int (i : ℤ)
  | str (s : String)
  | arr (xs : List Json)
  | obj (members : List (String × Json))
  deriving Repr, Inhabited

namespace Json

/-! ## Text of the scalars -/

/-- The text of an integer. -/
def intText (i : ℤ) : List Char :=
  if i < 0 then '-' :: Nat.toDigits 10 i.natAbs else Nat.toDigits 10 i.natAbs

/-- A UTF-16 unit as `\uXXXX`, lower case. -/
def unicodeEscape (n : ℕ) : List Char :=
  ['\\', 'u', Nat.digitChar (n / 4096 % 16), Nat.digitChar (n / 256 % 16),
    Nat.digitChar (n / 16 % 16), Nat.digitChar (n % 16)]

/-- One character of a string literal, restricted to printable ASCII; characters beyond the
basic plane become a surrogate pair. -/
def escapeChar (c : Char) : List Char :=
  if c = '"' then ['\\', '"']
  else if c = '\\' then ['\\', '\\']
  else if c = '\n' then ['\\', 'n']
  else if c = '\r' then ['\\', 'r']
  else if c = '\t' then ['\\', 't']
  else if c = '\x0c' then ['\\', 'f']
  else if c = '\x08' then ['\\', 'b']
  else if 0x20 ≤ c.toNat ∧ c.toNat ≤ 0x7e then [c]
  else if c.toNat < 0x10000 then unicodeEscape c.toNat
  else unicodeEscape (0xd800 + (c.toNat - 0x10000) / 0x400)
    ++ unicodeEscape (0xdc00 + (c.toNat - 0x10000) % 0x400)

/-- The characters between the quotes of a string literal. -/
def escapeAll (cs : List Char) : List Char := cs.flatMap escapeChar

/-- A string literal. -/
def strText (s : String) : List Char := '"' :: (escapeAll s.toList ++ ['"'])

/-! ## Text of a tree -/

mutual

/-- The compact text of a tree. -/
def dump : Json → List Char
  | .null => ['n', 'u', 'l', 'l']
  | .bool true => ['t', 'r', 'u', 'e']
  | .bool false => ['f', 'a', 'l', 's', 'e']
  | .int i => intText i
  | .str s => strText s
  | .arr xs => '[' :: (dumpItems true xs ++ [']'])
  | .obj members => '{' :: (dumpMembers true members ++ ['}'])

/-- The elements of an array; every element but the first follows a comma. -/
def dumpItems : Bool → List Json → List Char
  | _, [] => []
  | first, x :: xs => (if first then [] else [',']) ++ (dump x ++ dumpItems false xs)

/-- The members of an object, in the given order. -/
def dumpMembers : Bool → List (String × Json) → List Char
  | _, [] => []
  | first, (k, x) :: members =>
    (if first then [] else [',']) ++ (strText k ++ ':' :: (dump x ++ dumpMembers false members))

end

mutual

/-- The members of every object put into key order. -/
def sortKeys : Json → Json
  | .null => .null
  | .bool b => .bool b
  | .int i => .int i
  | .str s => .str s
  | .arr xs => .arr (sortItems xs)
  | .obj members => .obj ((sortMembers members).insertionSort (fun a b => a.1 ≤ b.1))

/-- `sortKeys` on the elements of an array. -/
def sortItems : List Json → List Json
  | [] => []
  | x :: xs => sortKeys x :: sortItems xs

/-- `sortKeys` on the values of an object. -/
def sortMembers : List (String × Json) → List (String × Json)
  | [] => []
  | (k, x) :: members => (k, sortKeys x) :: sortMembers members

end

mutual

/-- Every integer of the tree is below `n` in magnitude. -/
def intsBelow (n : ℕ) : Json → Bool
  | .int i => decide (i.natAbs < n)
  | .arr xs => itemsBelow n xs
  | .obj members => membersBelow n members
  | _ => true

/-- `intsBelow` for the elements of an array. -/
def itemsBelow (n : ℕ) : List Json → Bool
  | [] => true
  | x :: xs => intsBelow n x && itemsBelow n xs

/-- `intsBelow` for the values of an object. -/
def membersBelow (n : ℕ) : List (String × Json) → Bool
  | [] => true
  | (_, x) :: members => intsBelow n x && membersBelow n members

end

/-! ## String literals are self-delimiting -/

/-- The value of a hexadecimal digit. -/
def hexValue (c : Char) : ℕ := if c.toNat < 58 then c.toNat - 48 else c.toNat - 87

theorem hexValue_digitChar : ∀ n < 16, hexValue (Nat.digitChar n) = n := by decide

/-- The UTF-16 unit written by four hexadecimal digits. -/
def hexUnit (a b c d : Char) : ℕ :=
  hexValue a * 4096 + hexValue b * 256 + hexValue c * 16 + hexValue d

/-- Reads back one escaped character. -/
def readChar : List Char → Option (Char × List Char)
  | '\\' :: 'u' :: a :: b :: c :: d :: rest =>
    if 0xd800 ≤ hexUnit a b c d ∧ hexUnit a b c d < 0xdc00 then
      match rest with
      | '\\' :: 'u' :: a' :: b' :: c' :: d' :: rest' =>
        some (Char.ofNat (0x10000 + (hexUnit a b c d - 0xd800) * 0x400
          + (hexUnit a' b' c' d' - 0xdc00)), rest')
      | _ => none
    else some (Char.ofNat (hexUnit a b c d), rest)
  | '\\' :: 'n' :: rest => some ('\n', rest)
  | '\\' :: 'r' :: rest => some ('\r', rest)
  | '\\' :: 't' :: rest => some ('\t', rest)
  | '\\' :: 'f' :: rest => some ('\x0c', rest)
  | '\\' :: 'b' :: rest => some ('\x08', rest)
  | '\\' :: c :: rest => some (c, rest)
  | c :: rest => some (c, rest)
  | [] => none

/-- An escape spells its code unit. -/
theorem hexUnit_unicodeEscape {n : ℕ} (hn : n < 0x10000) :
    hexUnit (Nat.digitChar (n / 4096 % 16)) (Nat.digitChar (n / 256 % 16))
      (Nat.digitChar (n / 16 % 16)) (Nat.digitChar (n % 16)) = n := by
  unfold hexUnit
  rw [hexValue_digitChar _ (by omega), hexValue_digitChar _ (by omega),
    hexValue_digitChar _ (by omega), hexValue_digitChar _ (by omega)]
  omega

/-- `readChar` undoes `escapeChar`, whatever follows. -/
theorem readChar_escapeChar (c : Char) (rest : List Char) :
    readChar (escapeChar c ++ rest) = some (c, rest) := by
  unfold escapeChar
  split_ifs with h1 h2 h3 h4 h5 h6 h7 h8 h9
  · subst h1; rfl
  · subst h2; rfl
  · subst h3; rfl
  · subst h4; rfl
  · subst h5; rfl
  · subst h6; rfl
  · subst h7; rfl
  · rw [List.singleton_append, readChar.eq_def]
    split <;> simp_all
  · -- a character of the basic plane is not a surrogate
    have hsur : ¬ (0xd800 ≤ c.toNat ∧ c.toNat < 0xdc00) := by
      have hvalid := c.valid
      simp only [UInt32.isValidChar, Nat.isValidChar] at hvalid
      have : c.toNat = c.val.toNat := rfl
      omega
    simp only [unicodeEscape, List.cons_append, List.nil_append, readChar]
    rw [hexUnit_unicodeEscape h9, if_neg hsur, Char.ofNat_toNat]
  · have hvalid := c.valid
    simp only [UInt32.isValidChar, Nat.isValidChar] at hvalid
    have hc : c.toNat = c.val.toNat := rfl
    simp only [unicodeEscape, List.cons_append, List.nil_append, readChar]
    rw [hexUnit_unicodeEscape (by omega), hexUnit_unicodeEscape (by omega), if_pos (by omega)]
    have hback : 0x10000 + (0xd800 + (c.toNat - 0x10000) / 0x400 - 0xd800) * 0x400
        + (0xdc00 + (c.toNat - 0x10000) % 0x400 - 0xdc00) = c.toNat := by omega
    rw [hback, Char.ofNat_toNat]

/-- No escaped character starts with the closing quote. -/
theorem escapeChar_ne_quote (c : Char) (rest rest' : List Char) :
    escapeChar c ++ rest ≠ '"' :: rest' := by
  intro h
  have hread := readChar_escapeChar c rest
  rw [h] at hread
  have hc : c = '"' := by
    have : readChar ('"' :: rest') = some ('"', rest') := rfl
    rw [this] at hread
    simp only [Option.some.injEq, Prod.mk.injEq] at hread
    exact hread.1.symm
  subst hc
  simp [escapeChar] at h

/-- A string is known by its escapes up to the closing quote. -/
theorem escapeAll_append_inj {cs cs' rest rest' : List Char}
    (h : escapeAll cs ++ '"' :: rest = escapeAll cs' ++ '"' :: rest') :
    cs = cs' ∧ rest = rest' := by
  induction cs generalizing cs' with
  | nil =>
      cases cs' with
      | nil => simpa [escapeAll] using h
      | cons c' cs' =>
          simp only [escapeAll, List.flatMap_nil, List.nil_append, List.flatMap_cons,
            List.append_assoc] at h
          exact absurd h.symm (escapeChar_ne_quote c' _ _)
  | cons c cs ih =>
      cases cs' with
      | nil =>
          simp only [escapeAll, List.flatMap_nil, List.nil_append, List.flatMap_cons,
            List.append_assoc] at h
          exact absurd h (escapeChar_ne_quote c _ _)
      | cons c' cs' =>
          simp only [escapeAll, List.flatMap_cons, List.append_assoc] at h
          have hread := readChar_escapeChar c (cs.flatMap escapeChar ++ '"' :: rest)
          rw [h, readChar_escapeChar] at hread
          simp only [Option.some.injEq, Prod.mk.injEq] at hread
          obtain ⟨hc, hrest⟩ := hread
          obtain ⟨hcs, hr⟩ := ih hrest.symm
          exact ⟨by rw [hc, hcs], hr⟩

/-- A string literal is determined by any text that starts with it, and so is the rest. -/
theorem strText_append_inj {s s' : String} {rest rest' : List Char}
    (h : strText s ++ rest = strText s' ++ rest') : s = s' ∧ rest = rest' := by
  simp only [strText, List.cons_append, List.append_assoc, List.nil_append, List.cons.injEq,
    true_and] at h
  obtain ⟨hs, hr⟩ := escapeAll_append_inj h
  exact ⟨String.toList_inj.mp hs, hr⟩

/-! ## Trees are self-delimiting -/

/-- What may follow a number without lengthening it. -/
def StopsNumber (rest : List Char) : Prop := ∀ c ∈ rest.head?, c.isDigit = false

theorem stopsNumber_nil : StopsNumber [] := by simp [StopsNumber]

theorem stopsNumber_cons {c : Char} (hc : c.isDigit = false) (rest : List Char) :
    StopsNumber (c :: rest) := by simpa [StopsNumber] using hc

/-- Digits end where the number stops. -/
theorem takeWhile_digits {ds rest : List Char} (hds : ∀ c ∈ ds, c.isDigit = true)
    (hrest : StopsNumber rest) :
    (ds ++ rest).takeWhile Char.isDigit = ds ∧ (ds ++ rest).dropWhile Char.isDigit = rest := by
  induction ds with
  | nil =>
      cases rest with
      | nil => simp
      | cons c rest =>
          have hc : c.isDigit = false := hrest c (by simp)
          simp [hc]
  | cons d ds ih =>
      obtain ⟨ih1, ih2⟩ := ih (fun c hc => hds c (List.mem_cons_of_mem _ hc))
      have hd : d.isDigit = true := hds d List.mem_cons_self
      simp [hd, ih1, ih2]

theorem isDigit_toDigits (n : ℕ) : ∀ c ∈ Nat.toDigits 10 n, c.isDigit = true :=
  fun _ hc => Nat.isDigit_of_mem_toDigits (by norm_num) (by norm_num) hc

/-- A numeral is known by its digits up to where the number stops. -/
theorem toDigits_append_inj {n n' : ℕ} {rest rest' : List Char} (hr : StopsNumber rest)
    (hr' : StopsNumber rest') (h : Nat.toDigits 10 n ++ rest = Nat.toDigits 10 n' ++ rest') :
    n = n' ∧ rest = rest' := by
  obtain ⟨ht, hd⟩ := takeWhile_digits (isDigit_toDigits n) hr
  obtain ⟨ht', hd'⟩ := takeWhile_digits (isDigit_toDigits n') hr'
  have hdig : Nat.toDigits 10 n = Nat.toDigits 10 n' := by rw [← ht, ← ht', h]
  refine ⟨?_, by rw [← hd, ← hd', h]⟩
  rw [← Nat.ofDigitChars_ten_toDigits (n := n), hdig, Nat.ofDigitChars_ten_toDigits]

/-- The first character of a number is the minus sign or a digit. -/
theorem toDigits_head (n : ℕ) : ∃ c cs, Nat.toDigits 10 n = c :: cs ∧ c.isDigit = true := by
  cases h : Nat.toDigits 10 n with
  | nil => exact absurd h Nat.toDigits_ne_nil
  | cons c cs => exact ⟨c, cs, rfl, isDigit_toDigits n c (by rw [h]; exact List.mem_cons_self)⟩

/-- An integer is known by its text up to where the number stops. -/
theorem intText_append_inj {i i' : ℤ} {rest rest' : List Char} (hr : StopsNumber rest)
    (hr' : StopsNumber rest') (h : intText i ++ rest = intText i' ++ rest') :
    i = i' ∧ rest = rest' := by
  have hminus : ∀ (n : ℕ) (r r' : List Char), Nat.toDigits 10 n ++ r ≠ '-' :: r' := by
    intro n r r' heq
    obtain ⟨c, cs, hc, hdig⟩ := toDigits_head n
    rw [hc, List.cons_append, List.cons.injEq] at heq
    rw [heq.1] at hdig
    exact absurd hdig (by decide)
  unfold intText at h
  split_ifs at h with hi hi' hi'
  · rw [List.cons_append, List.cons_append, List.cons.injEq] at h
    obtain ⟨hn, hrest⟩ := toDigits_append_inj hr hr' h.2
    exact ⟨by omega, hrest⟩
  · exact absurd h.symm (hminus _ _ _)
  · exact absurd h (hminus _ _ _)
  · obtain ⟨hn, hrest⟩ := toDigits_append_inj hr hr' h
    exact ⟨by omega, hrest⟩

/-- The constructor of a tree, as a number. -/
def shape : Json → ℕ
  | .null => 0
  | .bool _ => 1
  | .int _ => 2
  | .str _ => 3
  | .arr _ => 4
  | .obj _ => 5

/-- The constructor of a tree, read off the first character of its text. -/
def shapeOfHead (c : Char) : ℕ :=
  if c = 'n' then 0
  else if c = 't' ∨ c = 'f' then 1
  else if c = '"' then 3
  else if c = '[' then 4
  else if c = '{' then 5
  else 2

theorem shapeOfHead_digit {c : Char} (hc : c.isDigit = true) : shapeOfHead c = 2 := by
  have hne : ∀ d : Char, d.isDigit = false → c ≠ d := by
    intro d hd heq
    rw [heq, hd] at hc
    exact absurd hc (by decide)
  simp [shapeOfHead, hne 'n' rfl, hne 't' rfl, hne 'f' rfl, hne '"' rfl, hne '[' rfl, hne '{' rfl]

/-- Every text starts with a character that names its constructor. -/
theorem dump_head (j : Json) : ∃ c cs, dump j = c :: cs ∧ shapeOfHead c = j.shape := by
  cases j with
  | null => exact ⟨_, _, rfl, rfl⟩
  | bool b => cases b <;> exact ⟨_, _, rfl, rfl⟩
  | int i =>
      obtain ⟨c, cs, hc, hdig⟩ := toDigits_head i.natAbs
      rw [dump, intText]
      split_ifs
      · exact ⟨_, _, rfl, rfl⟩
      · exact ⟨c, cs, hc, shapeOfHead_digit hdig⟩
  | str s => exact ⟨_, _, by rw [dump, strText], rfl⟩
  | arr xs => exact ⟨_, _, by rw [dump], rfl⟩
  | obj members => exact ⟨_, _, by rw [dump], rfl⟩

/-- Texts of different shapes differ in their first character. -/
theorem shape_eq_of_dump_append {j j' : Json} {rest rest' : List Char}
    (h : dump j ++ rest = dump j' ++ rest') : j.shape = j'.shape := by
  obtain ⟨c, cs, hc, hs⟩ := dump_head j
  obtain ⟨c', cs', hc', hs'⟩ := dump_head j'
  rw [hc, hc', List.cons_append, List.cons_append, List.cons.injEq] at h
  rw [← hs, ← hs', h.1]

/-- A closing bracket never starts a text. -/
theorem dump_append_ne_close (j : Json) (rest rest' : List Char) {c : Char}
    (hc : shapeOfHead c = 2) (hd : c.isDigit = false) (hm : c ≠ '-') :
    dump j ++ rest ≠ c :: rest' := by
  intro h
  cases j with
  | int i =>
      obtain ⟨d, ds, hds, hdig⟩ := toDigits_head i.natAbs
      rw [dump, intText] at h
      split_ifs at h
      · rw [List.cons_append, List.cons.injEq] at h
        exact hm h.1.symm
      · rw [hds, List.cons_append, List.cons.injEq] at h
        rw [h.1, hd] at hdig
        exact absurd hdig (by decide)
  | bool b =>
      cases b <;> simp only [dump, List.cons_append, List.cons.injEq] at h <;>
        rw [← h.1] at hc <;> exact absurd hc (by decide)
  | _ =>
      simp only [dump, strText, List.cons_append, List.cons.injEq] at h
      rw [← h.1] at hc
      exact absurd hc (by decide)

/-- Brackets and commas end a number. -/
theorem stopsNumber_close (rest : List Char) :
    StopsNumber (']' :: rest) ∧ StopsNumber ('}' :: rest) ∧ StopsNumber (',' :: rest) :=
  ⟨stopsNumber_cons rfl rest, stopsNumber_cons rfl rest, stopsNumber_cons rfl rest⟩

theorem stopsNumber_items (xs : List Json) (rest : List Char) :
    StopsNumber (dumpItems false xs ++ ']' :: rest) := by
  cases xs with
  | nil => simpa [dumpItems] using (stopsNumber_close rest).1
  | cons x xs => simpa [dumpItems] using (stopsNumber_close _).2.2

theorem stopsNumber_members (ms : List (String × Json)) (rest : List Char) :
    StopsNumber (dumpMembers false ms ++ '}' :: rest) := by
  cases ms with
  | nil => simpa [dumpMembers] using (stopsNumber_close rest).2.1
  | cons m ms => simpa [dumpMembers] using (stopsNumber_close _).2.2

mutual

/-- **Texts are self-delimiting**: followed by something that cannot lengthen a number, a text
determines its tree and its rest. -/
theorem dump_append_inj : ∀ (j j' : Json) (rest rest' : List Char), StopsNumber rest →
    StopsNumber rest' → dump j ++ rest = dump j' ++ rest' → j = j' ∧ rest = rest'
  | .null, j', rest, rest', _, _, h => by
      have hs := shape_eq_of_dump_append h
      cases j' with
      | null => simpa [dump] using h
      | _ => simp [shape] at hs
  | .bool b, j', rest, rest', _, _, h => by
      have hs := shape_eq_of_dump_append h
      cases j' with
      | bool b' => cases b <;> cases b' <;> simp_all [dump]
      | _ => simp [shape] at hs
  -- what follows the numerals decides where they end
  | .int i, j', rest, rest', hr, hr', h => by
      have hs := shape_eq_of_dump_append h
      cases j' with
      | int i' =>
          rw [dump, dump] at h
          obtain ⟨hi, hrest⟩ := intText_append_inj hr hr' h
          exact ⟨by rw [hi], hrest⟩
      | _ => simp [shape] at hs
  | .str s, j', rest, rest', _, _, h => by
      have hs := shape_eq_of_dump_append h
      cases j' with
      | str s' =>
          rw [dump, dump] at h
          obtain ⟨hstr, hrest⟩ := strText_append_inj h
          exact ⟨by rw [hstr], hrest⟩
      | _ => simp [shape] at hs
  | .arr xs, j', rest, rest', _, _, h => by
      have hs := shape_eq_of_dump_append h
      cases j' with
      | arr xs' =>
          simp only [dump, List.cons_append, List.append_assoc, List.nil_append, List.cons.injEq,
            true_and] at h
          obtain ⟨hxs, hrest⟩ := dumpItems_append_inj true xs xs' rest rest' h
          exact ⟨by rw [hxs], hrest⟩
      | _ => simp [shape] at hs
  | .obj ms, j', rest, rest', _, _, h => by
      have hs := shape_eq_of_dump_append h
      cases j' with
      | obj ms' =>
          simp only [dump, List.cons_append, List.append_assoc, List.nil_append, List.cons.injEq,
            true_and] at h
          obtain ⟨hms, hrest⟩ := dumpMembers_append_inj true ms ms' rest rest' h
          exact ⟨by rw [hms], hrest⟩
      | _ => simp [shape] at hs

/-- `dump_append_inj` for the elements of an array up to its closing bracket. -/
theorem dumpItems_append_inj : ∀ (first : Bool) (xs xs' : List Json) (rest rest' : List Char),
    dumpItems first xs ++ ']' :: rest = dumpItems first xs' ++ ']' :: rest' →
      xs = xs' ∧ rest = rest'
  | _, [], [], rest, rest', h => by simpa [dumpItems] using h
  | first, [], x' :: xs', rest, rest', h => by
      cases first
      · simp [dumpItems] at h
      · simp only [dumpItems, List.nil_append, if_true, List.append_assoc] at h
        exact absurd h.symm (dump_append_ne_close x' _ _ rfl rfl (by decide))
  | first, x :: xs, [], rest, rest', h => by
      cases first
      · simp [dumpItems] at h
      · simp only [dumpItems, List.nil_append, if_true, List.append_assoc] at h
        exact absurd h (dump_append_ne_close x _ _ rfl rfl (by decide))
  | first, x :: xs, x' :: xs', rest, rest', h => by
      simp only [dumpItems, List.append_assoc, List.append_cancel_left_eq] at h
      obtain ⟨hx, hrest⟩ := dump_append_inj x x' _ _ (stopsNumber_items xs rest)
        (stopsNumber_items xs' rest') h
      obtain ⟨hxs, hr⟩ := dumpItems_append_inj false xs xs' rest rest' hrest
      exact ⟨by rw [hx, hxs], hr⟩

/-- `dump_append_inj` for the members of an object up to its closing brace. -/
theorem dumpMembers_append_inj : ∀ (first : Bool) (ms ms' : List (String × Json))
    (rest rest' : List Char),
    dumpMembers first ms ++ '}' :: rest = dumpMembers first ms' ++ '}' :: rest' →
      ms = ms' ∧ rest = rest'
  | _, [], [], rest, rest', h => by simpa [dumpMembers] using h
  | first, [], (k', x') :: ms', rest, rest', h => by
      cases first <;> simp [dumpMembers, strText] at h
  | first, (k, x) :: ms, [], rest, rest', h => by
      cases first <;> simp [dumpMembers, strText] at h
  | first, (k, x) :: ms, (k', x') :: ms', rest, rest', h => by
      simp only [dumpMembers, List.append_assoc, List.append_cancel_left_eq,
        List.cons_append] at h
      obtain ⟨hk, hx⟩ := strText_append_inj h
      rw [List.cons.injEq] at hx
      obtain ⟨hx, hrest⟩ := dump_append_inj x x' _ _ (stopsNumber_members ms rest)
        (stopsNumber_members ms' rest') hx.2
      obtain ⟨hms, hr⟩ := dumpMembers_append_inj false ms ms' rest rest' hrest
      exact ⟨by rw [hk, hx, hms], hr⟩

end

/-- **The text determines the tree.** -/
theorem dump_injective : Function.Injective dump := by
  intro j j' h
  have h' : dump j ++ [] = dump j' ++ [] := by rw [h]
  exact (dump_append_inj j j' [] [] stopsNumber_nil stopsNumber_nil h').1

/-! ## Sorting the members of objects -/

theorem sortMembers_eq_map (ms : List (String × Json)) :
    sortMembers ms = ms.map (fun m => (m.1, sortKeys m.2)) := by
  induction ms with
  | nil => rfl
  | cons m ms ih => rw [sortMembers, ih, List.map_cons]

/-- Sorting inside keeps the keys. -/
theorem keys_sortMembers (ms : List (String × Json)) :
    (sortMembers ms).map Prod.fst = ms.map Prod.fst := by
  rw [sortMembers_eq_map, List.map_map]
  rfl

/-- Members with distinct keys have one sorted form exactly up to their order. -/
theorem insertionSort_eq_iff_perm {ms ms' : List (String × Json)} (h : (ms.map Prod.fst).Nodup) :
    ms.insertionSort (fun a b => a.1 ≤ b.1) = ms'.insertionSort (fun a b => a.1 ≤ b.1)
      ↔ ms.Perm ms' := by
  have hsort : ∀ l : List (String × Json),
      (l.insertionSort (fun a b => a.1 ≤ b.1)).Pairwise (fun a b => a.1 ≤ b.1) := by
    intro l
    have : Std.Total (fun a b : String × Json => a.1 ≤ b.1) := ⟨fun a b => le_total a.1 b.1⟩
    have : IsTrans (String × Json) (fun a b => a.1 ≤ b.1) := ⟨fun a b c => le_trans⟩
    exact List.pairwise_insertionSort _ l
  constructor
  · intro heq
    exact (List.perm_insertionSort _ ms).symm.trans (heq ▸ List.perm_insertionSort _ ms')
  · intro hperm
    have hperm' := (List.perm_insertionSort (fun a b => a.1 ≤ b.1) ms).trans
      (hperm.trans (List.perm_insertionSort (fun a b => a.1 ≤ b.1) ms').symm)
    refine hperm'.eq_of_pairwise ?_ (hsort ms) (hsort ms')
    intro a b ha hb hab hba
    have ha' := (List.perm_insertionSort _ ms).mem_iff.mp ha
    have hb' := hperm.mem_iff.mpr ((List.perm_insertionSort _ ms').mem_iff.mp hb)
    exact List.inj_on_of_nodup_map h ha' hb' (le_antisymm hab hba)

/-- Objects sort alike if their sorted members are permutations of each other. -/
theorem sortKeys_obj_eq_iff {ms ms' : List (String × Json)} (h : (ms.map Prod.fst).Nodup) :
    sortKeys (.obj ms) = sortKeys (.obj ms') ↔ (sortMembers ms).Perm (sortMembers ms') := by
  rw [sortKeys, sortKeys, Json.obj.injEq]
  exact insertionSort_eq_iff_perm (by rw [keys_sortMembers]; exact h)

end Json
