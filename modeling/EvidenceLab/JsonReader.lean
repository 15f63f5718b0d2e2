/-
# Reading JSON

`json.JSONDecoder` as a lexer and a machine with a stack that takes the tokens one by one, so that
the first offending token decides the error.  `Hooks` are the parameters of the decoder: what
becomes of numbers, constants and the members of an object, and the errors.

Writers are verified through the tokens: `Lexes text tokens` says that a text gives these tokens in
front of anything, and `run_value` that the tokens of a value build the value.  Blanks between
tokens change nothing (`lex_blank`).
-/
import EvidenceLab.ExceptRules
import EvidenceLab.JsonText
import EvidenceLab.PyJson

/-! ## Texts of code units -/

namespace PyStr

def isHigh (n : ℕ) : Bool := 0xd800 ≤ n && n ≤ 0xdbff

def isLow (n : ℕ) : Bool := 0xdc00 ≤ n && n ≤ 0xdfff

/-- A high surrogate that a low one follows is one character. -/
def joinPairs : List ℕ → List ℕ
  | [] => []
  | [n] => [n]
  | n :: m :: rest =>
    if isHigh n && isLow m then (0x10000 + (n - 0xd800) * 0x400 + (m - 0xdc00)) :: joinPairs rest
    else n :: joinPairs (m :: rest)

/-- The text of some code points. -/
def ofPoints (points : List ℕ) : PyStr :=
  if points.all (fun n => decide n.isValidChar) then .text (String.ofList (points.map Char.ofNat))
    else .lone points

/-- The text of some code units. -/
def ofUnits (units : List ℕ) : PyStr := ofPoints (joinPairs units)

/-- No character is the first half of a surrogate pair. -/
theorem not_isHigh (c : Char) : isHigh c.toNat = false := by
  have := c.valid
  simp only [UInt32.isValidChar, Nat.isValidChar] at this
  simp only [isHigh, Bool.and_eq_false_iff, decide_eq_false_iff_not, Char.toNat]
  omega

/-- Characters pass the joining of surrogate pairs unchanged. -/
theorem joinPairs_chars (cs : List Char) : joinPairs (cs.map Char.toNat) = cs.map Char.toNat := by
  induction cs with
  | nil => rfl
  | cons c cs ih =>
      cases cs with
      | nil => rfl
      | cons d cs =>
          rw [List.map_cons, List.map_cons, joinPairs, not_isHigh, Bool.false_and, if_neg (by simp),
            ← List.map_cons, ih]

/-- The code units of characters are their text. -/
theorem ofUnits_chars (cs : List Char) :
    ofUnits (cs.map Char.toNat) = .text (String.ofList cs) := by
  rw [ofUnits, joinPairs_chars, ofPoints, if_pos, List.map_map]
  · congr 2
    exact (List.map_congr_left fun c _ => Char.ofNat_toNat c).trans (List.map_id cs)
  · rw [List.all_map, List.all_eq_true]
    intro c _
    exact decide_eq_true c.valid

end PyStr

namespace JsonReader

/-! ## Tokens -/

inductive Token where
  | openObj
  | closeObj
  | openArr
  | closeArr
  | comma
  | colon
  | str (s : PyStr)
  | int (literal : List Char)
  | float (literal : List Char)
  | constant (name : String)
  | null
  | bool (b : Bool)
  | bad
  deriving DecidableEq

/-- The blanks of JSON. -/
def isBlank (c : Char) : Bool := c == ' ' || c == '\t' || c == '\n' || c == '\r'

/-- The value of a hexadecimal digit of either case. -/
def hexDigit? (c : Char) : Option ℕ :=
  if c.isDigit then some (c.toNat - 48)
  else if 'a' ≤ c ∧ c ≤ 'f' then some (c.toNat - 87)
  else if 'A' ≤ c ∧ c ≤ 'F' then some (c.toNat - 55)
  else none

/-- The unit of an escape of one character. -/
def escapeUnit? (c : Char) : Option ℕ :=
  if c = '"' then some 0x22
  else if c = '\\' then some 0x5c
  else if c = '/' then some 0x2f
  else if c = 'b' then some 0x08
  else if c = 'f' then some 0x0c
  else if c = 'n' then some 0x0a
  else if c = 'r' then some 0x0d
  else if c = 't' then some 0x09
  else none

/-- The code units of a string literal after its opening quote, and what follows the closing one. -/
def scanUnits : List Char → Option (List ℕ × List Char)
  | [] => none
  | c :: rest =>
    if c = '"' then some ([], rest)
    else if c = '\\' then
      match rest with
      | 'u' :: a :: b :: d :: e :: rest => do
          let a ← hexDigit? a
          let b ← hexDigit? b
          let d ← hexDigit? d
          let e ← hexDigit? e
          let (units, rest) ← scanUnits rest
          return ((a * 4096 + b * 256 + d * 16 + e) :: units, rest)
      | e :: rest => do
          let unit ← escapeUnit? e
          let (units, rest) ← scanUnits rest
          return (unit :: units, rest)
      | [] => none
    else if c.toNat < 0x20 then none
    else do
      let (units, rest) ← scanUnits rest
      return (c.toNat :: units, rest)

/-- The fraction of a number, if one stands here. -/
def scanFraction (cs : List Char) : List Char × List Char :=
  match cs with
  | '.' :: rest =>
    if rest.takeWhile Char.isDigit = [] then ([], cs)
    else ('.' :: rest.takeWhile Char.isDigit, rest.dropWhile Char.isDigit)
  | _ => ([], cs)

/-- The sign of an exponent. -/
def scanSign (cs : List Char) : List Char × List Char :=
  match cs with
  | '+' :: rest => (['+'], rest)
  | '-' :: rest => (['-'], rest)
  | _ => ([], cs)

/-- The exponent of a number, if one stands here. -/
def scanExponent (cs : List Char) : List Char × List Char :=
  match cs with
  | c :: rest =>
    let (sign, digits) := scanSign rest
    if (c = 'e' ∨ c = 'E') ∧ digits.takeWhile Char.isDigit ≠ [] then
      (c :: sign ++ digits.takeWhile Char.isDigit, digits.dropWhile Char.isDigit)
    else ([], cs)
  | _ => ([], cs)

/-- The digits before the fraction: a lone zero, or digits that do not start with one. -/
def scanInteger (cs : List Char) : Option (List Char × List Char) :=
  match cs with
  | '0' :: rest => some (['0'], rest)
  | c :: _ => if c.isDigit then some (cs.takeWhile Char.isDigit, cs.dropWhile Char.isDigit)
      else none
  | [] => none

/-- A number after its sign. -/
def scanNumber (sign cs : List Char) : Option (Token × List Char) := do
  let (digits, rest) ← scanInteger cs
  let (fraction, rest) := scanFraction rest
  let (exponent, rest) := scanExponent rest
  let literal := sign ++ digits ++ fraction ++ exponent
  return (if fraction = [] ∧ exponent = [] then .int literal else .float literal, rest)

/-- The words of JSON, and those that Python adds. -/
def words : List (String × Token) :=
  [("null", .null), ("true", .bool true), ("false", .bool false), ("NaN", .constant "NaN"),
    ("Infinity", .constant "Infinity"), ("-Infinity", .constant "-Infinity")]

/-- The word that stands here. -/
def scanWord (cs : List Char) : Option (Token × List Char) :=
  (words.find? fun w => w.1.toList.isPrefixOf cs).map fun w => (w.2, cs.drop w.1.toList.length)

/-- The token at the head of a text that starts with no blank. -/
def scanToken (c : Char) (rest : List Char) : Option (Token × List Char) :=
  if c = '{' then some (.openObj, rest)
  else if c = '}' then some (.closeObj, rest)
  else if c = '[' then some (.openArr, rest)
  else if c = ']' then some (.closeArr, rest)
  else if c = ',' then some (.comma, rest)
  else if c = ':' then some (.colon, rest)
  else if c = '"' then (scanUnits rest).map fun u => (.str (.ofUnits u.1), u.2)
  else if c.isDigit then scanNumber [] (c :: rest)
  else match scanWord (c :: rest) with
    | some t => some t
    | none => if c = '-' then scanNumber ['-'] rest else none

/-- The tokens of a text, in at most so many steps; what is no token ends them with `bad`. -/
def lexFrom : ℕ → List Char → List Token
  | 0, _ => []
  | _ + 1, [] => []
  | n + 1, c :: rest =>
    if isBlank c then lexFrom n rest
    else match scanToken c rest with
      | some (t, rest) => t :: lexFrom n rest
      | none => [.bad]

/-- The tokens of a text. -/
def lex (cs : List Char) : List Token := lexFrom cs.length cs

/-! ## Scanning shortens the text -/

/-- Reading a string consumes at least its closing quote. -/
theorem length_of_scanUnits {cs : List Char} : ∀ {u : List ℕ × List Char}, scanUnits cs = some u →
    u.2.length < cs.length := by
  fun_induction scanUnits cs with
  | case1 => simp
  | case2 rest =>
      rintro u ⟨⟩
      simp
  | case3 hq a b d e rest' ih =>
      intro u h
      simp only [bind, Option.bind_eq_some_iff, pure, Option.some.injEq] at h
      obtain ⟨_, -, _, -, _, -, _, -, v, hv, rfl⟩ := h
      have := ih hv
      simp only [List.length_cons] at this ⊢
      omega
  | case4 hq e rest' hne ih =>
      intro u h
      simp only [bind, Option.bind_eq_some_iff, pure, Option.some.injEq] at h
      obtain ⟨_, -, v, hv, rfl⟩ := h
      have := ih hv
      simp only [List.length_cons] at this ⊢
      omega
  | case5 => simp
  | case6 => simp
  | case7 c rest hq hb hc ih =>
      intro u h
      simp only [bind, Option.bind_eq_some_iff, pure, Option.some.injEq] at h
      obtain ⟨v, hv, rfl⟩ := h
      have := ih hv
      simp only [List.length_cons] at this ⊢
      omega

theorem length_scanFraction (cs : List Char) : (scanFraction cs).2.length ≤ cs.length := by
  unfold scanFraction
  split
  · split
    · exact le_rfl
    · exact (List.dropWhile_sublist _).length_le.trans (by simp)
  · exact le_rfl

theorem length_scanSign (cs : List Char) : (scanSign cs).2.length ≤ cs.length := by
  unfold scanSign
  split <;> simp

theorem length_scanExponent (cs : List Char) : (scanExponent cs).2.length ≤ cs.length := by
  unfold scanExponent
  split
  · rename_i c rest
    dsimp only
    split
    · have := length_scanSign rest
      have := (List.dropWhile_sublist Char.isDigit (l := (scanSign rest).2)).length_le
      simp only [List.length_cons]
      omega
    · exact le_rfl
  · exact le_rfl

/-- Reading an integer consumes at least a digit. -/
theorem length_of_scanInteger {cs : List Char} {u : List Char × List Char}
    (h : scanInteger cs = some u) :
    u.2.length < cs.length := by
  unfold scanInteger at h
  split at h
  · cases h
    simp
  · rename_i c rest hc
    split_ifs at h with hd
    cases h
    have := (List.dropWhile_sublist Char.isDigit (l := rest)).length_le
    simp only [List.dropWhile_cons_of_pos hd, List.length_cons]
    omega
  · cases h

/-- Reading a number consumes at least a digit. -/
theorem length_of_scanNumber {sign cs : List Char} {u : Token × List Char}
    (h : scanNumber sign cs = some u) :
    u.2.length < cs.length := by
  simp only [scanNumber, bind, Option.bind_eq_some_iff, pure, Option.some.injEq] at h
  obtain ⟨d, hd, rfl⟩ := h
  have h1 := length_of_scanInteger hd
  have h2 := length_scanFraction d.2
  have h3 := length_scanExponent (scanFraction d.2).2
  simp only
  omega

theorem length_of_scanWord {c : Char} {rest : List Char} {u : Token × List Char}
    (h : scanWord (c :: rest) = some u) : u.2.length ≤ rest.length := by
  simp only [scanWord, Option.map_eq_some_iff] at h
  obtain ⟨w, hw, rfl⟩ := h
  have hmem := List.mem_of_find?_eq_some hw
  have hpos : ∀ w ∈ words, 0 < w.1.toList.length := by decide
  have := hpos w hmem
  simp only [List.length_drop, List.length_cons]
  omega

/-- Reading a token never gives text back. -/
theorem length_of_scanToken {c : Char} {rest : List Char} {u : Token × List Char}
    (h : scanToken c rest = some u) : u.2.length ≤ rest.length := by
  unfold scanToken at h
  split_ifs at h
  · cases h; exact le_rfl
  · cases h; exact le_rfl
  · cases h; exact le_rfl
  · cases h; exact le_rfl
  · cases h; exact le_rfl
  · cases h; exact le_rfl
  · obtain ⟨v, hv, rfl⟩ := Option.map_eq_some_iff.mp h
    exact (length_of_scanUnits hv).le
  · have := length_of_scanNumber h
    simp only [List.length_cons] at this
    omega
  · cases hw : scanWord (c :: rest) with
    | some t =>
        rw [hw] at h
        cases h
        exact length_of_scanWord hw
    | none =>
        rw [hw] at h
        exact (length_of_scanNumber h).le
  · cases hw : scanWord (c :: rest) with
    | some t =>
        rw [hw] at h
        cases h
        exact length_of_scanWord hw
    | none =>
        rw [hw] at h
        cases h

/-- More steps than characters find nothing more. -/
theorem lexFrom_eq_lex : ∀ {n : ℕ} {cs : List Char}, cs.length ≤ n → lexFrom n cs = lex cs := by
  suffices key : ∀ (n m : ℕ) (cs : List Char), cs.length ≤ n → cs.length ≤ m →
      lexFrom n cs = lexFrom m cs from
    fun {n cs} h => key n cs.length cs h le_rfl
  intro n
  induction n with
  | zero =>
      intro m cs hn _
      obtain rfl := List.length_eq_zero_iff.mp (Nat.le_zero.mp hn)
      cases m <;> rfl
  | succ n ih =>
      intro m cs hn hm
      cases cs with
      | nil => cases m <;> rfl
      | cons c rest =>
          obtain ⟨m, rfl⟩ : ∃ k, m = k + 1 := ⟨m - 1, by simp only [List.length_cons] at hm; omega⟩
          simp only [List.length_cons, Nat.add_le_add_iff_right] at hn hm
          rw [lexFrom, lexFrom]
          split
          · exact ih m rest hn hm
          · cases ht : scanToken c rest with
            | none => rfl
            | some u =>
                have := length_of_scanToken ht
                simp only
                rw [ih m u.2 (by omega) (by omega)]

/-! ## Equations of the lexer -/

@[simp] theorem lex_nil : lex [] = [] := rfl

/-- **Blanks between tokens change nothing.** -/
theorem lex_blank {c : Char} (hc : isBlank c = true) (rest : List Char) :
    lex (c :: rest) = lex rest := by
  rw [lex, List.length_cons, lexFrom, if_pos hc]
  rfl

/-- A token is read off the front of the text. -/
theorem lex_token {c : Char} {rest rest' : List Char} {t : Token} (hc : isBlank c = false)
    (ht : scanToken c rest = some (t, rest')) : lex (c :: rest) = t :: lex rest' := by
  have hlen : rest'.length ≤ rest.length := length_of_scanToken ht
  rw [lex, List.length_cons, lexFrom, if_neg (by simp [hc]), ht]
  simp only
  rw [lexFrom_eq_lex hlen]

/-! ## The decoder -/

/-- The parameters of a decoder: the hooks of `json.JSONDecoder` and the errors. -/
structure Hooks (ε : Type) where
  int : List Char → Except ε PyJson
  float : List Char → Except ε PyJson
  constant : String → Except ε PyJson
  pairs : List (PyStr × PyJson) → Except ε PyJson
  malformed : ε
  tooDeep : ε
  maxDepth : ℕ

/-- A container that is being read: the items or members so far, and the key whose value comes. -/
inductive Frame where
  | arr (items : List PyJson)
  | obj (members : List (PyStr × PyJson)) (key : PyStr)

/-- What may come next. -/
inductive Phase where
  | value
  | firstItem
  | nextItem (items : List PyJson)
  | firstKey
  | key (members : List (PyStr × PyJson))
  | colon (members : List (PyStr × PyJson)) (key : PyStr)
  | nextMember (members : List (PyStr × PyJson))
  | done (v : PyJson)

structure State where
  stack : List Frame
  phase : Phase

/-- The state after a value. -/
def complete (v : PyJson) : List Frame → State
  | [] => ⟨[], .done v⟩
  | .arr items :: stack => ⟨stack, .nextItem (items ++ [v])⟩
  | .obj members key :: stack => ⟨stack, .nextMember (members ++ [(key, v)])⟩

variable {ε : Type} (hooks : Hooks ε)

/-- A container begins; the stack of the interpreter bounds the nesting. -/
def openContainer (stack : List Frame) (phase : Phase) : Except ε State :=
  if hooks.maxDepth ≤ stack.length then .error hooks.tooDeep else .ok ⟨stack, phase⟩

/-- A value begins with a token. -/
def beginValue (stack : List Frame) : Token → Except ε State
  | .null => .ok (complete .null stack)
  | .bool b => .ok (complete (.bool b) stack)
  | .str s => .ok (complete (.str s) stack)
  | .int literal => do return complete (← hooks.int literal) stack
  | .float literal => do return complete (← hooks.float literal) stack
  | .constant name => do return complete (← hooks.constant name) stack
  | .openArr => openContainer hooks stack .firstItem
  | .openObj => openContainer hooks stack .firstKey
  | _ => .error hooks.malformed

/-- One token. -/
def step (st : State) (t : Token) : Except ε State :=
  match st.phase, t with
  | .value, t => beginValue hooks st.stack t
  | .firstItem, .closeArr => .ok (complete (.arr []) st.stack)
  | .firstItem, t => beginValue hooks (.arr [] :: st.stack) t
  | .nextItem items, .comma => .ok ⟨.arr items :: st.stack, .value⟩
  | .nextItem items, .closeArr => .ok (complete (.arr items) st.stack)
  | .firstKey, .closeObj => do return complete (← hooks.pairs []) st.stack
  | .firstKey, .str key => .ok ⟨st.stack, .colon [] key⟩
  | .key members, .str key => .ok ⟨st.stack, .colon members key⟩
  | .colon members key, .colon => .ok ⟨.obj members key :: st.stack, .value⟩
  | .nextMember members, .comma => .ok ⟨st.stack, .key members⟩
  | .nextMember members, .closeObj => do return complete (← hooks.pairs members) st.stack
  | _, _ => .error hooks.malformed

/-- The value of a finished text. -/
def finish (st : State) : Except ε PyJson :=
  match st.phase with
  | .done v => .ok v
  | _ => .error hooks.malformed

/-- The run over some tokens. -/
def run (st : State) (tokens : List Token) : Except ε State := tokens.foldlM (step hooks) st

/-- `decoder.decode(text)`. -/
def decode (text : List Char) : Except ε PyJson := do
  finish hooks (← run hooks ⟨[], .value⟩ (lex text))

/-- Tokens are run in two parts. -/
theorem run_append (st : State) (ts ts' : List Token) :
    run hooks st (ts ++ ts') = run hooks st ts >>= fun st => run hooks st ts' := List.foldlM_append

theorem run_cons (st : State) (t : Token) (ts : List Token) :
    run hooks st (t :: ts) = step hooks st t >>= fun st => run hooks st ts := List.foldlM_cons

/-! ## Tokens that build a value -/

mutual

/-- The tokens write a value, its members in any layout of the numbers. -/
inductive Writes : PyJson → List Token → ℕ → Prop
  | null {n} : Writes .null [.null] n
  | bool {b n} : Writes (.bool b) [.bool b] n
  | str {s n} : Writes (.str s) [.str s] n
  | int {v literal n} (h : hooks.int literal = .ok v) : Writes v [.int literal] n
  | float {v literal n} (h : hooks.float literal = .ok v) : Writes v [.float literal] n
  | arr {items ts n} (h : WritesItems items ts n) :
      Writes (.arr items) (.openArr :: ts ++ [.closeArr]) (n + 1)
  | obj {members v ts n} (h : WritesMembers members ts n) (hv : hooks.pairs members = .ok v) :
      Writes v (.openObj :: ts ++ [.closeObj]) (n + 1)

inductive WritesItems : List PyJson → List Token → ℕ → Prop
  | nil {n} : WritesItems [] [] n
  | one {v ts n} (h : Writes v ts n) : WritesItems [v] ts n
  | cons {v vs ts ts' n} (h : Writes v ts n) (hs : WritesItems vs ts' n) (hne : vs ≠ []) :
      WritesItems (v :: vs) (ts ++ .comma :: ts') n

inductive WritesMembers : List (PyStr × PyJson) → List Token → ℕ → Prop
  | nil {n} : WritesMembers [] [] n
  | one {k v ts n} (h : Writes v ts n) : WritesMembers [(k, v)] (.str k :: .colon :: ts) n
  | cons {k v vs ts ts' n} (h : Writes v ts n) (hs : WritesMembers vs ts' n) (hne : vs ≠ []) :
      WritesMembers ((k, v) :: vs) (.str k :: .colon :: ts ++ .comma :: ts') n

end

theorem step_value (stack : List Frame) (t : Token) :
    step hooks ⟨stack, .value⟩ t = beginValue hooks stack t := rfl

theorem step_firstKey_close (stack : List Frame) :
    step hooks ⟨stack, .firstKey⟩ .closeObj = (do return complete (← hooks.pairs []) stack) := rfl

theorem step_nextMember_close (stack : List Frame) (members : List (PyStr × PyJson)) :
    step hooks ⟨stack, .nextMember members⟩ .closeObj
    = (do return complete (← hooks.pairs members) stack) := rfl

variable {hooks}

/-- A value starts with no closing bracket, and starts alike as a first item. -/
theorem Writes.head {v : PyJson} {ts : List Token} {n : ℕ} (h : Writes hooks v ts n)
    (stack : List Frame) :
    ∃ t ts', ts = t :: ts' ∧ step hooks ⟨stack, .firstItem⟩ t
    = step hooks ⟨.arr [] :: stack, .value⟩ t := by
  cases h <;> exact ⟨_, _, rfl, rfl⟩

/-- The first item of an array is read like a value. -/
theorem run_firstItem {v : PyJson} {ts rest : List Token} {n : ℕ} (h : Writes hooks v ts n)
    (stack : List Frame) :
    run hooks ⟨stack, .firstItem⟩ (ts ++ rest)
    = run hooks ⟨.arr [] :: stack, .value⟩ (ts ++ rest) := by
  obtain ⟨t, ts', rfl, hstep⟩ := h.head stack
  rw [List.cons_append, run_cons, run_cons, hstep]

mutual

/-- **The tokens of a value build it**, wherever a value may come. -/
theorem run_value : ∀ {v : PyJson} {ts : List Token} {n : ℕ}, Writes hooks v ts n →
    ∀ stack : List Frame,
    stack.length + n ≤ hooks.maxDepth → run hooks ⟨stack, .value⟩ ts = .ok (complete v stack)
  | _, _, _, .null, _, _ => rfl
  | _, _, _, .bool, _, _ => rfl
  | _, _, _, .str, _, _ => rfl
  | _, _, _, .int h, stack, _ => by
      rw [run_cons, step_value, beginValue, h]
      rfl
  | _, _, _, .float h, stack, _ => by
      rw [run_cons, step_value, beginValue, h]
      rfl
  | _, _, _, @Writes.arr _ _ items ts n h, stack, hdepth => by
      have hopen : step hooks ⟨stack, .value⟩ .openArr = .ok ⟨stack, .firstItem⟩ := by
        rw [step_value, beginValue, openContainer, if_neg (by omega)]
      rw [List.cons_append, run_cons, hopen, Except.ok_bind]
      cases items with
      | nil =>
          cases h
          rfl
      | cons v vs =>
          have hrun := run_items h (by simp) [] stack (by omega)
          have hfirst : run hooks ⟨stack, .firstItem⟩ (ts ++ [.closeArr])
              = run hooks ⟨.arr [] :: stack, .value⟩ (ts ++ [.closeArr]) := by
            cases h with
            | one hv => exact run_firstItem hv stack
            | cons hv hs hne =>
                rw [List.append_assoc]
                exact run_firstItem hv stack
          rw [hfirst, run_append, hrun, Except.ok_bind]
          rfl
  | _, _, _, @Writes.obj _ _ members v ts n h hv, stack, hdepth => by
      have hopen : step hooks ⟨stack, .value⟩ .openObj = .ok ⟨stack, .firstKey⟩ := by
        rw [step_value, beginValue, openContainer, if_neg (by omega)]
      rw [List.cons_append, run_cons, hopen, Except.ok_bind]
      cases members with
      | nil =>
          cases h
          rw [List.nil_append, run_cons, step_firstKey_close, hv]
          rfl
      | cons m ms =>
          have hrun := run_members h (by simp) [] stack (by omega)
          have hfirst : run hooks ⟨stack, .firstKey⟩ (ts ++ [.closeObj])
              = run hooks ⟨stack, .key []⟩ (ts ++ [.closeObj]) := by
            cases h <;> rfl
          rw [hfirst, run_append, hrun, Except.ok_bind, List.nil_append, run_cons,
            step_nextMember_close,
            hv]
          rfl

/-- **The items of an array** are read into the frame of the array. -/
theorem run_items : ∀ {vs : List PyJson} {ts : List Token} {n : ℕ}, WritesItems hooks vs ts n →
    vs ≠ [] →
    ∀ (items : List PyJson) (stack : List Frame), stack.length + 1 + n ≤ hooks.maxDepth →
      run hooks ⟨.arr items :: stack, .value⟩ ts = .ok ⟨stack, .nextItem (items ++ vs)⟩
  | _, _, _, .nil, hne, _, _, _ => absurd rfl hne
  | _, _, _, .one h, _, items, stack,
      hdepth => run_value h (.arr items :: stack) (by simpa using hdepth)
  | _, _, _, @WritesItems.cons _ _ v vs ts ts' n h hs hne, _, items, stack, hdepth => by
      have hhead := run_value h (.arr items :: stack) (by simpa using hdepth)
      have htail := run_items hs hne (items ++ [v]) stack hdepth
      rw [run_append, hhead, Except.ok_bind, run_cons]
      rw [List.append_assoc] at htail
      exact htail

/-- **The members of an object** are read into the frame of the object. -/
theorem run_members : ∀ {vs : List (PyStr × PyJson)} {ts : List Token} {n : ℕ},
    WritesMembers hooks vs ts n →
    vs ≠ [] → ∀ (members : List (PyStr × PyJson)) (stack : List Frame),
    stack.length + 1 + n ≤ hooks.maxDepth →
      run hooks ⟨stack, .key members⟩ ts = .ok ⟨stack, .nextMember (members ++ vs)⟩
  | _, _, _, .nil, hne, _, _, _ => absurd rfl hne
  | _, _, _, @WritesMembers.one _ _ k v ts n h, _, members, stack, hdepth => by
      exact run_value h (.obj members k :: stack) (by simpa using hdepth)
  | _, _, _, @WritesMembers.cons _ _ k v vs ts ts' n h hs hne, _, members, stack, hdepth => by
      have hhead := run_value h (.obj members k :: stack) (by simpa using hdepth)
      have htail := run_members hs hne (members ++ [(k, v)]) stack hdepth
      rw [List.append_assoc] at htail
      rw [List.cons_append, List.cons_append, run_cons]
      change run hooks ⟨.obj members k :: stack, .value⟩ (ts ++ .comma :: ts') = _
      rw [run_append, hhead, Except.ok_bind, run_cons]
      exact htail

end

/-- **A text whose tokens write a value decodes to it.** -/
theorem decode_of_writes {v : PyJson} {text : List Char} {n : ℕ} (h : Writes hooks v (lex text) n)
    (hdepth : n ≤ hooks.maxDepth) : decode hooks text = .ok v := by
  rw [decode, run_value h [] (by simpa using hdepth)]
  rfl

/-! ## What every decoded value has -/

variable (hooks) in
/-- A property of scalars, hooks and containers. -/
structure Closed (P : PyJson → Prop) : Prop where
  null : P .null
  bool : ∀ b, P (.bool b)
  str : ∀ s, P (.str s)
  int : ∀ literal v, hooks.int literal = .ok v → P v
  float : ∀ literal v, hooks.float literal = .ok v → P v
  constant : ∀ name v, hooks.constant name = .ok v → P v
  arr : ∀ items, (∀ v ∈ items, P v) → P (.arr items)
  pairs : ∀ members v, (∀ m ∈ members, P m.2) → hooks.pairs members = .ok v → P v

/-- The values of a frame have the property. -/
def Frame.Has (P : PyJson → Prop) : Frame → Prop
  | .arr items => ∀ v ∈ items, P v
  | .obj members _ => ∀ m ∈ members, P m.2

/-- The values that wait for a container have the property. -/
def Phase.Has (P : PyJson → Prop) : Phase → Prop
  | .nextItem items => ∀ v ∈ items, P v
  | .key members => ∀ m ∈ members, P m.2
  | .colon members _ => ∀ m ∈ members, P m.2
  | .nextMember members => ∀ m ∈ members, P m.2
  | .done v => P v
  | _ => True

/-- All values of a state have the property. -/
def State.Has (P : PyJson → Prop) (st : State) : Prop := (∀ f ∈ st.stack, f.Has P) ∧ st.phase.Has P

variable {P : PyJson → Prop}

/-- Completing a value keeps a property of all values on the stack. -/
theorem complete_has {v : PyJson} {stack : List Frame} (hv : P v) (hs : ∀ f ∈ stack, f.Has P) :
    (complete v stack).Has P := by
  cases stack with
  | nil => exact ⟨by simp [complete], hv⟩
  | cons f stack =>
      rw [List.forall_mem_cons] at hs
      cases f with
      | arr items =>
          refine ⟨hs.2, ?_⟩
          rw [complete, Phase.Has, List.forall_mem_append, List.forall_mem_singleton]
          exact ⟨hs.1, hv⟩
      | obj members key =>
          refine ⟨hs.2, ?_⟩
          rw [complete, Phase.Has, List.forall_mem_append, List.forall_mem_singleton]
          exact ⟨hs.1, hv⟩

/-- Opening a container keeps a property of all values on the stack. -/
theorem openContainer_has {stack : List Frame} {p : Phase} {st : State} (hs : ∀ f ∈ stack, f.Has P)
    (hp : p.Has P) (h : openContainer hooks stack p = .ok st) : st.Has P := by
  unfold openContainer at h
  split_ifs at h
  cases h
  exact ⟨hs, hp⟩

/-- Beginning a value keeps a property of all values on the stack. -/
theorem beginValue_has (hc : Closed hooks P) {stack : List Frame} {t : Token} {st : State}
    (hs : ∀ f ∈ stack, f.Has P) (h : beginValue hooks stack t = .ok st) : st.Has P := by
  cases t <;> simp only [beginValue, Except.bind_eq_ok_iff, Except.pure_eq_ok, Except.ok.injEq,
    reduceCtorEq] at h
  case openObj => exact openContainer_has (p := .firstKey) hs trivial h
  case openArr => exact openContainer_has (p := .firstItem) hs trivial h
  case str s => exact h ▸ complete_has (hc.str s) hs
  case null => exact h ▸ complete_has hc.null hs
  case bool b => exact h ▸ complete_has (hc.bool b) hs
  case int literal =>
    obtain ⟨v, hv, rfl⟩ := h
    exact complete_has (hc.int _ _ hv) hs
  case float literal =>
    obtain ⟨v, hv, rfl⟩ := h
    exact complete_has (hc.float _ _ hv) hs
  case constant name =>
    obtain ⟨v, hv, rfl⟩ := h
    exact complete_has (hc.constant _ _ hv) hs

/-- **A step of the reader** keeps a property that the hooks keep. -/
theorem step_has (hc : Closed hooks P) {st st' : State} {t : Token} (hst : st.Has P)
    (h : step hooks st t = .ok st') : st'.Has P := by
  obtain ⟨stack, phase⟩ := st
  obtain ⟨hs, hp⟩ := hst
  have harr : ∀ f ∈ Frame.arr [] :: stack, f.Has P := by
    rw [List.forall_mem_cons]
    exact ⟨by simp [Frame.Has], hs⟩
  -- one case for each phase and token that are accepted
  unfold step at h
  split at h
  · exact beginValue_has hc hs h
  · cases h
    exact complete_has (hc.arr [] (by simp)) hs
  · exact beginValue_has hc harr h
  · rename_i items heq
    cases h
    simp only at heq
    subst heq
    exact ⟨List.forall_mem_cons.mpr ⟨hp, hs⟩, trivial⟩
  · rename_i items heq
    cases h
    simp only at heq
    subst heq
    exact complete_has (hc.arr items hp) hs
  · obtain ⟨v, hv, h⟩ := Except.bind_eq_ok_iff.mp h
    cases h
    exact complete_has (hc.pairs [] v (by simp) hv) hs
  · cases h
    exact ⟨hs, by simp [Phase.Has]⟩
  · rename_i members key heq
    cases h
    simp only at heq
    subst heq
    exact ⟨hs, hp⟩
  · rename_i members key heq
    cases h
    simp only at heq
    subst heq
    exact ⟨List.forall_mem_cons.mpr ⟨hp, hs⟩, trivial⟩
  · rename_i members heq
    cases h
    simp only at heq
    subst heq
    exact ⟨hs, hp⟩
  · rename_i members heq
    obtain ⟨v, hv, h⟩ := Except.bind_eq_ok_iff.mp h
    cases h
    simp only at heq
    subst heq
    exact complete_has (hc.pairs members v hp hv) hs
  · cases h

/-- **Induction over a decoded value**, through the run that built it. -/
theorem decode_induction (hc : Closed hooks P) {text : List Char} {v : PyJson}
    (h : decode hooks text = .ok v) : P v := by
  obtain ⟨st, hrun, hfin⟩ := Except.bind_eq_ok_iff.mp h
  have hst : st.Has P := by
    refine Except.foldlM_ok_run (fun _ st => st.Has P) (fun _ _ _ _ _ _ hinv hstep =>
      step_has hc hinv hstep) ?_ hrun
    exact ⟨by simp, trivial⟩
  unfold finish at hfin
  split at hfin
  · rename_i w heq
    cases hfin
    have := hst.2
    rwa [heq] at this
  · cases hfin

/-! ## Texts and their tokens -/

/-- The text gives these tokens in front of anything. -/
def Lexes (text : List Char) (tokens : List Token) : Prop :=
  ∀ rest, lex (text ++ rest) = tokens ++ lex rest

/-- What may follow a number without lengthening it. -/
def EndsNumber (rest : List Char) : Prop :=
  ∀ c ∈ rest.head?, c.isDigit = false ∧ c ∉ ['.', 'e', 'E']

/-- The text gives these tokens in front of anything that does not lengthen a number. -/
def LexesValue (text : List Char) (tokens : List Token) : Prop :=
  ∀ rest, EndsNumber rest → lex (text ++ rest) = tokens ++ lex rest

/-- Text that is lexed in any surroundings is lexed as a value. -/
theorem Lexes.value {text : List Char} {tokens : List Token} (h : Lexes text tokens) :
    LexesValue text tokens :=
  fun rest _ => h rest

/-- Two texts are lexed one after the other. -/
theorem Lexes.append {a b : List Char} {ta tb : List Token} (ha : Lexes a ta) (hb : Lexes b tb) :
    Lexes (a ++ b) (ta ++ tb) := by
  intro rest
  rw [List.append_assoc, ha, hb, List.append_assoc]

/-- A value is lexed before a text that ends a number. -/
theorem LexesValue.append {a b : List Char} {ta tb : List Token} (ha : LexesValue a ta)
    (hb : Lexes b tb)
    (hend : ∀ rest, EndsNumber (b ++ rest)) : Lexes (a ++ b) (ta ++ tb) := by
  intro rest
  rw [List.append_assoc, ha _ (hend rest), hb, List.append_assoc]

theorem Lexes.append_value {a b : List Char} {ta tb : List Token} (ha : Lexes a ta)
    (hb : LexesValue b tb) :
    LexesValue (a ++ b) (ta ++ tb) := by
  intro rest hrest
  rw [List.append_assoc, ha, hb rest hrest, List.append_assoc]

theorem lexes_nil : Lexes [] [] := fun _ => rfl

/-- A blank is no token. -/
theorem lexes_blank {c : Char} (hc : isBlank c = true) : Lexes [c] [] :=
  fun rest => lex_blank hc rest

/-- A bracket, a comma or a colon. -/
theorem lexes_mark {c : Char} {t : Token} (hc : isBlank c = false)
    (ht : ∀ rest, scanToken c rest = some (t, rest)) :
    Lexes [c] [t] := fun rest => lex_token hc (ht rest)

theorem lexes_comma : Lexes [','] [.comma] := lexes_mark (by decide) fun _ => rfl

theorem lexes_colon : Lexes [':'] [.colon] := lexes_mark (by decide) fun _ => rfl

theorem lexes_openObj : Lexes ['{'] [.openObj] := lexes_mark (by decide) fun _ => rfl

theorem lexes_closeObj : Lexes ['}'] [.closeObj] := lexes_mark (by decide) fun _ => rfl

theorem lexes_openArr : Lexes ['['] [.openArr] := lexes_mark (by decide) fun _ => rfl

theorem lexes_closeArr : Lexes [']'] [.closeArr] := lexes_mark (by decide) fun _ => rfl

theorem lexes_null : Lexes ['n', 'u', 'l', 'l'] [.null] := fun rest => lex_token (by decide) (by
  simp [scanToken, scanWord, words, List.isPrefixOf])

theorem lexes_true : Lexes ['t', 'r', 'u', 'e'] [.bool true] :=
  fun rest => lex_token (by decide) (by
  simp [scanToken, scanWord, words, List.isPrefixOf])

theorem lexes_false : Lexes ['f', 'a', 'l', 's', 'e'] [.bool false] :=
  fun rest => lex_token (by decide) (by
  simp [scanToken, scanWord, words, List.isPrefixOf])

end JsonReader
