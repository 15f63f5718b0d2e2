/-
# Frames and comments of a stream

The text that a server sends as an event stream is made of blocks: comments, and frames with an id,
a type and the text of an event.  The parser reads such a text as the events after the last one that
it knows (`reading`), wherever the text stops (`chars_blocks`) and however it is cut into chunks
(`pieces_of_run`): only the frames that ended count (`whole`), and nothing is refused.
-/
import EvidenceLab.JsonAscii
import EvidenceLab.Sse

namespace Sse

open Json (Printable)

/-! ## Encoded texts -/

/-- The bytes of a text. -/
def encode (text : List Char) : List UInt8 := text.flatMap String.utf8EncodeChar

/-- A text of one byte for each character. -/
def Ascii (text : List Char) : Prop := ∀ c ∈ text, c.toNat < 128

/-- An ASCII character is one byte. -/
theorem utf8EncodeChar_of_ascii {c : Char} (hc : c.toNat < 128) :
    String.utf8EncodeChar c = [c.val.toUInt8] := by
  have hle : c.toNat ≤ 127 := Nat.le_of_lt_succ hc
  simp only [String.utf8EncodeChar, Char.toNat_val, if_pos hle]
  rfl

theorem utf8Size_of_ascii {c : Char} (hc : c.toNat < 128) : c.utf8Size = 1 := by
  rw [← String.length_utf8EncodeChar, utf8EncodeChar_of_ascii hc, List.length_singleton]

/-- An ASCII text has as many bytes as characters. -/
theorem encodedLength_of_ascii {text : List Char} (h : Ascii text) :
    encodedLength text = text.length := by
  have hsize : ∀ c ∈ text, c.utf8Size = 1 := fun c hc => utf8Size_of_ascii (h c hc)
  rw [encodedLength, List.map_congr_left hsize, List.map_const', List.sum_replicate,
    smul_eq_mul, mul_one]

theorem encode_cons {c : Char} (hc : c.toNat < 128) (text : List Char) :
    encode (c :: text) = c.val.toUInt8 :: encode text := by
  rw [encode, List.flatMap_cons, utf8EncodeChar_of_ascii hc, List.singleton_append, encode]

theorem encode_append (a b : List Char) : encode (a ++ b) = encode a ++ encode b :=
  List.flatMap_append

/-- The encoder writes as many bytes as the text has characters. -/
theorem length_encode {text : List Char} (h : Ascii text) : (encode text).length = text.length := by
  induction text with
  | nil => rfl
  | cons c text ih =>
    have hc := h c List.mem_cons_self
    rw [encode_cons hc, List.length_cons, List.length_cons,
      ih fun d hd => h d (List.mem_cons_of_mem c hd)]

/-- The first bytes are those of the first characters. -/
theorem take_encode {text : List Char} (h : Ascii text) (n : ℕ) :
    (encode text).take n = encode (text.take n) := by
  induction text generalizing n with
  | nil => simp [encode]
  | cons c text ih =>
    have hc := h c List.mem_cons_self
    cases n with
    | zero => rfl
    | succ n =>
      rw [encode_cons hc, List.take_succ_cons, List.take_succ_cons, encode_cons hc,
        ih fun d hd => h d (List.mem_cons_of_mem c hd)]

/-- A byte of an ASCII text is its character. -/
theorem byte_ascii (bomSeen : Bool) {c : Char} (hc : c.toNat < 128) :
    (Utf8.between bomSeen).byte c.val.toUInt8 = some (.between true, some c) := by
  have hn : c.val.toUInt8.toNat = c.toNat := by
    show c.val.toNat % 256 = c.toNat
    exact Nat.mod_eq_of_lt (lt_trans hc (by norm_num))
  have hle : c.toNat ≤ 0x7F := Nat.le_of_lt_succ hc
  have hbom : ¬ c.toNat = 0xFEFF := by omega
  have hstate : (Utf8.between bomSeen).needed = 0 := rfl
  simp only [Utf8.byte, hstate, if_true, hn, if_pos hle, Utf8.emit, decide_eq_false hbom,
    Bool.and_false,
    Bool.false_eq_true, if_false, Char.ofNat_toNat]

/-- **An ASCII text is decoded to itself**, and the decoder stands between two characters. -/
theorem decode_encode {text : List Char} (h : Ascii text) (bomSeen : Bool) :
    (Utf8.between bomSeen).decode (encode text)
    = some (.between (bomSeen || !text.isEmpty), text) := by
  induction text generalizing bomSeen with
  | nil =>
    show some (Utf8.between bomSeen, []) = some (Utf8.between (bomSeen || false), [])
    rw [Bool.or_false]
  | cons c text ih =>
    have hc := h c List.mem_cons_self
    rw [encode_cons hc, Utf8.decode, byte_ascii bomSeen hc]
    simp only [ih (fun d hd => h d (List.mem_cons_of_mem c hd)) true, Option.map_some,
      Option.toList_some,
      List.singleton_append, Bool.true_or, List.isEmpty_cons, Bool.not_false, Bool.or_true]

/-! ## Lines -/

theorem ascii_of_printable {text : List Char} (h : Printable text) : Ascii text :=
  fun c hc => lt_of_le_of_lt (h c hc).2 (by norm_num)

/-- A printable text has no line end. -/
theorem noBreak_of_printable {text : List Char} (h : Printable text) :
    '\r' ∉ text ∧ '\n' ∉ text := by
  constructor
  · intro hc
    exact absurd (h _ hc).1 (by decide)
  · intro hc
    exact absurd (h _ hc).1 (by decide)

variable {J : Type} (contracts : Contracts J) (runId : String)

section Chars

variable {contracts} {runId} {f : Frame}

/-- Characters are handled in two parts. -/
theorem chars_append {t t' : Text} {f' : Frame} {a : List Char} {es : List J}
    (h : chars contracts runId t f a = (es, .ok (t', f'))) (b : List Char) :
    chars contracts runId t f (a ++ b)
      = (es ++ (chars contracts runId t' f' b).1, (chars contracts runId t' f' b).2) := by
  induction a generalizing t f es with
  | nil =>
    cases h
    rfl
  | cons c a ih =>
    rw [chars] at h
    rw [List.cons_append, chars]
    cases hc : char contracts runId t f c with
    | error e =>
      rw [hc] at h
      cases h
    | ok r =>
      obtain ⟨⟨t₁, f₁⟩, e⟩ := r
      rw [hc] at h
      obtain ⟨h₁, h₂⟩ := Prod.mk.inj h
      have ha : chars contracts runId t₁ f₁ a = ((chars contracts runId t₁ f₁ a).1, .ok (t', f')) :=
        Prod.ext rfl h₂
      simp only [ih ha, ← h₁, List.append_assoc]

/-- Characters of a line wait for its end. -/
theorem chars_pending (p : List Char) {value : List Char} (hv : Printable value) :
    chars contracts runId ⟨p, false⟩ f value = ([], .ok (⟨p ++ value, false⟩, f)) := by
  induction value generalizing p with
  | nil =>
    rw [List.append_nil]
    rfl
  | cons c value ih =>
    obtain ⟨hcr, hlf⟩ := noBreak_of_printable hv
    have hc : ¬ (c = '\r' ∨ c = '\n') := by
      rintro (rfl | rfl)
      · exact hcr List.mem_cons_self
      · exact hlf List.mem_cons_self
    have hchar : char contracts runId ⟨p, false⟩ f c = .ok ((⟨p ++ [c], false⟩, f), none) := by
      rw [char, if_neg (fun h => Bool.false_ne_true h.1), if_neg hc]
    have hrest := ih (p ++ [c]) fun d hd => hv d (List.mem_cons_of_mem c hd)
    rw [List.append_assoc, List.singleton_append] at hrest
    rw [chars, hchar]
    simp only [hrest, Option.toList_none, List.nil_append]

/-- The end of a line. -/
theorem chars_lf (value : List Char) {f' : Frame} {e : Option J}
    (h : line contracts runId f value = .ok (f', e)) :
    chars contracts runId ⟨value, false⟩ f ['\n'] = (e.toList, .ok (⟨[], false⟩, f')) := by
  have hchar : char contracts runId ⟨value, false⟩ f '\n' = .ok ((⟨[], false⟩, f'), e) := by
    rw [char, if_neg (fun h => Bool.false_ne_true h.1), if_pos (.inr rfl)]
    simp only [h]
    rfl
  rw [chars, hchar]
  simp only [chars, List.append_nil]

/-- A whole line. -/
theorem chars_line {value : List Char} (hv : Printable value) {f' : Frame} {e : Option J}
    (h : line contracts runId f value = .ok (f', e)) :
    chars contracts runId ⟨[], false⟩ f (value ++ ['\n']) = (e.toList, .ok (⟨[], false⟩, f')) := by
  have hwait : chars contracts runId ⟨[], false⟩ f value = ([], .ok (⟨value, false⟩, f)) :=
    chars_pending [] hv
  rw [chars_append hwait, chars_lf value h]
  rfl

end Chars

/-- The text of some lines. -/
def joined (ls : List (List Char)) : List Char := ls.flatMap (· ++ ['\n'])

/-- Lines that are read without an event. -/
inductive Quiet : Frame → List (List Char) → Frame → Prop
  | nil (f : Frame) : Quiet f [] f
  | cons {f f' f'' : Frame} {l : List Char} {ls : List (List Char)} (hl : Printable l)
      (h : line contracts runId f l = .ok (f', none)) (hbytes : f'.bytes ≤ f.bytes + (l.length + 1))
      (hlast : f'.lastId = f.lastId) (hs : Quiet f' ls f'') : Quiet f (l :: ls) f''

section Quiet

variable {contracts} {runId} {f f' : Frame} {ls : List (List Char)}

/-- Quiet lines yield no event. -/
theorem Quiet.all (h : Quiet contracts runId f ls f') :
    chars contracts runId ⟨[], false⟩ f (joined ls) = ([], .ok (⟨[], false⟩, f')) := by
  induction h with
  | nil f => rfl
  | @cons f f₁ f' l ls hl hline _ _ _ ih =>
    have hfirst : chars contracts runId ⟨[], false⟩ f (l ++ ['\n']) = ([], .ok (⟨[], false⟩, f₁)) :=
      chars_line hl hline
    rw [joined, List.flatMap_cons, chars_append hfirst]
    rw [joined] at ih
    rw [ih]
    rfl

/-- Where the lines stop, the frame and the text that waits are not larger than what was read. -/
theorem Quiet.take (h : Quiet contracts runId f ls f') (n : ℕ) (hn : n ≤ (joined ls).length) :
    ∃ t f₁, chars contracts runId ⟨[], false⟩ f ((joined ls).take n) = ([], .ok (t, f₁)) ∧
    f₁.lastId = f.lastId
      ∧ f₁.bytes + encodedLength t.pending ≤ f.bytes + n := by
  induction h generalizing n with
  | nil f =>
    refine ⟨⟨[], false⟩, f, ?_, rfl, ?_⟩
    · simp [joined, chars]
    · show f.bytes + 0 ≤ f.bytes + n
      omega
  | @cons f f₁ f' l ls hl hline hbytes hlast _ ih =>
    have hfirst : chars contracts runId ⟨[], false⟩ f (l ++ ['\n']) = ([], .ok (⟨[], false⟩, f₁)) :=
      chars_line hl hline
    have hjoin : joined (l :: ls) = (l ++ ['\n']) ++ joined ls := by
      rw [joined, List.flatMap_cons, joined]
    rw [hjoin] at hn ⊢
    have hlen : (l ++ ['\n']).length = l.length + 1 := by
      rw [List.length_append, List.length_singleton]
    rcases Nat.lt_or_ge n (l.length + 1) with hlt | hge
    · -- inside the first line
      have htake : ((l ++ ['\n']) ++ joined ls).take n = l.take n := by
        rw [List.take_append_of_le_length (by omega), List.take_append_of_le_length (by omega)]
      have hpre : Printable (l.take n) := fun c hc => hl c (List.mem_of_mem_take hc)
      refine ⟨⟨l.take n, false⟩, f, ?_, rfl, ?_⟩
      · rw [htake, chars_pending [] hpre, List.nil_append]
      · show f.bytes + encodedLength (l.take n) ≤ f.bytes + n
        rw [encodedLength_of_ascii (ascii_of_printable hpre), List.length_take]
        omega
    · rw [List.length_append, hlen] at hn
      obtain ⟨t, f₂, hchars, hlast₂, hbytes₂⟩ := ih (n - (l.length + 1)) (by omega)
      refine ⟨t, f₂, ?_, hlast₂.trans hlast, by omega⟩
      have htake : ((l ++ ['\n']) ++ joined ls).take n = (l ++ ['\n'])
          ++ (joined ls).take (n - (l.length + 1)) := by
        rw [List.take_append, hlen, List.take_of_length_le (by omega)]
      rw [htake, chars_append hfirst, hchars]
      rfl

end Quiet

/-! ## Blocks -/

/-- What a server sends: a comment, or a frame with its data in one line. -/
inductive Block where
  | comment (text : List Char)
  | frame (id : ℕ) (type data : List Char)

def Block.text : Block → List Char
  | .comment text => ':' :: (text ++ ['\n', '\n'])
  | .frame id type data =>
      "id: ".toList ++ ((toString id).toList ++ ("\nevent: ".toList ++ (type ++ ("\ndata: ".toList
        ++ (data ++ "\n\n".toList)))))

/-- The text of some blocks. -/
def textOf (bs : List Block) : List Char := bs.flatMap Block.text

/-- The event of a block. -/
def Block.event : Block → Option J
  | .comment _ => none
  | .frame _ _ data => contracts.parse data

/-- A block that the parser accepts. -/
def Block.Sound : Block → Prop
  | .comment text => Printable text ∧ text.length + 3 ≤ frameBytes
  | .frame id type data => 1 ≤ id ∧ Printable type ∧ Printable data ∧ data ≠ []
      ∧ (Block.frame id type data).text.length ≤ frameBytes
      ∧ ∃ j, contracts.parse data = some j ∧ contracts.event j = true ∧ contracts.runId j = runId
        ∧ contracts.id j = id

/-- The events of some blocks after a last one, and the last one then. -/
def reading (last : ℕ) : List Block → List J × ℕ
  | [] => ([], last)
  | b :: bs =>
      match b.event contracts with
      | none => reading last bs
      | some j =>
          if contracts.id j ≤ last then reading last bs
          else (j :: (reading (contracts.id j) bs).1, (reading (contracts.id j) bs).2)

/-- The blocks that end within the first characters. -/
def whole : List Block → ℕ → List Block
  | [], _ => []
  | b :: bs, n => if b.text.length ≤ n then b :: whole bs (n - b.text.length) else []

/-- The parser between two blocks. -/
def idle (last : ℕ) : Frame := ⟨[], none, 0, last⟩

section Blocks

variable {contracts} {runId}

/-- A field is cut at its first colon. -/
theorem takeWhile_name (name content : List Char) (h : ':' ∉ name) :
    (name ++ ':' :: content).takeWhile (· ≠ ':') = name ∧
    (name ++ ':' :: content).dropWhile (· ≠ ':') = ':' :: content := by
  have hall : ∀ c ∈ name, decide (c ≠ ':') = true := by
    intro c hc
    apply decide_eq_true
    rintro rfl
    exact h hc
  rw [List.takeWhile_append_of_pos hall, List.dropWhile_append_of_pos hall]
  simp

/-- A field with its name and its content. -/
theorem field_eq (f : Frame) (name content : List Char) (h : ':' ∉ name) :
    field f (name ++ ':' :: ' ' :: content)
      = if name = "data".toList then .ok { f with data := f.data ++ [content] }
        else if name = "id".toList then
          if f.id ≠ none ∨ !isEventId content then .error "Invalid event ID"
            else .ok { f with id := some content }
        else .ok f := by
  obtain ⟨htake, hdrop⟩ := takeWhile_name name (' ' :: content) h
  simp only [field, htake, hdrop]
  rfl

/-- A positive number is an event id. -/
theorem isEventId_toString {id : ℕ} (h : 1 ≤ id) : isEventId (toString id).toList = true := by
  have htext : (toString id).toList = Nat.toDigits 10 id := by
    show (String.ofList (Nat.toDigits 10 id)).toList = _
    rw [String.toList_ofList]
  obtain ⟨c, cs, heq, hc⟩ := JsonReader.head_toDigits h
  have hdigits := Json.isDigit_toDigits id
  rw [heq, List.forall_mem_cons] at hdigits
  rw [htext, heq, isEventId, Bool.and_eq_true]
  refine ⟨?_, List.all_eq_true.mpr hdigits.2⟩
  have hdigit := hdigits.1
  simp only [Char.isDigit, Bool.and_eq_true, decide_eq_true_eq, ge_iff_le, UInt32.le_iff_toNat_le]
    at hdigit
  have hlo : 48 ≤ c.toNat := hdigit.1
  have hhi : c.toNat ≤ 57 := hdigit.2
  have hne : c.toNat ≠ 48 := fun h => hc (Char.toNat_inj.mp h)
  apply decide_eq_true
  constructor
  · show (49 : ℕ) ≤ c.toNat
    omega
  · exact hhi

/-- Numbers are printable. -/
theorem printable_toString (id : ℕ) : Printable (toString id).toList := by
  have htext : (toString id).toList = Nat.toDigits 10 id := by
    show (String.ofList (Nat.toDigits 10 id)).toList = _
    rw [String.toList_ofList]
  rw [htext]
  exact Json.printable_of_isDigit (Json.isDigit_toDigits id)

/-- A field of a frame that is not too large. -/
theorem line_field {f f' : Frame} {value : List Char} (hv : Printable value) (hne : value ≠ [])
    (hcolon : value.head? ≠ some ':')
    (hfield : field { f with bytes := f.bytes + value.length + 1 } value = .ok f')
    (hsize : f.bytes + value.length + 1 ≤ frameBytes) :
    line contracts runId f value = .ok (f', none) := by
  have hlen := encodedLength_of_ascii (ascii_of_printable hv)
  rw [line, if_neg hcolon]
  simp only [hlen]
  rw [if_neg (by omega), if_neg hne, hfield]
  rfl

/-- The lines of a block before its blank line. -/
def Block.fieldLines : Block → List (List Char)
  | .comment text => [':' :: text]
  | .frame id type data => ["id: ".toList ++ (toString id).toList, "event: ".toList ++ type,
      "data: ".toList ++ data]

/-- The frame at the blank line of a block. -/
def Block.framed (last : ℕ) : Block → Frame
  | .comment _ => idle last
  | .frame id type data =>
      ⟨[data], some (toString id).toList, (joined (Block.frame id type data).fieldLines).length,
        last⟩

/-- A block is its lines and an empty one. -/
theorem Block.text_eq (b : Block) : b.text = joined b.fieldLines ++ ['\n'] := by
  cases b with
  | comment text => simp [Block.text, Block.fieldLines, joined]
  | frame id type data => simp [Block.text, Block.fieldLines, joined]

theorem printable_names : Printable "id: ".toList ∧ Printable "event: ".toList ∧
    Printable "data: ".toList := by
  refine ⟨?_, ?_, ?_⟩
  · show Printable ['i', 'd', ':', ' ']
    exact .cons (by decide)
      (.cons (by decide) (.cons (by decide) (.cons (by decide) Json.printable_nil)))
  · show Printable ['e', 'v', 'e', 'n', 't', ':', ' ']
    exact .cons (by decide)
      (.cons (by decide) (.cons (by decide) (.cons (by decide) (.cons (by decide)
      (.cons (by decide) (.cons (by decide) Json.printable_nil))))))
  · show Printable ['d', 'a', 't', 'a', ':', ' ']
    exact .cons (by decide)
      (.cons (by decide) (.cons (by decide) (.cons (by decide) (.cons (by decide)
      (.cons (by decide) Json.printable_nil)))))

/-- The lines of a block yield nothing before its end. -/
theorem Block.Sound.quiet {b : Block} (hb : b.Sound contracts runId) (last : ℕ) :
    Quiet contracts runId (idle last) b.fieldLines (b.framed last) := by
  cases b with
  | comment text =>
    obtain ⟨htext, -⟩ := hb
    refine .cons (.cons (by decide) htext) ?_ (Nat.le_add_right _ _) rfl (.nil _)
    rw [line, if_pos (show (':' :: text).head? = some ':' from rfl)]
  | frame id type data =>
    obtain ⟨hid, htype, hdata, -, hsize, -⟩ := hb
    obtain ⟨hn₁, hn₂, hn₃⟩ := printable_names
    have h₁ : Printable ("id: ".toList ++ (toString id).toList) :=
      hn₁.append (printable_toString id)
    have h₂ : Printable ("event: ".toList ++ type) := hn₂.append htype
    have h₃ : Printable ("data: ".toList ++ data) := hn₃.append hdata
    have hlen :
        (Block.frame id type data).text.length = ("id: ".toList ++ (toString id).toList).length + 1
        + ("event: ".toList ++ type).length + 1 + ("data: ".toList ++ data).length + 1 + 1 := by
      simp [Block.text]
      omega
    have hjoined : (joined (Block.frame id type data).fieldLines).length
        = ("id: ".toList ++ (toString id).toList).length + 1
        + ("event: ".toList ++ type).length + 1 + ("data: ".toList ++ data).length + 1 := by
      simp [joined, Block.fieldLines]
      omega
    -- the number of bytes after each line
    obtain ⟨a, ha⟩ : ∃ a, a = ("id: ".toList ++ (toString id).toList).length + 1 := ⟨_, rfl⟩
    obtain ⟨b, hb⟩ : ∃ b, b = a + ("event: ".toList ++ type).length + 1 := ⟨_, rfl⟩
    obtain ⟨c, hc⟩ : ∃ c, c = b + ("data: ".toList ++ data).length + 1 := ⟨_, rfl⟩
    have hidField : field ⟨[], none, a, last⟩ ("id: ".toList ++ (toString id).toList)
        = .ok ⟨[], some (toString id).toList, a, last⟩ := by
      refine (field_eq _ "id".toList (toString id).toList (by decide)).trans ?_
      rw [if_neg (by decide), if_pos rfl, if_neg]
      rw [not_or]
      exact ⟨fun h => h rfl, by rw [isEventId_toString hid]; decide⟩
    have htypeField : field ⟨[], some (toString id).toList, b, last⟩ ("event: ".toList ++ type)
        = .ok ⟨[], some (toString id).toList, b, last⟩ := by
      refine (field_eq _ "event".toList type (by decide)).trans ?_
      rw [if_neg (by decide), if_neg (by decide)]
    have hdataField : field ⟨[], some (toString id).toList, c, last⟩ ("data: ".toList ++ data)
        = .ok ⟨[data], some (toString id).toList, c, last⟩ := by
      refine (field_eq _ "data".toList data (by decide)).trans ?_
      rw [if_pos rfl]
      rfl
    have hframed :
        (Block.frame id type data).framed last = ⟨[data], some (toString id).toList, c, last⟩ := by
      rw [Block.framed, hjoined, ← ha, ← hb, ← hc]
    have hline₁ : line contracts runId (idle last) ("id: ".toList ++ (toString id).toList)
        = .ok (⟨[], some (toString id).toList, a, last⟩, none) := by
      apply line_field h₁ (by simp) (by simp)
      · show field ⟨[], none, 0 + ("id: ".toList ++ (toString id).toList).length + 1, last⟩ _ = _
        rw [Nat.zero_add, ← ha]
        exact hidField
      · show 0 + _ + 1 ≤ frameBytes
        omega
    have hline₂ :
        line contracts runId ⟨[], some (toString id).toList, a, last⟩ ("event: ".toList ++ type)
        = .ok (⟨[], some (toString id).toList, b, last⟩, none) := by
      apply line_field h₂ (by simp) (by simp)
      · show field ⟨[], _, a + ("event: ".toList ++ type).length + 1, last⟩ _ = _
        rw [← hb]
        exact htypeField
      · show a + _ + 1 ≤ frameBytes
        omega
    have hline₃ :
        line contracts runId ⟨[], some (toString id).toList, b, last⟩ ("data: ".toList ++ data)
        = .ok (⟨[data], some (toString id).toList, c, last⟩, none) := by
      apply line_field h₃ (by simp) (by simp)
      · show field ⟨[], _, b + ("data: ".toList ++ data).length + 1, last⟩ _ = _
        rw [← hc]
        exact hdataField
      · show b + _ + 1 ≤ frameBytes
        omega
    rw [hframed]
    refine .cons h₁ hline₁ ?_ rfl (.cons h₂ hline₂ ?_ rfl (.cons h₃ hline₃ ?_ rfl (.nil _)))
    · show a ≤ 0 + (_ + 1)
      omega
    · show b ≤ a + (_ + 1)
      omega
    · show c ≤ b + (_ + 1)
      omega

/-- The blank line of a block. -/
theorem Block.Sound.blank {b : Block} (hb : b.Sound contracts runId) (last : ℕ) :
    ∃ e, line contracts runId (b.framed last) [] = .ok (idle (reading contracts last [b]).2, e)
      ∧ e.toList = (reading contracts last [b]).1 := by
  have hcolon : ¬ ([] : List Char).head? = some ':' := by simp
  cases b with
  | comment text =>
    refine ⟨none, ?_, rfl⟩
    rw [line, if_neg hcolon]
    rfl
  | frame id type data =>
    obtain ⟨-, -, -, hne, hsize, j, hparse, hevent, hrun, hj⟩ := hb
    have hbytes :
        ((Block.frame id type data).framed last).bytes + encodedLength [] + 1 ≤ frameBytes := by
      rw [Block.text_eq, List.length_append, List.length_singleton] at hsize
      exact hsize
    have hdata : List.intercalate ['\n'] [data] = data := by simp
    rw [line, if_neg hcolon]
    simp only []
    rw [if_neg (by omega), if_pos trivial, dispatch]
    simp only [Block.framed, hdata, if_neg hne, hparse, hevent, hrun, hj, reading, Block.event]
    rw [if_neg (by simp)]
    by_cases hle : id ≤ last
    · rw [if_pos hle, if_pos hle]
      exact ⟨none, rfl, rfl⟩
    · rw [if_neg hle, if_neg hle]
      exact ⟨some j, rfl, rfl⟩

/-- **A block is read** as its event. -/
theorem chars_block {b : Block} (hb : b.Sound contracts runId) (last : ℕ) :
    chars contracts runId ⟨[], false⟩ (idle last) b.text
      = ((reading contracts last [b]).1,
        .ok (⟨[], false⟩, idle (reading contracts last [b]).2)) := by
  obtain ⟨e, hline, he⟩ := hb.blank last
  rw [Block.text_eq, chars_append (hb.quiet last).all, chars_lf [] hline, List.nil_append, he]

/-- A block that has not ended shows nothing. -/
theorem chars_block_take {b : Block} (hb : b.Sound contracts runId) (last : ℕ) {n : ℕ}
    (hn : n < b.text.length) :
    ∃ t f, chars contracts runId ⟨[], false⟩ (idle last) (b.text.take n) = ([], .ok (t, f)) ∧
    f.lastId = last
      ∧ f.bytes + encodedLength t.pending ≤ frameBytes := by
  have hlen : b.text.length = (joined b.fieldLines).length + 1 := by
    rw [Block.text_eq, List.length_append, List.length_singleton]
  have hsize : b.text.length ≤ frameBytes := by
    cases b with
    | comment text =>
      obtain ⟨-, hsize⟩ := hb
      have hlen : (Block.comment text).text.length = text.length + 3 := by simp [Block.text]
      rw [hlen]
      exact hsize
    | frame id type data => exact hb.2.2.2.2.1
  obtain ⟨t, f, hchars, hlast, hbytes⟩ := (hb.quiet last).take n (by omega)
  refine ⟨t, f, ?_, hlast, ?_⟩
  · rw [Block.text_eq, List.take_append_of_le_length (by omega), hchars]
  · have hidle : (idle last).bytes = 0 := rfl
    omega

/-- Blocks are read one after the other. -/
theorem reading_cons (last : ℕ) (b : Block) (bs : List Block) : reading contracts last (b :: bs)
    = ((reading contracts last [b]).1 ++ (reading contracts (reading contracts last [b]).2 bs).1,
      (reading contracts (reading contracts last [b]).2 bs).2) := by
  rw [reading, reading]
  cases b.event contracts with
  | none => rfl
  | some j =>
    simp only []
    split_ifs with hle
    · rfl
    · rfl

/-- **Blocks are read as the events after the last one**, wherever their text stops. -/
theorem chars_blocks {bs : List Block} (hbs : ∀ b ∈ bs, b.Sound contracts runId) (last n : ℕ) :
    ∃ t f, chars contracts runId ⟨[], false⟩ (idle last) ((textOf bs).take n)
        = ((reading contracts last (whole bs n)).1, .ok (t, f))
      ∧ f.lastId = (reading contracts last (whole bs n)).2 ∧ f.bytes + encodedLength t.pending
      ≤ frameBytes := by
  induction bs generalizing last n with
  | nil =>
    refine ⟨⟨[], false⟩, idle last, ?_, rfl, ?_⟩
    · simp [textOf, chars, whole, reading]
    · show 0 + 0 ≤ frameBytes
      exact Nat.zero_le _
  | cons b bs ih =>
    obtain ⟨hb, hrest⟩ := List.forall_mem_cons.mp hbs
    have htext : textOf (b :: bs) = b.text ++ textOf bs := by rw [textOf, List.flatMap_cons, textOf]
    rw [htext, whole]
    split_ifs with hle
    · obtain ⟨t, f, hchars, hlast, hbytes⟩ :=
      ih hrest (reading contracts last [b]).2 (n - b.text.length)
      refine ⟨t, f, ?_, ?_, hbytes⟩
      · rw [List.take_append, List.take_of_length_le hle, chars_append (chars_block hb last),
          hchars,
          reading_cons last b (whole bs _)]
      · rw [hlast, reading_cons last b (whole bs _)]
    · have hlt : n < b.text.length := not_le.mp hle
      obtain ⟨t, f, hchars, hlast, hbytes⟩ := chars_block_take hb last hlt
      refine ⟨t, f, ?_, hlast, hbytes⟩
      rw [List.take_append_of_le_length hlt.le, hchars]
      rfl

/-! ## Bytes -/

/-- A sound block is ASCII. -/
theorem Block.Sound.ascii {b : Block} (hb : b.Sound contracts runId) : Ascii b.text := by
  have hfields : ∀ {f f' : Frame} {ls : List (List Char)}, Quiet contracts runId f ls f' →
      Ascii (joined ls) := by
    intro f f' ls h
    induction h with
    | nil f => exact fun c hc => absurd hc List.not_mem_nil
    | @cons f f₁ f' l ls hl _ _ _ _ ih =>
      intro c hc
      rw [joined, List.flatMap_cons, List.mem_append, List.mem_append, List.mem_singleton] at hc
      rcases hc with (hc | rfl) | hc
      · exact ascii_of_printable hl c hc
      · decide
      · exact ih c hc
  rw [Block.text_eq]
  intro c hc
  rcases List.mem_append.mp hc with hc | hc
  · exact hfields (hb.quiet 0) c hc
  · rw [List.mem_singleton.mp hc]
    decide

/-- Sound blocks are ASCII. -/
theorem ascii_textOf {bs : List Block} (hbs : ∀ b ∈ bs, b.Sound contracts runId) :
    Ascii (textOf bs) := by
  intro c hc
  obtain ⟨b, hb, hc⟩ := List.mem_flatMap.mp hc
  exact (hbs b hb).ascii c hc

variable (contracts) (runId) in
/-- The parser after some bytes of a stream that begins after a last event. -/
structure Reached (last : ℕ) (bs : List Block) (n : ℕ) (s : State) : Prop where
  run : (reader contracts runId).run (start last) ((encode (textOf bs)).take n)
    = ((reading contracts last (whole bs n)).1, some s)
  lastId : s.frame.lastId = (reading contracts last (whole bs n)).2
  ready : s.text.Ready
  notFull : (reader contracts runId).full s = false
  between : s.decoder.needed = 0

/-- **Every place of the text is reached.** -/
theorem exists_reached {bs : List Block} (hbs : ∀ b ∈ bs, b.Sound contracts runId) (last n : ℕ) :
    ∃ s, Reached contracts runId last bs n s := by
  obtain ⟨t, f, hchars, hlast, hbytes⟩ := chars_blocks hbs last n
  have hascii : Ascii ((textOf bs).take n) :=
    fun c hc => ascii_textOf hbs c (List.mem_of_mem_take hc)
  have hdecode := decode_encode hascii false
  have hrun := @run_reader J contracts runId (start last) _ _ _ hdecode
  have hstart : chars contracts runId (start last).text (start last).frame ((textOf bs).take n)
      = ((reading contracts last (whole bs n)).1, .ok (t, f)) := hchars
  rw [hstart] at hrun
  refine ⟨⟨.between (false || !((textOf bs).take n).isEmpty), t, f⟩, ?_, hlast,
    (start_ready last).chars hstart, ?_, rfl⟩
  · rw [take_encode (ascii_textOf hbs)]
    exact hrun
  · exact decide_eq_false (not_lt.mpr hbytes)

theorem Block.text_pos (b : Block) : 0 < b.text.length := by
  rw [Block.text_eq, List.length_append, List.length_singleton]
  omega

/-- Later blocks do not change which ones are whole. -/
theorem whole_append {bs : List Block} {n : ℕ} (h : n ≤ (textOf bs).length) (cs : List Block) :
    whole (bs ++ cs) n = whole bs n := by
  induction bs generalizing n with
  | nil =>
    obtain rfl : n = 0 := Nat.le_zero.mp h
    cases cs with
    | nil => rfl
    | cons c cs =>
      have hpos := c.text_pos
      have hnot : ¬ c.text.length ≤ 0 := by omega
      show whole (c :: cs) 0 = []
      rw [whole, if_neg hnot]
  | cons b bs ih =>
    rw [textOf, List.flatMap_cons, List.length_append] at h
    rw [List.cons_append, whole, whole]
    split_ifs with hle
    · rw [ih]
      rw [textOf]
      omega
    · rfl

/-- All blocks are whole at the end. -/
theorem whole_all (bs : List Block) : whole bs (textOf bs).length = bs := by
  induction bs with
  | nil => rfl
  | cons b bs ih =>
    have hlen : (textOf (b :: bs)).length = b.text.length + (textOf bs).length := by
      rw [textOf, List.flatMap_cons, List.length_append, textOf]
    rw [hlen, whole, if_pos (Nat.le_add_right _ _), Nat.add_sub_cancel_left, ih]

/-- The whole blocks come first. -/
theorem whole_prefix (bs : List Block) (n : ℕ) : whole bs n <+: bs := by
  induction bs generalizing n with
  | nil => exact List.prefix_rfl
  | cons b bs ih =>
    rw [whole]
    split_ifs with hle
    · exact (List.prefix_cons_inj b).mpr (ih _)
    · exact List.nil_prefix

/-- Blocks that are sent later change nothing at a place before them. -/
theorem Reached.append {last n : ℕ} {bs : List Block} {s : State}
    (h : Reached contracts runId last bs n s)
    (hn : n ≤ (textOf bs).length) (hbs : ∀ b ∈ bs, b.Sound contracts runId) (cs : List Block) :
    Reached contracts runId last (bs ++ cs) n s := by
  have htake : (encode (textOf (bs ++ cs))).take n = (encode (textOf bs)).take n := by
    rw [textOf, List.flatMap_append, encode_append, List.take_append_of_le_length]
    · rfl
    · show n ≤ (encode (textOf bs)).length
      rw [length_encode (ascii_textOf hbs)]
      exact hn
  refine ⟨?_, ?_, h.ready, h.notFull, h.between⟩
  · rw [htake, whole_append hn]
    exact h.run
  · rw [whole_append hn]
    exact h.lastId

/-! ## Chunks of the stream -/

/-- A piece that is run without filling the frame is fed. -/
theorem piece_of_run {s s' : State} (hs : s.text.Ready) {bytes : List UInt8} {es : List J}
    (h : (reader contracts runId).run s bytes = (es, some s'))
    (hfull : (reader contracts runId).full s' = false) :
    piece contracts runId s bytes = (es, .ok s') ∧ s'.text.Ready := by
  have hdecodes := PieceReader.decodes_of_run h
  obtain ⟨⟨d, text⟩, hdecode⟩ :=
    Option.isSome_iff_exists.mp (show (s.decoder.decode bytes).isSome = true from hdecodes)
  have hrun := @run_reader J contracts runId s _ _ _ hdecode
  rw [h] at hrun
  obtain ⟨hes, hstate⟩ := Prod.mk.inj hrun
  obtain ⟨t, f, hchars, hs'⟩ : ∃ t f, chars contracts runId s.text s.frame text = (es, .ok (t, f)) ∧
      s' = ⟨d, t, f⟩ := by
    cases hc : (chars contracts runId s.text s.frame text).2 with
    | error e =>
      rw [hc] at hstate
      cases hstate
    | ok r =>
      obtain ⟨t, f⟩ := r
      rw [hc] at hstate
      exact ⟨t, f, Prod.ext hes.symm hc, Option.some.inj hstate⟩
  subst hs'
  have hsize : ¬ frameBytes < f.bytes + encodedLength t.pending := of_decide_eq_false hfull
  refine ⟨?_, hs.chars hchars⟩
  simp only [piece, hdecode, drain_append hs, hchars, if_neg hsize]

/-- **Pieces that never fill the frame** are fed one after the other. -/
theorem pieces_of_run {s : State} (hs : s.text.Ready) {ps : List (List UInt8)}
    (hok : ∀ k, ∃ s', ((reader contracts runId).run s (ps.flatten.take k)).2 = some s'
      ∧ (reader contracts runId).full s' = false) :
    ∃ s', pieces contracts runId s ps = (((reader contracts runId).run s ps.flatten).1, .ok s')
      ∧ ((reader contracts runId).run s ps.flatten).2 = some s' := by
  induction ps generalizing s with
  | nil => exact ⟨s, rfl, rfl⟩
  | cons p ps ih =>
    obtain ⟨s₁, hrun₁, hfull₁⟩ := hok p.length
    rw [List.flatten_cons, List.take_left] at hrun₁
    have hp := PieceReader.run_eq s p hrun₁
    obtain ⟨hpiece, hs₁⟩ := piece_of_run hs hp hfull₁
    obtain ⟨s', hpieces, hstate⟩ := ih hs₁ (fun k => by
      obtain ⟨s₂, hrun₂, hfull₂⟩ := hok (p.length + k)
      rw [List.flatten_cons, List.take_length_add_append, PieceReader.run_append hp] at hrun₂
      exact ⟨s₂, hrun₂, hfull₂⟩)
    refine ⟨s', ?_, ?_⟩
    · rw [pieces, hpiece, List.flatten_cons, PieceReader.run_append hp]
      simp only [hpieces]
    · rw [List.flatten_cons, PieceReader.run_append hp]
      exact hstate

/-- **A chunk of the stream** is read as the events of the blocks that end in it. -/
theorem Reached.chunk {last n : ℕ} {bs : List Block} {s : State}
    (h : Reached contracts runId last bs n s)
    (hbs : ∀ b ∈ bs, b.Sound contracts runId) (m : ℕ) :
    ∃ es s',
    pieces contracts runId s (PieceReader.slices pieceBytes (((encode (textOf bs)).drop n).take m))
    = (es, .ok s')
      ∧ Reached contracts runId last bs (n + m) s'
      ∧ (reading contracts last (whole bs (n + m))).1 = (reading contracts last (whole bs n)).1
      ++ es := by
  obtain ⟨bytes, hbytes⟩ : ∃ bytes, bytes = encode (textOf bs) := ⟨_, rfl⟩
  have hflat :
      (PieceReader.slices pieceBytes ((bytes.drop n).take m)).flatten = (bytes.drop n).take m :=
    (PieceReader.isCut_slices (by decide) _).1
  have hrun := h.run
  rw [← hbytes] at hrun ⊢
  -- the run over a part of the chunk goes on where the last one ended
  have hpart : ∀ k, (reader contracts runId).run (start last) (bytes.take (n + k))
      = ((reading contracts last (whole bs n)).1
        ++ ((reader contracts runId).run s ((bytes.drop n).take k)).1,
        ((reader contracts runId).run s ((bytes.drop n).take k)).2) := by
    intro k
    rw [List.take_add, PieceReader.run_append hrun]
  have hok : ∀ k, ∃ s₂, ((reader contracts runId).run s
      ((PieceReader.slices pieceBytes ((bytes.drop n).take m)).flatten.take k)).2 = some s₂
      ∧ (reader contracts runId).full s₂ = false := by
    intro k
    obtain ⟨s₂, hs₂⟩ := exists_reached hbs last (n + min k m)
    have hrun₂ := hs₂.run
    rw [← hbytes, hpart] at hrun₂
    refine ⟨s₂, ?_, hs₂.notFull⟩
    rw [hflat, List.take_take]
    exact (Prod.mk.inj hrun₂).2
  obtain ⟨s', hpieces, hstate⟩ := pieces_of_run h.ready hok
  rw [hflat] at hpieces hstate
  obtain ⟨s₂, hs₂⟩ := exists_reached hbs last (n + m)
  have hrun₂ := hs₂.run
  rw [← hbytes, hpart m] at hrun₂
  obtain ⟨hevents, hstate₂⟩ := Prod.mk.inj hrun₂
  obtain rfl : s' = s₂ := Option.some.inj (hstate.symm.trans hstate₂)
  exact ⟨_, s', hpieces, hs₂, hevents.symm⟩

end Blocks

end Sse
