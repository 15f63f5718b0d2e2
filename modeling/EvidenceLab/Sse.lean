/-
# The parser of the extraction event stream

The model of `parseExtractionEvents` in `sse.ts`: the streaming UTF-8 decoder, the lines, the frames
and the ceiling of 64 KiB.  `JSON.parse` and the guard of the events are a parameter (`Contracts`).

`reader` is the same parser one byte at a time.  Draining the pending text after a piece is the same
as looking at its characters one after the other (`drain_append`), so that the parser is a reader
that is fed in pieces of 4096 bytes (`outcome_read`).  What its result depends on is then
`PieceReader.feed_agree_iff`.
-/
import EvidenceLab.Pieces

namespace Sse

/-! ## The decoder -/

/-- The state of a `TextDecoder("utf-8", { fatal: true })`. -/
structure Utf8 where
  needed : ℕ
  seen : ℕ
  codePoint : ℕ
  lower : ℕ
  upper : ℕ
  bomSeen : Bool
  deriving DecidableEq

/-- The state between two characters. -/
def Utf8.between (bomSeen : Bool) : Utf8 := ⟨0, 0, 0, 0x80, 0xBF, bomSeen⟩

/-- A code point is complete; the byte order mark at the start is dropped. -/
def Utf8.emit (d : Utf8) (codePoint : ℕ) : Utf8 × Option Char :=
  (.between true, if !d.bomSeen && codePoint = 0xFEFF then none else some (Char.ofNat codePoint))

/-- One byte; `none` when it is malformed. -/
def Utf8.byte (d : Utf8) (b : UInt8) : Option (Utf8 × Option Char) :=
  let n := b.toNat
  if d.needed = 0 then
    if n ≤ 0x7F then some (d.emit n)
    else if 0xC2 ≤ n ∧ n ≤ 0xDF then some ({ d with needed := 1, codePoint := n % 0x20 }, none)
    else if 0xE0 ≤ n ∧ n ≤ 0xEF then
      some ({ d with needed := 2, codePoint := n % 0x10, lower := if n = 0xE0 then 0xA0
                     else d.lower,
                     upper := if n = 0xED then 0x9F else d.upper }, none)
    else if 0xF0 ≤ n ∧ n ≤ 0xF4 then
      some ({ d with needed := 3, codePoint := n % 0x8, lower := if n = 0xF0 then 0x90 else d.lower,
                     upper := if n = 0xF4 then 0x8F else d.upper }, none)
    else none
  else if d.lower ≤ n ∧ n ≤ d.upper then
    let codePoint := d.codePoint * 0x40 + n % 0x40
    if d.seen + 1 = d.needed then some (d.emit codePoint)
    else some ({ d with seen := d.seen + 1, codePoint := codePoint, lower := 0x80, upper := 0xBF },
      none)
  else none

/-- `decoder.decode(bytes, { stream: true })`. -/
def Utf8.decode (d : Utf8) : List UInt8 → Option (Utf8 × List Char)
  | [] => some (d, [])
  | b :: bytes =>
      match d.byte b with
      | none => none
      | some (d', c) => (decode d' bytes).map fun r => (r.1, c.toList ++ r.2)

/-! ## Lines and frames -/

/-- `JSON.parse`, the guard of the events, and the members that the parser reads. -/
structure Contracts (J : Type) where
  parse : List Char → Option J
  event : J → Bool
  runId : J → String
  id : J → ℕ

/-- `FRAME_BYTES`. -/
def frameBytes : ℕ := 65536

/-- The size of a piece. -/
def pieceBytes : ℕ := 4096

/-- `encoder.encode(value).length`. -/
def encodedLength (value : List Char) : ℕ := (value.map Char.utf8Size).sum

/-- The frame that is being read, and the last event. -/
structure Frame where
  data : List (List Char)
  id : Option (List Char)
  bytes : ℕ
  lastId : ℕ

/-- The text that waits for the end of its line. -/
structure Text where
  pending : List Char
  skipLf : Bool

variable {J : Type} (contracts : Contracts J) (runId : String)

/-- The blank line at the end of a frame. -/
def dispatch (f : Frame) : Except String (Frame × Option J) :=
  let json := List.intercalate ['\n'] f.data
  let next : Frame := ⟨[], none, 0, f.lastId⟩
  if json = [] then .ok (next, none)
  else
    match contracts.parse json with
    | none => .error "Malformed extraction event"
    | some parsed =>
        if !contracts.event parsed ∨ contracts.runId parsed ≠ runId
            ∨ f.id ≠ some (toString (contracts.id parsed)).toList then
          .error "Invalid extraction event identity"
        else if contracts.id parsed ≤ f.lastId then .ok (next, none)
        else .ok ({ next with lastId := contracts.id parsed }, some parsed)

/-- `/^[1-9]\d*$/`. -/
def isEventId : List Char → Bool
  | [] => false
  | c :: cs => ('1' ≤ c ∧ c ≤ '9') && cs.all Char.isDigit

/-- A line of a frame. -/
def field (f : Frame) (value : List Char) : Except String Frame :=
  let name := value.takeWhile (· ≠ ':')
  let raw := (value.dropWhile (· ≠ ':')).drop 1
  let content := if raw.head? = some ' ' then raw.drop 1 else raw
  if name = "data".toList then .ok { f with data := f.data ++ [content] }
  else if name = "id".toList then
    if f.id ≠ none ∨ !isEventId content then .error "Invalid event ID"
      else .ok { f with id := some content }
  else .ok f

/-- `line`. -/
def line (f : Frame) (value : List Char) : Except String (Frame × Option J) :=
  if value.head? = some ':' then .ok (f, none)
  else
    let f := { f with bytes := f.bytes + encodedLength value + 1 }
    if frameBytes < f.bytes then .error "Extraction frame exceeds 64 KiB"
    else if value = [] then dispatch contracts runId f
    else (field f value).map fun f => (f, none)

/-- A line feed that completes a CRLF across two pieces is dropped. -/
def dropLf (t : Text) : Text :=
  if t.skipLf ∧ 0 < t.pending.length then
    ⟨if t.pending.head? = some '\n' then t.pending.drop 1 else t.pending, false⟩
  else t

/-- The next line and the text after its end; an index that is not found is the length. -/
def cutLine (t : Text) : Text × Option (List Char) :=
  let cr := t.pending.idxOf '\r'
  let lf := t.pending.idxOf '\n'
  if cr < lf then
    if cr + 1 = t.pending.length then (⟨t.pending.drop (cr + 1), true⟩, some (t.pending.take cr))
    else
      let next := if t.pending[cr + 1]? = some '\n' then cr + 2 else cr + 1
      ({ t with pending := t.pending.drop next }, some (t.pending.take cr))
  else if lf < t.pending.length then ({ t with pending := t.pending.drop (lf + 1) },
    some (t.pending.take lf))
  else (t, none)

theorem length_dropLf_le (t : Text) : (dropLf t).pending.length ≤ t.pending.length := by
  unfold dropLf
  split_ifs
  · simp
  · exact le_rfl
  · exact le_rfl

theorem length_cutLine_lt {t t' : Text} {value : List Char} (h : cutLine t = (t', some value)) :
    t'.pending.length < t.pending.length := by
  simp only [cutLine] at h
  have hcr : t.pending.idxOf '\r' < t.pending.idxOf '\n' →
      t.pending.idxOf '\r' < t.pending.length :=
    fun hlt => hlt.trans_le List.idxOf_le_length
  split_ifs at h <;> cases h <;> simp only [List.length_drop] <;> omega

/-- `drain`: the events that it yields, and the state after it unless a line is refused. -/
def drain (t : Text) (f : Frame) : List J × Except String (Text × Frame) :=
  match _hcut : cutLine (dropLf t) with
  | (t', none) => ([], .ok (t', f))
  | (t', some value) =>
      match line contracts runId f value with
      | .error e => ([], .error e)
      | .ok (f', e) => (e.toList ++ (drain t' f').1, (drain t' f').2)
termination_by t.pending.length
decreasing_by
  all_goals exact (length_cutLine_lt _hcut).trans_le (length_dropLf_le t)

/-! ## The stream -/

structure State where
  decoder : Utf8
  text : Text
  frame : Frame

/-- One piece of a chunk. -/
def piece (s : State) (bytes : List UInt8) : List J × Except String State :=
  match s.decoder.decode bytes with
  | none => ([], .error "Invalid extraction UTF-8")
  | some (d, text) =>
      match drain contracts runId { s.text with pending := s.text.pending ++ text } s.frame with
      | (es, .error e) => (es, .error e)
      | (es, .ok (t, f)) =>
          if frameBytes < f.bytes + encodedLength t.pending
            then (es, .error "Extraction frame exceeds 64 KiB")
          else (es, .ok ⟨d, t, f⟩)

/-- The pieces of a chunk. -/
def pieces (s : State) : List (List UInt8) → List J × Except String State
  | [] => ([], .ok s)
  | p :: ps =>
      match piece contracts runId s p with
      | (es, .error e) => (es, .error e)
      | (es, .ok s') => (es ++ (pieces s' ps).1, (pieces s' ps).2)

/-- The loop over the chunks, as far as they go. -/
def readChunks (s : State) : List (List UInt8) → List J × Except String State
  | [] => ([], .ok s)
  | chunk :: chunks =>
      match pieces contracts runId s (PieceReader.slices pieceBytes chunk) with
      | (es, .error e) => (es, .error e)
      | (es, .ok s') => (es ++ (readChunks s' chunks).1, (readChunks s' chunks).2)

/-- `decode(decoder)` at the end of the stream. -/
def flush : Except String State → Option String
  | .error e => some e
  | .ok s => if s.decoder.needed = 0 then none else some "Invalid extraction UTF-8"

/-- The whole loop: the events, and the error unless the stream ends normally. -/
def read (s : State) (chunks : List (List UInt8)) : List J × Option String :=
  ((readChunks contracts runId s chunks).1, flush (readChunks contracts runId s chunks).2)

/-- What the parser looks at in a response. -/
structure Response where
  ok : Bool
  contentType : Option String
  body : Option (List (List UInt8))

/-- The groups of a UUID: the letters that may begin it, and its length. -/
def uuidGroups : List (List Char × ℕ) :=
  [("0123456789abcdef".toList, 8), ("0123456789abcdef".toList, 4), ("12345678".toList, 4),
    ("89ab".toList, 4),
    ("0123456789abcdef".toList, 12)]

/-- `uuid`, without regard to case. -/
def uuid (v : String) : Bool :=
  let groups := v.toList.splitOn '-'
  groups.length = uuidGroups.length && (groups.zip uuidGroups).all fun (group, first, n) =>
    group.length = n && group.all (fun c => c.toLower ∈ "0123456789abcdef".toList)
      && group.head?.any (·.toLower ∈ first)

/-- The response is an event stream for a run. -/
def accepts (runId : String) (response : Response) : Bool :=
  uuid runId && response.ok && response.contentType.any fun type =>
    "text/event-stream".toList.isPrefixOf type.toList

def start (lastId : ℕ) : State := ⟨.between false, ⟨[], false⟩, ⟨[], none, 0, lastId⟩⟩

/-- `parseExtractionEvents`. -/
def parseExtractionEvents (response : Response) (lastId : ℕ) : List J × Option String :=
  match response.body with
  | none => ([], some "Invalid extraction stream")
  | some chunks =>
      if accepts runId response then read contracts runId (start lastId) chunks
      else ([], some "Invalid extraction stream")

/-! ## One character at a time -/

/-- One character. -/
def char (t : Text) (f : Frame) (c : Char) : Except String ((Text × Frame) × Option J) :=
  if t.skipLf ∧ c = '\n' then .ok (({ t with skipLf := false }, f), none)
  else if c = '\r' ∨ c = '\n' then (line contracts runId f t.pending).map fun r =>
    ((⟨[], c = '\r'⟩, r.1), r.2)
  else .ok ((⟨t.pending ++ [c], false⟩, f), none)

/-- A text, character by character. -/
def chars (t : Text) (f : Frame) : List Char → List J × Except String (Text × Frame)
  | [] => ([], .ok (t, f))
  | c :: cs =>
      match char contracts runId t f c with
      | .error e => ([], .error e)
      | .ok ((t', f'), e) => (e.toList ++ (chars t' f' cs).1, (chars t' f' cs).2)

/-- The text that is left after `drain`. -/
structure Text.Ready (t : Text) : Prop where
  cr : '\r' ∉ t.pending
  lf : '\n' ∉ t.pending
  skip : t.skipLf = true → t.pending = []

section Drain

variable {contracts} {runId} {p rest : List Char} {f : Frame}

/-- Without a line end there is no line. -/
theorem cutLine_none (hcr : '\r' ∉ p) (hlf : '\n' ∉ p) (skipLf : Bool) :
    cutLine ⟨p, skipLf⟩ = (⟨p, skipLf⟩, none) := by
  simp only [cutLine, List.idxOf_of_notMem hcr, List.idxOf_of_notMem hlf]
  simp

/-- A line ends at a line feed. -/
theorem cutLine_lf (hcr : '\r' ∉ p) (hlf : '\n' ∉ p) (rest : List Char) (skipLf : Bool) :
    cutLine ⟨p ++ '\n' :: rest, skipLf⟩ = (⟨rest, skipLf⟩, some p) := by
  have hcr' : (p ++ '\n' :: rest).idxOf '\r' = p.length + (rest.idxOf '\r' + 1) := by
    rw [List.idxOf_append_of_notMem hcr, List.idxOf_cons_ne _ (by decide)]
  have hlf' : (p ++ '\n' :: rest).idxOf '\n' = p.length := by
    rw [List.idxOf_append_of_notMem hlf, List.idxOf_cons_self, Nat.add_zero]
  simp only [cutLine, hcr', hlf']
  rw [if_neg (by omega), if_pos (by simp)]
  simp

theorem idxOf_cr (hcr : '\r' ∉ p) (hlf : '\n' ∉ p) (rest : List Char) :
    (p ++ '\r' :: rest).idxOf '\r' = p.length ∧ p.length < (p ++ '\r' :: rest).idxOf '\n' := by
  constructor
  · rw [List.idxOf_append_of_notMem hcr, List.idxOf_cons_self, Nat.add_zero]
  · rw [List.idxOf_append_of_notMem hlf, List.idxOf_cons_ne _ (by decide)]
    omega

/-- A carriage return at the end of the text ends a line, and a line feed may still follow. -/
theorem cutLine_cr_end (hcr : '\r' ∉ p) (hlf : '\n' ∉ p) (skipLf : Bool) :
    cutLine ⟨p ++ ['\r'], skipLf⟩ = (⟨[], true⟩, some p) := by
  obtain ⟨hcr', hlf'⟩ := idxOf_cr hcr hlf []
  simp only [cutLine, hcr', if_pos hlf']
  simp

/-- A carriage return ends a line, with the line feed that follows it. -/
theorem cutLine_cr (hcr : '\r' ∉ p) (hlf : '\n' ∉ p) (c : Char) (rest : List Char) (skipLf : Bool) :
    cutLine ⟨p ++ '\r' :: c :: rest, skipLf⟩
    = (⟨if c = '\n' then rest else c :: rest, skipLf⟩, some p) := by
  obtain ⟨hcr', hlf'⟩ := idxOf_cr hcr hlf (c :: rest)
  simp only [cutLine, hcr', if_pos hlf']
  rw [if_neg (by simp)]
  by_cases hc : c = '\n'
  · simp [hc, List.drop_append]
  · simp [hc, List.drop_append]

theorem dropLf_of_not_skip (p : List Char) : dropLf ⟨p, false⟩ = ⟨p, false⟩ := by simp [dropLf]

theorem dropLf_lf (rest : List Char) :
    dropLf ⟨'\n' :: rest, true⟩ = ⟨rest, false⟩ := by simp [dropLf]

theorem dropLf_cons {c : Char} (hc : c ≠ '\n') (rest : List Char) :
    dropLf ⟨c :: rest, true⟩ = ⟨c :: rest, false⟩ := by
  simp [dropLf, hc]

/-- Without a line nothing is drained. -/
theorem drain_of_none {t t' : Text} (h : cutLine (dropLf t) = (t', none)) :
    drain contracts runId t f = ([], .ok (t', f)) := by
  rw [drain]
  split
  · rename_i heq
    rw [h] at heq
    cases heq
    rfl
  · rename_i heq
    rw [h] at heq
    cases heq

/-- A line is handled, and then the rest. -/
theorem drain_of_some {t t' : Text} {value : List Char}
    (h : cutLine (dropLf t) = (t', some value)) :
    drain contracts runId t f = match line contracts runId f value with
      | .error e => ([], .error e)
      | .ok (f', e) => (e.toList ++ (drain contracts runId t' f').1,
        (drain contracts runId t' f').2) := by
  rw [drain]
  split
  · rename_i heq
    rw [h] at heq
    cases heq
  · rename_i heq
    rw [h] at heq
    cases heq
    rfl

/-- A skipped line feed does not matter to what is drained. -/
theorem drain_congr {t t' : Text} (h : dropLf t = dropLf t') :
    drain contracts runId t f = drain contracts runId t' f := by
  cases hcut : cutLine (dropLf t) with
  | mk t₁ o =>
      cases o with
      | none => rw [drain_of_none hcut, drain_of_none (h ▸ hcut)]
      | some value => rw [drain_of_some hcut, drain_of_some (h ▸ hcut)]

/-- After a carriage return the rest is drained as after the end of a piece. -/
theorem drain_cr (hcr : '\r' ∉ p) (hlf : '\n' ∉ p) (rest : List Char) :
    drain contracts runId ⟨p ++ '\r' :: rest, false⟩ f = match line contracts runId f p with
      | .error e => ([], .error e)
      | .ok (f', e) =>
          (e.toList ++ (drain contracts runId ⟨rest, true⟩ f').1,
            (drain contracts runId ⟨rest, true⟩ f').2) := by
  cases rest with
  | nil =>
      refine drain_of_some ?_
      rw [dropLf_of_not_skip, cutLine_cr_end hcr hlf]
  | cons c rest =>
      have hcut : cutLine (dropLf ⟨p ++ '\r' :: c :: rest, false⟩)
          = (⟨if c = '\n' then rest else c :: rest, false⟩, some p) := by
        rw [dropLf_of_not_skip, cutLine_cr hcr hlf]
      have hsame :
          dropLf ⟨if c = '\n' then rest else c :: rest, false⟩ = dropLf ⟨c :: rest, true⟩ := by
        by_cases hc : c = '\n'
        · rw [if_pos hc, hc, dropLf_lf, dropLf_of_not_skip]
        · rw [if_neg hc, dropLf_cons hc, dropLf_of_not_skip]
      rw [drain_of_some hcut]
      simp only [drain_congr hsame]

/-- A line that ends in a line feed is handled first. -/
theorem drain_lf (hcr : '\r' ∉ p) (hlf : '\n' ∉ p) (rest : List Char) :
    drain contracts runId ⟨p ++ '\n' :: rest, false⟩ f = match line contracts runId f p with
      | .error e => ([], .error e)
      | .ok (f', e) =>
          (e.toList ++ (drain contracts runId ⟨rest, false⟩ f').1,
            (drain contracts runId ⟨rest, false⟩ f').2) := by
  refine drain_of_some ?_
  rw [dropLf_of_not_skip, cutLine_lf hcr hlf]

/-- **Draining a text is looking at its characters one after the other.** -/
theorem drain_append {t : Text} (ht : t.Ready) (text : List Char) :
    drain contracts runId { t with pending := t.pending ++ text } f
    = chars contracts runId t f text := by
  induction text generalizing t f with
  | nil =>
      obtain ⟨p, skipLf⟩ := t
      have hdrop : dropLf ⟨p, skipLf⟩ = ⟨p, skipLf⟩ := by
        cases skipLf with
        | false => exact dropLf_of_not_skip p
        | true => simp [dropLf, show p = [] from ht.skip rfl]
      refine drain_of_none ?_
      rw [List.append_nil, hdrop]
      exact cutLine_none ht.cr ht.lf skipLf
  | cons c text ih =>
      obtain ⟨p, skipLf⟩ := t
      have hready : (⟨[], true⟩ : Text).Ready := ⟨List.not_mem_nil, List.not_mem_nil, fun _ => rfl⟩
      have hready' : (⟨[], false⟩ : Text).Ready :=
        ⟨List.not_mem_nil, List.not_mem_nil, fun _ => rfl⟩
      rw [chars]
      by_cases hskip : skipLf = true ∧ c = '\n'
      · obtain ⟨rfl, rfl⟩ := hskip
        obtain rfl : p = [] := ht.skip rfl
        have hchar : char contracts runId ⟨[], true⟩ f '\n' = .ok ((⟨[], false⟩, f), none) := by
          simp [char]
        rw [hchar]
        show drain contracts runId ⟨'\n' :: text, true⟩ f = (_ ++ _, _)
        rw [drain_congr ((dropLf_lf text).trans (dropLf_of_not_skip text).symm), ← ih hready']
        rfl
      · -- otherwise the flag does not matter
        have hdrain : drain contracts runId ⟨p ++ c :: text, skipLf⟩ f
            = drain contracts runId ⟨p ++ c :: text, false⟩ f := by
          cases skipLf with
          | false => rfl
          | true =>
              obtain rfl : p = [] := ht.skip rfl
              refine drain_congr ?_
              rw [List.nil_append, dropLf_of_not_skip, dropLf_cons fun hc => hskip ⟨rfl, hc⟩]
        show drain contracts runId ⟨p ++ c :: text, skipLf⟩ f = _
        rw [hdrain, char, if_neg hskip]
        by_cases hcr : c = '\r'
        · subst hcr
          rw [if_pos (.inl rfl), drain_cr ht.cr ht.lf]
          show (match line contracts runId f p with | .error e => _ | .ok (f', e) => _) = _
          cases line contracts runId f p with
          | error e => rfl
          | ok r => exact congrArg (fun x => (r.2.toList ++ x.1, x.2)) (ih (f := r.1) hready)
        · by_cases hlf : c = '\n'
          · subst hlf
            rw [if_pos (.inr rfl), drain_lf ht.cr ht.lf]
            show (match line contracts runId f p with | .error e => _ | .ok (f', e) => _) = _
            cases line contracts runId f p with
            | error e => rfl
            | ok r => exact congrArg (fun x => (r.2.toList ++ x.1, x.2)) (ih (f := r.1) hready')
          · rw [if_neg (by rw [not_or]; exact ⟨hcr, hlf⟩)]
            have hnext : (⟨p ++ [c], false⟩ : Text).Ready := by
              refine ⟨?_, ?_, fun h => Bool.noConfusion h⟩
              · simpa using ⟨ht.cr, fun h => hcr h.symm⟩
              · simpa using ⟨ht.lf, fun h => hlf h.symm⟩
            have hih := ih (f := f) hnext
            simp only [List.append_assoc, List.singleton_append] at hih
            rw [hih]
            rfl

/-- A character leaves no whole line behind. -/
theorem Text.Ready.char {t : Text} (ht : t.Ready) {c : Char} {t' : Text} {f' : Frame} {e : Option J}
    (h : char contracts runId t f c = .ok ((t', f'), e)) : t'.Ready := by
  unfold Sse.char at h
  split_ifs at h with hskip hend
  · cases h
    exact ⟨ht.cr, ht.lf, fun h => Bool.noConfusion h⟩
  · cases hline : line contracts runId f t.pending with
    | error e =>
        rw [hline] at h
        cases h
    | ok r =>
        rw [hline] at h
        cases h
        exact ⟨List.not_mem_nil, List.not_mem_nil, fun _ => rfl⟩
  · cases h
    rw [not_or] at hend
    refine ⟨?_, ?_, fun h => Bool.noConfusion h⟩
    · simpa using ⟨ht.cr, fun h => hend.1 h.symm⟩
    · simpa using ⟨ht.lf, fun h => hend.2 h.symm⟩

/-- Characters leave no whole line behind. -/
theorem Text.Ready.chars {t : Text} (ht : t.Ready) {text : List Char} {es : List J}
    {t' : Text} {f' : Frame}
    (h : chars contracts runId t f text = (es, .ok (t', f'))) : t'.Ready := by
  induction text generalizing t f es with
  | nil =>
      cases h
      exact ht
  | cons c text ih =>
      rw [Sse.chars] at h
      cases hchar : Sse.char contracts runId t f c with
      | error e =>
          rw [hchar] at h
          cases h
      | ok r =>
          obtain ⟨⟨t₁, f₁⟩, e⟩ := r
          rw [hchar] at h
          exact ih (ht.char hchar) (Prod.ext rfl (Prod.mk.inj h).2)

end Drain

/-! ## One byte at a time -/

/-- One byte. -/
def byte (s : State) (b : UInt8) : Option (State × Option J) :=
  match s.decoder.byte b with
  | none => none
  | some (d, none) => some ({ s with decoder := d }, none)
  | some (d, some c) =>
      match char contracts runId s.text s.frame c with
      | .error _ => none
      | .ok ((t, f), e) => some (⟨d, t, f⟩, e)

/-- Bytes are decoded one after the other. -/
theorem isSome_decode_cons {d d' : Utf8} {b : UInt8} {c : Option Char} (h : d.byte b = some (d', c))
    (bytes : List UInt8) :
    (d.decode (b :: bytes)).isSome = (d'.decode bytes).isSome := by
  rw [Utf8.decode, h, Option.isSome_map]

/-- A first part of decodable bytes is decodable. -/
theorem isSome_decode_of_append {d : Utf8} {bytes bytes' : List UInt8}
    (h : (d.decode (bytes ++ bytes')).isSome = true) :
    (d.decode bytes).isSome = true := by
  induction bytes generalizing d with
  | nil => rfl
  | cons b bytes ih =>
      rw [List.cons_append] at h
      cases hb : d.byte b with
      | none =>
          rw [Utf8.decode, hb] at h
          cases h
      | some r =>
          obtain ⟨d', c⟩ := r
          rw [isSome_decode_cons hb] at h ⊢
          exact ih h

/-- A byte moves the decoder as it moves the state. -/
theorem decoder_of_byte {s s' : State} {b : UInt8} {e : Option J}
    (h : byte contracts runId s b = some (s', e)) :
    ∃ c, s.decoder.byte b = some (s'.decoder, c) := by
  unfold byte at h
  cases hb : s.decoder.byte b with
  | none =>
      rw [hb] at h
      cases h
  | some r =>
      obtain ⟨d, c⟩ := r
      rw [hb] at h
      cases c with
      | none =>
          cases h
          exact ⟨none, rfl⟩
      | some c =>
          cases hchar : char contracts runId s.text s.frame c with
          | error e =>
              simp only [hchar] at h
              cases h
          | ok r =>
              simp only [hchar] at h
              cases h
              exact ⟨some c, rfl⟩

/-- **The parser one byte at a time.** -/
def reader : PieceReader State UInt8 J where
  step := byte contracts runId
  decodes s bytes := (s.decoder.decode bytes).isSome
  full s := frameBytes < s.frame.bytes + encodedLength s.text.pending
  mayEnd s := s.decoder.needed = 0
  decodes_nil _ := rfl
  decodes_cons h l := by
    obtain ⟨c, hc⟩ := decoder_of_byte contracts runId h
    exact isSome_decode_cons hc l
  decodes_of_append := isSome_decode_of_append

section Feed

variable {contracts} {runId} {s : State}

/-- The bytes of a piece that can be decoded, one after the other. -/
theorem run_reader {bytes : List UInt8} {d : Utf8} {text : List Char}
    (h : s.decoder.decode bytes = some (d, text)) :
    (reader contracts runId).run s bytes = ((chars contracts runId s.text s.frame text).1,
      match (chars contracts runId s.text s.frame text).2 with
      | .error _ => none
      | .ok (t, f) => some ⟨d, t, f⟩) := by
  induction bytes generalizing s d text with
  | nil =>
      cases h
      rfl
  | cons b bytes ih =>
      rw [Utf8.decode] at h
      -- the byte is refused
      cases hb : s.decoder.byte b with
      | none =>
          rw [hb] at h
          cases h
      | some r =>
          obtain ⟨d', c⟩ := r
          rw [hb] at h
          obtain ⟨⟨d'', text'⟩, hdecode, heq⟩ := Option.map_eq_some_iff.mp h
          cases heq
          rw [PieceReader.run]
          cases c with
          -- no character is complete yet
          | none =>
              have hstep :
                  (reader contracts runId).step s b = some ({ s with decoder := d' }, none) := by
                show byte contracts runId s b = _
                rw [byte, hb]
              rw [hstep]
              exact ih (s := { s with decoder := d' }) hdecode
          | some c =>
              rw [Option.toList_some, List.singleton_append, chars]
              -- a character that closes no piece, refuses the stream or goes on
              cases hchar : char contracts runId s.text s.frame c with
              | error e =>
                  have hstep : (reader contracts runId).step s b = none := by
                    show byte contracts runId s b = _
                    simp only [byte, hb, hchar]
                  rw [hstep]
              | ok r =>
                  obtain ⟨⟨t, f⟩, e⟩ := r
                  have hstep : (reader contracts runId).step s b = some (⟨d', t, f⟩, e) := by
                    show byte contracts runId s b = _
                    simp only [byte, hb, hchar]
                  rw [hstep]
                  simp only [ih (s := ⟨d', t, f⟩) hdecode]

/-- **A piece** is a piece of the reader. -/
theorem feed_piece (hs : s.text.Ready) (bytes : List UInt8) (ps : List (List UInt8)) :
    match piece contracts runId s bytes with
    | (es, .error _) => (reader contracts runId).feed s (bytes :: ps) = (es, false)
    | (es, .ok s') => s'.text.Ready ∧ (reader contracts runId).feed s (bytes :: ps)
        = (es ++ ((reader contracts runId).feed s' ps).1,
          ((reader contracts runId).feed s' ps).2) := by
  cases hdecode : s.decoder.decode bytes with
  | none =>
      simp only [piece, hdecode]
      rw [PieceReader.feed, if_neg]
      show ¬ (s.decoder.decode bytes).isSome = true
      rw [hdecode]
      decide
  | some r =>
      obtain ⟨d, text⟩ := r
      have hok : (reader contracts runId).decodes s bytes = true := by
        show (s.decoder.decode bytes).isSome = true
        rw [hdecode]
        rfl
      simp only [piece, hdecode, drain_append hs]
      rw [PieceReader.feed, if_pos hok, run_reader hdecode]
      obtain ⟨es, o, hchars⟩ : ∃ es o, chars contracts runId s.text s.frame text = (es, o) :=
        ⟨_, _, rfl⟩
      rw [hchars]
      cases o with
      | error e => rfl
      | ok r =>
          obtain ⟨t, f⟩ := r
          have hfull : (reader contracts runId).full ⟨d, t, f⟩
            = decide (frameBytes < f.bytes + encodedLength t.pending) := rfl
          by_cases hlarge : frameBytes < f.bytes + encodedLength t.pending
          · simp only [hfull, if_pos hlarge, decide_eq_true hlarge, if_true]
          · simp only [hfull, if_neg hlarge, decide_eq_false hlarge, Bool.false_eq_true, if_false]
            exact ⟨hs.chars hchars, trivial⟩

/-- **The loop over the pieces of a chunk** feeds them to the reader. -/
theorem feed_pieces (hs : s.text.Ready) (ps rest : List (List UInt8)) :
    match pieces contracts runId s ps with
    | (es, .error _) => (reader contracts runId).feed s (ps ++ rest) = (es, false)
    | (es, .ok s') => s'.text.Ready ∧ (reader contracts runId).feed s (ps ++ rest)
        = (es ++ ((reader contracts runId).feed s' rest).1,
          ((reader contracts runId).feed s' rest).2) := by
  induction ps generalizing s with
  | nil => exact ⟨hs, rfl⟩
  | cons p ps ih =>
      have hpiece := @feed_piece J contracts runId s hs p (ps ++ rest)
      rw [pieces, List.cons_append]
      obtain ⟨es, o, hres⟩ : ∃ es o, piece contracts runId s p = (es, o) := ⟨_, _, rfl⟩
      rw [hres] at hpiece ⊢
      cases o with
      | error e => exact hpiece
      | ok s' =>
          obtain ⟨hs', hfeed⟩ := hpiece
          have hrest := ih hs'
          simp only [hfeed]
          obtain ⟨es', o', hres'⟩ : ∃ es' o', pieces contracts runId s' ps = (es', o') :=
            ⟨_, _, rfl⟩
          rw [hres'] at hrest ⊢
          cases o' with
          | error e =>
              show (es ++ _, _) = (es ++ es', false)
              rw [hrest]
          | ok s'' =>
              refine ⟨hrest.1, ?_⟩
              show (es ++ _, _) = (es ++ es' ++ _, _)
              rw [hrest.2, List.append_assoc]

/-- The events, and whether the stream ends normally. -/
def outcome (r : List J × Option String) : List J × Bool := (r.1, r.2.isNone)

/-- **The parser is a reader that is fed in pieces.** -/
theorem outcome_read (hs : s.text.Ready) (chunks : List (List UInt8)) :
    outcome (read contracts runId s chunks)
    = (reader contracts runId).feed s (chunks.flatMap (PieceReader.slices pieceBytes)) := by
  induction chunks generalizing s with
  | nil =>
      show ([], Option.isNone (if s.decoder.needed = 0 then none else some _))
        = ([], decide (s.decoder.needed = 0))
      split_ifs with h
      · rw [decide_eq_true h]
        rfl
      · rw [decide_eq_false h]
        rfl
  | cons chunk chunks ih =>
      have hpieces := @feed_pieces J contracts runId s hs (PieceReader.slices pieceBytes chunk)
        (chunks.flatMap (PieceReader.slices pieceBytes))
      rw [read, readChunks, List.flatMap_cons]
      obtain ⟨es, o, hres⟩ : ∃ es o, pieces contracts runId s (PieceReader.slices pieceBytes chunk)
        = (es, o) := ⟨_, _, rfl⟩
      rw [hres] at hpieces ⊢
      cases o with
      | error e => exact hpieces.symm
      | ok s' =>
          obtain ⟨hs', hfeed⟩ := hpieces
          rw [hfeed, ← ih hs']
          rfl

end Feed

/-! ## Chunks -/

/-- A new response has no pending text. -/
theorem start_ready (lastId : ℕ) : (start lastId).text.Ready :=
  ⟨List.not_mem_nil, List.not_mem_nil, fun _ => rfl⟩

theorem start_not_full (lastId : ℕ) : (reader contracts runId).full (start lastId) = false := rfl

/-- The result of a response that carries a list of chunks. -/
def resultOf (response : Response) (lastId : ℕ) (chunks : List (List UInt8)) : List J × Bool :=
  outcome (parseExtractionEvents contracts runId { response with body := some chunks } lastId)

/-- The result of two lists of chunks with the same bytes is the same. -/
def ChunksAgree (response : Response) (lastId : ℕ) (bytes : List UInt8) : Prop :=
  ∀ chunks chunks', chunks.flatten = bytes → chunks'.flatten = bytes →
    resultOf contracts runId response lastId chunks
      = resultOf contracts runId response lastId chunks'

variable {contracts runId} in
/-- For an accepted response the chunks agree if and only if the reader is steady. -/
theorem chunksAgree_of_accepts {response : Response} (haccepts : accepts runId response = true)
    (lastId : ℕ)
    (bytes : List UInt8) : ChunksAgree contracts runId response lastId bytes
      ↔ (reader contracts runId).Steady pieceBytes (start lastId) bytes := by
  have hW : 0 < pieceBytes := by decide
  have hresult : ∀ chunks, resultOf contracts runId response lastId chunks
      = (reader contracts runId).feed (start lastId)
        (chunks.flatMap (PieceReader.slices pieceBytes)) := by
    intro chunks
    rw [← outcome_read (start_ready lastId)]
    show outcome (if accepts runId response then _ else _) = _
    rw [if_pos haccepts]
  rw [ChunksAgree, ← PieceReader.feed_agree_iff hW (start_not_full contracts runId lastId)]
  simp only [hresult]
  constructor
  · intro h ps ps' hps hps'
    rw [← hps.flatMap_slices, ← hps'.flatMap_slices]
    exact h ps ps' hps.1 hps'.1
  · rintro h chunks chunks' rfl heq
    refine h _ _ (PieceReader.isCut_flatMap_slices hW chunks) ?_
    rw [← heq]
    exact PieceReader.isCut_flatMap_slices hW chunks'

/-- **The result does not depend on the chunks exactly when** the response is refused, or the bytes
are steady: an event is followed by bytes that can be decoded, and nothing but an error follows once
the unfinished line and its frame have been larger than 64 KiB. -/
theorem chunksAgree_iff (response : Response) (lastId : ℕ) (bytes : List UInt8) :
    ChunksAgree contracts runId response lastId bytes
      ↔ (accepts runId response = true →
        (reader contracts runId).Steady pieceBytes (start lastId) bytes) := by
  by_cases haccepts : accepts runId response = true
  · rw [chunksAgree_of_accepts haccepts]
    exact ⟨fun h _ => h, fun h => h haccepts⟩
  · refine iff_of_true (fun chunks chunks' _ _ => ?_) fun h => absurd h haccepts
    show outcome (if accepts runId response then _ else _)
      = outcome (if accepts runId response then _ else _)
    rw [if_neg haccepts, if_neg haccepts]

/-! ## A long comment -/

/-- A comment of 65537 bytes and its line feed. -/
def longComment : List UInt8 := (58 :: List.replicate 65536 120) ++ [10]

/-- The state inside the comment. -/
def inComment (k : ℕ) : State :=
  ⟨.between true, ⟨':' :: List.replicate k 'x', false⟩, ⟨[], none, 0, 0⟩⟩

/-- The state after the comment. -/
def afterComment : State := ⟨.between true, ⟨[], false⟩, ⟨[], none, 0, 0⟩⟩

theorem byte_colon : byte contracts runId (start 0) 58 = some (inComment 0, none) := rfl

theorem byte_x (k : ℕ) :
    byte contracts runId (inComment k) 120 = some (inComment (k + 1), none) := by
  have hchar : char contracts runId (inComment k).text (inComment k).frame 'x'
      = .ok ((⟨':' :: List.replicate k 'x' ++ ['x'], false⟩, (inComment k).frame), none) := rfl
  have hbyte : (inComment k).decoder.byte 120 = some (.between true, some 'x') := by
    show (Utf8.between true).byte 120 = _
    decide
  simp only [byte, hbyte, hchar]
  rw [List.cons_append, ← List.replicate_succ']
  rfl

/-- A comment grows by its characters. -/
theorem run_inComment (j k : ℕ) :
    (reader contracts runId).run (inComment j) (List.replicate k 120)
    = ([], some (inComment (j + k))) := by
  induction k generalizing j with
  | zero => rfl
  | succ k ih =>
      have hstep :
          (reader contracts runId).step (inComment j) 120 = some (inComment (j + 1), none) :=
        byte_x contracts runId j
      rw [List.replicate_succ, PieceReader.run, hstep]
      simp only [ih, Option.toList_none, List.nil_append]
      rw [show j + 1 + k = j + (k + 1) by omega]

/-- A comment begins with a colon. -/
theorem run_comment (k : ℕ) :
    (reader contracts runId).run (start 0) (58 :: List.replicate k 120)
    = ([], some (inComment k)) := by
  have hstep : (reader contracts runId).step (start 0) 58 = some (inComment 0, none) :=
    byte_colon contracts runId
  rw [PieceReader.run, hstep]
  simp only [run_inComment, Option.toList_none, List.nil_append, Nat.zero_add]

/-- A long comment fills the frame. -/
theorem full_inComment (k : ℕ) :
    (reader contracts runId).full (inComment k) = decide (frameBytes < k + 1) := by
  show decide (frameBytes < 0 + encodedLength (':' :: List.replicate k 'x')) = _
  have hlen : encodedLength (':' :: List.replicate k 'x') = k + 1 := by
    rw [encodedLength, List.map_cons, List.map_replicate, List.sum_cons, List.sum_replicate]
    show 1 + k * 1 = k + 1
    omega
  rw [hlen, Nat.zero_add]

/-- The long comment is skipped at its end. -/
theorem run_longComment :
    (reader contracts runId).run (start 0) longComment = ([], some afterComment) := by
  rw [longComment, PieceReader.run_append (run_comment contracts runId 65536)]
  rfl

/-- Only the end of the comment is too large. -/
theorem fullAt_longComment {q : ℕ} : (reader contracts runId).FullAt (start 0) longComment q ↔
    q = 65537 := by
  have hlen : longComment.length = 65538 := by
    rw [longComment, List.length_append, List.length_cons, List.length_replicate,
      List.length_singleton]
  have hinside : ∀ k ≤ 65536, (reader contracts runId).stateAt (start 0) longComment (k + 1)
      = some (inComment k) := by
    intro k hk
    rw [PieceReader.stateAt, longComment, List.cons_append, List.take_succ_cons,
      List.take_append_of_le_length
      (by rw [List.length_replicate]; exact hk), List.take_replicate, min_eq_left hk, run_comment]
  constructor
  · rintro ⟨hpos, hle, s', hs', hfull⟩
    obtain ⟨k, rfl⟩ : ∃ k, q = k + 1 := ⟨q - 1, by omega⟩
    rcases Nat.lt_or_ge 65536 k with hlast | hk
    · have hend : k + 1 = longComment.length := by omega
      rw [hend, PieceReader.stateAt_length, run_longComment] at hs'
      cases hs'
      exact Bool.noConfusion hfull
    · rw [hinside k hk] at hs'
      cases hs'
      rw [full_inComment, decide_eq_true_iff, frameBytes] at hfull
      omega
  · rintro rfl
    refine ⟨by omega, by omega, inComment 65536, hinside 65536 le_rfl, ?_⟩
    rw [full_inComment]
    exact decide_eq_true (by rw [frameBytes]; omega)

/-- An event stream without a body. -/
def eventStream : Response := ⟨true, some "text/event-stream", none⟩

/-- A parser of JSON that is not called. -/
def noEvents : Contracts Unit := ⟨fun _ => none, fun _ => false, fun _ => "", fun _ => 0⟩

/-- **A comment may be too long in small chunks only.** -/
theorem longComment_depends_on_chunks :
    ¬ ChunksAgree noEvents "00000000-0000-4000-8000-000000000001" eventStream 0 longComment := by
  rw [chunksAgree_of_accepts (by decide)]
  intro hsteady
  refine hsteady.doomed 65537 ((fullAt_longComment _ _).mpr rfl) ?_ ⟨afterComment, ?_, rfl, rfl⟩
  · rintro ⟨j, -, hall⟩
    have hfirst := (fullAt_longComment _ _).mp (hall 0 (by decide))
    have hsecond := (fullAt_longComment _ _).mp (hall 1 (by decide))
    omega
  · rw [run_longComment]

end Sse
