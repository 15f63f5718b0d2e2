/-
# The frames of the event stream

What `events.project` shows of a stored event, and the text that `events.frame` sends of it.

* `EventText.tools` are the tools of a fetch: the finite metadata fields with checked values
  (`safe`), and the size of the frame.  Redacting those fields again changes nothing
  (`redactEventPayload_safe`).
* `Page.Reads` is what the page relies on: `JSON.parse` reads the text of an event, and the schema
  accepts it. `eventPage` is such a page (`reads_eventPage`).
-/
import EvidenceLab.DocText
import EvidenceLab.EventStream
import EvidenceLab.Pagination
import EvidenceLab.Redaction
import EvidenceLab.SseFrames

/-! ## Trees as documents and as values -/

namespace Json

mutual

/-- A tree as a document. -/
def doc : Json → Extraction.Doc
  | .null => .null
  | .bool b => .bool b
  | .int i => .num (String.ofList (intText i))
  | .str s => .str s
  | .arr xs => .arr (docItems xs)
  | .obj members => .obj (docMembers members)

def docItems : List Json → List Extraction.Doc
  | [] => []
  | x :: xs => x.doc :: docItems xs

def docMembers : List (String × Json) → List (String × Extraction.Doc)
  | [] => []
  | (key, x) :: members => (key, x.doc) :: docMembers members

end

mutual

/-- A tree as a decoded value. -/
def value : Json → JsonValue
  | .null => .null
  | .bool b => .bool b
  | .int i => .int i
  | .str s => .str s
  | .arr xs => .arr (valueItems xs)
  | .obj members => .obj (valueMembers members)

def valueItems : List Json → List JsonValue
  | [] => []
  | x :: xs => x.value :: valueItems xs

def valueMembers : List (String × Json) → List (String × JsonValue)
  | [] => []
  | (key, x) :: members => (key, x.value) :: valueMembers members

end

mutual

/-- The text of a tree is that of its document. -/
theorem dump_doc : ∀ t : Json, t.doc.dump = t.dump
  | .null => rfl
  | .bool true => rfl
  | .bool false => rfl
  | .int i => by rw [doc, Extraction.Doc.dump, dump, String.toList_ofList]
  | .str s => rfl
  | .arr xs => by rw [doc, Extraction.Doc.dump, dump, dumpItems_doc]
  | .obj members => by rw [doc, Extraction.Doc.dump, dump, dumpMembers_doc]

theorem dumpItems_doc : ∀ (first : Bool) (xs : List Json),
    Extraction.Doc.dumpItems first (docItems xs) = dumpItems first xs
  | _, [] => rfl
  | first, x :: xs => by rw [docItems, Extraction.Doc.dumpItems, dumpItems, dump_doc, dumpItems_doc]

theorem dumpMembers_doc : ∀ (first : Bool) (members : List (String × Json)),
    Extraction.Doc.dumpMembers first (docMembers members) = dumpMembers first members
  | _, [] => rfl
  | first, (key, x) :: members => by
      rw [docMembers, Extraction.Doc.dumpMembers, dumpMembers, dump_doc, dumpMembers_doc]

end

/-- Members are documents one by one. -/
theorem docMembers_eq_map (members : List (String × Json)) :
    docMembers members = members.map fun m => (m.1, m.2.doc) := by
  induction members with
  | nil => rfl
  | cons m members ih =>
    obtain ⟨key, x⟩ := m
    rw [docMembers, ih, List.map_cons]

mutual

/-- Members are put into the order of their keys before or after. -/
theorem sorted_doc : ∀ t : Json, t.doc.sorted = t.sortKeys.doc
  | .null => rfl
  | .bool _ => rfl
  | .int _ => rfl
  | .str _ => rfl
  | .arr xs => by rw [doc, Extraction.Doc.sorted, sortKeys, doc, sortedItems_doc]
  | .obj members => by
      rw [doc, Extraction.Doc.sorted, sortKeys, doc, sortedMembers_doc, docMembers_eq_map,
        docMembers_eq_map,
        List.map_insertionSort (fun a b : String × Json => a.1 ≤ b.1)
        (fun a b : String × Extraction.Doc => a.1 ≤ b.1)]
      intro a _ b _
      exact Iff.rfl

/-- Sorting the tree sorts the document. -/
theorem sortedItems_doc :
    ∀ xs : List Json, Extraction.Doc.sortedItems (docItems xs) = docItems (sortItems xs)
  | [] => rfl
  | x :: xs => by
      rw [docItems, Extraction.Doc.sortedItems, sortItems, docItems, sorted_doc, sortedItems_doc]

theorem sortedMembers_doc : ∀ members : List (String × Json),
    Extraction.Doc.sortedMembers (docMembers members) = docMembers (sortMembers members)
  | [] => rfl
  | (key, x) :: members => by
      rw [docMembers, Extraction.Doc.sortedMembers, sortMembers, docMembers, sorted_doc,
        sortedMembers_doc]

end

/-- The canonical text of a tree's document. -/
theorem canonicalJson_doc (t : Json) :
    (Extraction.canonicalJson t.doc).toList = t.sortKeys.dump := by
  rw [Extraction.canonicalJson, String.toList_ofList, sorted_doc, dump_doc]

end Json

namespace Extraction

open Pagination (Uuid uuidText)

/-! ## The metadata that is shown -/

def EventType.name : EventType → String
  | .runQueued => "run_queued"
  | .runStarted => "run_started"
  | .stepStarted => "step_started"
  | .stepCompleted => "step_completed"
  | .stepFailed => "step_failed"
  | .budgetUpdated => "budget_updated"
  | .proposalsPersisted => "proposals_persisted"
  | .reviewWaiting => "review_waiting"
  | .reviewCompleted => "review_completed"
  | .runSucceeded => "run_succeeded"
  | .runFailed => "run_failed"
  | .runCancelled => "run_cancelled"
  | .heartbeat => "heartbeat"

/-- `2**53 - 1`. -/
def maxSafeInteger : ℕ := 2 ^ 53 - 1

/-- `type(value) is int and 0 <= value <= 2**53 - 1`. -/
def safeCount : Doc → Option ℕ
  | .num literal =>
      let negative := literal.toList.head? = some '-'
      let digits := if negative then literal.toList.tail else literal.toList
      let value := Nat.ofDigitChars 10 digits 0
      if digits ≠ [] ∧ digits.all Char.isDigit ∧ (negative → value = 0) ∧
        value ≤ maxSafeInteger then some value
      else none
  | _ => none

/-- `re.fullmatch(r"sha256:[0-9a-f]{64}", value)`. -/
def isHash (value : String) : Bool :=
  "sha256:".toList.isPrefixOf value.toList && value.length = 71
    && (value.toList.drop 7).all fun c => c.isDigit || ('a' ≤ c && c ≤ 'f')

/-- `\d{1,12}`. -/
def isShortNumber (digits : List Char) : Bool :=
  digits.all PyText.isDecimal && 1 ≤ digits.length && digits.length ≤ 12

/-- `re.fullmatch(r"\d{1,12}(\.\d{1,12})?", value)`. -/
def isCost (value : String) : Bool :=
  let whole := value.toList.takeWhile (· ≠ '.')
  let rest := value.toList.dropWhile (· ≠ '.')
  isShortNumber whole && (rest = [] || isShortNumber rest.tail)

/-- The keys with counts. -/
def countKeys : List String :=
  ["count", "conflicts", "proposal_count", "attempt", "calls_used", "input_tokens_used",
    "output_tokens_used",
    "input_tokens", "output_tokens"]

/-- The keys with ids. -/
def idKeys : List String := ["run_id", "review_id", "record_id", "version_id"]

/-- The keys with hashes. -/
def hashKeys : List String := ["input_hash", "output_hash"]

/-- The statuses that are shown. -/
def shownStatuses : List String :=
  ["queued", "running", "waiting_review", "succeeded", "failed", "cancelled"]

/-- What a frame shows besides its row. -/
structure EventText where
  /-- `UUID(value)`, unless it raises `ValueError`. -/
  uuid : String → Option Uuid
  /-- `row["occurred_at"].isoformat()` of the row with the id. -/
  occurredAt : ℕ → String

/-- The members of some keys. -/
def pick (keys : List String) (f : String → Option Json) : List (String × Json) :=
  keys.filterMap fun key => (f key).map fun x => (key, x)

/-- A text member with a check on its value. -/
def textIf (accepts : String → Bool) (raw : Doc) (key : String) : Option Json :=
  ((Doc.strAt key raw).filter accepts).map .str

/-- `safe` of `project`, in the order of its keys. -/
def EventText.safe (X : EventText) (raw : Doc) : List (String × Json) :=
  pick countKeys (fun key => ((raw.get? key).bind safeCount).map fun n : ℕ => .int n)
    ++ pick idKeys (fun key => ((Doc.strAt key raw).bind X.uuid).map fun u => .str (uuidText u))
    ++ pick hashKeys (textIf isHash raw)
    ++ pick ["cost_usd"] (textIf isCost raw)
    ++ pick ["step_name"] (textIf (fun s => s ∈ stageOrder.map Stage.name) raw)
    ++ pick ["status"] (textIf (fun s => s ∈ shownStatuses) raw)
    ++ pick ["skipped"] (fun key => match raw.get? key with
        | some (.bool b) => some (.bool b)
        | _ => none)
    ++ pick ["error"] (fun key => match raw.get? key with
        | none | some .null => none
        | some _ =>
            some (.obj [("code", .str "EXTRACTION_FAILED"),
              ("message", .str "Extraction step failed.")]))

/-- The event of a frame. -/
def EventText.eventDoc (X : EventText) (f : Frame) : Doc :=
  .obj [("schema_version", .str "extraction-event/v1"), ("id", Doc.ofNat f.id),
    ("run_id", .str f.run),
    ("type", .str f.type.name), ("occurred_at", .str (X.occurredAt f.id)), ("payload", f.payload)]

/-- `events.frame`. -/
def EventText.frame (X : EventText) (f : Frame) : List Char :=
  "id: ".toList
    ++ ((toString f.id).toList ++ ("\nevent: ".toList ++ (f.type.name.toList ++ ("\ndata: ".toList
    ++ ((canonicalJson (X.eventDoc f)).toList ++ "\n\n".toList)))))

/-- The tools of `project`. -/
def EventText.tools (X : EventText) (textSize : Doc → ℕ) : EventTools where
  textSize := textSize
  safe raw := (Json.obj (X.safe raw)).doc
  frameSize f := Sse.encodedLength (X.frame f)

/-! ## Redacting again -/

/-- The keys that may be shown. -/
def shownKeys : List String :=
  countKeys ++ idKeys ++ hashKeys ++ ["cost_usd"] ++ ["step_name"] ++ ["status"]
    ++ ["skipped"] ++ ["error"]

/-- The picked keys come in the listed order. -/
theorem keys_pick (keys : List String) (f : String → Option Json) :
    ((pick keys f).map Prod.fst).Sublist keys := by
  induction keys with
  | nil => exact List.Sublist.refl _
  | cons key keys ih =>
    cases hf : f key with
    | none =>
      have hpick : pick (key :: keys) f = pick keys f := by simp [pick, hf]
      rw [hpick]
      exact ih.cons key
    | some x =>
      have hpick : pick (key :: keys) f = (key, x) :: pick keys f := by simp [pick, hf]
      rw [hpick, List.map_cons]
      exact ih.cons_cons key

/-- The keys that are shown are distinct, and among the known ones. -/
theorem keys_safe (X : EventText) (raw : Doc) : ((X.safe raw).map Prod.fst).Sublist shownKeys := by
  simp only [EventText.safe, shownKeys, List.map_append]
  exact (((((((keys_pick _ _).append (keys_pick _ _)).append (keys_pick _ _)).append
    (keys_pick _ _)).append
    (keys_pick _ _)).append (keys_pick _ _)).append (keys_pick _ _)).append (keys_pick _ _)

/-- No key is shown twice. -/
theorem nodup_shownKeys : shownKeys.Nodup := by decide

/-- A value that a second redaction keeps. -/
def Kept (x : Json) : Prop := ExtractionEvents.redactValue x.value = x.value

/-- A short text is kept by the redaction. -/
theorem kept_text {s : String} (h : s.length ≤ ExtractionEvents.maxLength) : Kept (.str s) := by
  show JsonValue.str (ExtractionEvents.truncate s) = .str s
  rw [ExtractionEvents.truncate_of_short h]

/-- A picked member is listed. -/
theorem mem_pick {keys : List String} {f : String → Option Json} {m : String × Json}
    (h : m ∈ pick keys f) :
    m.1 ∈ keys ∧ f m.1 = some m.2 := by
  obtain ⟨key, hkey, hm⟩ := List.mem_filterMap.mp h
  obtain ⟨x, hx, rfl⟩ := Option.map_eq_some_iff.mp hm
  exact ⟨hkey, hx⟩

/-- A text is shown if it is accepted. -/
theorem textIf_eq_some {accepts : String → Bool} {raw : Doc} {key : String} {x : Json}
    (h : textIf accepts raw key = some x) :
    ∃ s, accepts s = true ∧ x = .str s := by
  obtain ⟨s, hs, rfl⟩ := Option.map_eq_some_iff.mp h
  obtain ⟨-, hs⟩ := Option.filter_eq_some_iff.mp hs
  exact ⟨s, hs, rfl⟩

/-- A cost has at most 25 characters. -/
theorem length_of_isCost {value : String} (h : isCost value = true) : value.length ≤ 25 := by
  simp only [isCost, isShortNumber, Bool.and_eq_true, Bool.or_eq_true, decide_eq_true_eq] at h
  obtain ⟨⟨-, hwhole⟩, hrest⟩ := h
  have hlen : value.length = (value.toList.takeWhile (· ≠ '.')).length
      + (value.toList.dropWhile (· ≠ '.')).length := by
    rw [← List.length_append, List.takeWhile_append_dropWhile, String.length_toList]
  rcases hrest with hnil | ⟨-, htail⟩
  · rw [hlen, hnil, List.length_nil]
    omega
  · rw [List.length_tail] at htail
    omega

theorem length_uuidText (u : Uuid) : (uuidText u).length ≤ 256 := by
  have hpos : (Nat.toDigits 16 u.val).length ≤ 32 := by
    apply (Nat.length_toDigits_le_iff (by norm_num) (by norm_num)).mpr
    exact u.isLt.trans_le (by norm_num)
  rw [uuidText, String.length_ofList]
  simp only [List.length_append, List.length_take, List.length_drop, List.length_cons,
    List.length_replicate]
  omega

theorem kept_error :
    Kept
    (.obj [("code", .str "EXTRACTION_FAILED"), ("message", .str "Extraction step failed.")]) := by
  have hcode : ExtractionEvents.isSensitive "code" = false := by decide
  have hmessage : ExtractionEvents.isSensitive "message" = false := by decide
  have hshort : ∀ s ∈ ["EXTRACTION_FAILED", "Extraction step failed."],
      ExtractionEvents.truncate s = s :=
    fun s hs => ExtractionEvents.truncate_of_short (by revert s; decide)
  simp [Kept, Json.value, Json.valueMembers, ExtractionEvents.redactValue, ExtractionEvents.redact,
    hcode, hmessage, hshort]

/-- What is shown survives a redaction. -/
theorem kept_of_mem_safe {X : EventText} {raw : Doc} {m : String × Json} (h : m ∈ X.safe raw) :
    Kept m.2 := by
  have hlen : ∀ l : List String, (∀ s ∈ l, s.length ≤ ExtractionEvents.maxLength) →
      ∀ {key : String} {x : Json}, textIf (fun s => s ∈ l) raw key = some x → Kept x := by
    intro l hl key x hx
    obtain ⟨s, hs, rfl⟩ := textIf_eq_some hx
    exact kept_text (hl s (of_decide_eq_true hs))
  simp only [EventText.safe, List.mem_append, or_assoc] at h
  rcases h with h | h | h | h | h | h | h | h
  · obtain ⟨n, -, hn⟩ := Option.map_eq_some_iff.mp (mem_pick h).2
    rw [← hn]
    rfl
  · obtain ⟨u, -, hu⟩ := Option.map_eq_some_iff.mp (mem_pick h).2
    rw [← hu]
    exact kept_text (length_uuidText u)
  · obtain ⟨s, hs, hm⟩ := textIf_eq_some (mem_pick h).2
    rw [hm]
    simp only [isHash, Bool.and_eq_true, decide_eq_true_eq] at hs
    exact kept_text (by rw [hs.1.2]; decide)
  · obtain ⟨s, hs, hm⟩ := textIf_eq_some (mem_pick h).2
    rw [hm]
    exact kept_text ((length_of_isCost hs).trans (by decide))
  · exact hlen _ (by decide) (mem_pick h).2
  · exact hlen _ (by decide) (mem_pick h).2
  · have hm := (mem_pick h).2
    split at hm
    · rw [← Option.some.inj hm]
      rfl
    · cases hm
  · have hm := (mem_pick h).2
    split at hm
    · cases hm
    · cases hm
    · rw [← Option.some.inj hm]
      exact kept_error

/-- Members that are kept and not sensitive pass the redaction. -/
theorem redact_values {members : List (String × Json)}
    (h : ∀ m ∈ members, ExtractionEvents.isSensitive m.1 = false ∧ Kept m.2) :
    ExtractionEvents.redact (Json.valueMembers members) = Json.valueMembers members := by
  induction members with
  | nil => rfl
  | cons m members ih =>
    obtain ⟨key, x⟩ := m
    obtain ⟨⟨hkey, hx⟩, hrest⟩ := List.forall_mem_cons.mp h
    rw [Json.valueMembers, ExtractionEvents.redact, ih hrest, hkey, if_neg Bool.false_ne_true]
    exact congrArg (fun v => (key, v) :: Json.valueMembers members) hx

/-- **Redacting what is shown changes nothing**, so that `project` shows the checked fields as they
are. -/
theorem redactEventPayload_safe (X : EventText) (raw : Doc) (eventType : String) :
    ExtractionEvents.redactEventPayload (Json.valueMembers (X.safe raw)) eventType
    = Json.valueMembers (X.safe raw) := by
  have hplain : ∀ key ∈ shownKeys, ExtractionEvents.isSensitive key = false := by decide
  apply redact_values
  intro m hm
  have hkey : m.1 ∈ shownKeys := (keys_safe X raw).subset (List.mem_map_of_mem hm)
  exact ⟨hplain m.1 hkey, kept_of_mem_safe hm⟩

/-! ## Frames as blocks -/

/-- The event of a frame with some payload. -/
def EventText.eventTree (X : EventText) (f : Frame) (payload : List (String × Json)) : Json :=
  .obj [("schema_version", .str "extraction-event/v1"), ("id", .int f.id), ("run_id", .str f.run),
    ("type", .str f.type.name), ("occurred_at", .str (X.occurredAt f.id)),
    ("payload", .obj payload)]

/-- The frame as a block of the stream. -/
def EventText.block (X : EventText) (f : Frame) : Sse.Block :=
  .frame f.id f.type.name.toList (canonicalJson (X.eventDoc f)).toList

/-- A frame is the text of its block. -/
theorem EventText.text_block (X : EventText) (f : Frame) : (X.block f).text = X.frame f := rfl

/-- What `project` shows. -/
structure EventText.Shown (X : EventText) (textSize : Doc → ℕ) (row : EventRow) (f : Frame) :
    Prop where
  id : f.id = row.id
  run : f.run = row.key
  type : f.type = row.payload.1
  payload : f.payload = (Json.obj (X.safe row.payload.2)).doc
  pos : 1 ≤ f.id
  le : f.id ≤ maxSafeInteger
  size : Sse.encodedLength (X.frame f) ≤ Sse.frameBytes

/-- **A projected row** is shown. -/
theorem EventText.shown_of_project {X : EventText} {textSize : Doc → ℕ} {row : EventRow} {f : Frame}
    (h : (X.tools textSize).project row = .ok f) : X.Shown textSize row f := by
  simp only [EventTools.project, Except.bind_eq_ok_iff, Except.pure_eq_ok, Except.raiseIf_eq_ok_iff,
    Except.ok.injEq] at h
  obtain ⟨-, hid, -, -, -, hsize, rfl⟩ := h
  rw [not_not] at hid
  exact ⟨rfl, rfl, rfl, rfl, hid.1, hid.2, not_lt.mp hsize⟩

section Shown

variable {X : EventText} {textSize : Doc → ℕ} {row : EventRow} {f : Frame}

theorem ofNat_eq_doc (n : ℕ) : Doc.ofNat n = (Json.int n).doc := by
  have hpos : ¬ (n : ℤ) < 0 := by omega
  rw [Doc.ofNat, Json.doc, Json.intText, if_neg hpos]
  rfl

/-- The event of a shown row is a tree. -/
theorem EventText.Shown.doc (h : X.Shown textSize row f) :
    X.eventDoc f = (X.eventTree f (X.safe row.payload.2)).doc := by
  rw [EventText.eventDoc, EventText.eventTree, h.payload, ofNat_eq_doc]
  rfl

/-- The text of an event is that of its tree. -/
theorem EventText.Shown.text (h : X.Shown textSize row f) :
    (canonicalJson (X.eventDoc f)).toList
    = (X.eventTree f (X.safe row.payload.2)).sortKeys.dump := by
  rw [h.doc, Json.canonicalJson_doc]

theorem printable_name (type : EventType) : Json.Printable type.name.toList := by
  have hall : (type.name.toList.all fun c => decide (0x20 ≤ c.toNat) && decide (c.toNat ≤ 0x7e))
      = true := by
    cases type <;> decide
  intro c hc
  have hprintable := List.all_eq_true.mp hall c hc
  rw [Bool.and_eq_true, decide_eq_true_iff, decide_eq_true_iff] at hprintable
  exact hprintable

/-- A text has no more characters than bytes. -/
theorem length_le_encodedLength (text : List Char) : text.length ≤ Sse.encodedLength text := by
  induction text with
  | nil => exact Nat.le_refl 0
  | cons c text ih =>
    have hpos := Char.utf8Size_pos c
    have hcons : Sse.encodedLength (c :: text) = c.utf8Size + Sse.encodedLength text := by
      rw [Sse.encodedLength, List.map_cons, List.sum_cons, Sse.encodedLength]
    rw [hcons, List.length_cons]
    omega

end Shown

/-! ## The page -/

/-- What the page has: `JSON.parse` with the guard of the events, and `terminal.has(event.type)`. -/
structure Page (J : Type) where
  contracts : Sse.Contracts J
  isTerminal : J → Bool

/-- The page reads the text of a frame as an event. -/
structure Page.Reads {J : Type} (P : Page J) (X : EventText) (f : Frame) (j : J) : Prop where
  parse : P.contracts.parse (canonicalJson (X.eventDoc f)).toList = some j
  event : P.contracts.event j = true
  runId : P.contracts.runId j = f.run
  id : P.contracts.id j = f.id
  terminal : P.isTerminal j = f.type.terminal?.isSome

/-- The page reads every event of the run that is shown. -/
def Page.ReadsRun {J : Type} (P : Page J) (X : EventText) (textSize : Doc → ℕ) (run : String) :
    Prop :=
  ∀ row f, row.key = run → (X.tools textSize).project row = .ok f → ∃ j, P.Reads X f j

/-- **A frame that is shown is accepted** by a page that reads it. -/
theorem Page.Reads.sound {J : Type} {P : Page J} {X : EventText} {textSize : Doc → ℕ}
    {row : EventRow} {f : Frame} {j : J}
    (hj : P.Reads X f j) (h : (X.tools textSize).project row = .ok f) :
    (X.block f).Sound P.contracts f.run := by
  have hshown := EventText.shown_of_project h
  refine ⟨hshown.pos, printable_name f.type, ?_, ?_, ?_, j, hj.parse, hj.event, hj.runId, hj.id⟩
  · rw [hshown.text]
    exact Json.printable_dump _
  · rw [hshown.text]
    obtain ⟨c, cs, hc, -⟩ := Json.dump_head (X.eventTree f (X.safe row.payload.2)).sortKeys
    rw [hc]
    exact List.cons_ne_nil c cs
  · exact (length_le_encodedLength _).trans hshown.size

end Extraction
