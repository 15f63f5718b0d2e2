/-
# A page that reads the frames

`eventPage` reads the text of an event as `JSON.parse` does, as far as frames need it, and checks it
against the schema `extraction-event/v1` and `positive(v.id)`.

`reads_eventPage`: it reads every event that `project` shows, when the times are date-times and the
run's id is a UUID.
-/
import EvidenceLab.EventFrames

namespace Json

/-! ## Members in the order of their keys -/

/-- An array is nested as deep as its items. -/
theorem nestingItems_le {n : ℕ} {xs : List Json} :
    nestingItems xs ≤ n ↔ ∀ x ∈ xs, x.nesting ≤ n := by
  induction xs with
  | nil => simp [nestingItems]
  | cons x xs ih => rw [nestingItems, max_le_iff, ih, List.forall_mem_cons]

theorem nestingMembers_le {n : ℕ} {members : List (String × Json)} :
    nestingMembers members ≤ n ↔ ∀ m ∈ members, m.2.nesting ≤ n := by
  induction members with
  | nil => simp [nestingMembers]
  | cons m members ih => rw [nestingMembers, max_le_iff, ih, List.forall_mem_cons]

/-- Members are readable one by one. -/
theorem readableMembers_iff {int : ℤ → Prop} {members : List (String × Json)} :
    ReadableMembers int members ↔ ∀ m ∈ members, m.2.Readable int := by
  induction members with
  | nil => simp [ReadableMembers]
  | cons m members ih => rw [ReadableMembers, ih, List.forall_mem_cons]

mutual

/-- A tree is not nested deeper when its members are in order. -/
theorem nesting_sortKeys (n : ℕ) : ∀ t : Json, t.nesting ≤ n → t.sortKeys.nesting ≤ n
  | .null, h => h
  | .bool _, h => h
  | .int _, h => h
  | .str _, h => h
  | .arr xs, h => by
      rw [nesting] at h
      obtain ⟨m, rfl⟩ : ∃ m, n = m + 1 := ⟨n - 1, by omega⟩
      rw [sortKeys, nesting, Nat.add_le_add_iff_right]
      exact nesting_sortItems m xs (by omega)
  | .obj members, h => by
      rw [nesting] at h
      obtain ⟨m, rfl⟩ : ∃ m, n = m + 1 := ⟨n - 1, by omega⟩
      rw [sortKeys, nesting, Nat.add_le_add_iff_right, nestingMembers_le]
      intro x hx
      rw [List.mem_insertionSort] at hx
      exact nestingMembers_le.mp (nesting_sortMembers m members (by omega)) x hx

/-- Sorting does not nest deeper. -/
theorem nesting_sortItems (n : ℕ) : ∀ xs : List Json, nestingItems xs ≤ n →
    nestingItems (sortItems xs) ≤ n
  | [], h => h
  | x :: xs, h => by
      rw [nestingItems, max_le_iff] at h
      rw [sortItems, nestingItems, max_le_iff]
      exact ⟨nesting_sortKeys n x h.1, nesting_sortItems n xs h.2⟩

theorem nesting_sortMembers (n : ℕ) : ∀ members : List (String × Json),
    nestingMembers members ≤ n → nestingMembers (sortMembers members) ≤ n
  | [], h => h
  | (_, x) :: members, h => by
      rw [nestingMembers, max_le_iff] at h
      rw [sortMembers, nestingMembers, max_le_iff]
      exact ⟨nesting_sortKeys n x h.1, nesting_sortMembers n members h.2⟩

end

mutual

/-- A tree stays readable when its members are in order. -/
theorem Readable.sortKeys {int : ℤ → Prop} : ∀ {t : Json}, t.Readable int → t.sortKeys.Readable int
  | .null, h => h
  | .bool _, h => h
  | .int _, h => h
  | .str _, h => h
  | .arr _, h => ReadableItems.sortItems h
  | .obj members, h => by
      have hperm :=
        List.perm_insertionSort (fun a b : String × Json => a.1 ≤ b.1) (sortMembers members)
      refine ⟨?_, readableMembers_iff.mpr fun m hm => ?_⟩
      · rw [(hperm.map Prod.fst).nodup_iff, keys_sortMembers]
        exact h.1
      · rw [List.mem_insertionSort] at hm
        exact readableMembers_iff.mp (ReadableMembers.sortMembers h.2) m hm

theorem ReadableItems.sortItems {int : ℤ → Prop} : ∀ {xs : List Json}, ReadableItems int xs →
    ReadableItems int (sortItems xs)
  | [], h => h
  | _ :: _, h => ⟨h.1.sortKeys, h.2.sortItems⟩

theorem ReadableMembers.sortMembers {int : ℤ → Prop} : ∀ {members : List (String × Json)},
    ReadableMembers int members → ReadableMembers int (sortMembers members)
  | [], h => h
  | (_, _) :: _, h => ⟨h.1.sortKeys, h.2.sortMembers⟩

end

end Json

namespace Extraction

open Pagination (Uuid uuidText)

/-! ## The page -/

/-- `Number.isSafeInteger`. -/
def isSafeInteger (i : ℤ) : Bool := -(maxSafeInteger : ℤ) ≤ i && i ≤ maxSafeInteger

/-- The number of an integer literal. -/
def literalValue (literal : List Char) : ℤ :=
  if literal.head? = some '-' then -(Nat.ofDigitChars 10 literal.tail 0 : ℤ)
    else Nat.ofDigitChars 10 literal 0

/-- `JSON.parse` of the texts that have no other numbers than safe integers, and no key twice. -/
def pageHooks : JsonReader.Hooks Unit where
  int literal :=
    if isSafeInteger (literalValue literal) then .ok (.int (literalValue literal)) else .error ()
  float _ := .error ()
  constant _ := .error ()
  pairs members := if (members.map Prod.fst).Nodup then .ok (.obj members) else .error ()
  malformed := ()
  tooDeep := ()
  maxDepth := 1000

/-- A text member. -/
def textMember (members : List (PyStr × PyJson)) (key : String) : String :=
  match PyJson.member members key with
  | .str (.text s) => s
  | _ => ""

/-- `id`, when it is a positive number. -/
def idMember (members : List (PyStr × PyJson)) : ℕ :=
  match PyJson.member members "id" with
  | .int i => i.toNat
  | _ => 0

def isObject : PyJson → Bool
  | .obj _ => true
  | _ => false

/-- The types of the schema. -/
def eventTypes : List EventType :=
  [.runQueued, .runStarted, .stepStarted, .stepCompleted, .stepFailed, .budgetUpdated,
    .proposalsPersisted,
    .reviewWaiting, .reviewCompleted, .runSucceeded, .runFailed, .runCancelled, .heartbeat]

/-- `"format": "uuid"`: five groups of hexadecimal digits. -/
def formatUuid (v : String) : Bool :=
  let groups := v.toList.splitOn '-'
  groups.length = Sse.uuidGroups.length && (groups.zip Sse.uuidGroups).all fun (group, _, n) =>
    group.length = n && group.all (fun c => c.toLower ∈ "0123456789abcdef".toList)

/-- `guards.event`; `dateTime` is `"format": "date-time"`. -/
def eventGuard (dateTime : String → Bool) : PyJson → Bool
  | .obj members =>
      PyJson.keysAre members ["schema_version", "id", "run_id", "type", "occurred_at", "payload"]
        && textMember members "schema_version" = "extraction-event/v1"
        && 1 ≤ idMember members
        && formatUuid (textMember members "run_id")
        && textMember members "type" ∈ eventTypes.map EventType.name
        && dateTime (textMember members "occurred_at")
        && isObject (PyJson.member members "payload")
  | _ => false

/-- `guards.event` and `terminal` over what `JSON.parse` gives. -/
def eventPage (dateTime : String → Bool) : Page PyJson where
  contracts :=
    { parse := fun text => (JsonReader.decode pageHooks text).toOption
      event := eventGuard dateTime
      runId := fun v => match v with
        | .obj members => textMember members "run_id"
        | _ => ""
      id := fun v => match v with
        | .obj members => idMember members
        | _ => 0 }
  isTerminal v := match v with
    | .obj members => textMember members "type" ∈ ["run_succeeded", "run_failed", "run_cancelled"]
    | _ => false

/-! ## Frames are read -/

/-- An integer is read back. -/
theorem literalValue_intText (i : ℤ) : literalValue (Json.intText i) = i := by
  rw [Json.intText]
  split_ifs with hneg
  · rw [literalValue, List.head?_cons, if_pos rfl, List.tail_cons, Nat.ofDigitChars_ten_toDigits]
    omega
  · have hhead : (Nat.toDigits 10 i.natAbs).head? ≠ some '-' := by
      intro h
      have hdigit := Json.isDigit_toDigits i.natAbs '-' (List.mem_of_head? h)
      exact absurd hdigit (by decide)
    rw [literalValue, if_neg hhead, Nat.ofDigitChars_ten_toDigits]
    omega

/-- **The page reads trees** with safe integers. -/
theorem readsTrees_pageHooks :
    JsonReader.ReadsTrees pageHooks (fun i => isSafeInteger i = true) where
  int i h := by
    show (if isSafeInteger (literalValue (Json.intText i)) then Except.ok (PyJson.int _)
      else Except.error ()) = _
    rw [literalValue_intText, if_pos h]
  pairs members h := if_pos h

section Reads

variable {X : EventText} {textSize : Doc → ℕ} {row : EventRow} {f : Frame}

theorem isSafeInteger_of_le {n : ℕ} (h : n ≤ maxSafeInteger) : isSafeInteger n = true := by
  rw [isSafeInteger, Bool.and_eq_true, decide_eq_true_iff, decide_eq_true_iff]
  omega

/-- Counts that are shown are safe integers. -/
theorem isSafeInteger_of_safeCount {x : Doc} {n : ℕ} (h : safeCount x = some n) :
    isSafeInteger n = true := by
  cases x with
  | num literal =>
    simp only [safeCount] at h
    obtain ⟨⟨-, -, -, hle⟩, heq⟩ := Option.ite_none_right_eq_some.mp h
    rw [← Option.some.inj heq]
    exact isSafeInteger_of_le hle
  | _ => cases h

/-- What is shown is a safe integer, a text, a truth value or an error. -/
theorem safe_of_mem_safe {raw : Doc} {m : String × Json} (h : m ∈ X.safe raw) :
    m.2.Readable (fun i => isSafeInteger i = true) ∧ m.2.nesting ≤ 1 := by
  have htext : ∀ {accepts : String → Bool} {key : String} {x : Json},
      textIf accepts raw key = some x →
      x.Readable (fun i => isSafeInteger i = true) ∧ x.nesting ≤ 1 := by
    intro accepts key x hx
    obtain ⟨s, -, rfl⟩ := textIf_eq_some hx
    exact ⟨trivial, Nat.zero_le 1⟩
  simp only [EventText.safe, List.mem_append, or_assoc] at h
  rcases h with h | h | h | h | h | h | h | h
  · obtain ⟨n, hn, hm⟩ := Option.map_eq_some_iff.mp (mem_pick h).2
    obtain ⟨x, -, hcount⟩ := Option.bind_eq_some_iff.mp hn
    rw [← hm]
    exact ⟨isSafeInteger_of_safeCount hcount, Nat.zero_le 1⟩
  · obtain ⟨u, -, hu⟩ := Option.map_eq_some_iff.mp (mem_pick h).2
    rw [← hu]
    exact ⟨trivial, Nat.zero_le 1⟩
  · exact htext (mem_pick h).2
  · exact htext (mem_pick h).2
  · exact htext (mem_pick h).2
  · exact htext (mem_pick h).2
  · have hm := (mem_pick h).2
    split at hm
    · rw [← Option.some.inj hm]
      exact ⟨trivial, Nat.zero_le 1⟩
    · cases hm
  · have hm := (mem_pick h).2
    split at hm
    · cases hm
    · cases hm
    · rw [← Option.some.inj hm]
      exact ⟨⟨by decide, trivial, trivial, trivial⟩, le_rfl⟩

/-- **A shown event** can be read by the page. -/
theorem readable_eventTree (h : X.Shown textSize row f) :
    (X.eventTree f (X.safe row.payload.2)).Readable (fun i => isSafeInteger i = true)
      ∧ (X.eventTree f (X.safe row.payload.2)).nesting ≤ 3 := by
  have hsafe : ∀ m ∈ X.safe row.payload.2, m.2.Readable (fun i => isSafeInteger i = true) ∧
      m.2.nesting ≤ 1 :=
    fun m hm => safe_of_mem_safe hm
  have hpayload : (Json.obj (X.safe row.payload.2)).Readable (fun i => isSafeInteger i = true)
      ∧ (Json.obj (X.safe row.payload.2)).nesting ≤ 2 := by
    refine ⟨⟨nodup_shownKeys.sublist (keys_safe X row.payload.2),
      Json.readableMembers_iff.mpr fun m hm => (hsafe m hm).1⟩, ?_⟩
    rw [Json.nesting, Nat.add_le_add_iff_right, Json.nestingMembers_le]
    exact fun m hm => (hsafe m hm).2
  have hid : isSafeInteger f.id = true := isSafeInteger_of_le h.le
  have hnodup : ["schema_version", "id", "run_id", "type", "occurred_at", "payload"].Nodup := by
    decide
  refine ⟨⟨hnodup, trivial, hid, trivial, trivial, trivial, hpayload.1, trivial⟩, ?_⟩
  rw [EventText.eventTree, Json.nesting, Nat.add_le_add_iff_right, Json.nestingMembers_le]
  intro m hm
  simp only [List.mem_cons, List.not_mem_nil, or_false] at hm
  rcases hm with rfl | rfl | rfl | rfl | rfl | rfl
  · exact Nat.zero_le 2
  · exact Nat.zero_le 2
  · exact Nat.zero_le 2
  · exact Nat.zero_le 2
  · exact Nat.zero_le 2
  · exact hpayload.2

/-- The members of an event in the order of their keys. -/
theorem sortKeys_eventTree (f : Frame) (payload : List (String × Json)) :
    (X.eventTree f payload).sortKeys
    = .obj [("id", .int f.id), ("occurred_at", .str (X.occurredAt f.id)),
      ("payload", (Json.obj payload).sortKeys),
      ("run_id", .str f.run), ("schema_version", .str "extraction-event/v1"),
      ("type", .str f.type.name)] := by
  simp +decide only [EventText.eventTree, Json.sortKeys, Json.sortMembers, List.insertionSort,
    List.foldr_cons, List.foldr_nil,
    List.orderedInsert, if_true, if_false]

/-- The check of the client implies the format of the schema. -/
theorem formatUuid_of_uuid {v : String} (h : Sse.uuid v = true) : formatUuid v = true := by
  simp only [Sse.uuid, Bool.and_eq_true, List.all_eq_true] at h
  obtain ⟨hlen, hgroups⟩ := h
  simp only [formatUuid, Bool.and_eq_true, List.all_eq_true]
  refine ⟨hlen, ?_⟩
  rintro ⟨group, first, n⟩ hg
  exact (hgroups (group, first, n) hg).1

/-- The members that the page reads of an event. -/
def EventText.readMembers (X : EventText) (f : Frame) (payload : PyJson) : List (PyStr × PyJson) :=
  [(.text "id", .int f.id), (.text "occurred_at", .ofText (X.occurredAt f.id)),
    (.text "payload", payload),
    (.text "run_id", .ofText f.run), (.text "schema_version", .ofText "extraction-event/v1"),
    (.text "type", .ofText f.type.name)]

/-- The text of an event is read back. -/
theorem decode_eventDoc (h : X.Shown textSize row f) :
    JsonReader.decode pageHooks (canonicalJson (X.eventDoc f)).toList
      = .ok (.obj (X.readMembers f (Json.obj (X.safe row.payload.2)).sortKeys.decoded)) := by
  obtain ⟨hreadable, hnesting⟩ := readable_eventTree h
  have hdepth : (X.eventTree f (X.safe row.payload.2)).sortKeys.nesting ≤ pageHooks.maxDepth :=
    (Json.nesting_sortKeys 3 _ hnesting).trans (by decide)
  rw [h.text, JsonReader.decode_dump readsTrees_pageHooks hreadable.sortKeys hdepth,
    sortKeys_eventTree]
  rfl

/-- The guard accepts an event that is shown. -/
theorem eventGuard_readMembers {dateTime : String → Bool}
    (hdate : ∀ id, dateTime (X.occurredAt id) = true)
    (hrun : Sse.uuid f.run = true) (hpos : 1 ≤ f.id) {payload : PyJson}
    (hpayload : isObject payload = true) :
    eventGuard dateTime (.obj (X.readMembers f payload)) = true := by
  have hkeys : PyJson.keysAre (X.readMembers f payload)
      ["schema_version", "id", "run_id", "type", "occurred_at", "payload"] = true := by
    have hread : Dict.keys (X.readMembers f payload)
        = ["id", "occurred_at", "payload", "run_id", "schema_version", "type"].map PyStr.text := rfl
    rw [PyJson.keysAre, hread]
    decide
  have hid : idMember (X.readMembers f payload) = f.id := rfl
  have hrunId : textMember (X.readMembers f payload) "run_id" = f.run := rfl
  have hoccurred : textMember (X.readMembers f payload) "occurred_at" = X.occurredAt f.id := rfl
  have hversion : textMember (X.readMembers f payload) "schema_version" = "extraction-event/v1" :=
    rfl
  have htype : textMember (X.readMembers f payload) "type" ∈ eventTypes.map EventType.name := by
    show f.type.name ∈ eventTypes.map EventType.name
    apply List.mem_map_of_mem
    cases f.type <;> decide
  have hmember : PyJson.member (X.readMembers f payload) "payload" = payload := rfl
  simp only [eventGuard, hkeys, hid, hrunId, hoccurred, hversion, htype, hmember, hpayload, hdate,
    hpos, formatUuid_of_uuid hrun,
    decide_true, Bool.and_true]

/-- The page and the server agree on the terminal events. -/
theorem isTerminal_name (type : EventType) :
    decide (type.name ∈ ["run_succeeded", "run_failed", "run_cancelled"])
    = type.terminal?.isSome := by
  cases type <;> decide

/-- What the page decodes is what it parses. -/
theorem parse_eventPage {dateTime : String → Bool} {text : List Char} {v : PyJson}
    (h : JsonReader.decode pageHooks text = .ok v) :
    (eventPage dateTime).contracts.parse text = some v := by
  simp only [eventPage, h]
  rfl

/-- **The page reads what `project` shows.** -/
theorem reads_eventPage {dateTime : String → Bool} {run : String}
    (hdate : ∀ id, dateTime (X.occurredAt id) = true)
    (hrun : Sse.uuid run = true) : (eventPage dateTime).ReadsRun X textSize run := by
  intro row f hrow hproject
  have hshown := EventText.shown_of_project hproject
  have hfrun : Sse.uuid f.run = true := by rw [hshown.run, hrow, hrun]
  have hobject : isObject (Json.obj (X.safe row.payload.2)).sortKeys.decoded = true := rfl
  have hguard := eventGuard_readMembers hdate hfrun hshown.pos hobject
  refine ⟨.obj (X.readMembers f (Json.obj (X.safe row.payload.2)).sortKeys.decoded), ?_,
    hguard, rfl, rfl, ?_⟩
  · exact parse_eventPage (decode_eventDoc hshown)
  · exact isTerminal_name f.type

end Reads

end Extraction
