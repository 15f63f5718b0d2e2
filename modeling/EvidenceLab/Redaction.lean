/-
# Redaction of event payloads

The model of `events.py`: the keys whose values are masked, the bound on the length of a string, and
`_redact`, which both public helpers run.

`redactEventPayload_redacts_iff`: the result is a redaction of the payload at every depth exactly
when the elements of the arrays that `_redact` walks over, other than its objects, need none:
`_redact` returns such an element as it is.
-/
import EvidenceLab.JsonValue
import EvidenceLab.PyText

namespace ExtractionEvents

open JsonValue (Within)
open PyText (lower)

abbrev Members := List (String × JsonValue)

/-- `_REDACT_KEYS`. -/
def redactKeys : List String :=
  ["text", "content", "prompt", "messages", "raw", "source_text", "instructions", "evidence_text",
    "secret", "api_key", "password", "token"]

/-- The test of a key in `_redact`. -/
def isSensitive (key : String) : Bool :=
  let lowered := lower key
  lowered ∈ ["secret", "api_key", "password", "token"].map String.toList
    || decide ("secret".toList <:+: lowered)
    || decide ("password".toList <:+: lowered)
    || lowered ∈ redactKeys.map String.toList

def mask : JsonValue := .str "[redacted]"

def maxLength : ℕ := 256

/-- A string over the bound keeps its first 64 characters. -/
def truncate (s : String) : String :=
  if maxLength < s.length then String.ofList (s.toList.take 64 ++ "…[truncated]".toList) else s

mutual

/-- `_redact`. -/
def redact : Members → Members
  | [] => []
  | (key, value) :: members => (key, if isSensitive key then mask else redactValue value)
      :: redact members

/-- The value of a key that is not sensitive. -/
def redactValue : JsonValue → JsonValue
  | .obj members => .obj (redact members)
  | .arr items => .arr (redactItems items)
  | .str s => .str (truncate s)
  | .null => .null
  | .bool b => .bool b
  | .int i => .int i
  | .float bits => .float bits

/-- The elements of an array: the objects are redacted. -/
def redactItems : List JsonValue → List JsonValue
  | [] => []
  | .obj members :: items => .obj (redact members) :: redactItems items
  | item :: items => item :: redactItems items

end

/-- `redact_event_payload`; the type of the event is not read. -/
def redactEventPayload (payload : Members) (_eventType : String) : Members := redact payload

/-! ## What a redaction is -/

/-- Nothing in a value needs redaction: at every depth a sensitive key has the mask and a string is
within the bound. -/
structure Clean (v : JsonValue) : Prop where
  masked : ∀ members, Within (.obj members) v → ∀ key x, (key, x) ∈ members →
    isSensitive key = true → x = mask
  short : ∀ s, Within (.str s) v → s.length ≤ maxLength

mutual

/-- `Kept v w`: keys and scalars of `v` stand in `w`, except below a sensitive key and for strings
over the bound. -/
inductive Kept : JsonValue → JsonValue → Prop where
  | same {v : JsonValue} (hv : v.IsScalar) : Kept v v
  | long {s t : String} (hs : maxLength < s.length) : Kept (.str s) (.str t)
  | arr {items items' : List JsonValue} (h : List.Forall₂ Kept items items') :
      Kept (.arr items) (.arr items')
  | obj {members members' : Members} (h : KeptMembers members members') :
      Kept (.obj members) (.obj members')

inductive KeptMembers : Members → Members → Prop where
  | nil : KeptMembers [] []
  | sensitive {key : String} {v w : JsonValue} {members members' : Members}
      (hkey : isSensitive key = true)
      (h : KeptMembers members members') : KeptMembers ((key, v) :: members) ((key, w) :: members')
  | cons {key : String} {v w : JsonValue} {members members' : Members} (hv : Kept v w)
      (h : KeptMembers members members') : KeptMembers ((key, v) :: members) ((key, w) :: members')

end

/-- What redaction promises: the result is clean, everything else is kept, and there is nothing left
to redact. -/
structure Redacts (eventType : String) (payload result : Members) : Prop where
  clean : Clean (.obj result)
  kept : Kept (.obj payload) (.obj result)
  settled : redactEventPayload result eventType = result

/-! ## Values that need no redaction -/

/-- An array is clean if its items are. -/
theorem clean_arr_iff {items : List JsonValue} : Clean (.arr items) ↔ ∀ x ∈ items, Clean x := by
  constructor
  · intro h x hx
    exact ⟨fun members hm => h.masked members (.item hx hm), fun s hs => h.short s (.item hx hs)⟩
  · intro h
    constructor
    · intro members hm
      rcases JsonValue.within_arr_iff.mp hm with heq | ⟨y, hy, hm⟩
      · cases heq
      · exact (h y hy).masked members hm
    · intro s hs
      rcases JsonValue.within_arr_iff.mp hs with heq | ⟨y, hy, hs⟩
      · cases heq
      · exact (h y hy).short s hs

/-- An object is clean if its sensitive members are masked and all members are clean. -/
theorem clean_obj_iff {members : Members} :
    Clean (.obj members) ↔ ∀ m ∈ members, (isSensitive m.1 = true → m.2 = mask) ∧ Clean m.2 := by
  constructor
  · rintro h ⟨key, x⟩ hx
    refine ⟨h.masked members .self key x hx, ?_⟩
    exact ⟨fun inner hm => h.masked inner (.member hx hm), fun s hs => h.short s (.member hx hs)⟩
  · intro h
    constructor
    · intro inner hm key x hx hkey
      rcases JsonValue.within_obj_iff.mp hm with heq | ⟨m, hmem, hm⟩
      · cases heq
        exact (h (key, x) hx).1 hkey
      · exact (h m hmem).2.masked inner hm key x hx hkey
    · intro s hs
      rcases JsonValue.within_obj_iff.mp hs with heq | ⟨m, hmem, hs⟩
      · cases heq
      · exact (h m hmem).2.short s hs

/-- A scalar is clean unless it is a long text. -/
theorem clean_of_isScalar {v : JsonValue} (hv : v.IsScalar)
    (h : ∀ s, v = .str s → s.length ≤ maxLength) :
    Clean v where
  masked := by
    intro members hm
    rw [JsonValue.within_of_isScalar hv] at hm
    rw [← hm] at hv
    exact hv.elim
  short := by
    intro s hs
    exact h s ((JsonValue.within_of_isScalar hv).mp hs).symm

theorem clean_str_iff {s : String} : Clean (.str s) ↔ s.length ≤ maxLength := by
  constructor
  · exact fun h => h.short s .self
  · intro h
    exact clean_of_isScalar trivial (by rintro t ⟨⟩; exact h)

theorem clean_mask : Clean mask := clean_str_iff.mpr (by decide)

/-- A truncated text is short. -/
theorem length_truncate (s : String) : (truncate s).length ≤ maxLength := by
  rw [truncate]
  split_ifs with h
  · have htext : "…[truncated]".toList.length = 12 := by decide
    rw [String.length_ofList, List.length_append, List.length_take, htext, maxLength]
    omega
  · exact not_lt.mp h

theorem truncate_of_short {s : String} (h : s.length ≤ maxLength) : truncate s = s := by
  rw [truncate, if_neg (not_lt.mpr h)]

/-! ## Redacting -/

mutual

/-- The payloads on which `_redact` leaves nothing: where it walks over an array, an element that is
not an object is clean already. -/
def Settled : Members → Prop
  | [] => True
  | (key, value) :: members => (isSensitive key = false → SettledValue value) ∧ Settled members

def SettledValue : JsonValue → Prop
  | .obj members => Settled members
  | .arr items => SettledItems items
  | _ => True

def SettledItems : List JsonValue → Prop
  | [] => True
  | .obj members :: items => Settled members ∧ SettledItems items
  | item :: items => Clean item ∧ SettledItems items

end

mutual

/-- **The result is clean exactly on such payloads.** -/
theorem clean_redact_iff : ∀ members : Members, Clean (.obj (redact members)) ↔ Settled members
  | [] => by simp [clean_obj_iff, redact, Settled]
  | (key, value) :: members => by
      have hrest := clean_redact_iff members
      rw [clean_obj_iff] at hrest
      rw [clean_obj_iff, redact, Settled, List.forall_mem_cons, hrest]
      refine and_congr_left fun _ => ?_
      by_cases hkey : isSensitive key = true
      · simp [hkey, clean_mask]
      · rw [Bool.not_eq_true] at hkey
        simp [hkey, clean_redactValue_iff value]

/-- **A redacted value is clean** if and only if it was settled where the redaction does not reach.
-/
theorem clean_redactValue_iff : ∀ value : JsonValue, Clean (redactValue value) ↔ SettledValue value
  | .obj members => by rw [redactValue, SettledValue, clean_redact_iff members]
  | .arr items => by rw [redactValue, SettledValue, clean_redactItems_iff items]
  | .str s => by simp [redactValue, SettledValue, clean_str_iff, length_truncate]
  | .null => iff_of_true (clean_of_isScalar trivial (by rintro s ⟨⟩)) trivial
  | .bool _ => iff_of_true (clean_of_isScalar trivial (by rintro s ⟨⟩)) trivial
  | .int _ => iff_of_true (clean_of_isScalar trivial (by rintro s ⟨⟩)) trivial
  | .float _ => iff_of_true (clean_of_isScalar trivial (by rintro s ⟨⟩)) trivial

theorem clean_redactItems_iff : ∀ items : List JsonValue, Clean (.arr (redactItems items)) ↔
    SettledItems items
  | [] => by simp [clean_arr_iff, redactItems, SettledItems]
  | item :: items => by
      have hrest := clean_redactItems_iff items
      rw [clean_arr_iff] at hrest
      cases item with
      | obj members =>
          rw [clean_arr_iff, redactItems, SettledItems, List.forall_mem_cons, hrest,
            clean_redact_iff members]
      | _ => rw [clean_arr_iff, redactItems, SettledItems, List.forall_mem_cons, hrest] <;> simp

end

mutual

/-- Every value keeps itself. -/
theorem kept_refl : ∀ v : JsonValue, Kept v v
  | .obj members => .obj (kept_members_refl members)
  | .arr items => .arr (kept_items_refl items)
  | .str _ => .same trivial
  | .null => .same trivial
  | .bool _ => .same trivial
  | .int _ => .same trivial
  | .float _ => .same trivial

theorem kept_items_refl : ∀ items : List JsonValue, List.Forall₂ Kept items items
  | [] => .nil
  | item :: items => .cons (kept_refl item) (kept_items_refl items)

theorem kept_members_refl : ∀ members : Members, KeptMembers members members
  | [] => .nil
  | (_, value) :: members => .cons (kept_refl value) (kept_members_refl members)

end

mutual

/-- **Nothing but masked values and long strings changes.** -/
theorem kept_redact : ∀ members : Members, KeptMembers members (redact members)
  | [] => .nil
  | (key, value) :: members => by
      rw [redact]
      by_cases hkey : isSensitive key = true
      · exact .sensitive hkey (kept_redact members)
      · rw [if_neg hkey]
        exact .cons (kept_redactValue value) (kept_redact members)

/-- Redaction keeps everything that is not sensitive. -/
theorem kept_redactValue : ∀ value : JsonValue, Kept value (redactValue value)
  | .obj members => .obj (kept_redact members)
  | .arr items => .arr (kept_redactItems items)
  | .str s => by
      by_cases hs : maxLength < s.length
      · exact .long hs
      · rw [redactValue, truncate_of_short (not_lt.mp hs)]
        exact .same trivial
  | .null => .same trivial
  | .bool _ => .same trivial
  | .int _ => .same trivial
  | .float _ => .same trivial

theorem kept_redactItems : ∀ items : List JsonValue, List.Forall₂ Kept items (redactItems items)
  | [] => .nil
  | item :: items => by
      cases item with
      | obj members =>
          rw [redactItems]
          exact .cons (.obj (kept_redact members)) (kept_redactItems items)
      | _ =>
          rw [redactItems] <;> first | exact .cons (kept_refl _) (kept_redactItems items) | simp

end

mutual

/-- **A redaction is not redacted further.** -/
theorem redact_redact : ∀ members : Members, redact (redact members) = redact members
  | [] => rfl
  | (key, value) :: members => by
      rw [redact, redact, redact_redact members]
      by_cases hkey : isSensitive key = true
      · simp [hkey]
      · simp [hkey, redactValue_redactValue value]

/-- Redacting twice is redacting once. -/
theorem redactValue_redactValue :
    ∀ value : JsonValue, redactValue (redactValue value) = redactValue value
  | .obj members => by rw [redactValue, redactValue, redact_redact members]
  | .arr items => by rw [redactValue, redactValue, redactItems_redactItems items]
  | .str s => by rw [redactValue, redactValue, truncate_of_short (length_truncate s)]
  | .null => rfl
  | .bool _ => rfl
  | .int _ => rfl
  | .float _ => rfl

theorem redactItems_redactItems :
    ∀ items : List JsonValue, redactItems (redactItems items) = redactItems items
  | [] => rfl
  | item :: items => by
      cases item with
      | obj members => rw [redactItems, redactItems, redact_redact members,
          redactItems_redactItems items]
      | _ => rw [redactItems, redactItems, redactItems_redactItems items] <;> simp

end

/-- **Redaction reaches every depth exactly on settled payloads.** -/
theorem redactEventPayload_redacts_iff (payload : Members) (eventType : String) :
    Redacts eventType payload (redactEventPayload payload eventType) ↔ Settled payload := by
  constructor
  · intro h
    exact (clean_redact_iff payload).mp h.clean
  · intro h
    exact ⟨(clean_redact_iff payload).mpr h, .obj (kept_redact payload), redact_redact payload⟩

/-- A key inside an array of arrays. -/
def nestedKey : Members := [("batches", .arr [.arr [.obj [("api_key", .str "live")]]])]

/-- A key in a list in a list is not redacted. -/
theorem nestedKey_leaks :
    ¬ Redacts "step_completed" nestedKey (redactEventPayload nestedKey "step_completed") := by
  intro h
  have hwithin : Within (.obj [("api_key", .str "live")])
      (.obj (redactEventPayload nestedKey "step_completed")) :=
    .member (List.mem_singleton.mpr rfl)
      (.item (List.mem_singleton.mpr rfl) (.item (List.mem_singleton.mpr rfl) .self))
  have hmask :=
    h.clean.masked _ hwithin "api_key" (.str "live") (List.mem_singleton.mpr rfl) (by decide)
  simp [mask] at hmask

end ExtractionEvents
