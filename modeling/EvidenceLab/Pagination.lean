/-
# Keyset pages

The model of `pagination.py` as far as `read_page`: scopes, keys and cursors, and the page a request
reads from a table.  A timestamp is an instant written in UTC; a token is kept with the cursor it
spells, and its text is there for its length.

`keyset_pages`: following `next_cursor` visits the rows of the first request, each once and in
order, whatever is inserted above them in between, and following `previous_cursor` goes back page by
page.
-/
import EvidenceLab.Canonical
import EvidenceLab.ExceptRules
import EvidenceLab.Keyset

namespace Pagination

/-! ## Keys -/

inductive Order where
  | asc
  | desc
  deriving DecidableEq

inductive Seek where
  | after
  | before
  deriving DecidableEq

inductive Endpoint where
  | documents
  | workspaces
  | runs
  | siblings
  | events
  | extractionRuns
  | extractionProposals
  | extractionConflicts
  | extractionSteps
  | approvedVersions
  | extractionEvents
  deriving DecidableEq

abbrev Uuid := Fin (2 ^ 128)

abbrev Instant := Fin CalcEngine.maxMicros

/-- The key of a row: the values of its key columns. -/
inductive Key where
  | sequence (n : ℤ)
  | version (n : ℤ) (id : Uuid)
  | stamped (time : Instant) (id : Uuid)
  | filed (time : Instant) (accession : String) (id : Uuid)
  deriving DecidableEq

/-- The columns of a key, in their order; the accession is compared by code points. -/
def Key.columns : Key → ℕ ×ₗ ℤ ×ₗ String ×ₗ ℕ
  | .sequence n => toLex (0, toLex (n, toLex ("", 0)))
  | .version n id => toLex (1, toLex (n, toLex ("", id.val)))
  | .stamped t id => toLex (2, toLex (t.val, toLex ("", id.val)))
  | .filed t accession id => toLex (3, toLex (t.val, toLex (accession, id.val)))

/-- A key is known by its columns. -/
theorem Key.columns_injective : Function.Injective Key.columns := by
  intro a b h
  cases a <;> cases b <;>
    simp only [Key.columns, EmbeddingLike.apply_eq_iff_eq, Prod.mk.injEq, Nat.cast_inj, Fin.val_inj]
      at h <;>
      first
        | exact absurd h.1 (by decide)
        | simp only [h]

instance : LinearOrder Key := LinearOrder.lift' Key.columns Key.columns_injective

/-- `str(uuid)`. -/
def uuidText (u : Uuid) : String :=
  let digits := Nat.toDigits 16 u.val
  let hex := List.replicate (32 - digits.length) '0' ++ digits
  String.ofList (hex.take 8 ++ '-' :: (hex.drop 8).take 4 ++ '-' :: (hex.drop 12).take 4
    ++ '-' :: (hex.drop 16).take 4 ++ '-' :: hex.drop 20)

/-- `isoformat()` of an instant. -/
def stampText (t : Instant) : String := String.ofList (Calendar.isoDateTimeUtc t.val)

/-- `row_key`. -/
def Key.json : Key → List Json
  | .sequence n => [.int n]
  | .version n id => [.int n, .str (uuidText id)]
  | .stamped t id => [.str (stampText t), .str (uuidText id)]
  | .filed t accession id => [.str (stampText t), .str accession, .str (uuidText id)]

/-- `_key` accepts the key at an endpoint. -/
def Key.accepted (endpoint : Endpoint) : Key → Bool
  | .sequence n => endpoint ∈ [.events, .extractionEvents] && 0 ≤ n && n ≤ 2 ^ 63 - 1
  | .version n _ => endpoint = .approvedVersions && 1 ≤ n && n ≤ 2 ^ 31 - 1
  | .filed _ accession _ => endpoint ∈ [.documents, .siblings] && accession ≠ ""
      && accession.length ≤ 256 && !accession.toList.contains '\x00'
  | .stamped _ _ => endpoint ∉ [.events, .extractionEvents, .approvedVersions,
      .documents, .siblings]

/-! ## Scopes and cursors -/

structure Scope where
  endpoint : Endpoint
  orgId : Option Uuid
  resourceId : Option Uuid
  asOf : Option Instant
  corpusVersionId : Option Uuid
  targetVersionId : Option Uuid
  filter : Option String
  deriving DecidableEq

def Endpoint.text : Endpoint → String
  | .documents => "documents"
  | .workspaces => "workspaces"
  | .runs => "runs"
  | .siblings => "siblings"
  | .events => "events"
  | .extractionRuns => "extraction_runs"
  | .extractionProposals => "extraction_proposals"
  | .extractionConflicts => "extraction_conflicts"
  | .extractionSteps => "extraction_steps"
  | .approvedVersions => "approved_versions"
  | .extractionEvents => "extraction_events"

/-- The filters `_scope` allows. -/
def Endpoint.filters : Endpoint → List (Option String)
  | .extractionProposals =>
      [none, some "proposed", some "needs_review", some "accepted", some "rejected",
      some "superseded"]
  | .extractionConflicts => [none, some "open", some "resolved", some "superseded"]
  | _ => [none]

/-- `_scope` accepts the scope. -/
def Scope.accepted (s : Scope) : Bool :=
  s.filter ∈ s.endpoint.filters && s.orgId.isSome
    && (s.endpoint = .workspaces || s.resourceId.isSome)
    && (s.endpoint ≠ .siblings || (s.targetVersionId.isSome && s.asOf.isSome))

def optionJson {α : Type} (text : α → String) : Option α → Json
  | none => .null
  | some a => .str (text a)

/-- The dictionary of a scope: two endpoints have fields of their own. -/
def Scope.json (s : Scope) : Json :=
  .obj ([("endpoint", .str s.endpoint.text), ("org_id", optionJson uuidText s.orgId),
      ("resource_id", optionJson uuidText s.resourceId), ("as_of", optionJson stampText s.asOf),
      ("corpus_version_id", optionJson uuidText s.corpusVersionId)]
    ++ (if s.endpoint = .siblings
      then [("target_version_id", optionJson uuidText s.targetVersionId)] else [])
    ++ (if s.endpoint ∈ [.extractionProposals, .extractionConflicts]
      then [("filter", optionJson id s.filter)]
      else []))

structure Cursor where
  version : ℕ
  scope : Scope
  order : Order
  limit : ℕ
  seek : Seek
  highWater : Key
  anchor : Key
  deriving DecidableEq

def Order.text : Order → String
  | .asc => "asc"
  | .desc => "desc"

def Seek.text : Seek → String
  | .after => "after"
  | .before => "before"

/-- `asdict(cursor)`. -/
def Cursor.json (c : Cursor) : Json :=
  .obj [("version", .int c.version), ("scope", c.scope.json), ("order", .str c.order.text),
    ("limit", .int c.limit), ("seek", .str c.seek.text), ("high_water", .arr c.highWater.json),
    ("anchor", .arr c.anchor.json)]

/-- The character of six bits in the URL-safe alphabet. -/
def sextet (n : ℕ) : Char :=
  Char.ofNat (if n < 26 then 65 + n else if n < 52 then 71 + n else if n < 62 then n - 4
    else if n = 62 then 45 else 95)

/-- `urlsafe_b64encode` without the padding. -/
def base64 : List ℕ → List Char
  | a :: b :: c :: rest =>
      sextet (a / 4) :: sextet (a % 4 * 16 + b / 16) :: sextet (b % 16 * 4 + c / 64)
        :: sextet (c % 64)
        :: base64 rest
  | [a, b] => [sextet (a / 4), sextet (a % 4 * 16 + b / 16), sextet (b % 16 * 4)]
  | [a] => [sextet (a / 4), sextet (a % 4 * 16)]
  | [] => []

/-- A token: the cursor it spells. -/
structure Token where
  cursor : Cursor
  deriving DecidableEq

def Token.text (t : Token) : List Char := base64 (t.cursor.json.sortKeys.dump.map Char.toNat)

/-- The body of an `api_error`; `details` are the limit and the order to page with. -/
structure ApiError where
  status : ℕ
  code : String
  message : String
  details : Option (ℕ × Order)
  deriving DecidableEq

def invalid : ApiError := ⟨422, "INVALID_CURSOR", "Invalid continuation for this request.", none⟩

def maxTokenLength : ℕ := 2048

def maxLimit : ℕ := 200

/-- `decode_cursor`. -/
def decodeCursor (token : Token) (expected : Scope) : Except ApiError Cursor := do
  let c := token.cursor
  Except.raiseIf (maxTokenLength < token.text.length) invalid
  Except.raiseIf (c.version ≠ 1) invalid
  Except.raiseIf (¬ (1 ≤ c.limit ∧ c.limit ≤ maxLimit)) invalid
  Except.raiseIf (c.scope.accepted = false) invalid
  Except.raiseIf (expected.accepted = false ∨ c.scope ≠ expected) invalid
  Except.raiseIf (c.highWater.accepted c.scope.endpoint = false) invalid
  Except.raiseIf (c.anchor.accepted c.scope.endpoint = false) invalid
  return c

/-- `encode_cursor`: a token is checked before it is sent. -/
def encodeCursor (c : Cursor) : Except ApiError Token := do
  let _ ← decodeCursor ⟨c⟩ c.scope
  return ⟨c⟩

/-! ## Pages -/

structure Request where
  scope : Scope
  limit : Option ℕ
  token : Option Token
  order : Option Order
  defaultLimit : ℕ
  maxLimit : ℕ
  legacyLimit : ℕ
  forcePage : Bool

structure Metadata where
  limit : ℕ
  returned : ℕ
  nextCursor : Option Token
  previousCursor : Option Token
  complete : Bool
  deriving DecidableEq

def Order.flip : Order → Order
  | .asc => .desc
  | .desc => .asc

section Reading

variable {α : Type} (key : α → Key)

/-- `ORDER BY` the key columns. -/
def sortBy : Order → List α → List α
  | .asc => Keyset.sort key
  | .desc => Keyset.sort (OrderDual.toDual ∘ key)

/-- `encode_cursor` if the direction is available. -/
def cursorIf (available : Bool) (c : Option Cursor) : Except ApiError (Option Token) :=
  match available, c with
  | true, some c => some <$> encodeCursor c
  | _, _ => .ok none

/-- The size of a page: a limit of zero counts as none. -/
def pageSize (req : Request) : Option Cursor → ℕ
  | some c => c.limit
  | none => match req.limit with
    | none | some 0 => req.defaultLimit
    | some n => n

/-- The rows of the statement: up to the high water, beyond the anchor, and in the order of the
seek. -/
def seekRows (table : List α) (presentation : Order) (backwards : Bool)
    (highWater anchor : Option Key) : List α :=
  let sqlOrder := if backwards then presentation.flip else presentation
  let greater := (presentation = .asc) != backwards
  sortBy key sqlOrder (table.filter (fun r => highWater.all (fun h => key r ≤ h)
    && anchor.all (fun a => if greater then a < key r else key r < a)))

/-- `read_page` of a table. -/
def readPage (table : List α) (req : Request) : Except ApiError (List α × Option Metadata) := do
  let cursor ← match req.token with
    | none => pure none
    | some token => some <$> decodeCursor token req.scope
  Except.raiseIf (cursor.any (fun c => req.limit.any (fun n => c.limit ≠ n)
    || req.order.any (fun o => c.order ≠ o)))
    invalid
  let pageMode := req.forcePage || req.limit.isSome || cursor.isSome
  let size := pageSize req cursor
  Except.raiseIf (¬ (1 ≤ size ∧ size ≤ req.maxLimit)) invalid
  let presentation := match cursor with
    | some c => c.order
    | none => req.order.getD .asc
  let backwards := cursor.any (fun c => c.seek = .before)
  let highWater := match cursor with
    | some c => some c.highWater
    | none => if pageMode then (sortBy key .desc table).head?.map key else none
  let take := if pageMode then size else req.legacyLimit
  let rows :=
    (seekRows key table presentation backwards highWater (cursor.map Cursor.anchor)).take (take + 1)
  let overflow := take < rows.length
  if pageMode then
    let rows := if backwards then (rows.take size).reverse else rows.take size
    let cursorAt (seek : Seek) (row : Option α) : Option Cursor := do
      return ⟨1, req.scope, presentation, size, seek, ← highWater, key (← row)⟩
    let next ← cursorIf (if backwards then cursor.isSome else overflow)
      (cursorAt .after rows.getLast?)
    let previous ← cursorIf (if backwards then overflow else cursor.isSome)
      (cursorAt .before rows.head?)
    return (rows, some ⟨size, rows.length, next, previous, cursor.isNone && !overflow⟩)
  else
    Except.raiseIf overflow
      ⟨409, "PAGINATION_REQUIRED", "Use explicit pagination for this history.",
        some (req.defaultLimit, presentation)⟩
    return (rows, none)

end Reading

/-! ## What a read selects -/

section Selecting

variable {α : Type} {key : α → Key}

/-- Rows in strict order of presentation. -/
def OrderedBy (key : α → Key) : Order → List α → Prop
  | .asc => Keyset.Ordered key
  | .desc => Keyset.Ordered (OrderDual.toDual ∘ key)

/-- Sorting drops no row. -/
theorem sortBy_perm (o : Order) (rows : List α) : (sortBy key o rows).Perm rows := by
  cases o <;> exact Keyset.sort_perm rows

/-- Rows with distinct keys are sorted strictly. -/
theorem sortBy_ordered (o : Order) {rows : List α} (h : (rows.map key).Nodup) :
    OrderedBy key o (sortBy key o rows) := by
  cases o with
  | asc => exact Keyset.sort_ordered h
  | desc => exact Keyset.sort_ordered (show (rows.map (OrderDual.toDual ∘ key)).Nodup from h)

/-- Sorted rows are determined by which rows there are. -/
theorem sortBy_eq (o : Order) {rows l : List α} (hp : rows.Perm l) (hl : OrderedBy key o l) :
    sortBy key o rows = l := by
  cases o <;> exact Keyset.sort_eq hp hl

/-- **The four seeks.**  Forwards a seek finds the rows behind its anchor, backwards the rows before
it in the opposite order. -/
theorem seekRows_anchor {o : Order} {table pre post : List α} {x : α} {h : Key} (backwards : Bool)
    (hp : (table.filter (fun r => key r ≤ h)).Perm (pre ++ x :: post))
    (hl : OrderedBy key o (pre ++ x :: post)) :
    seekRows key table o backwards (some h) (some (key x)) = if backwards then pre.reverse
    else post := by
  have hsplit : ∀ q : α → Bool, table.filter (fun r => decide (key r ≤ h) && q r)
      = (table.filter (fun r => key r ≤ h)).filter q := by
    intro q
    rw [List.filter_filter]
    exact List.filter_congr fun r _ => Bool.and_comm _ _
  simp only [seekRows, Option.all_some, hsplit]
  cases o <;> cases backwards
  · exact Keyset.sort_after hp hl
  · exact Keyset.sort_before hp hl
  · exact Keyset.sort_after hp hl
  · exact Keyset.sort_before hp hl

/-- Without an anchor the rows up to the high water come in the order of presentation. -/
theorem seekRows_first {o : Order} {table l : List α} {h : Key}
    (hp : (table.filter (fun r => key r ≤ h)).Perm l) (hl : OrderedBy key o l) :
    seekRows key table o false (some h) none = l := by
  simp only [seekRows, Option.all_some, Option.all_none, Bool.and_true]
  exact sortBy_eq o hp hl

end Selecting

/-! ## Following cursors -/

section Following

variable {α : Type} {key : α → Key} {req : Request}

/-- The first page's size and order. -/
def Request.size (req : Request) : ℕ := pageSize req none

def Request.presentation (req : Request) : Order := req.order.getD .asc

/-- The cursors of the pages of a request. -/
def Request.cursor (req : Request) (highWater : Key) (seek : Seek) (anchor : Key) : Cursor :=
  ⟨1, req.scope, req.presentation, req.size, seek, highWater, anchor⟩

section Fields

variable (req : Request) (highWater anchor : Key) (seek : Seek)

@[simp] theorem Request.cursor_version : (req.cursor highWater seek anchor).version = 1 := rfl

@[simp] theorem Request.cursor_scope : (req.cursor highWater seek anchor).scope = req.scope := rfl

@[simp] theorem Request.cursor_order :
    (req.cursor highWater seek anchor).order = req.presentation := rfl

@[simp] theorem Request.cursor_limit : (req.cursor highWater seek anchor).limit = req.size := rfl

@[simp] theorem Request.cursor_seek : (req.cursor highWater seek anchor).seek = seek := rfl

@[simp] theorem Request.cursor_highWater :
    (req.cursor highWater seek anchor).highWater = highWater := rfl

@[simp] theorem Request.cursor_anchor : (req.cursor highWater seek anchor).anchor = anchor := rfl

end Fields

/-- The same request with a token. -/
def Request.continued (req : Request) (token : Token) : Request := { req with token := some token }

/-- The page with the rows `page`, after the rows `pre` and before the rows `post`. -/
def pageAt (key : α → Key) (req : Request) (highWater : Key) (pre page post : List α) :
    List α × Option Metadata :=
  (page, some ⟨req.size, page.length,
    if post = [] then none else page.getLast?.map (fun r => ⟨req.cursor highWater .after (key r)⟩),
    if pre = [] then none else page.head?.map (fun r => ⟨req.cursor highWater .before (key r)⟩),
    decide (pre = [] ∧ post = [])⟩)

/-- A request whose pages can be continued over rows: the scope, the keys and the tokens are
accepted. -/
structure Continues (key : α → Key) (req : Request) (snapshot : List α) : Prop where
  first : req.token = none
  paged : (req.forcePage || req.limit.isSome) = true
  limit : req.limit ≠ some 0
  size : 1 ≤ req.size ∧ req.size ≤ req.maxLimit ∧ req.size ≤ maxLimit
  scope : req.scope.accepted = true
  keys : ∀ r ∈ snapshot, (key r).accepted req.scope.endpoint = true
  tokens : ∀ r ∈ snapshot, ∀ r' ∈ snapshot, ∀ seek,
    (Token.text ⟨req.cursor (key r) seek (key r')⟩).length ≤ maxTokenLength

/-- A cursor of the listing is decoded again. -/
theorem Continues.decode {snapshot : List α} (h : Continues key req snapshot) {r r' : α}
    (hr : r ∈ snapshot)
    (hr' : r' ∈ snapshot) (seek : Seek) :
    decodeCursor ⟨req.cursor (key r) seek (key r')⟩ req.scope
    = .ok (req.cursor (key r) seek (key r')) := by
  simp only [decodeCursor, Except.bind_eq_ok_iff, Except.raiseIf_eq_ok_iff, Except.pure_eq_ok]
  refine ⟨(), by simpa using h.tokens r hr r' hr' seek, (), by simp, (), ?_, (), ?_, (),
    ?_, (), ?_, (), ?_,
    trivial⟩
  · simpa using ⟨h.size.1, h.size.2.2⟩
  · simp [h.scope]
  · simp [h.scope]
  · simp [h.keys r hr]
  · simp [h.keys r' hr']

/-- A row of the listing can be named by a cursor. -/
theorem Continues.encode {snapshot : List α} (h : Continues key req snapshot) {r r' : α}
    (hr : r ∈ snapshot)
    (hr' : r' ∈ snapshot) (seek : Seek) :
    encodeCursor (req.cursor (key r) seek (key r')) = .ok ⟨req.cursor (key r) seek (key r')⟩ := by
  rw [encodeCursor, Request.cursor_scope, h.decode hr hr' seek]
  rfl

/-- A cursor of the request agrees with the limit and the order the request repeats. -/
theorem Continues.agrees {snapshot : List α} (h : Continues key req snapshot) :
    (req.limit.any (fun n => req.size ≠ n) || req.order.any (fun o => req.presentation ≠ o))
    = false := by
  have hlimit : req.limit.any (fun n => req.size ≠ n) = false := by
    cases hl : req.limit with
    | none => rfl
    | some n =>
        have hn : n ≠ 0 := fun h0 => h.limit (by rw [hl, h0])
        have hsize : req.size = n := by
          rw [Request.size, pageSize, hl]
          cases n with
          | zero => exact absurd rfl hn
          | succ n => rfl
        simp [hsize]
  have horder : req.order.any (fun o => req.presentation ≠ o) = false := by
    cases ho : req.order with
    | none => rfl
    | some o => simp [Request.presentation, ho]
  rw [hlimit, horder, Bool.or_self]

/-- The next cursor names the row at the end of the page. -/
theorem cursorAt_eq (req : Request) (highWater : Key) (seek : Seek) (row : Option α) :
    (do
      let h ← some highWater
      let r ← row
      pure ⟨1, req.scope, req.presentation, req.size, seek, h, key r⟩ : Option Cursor)
        = row.map (fun r => req.cursor highWater seek (key r)) := by
  cases row <;> rfl

section Pages

variable {snapshot : List α} (hc : Continues key req snapshot) {table : List α} {top : α}
    (htop : top ∈ snapshot)

include hc htop

/-- A read with a cursor, in terms of the rows its seek finds. -/
theorem readPage_continued {pre post : List α} {x : α}
    (hl : OrderedBy key req.presentation (pre ++ x :: post))
    (hx : x ∈ snapshot) (hp : (table.filter (fun r => key r ≤ key top)).Perm (pre ++ x :: post))
    (seek : Seek) :
    readPage key table (req.continued ⟨req.cursor (key top) seek (key x)⟩) = (do
      let backwards := decide (seek = .before)
      let found := if backwards then pre.reverse else post
      let rows := if backwards then (found.take req.size).reverse else found.take req.size
      let next ← cursorIf (backwards || decide (req.size < found.length))
        (rows.getLast?.map (fun r => req.cursor (key top) .after (key r)))
      let previous ← cursorIf (!backwards || decide (req.size < found.length))
        (rows.head?.map (fun r => req.cursor (key top) .before (key r)))
      return (rows, some ⟨req.size, rows.length, next, previous, false⟩)) := by
  have hfound := seekRows_anchor (decide (seek = .before)) hp hl
  have hsize : (1 ≤ req.size ∧ req.size ≤ req.maxLimit) := ⟨hc.size.1, hc.size.2.1⟩
  have hlen : ∀ l : List α, decide (req.size < (l.take (req.size + 1)).length)
      = decide (req.size < l.length) := by
    intro l
    rw [List.length_take]
    exact decide_eq_decide.mpr (by omega)
  have hagree : (some (req.cursor (key top) seek (key x))).any (fun c =>
      req.limit.any (fun n => c.limit ≠ n) || req.order.any (fun o => c.order ≠ o)) = false :=
        hc.agrees
  have hback : (some (req.cursor (key top) seek (key x))).any (fun c => c.seek = .before)
      = decide (seek = .before) := rfl
  unfold readPage
  dsimp only [Request.continued]
  rw [hc.decode htop hx seek]
  simp only [Functor.map, Except.map, Except.ok_bind, hagree, hback, pageSize, Option.map_some,
    Option.isSome_some, Option.isNone_some, Request.cursor_limit, Request.cursor_order,
    Request.cursor_highWater, Request.cursor_anchor, hfound, hsize, Except.raiseIf, Bool.or_true,
    Bool.false_eq_true, if_false, if_true, and_self, not_true, hlen, Bool.false_and]
  simp only [cursorAt_eq, List.take_take, Nat.min_eq_left (Nat.le_succ req.size)]
  cases seek <;> rfl

/-- A cursor at a row of the snapshot is sent. -/
theorem cursorIf_row (available : Bool) {row : Option α} (hrow : ∀ r ∈ row, r ∈ snapshot)
    (seek : Seek) :
    cursorIf available (row.map (fun r => req.cursor (key top) seek (key r)))
      = .ok (if available then row.map (fun r => ⟨req.cursor (key top) seek (key r)⟩)
        else none) := by
  cases available with
  | false => cases row <;> rfl
  | true =>
      cases row with
      | none => rfl
      | some r =>
          show some <$> encodeCursor (req.cursor (key top) seek (key r)) = _
          rw [hc.encode htop (hrow r rfl) seek]
          rfl

/-- **A later page.**  The cursor behind the last row of `pre` reads the rows that follow. -/
theorem readPage_next {pre page post : List α} {x : α}
    (hl : OrderedBy key req.presentation (pre ++ x :: (page ++ post)))
    (hmem : ∀ r ∈ pre ++ x :: (page ++ post), r ∈ snapshot)
    (hp : (table.filter (fun r => key r ≤ key top)).Perm (pre ++ x :: (page ++ post)))
    (hpage : page = (page ++ post).take req.size) :
    readPage key table (req.continued ⟨req.cursor (key top) .after (key x)⟩)
      = .ok (pageAt key req (key top) (pre ++ [x]) page post) := by
  rw [readPage_continued hc htop hl (hmem x (by simp)) hp .after]
  have hoverflow : decide (req.size < (page ++ post).length) = !decide (post = []) := by
    have hlen := congrArg List.length hpage
    rw [List.length_take, List.length_append] at hlen
    rw [List.length_append, ← decide_not, decide_eq_decide, ← List.length_eq_zero_iff]
    omega
  have hhead : ∀ r ∈ page.head?, r ∈ snapshot :=
    fun r hr => hmem r (by simp [List.mem_of_mem_head? hr])
  have hlast : ∀ r ∈ page.getLast?, r ∈ snapshot :=
    fun r hr => hmem r (by simp [List.mem_of_mem_getLast? hr])
  simp only [reduceCtorEq, decide_false, Bool.false_eq_true, if_false, Bool.false_or,
    Bool.not_false, Bool.true_or,
    ← hpage, hoverflow, cursorIf_row hc htop _ hhead, cursorIf_row hc htop _ hlast,
    Except.ok_bind, pageAt]
  by_cases hpost : post = []
  · simp [hpost]
  · simp [hpost]

/-- **The page before.**  The cursor before the first row of `post` reads the rows that precede it.
-/
theorem readPage_previous {pre page post : List α} {x : α}
    (hl : OrderedBy key req.presentation (pre ++ page ++ x :: post))
    (hmem : ∀ r ∈ pre ++ page ++ x :: post, r ∈ snapshot)
    (hp : (table.filter (fun r => key r ≤ key top)).Perm (pre ++ page ++ x :: post))
    (hpage : page.length = req.size) :
    readPage key table (req.continued ⟨req.cursor (key top) .before (key x)⟩)
      = .ok (pageAt key req (key top) pre page (x :: post)) := by
  rw [readPage_continued hc htop hl (hmem x (by simp)) hp .before]
  have hrows : (((pre ++ page).reverse).take req.size).reverse = page := by
    rw [List.reverse_append, List.take_left' (by rw [List.length_reverse, hpage]),
      List.reverse_reverse]
  have hoverflow : decide (req.size < (pre ++ page).reverse.length) = !decide (pre = []) := by
    rw [List.length_reverse, List.length_append, ← decide_not, decide_eq_decide,
      ← List.length_eq_zero_iff]
    omega
  have hhead : ∀ r ∈ page.head?, r ∈ snapshot :=
    fun r hr => hmem r (by simp [List.mem_of_mem_head? hr])
  have hlast : ∀ r ∈ page.getLast?, r ∈ snapshot :=
    fun r hr => hmem r (by simp [List.mem_of_mem_getLast? hr])
  simp only [decide_true, if_true, Bool.true_or, Bool.not_true, Bool.false_or,
    hrows, hoverflow, cursorIf_row hc htop _ hhead, cursorIf_row hc htop _ hlast,
    Except.ok_bind, pageAt]
  by_cases hpre : pre = []
  · simp [hpre]
  · simp [hpre]

/-- **The first page.** -/
theorem readPage_first {page post : List α} (hl : OrderedBy key req.presentation (page ++ post))
    (hmem : ∀ r ∈ page ++ post, r ∈ snapshot) (hhigh : (sortBy key .desc table).head? = some top)
    (hp : (table.filter (fun r => key r ≤ key top)).Perm (page ++ post))
    (hpage : page = (page ++ post).take req.size) :
    readPage key table req = .ok (pageAt key req (key top) [] page post) := by
  have hfound := seekRows_first hp hl
  have hsize : (1 ≤ req.size ∧ req.size ≤ req.maxLimit) := ⟨hc.size.1, hc.size.2.1⟩
  have hoverflow :
      decide (req.size < ((page ++ post).take (req.size + 1)).length) = !decide (post = []) := by
    have hlen := congrArg List.length hpage
    rw [List.length_take, List.length_append] at hlen
    rw [List.length_take, List.length_append, ← decide_not, decide_eq_decide,
      ← List.length_eq_zero_iff]
    omega
  have hhead : ∀ r ∈ page.head?, r ∈ snapshot :=
    fun r hr => hmem r (by simp [List.mem_of_mem_head? hr])
  have hlast : ∀ r ∈ page.getLast?, r ∈ snapshot :=
    fun r hr => hmem r (by simp [List.mem_of_mem_getLast? hr])
  unfold readPage
  rw [hc.first]
  simp only [Except.pure_eq_ok, Except.ok_bind, Option.any_none, Option.isSome_none,
    Option.isNone_none,
    Option.map_none, Bool.or_false, hc.paged, if_true, hhigh, Option.map_some, Except.raiseIf,
    Bool.false_eq_true, if_false, List.take_take]
  rw [show pageSize req none = req.size from rfl,
    show req.order.getD .asc = req.presentation from rfl, hfound,
    hoverflow, Nat.min_eq_left (Nat.le_succ req.size), ← hpage]
  simp only [cursorAt_eq, cursorIf_row hc htop _ hlast, cursorIf_row hc htop _ hhead, hsize,
    and_self, not_true, if_false,
    Except.ok_bind, Bool.false_eq_true, Bool.true_and, pageAt]
  by_cases hpost : post = []
  · simp [hpost]
  · simp [hpost]

end Pages

/-! ## Whole walks -/

/-- The pages read by following `next_cursor`; request `i` reads the table `tables i`. -/
def follow (key : α → Key) (req : Request) (tables : ℕ → List α) :
    ℕ → ℕ → Option Token → Except ApiError (List (List α × Option Metadata))
  | 0, _, _ => .ok []
  | fuel + 1, i, token => do
      let page ← readPage key (tables i) { req with token := token }
      match page.2.bind Metadata.nextCursor with
      | none => return [page]
      | some token =>
          let rest ← follow key req tables fuel (i + 1) (some token)
          return page :: rest

/-- A table with the rows of the snapshot and rows inserted above them. -/
def Grown (key : α → Key) (snapshot table : List α) : Prop :=
  ∃ inserted, table.Perm (snapshot ++ inserted) ∧ ∀ r ∈ inserted, ∀ s ∈ snapshot, key s < key r

/-- The page before `p'` is `p`, whatever was inserted. -/
def GoesBack (key : α → Key) (req : Request) (snapshot : List α) (p p' : List α × Option Metadata) :
    Prop :=
  ∃ token, p'.2.bind Metadata.previousCursor = some token ∧
    ∀ table, Grown key snapshot table → readPage key table (req.continued token) = .ok p

/-- The pages of a walk over the rows `rest`, from a first page on. -/
structure IsWalk (key : α → Key) (req : Request) (snapshot rest : List α)
    (pages : List (List α × Option Metadata)) (first : List α × Option Metadata) : Prop where
  rows : pages.flatMap Prod.fst = rest
  sizes : ∀ page ∈ pages, page.1.length ≤ req.size
  first : pages.head? = some first
  last : ∃ page, pages.getLast? = some page ∧ page.2.bind Metadata.nextCursor = none
  back : pages.IsChain (GoesBack key req snapshot)

/-- Rows up to the high water mark are those of the first snapshot. -/
theorem Grown.filter {snapshot table l : List α} {top : α} (h : Grown key snapshot table)
    (htop : top ∈ snapshot)
    (hmax : ∀ r ∈ snapshot, key r ≤ key top) (hl : l.Perm snapshot) :
    (table.filter (fun r => key r ≤ key top)).Perm l := by
  obtain ⟨inserted, hp, habove⟩ := h
  refine (hp.filter _).trans ?_
  rw [List.filter_append, List.filter_eq_self.mpr (fun r hr => by simpa using hmax r hr),
    List.filter_eq_nil_iff.mpr (fun r hr => by simpa using habove r hr top htop), List.append_nil]
  exact hl.symm

section Walks

variable {snapshot : List α} (hc : Continues key req snapshot) {top : α} (htop : top ∈ snapshot)
  (hmax : ∀ r ∈ snapshot, key r ≤ key top)

include hc htop hmax

/-- Two neighbouring pages: the second leads back to the first. -/
theorem goesBack {pre page post page' post' : List α}
    (hl : OrderedBy key req.presentation (pre ++ page ++ (page' ++ post')))
    (hsnap : (pre ++ page ++ (page' ++ post')).Perm snapshot) (hpost : post = page' ++ post')
    (hpage : page.length = req.size) (hne : page' ≠ []) (hpre' : pre ++ page ≠ []) :
    GoesBack key req snapshot (pageAt key req (key top) pre page post)
      (pageAt key req (key top) (pre ++ page) page' post') := by
  obtain ⟨x, tail, rfl⟩ := List.exists_cons_of_ne_nil hne
  refine ⟨⟨req.cursor (key top) .before (key x)⟩, ?_, ?_⟩
  · show (if pre ++ page = [] then none else _) = _
    rw [if_neg hpre']
    rfl
  · intro table htable
    rw [hpost, List.cons_append]
    rw [List.cons_append] at hl hsnap
    exact readPage_previous hc htop hl (fun r hr => hsnap.mem_iff.mp hr)
      (htable.filter htop hmax hsnap) hpage

/-- One page of a walk: it is the last, or the walk goes on behind its last row. -/
theorem follow_page {tables : ℕ → List α} {pre rest : List α} {i : ℕ} {token : Option Token}
    (hne : rest ≠ [])
    (hl : OrderedBy key req.presentation (pre ++ rest)) (hsnap : (pre ++ rest).Perm snapshot)
    (hread : readPage key (tables i) { req with token := token }
      = .ok (pageAt key req (key top) pre (rest.take req.size) (rest.drop req.size)))
    (hnext : ∀ front y, rest.take req.size = front ++ [y] → rest.drop req.size ≠ [] →
      ∃ pages, (∀ fuel, (rest.drop req.size).length ≤ fuel →
          follow key req tables fuel (i + 1) (some ⟨req.cursor (key top) .after (key y)⟩)
            = .ok pages)
        ∧ IsWalk key req snapshot (rest.drop req.size) pages
          (pageAt key req (key top) (pre ++ rest.take req.size) ((rest.drop req.size).take req.size)
            ((rest.drop req.size).drop req.size))) :
    ∃ pages, (∀ fuel, rest.length ≤ fuel → follow key req tables fuel i token = .ok pages)
      ∧ IsWalk key req snapshot rest pages
        (pageAt key req (key top) pre (rest.take req.size) (rest.drop req.size)) := by
  have hsize := hc.size.1
  have hlen := List.length_pos_of_ne_nil hne
  have hfuel : ∀ fuel, rest.length ≤ fuel → ∃ fuel', fuel = fuel' + 1 ∧
      (rest.drop req.size).length ≤ fuel' := by
    intro fuel h
    refine ⟨fuel - 1, by omega, ?_⟩
    rw [List.length_drop]
    omega
  by_cases hpost : rest.drop req.size = []
  · -- the last page
    have htake : rest.take req.size = rest := by
      rw [← List.take_append_drop req.size rest, hpost, List.append_nil,
        List.take_take, Nat.min_self]
    rw [hpost] at hread ⊢
    refine ⟨[pageAt key req (key top) pre (rest.take req.size) []], ?_, ?_⟩
    · intro fuel h
      obtain ⟨fuel, rfl, -⟩ := hfuel fuel h
      rw [follow, hread]
      rfl
    · exact ⟨by simpa [pageAt] using htake, by simp [pageAt], rfl, ⟨_, rfl, rfl⟩,
        List.isChain_singleton _⟩
  · have hfront : rest.take req.size ≠ [] := by
      rw [Ne, List.take_eq_nil_iff]
      exact not_or.mpr ⟨by omega, hne⟩
    obtain ⟨front, y, hy⟩ : ∃ front y, rest.take req.size = front ++ [y] :=
      ⟨_, _, (List.dropLast_append_getLast hfront).symm⟩
    obtain ⟨pages, hfollow, hwalk⟩ := hnext front y hy hpost
    refine ⟨pageAt key req (key top) pre (rest.take req.size) (rest.drop req.size) :: pages, ?_, ?_,
      ?_, rfl, ?_, ?_⟩
    · intro fuel h
      obtain ⟨fuel, rfl, hfuel'⟩ := hfuel fuel h
      have hcursor :
          ((pageAt key req (key top) pre (rest.take req.size) (rest.drop req.size)).2.bind
          Metadata.nextCursor) = some ⟨req.cursor (key top) .after (key y)⟩ := by
        show (if rest.drop req.size = [] then none else _) = _
        rw [if_neg hpost, hy, List.getLast?_append_of_ne_nil _ (List.cons_ne_nil _ _)]
        rfl
      rw [follow, hread]
      simp only [Except.ok_bind, hcursor, hfollow fuel hfuel']
      rfl
    · rw [List.flatMap_cons, hwalk.rows]
      exact List.take_append_drop req.size rest
    · rw [List.forall_mem_cons]
      exact ⟨List.length_take_le _ _, hwalk.sizes⟩
    · obtain ⟨last, hlast, hnone⟩ := hwalk.last
      refine ⟨last, ?_, hnone⟩
      rw [List.getLast?_cons, hlast]
      rfl
    · have hhead := hwalk.first
      cases hp : pages with
      | nil =>
          rw [hp] at hhead
          cases hhead
      | cons p pages' =>
          rw [hp, List.head?_cons, Option.some.injEq] at hhead
          rw [List.isChain_cons_cons]
          refine ⟨?_, hp ▸ hwalk.back⟩
          rw [hhead]
          have hrest : pre ++ rest.take req.size
              ++ ((rest.drop req.size).take req.size ++ (rest.drop req.size).drop req.size)
                = pre ++ rest := by
            rw [List.take_append_drop, List.append_assoc, List.take_append_drop]
          have hdrop := List.length_pos_of_ne_nil hpost
          rw [List.length_drop] at hdrop
          refine goesBack hc htop hmax (hrest ▸ hl) (hrest ▸ hsnap) (List.take_append_drop _ _).symm
            ?_ ?_ ?_
          · rw [List.length_take]
            omega
          · rw [Ne, List.take_eq_nil_iff]
            exact not_or.mpr ⟨by omega, hpost⟩
          · exact List.append_ne_nil_of_right_ne_nil _ hfront

/-- **The rest of a walk.**  From the last row of `pre` on, the pages cover the rest. -/
theorem follow_rest (tables : ℕ → List α) (htables : ∀ i, Grown key snapshot (tables i)) :
    ∀ (k : ℕ) (rest pre : List α) (x : α) (i : ℕ), rest.length ≤ k → rest ≠ [] →
      OrderedBy key req.presentation (pre ++ x :: rest) → (pre ++ x :: rest).Perm snapshot →
      ∃ pages, (∀ fuel, rest.length ≤ fuel →
          follow key req tables fuel i (some ⟨req.cursor (key top) .after (key x)⟩) = .ok pages)
        ∧ IsWalk key req snapshot rest pages
          (pageAt key req (key top) (pre ++ [x]) (rest.take req.size) (rest.drop req.size)) := by
  intro k
  induction k with
  | zero =>
      intro rest pre x i hk hne
      exact absurd (List.length_eq_zero_iff.mp (Nat.le_zero.mp hk)) hne
  | succ k ih =>
      intro rest pre x i hk hne hl hsnap
      have hsplit : pre ++ [x] ++ rest = pre ++ x :: rest := by simp
      refine follow_page hc htop hmax hne (hsplit ▸ hl) (hsplit ▸ hsnap) ?_ ?_
      · apply readPage_next hc htop
        · rw [List.take_append_drop]
          exact hl
        · rw [List.take_append_drop]
          exact fun r hr => hsnap.mem_iff.mp hr
        · rw [List.take_append_drop]
          exact (htables i).filter htop hmax hsnap
        · rw [List.take_append_drop]
      · intro front y hy hpost
        have hrest : pre ++ x :: front ++ y :: rest.drop req.size = pre ++ x :: rest := by
          have happend := List.take_append_drop req.size rest
          rw [hy, List.append_assoc, List.singleton_append] at happend
          rw [List.append_assoc, List.cons_append, happend]
        have hsize := hc.size.1
        have hlen := List.length_pos_of_ne_nil hne
        obtain ⟨pages, hfollow, hwalk⟩ := ih (rest.drop req.size) (pre ++ x :: front) y (i + 1)
          (by rw [List.length_drop]; omega) hpost (hrest ▸ hl) (hrest ▸ hsnap)
        refine ⟨pages, hfollow, ?_⟩
        rw [hy]
        simpa using hwalk

end Walks

/-- The highest row of a table. -/
theorem exists_top {snapshot : List α} (hne : snapshot ≠ []) (hkeys : (snapshot.map key).Nodup) :
    ∃ top ∈ snapshot, (sortBy key .desc snapshot).head? = some top ∧ ∀ r ∈ snapshot,
    key r ≤ key top := by
  have hsorted := sortBy_ordered .desc hkeys
  have hperm : (sortBy key .desc snapshot).Perm snapshot := sortBy_perm .desc snapshot
  cases hsort : sortBy key .desc snapshot with
  | nil =>
      rw [hsort] at hperm
      exact absurd hperm.symm.eq_nil hne
  | cons top rest =>
      rw [hsort] at hsorted hperm
      refine ⟨top, hperm.mem_iff.mp List.mem_cons_self, rfl, ?_⟩
      intro r hr
      rcases List.mem_cons.mp (hperm.mem_iff.mpr hr) with rfl | hr
      · exact le_rfl
      · exact ((List.pairwise_cons.mp hsorted).1 r hr).le

/-- An empty table has one empty page. -/
theorem readPage_empty (hc : Continues key req []) :
    readPage key [] req = .ok ([], some ⟨req.size, 0, none, none, true⟩) := by
  have hsize : (1 ≤ req.size ∧ req.size ≤ req.maxLimit) := ⟨hc.size.1, hc.size.2.1⟩
  have hsort : ∀ o, sortBy key o [] = [] := fun o => (sortBy_perm o []).eq_nil
  unfold readPage
  rw [hc.first]
  simp only [Except.pure_eq_ok, Except.ok_bind, Option.any_none, Option.isSome_none,
    Option.isNone_none,
    Option.map_none, Bool.or_false, hc.paged, if_true, hsort, List.head?_nil,
    Except.raiseIf, seekRows,
    List.filter_nil, Bool.false_eq_true, if_false]
  rw [show pageSize req none = req.size from rfl]
  simp only [hsize, and_self, not_true, if_false, List.take_nil, List.getLast?_nil, List.head?_nil,
    List.length_nil, Except.ok_bind, Nat.not_lt_zero, decide_false]
  rfl

/-- **Pages enumerate the snapshot.**  Following `next_cursor` reads the rows of the first request,
each once and in order, and ends; every later page leads back to the page before it. -/
theorem keyset_pages {snapshot : List α} (hkeys : (snapshot.map key).Nodup)
    (hc : Continues key req snapshot)
    {tables : ℕ → List α} (hfirst : tables 0 = snapshot)
    (htables : ∀ i, Grown key snapshot (tables i)) :
    ∃ pages, (∀ fuel, snapshot.length < fuel → follow key req tables fuel 0 none = .ok pages)
      ∧ pages.flatMap Prod.fst = sortBy key req.presentation snapshot
      ∧ (∀ page ∈ pages, page.1.length ≤ req.size)
      ∧ (∃ page, pages.getLast? = some page ∧ page.2.bind Metadata.nextCursor = none)
      ∧ (∃ page, pages.head? = some page ∧ page.2.bind Metadata.previousCursor = none)
      ∧ pages.IsChain (GoesBack key req snapshot) := by
  have hreq : { req with token := none } = req := by
    rw [← hc.first]
  -- without rows there is one page, which leads nowhere
  by_cases hempty : snapshot = []
  · subst hempty
    refine ⟨[([], some ⟨req.size, 0, none, none, true⟩)], ?_, ?_, by
      simp, ⟨_, rfl, rfl⟩, ⟨_, rfl, rfl⟩,
      List.isChain_singleton _⟩
    · intro fuel hfuel
      obtain ⟨fuel, rfl⟩ : ∃ fuel', fuel = fuel' + 1 := ⟨fuel - 1, by omega⟩
      rw [follow, hreq, hfirst, readPage_empty hc]
      rfl
    · exact (sortBy_perm req.presentation []).eq_nil.symm
  · obtain ⟨top, htop, hhigh, hmax⟩ := exists_top hempty hkeys
    have hl := sortBy_ordered req.presentation hkeys
    have hsnap : (sortBy key req.presentation snapshot).Perm snapshot := sortBy_perm _ _
    generalize sortBy key req.presentation snapshot = rows at hl hsnap ⊢
    -- the pages are those of the ordered rows, each read where the one before ended
    have hne : rows ≠ [] := fun h => hempty (h ▸ hsnap).symm.eq_nil
    have hsplit := List.take_append_drop req.size rows
    have hread : readPage key (tables 0) { req with token := none }
        = .ok (pageAt key req (key top) [] (rows.take req.size) (rows.drop req.size)) := by
      rw [hreq]
      refine readPage_first hc htop (hsplit.symm ▸ hl) ?_ (hfirst ▸ hhigh) ?_ (by rw [hsplit])
      · rw [hsplit]
        exact fun r hr => hsnap.mem_iff.mp hr
      · rw [hsplit]
        exact (htables 0).filter htop hmax hsnap
    have hl0 : OrderedBy key req.presentation ([] ++ rows) := hl
    have hsnap0 : ([] ++ rows).Perm snapshot := hsnap
    -- by the induction over the rows that are left
    obtain ⟨pages, hfollow, hwalk⟩ := follow_page hc htop hmax hne hl0 hsnap0 hread (by
      intro front y hy hpost
      rw [hy, List.append_assoc, List.singleton_append] at hsplit
      obtain ⟨pages, hfollow, hwalk⟩ :=
        follow_rest hc htop hmax tables htables _ (rows.drop req.size) front y 1
        le_rfl hpost (hsplit.symm ▸ hl) (hsplit.symm ▸ hsnap)
      exact ⟨pages, hfollow, by rw [hy]; exact hwalk⟩)
    refine ⟨pages, fun fuel hfuel => hfollow fuel ?_, hwalk.rows, hwalk.sizes, hwalk.last,
      ⟨_, hwalk.first, rfl⟩,
      hwalk.back⟩
    rw [hsnap.length_eq]
    omega

end Following

/-! ### Events and documents -/

/-- The events of a run, one at a time, the newest first. -/
def eventsRequest : Request :=
  ⟨⟨.events, some 1, some 2, none, none, none, none⟩, some 1, none, some .desc, 50, 200, 50, true⟩

def twoEvents : List Key := [.sequence 1, .sequence 2]

set_option maxRecDepth 20000 in
theorem keyset_pages_twoEvents :
    ∃ pages, (∀ fuel, 2 < fuel →
        follow id eventsRequest (fun i => if i = 0 then twoEvents else .sequence 9 :: twoEvents)
        fuel 0 none
          = .ok pages)
      ∧ pages.flatMap Prod.fst = [.sequence 2, .sequence 1] := by
  have hc : Continues id eventsRequest twoEvents := by
    refine ⟨rfl, rfl, by decide, by decide, by decide, by decide, ?_⟩
    intro r hr r' hr' seek
    have hall : ∀ r ∈ twoEvents, ∀ r' ∈ twoEvents, ∀ seek ∈ [Seek.after, Seek.before],
        (Token.text ⟨eventsRequest.cursor r seek r'⟩).length ≤ maxTokenLength := by
      decide
    exact hall r hr r' hr' seek (by cases seek <;> simp)
  have htables :
      ∀ i : ℕ, Grown id twoEvents (if i = 0 then twoEvents else .sequence 9 :: twoEvents) := by
    intro i
    by_cases hi : i = 0
    · exact ⟨[], by rw [if_pos hi]; simp, by simp⟩
    · refine ⟨[.sequence 9], ?_, by decide⟩
      rw [if_neg hi]
      exact (List.perm_append_singleton (Key.sequence 9) twoEvents).symm
  obtain ⟨pages, hfollow, hrows, -⟩ := keyset_pages (by decide) hc rfl htables
  exact ⟨pages, hfollow, hrows.trans (by decide)⟩

/-- The documents of an entity, one at a time. -/
def documentsRequest : Request :=
  ⟨⟨.documents, some 1, some 2, none, none, none, none⟩, some 1, none, none, 50, 200, 50, false⟩

/-- Two documents, the first with an accession no cursor may carry. -/
def emptyAccession : List Key :=
  [.filed ⟨0, by decide⟩ "" 0, .filed ⟨1, by decide⟩ "b" 0]

set_option maxRecDepth 20000 in
/-- The first page cannot name its last row, and the request is refused. -/
theorem emptyAccession_refused :
    (emptyAccession.map id).Nodup ∧ documentsRequest.scope.accepted = true
      ∧ 1 ≤ documentsRequest.size ∧ documentsRequest.size ≤ documentsRequest.maxLimit
      ∧ readPage id emptyAccession documentsRequest = .error invalid := by
  refine ⟨by decide, by decide, by decide, by decide, ?_⟩
  have hrefused : (match readPage id emptyAccession documentsRequest with
      | .ok _ => none
      | .error e => some e) = some invalid := by
    decide
  cases h : readPage id emptyAccession documentsRequest with
  | ok page => simp [h] at hrefused
  | error e => simpa [h] using hrefused

end Pagination
