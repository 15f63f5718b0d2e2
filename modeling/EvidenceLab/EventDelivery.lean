/-
# Delivering the events of a run to a page

The whole way of an event: the transactions that append it, the generator of `stream_events` that
sends it, the network that cuts the bytes anywhere and may lose the connection at any time, and
`consumeExtractionEvents` in the page, which reads chunks, hands the events over and opens the
stream again after the last of them.

`events_delivered`: whatever happens, the page has got the visible events of the run between the id
it began with and the last one it saw, each once and in their order; it never refuses what the
server sent; and it has caught up with the server when it has received what was sent.
-/
import EvidenceLab.EventPage

namespace LockedLog

/-! ## Intervals of a log -/

variable {K P : Type*} [DecidableEq K] {d : Log K P}

/-- The first entries of an interval are an interval themselves. -/
theorem Sound.between_take (hd : Sound d) (k : K) (lo hi q : ℕ) :
    lo ≤ lastId lo ((d.between k lo hi).take q)
      ∧ d.between k lo (lastId lo ((d.between k lo hi).take q)) = (d.between k lo hi).take q := by
  have hsorted : (d.after k lo).Pairwise fun a b => a.id < b.id := hd.after_ordered
  have hsplit := filter_le_append_filter_lt hsorted hi
  have hinit : (d.between k lo hi).take q = d.page k lo (min q (d.between k lo hi).length) := by
    have hle : min q (d.between k lo hi).length ≤ (d.between k lo hi).length := min_le_right _ _
    have htake : (d.after k lo).take (min q (d.between k lo hi).length)
        = (d.between k lo hi).take (min q (d.between k lo hi).length) := by
      rw [← hsplit, ← between_eq_filter_after, List.take_append_of_le_length hle]
    rw [hd.page_eq, htake, List.take_eq_take_min]
  rw [hinit]
  rcases Nat.eq_zero_or_pos (min q (d.between k lo hi).length) with hzero | hpos
  · have hempty : d.between k lo lo = [] := by
      refine List.filter_eq_nil_iff.mpr fun e _ => ?_
      simp only [decide_eq_true_eq]
      omega
    have hpage : d.page k lo 0 = [] := List.take_zero
    rw [hzero, hpage]
    exact ⟨le_rfl, hempty⟩
  · obtain ⟨hle, hpage, -⟩ := hd.page_split k lo hpos
    exact ⟨hle, hpage⟩

/-- What has been seen after the first entries of an interval. -/
theorem seen_take {k : K} {lo : ℕ} (hi q : ℕ) (h : d.Seen k lo) :
    d.Seen k (lastId lo ((d.between k lo hi).take q)) := by
  cases hlast : ((d.between k lo hi).take q).getLast? with
  | none => simpa [lastId, hlast] using h
  | some e =>
    have he : e ∈ d.between k lo hi := List.mem_of_mem_take (List.mem_of_getLast? hlast)
    simp only [Log.between, List.mem_filter, decide_eq_true_eq] at he
    exact .inr ⟨e, he.1, he.2.1, by simp [lastId, hlast]⟩

end LockedLog

namespace EventDelivery

open Extraction Transitions LockedLog Except

/-! ## The server -/

/-- What `content` yields. -/
inductive Item where
  | comment (text : List Char)
  | event (f : Frame)

def Item.frame? : Item → Option Frame
  | .comment _ => none
  | .event f => some f

/-- The frames of what was yielded. -/
def framesOf (items : List Item) : List Frame := items.filterMap Item.frame?

section Text

variable (X : EventText)

def Item.block : Item → Sse.Block
  | .comment text => .comment text
  | .event f => X.block f

/-- The bytes of what was yielded. -/
def bytesOf (items : List Item) : List UInt8 := Sse.encode (Sse.textOf (items.map (Item.block X)))

end Text

/-- A response of `stream_events`: what it has yielded, how many events of its batches that were,
and whether it returned. -/
structure Conn where
  items : List Item
  sent : ℕ
  ended : Bool

/-! ## The page -/

/-- A response that is not `ok`. -/
structure ErrorResponse where
  status : ℕ
  contentType : Option String
  body : Option (List (List UInt8))

/-- The text of an error body. -/
def errorText (size : ℕ) (d : Sse.Utf8) (text : List Char) :
    List (List UInt8) → Except String (List Char)
  | [] => if d.needed = 0 then .ok text else .error "Invalid extraction UTF-8"
  | chunk :: chunks =>
      if Sse.frameBytes < size + chunk.length then .error "Extraction error exceeds 64 KiB"
      else match d.decode chunk with
        | none => .error "Invalid extraction UTF-8"
        | some (d', more) => errorText (size + chunk.length) d' (text ++ more) chunks

/-- `retryableResponse`; `outage` is `JSON.parse` with the test for the envelope of an outage. -/
def retryableResponse (outage : List Char → Option Bool) (response : ErrorResponse) :
    Except String Bool :=
  let gateway := decide (response.status ∈ [502, 503, 504])
  let json := response.contentType.any fun type => "application/json".toList.isPrefixOf type.toList
  match response.body with
  | some chunks =>
      if gateway && json then do
        let text ← errorText 0 (.between false) [] chunks
        match outage text with
        | none => .error "Malformed extraction error"
        | some b => .ok b
      else .ok gateway
  | none => .ok gateway

/-- Why `consumeExtractionEvents` throws. -/
inductive Failure where
  /-- The parser refused the stream. -/
  | stream (message : String)
  /-- The response was refused. -/
  | response (message : String)
  /-- `Reconnect limit reached; reconnect explicitly`. -/
  | limit

/-- Where `consumeExtractionEvents` stands. -/
inductive Phase where
  | between
  /-- It reads the response of a connection, of which it has received so many bytes. -/
  | reading (i : ℕ) (parser : Sse.State) (received : ℕ) (progressed : Bool)
  | complete
  | failed (failure : Failure)
  | aborted

structure Client (J : Type) where
  run : String
  start : ℕ
  lastId : ℕ
  attempt : ℕ
  delivered : List J
  phase : Phase

variable {J : Type}

/-- The loop over the events of a response, and whether it returned at a terminal one. -/
def Client.consume (P : Page J) (c : Client J) : List J → Client J × Bool
  | [] => (c, false)
  | e :: es =>
      let c := { c with lastId := P.contracts.id e, delivered := c.delivered ++ [e] }
      if P.isTerminal e then ({ c with phase := .complete }, true) else consume P c es

/-- The end of an attempt. -/
def Client.retry (c : Client J) (progressed healthy : Bool) : Client J :=
  let attempt := if progressed || healthy then 0 else c.attempt
  if attempt = 5 then { c with attempt := attempt, phase := .failed .limit }
  else { c with attempt := attempt + 1, phase := .between }

/-- A chunk of the response. -/
def Client.receive (P : Page J) (c : Client J) (i : ℕ) (parser : Sse.State) (received : ℕ)
    (progressed : Bool)
    (chunk : List UInt8) : Client J :=
  match Sse.pieces P.contracts c.run parser (PieceReader.slices Sse.pieceBytes chunk) with
  | (es, res) =>
      let (c, returned) := c.consume P es
      if returned then c
      else match res with
        | .error message => { c with phase := .failed (.stream message) }
        | .ok parser =>
            { c with phase :=
              .reading i parser (received + chunk.length) (progressed || !es.isEmpty) }

/-! ## The system -/

/-- The database with the fetches of the responses, the responses, and the page. -/
structure Delivery (J : Type) where
  stream : Stream
  conns : ℕ → Option Conn
  client : Client J

/-- A page that begins to follow a run. -/
def Delivery.init (run : String) (start : ℕ) : Delivery J where
  stream := .init
  conns _ := none
  client :=
    ⟨run, start, start, 0, [], if Sse.uuid run then .between
      else .failed (.response "Invalid run ID")⟩

def Delivery.setConn (s : Delivery J) (i : ℕ) (k : Conn) : Delivery J :=
  { s with conns := Function.update s.conns i (some k) }

inductive DeliveryAct where
  /-- A step of a writer, or of a response to another page. -/
  | database (a : StreamAct)
  /-- The page opens the stream, and the server begins a response. -/
  | connect (i : ℕ)
  /-- The response sends the next event of its batch. -/
  | emit (i : ℕ)
  /-- The response sends a heartbeat. -/
  | beat (i : ℕ)
  /-- The response has sent its batch and fetches the next one. -/
  | poll (i : ℕ)
  /-- The response ends: the run is over, the client left, or the server stopped. -/
  | close (i : ℕ)
  /-- The page receives the next bytes. -/
  | receive (count : ℕ)
  /-- The page has received the whole response. -/
  | done (healthy : Bool)
  /-- The connection is lost, or there was none. -/
  | lost (healthy : Bool)
  /-- Something between the page and the server answers with an error. -/
  | refused (response : ErrorResponse) (healthy : Bool)
  | abort

/-- The status of the error that a failed fetch becomes. -/
def errorStatus : FetchError → ℕ
  | .notFound _ => 404
  | .tooLarge _ => 413
  | .validation _ => 422

def unavailable (status : ℕ) : Phase :=
  .failed (.response ("Extraction stream unavailable (HTTP " ++ toString status ++ ")"))

variable (P : Page J) (X : EventText) (textSize : Doc → ℕ) (outage : List Char → Option Bool)

/-- What only the responses of the model do. -/
def ofConn (conns : ℕ → Option Conn) : StreamAct → Bool
  | .subscribe i _ _ | .fetch i => (conns i).isSome
  | _ => false

def Delivery.step (s : Delivery J) : DeliveryAct → Option (Delivery J)
  | .database a =>
      if ofConn s.conns a then none else (s.stream.step (X.tools textSize) a).map fun stream =>
        { s with stream := stream }
  | .connect i =>
      match s.client.phase, s.stream.readers i, s.conns i with
      | .between, none, none =>
          if maxSafeInteger < s.client.lastId
            then some { s with client := { s.client with phase := unavailable 422 } }
          else match (X.tools textSize).fetch s.stream.log s.client.run s.client.lastId true with
            | .error e =>
                some { s with client := { s.client with phase := unavailable (errorStatus e) } }
            | .ok batch =>
                some { stream := s.stream.setReader i ⟨s.client.run, s.client.lastId,
                       lastSeen s.client.lastId batch, batch⟩
                       conns :=
                         Function.update s.conns i (some ⟨[.comment " connected".toList], 0, false⟩)
                       client :=
                         { s.client with phase := .reading i (Sse.start s.client.lastId) 0 false } }
      | _, _, _ => none
  | .emit i =>
      match s.conns i, s.stream.readers i with
      | some k, some r =>
          match r.delivered[k.sent]? with
          | some f =>
              if k.ended then none
              else some (s.setConn i ⟨k.items ++ [.event f], k.sent + 1, f.type.terminal?.isSome⟩)
          | none => none
      | _, _ => none
  | .beat i =>
      match s.conns i with
      | some k => if k.ended then none
          else some (s.setConn i { k with items := k.items ++ [.comment " heartbeat".toList] })
      | none => none
  | .poll i =>
      match s.conns i, s.stream.readers i with
      | some k, some r =>
          if k.ended ∨ k.sent ≠ r.delivered.length then none
          else match (X.tools textSize).fetch s.stream.log r.run r.cursor false with
            | .error _ => some (s.setConn i { k with ended := true })
            | .ok batch =>
                let r :=
                  { r with cursor := lastSeen r.cursor batch, delivered := r.delivered ++ batch }
                some { s with stream := s.stream.setReader i r }
      | _, _ => none
  | .close i =>
      match s.conns i with
      | some k => some (s.setConn i { k with ended := true })
      | none => none
  | .receive count =>
      match s.client.phase with
      | .reading i parser received progressed =>
          match s.conns i with
          | some k =>
              let chunk := ((bytesOf X k.items).drop received).take count
              if chunk = [] then none
              else some { s with client := s.client.receive P i parser received progressed chunk }
          | none => none
      | _ => none
  | .done healthy =>
      match s.client.phase with
      | .reading i parser received progressed =>
          match s.conns i with
          | some k =>
              if k.ended = true ∧ received = (bytesOf X k.items).length then
                match Sse.flush (.ok parser) with
                | some message =>
                    some { s with client := { s.client with phase := .failed (.stream message) } }
                | none => some { s with client := s.client.retry progressed healthy }
              else none
          | none => none
      | _ => none
  | .lost healthy =>
      match s.client.phase with
      | .between => some { s with client := s.client.retry false healthy }
      | .reading _ _ _ progressed => some { s with client := s.client.retry progressed healthy }
      | _ => none
  | .refused response healthy =>
      match s.client.phase with
      | .between =>
          match retryableResponse outage response with
          | .ok true => some { s with client := s.client.retry false healthy }
          | .ok false =>
              some { s with client := { s.client with phase := unavailable response.status } }
          | .error message =>
              some { s with client := { s.client with phase := .failed (.response message) } }
      | _ => none
  | .abort =>
      match s.client.phase with
      | .between | .reading _ _ _ _ => some { s with client := { s.client with phase := .aborted } }
      | _ => none

/-! ## What was got -/

section Got

variable {T : EventTools} {d : Log String (EventType × Doc)} {run : String} {lo hi : ℕ}
    {frames : List Frame}

/-- The visible events of a run between two ids, as they are shown. -/
def Shows (T : EventTools) (d : Log String (EventType × Doc)) (run : String) (lo hi : ℕ)
    (frames : List Frame) : Prop :=
  (d.between run lo hi).mapM T.project = .ok frames

/-- A first part of the frames shows the events up to its last one. -/
theorem Shows.take (hd : Sound d) (h : Shows T d run lo hi frames) (q : ℕ) :
    lo ≤ lastSeen lo (frames.take q) ∧
    Shows T d run lo (lastSeen lo (frames.take q)) (frames.take q) := by
  have htake : ((d.between run lo hi).take q).mapM T.project = .ok (frames.take q) := by
    rw [Shows, mapM_eq_ok_iff] at h
    rw [mapM_eq_ok_iff]
    exact List.forall₂_take q h
  obtain ⟨hle, hbetween⟩ := hd.between_take run lo hi q
  rw [← lastSeen_eq lo htake] at hle hbetween
  refine ⟨hle, ?_⟩
  rw [Shows, hbetween]
  exact htake

/-- The id of the last frame of a first part has been seen. -/
theorem Shows.seen (h : Shows T d run lo hi frames) (q : ℕ) (hlo : d.Seen run lo) :
    d.Seen run (lastSeen lo (frames.take q)) := by
  have htake : ((d.between run lo hi).take q).mapM T.project = .ok (frames.take q) := by
    rw [Shows, mapM_eq_ok_iff] at h
    rw [mapM_eq_ok_iff]
    exact List.forall₂_take q h
  rw [lastSeen_eq lo htake]
  exact seen_take hi q hlo

/-- **Two batches** that follow one another show one range of events. -/
theorem Shows.append (hd : Sound d) {mid : ℕ} {later : List Frame} (hlo : lo ≤ mid) (hhi : mid ≤ hi)
    (h : Shows T d run lo mid frames) (h' : Shows T d run mid hi later) :
    Shows T d run lo hi (frames ++ later) := by
  rw [Shows] at h h' ⊢
  rw [← hd.between_append hlo hhi, List.mapM_append, h, h']
  rfl

/-- Shown events have increasing ids above the start, and the run of the page. -/
theorem Shows.ids (h : Shows T d run lo hi frames) (hd : Sound d) :
    (frames.map Frame.id).Pairwise (· < ·) ∧ ∀ f ∈ frames, lo < f.id ∧ f.run = run := by
  have hids := ids_of_mapM_project h
  refine ⟨?_, fun f hf => ?_⟩
  · rw [hids, List.pairwise_map]
    exact hd.between_ordered
  · obtain ⟨row, hrow, hproject⟩ := exists_left_of_forall₂ (mapM_eq_ok_iff.mp h) hf
    simp only [Log.between, List.mem_filter, decide_eq_true_eq] at hrow
    refine ⟨?_, ?_⟩
    · rw [id_of_project hproject]
      exact hrow.2.2.1
    · simp only [EventTools.project, bind_eq_ok_iff, pure_eq_ok, Except.ok.injEq] at hproject
      obtain ⟨-, -, -, -, -, -, rfl⟩ := hproject
      exact hrow.2.1

/-- What becomes visible later is not between two ids of which the last one was seen. -/
theorem Shows.grow {d' : Log String (EventType × Doc)} {new : List EventRow} (hd' : Sound d')
    (hvis : d'.visible = d.visible ++ new) (hseen : hi = lo ∨ d.Seen run hi)
    (h : Shows T d run lo hi frames) :
    Shows T d' run lo hi frames := by
  rw [Shows] at h ⊢
  rcases hseen with rfl | hseen
  · have hempty : ∀ d : Log String (EventType × Doc), d.between run hi hi = [] := by
      intro d
      refine List.filter_eq_nil_iff.mpr fun e _ => ?_
      simp only [decide_eq_true_eq]
      omega
    rw [hempty] at h ⊢
    exact h
  · rw [hd'.between_grow hvis hseen]
    exact h

end Got

section Reading

variable {P : Page J} {X : EventText}

theorem lastSeen_cons (lo : ℕ) (f : Frame) (fs : List Frame) :
    lastSeen lo (f :: fs) = lastSeen f.id fs := by
  cases fs with
  | nil => rfl
  | cons g fs =>
    rw [lastSeen, lastSeen, List.getLast?_cons_cons]
    cases h : (g :: fs).getLast? with
    | none => exact absurd (List.getLast?_eq_none_iff.mp h) (List.cons_ne_nil g fs)
    | some x => rfl

/-- Increasing frames are read as they are. -/
theorem reading_items {items : List Item} (lo : ℕ)
    (hreads : ∀ f ∈ framesOf items, ∃ j, P.Reads X f j)
    (hinc : ((framesOf items).map Frame.id).Pairwise (· < ·))
    (hlo : ∀ f ∈ framesOf items, lo < f.id) :
    List.Forall₂ (P.Reads X) (framesOf items)
    (Sse.reading P.contracts lo (items.map (Item.block X))).1
      ∧ (Sse.reading P.contracts lo (items.map (Item.block X))).2
      = lastSeen lo (framesOf items) := by
  induction items generalizing lo with
  | nil => exact ⟨.nil, rfl⟩
  | cons item items ih =>
    cases item with
    | comment text => exact ih lo hreads hinc hlo
    | event f =>
      have hframes : framesOf (.event f :: items) = f :: framesOf items := rfl
      rw [hframes] at hreads hinc hlo ⊢
      obtain ⟨⟨j, hj⟩, hreads⟩ := List.forall_mem_cons.mp hreads
      obtain ⟨hlater, hinc⟩ := List.pairwise_cons.mp hinc
      obtain ⟨hfirst, hlo⟩ := List.forall_mem_cons.mp hlo
      have hevent : (X.block f).event P.contracts = some j := hj.parse
      have hnot : ¬ P.contracts.id j ≤ lo := by
        rw [hj.id]
        omega
      obtain ⟨hall, hlast⟩ := ih f.id hreads hinc (fun g hg => hlater g.id (List.mem_map_of_mem hg))
      rw [List.map_cons, Sse.reading]
      simp only [Item.block, hevent]
      rw [if_neg hnot, hj.id]
      exact ⟨.cons hj hall, by rw [hlast, lastSeen_cons]⟩

/-- The frames of two parts stand one after the other. -/
theorem framesOf_append (items items' : List Item) :
    framesOf (items ++ items') = framesOf items ++ framesOf items' :=
  List.filterMap_append

/-- The whole blocks at a place belong to first items. -/
theorem whole_items (items : List Item) (n : ℕ) :
    ∃ q, Sse.whole (items.map (Item.block X)) n = (items.take q).map (Item.block X) := by
  refine ⟨(Sse.whole (items.map (Item.block X)) n).length, ?_⟩
  rw [List.map_take]
  exact List.prefix_iff_eq_take.mp (Sse.whole_prefix _ n)

end Reading

/-! ## The invariant -/

/-- The last id of some events. -/
def lastOf (P : Page J) (lo : ℕ) (js : List J) : ℕ := (js.getLast?.map P.contracts.id).getD lo

section Invariant

variable {P : Page J} {X : EventText} {T : EventTools} {d : Log String (EventType × Doc)}
    {r : Reader} {k : Conn}

theorem lastOf_append (lo : ℕ) (js es : List J) :
    lastOf P lo (js ++ es) = lastOf P (lastOf P lo js) es := by
  cases hes : es.getLast? with
  | none =>
    obtain rfl := List.getLast?_eq_none_iff.mp hes
    rw [List.append_nil]
    rfl
  | some e =>
    rw [lastOf, lastOf, List.getLast?_append, hes]
    rfl

/-- The page and the server count the same last id. -/
theorem lastOf_eq {frames : List Frame} {js : List J} (h : List.Forall₂ (P.Reads X) frames js)
    (lo : ℕ) :
    lastOf P lo js = lastSeen lo frames := by
  have hids : js.map P.contracts.id = frames.map Frame.id := by
    induction h with
    | nil => rfl
    | cons hj _ ih => rw [List.map_cons, List.map_cons, hj.id, ih]
  rw [lastOf, lastSeen, ← List.getLast?_map, hids, List.getLast?_map]

/-- What a response has sent comes from its fetches. -/
structure Conn.Ok (r : Reader) (k : Conn) : Prop where
  frames : framesOf k.items = r.delivered.take k.sent
  le : k.sent ≤ r.delivered.length
  comments : ∀ text, .comment text ∈ k.items → Json.Printable text ∧
    text.length + 3 ≤ Sse.frameBytes

variable (P X T d) in
/-- The events that a page has got of a run, from where it began up to the last one. -/
structure Got (run : String) (start lastId : ℕ) (delivered : List J) : Prop where
  frames : ∃ frames, Shows T d run start lastId frames ∧ List.Forall₂ (P.Reads X) frames delivered
  le : start ≤ lastId
  seen : lastId = start ∨ d.Seen run lastId

/-- The text of what a response has sent. -/
def Conn.text (X : EventText) (k : Conn) : List Char := Sse.textOf (k.items.map (Item.block X))

/-- The events in the first bytes of a response. -/
def Conn.events (P : Page J) (X : EventText) (k : Conn) (lo n : ℕ) : List J :=
  (Sse.reading P.contracts lo (Sse.whole (k.items.map (Item.block X)) n)).1

variable (P X T d) in
/-- A page that reads a response. -/
structure ReadingAt (c : Client J) (r : Reader) (k : Conn) (parser : Sse.State) (n : ℕ)
    (before : List J) : Prop where
  run : r.run = c.run
  reached : Sse.Reached P.contracts c.run r.start (k.items.map (Item.block X)) n parser
  le : n ≤ (k.text X).length
  seen : d.Seen c.run r.start
  first : Got P X T d c.run c.start r.start before
  delivered : c.delivered = before ++ k.events P X r.start n
  lastId : c.lastId = lastOf P r.start (k.events P X r.start n)

/-- The page stands at the response that it reads, and has refused no stream. -/
structure PhaseOk (P : Page J) (X : EventText) (T : EventTools) (s : Delivery J) : Prop where
  reading : ∀ i parser n progressed, s.client.phase = .reading i parser n progressed →
    ∃ k r before, s.conns i = some k ∧ s.stream.readers i = some r
      ∧ ReadingAt P X T s.stream.log s.client r k parser n before
  stream : ∀ message, s.client.phase ≠ .failed (.stream message)

/-- The page is complete with a terminal event, and only then. -/
def TerminalOk (P : Page J) (c : Client J) : Prop :=
  match c.phase with
  | .complete => ∃ js j, c.delivered = js ++ [j] ∧ P.isTerminal j = true ∧ ∀ x ∈ js,
      P.isTerminal x = false
  | _ => ∀ x ∈ c.delivered, P.isTerminal x = false

structure Delivery.Ok (P : Page J) (X : EventText) (T : EventTools) (s : Delivery J) : Prop where
  stream : s.stream.Ok T
  conns : ∀ i k, s.conns i = some k → ∃ r, s.stream.readers i = some r ∧ k.Ok r
  got : Got P X T s.stream.log s.client.run s.client.start s.client.lastId s.client.delivered
  phase : PhaseOk P X T s
  terminal : TerminalOk P s.client

/-! ### The events of a response -/

section Response

variable {textSize : Doc → ℕ} {run : String} (hP : P.ReadsRun X textSize run)

include hP

/-- Every delivered frame is one that the page can read. -/
theorem reads_delivered (hr : r.Ok (X.tools textSize) d) (hrun : r.run = run) :
    ∀ f ∈ r.delivered, ∃ row j, (X.tools textSize).project row = .ok f ∧ f.run = run ∧
    P.Reads X f j := by
  intro f hf
  have hcomplete : Shows (X.tools textSize) d r.run r.start r.cursor r.delivered := hr.complete
  obtain ⟨row, hrow, hproject⟩ := exists_left_of_forall₂ (mapM_eq_ok_iff.mp hr.complete) hf
  simp only [Log.between, List.mem_filter, decide_eq_true_eq] at hrow
  obtain ⟨j, hj⟩ := hP row f (hrow.2.1.trans hrun) hproject
  have hfrun : f.run = run := by
    rw [(EventText.shown_of_project hproject).run, hrow.2.1, hrun]
  exact ⟨row, j, hproject, hfrun, hj⟩

/-- Every block of a response is one that the page accepts. -/
theorem sound_blocks (hr : r.Ok (X.tools textSize) d) (hrun : r.run = run) (hk : k.Ok r) :
    ∀ b ∈ k.items.map (Item.block X), b.Sound P.contracts run := by
  intro b hb
  obtain ⟨item, hitem, rfl⟩ := List.mem_map.mp hb
  cases item with
  | comment text => exact hk.comments text hitem
  | event f =>
    have hf : f ∈ r.delivered := by
      have hmem : f ∈ framesOf k.items := List.mem_filterMap.mpr ⟨.event f, hitem, rfl⟩
      rw [hk.frames] at hmem
      exact List.mem_of_mem_take hmem
    obtain ⟨row, j, hproject, hfrun, hj⟩ := reads_delivered hP hr hrun f hf
    rw [← hfrun]
    exact hj.sound hproject

/-- The events in the first bytes are the first frames of the fetches. -/
theorem events_eq (hr : r.Ok (X.tools textSize) d) (hrun : r.run = run) (hd : Sound d)
    (hk : k.Ok r) (n : ℕ) :
    ∃ q, List.Forall₂ (P.Reads X) (r.delivered.take q) (k.events P X r.start n) := by
  obtain ⟨q, hq⟩ := whole_items (X := X) k.items n
  have hinit : framesOf (k.items.take q) <+: r.delivered := by
    have hitems : framesOf (k.items.take q) <+: framesOf k.items := by
      obtain ⟨rest, hrest⟩ := List.take_prefix q k.items
      exact ⟨framesOf rest, by rw [← framesOf_append, hrest]⟩
    rw [hk.frames] at hitems
    exact hitems.trans (List.take_prefix _ _)
  have htake := List.prefix_iff_eq_take.mp hinit
  have hcomplete : Shows (X.tools textSize) d r.run r.start r.cursor r.delivered := hr.complete
  obtain ⟨hinc, hlo⟩ := hcomplete.ids hd
  refine ⟨(framesOf (k.items.take q)).length, ?_⟩
  rw [Conn.events, hq, ← htake]
  refine (reading_items r.start ?_ ?_ ?_).1
  · intro f hf
    obtain ⟨row, j, -, -, hj⟩ := reads_delivered hP hr hrun f (hinit.subset hf)
    exact ⟨j, hj⟩
  · exact hinc.sublist (hinit.sublist.map Frame.id)
  · intro f hf
    exact (hlo f (hinit.subset hf)).1

/-- **What a page has got** with the first events of a response. -/
theorem got_prefix (hr : r.Ok (X.tools textSize) d) (hrun : r.run = run) (hd : Sound d)
    (hk : k.Ok r) {start n : ℕ}
    {before js : List J} (hfirst : Got P X (X.tools textSize) d run start r.start before)
    (hseen : d.Seen run r.start) (hjs : js <+: k.events P X r.start n) :
    Got P X (X.tools textSize) d run start (lastOf P r.start js) (before ++ js) := by
  obtain ⟨q, hq⟩ := events_eq hP hr hrun hd hk n
  have hcomplete : Shows (X.tools textSize) d run r.start r.cursor r.delivered := hrun ▸ hr.complete
  -- the frames of the events
  have hframes : List.Forall₂ (P.Reads X) (r.delivered.take (min js.length q)) js := by
    have htake := List.forall₂_take js.length hq
    rw [← List.prefix_iff_eq_take.mp hjs, List.take_take] at htake
    exact htake
  have hlast := lastOf_eq hframes r.start
  obtain ⟨hle, hshows⟩ := hcomplete.take hd (min js.length q)
  rw [← hlast] at hle hshows
  obtain ⟨frames, hbefore, hall⟩ := hfirst.frames
  refine ⟨⟨_, hbefore.append hd hfirst.le hle hshows, List.rel_append hall hframes⟩,
    hfirst.le.trans hle, ?_⟩
  right
  rw [hlast]
  exact hcomplete.seen _ hseen

end Response

/-! ### The steps of the page -/

/-- What the loop over the events does. -/
theorem consume_eq (c : Client J) (es : List J) :
    ((c.consume P es).2 = false ∧ (∀ x ∈ es, P.isTerminal x = false)
      ∧ (c.consume P es).1
      = { c with lastId := lastOf P c.lastId es, delivered := c.delivered ++ es })
    ∨ ((c.consume P es).2 = true ∧ ∃ js e, js ++ [e] <+: es ∧ (∀ x ∈ js, P.isTerminal x = false)
      ∧ P.isTerminal e = true
      ∧ (c.consume P es).1 = { c with lastId := lastOf P c.lastId (js ++ [e])
                                      delivered := c.delivered ++ (js ++ [e])
                                      phase := .complete }) := by
  induction es generalizing c with
  | nil =>
    left
    refine ⟨rfl, fun x hx => absurd hx List.not_mem_nil, ?_⟩
    rw [List.append_nil]
    rfl
  | cons e es ih =>
    rw [Client.consume]
    cases hterminal : P.isTerminal e with
    | true =>
      right
      refine ⟨rfl, [], e, ⟨es, rfl⟩, fun x hx => absurd hx List.not_mem_nil, hterminal, rfl⟩
    | false =>
      have hstep : ∀ js : List J, lastOf P c.lastId (e :: js) = lastOf P (P.contracts.id e) js :=
        fun js => lastOf_append c.lastId [e] js
      simp only [Bool.false_eq_true, if_false]
      rcases ih { c with lastId := P.contracts.id e, delivered := c.delivered ++ [e] } with
        ⟨hfalse, hall, heq⟩ | ⟨htrue, js, e', hinit, hall, he', heq⟩
      · left
        refine ⟨hfalse, List.forall_mem_cons.mpr ⟨hterminal, hall⟩, ?_⟩
        rw [heq, hstep, List.append_assoc, List.singleton_append]
      · right
        refine ⟨htrue, e :: js, e', (List.prefix_cons_inj e).mpr hinit,
          List.forall_mem_cons.mpr ⟨hterminal, hall⟩,
          he', ?_⟩
        rw [heq, List.cons_append, hstep, List.append_assoc, List.singleton_append]

/-- An attempt that ended keeps what was got. -/
theorem retry_eq (c : Client J) (progressed healthy : Bool) :
    ∃ attempt phase, c.retry progressed healthy
    = { c with attempt := attempt, phase := phase } ∧
    (phase = .between ∨ phase = .failed .limit) := by
  obtain ⟨attempt, hattempt⟩ : ∃ attempt, attempt = if progressed || healthy then 0
    else c.attempt := ⟨_, rfl⟩
  simp only [Client.retry, ← hattempt]
  by_cases h : attempt = 5
  · rw [if_pos h]
    exact ⟨attempt, .failed .limit, rfl, .inr rfl⟩
  · rw [if_neg h]
    exact ⟨attempt + 1, .between, rfl, .inl rfl⟩

/-- A page that is not complete has seen no terminal event. -/
theorem terminalOk_iff {c : Client J} (h : c.phase ≠ .complete) :
    TerminalOk P c ↔ ∀ x ∈ c.delivered, P.isTerminal x = false := by
  rw [TerminalOk]
  split
  · rename_i hphase
    exact absurd hphase h
  · exact Iff.rfl

/-- A page that stops reading keeps what it got. -/
theorem Delivery.Ok.stop {s : Delivery J} (hs : s.Ok P X T) {attempt : ℕ} {phase : Phase}
    (hphase : phase ≠ .complete ∧ (∀ i parser n progressed, phase ≠ .reading i parser n progressed)
      ∧ ∀ message, phase ≠ .failed (.stream message)) (hopen : s.client.phase ≠ .complete) :
    Delivery.Ok P X T
    { s with client := { s.client with attempt := attempt, phase := phase } } := by
  obtain ⟨hcomplete, hreading, hstream⟩ := hphase
  refine ⟨hs.stream, hs.conns, hs.got, ⟨fun i parser n progressed h => ?_, hstream⟩, ?_⟩
  · exact absurd h (hreading i parser n progressed)
  · exact (terminalOk_iff hcomplete).mpr ((terminalOk_iff hopen).mp hs.terminal)

section Steps

variable {textSize : Doc → ℕ} {outage : List Char → Option Bool} {s s' : Delivery J}

/-- What becomes visible, and what other responses fetch, changes nothing for the page. -/
theorem Delivery.Ok.setStream (hs : s.Ok P X T) {stream : Stream} (hstream : stream.Ok T)
    {new : List EventRow}
    (hvis : stream.log.visible = s.stream.log.visible ++ new)
    (hreaders : ∀ i k, s.conns i = some k → stream.readers i = s.stream.readers i) :
    Delivery.Ok P X T { s with stream := stream } := by
  have hgrow : ∀ {run : String} {start lastId : ℕ} {js : List J},
      Got P X T s.stream.log run start lastId js →
      Got P X T stream.log run start lastId js := by
    intro run start lastId js hgot
    obtain ⟨frames, hshows, hall⟩ := hgot.frames
    exact ⟨⟨frames, hshows.grow hstream.sound hvis hgot.seen, hall⟩, hgot.le,
      hgot.seen.imp_right fun h => h.grow hvis⟩
  refine ⟨hstream, fun i k hk => ?_, hgrow hs.got,
    ⟨fun i parser n progressed h => ?_, hs.phase.stream⟩, hs.terminal⟩
  · obtain ⟨r, hr, hok⟩ := hs.conns i k hk
    exact ⟨r, (hreaders i k hk).trans hr, hok⟩
  · obtain ⟨k, r, before, hk, hr, hat⟩ := hs.phase.reading i parser n progressed h
    exact ⟨k, r, before, hk, (hreaders i k hk).trans hr,
      { hat with seen := hat.seen.grow hvis, first := hgrow hat.first }⟩

/-- Only fetching a batch makes a response return. -/
theorem eq_fetch_of_returns {stream : Stream} {i : ℕ} {a : StreamAct}
    (h : stream.returns T i a = true) : a = .fetch i := by
  cases a with
  | fetch j =>
    rw [Stream.returns] at h
    split at h
    · rw [Bool.and_eq_true, beq_iff_eq] at h
      rw [h.1]
    · cases h
  | _ => cases h

/-- **A step of the database** keeps what the page has got. -/
theorem Delivery.Ok.database (hs : s.Ok P X (X.tools textSize)) {a : StreamAct}
    (h : s.step P X textSize outage (.database a) = some s') : s'.Ok P X (X.tools textSize) := by
  simp only [Delivery.step] at h
  split at h
  · cases h
  · rename_i hof
    obtain ⟨stream, hstep, rfl⟩ := Option.map_eq_some_iff.mp h
    have hok := hs.stream.step hstep
    obtain ⟨log, new, rfl, -, hnew, -⟩ | ⟨i, run, after, batch, hi, -, rfl, -⟩ | ⟨i, r, batch, hi,
        -, rfl, hret⟩ :=
      Stream.step_cases hs.stream.sound hstep
    · exact hs.setStream hok hnew fun _ _ _ => rfl
    · refine hs.setStream hok (List.append_nil _).symm fun j k hk => ?_
      obtain ⟨r, hr, -⟩ := hs.conns j k hk
      have hne : j ≠ i := by
        rintro rfl
        rw [hi] at hr
        cases hr
      exact Function.update_of_ne hne _ _
    · refine hs.setStream hok (List.append_nil _).symm fun j k hk => ?_
      have hne : j ≠ i := by
        rintro rfl
        have hfetch := eq_fetch_of_returns ((hret j).trans (beq_self_eq_true j))
        rw [hfetch, ofConn, hk] at hof
        exact hof rfl
      exact Function.update_of_ne hne _ _

theorem setConn_self (s : Delivery J) (i : ℕ) (k : Conn) : (s.setConn i k).conns i = some k :=
  Function.update_self _ _ _

theorem setConn_of_ne (s : Delivery J) {i j : ℕ} (h : j ≠ i) (k : Conn) :
    (s.setConn i k).conns j = s.conns j :=
  Function.update_of_ne h _ _

theorem printable_heartbeat :
    Json.Printable " heartbeat".toList ∧ " heartbeat".toList.length + 3 ≤ Sse.frameBytes := by
  refine ⟨?_, by decide⟩
  show Json.Printable [' ', 'h', 'e', 'a', 'r', 't', 'b', 'e', 'a', 't']
  exact .cons (by decide)
    (.cons (by decide) (.cons (by decide) (.cons (by decide) (.cons (by decide) (.cons (by decide)
    (.cons (by decide)
    (.cons (by decide) (.cons (by decide) (.cons (by decide) Json.printable_nil)))))))))

theorem printable_connected :
    Json.Printable " connected".toList ∧ " connected".toList.length + 3 ≤ Sse.frameBytes := by
  refine ⟨?_, by decide⟩
  show Json.Printable [' ', 'c', 'o', 'n', 'n', 'e', 'c', 't', 'e', 'd']
  exact .cons (by decide)
    (.cons (by decide) (.cons (by decide) (.cons (by decide) (.cons (by decide) (.cons (by decide)
    (.cons (by decide)
    (.cons (by decide) (.cons (by decide) (.cons (by decide) Json.printable_nil)))))))))

section Sends

variable (hP : P.ReadsRun X textSize s.client.run)

include hP

/-- What a response sends next changes nothing before it. -/
theorem ReadingAt.send {c : Client J} {k' : Conn} {parser : Sse.State} {n : ℕ} {before : List J}
    (hc : c = s.client)
    (hat : ReadingAt P X (X.tools textSize) d c r k parser n before)
    (hr : r.Ok (X.tools textSize) d) (hk : k.Ok r)
    {extra : List Item} (hitems : k'.items = k.items ++ extra) :
    ReadingAt P X (X.tools textSize) d c r k' parser n before := by
  subst hc
  have hblocks :
      k'.items.map (Item.block X) = k.items.map (Item.block X) ++ extra.map (Item.block X) := by
    rw [hitems, List.map_append]
  have hevents : k'.events P X r.start n = k.events P X r.start n := by
    rw [Conn.events, Conn.events, hblocks, Sse.whole_append hat.le]
  refine ⟨hat.run, ?_, ?_, hat.seen, hat.first, ?_, ?_⟩
  · rw [hblocks]
    exact hat.reached.append hat.le (sound_blocks hP hr hat.run hk) _
  · refine hat.le.trans ?_
    rw [Conn.text, Conn.text, hblocks, Sse.textOf, Sse.textOf, List.flatMap_append,
      List.length_append]
    exact Nat.le_add_right _ _
  · rw [hevents]
    exact hat.delivered
  · rw [hevents]
    exact hat.lastId

/-- A response may be extended at its end. -/
theorem Delivery.Ok.setConn (hs : s.Ok P X (X.tools textSize)) {i : ℕ} {k' : Conn}
    (hk : s.conns i = some k)
    (hr : s.stream.readers i = some r) (hk' : k'.Ok r) {extra : List Item}
    (hitems : k'.items = k.items ++ extra) :
    (s.setConn i k').Ok P X (X.tools textSize) := by
  refine ⟨hs.stream, fun j l hl => ?_, hs.got, ⟨fun j parser n progressed h => ?_, hs.phase.stream⟩,
    hs.terminal⟩
  · by_cases hji : j = i
    · subst hji
      rw [setConn_self] at hl
      exact ⟨r, hr, Option.some.inj hl ▸ hk'⟩
    · rw [setConn_of_ne s hji] at hl
      exact hs.conns j l hl
  · obtain ⟨l, r', before, hl, hr', hat⟩ := hs.phase.reading j parser n progressed h
    by_cases hji : j = i
    · subst hji
      obtain rfl := Option.some.inj (hk.symm.trans hl)
      obtain rfl := Option.some.inj (hr.symm.trans hr')
      obtain ⟨r₀, hr₀, hok⟩ := hs.conns j k hk
      obtain rfl := Option.some.inj (hr.symm.trans hr₀)
      exact ⟨k', r, before, setConn_self s j k', hr,
        hat.send hP rfl (hs.stream.reader j r hr) hok hitems⟩
    · exact ⟨l, r', before, (setConn_of_ne s hji k').trans hl, hr', hat⟩

/-- **Sending the next frame** keeps the invariant. -/
theorem Delivery.Ok.emit (hs : s.Ok P X (X.tools textSize)) {i : ℕ}
    (h : s.step P X textSize outage (.emit i) = some s') : s'.Ok P X (X.tools textSize) := by
  simp only [Delivery.step] at h
  split at h
  · rename_i k r hk hr
    split at h
    · rename_i f hf
      split at h
      · cases h
      · obtain rfl := Option.some.inj h
        obtain ⟨r₀, hr₀, hok⟩ := hs.conns i k hk
        obtain rfl := Option.some.inj (hr.symm.trans hr₀)
        obtain ⟨hlt, hget⟩ := List.getElem?_eq_some_iff.mp hf
        have hitems : k.items ++ [.event f] = k.items ++ [.event f] := rfl
        refine hs.setConn hP hk hr ⟨?_, hlt, fun text htext => ?_⟩ hitems
        · show framesOf (k.items ++ [.event f]) = r.delivered.take (k.sent + 1)
          rw [framesOf_append, hok.frames, List.take_succ_eq_append_getElem hlt, hget]
          rfl
        · rcases List.mem_append.mp htext with htext | htext
          · exact hok.comments text htext
          · cases List.mem_singleton.mp htext
    · cases h
  · cases h

/-- **A heartbeat** keeps the invariant. -/
theorem Delivery.Ok.beat (hs : s.Ok P X (X.tools textSize)) {i : ℕ}
    (h : s.step P X textSize outage (.beat i) = some s') : s'.Ok P X (X.tools textSize) := by
  simp only [Delivery.step] at h
  split at h
  · rename_i k hk
    split at h
    · cases h
    · obtain rfl := Option.some.inj h
      obtain ⟨r, hr, hok⟩ := hs.conns i k hk
      have hitems :
        k.items ++ [.comment " heartbeat".toList] = k.items ++ [.comment " heartbeat".toList] := rfl
      refine hs.setConn hP hk hr ⟨?_, hok.le, fun text htext => ?_⟩ hitems
      · show framesOf (k.items ++ [.comment " heartbeat".toList]) = r.delivered.take k.sent
        rw [framesOf_append, hok.frames]
        exact List.append_nil _
      · rcases List.mem_append.mp htext with htext | htext
        · exact hok.comments text htext
        · cases List.mem_singleton.mp htext
          exact printable_heartbeat
  · cases h

/-- A response that ends has sent what it sent. -/
theorem Delivery.Ok.endConn (hs : s.Ok P X (X.tools textSize)) {i : ℕ} (hk : s.conns i = some k) :
    (s.setConn i { k with ended := true }).Ok P X (X.tools textSize) := by
  obtain ⟨r, hr, hok⟩ := hs.conns i k hk
  exact hs.setConn hP hk hr ⟨hok.frames, hok.le, hok.comments⟩ (List.append_nil _).symm

/-- **Fetching the next batch** keeps the invariant. -/
theorem Delivery.Ok.poll (hs : s.Ok P X (X.tools textSize)) {i : ℕ}
    (h : s.step P X textSize outage (.poll i) = some s') : s'.Ok P X (X.tools textSize) := by
  simp only [Delivery.step] at h
  split at h
  · rename_i k r hk hr
    split at h
    · cases h
    · split at h
      · obtain rfl := Option.some.inj h
        exact hs.endConn hP hk
      · rename_i batch hfetch
        obtain rfl := Option.some.inj h
        have hstream := hs.stream.setReader
          ((hs.stream.reader i r hr).fetched hs.stream.sound (fetch_eq_ok hfetch).2) i
        refine ⟨hstream, fun j l hl => ?_, hs.got,
          ⟨fun j parser n progressed hphase => ?_, hs.phase.stream⟩, hs.terminal⟩
        · obtain ⟨r', hr', hok⟩ := hs.conns j l hl
          by_cases hji : j = i
          · subst hji
            obtain rfl := Option.some.inj (hr.symm.trans hr')
            refine ⟨_, Function.update_self _ _ _, ?_, ?_, hok.comments⟩
            · show framesOf l.items = (r.delivered ++ batch).take l.sent
              rw [List.take_append_of_le_length hok.le]
              exact hok.frames
            · show l.sent ≤ (r.delivered ++ batch).length
              rw [List.length_append]
              exact hok.le.trans (Nat.le_add_right _ _)
          · exact ⟨r', (Function.update_of_ne hji _ _).trans hr', hok⟩
        · obtain ⟨l, r', before, hl, hr', hat⟩ := hs.phase.reading j parser n progressed hphase
          by_cases hji : j = i
          · subst hji
            obtain rfl := Option.some.inj (hr.symm.trans hr')
            exact ⟨l, _, before, hl, Function.update_self _ _ _,
              ⟨hat.run, hat.reached, hat.le, hat.seen, hat.first, hat.delivered, hat.lastId⟩⟩
          · exact ⟨l, r', before, hl, (Function.update_of_ne hji _ _).trans hr', hat⟩
  · cases h

end Sends

/-! ### The page opens the stream -/

/-- A lost connection keeps what the page has got. -/
theorem Delivery.Ok.retry (hs : s.Ok P X T) (hopen : s.client.phase ≠ .complete)
    (progressed healthy : Bool) :
    Delivery.Ok P X T { s with client := s.client.retry progressed healthy } := by
  obtain ⟨attempt, phase, heq, hphase⟩ := retry_eq s.client progressed healthy
  rw [heq]
  refine hs.stop ?_ hopen
  rcases hphase with rfl | rfl
  · exact ⟨Phase.noConfusion, fun _ _ _ _ => Phase.noConfusion, fun _ => Phase.noConfusion⟩
  · exact ⟨Phase.noConfusion, fun _ _ _ _ => Phase.noConfusion,
      fun m hm => Failure.noConfusion (Phase.failed.inj hm)⟩

/-- The page may be refused, lose the connection or be aborted. -/
theorem Delivery.Ok.lost (hs : s.Ok P X T) {healthy : Bool}
    (h : s.step P X textSize outage (.lost healthy) = some s') :
    s'.Ok P X T := by
  simp only [Delivery.step] at h
  split at h
  · rename_i hphase
    obtain rfl := Option.some.inj h
    exact hs.retry (by rw [hphase]; exact Phase.noConfusion) false healthy
  · rename_i i parser n progressed hphase
    obtain rfl := Option.some.inj h
    exact hs.retry (by rw [hphase]; exact Phase.noConfusion) progressed healthy
  · cases h

/-- **A refused request** keeps what the page has got. -/
theorem Delivery.Ok.refused (hs : s.Ok P X T) {response : ErrorResponse} {healthy : Bool}
    (h : s.step P X textSize outage (.refused response healthy) = some s') : s'.Ok P X T := by
  simp only [Delivery.step] at h
  split at h
  · rename_i hphase
    have hopen : s.client.phase ≠ .complete := by
      rw [hphase]
      exact Phase.noConfusion
    have hfailed : ∀ message, Delivery.Ok P X T
        { s with client := { s.client with phase := .failed (.response message) } } :=
        fun message =>
      hs.stop ⟨Phase.noConfusion, fun _ _ _ _ => Phase.noConfusion,
        fun m hm => Failure.noConfusion (Phase.failed.inj hm)⟩ hopen
    split at h
    · obtain rfl := Option.some.inj h
      exact hs.retry hopen false healthy
    · obtain rfl := Option.some.inj h
      exact hfailed _
    · obtain rfl := Option.some.inj h
      exact hfailed _
  · cases h

/-- **An abort** keeps what the page has got. -/
theorem Delivery.Ok.abort (hs : s.Ok P X T) (h : s.step P X textSize outage .abort = some s') :
    s'.Ok P X T := by
  have haborted : s.client.phase ≠ .complete →
      Delivery.Ok P X T { s with client := { s.client with phase := .aborted } } :=
    hs.stop ⟨Phase.noConfusion, fun _ _ _ _ => Phase.noConfusion, fun _ => Phase.noConfusion⟩
  simp only [Delivery.step] at h
  split at h
  · rename_i hphase
    obtain rfl := Option.some.inj h
    exact haborted (by rw [hphase]; exact Phase.noConfusion)
  · rename_i i parser n progressed hphase
    obtain rfl := Option.some.inj h
    exact haborted (by rw [hphase]; exact Phase.noConfusion)
  · cases h

/-- **Opening the stream again** begins after the last event of the page. -/
theorem Delivery.Ok.connect (hs : s.Ok P X (X.tools textSize)) {i : ℕ}
    (h : s.step P X textSize outage (.connect i) = some s') : s'.Ok P X (X.tools textSize) := by
  simp only [Delivery.step] at h
  split at h
  · rename_i hphase hnone hfree
    have hopen : s.client.phase ≠ .complete := by
      rw [hphase]
      exact Phase.noConfusion
    -- an answer that is no stream stops the page
    have hstop : ∀ status, Delivery.Ok P X (X.tools textSize)
        { s with client := { s.client with phase := unavailable status } } := fun status =>
      hs.stop ⟨Phase.noConfusion, fun _ _ _ _ => Phase.noConfusion, fun m hm => by cases hm⟩ hopen
    split at h
    · obtain rfl := Option.some.inj h
      exact hstop 422
    · split at h
      · obtain rfl := Option.some.inj h
        exact hstop _
      · rename_i batch hfetch
        obtain rfl := Option.some.inj h
        obtain ⟨hseen, hpage⟩ := fetch_eq_ok hfetch
        -- the step of the response alone
        have hstream : Stream.Ok (X.tools textSize)
            (s.stream.setReader i ⟨s.client.run, s.client.lastId, lastSeen s.client.lastId batch,
              batch⟩) := by
          refine hs.stream.step (a := .subscribe i s.client.run s.client.lastId) ?_
          simp only [Stream.step, hnone, hfetch]
        refine ⟨hstream, fun j l hl => ?_, hs.got,
          ⟨fun j parser n progressed hreading => ?_, fun m hm => by cases hm⟩, ?_⟩
        · by_cases hji : j = i
          · subst hji
            have hl' : some (Conn.mk [.comment " connected".toList] 0 false) = some l :=
              (Function.update_self j _ s.conns).symm.trans hl
            obtain rfl := Option.some.inj hl'
            refine ⟨_, Function.update_self _ _ _, rfl, Nat.zero_le _, fun text htext => ?_⟩
            cases List.mem_singleton.mp htext
            exact printable_connected
          · have hl' : s.conns j = some l := (Function.update_of_ne hji _ _).symm.trans hl
            obtain ⟨r, hr, hok⟩ := hs.conns j l hl'
            exact ⟨r, (Function.update_of_ne hji _ _).trans hr, hok⟩
        · -- nothing of the response is read yet
          cases hreading
          have hevents :
              ∀ items : List Item, Conn.events P X ⟨items, 0, false⟩ s.client.lastId 0 = [] := by
            intro items
            cases items with
            | nil => rfl
            | cons item items =>
              have hpos := (Item.block X item).text_pos
              have hwhole : Sse.whole ((item :: items).map (Item.block X)) 0 = [] := by
                rw [List.map_cons, Sse.whole, if_neg (by omega)]
              rw [Conn.events]
              simp only [hwhole]
              rfl
          refine ⟨_, _, s.client.delivered, Function.update_self _ _ _, Function.update_self _ _ _,
            ⟨rfl, ?_, Nat.zero_le _, hseen rfl, hs.got, ?_, ?_⟩⟩
          · have hstart : ∀ bs : List Sse.Block, Sse.whole bs 0 = [] := by
              intro bs
              cases bs with
              | nil => rfl
              | cons b bs =>
                have hpos := b.text_pos
                rw [Sse.whole, if_neg (by omega)]
            refine ⟨?_, ?_, Sse.start_ready _, rfl, rfl⟩
            · rw [hstart]
              rfl
            · rw [hstart]
              rfl
          · rw [hevents]
            exact (List.append_nil _).symm
          · rw [hevents]
            rfl
        · exact (terminalOk_iff Phase.noConfusion).mpr ((terminalOk_iff hopen).mp hs.terminal)
  · cases h

/-! ### The page reads -/

/-- The page never stops inside a character. -/
theorem Delivery.Ok.done (hs : s.Ok P X (X.tools textSize)) {healthy : Bool}
    (h : s.step P X textSize outage (.done healthy) = some s') : s'.Ok P X (X.tools textSize) := by
  simp only [Delivery.step] at h
  split at h
  · rename_i i parser n progressed hphase
    split at h
    · rename_i k hk
      split at h
      · obtain ⟨l, r, before, -, -, hat⟩ := hs.phase.reading i parser n progressed hphase
        have hflush : Sse.flush (.ok parser) = none := by
          rw [Sse.flush, if_pos hat.reached.between]
        rw [hflush] at h
        obtain rfl := Option.some.inj h
        have hopen : s.client.phase ≠ .complete := by
          rw [hphase]
          exact Phase.noConfusion
        exact hs.retry hopen progressed healthy
      · cases h
    · cases h
  · cases h

section Reads

variable (hP : P.ReadsRun X textSize s.client.run)

include hP

/-- **A chunk** hands over the events that end in it. -/
theorem Delivery.Ok.receive (hs : s.Ok P X (X.tools textSize)) {count : ℕ}
    (h : s.step P X textSize outage (.receive count) = some s') : s'.Ok P X (X.tools textSize) := by
  simp only [Delivery.step] at h
  split at h
  · rename_i i parser n progressed hphase
    split at h
    · rename_i k hk
      split at h
      · cases h
      · rename_i hchunk
        obtain rfl := Option.some.inj h
        obtain ⟨l, r, before, hl, hr, hat⟩ := hs.phase.reading i parser n progressed hphase
        obtain rfl := Option.some.inj (hk.symm.trans hl)
        obtain ⟨r₀, hr₀, hok⟩ := hs.conns i k hk
        obtain rfl := Option.some.inj (hr.symm.trans hr₀)
        have hreader := hs.stream.reader i r hr
        have hsound := sound_blocks hP hreader hat.run hok
        have hopen : s.client.phase ≠ .complete := by
          rw [hphase]
          exact Phase.noConfusion
        have hterminal := (terminalOk_iff hopen).mp hs.terminal
        -- the length of the chunk
        obtain ⟨m, hm⟩ : ∃ m, m = (((bytesOf X k.items).drop n).take count).length := ⟨_, rfl⟩
        have hlen : (bytesOf X k.items).length = (k.text X).length :=
          Sse.length_encode (Sse.ascii_textOf hsound)
        have hmle : n + m ≤ (k.text X).length := by
          rw [List.length_take, List.length_drop, hlen] at hm
          have := hat.le
          omega
        have hchunkEq :
            ((bytesOf X k.items).drop n).take count = ((bytesOf X k.items).drop n).take m := by
          rw [hm, List.length_take, ← List.take_eq_take_min]
        obtain ⟨es, parser', hpieces, hreached, hevents⟩ := hat.reached.chunk hsound m
        have hpieces' : Sse.pieces P.contracts s.client.run parser
            (PieceReader.slices Sse.pieceBytes (((bytesOf X k.items).drop n).take count))
            = (es, .ok parser') := by
          rw [hchunkEq]
          exact hpieces
        have hnext : k.events P X r.start (n + m) = k.events P X r.start n ++ es := hevents
        have hgot : ∀ js, js <+: k.events P X r.start (n + m) →
            Got P X (X.tools textSize) s.stream.log s.client.run s.client.start
              (lastOf P r.start js) (before ++ js) :=
          fun js hjs => got_prefix hP hreader hat.run hs.stream.sound hok hat.first hat.seen hjs
        have hlast : ∀ js,
            lastOf P s.client.lastId js = lastOf P r.start (k.events P X r.start n ++ js) := by
          intro js
          rw [lastOf_append, ← hat.lastId]
        rcases consume_eq s.client es with ⟨hfalse, hall, heq⟩ | ⟨htrue, js, e,
          hinit, hall, he, heq⟩
        · -- no terminal event: the page reads on
          have hclient :
              s.client.receive P i parser n progressed (((bytesOf X k.items).drop n).take count)
              = { s.client with
                    lastId := lastOf P s.client.lastId es
                    delivered := s.client.delivered ++ es
                    phase := .reading i parser' (n + m) (progressed || !es.isEmpty) } := by
            have hpair : s.client.consume P es = (_, false) := Prod.ext heq hfalse
            simp only [Client.receive, hpieces', hpair, Bool.false_eq_true, if_false, ← hm]
          rw [hclient]
          refine ⟨hs.stream, hs.conns, ?_,
            ⟨fun j p q pr hreading => ?_, fun m => Phase.noConfusion⟩, ?_⟩
          · have hall := hgot _ List.prefix_rfl
            rw [hnext, ← hlast, ← List.append_assoc, ← hat.delivered] at hall
            exact hall
          · obtain ⟨rfl, rfl, rfl, -⟩ := Phase.reading.inj hreading
            refine ⟨k, r, before, hk, hr, ⟨hat.run, hreached, hmle, hat.seen, hat.first, ?_, ?_⟩⟩
            · rw [hnext, ← List.append_assoc, ← hat.delivered]
            · rw [hnext, ← hlast]
          · refine (terminalOk_iff Phase.noConfusion).mpr fun x hx => ?_
            rcases List.mem_append.mp hx with hx | hx
            · exact hterminal x hx
            · exact hall x hx
        · -- the page returns at the terminal event
          have hclient :
              s.client.receive P i parser n progressed (((bytesOf X k.items).drop n).take count)
              = { s.client with
                    lastId := lastOf P s.client.lastId (js ++ [e])
                    delivered := s.client.delivered ++ (js ++ [e])
                    phase := .complete } := by
            have hpair : s.client.consume P es = (_, true) := Prod.ext heq htrue
            simp only [Client.receive, hpieces', hpair, if_true]
          rw [hclient]
          refine ⟨hs.stream, hs.conns, ?_,
            ⟨fun j p q pr => Phase.noConfusion, fun m => Phase.noConfusion⟩, ?_⟩
          · have hpre : k.events P X r.start n ++ (js ++ [e]) <+: k.events P X r.start (n + m) := by
              rw [hnext]
              exact (List.prefix_append_right_inj _).mpr hinit
            have hall := hgot _ hpre
            rw [← hlast, ← List.append_assoc, ← hat.delivered] at hall
            exact hall
          · refine ⟨s.client.delivered ++ js, e, (List.append_assoc _ _ _).symm, he, fun x hx => ?_⟩
            rcases List.mem_append.mp hx with hx | hx
            · exact hterminal x hx
            · exact hall x hx
    · cases h
  · cases h

/-- **One step keeps the invariant.** -/
theorem Delivery.Ok.step (hs : s.Ok P X (X.tools textSize)) {a : DeliveryAct}
    (h : s.step P X textSize outage a = some s') : s'.Ok P X (X.tools textSize) := by
  cases a with
  | database a => exact hs.database h
  | connect i => exact hs.connect h
  | emit i => exact hs.emit hP h
  | beat i => exact hs.beat hP h
  | poll i => exact hs.poll hP h
  | close i =>
    simp only [Delivery.step] at h
    split at h
    · rename_i k hk
      obtain rfl := Option.some.inj h
      exact hs.endConn hP hk
    · cases h
  | receive count => exact hs.receive hP h
  | done healthy => exact hs.done h
  | lost healthy => exact hs.lost h
  | refused response healthy => exact hs.refused h
  | abort => exact hs.abort h

end Reads

/-! ### Runs -/

/-- Receiving changes neither the run nor the start of a page. -/
theorem receive_run (c : Client J) (i : ℕ) (parser : Sse.State) (n : ℕ) (progressed : Bool)
    (chunk : List UInt8) :
    (c.receive P i parser n progressed chunk).run = c.run
      ∧ (c.receive P i parser n progressed chunk).start = c.start := by
  have hconsume : ∀ es, (c.consume P es).1.run = c.run ∧ (c.consume P es).1.start = c.start := by
    intro es
    rcases consume_eq c es with ⟨-, -, heq⟩ | ⟨-, js, e, -, -, -, heq⟩
    · rw [heq]
      exact ⟨rfl, rfl⟩
    · rw [heq]
      exact ⟨rfl, rfl⟩
  have hes :=
    hconsume (Sse.pieces P.contracts c.run parser (PieceReader.slices Sse.pieceBytes chunk)).1
  simp only [Client.receive]
  split
  · exact hes
  · split
    · exact hes
    · exact hes

/-- A page follows one run, from one id. -/
theorem step_run {a : DeliveryAct} (h : s.step P X textSize outage a = some s') :
    s'.client.run = s.client.run ∧ s'.client.start = s.client.start := by
  have hretry : ∀ progressed healthy, (s.client.retry progressed healthy).run = s.client.run
      ∧ (s.client.retry progressed healthy).start = s.client.start := by
    intro progressed healthy
    obtain ⟨attempt, phase, heq, -⟩ := retry_eq s.client progressed healthy
    rw [heq]
    exact ⟨rfl, rfl⟩
  cases a with
  | database a =>
    simp only [Delivery.step] at h
    split at h
    · cases h
    · obtain ⟨stream, -, rfl⟩ := Option.map_eq_some_iff.mp h
      exact ⟨rfl, rfl⟩
  | receive count =>
    simp only [Delivery.step] at h
    split at h
    · split at h
      · split at h
        · cases h
        · obtain rfl := Option.some.inj h
          exact receive_run s.client _ _ _ _ _
      · cases h
    · cases h
  | _ =>
    simp only [Delivery.step] at h
    repeat' split at h
    -- a step that is not taken, one that keeps the page's run, or the end of an attempt
    all_goals first
      | exact absurd h (Option.some_ne_none _).symm
      | exact Option.some.inj h ▸ ⟨rfl, rfl⟩
      | exact Option.some.inj h ▸ hretry _ _

end Steps

/-- An id that was seen is known. -/
theorem fetch_ne_unknown {run : String} {after : ℕ} (h : d.Seen run after) :
    T.fetch d run after true ≠ .error (.notFound "Extraction event not found.") := by
  have hknown :
      ¬ (true = true ∧ after ≠ 0 ∧ ¬ d.visible.any fun e => e.key == run && e.id == after) := by
    rintro ⟨-, hne, hnone⟩
    obtain ⟨e, he, hkey, hid⟩ := h.resolve_left hne
    apply hnone
    rw [List.any_eq_true]
    exact ⟨e, he, by rw [hkey, hid, beq_self_eq_true, beq_self_eq_true]; rfl⟩
  have hrow :
      ∀ row : EventRow, T.project row ≠ .error (.notFound "Extraction event not found.") := by
    intro row hrow
    simp only [EventTools.project, bind_eq_error_iff, raiseIf_eq_error_iff, pure_eq_ok,
      reduceCtorEq, and_false,
      or_false, exists_false] at hrow
  intro hfetch
  rw [EventTools.fetch] at hfetch
  rcases bind_eq_error_iff.mp hfetch with hrun | ⟨-, -, hfetch⟩
  · obtain ⟨-, hmessage⟩ := raiseIf_eq_error_iff.mp hrun
    exact absurd (FetchError.notFound.inj hmessage) (by decide)
  · rcases bind_eq_error_iff.mp hfetch with hresume | ⟨-, -, hfetch⟩
    · exact hknown (raiseIf_eq_error_iff.mp hresume).1
    · rcases bind_eq_error_iff.mp hfetch with hsize | ⟨-, -, hfetch⟩
      · exact FetchError.noConfusion (raiseIf_eq_error_iff.mp hsize).2
      · obtain ⟨row, -, herror⟩ := mapM_eq_error hfetch
        exact hrow row herror

/-- A reader has got everything up to its cursor. -/
theorem lastSeen_delivered (hd : Sound d) (hr : r.Ok T d) :
    lastSeen r.start r.delivered = r.cursor := by
  have hcomplete : (d.between r.run r.start r.cursor).mapM T.project = .ok r.delivered :=
    hr.complete
  have hle := hr.start_le
  rw [lastSeen_eq r.start hcomplete]
  -- the event at the cursor
  have hcursor : r.start < r.cursor → ∃ e ∈ d.between r.run r.start r.cursor, e.id = r.cursor := by
    intro hlt
    rcases hr.seen with hzero | ⟨e, he, hkey, hid⟩
    · omega
    · refine ⟨e, ?_, hid⟩
      simp only [Log.between, List.mem_filter, decide_eq_true_eq]
      exact ⟨he, hkey, by omega, by omega⟩
  cases hlast : (d.between r.run r.start r.cursor).getLast? with
  | none =>
    rw [List.getLast?_eq_none_iff] at hlast
    have hnot : ¬ r.start < r.cursor := by
      intro hlt
      obtain ⟨e, he, -⟩ := hcursor hlt
      rw [hlast] at he
      exact absurd he List.not_mem_nil
    rw [hlast]
    show r.start = r.cursor
    omega
  | some e =>
    have he : e ∈ d.between r.run r.start r.cursor := List.mem_of_getLast? hlast
    obtain ⟨init, hinit⟩ := List.getLast?_eq_some_iff.mp hlast
    have hbounds := he
    simp only [Log.between, List.mem_filter, decide_eq_true_eq] at hbounds
    obtain ⟨e', he', hid⟩ := hcursor (by omega)
    have hlater : e'.id ≤ e.id := by
      have hordered : (d.between r.run r.start r.cursor).Pairwise fun a b => a.id < b.id :=
        hd.between_ordered
      rw [hinit] at hordered he'
      rcases List.mem_append.mp he' with hmem | hmem
      · exact (List.pairwise_append.mp hordered).2.2 e' hmem e List.mem_cons_self |>.le
      · rw [List.mem_singleton.mp hmem]
    rw [lastId, hlast]
    show e.id = r.cursor
    omega

/-- A page that received all that was sent of all the fetches stands at the reader's cursor. -/
theorem Delivery.Ok.caughtUp {textSize : Doc → ℕ} {s : Delivery J}
    (hP : P.ReadsRun X textSize s.client.run)
    (hs : s.Ok P X (X.tools textSize)) {i n : ℕ} {parser : Sse.State} {progressed : Bool}
    (hphase : s.client.phase = .reading i parser n progressed) (hk : s.conns i = some k)
    (hr : s.stream.readers i = some r) (hall : n = (bytesOf X k.items).length)
    (hsent : k.sent = r.delivered.length) :
    s.client.lastId = r.cursor := by
  obtain ⟨l, r', before, hl, hr', hat⟩ := hs.phase.reading i parser n progressed hphase
  obtain rfl := Option.some.inj (hk.symm.trans hl)
  obtain rfl := Option.some.inj (hr.symm.trans hr')
  obtain ⟨r₀, hr₀, hok⟩ := hs.conns i k hk
  obtain rfl := Option.some.inj (hr.symm.trans hr₀)
  have hreader := hs.stream.reader i r hr
  have hsound := sound_blocks hP hreader hat.run hok
  have hlen : n = (Sse.textOf (k.items.map (Item.block X))).length := by
    rw [hall, bytesOf, Sse.length_encode (Sse.ascii_textOf hsound)]
  have hframes : framesOf k.items = r.delivered := by
    rw [hok.frames, hsent, List.take_length]
  have hcomplete : Shows (X.tools textSize) s.stream.log r.run r.start r.cursor r.delivered :=
    hreader.complete
  obtain ⟨hinc, hlo⟩ := hcomplete.ids hs.stream.sound
  have hreads : ∀ f ∈ framesOf k.items, ∃ j, P.Reads X f j := by
    intro f hf
    rw [hframes] at hf
    obtain ⟨row, j, -, -, hj⟩ := reads_delivered hP hreader hat.run f hf
    exact ⟨j, hj⟩
  have habove : ∀ f ∈ framesOf k.items, r.start < f.id := by
    intro f hf
    rw [hframes] at hf
    exact (hlo f hf).1
  have hread := (reading_items r.start hreads (hframes ▸ hinc) habove).1
  rw [hframes] at hread
  have hevents :
      k.events P X r.start n
        = (Sse.reading P.contracts r.start (k.items.map (Item.block X))).1 := by
    rw [Conn.events, hlen, Sse.whole_all]
  rw [hat.lastId, hevents, lastOf_eq hread, lastSeen_delivered hs.stream.sound hreader]

/-- The invariant holds before the first request. -/
theorem ok_init (run : String) (start : ℕ) : (Delivery.init run start : Delivery J).Ok P X T := by
  have hphase : ∀ phase : Phase, (Delivery.init run start : Delivery J).client.phase = phase →
      phase = .between ∨ phase = .failed (.response "Invalid run ID") := by
    intro phase h
    rw [← h, Delivery.init]
    split_ifs
    · exact .inl rfl
    · exact .inr rfl
  have hopen : (Delivery.init run start : Delivery J).client.phase ≠ .complete := by
    intro h
    rcases hphase _ h with h | h
    · cases h
    · cases h
  refine ⟨⟨sound_init, fun i r hr => by cases hr⟩, fun i k hk => (by cases hk),
    ⟨⟨[], rfl, .nil⟩, le_rfl, .inl rfl⟩,
    ⟨fun i parser n progressed h => ?_, fun message h => ?_⟩,
    (terminalOk_iff hopen).mpr fun x hx => by cases hx⟩
  · rcases hphase _ h with h | h
    · cases h
    · cases h
  · rcases hphase _ h with h | h
    · cases h
    · cases h

/-- **Every state of a run has the invariant.** -/
theorem ok_run {textSize : Doc → ℕ} {outage : List Char → Option Bool} {run : String} {start : ℕ}
    (hP : P.ReadsRun X textSize run) {as : List DeliveryAct} {s : Delivery J}
    (h : Transitions.run (Delivery.step P X textSize outage) (Delivery.init run start) as
      = some s) :
    s.Ok P X (X.tools textSize) ∧ s.client.run = run ∧ s.client.start = start := by
  have hstep : ∀ (s : Delivery J) a s',
      (s.Ok P X (X.tools textSize) ∧ s.client.run = run ∧ s.client.start = start) →
      s.step P X textSize outage a = some s' →
      s'.Ok P X (X.tools textSize) ∧ s'.client.run = run ∧ s'.client.start = start := by
    rintro s a s' ⟨hok, hrun, hstart⟩ hstep
    obtain ⟨hrun', hstart'⟩ := step_run hstep
    have hreads : P.ReadsRun X textSize s.client.run := hrun.symm ▸ hP
    exact ⟨hok.step hreads hstep, hrun'.trans hrun, hstart'.trans hstart⟩
  exact run_invariant
    (P := fun s : Delivery J => s.Ok P X (X.tools textSize) ∧ s.client.run = run ∧
    s.client.start = start)
    hstep ⟨ok_init run start, rfl, rfl⟩ h

/-- **The events of a run are delivered once and in order.**  Whatever the writers, the responses
and the network do, in every reachable state the page has got exactly the visible events of the run
between the id it began with and the last one it saw, as they are shown; it has never refused what
the server sent; it is complete at a terminal event and only there; a page that received all that
was sent stands at the cursor of the response; and the id with which it opens the stream again is
never unknown to the server. -/
theorem events_delivered {textSize : Doc → ℕ} {outage : List Char → Option Bool}
    {run : String} {start : ℕ}
    (hP : P.ReadsRun X textSize run) {as : List DeliveryAct} {s : Delivery J}
    (h : Transitions.run (Delivery.step P X textSize outage) (Delivery.init run start) as
      = some s) :
    (∃ frames, (s.stream.log.between run start s.client.lastId).mapM (X.tools textSize).project
      = .ok frames
      ∧ List.Forall₂ (P.Reads X) frames s.client.delivered
      ∧ (frames.map Frame.id).Pairwise (· < ·))
    ∧ (∀ message, s.client.phase ≠ .failed (.stream message))
    ∧ TerminalOk P s.client
    ∧ (∀ i parser n progressed k r, s.client.phase = .reading i parser n progressed →
      s.conns i = some k →
        s.stream.readers i = some r → n = (bytesOf X k.items).length → k.sent = r.delivered.length →
        s.client.lastId = r.cursor)
    ∧ (start = 0 ∨ s.client.lastId ≠ start →
      (X.tools textSize).fetch s.stream.log run s.client.lastId true
        ≠ .error (.notFound "Extraction event not found.")) := by
  obtain ⟨hs, hrun, hstart⟩ := ok_run hP h
  obtain ⟨frames, hshows, hall⟩ := hs.got.frames
  rw [hrun, hstart] at hshows
  refine ⟨⟨frames, hshows, hall, (hshows.ids hs.stream.sound).1⟩, hs.phase.stream,
    hs.terminal, ?_, ?_⟩
  · intro i parser n progressed k r hphase hk hr hn hsent
    exact hs.caughtUp (hrun.symm ▸ hP) hphase hk hr hn hsent
  · intro hknown
    have hseen : s.stream.log.Seen run s.client.lastId := by
      have hgot := hs.got.seen
      rw [hrun, hstart] at hgot
      rcases hknown with hzero | hne
      · rcases hgot with hgot | hgot
        · exact .inl (hgot.trans hzero)
        · exact hgot
      · exact hgot.resolve_left hne
    exact fetch_ne_unknown hseen

end Invariant

/-! ## A page that follows a run -/

def followedRun : String := "00000000-0000-4000-8000-000000000001"

theorem uuid_followedRun : Sse.uuid followedRun = true := by decide

/-- Every event occurred at one time, and nothing is too large. -/
def oneTime : EventText := ⟨fun _ => none, fun _ => "2026-01-02T03:04:05+00:00"⟩

def oneTimePage : Page PyJson := eventPage fun time => time == "2026-01-02T03:04:05+00:00"

def followedStep : Delivery PyJson → DeliveryAct → Option (Delivery PyJson) :=
  Delivery.step oneTimePage oneTime (fun _ => 0) (fun _ => none)

/-- The canonical text is the text of the sorted document. -/
theorem toList_canonicalJson (d : Doc) : (canonicalJson d).toList = d.sorted.dump :=
  String.toList_ofList

/-- A frame is its id, its type and the canonical text of its event. -/
theorem frame_eq_dump (X : EventText) (f : Frame) :
    X.frame f = "id: ".toList ++ ((toString f.id).toList
    ++
    ("\nevent: ".toList
      ++ (f.type.name.toList
        ++ ("\ndata: ".toList ++ ((X.eventDoc f).sorted.dump ++ "\n\n".toList))))) := by
  rw [EventText.frame, toList_canonicalJson]

/-- What the page sees of the event that begins a run. -/
def queuedEvent : Frame := ⟨1, followedRun, .runQueued, .obj []⟩

theorem size_queuedEvent : Sse.encodedLength (oneTime.frame queuedEvent) ≤ 65536 := by
  rw [frame_eq_dump]
  decide +kernel

theorem project_queuedEvent : (oneTime.tools fun _ => 0).project
    ⟨1, followedRun, (.runQueued, .obj [("modes", .null)])⟩ = .ok queuedEvent := by
  have hsafe : (oneTime.tools fun _ => 0).safe (.obj [("modes", .null)]) = .obj [] := rfl
  have hsize : ¬ (oneTime.tools fun _ => 0).frameSize queuedEvent > 65536 :=
    not_lt.mpr size_queuedEvent
  simp only [EventTools.project, Except.raiseIf_eq_ok_iff, Except.bind_eq_ok_iff, Except.pure_eq_ok,
    Except.ok.injEq, hsafe]
  refine ⟨(), ?_, (), ?_, (), hsize, rfl⟩
  · decide
  · decide

theorem fetch_queuedEvent {d : LockedLog.Log String (EventType × Doc)}
    (hkeys : followedRun ∈ d.keys)
    (hpage : d.page followedRun 0 200 = [⟨1, followedRun, (.runQueued, .obj [("modes", .null)])⟩]) :
    (oneTime.tools fun _ => 0).fetch d followedRun 0 true = .ok [queuedEvent] := by
  simp only [EventTools.fetch, Except.raiseIf_eq_ok_iff, Except.bind_eq_ok_iff, hpage]
  refine ⟨(), not_not.mpr hkeys, (), by simp, (), ?_, ?_⟩
  · simp [EventText.tools]
  · rw [List.mapM_cons, project_queuedEvent]
    rfl

/-- The run is queued. -/
def queuedActs : List DeliveryAct :=
  [.database (.start 0 (.create followedRun .null)), .database (.exec 0), .database (.exec 0),
    .database (.exec 0),
    .database (.exec 0), .database (.commit 0)]

/-- The first transaction of the run appends its first event. -/
theorem run_queuedActs :
    ∃ s, Transitions.run followedStep (Delivery.init followedRun 0) queuedActs = some s
    ∧ s.client = ⟨followedRun, 0, 0, 0, [], .between⟩ ∧ s.conns = (fun _ => none)
    ∧ s.stream.readers = (fun _ => none)
    ∧ s.stream.log.keys = [followedRun]
    ∧ s.stream.log.page followedRun 0 200
    = [⟨1, followedRun, (.runQueued, .obj [("modes", .null)])⟩] := by
  refine ⟨_, rfl, ?_, rfl, rfl, rfl, ?_⟩
  · show Client.mk _ _ _ _ _ (if Sse.uuid followedRun then _ else _) = _
    rw [if_pos uuid_followedRun]
  · rfl

/-- What the response to the page yields. -/
def queuedItems : List Item := [.comment " connected".toList, .event queuedEvent]

def queuedBytes : List UInt8 :=
  Sse.encode (Sse.textOf [.comment " connected".toList, .frame 1 "run_queued".toList
    (oneTime.eventDoc queuedEvent).sorted.dump])

theorem bytesOf_queuedItems : bytesOf oneTime queuedItems = queuedBytes := by
  show Sse.encode (Sse.textOf [_, .frame _ _ (canonicalJson (oneTime.eventDoc queuedEvent)).toList])
    = queuedBytes
  rw [toList_canonicalJson]
  rfl

/-- The page has opened the stream. -/
def openClient : Client PyJson := ⟨followedRun, 0, 0, 0, [], .reading 0 (Sse.start 0) 0 false⟩

def servedClient : Client PyJson :=
  openClient.receive oneTimePage 0 (Sse.start 0) 0 false (queuedBytes.take 1000)

theorem delivered_servedClient : servedClient.delivered.map oneTimePage.contracts.id = [1] := by
    decide +kernel

/-- The run is queued, and the page opens the stream and gets its event. -/
def followedActs : List DeliveryAct := queuedActs ++ [.connect 0, .emit 0, .receive 1000]

/-- The page of the run receives its first event. -/
theorem run_followedActs :
    ∃ s, Transitions.run followedStep (Delivery.init followedRun 0) followedActs = some s
    ∧ s.client.delivered.map oneTimePage.contracts.id = [1] := by
  obtain ⟨⟨stream, conns, client⟩, hs, rfl, rfl, hreaders, hkeys, hpage⟩ := run_queuedActs
  have hfetch :
      (oneTime.tools fun _ => 0).fetch stream.log followedRun 0 true = .ok [queuedEvent] :=
    fetch_queuedEvent (hkeys ▸ List.mem_singleton_self _) hpage
  have hnone : stream.readers 0 = none := congrFun hreaders 0
  have hmore : queuedBytes.take 1000 ≠ [] := by decide
  -- the state after each step of the page
  have hconnect :
      followedStep ⟨stream, fun _ => none, ⟨followedRun, 0, 0, 0, [], .between⟩⟩ (.connect 0)
      = some ⟨stream.setReader 0 ⟨followedRun, 0, 1, [queuedEvent]⟩,
        Function.update (fun _ => none) 0 (some ⟨[.comment " connected".toList], 0, false⟩),
        openClient⟩ := by
    simp only [followedStep, Delivery.step, hnone, hfetch]
    rfl
  let conns :=
    Function.update
      (Function.update (fun _ => none) 0 (some ⟨[.comment " connected".toList], 0, false⟩)) 0
    (some (⟨queuedItems, 1, false⟩ : Conn))
  have hreceive : followedStep ⟨stream.setReader 0 ⟨followedRun, 0, 1, [queuedEvent]⟩, conns,
      openClient⟩ (.receive 1000)
      = some ⟨stream.setReader 0 ⟨followedRun, 0, 1, [queuedEvent]⟩, conns, servedClient⟩ := by
    have hconn : conns 0 = some ⟨queuedItems, 1, false⟩ := Function.update_self _ _ _
    simp only [followedStep, Delivery.step, openClient, hconn, bytesOf_queuedItems,
      List.drop_zero, if_neg hmore]
    rfl
  have hpage :
      Transitions.run followedStep ⟨stream, fun _ => none, ⟨followedRun, 0, 0, 0, [], .between⟩⟩
      [.connect 0, .emit 0, .receive 1000]
      = some ⟨stream.setReader 0 ⟨followedRun, 0, 1, [queuedEvent]⟩, conns, servedClient⟩ :=
    Transitions.run_cons_eq_some_iff.mpr ⟨_, hconnect, Transitions.run_cons_eq_some_iff.mpr ⟨_, rfl,
      Transitions.run_cons_eq_some_iff.mpr ⟨_, hreceive, rfl⟩⟩⟩
  exact ⟨_, Transitions.run_append_eq_some_iff.mpr ⟨_, hs, hpage⟩, delivered_servedClient⟩

theorem events_delivered_followedActs : ∃ s,
    Transitions.run followedStep (Delivery.init followedRun 0) followedActs = some s
      ∧ s.client.delivered.map oneTimePage.contracts.id = [1]
      ∧ ∃ frames, (s.stream.log.between followedRun 0 s.client.lastId).mapM
      (oneTime.tools fun _ => 0).project = .ok frames
        ∧ List.Forall₂ (oneTimePage.Reads oneTime) frames s.client.delivered
        ∧ (frames.map Frame.id).Pairwise (· < ·) := by
  obtain ⟨s, hs, hids⟩ := run_followedActs
  have hreads : oneTimePage.ReadsRun oneTime (fun _ => 0) followedRun :=
    reads_eventPage (fun _ => beq_self_eq_true _) uuid_followedRun
  exact ⟨s, hs, hids, (events_delivered hreads hs).1⟩

end EventDelivery
