/-
# The walk over a snapshot

What the builder writes, round by round: `Walk` says which tokens a stretch of the text gives, and
which observations stand where in it.  Every function of the builder has its walk, up to
`walk_document`.
-/
import EvidenceLab.CompanyFacts

namespace CompanyFacts

open Filing (Section SourceSpan rootHeading spanName sectionName slice)
open Ingestion (DeriveError Tools)
open JsonReader (Token Lexes LexesValue EndsNumber isBlank strToken tokens tokensItems
  tokensMembers writeStr write)
open PyJson (byKey member)
open Xbrl (CompanyFactsObservation)

/-! ## Separators and punctuation -/

/-- The tokens of a text of blanks and punctuation. -/
def marks : List Char → Option (List Token)
  | [] => some []
  | c :: cs =>
    if isBlank c then marks cs
    else if c = '{' then (marks cs).map (.openObj :: ·)
    else if c = '}' then (marks cs).map (.closeObj :: ·)
    else if c = '[' then (marks cs).map (.openArr :: ·)
    else if c = ']' then (marks cs).map (.closeArr :: ·)
    else if c = ',' then (marks cs).map (.comma :: ·)
    else if c = ':' then (marks cs).map (.colon :: ·)
    else none

theorem lexes_marks : ∀ {piece : List Char} {toks : List Token}, marks piece = some toks →
    Lexes piece toks
  | [], toks, h => by
      obtain rfl := Option.some.inj h
      exact JsonReader.lexes_nil
  | c :: cs, toks, h => by
      rw [marks] at h
      split_ifs at h with hblank h1 h2 h3 h4 h5 h6
      · exact (JsonReader.lexes_blank hblank).append (lexes_marks h)
      all_goals
        subst c
        obtain ⟨rest, hrest, rfl⟩ := Option.map_eq_some_iff.mp h
      · exact JsonReader.lexes_openObj.append (lexes_marks hrest)
      · exact JsonReader.lexes_closeObj.append (lexes_marks hrest)
      · exact JsonReader.lexes_openArr.append (lexes_marks hrest)
      · exact JsonReader.lexes_closeArr.append (lexes_marks hrest)
      · exact JsonReader.lexes_comma.append (lexes_marks hrest)
      · exact JsonReader.lexes_colon.append (lexes_marks hrest)

/-- The end of a line, and its tokens. -/
inductive LineEnd : List Char → List Token → Prop
  | comma : LineEnd [',', '\n'] [.comma]
  | last : LineEnd ['\n'] []

theorem LineEnd.lexes {sep : List Char} {toks : List Token} (h : LineEnd sep toks) :
    Lexes sep toks := by
  cases h with
  | comma => exact lexes_marks (by decide)
  | last => exact lexes_marks (by decide)

theorem LineEnd.ends {sep : List Char} {toks : List Token} (h : LineEnd sep toks)
    (rest : List Char) :
    EndsNumber (sep ++ rest) := by
  cases h with
  | comma => exact JsonReader.endsNumber_cons (by decide) _
  | last => exact JsonReader.endsNumber_cons (by decide) _

/-- The tokens of some elements with commas between them. -/
def joined {α : Type} (toks : α → List Token) : List α → List Token
  | [] => []
  | [x] => toks x
  | x :: y :: rest => toks x ++ .comma :: joined toks (y :: rest)

/-- The tokens of a member. -/
def memberTokens (m : PyStr × PyJson) : List Token :=
  strToken m.1 :: .colon :: tokens lineStyle m.2.sortKeys

/-- The tokens of an array stand between commas. -/
theorem tokensItems_eq {α : Type} (f : α → PyJson) (l : List α) :
    tokensItems lineStyle (l.map f) = joined (fun x => tokens lineStyle (f x)) l := by
  induction l with
  | nil => rfl
  | cons x l ih =>
      cases l with
      | nil => rfl
      | cons y l =>
          rw [List.map_cons] at ih
          rw [List.map_cons, List.map_cons, tokensItems, ih, joined]

/-- The tokens of an object stand between commas, by key. -/
theorem tokensMembers_eq (ms : List (PyStr × PyJson)) :
    tokensMembers lineStyle (ms.map fun m => (m.1, m.2.sortKeys)) = joined memberTokens ms := by
  induction ms with
  | nil => rfl
  | cons m ms ih =>
      cases ms with
      | nil => rfl
      | cons n ms =>
          rw [List.map_cons] at ih
          rw [List.map_cons, List.map_cons, tokensMembers, ih, joined, memberTokens]

theorem sortKeys_arr (items : List PyJson) :
    (PyJson.arr items).sortKeys = .arr (items.map PyJson.sortKeys) := by
  rw [PyJson.sortKeys, PyJson.sortItems_eq_map]

/-- Sorting orders the members and sorts their values. -/
theorem sortKeys_obj (members : List (PyStr × PyJson)) :
    (PyJson.obj members).sortKeys = .obj ((byKey members).map fun m => (m.1, m.2.sortKeys)) := by
  have hsort := List.map_insertionSort (fun a b : PyStr × PyJson => a.1.points ≤ b.1.points)
    (fun a b : PyStr × PyJson => a.1.points ≤ b.1.points) (fun m => (m.1, m.2.sortKeys)) members
    fun _ _ _ _ => Iff.rfl
  rw [PyJson.sortKeys, PyJson.sortMembers_eq_map, ← hsort]
  rfl

/-- The tokens of an array and of an object in the order of their lines. -/
theorem tokens_arr (items : List PyJson) : tokens lineStyle (PyJson.arr items).sortKeys
    = .openArr :: joined (fun v => tokens lineStyle v.sortKeys) items ++ [.closeArr] := by
  rw [sortKeys_arr, tokens, tokensItems_eq]

/-- The tokens of an object are those of its members in order. -/
theorem tokens_obj (members : List (PyStr × PyJson)) :
    tokens lineStyle (PyJson.obj members).sortKeys
    = .openObj :: joined memberTokens (byKey members) ++ [.closeObj] := by
  rw [sortKeys_obj, tokens, tokensMembers_eq]

/-! ## Entries -/

/-- An observation of a snapshot, with the names over it. -/
structure Entry where
  taxonomy : PyStr
  name : PyStr
  label : Option String
  unit : PyStr
  observation : List (PyStr × PyJson)

/-- The qualified name of the concept. -/
def Entry.qualified (e : Entry) : String := textOf e.taxonomy ++ ":" ++ textOf e.name

def membersOf : PyJson → List (PyStr × PyJson)
  | .obj members => members
  | _ => []

def itemsOf : PyJson → List PyJson
  | .arr items => items
  | _ => []

section Entries

variable (taxonomy name : PyStr) (label : Option String)

def observationEntries (unit : PyStr) : PyJson → List Entry
  | .obj observation => [⟨taxonomy, name, label, unit, observation⟩]
  | _ => []

def unitEntries (unit : PyStr × PyJson) : List Entry :=
  (itemsOf unit.2).flatMap (observationEntries taxonomy name label unit.1)

def memberEntries (m : PyStr × PyJson) : List Entry :=
  if m.1 = .text "units" then (byKey (membersOf m.2)).flatMap (unitEntries taxonomy name label)
    else []

end Entries

def conceptEntries (taxonomy : PyStr) (concept : PyStr × PyJson) : List Entry :=
  (byKey (membersOf concept.2)).flatMap
  (memberEntries taxonomy concept.1 (labelOf (membersOf concept.2)))

def taxonomyEntries (taxonomy : PyStr × PyJson) : List Entry :=
  (byKey (membersOf taxonomy.2)).flatMap (conceptEntries taxonomy.1)

def documentEntries (m : PyStr × PyJson) : List Entry :=
  if m.1 = .text "facts" then (byKey (membersOf m.2)).flatMap taxonomyEntries else []

/-- **The observations of a snapshot** in the order of the sorted keys. -/
def entries (payload : List (PyStr × PyJson)) : List Entry :=
  (byKey payload).flatMap documentEntries

/-! ## Citations -/

/-- An entry with its span, and what was recorded of it. -/
structure Citation where
  entry : Entry
  span : SourceSpan
  observation : Option CompanyFactsObservation

section Citations

variable (S : Tools) (py : Interpreter) (seed : String)

/-- The observation has what the entry says. -/
structure Observes (e : Entry) (span : SourceSpan) (o : CompanyFactsObservation) : Prop where
  value : (Dict.get? e.observation (.text "val")).bind magnitude = some o.value
  concept : o.concept = e.qualified
  label : o.label = e.label
  unit : o.unit = (textOf e.unit).toList
  periodEnd : ∃ s, member e.observation "end" = .str s ∧ Calendar.fromIsoFormat (textOf s).toList
    = some o.periodEnd
  periodStart : (member e.observation "start" = .null ∧ o.periodStart = none)
    ∨ ∃ s d, member e.observation "start" = .str s
      ∧ Calendar.fromIsoFormat (textOf s).toList = some d
      ∧ o.periodStart = some d
  dimensions : o.dimensions = dimensionsOf py e.observation
  spanId : o.spanId = span.id
  range : o.startChar = span.startChar ∧ o.endChar = span.endChar

/-- The entry stands in the text where its span says. -/
structure Citation.Ok (text : List Char) (c : Citation) : Prop where
  covered : c.span.text = renderJsonValue (.obj c.entry.observation)
  slice : slice text c.span.startChar c.span.endChar = c.span.text
  hash : c.span.textHash = textHash S c.span.text
  id : c.span.id = S.uuid5 (spanName seed c.span.startChar c.span.endChar)
  nonempty : c.span.startChar < c.span.endChar
  bound : c.span.endChar ≤ text.length
  skipped :
    c.observation = none → (Dict.get? c.entry.observation (.text "val")).bind magnitude = none
  observed : ∀ o ∈ c.observation, Observes py c.entry c.span o

/-- The section of an entry's concept. -/
structure Home (c : Citation) (s : Section) : Prop where
  id : s.id = c.span.sectionId
  path :
    s.headingPath = [rootHeading, (textOf c.entry.taxonomy).toList, (textOf c.entry.name).toList]
  start : s.startChar ≤ c.span.startChar
  stop : c.span.endChar ≤ s.endChar

/-- A stretch of the walk: its tokens, its entries, and where they stand.  While a concept is open,
the spans are in its section, which is written when it ends. -/
structure Walk (opened : Option String) (toks : List Token) (es : List Entry) (b b' : Builder) :
    Prop where
  written : ∃ piece, b'.text = b.text ++ piece ∧ Lexes piece toks
  located : b'.pos = b'.text.length
  cited : ∃ (cs : List Citation) (sections : List Section), cs.map Citation.entry = es
    ∧ b'.spans = b.spans ++ cs.map Citation.span
      ∧ b'.observations = b.observations ++ cs.filterMap Citation.observation
    ∧ b'.sections = b.sections ++ sections
    ∧ (∀ c ∈ cs, c.Ok S py seed b'.text ∧ b.pos ≤ c.span.startChar)
    ∧ cs.Pairwise (fun c d => c.span.endChar ≤ d.span.startChar)
    ∧ (∀ s ∈ sections, b.pos ≤ s.startChar ∧ s.startChar ≤ s.endChar ∧ s.endChar ≤ b'.pos
      ∧ s.id = S.uuid5 (sectionName seed s.order))
    ∧ sections.Pairwise (fun s u => s.endChar ≤ u.startChar)
    ∧ sections.map Section.order = List.range' (b.sections.length + 1) sections.length
    ∧ (opened.isSome = true → sections = [])
    ∧ ∀ c ∈ cs, opened = some c.span.sectionId ∨ ∃ s ∈ sections, Home c s

end Citations

section Walks

variable {S : Tools} {py : Interpreter} {seed : String} {opened : Option String}
    {toks toks' : List Token}
  {es es' : List Entry} {b b' b'' : Builder}

/-- A span stays where it is when the text goes on. -/
theorem Citation.Ok.grow {text more : List Char} {c : Citation} (h : c.Ok S py seed text) :
    c.Ok S py seed (text ++ more) where
  covered := h.covered
  slice := by
    have hslice := h.slice
    rw [Filing.slice] at hslice ⊢
    rwa [List.take_append_of_le_length h.bound]
  hash := h.hash
  id := h.id
  nonempty := h.nonempty
  bound := by
    rw [List.length_append]
    exact h.bound.trans (Nat.le_add_right _ _)
  skipped := h.skipped
  observed := h.observed

/-- A walk goes forward. -/
theorem Walk.pos_le (h : Walk S py seed opened toks es b b') (hb : b.pos = b.text.length) :
    b.pos ≤ b'.pos := by
  obtain ⟨piece, htext, -⟩ := h.written
  rw [hb, h.located, htext, List.length_append]
  exact Nat.le_add_right _ _

/-- **One stretch after the other.** -/
theorem Walk.append (hb : b.pos = b.text.length) (h : Walk S py seed opened toks es b b')
    (h' : Walk S py seed opened toks' es' b' b'') :
    Walk S py seed opened (toks ++ toks') (es ++ es') b b'' := by
  have hle := h.pos_le hb
  have hle' := h'.pos_le h.located
  obtain ⟨piece, htext, hlexes⟩ := h.written
  obtain ⟨piece', htext', hlexes'⟩ := h'.written
  obtain ⟨cs, sections, hes, hspans, hobs, hsections, hok, hpair, hsec, hsecPair, horder, hopen,
    hhome⟩ := h.cited
  obtain ⟨cs', sections', hes', hspans', hobs', hsections', hok', hpair', hsec', hsecPair', horder',
      hopen', hhome'⟩ :=
    h'.cited
  refine ⟨⟨piece ++ piece', by rw [htext', htext, List.append_assoc], hlexes.append hlexes'⟩,
    h'.located, cs ++ cs',
    sections ++ sections', ?_, ?_, ?_, ?_, ?_, ?_, ?_, ?_, ?_, ?_, ?_⟩
  · rw [List.map_append, hes, hes']
  · rw [hspans', hspans, List.map_append, List.append_assoc]
  · rw [hobs', hobs, List.filterMap_append, List.append_assoc]
  · rw [hsections', hsections, List.append_assoc]
  · intro c hc
    rcases List.mem_append.mp hc with hc | hc
    · rw [htext']
      exact ⟨(hok c hc).1.grow, (hok c hc).2⟩
    · exact ⟨(hok' c hc).1, hle.trans (hok' c hc).2⟩
  · refine List.pairwise_append.mpr ⟨hpair, hpair', fun c hc d hd => ?_⟩
    -- the first stretch ends where the second begins
    exact ((hok c hc).1.bound.trans h.located.ge).trans (hok' d hd).2
  · intro s hs
    rcases List.mem_append.mp hs with hs | hs
    · obtain ⟨hstart, hrange, hstop, hid⟩ := hsec s hs
      exact ⟨hstart, hrange, hstop.trans hle', hid⟩
    · obtain ⟨hstart, hrange, hstop, hid⟩ := hsec' s hs
      exact ⟨hle.trans hstart, hrange, hstop, hid⟩
  · exact List.pairwise_append.mpr ⟨hsecPair, hsecPair',
      fun s hs u hu => (hsec s hs).2.2.1.trans (hsec' u hu).1⟩
  · have hstart :
    (b.sections ++ sections).length + 1 = b.sections.length + 1 + sections.length := by
      rw [List.length_append]
      omega
    rw [List.map_append, horder, horder', hsections, hstart, List.length_append,
      List.range'_append_1]
  · intro hsome
    rw [hopen hsome, hopen' hsome, List.nil_append]
  · intro c hc
    rcases List.mem_append.mp hc with hc | hc
    · exact (hhome c hc).imp id fun ⟨s, hs, hhome⟩ => ⟨s, List.mem_append_left _ hs, hhome⟩
    · exact (hhome' c hc).imp id fun ⟨s, hs, hhome⟩ => ⟨s, List.mem_append_right _ hs, hhome⟩

/-- Emitting appends a piece. -/
theorem text_emit (b : Builder) (piece : List Char) : (b.emit piece).text = b.text ++ piece := by
  show (b.parts ++ [piece]).flatten = b.parts.flatten ++ piece
  rw [List.flatten_append, List.flatten_singleton]

/-- The position counts the characters. -/
theorem located_emit (hb : b.pos = b.text.length) (piece : List Char) :
    (b.emit piece).pos = (b.emit piece).text.length := by
  rw [text_emit, List.length_append, ← hb]
  rfl

/-- A stretch in which nothing is recorded. -/
theorem walk_text {piece : List Char} (htext : b'.text = b.text ++ piece)
    (hlocated : b'.pos = b'.text.length)
    (hspans : b'.spans = b.spans) (hobs : b'.observations = b.observations)
    (hsections : b'.sections = b.sections)
    (h : Lexes piece toks) : Walk S py seed opened toks [] b b' := by
  refine ⟨⟨piece, htext, h⟩, hlocated, [], [], rfl, ?_, ?_, ?_, ?_, List.Pairwise.nil, ?_,
    List.Pairwise.nil, rfl,
    fun _ => rfl, ?_⟩
  · rw [hspans]
    exact (List.append_nil _).symm
  · rw [hobs]
    exact (List.append_nil _).symm
  · rw [hsections]
    exact (List.append_nil _).symm
  · intro c hc
    cases hc
  · intro s hs
    cases hs
  · intro c hc
    cases hc

/-- A piece without observations is walked. -/
theorem walk_emit (hb : b.pos = b.text.length) {piece : List Char} (h : Lexes piece toks) :
    Walk S py seed opened toks [] b (b.emit piece) :=
  walk_text (text_emit b piece) (located_emit hb piece) rfl rfl rfl h

/-- A value and the end of its line. -/
theorem walk_value (hb : b.pos = b.text.length) (v : PyJson) {sep : List Char}
    (hsep : LineEnd sep toks) :
    Walk S py seed opened (tokens lineStyle v.sortKeys ++ toks) [] b
    ((b.emit (renderJsonValue v)).emit sep) := by
  have htext :
      ((b.emit (renderJsonValue v)).emit sep).text = b.text ++ (renderJsonValue v ++ sep) := by
    rw [text_emit, text_emit, List.append_assoc]
  refine walk_text htext (located_emit (located_emit hb _) _) rfl rfl rfl ?_
  exact (JsonReader.lexesValue_write lineStyle v.sortKeys).append hsep.lexes hsep.ends

/-- Nothing but its end is left of a line. -/
theorem walk_close (hb : b.pos = b.text.length) {piece sep : List Char} {t : Token}
    (h : marks piece = some [t])
    (hsep : LineEnd sep toks) : Walk S py seed opened (t :: toks) [] b ((b.emit piece).emit sep) :=
  (walk_emit hb (lexes_marks h)).append hb (walk_emit (located_emit hb _) hsep.lexes)

/-- **The loop over the lines.** -/
theorem walk_eachLine {α : Type} {round : Builder → List Char → α → Except DeriveError Builder}
    {f : α → List Token}
    {g : α → List Entry}
    (hround : ∀ x b sep toks b', b.pos = b.text.length → LineEnd sep toks → round b sep x = .ok b' →
      Walk S py seed opened (f x ++ toks) (g x) b b') :
    ∀ {l : List α} {b b' : Builder}, b.pos = b.text.length → eachLine round b l = .ok b' →
      Walk S py seed opened (joined f l) (l.flatMap g) b b'
  | [], b, b', hb, h => by
      obtain rfl := Except.ok.inj h
      exact walk_text (List.append_nil _).symm hb rfl rfl rfl JsonReader.lexes_nil
  | [x], b, b', hb, h => by
      have hwalk := hround x b _ _ b' hb .last h
      rw [List.append_nil] at hwalk
      rwa [joined, List.flatMap_singleton]
  | x :: y :: rest, b, b', hb, h => by
      obtain ⟨b₁, hx, hrest⟩ := Except.bind_eq_ok_iff.mp h
      have hwalk := hround x b _ _ b₁ hb .comma hx
      have htail := walk_eachLine hround hwalk.located hrest
      have hboth := hwalk.append hb htail
      rwa [List.append_assoc, List.singleton_append] at hboth

/-! ## Observations -/

/-- A date is accepted if its text is one. -/
theorem isoDate_eq_ok_iff {v : PyJson} {concept field : String} {d : Calendar.CivilDate} :
    isoDate S py v concept field = .ok d ↔ ∃ s, v = .str s ∧
    Calendar.fromIsoFormat (textOf s).toList = some d := by
  cases v with
  | str s => simp [isoDate]
  | _ => simp [isoDate]

/-- An optional date is null or a date. -/
theorem optionalDate_eq_ok {v : PyJson} {concept field : String} {r : Option Calendar.CivilDate}
    (h : optionalDate S py v concept field = .ok r) : (v = .null ∧ r = none)
      ∨ ∃ s d, v = .str s ∧ Calendar.fromIsoFormat (textOf s).toList = some d ∧ r = some d := by
  by_cases hv : v = .null
  · subst hv
    exact .inl ⟨rfl, (Except.ok.inj h).symm⟩
  · have hdate :
    optionalDate S py v concept field = (do return some (← isoDate S py v concept field)) := by
      cases v with
      | null => exact absurd rfl hv
      | _ => rfl
    rw [hdate] at h
    obtain ⟨d, hd, hr⟩ := Except.bind_eq_ok_iff.mp h
    obtain ⟨s, rfl, hs⟩ := isoDate_eq_ok_iff.mp hd
    exact .inr ⟨s, d, rfl, hs, (Except.ok.inj hr).symm⟩

/-- What is recorded of an observation. -/
theorem recordObservation_ok {taxonomy name unit : PyStr} {label : Option String}
    {sectionId : String}
    {observation : List (PyStr × PyJson)} {covered : List Char} {start stop : ℕ}
    (h : recordObservation S py seed
      (textOf taxonomy ++ ":" ++ textOf name) label unit sectionId observation covered start
      stop b = .ok b') :
    ∃ c : Citation, c.entry = ⟨taxonomy, name, label, unit, observation⟩
      ∧ c.span = ⟨S.uuid5 (spanName seed start stop), sectionId, start, stop, textHash S covered,
        covered⟩
      ∧ b'.parts = b.parts ∧ b'.pos = b.pos ∧ b'.sections = b.sections
      ∧ b'.spans = b.spans ++ [c.span]
      ∧ b'.observations = b.observations ++ c.observation.toList
      ∧ (c.observation = none → (Dict.get? observation (.text "val")).bind magnitude = none)
      ∧ ∀ o ∈ c.observation, Observes py c.entry c.span o := by
  obtain ⟨periodEnd, hend, h⟩ := Except.bind_eq_ok_iff.mp h
  obtain ⟨periodStart, hstart, h⟩ := Except.bind_eq_ok_iff.mp h
  cases hval : Dict.get? observation (.text "val") with
  | none =>
    simp only [hval] at h
    obtain rfl := Except.ok.inj h
    exact ⟨⟨_, _, none⟩, rfl, rfl, rfl, rfl, rfl, rfl, (List.append_nil _).symm, fun _ => rfl,
      fun o ho => by cases ho⟩
  | some value =>
    cases hmag : magnitude value with
    | none =>
      simp only [hval, hmag] at h
      obtain rfl := Except.ok.inj h
      exact ⟨⟨_, _, none⟩, rfl, rfl, rfl, rfl, rfl, rfl, (List.append_nil _).symm, fun _ => hmag,
        fun o ho => by cases ho⟩
    | some d =>
      simp only [hval, hmag] at h
      obtain rfl := Except.ok.inj h
      refine ⟨⟨_, _, some _⟩, rfl, rfl, rfl, rfl, rfl, rfl, rfl, (by rintro ⟨⟩), fun o ho => ?_⟩
      obtain rfl := Option.some.inj ho
      exact ⟨by rw [hval]; exact hmag, rfl, rfl, rfl, isoDate_eq_ok_iff.mp hend,
        optionalDate_eq_ok hstart, rfl, rfl, rfl, rfl⟩

theorem renderJsonValue_obj_ne_nil (members : List (PyStr × PyJson)) :
    renderJsonValue (.obj members) ≠ [] := by
  rw [renderJsonValue, sortKeys_obj, write]
  exact List.cons_ne_nil _ _

/-- The middle of a text. -/
theorem slice_middle (before covered after : List Char) :
    slice (before ++ (covered ++ after)) before.length (before.length + covered.length)
    = covered := by
  rw [Filing.slice, ← List.append_assoc, List.take_left' (by rw [List.length_append]),
    List.drop_left' rfl]

/-- **One observation.** -/
theorem walk_observation {taxonomy name unit : PyStr} {label : Option String} {sectionId : String}
    {v : PyJson}
    {sep : List Char} (hb : b.pos = b.text.length) (hsep : LineEnd sep toks)
    (h : renderObservation S py seed
      (textOf taxonomy ++ ":" ++ textOf name) label unit sectionId b sep v = .ok b') :
    Walk S py seed (some sectionId) (tokens lineStyle v.sortKeys ++ toks)
    (observationEntries taxonomy name label unit v)
      b b' := by
  cases v with
  | obj members =>
    obtain ⟨c, hentry, hspan, hparts, hpos, hsections, hspans, hobs, hskipped, hobserved⟩ :=
      recordObservation_ok h
    have htext : b'.text = (b.emit "            ".toList).text
        ++ (renderJsonValue (.obj members) ++ sep) := by
      show b'.parts.flatten = _
      rw [hparts]
      show (((b.emit _).emit _).emit _).text = _
      rw [text_emit _ sep, text_emit _ (renderJsonValue _), List.append_assoc]
    have hstart : (b.emit "            ".toList).pos = (b.emit "            ".toList).text.length :=
      located_emit hb _
    have hne := List.length_pos_iff.mpr (renderJsonValue_obj_ne_nil members)
    refine ⟨⟨"            ".toList ++ (renderJsonValue (.obj members) ++ sep), ?_, ?_⟩, ?_, [c], [],
      ?_, hspans, ?_, ?_,
      ?_, List.pairwise_singleton _ _, ?_, List.Pairwise.nil, rfl, fun _ => rfl, ?_⟩
    · -- the text
      rw [htext, text_emit, List.append_assoc]
    · -- the tokens
      have hblank : Lexes "            ".toList [] := lexes_marks rfl
      exact hblank.append
        ((JsonReader.lexesValue_write lineStyle (PyJson.obj members).sortKeys).append
        hsep.lexes hsep.ends)
    · -- the position
      rw [hpos]
      show (((b.emit _).emit _).emit _).pos = _
      rw [located_emit (located_emit (located_emit hb _) _) _]
      show _ = b'.parts.flatten.length
      rw [hparts]
      rfl
    · rw [List.map_singleton, hentry]
      rfl
    · rw [hobs, List.filterMap_cons]
      cases c.observation <;> rfl
    · rw [hsections]
      exact (List.append_nil _).symm
    · -- the citation stands where the text of the observation does
      intro d hd
      obtain rfl := List.mem_singleton.mp hd
      have hrange : d.span.startChar = (b.emit "            ".toList).text.length
          ∧ d.span.endChar = (b.emit "            ".toList).text.length
            + (renderJsonValue (.obj members)).length := by
        rw [hspan]
        refine ⟨hstart, ?_⟩
        show (b.emit _).pos + _ = _
        rw [hstart]
      refine ⟨⟨?_, ?_, ?_, ?_, ?_, ?_, ?_, hobserved⟩, ?_⟩
      · rw [hspan, hentry]
      · rw [hrange.1, hrange.2, htext, slice_middle, hspan]
      · rw [hspan]
      · rw [hspan]
      · rw [hrange.1, hrange.2]
        omega
      · rw [hrange.2, htext, List.length_append, List.length_append]
        omega
      · intro hnone
        rw [hentry]
        exact hskipped hnone
      · rw [hrange.1, ← hstart]
        exact Nat.le_add_right _ _
    · intro s hs
      cases hs
    · intro d hd
      obtain rfl := List.mem_singleton.mp hd
      left
      rw [hspan]
  | _ => cases h

/-! ## Units, concepts and taxonomies -/

/-- The key of a line. -/
theorem walk_key (hb : b.pos = b.text.length) (key : PyStr) {blanks rest : List Char}
    (hblanks : marks blanks = some [])
    (hrest : marks rest = some toks) :
    Walk S py seed opened (strToken key :: toks) [] b
    (((b.emit blanks).emit (writeStr key)).emit rest) := by
  have hblank : Walk S py seed opened [] [] b (b.emit blanks) := walk_emit hb (lexes_marks hblanks)
  have hkey := hblank.append hb (walk_emit hblank.located (JsonReader.lexes_writeStr key))
  exact hkey.append hb (walk_emit hkey.located (lexes_marks hrest))

/-- **One unit.** -/
theorem walk_unit {taxonomy name : PyStr} {label : Option String} {sectionId : String}
    {unit : PyStr × PyJson}
    {sep : List Char} (hb : b.pos = b.text.length) (hsep : LineEnd sep toks)
    (h : renderUnit S py seed (textOf taxonomy ++ ":" ++ textOf name) label sectionId b sep unit
      = .ok b') :
    Walk S py seed (some sectionId) (memberTokens unit ++ toks)
    (unitEntries taxonomy name label unit) b b' := by
  obtain ⟨key, v⟩ := unit
  cases v with
  | arr items =>
    obtain ⟨b₁, hloop, h⟩ := Except.bind_eq_ok_iff.mp h
    obtain rfl := Except.ok.inj h
    have hhead : Walk S py seed (some sectionId) [strToken key, .colon, .openArr] [] b _ :=
      walk_key hb key (show marks "          ".toList = some [] from rfl)
        (show marks ": [\n".toList = some [.colon, .openArr] from rfl)
    have hlines :
        Walk S py seed (some sectionId) (joined (fun v => tokens lineStyle v.sortKeys) items)
        (items.flatMap (observationEntries taxonomy name label key)) _ b₁ :=
      walk_eachLine (fun _ _ _ _ _ hb hsep h => walk_observation hb hsep h) hhead.located hloop
    have hbody := hhead.append hb hlines
    have hall := hbody.append hb
      (walk_close hbody.located (show marks "          ]".toList = some [.closeArr] from rfl) hsep)
    have htoks : memberTokens (key, .arr items) ++ toks
        = [strToken key, .colon, .openArr] ++ joined (fun v => tokens lineStyle v.sortKeys) items
          ++ (.closeArr :: toks) := by
      rw [memberTokens, tokens_arr]
      simp
    rw [htoks]
    rw [List.append_nil, List.nil_append] at hall
    exact hall
  | _ => cases h

/-- The lines of an object between its braces. -/
theorem walk_object {round : Builder → List Char → PyStr × PyJson → Except DeriveError Builder}
    {g : PyStr × PyJson → List Entry} {members : List (PyStr × PyJson)} {before after : List Char}
    (hround : ∀ m b sep toks b', b.pos = b.text.length → LineEnd sep toks → round b sep m = .ok b' →
      Walk S py seed opened (memberTokens m ++ toks) (g m) b b')
    (hb : b.pos = b.text.length) (hbefore : marks before = some [.openObj])
    (hafter : marks after = some [.closeObj])
    (h : eachLine round (b.emit before) (byKey members) = .ok b') :
    Walk S py seed opened (tokens lineStyle (PyJson.obj members).sortKeys)
    ((byKey members).flatMap g) b (b'.emit after) := by
  have hopen : Walk S py seed opened [.openObj] [] b (b.emit before) :=
    walk_emit hb (lexes_marks hbefore)
  have hlines := hopen.append hb (walk_eachLine hround hopen.located h)
  have hall := hlines.append hb (walk_emit hlines.located (lexes_marks hafter))
  rw [List.append_nil, List.nil_append] at hall
  rwa [tokens_obj]

/-- The empty object is walked. -/
theorem walk_emptyObject (hb : b.pos = b.text.length) :
    Walk S py seed opened (tokens lineStyle (PyJson.obj []).sortKeys) [] b
    (b.emit "\x7b\x7d".toList) := by
  rw [tokens_obj]
  exact walk_emit hb (lexes_marks rfl)

/-- **The units of a concept** are walked. -/
theorem walk_units {taxonomy name : PyStr} {label : Option String} {sectionId : String}
    {units : PyJson}
    (hb : b.pos = b.text.length)
    (h : renderUnits S py seed (textOf taxonomy ++ ":" ++ textOf name) label sectionId units b
      = .ok b') :
    Walk S py seed (some sectionId) (tokens lineStyle units.sortKeys)
      ((byKey (membersOf units)).flatMap (unitEntries taxonomy name label)) b b' := by
  cases units with
  | obj members =>
    cases members with
    | nil =>
      obtain rfl := Except.ok.inj h
      exact walk_emptyObject hb
    | cons m members =>
      obtain ⟨b₁, hloop, h⟩ := Except.bind_eq_ok_iff.mp h
      obtain rfl := Except.ok.inj h
      exact walk_object (fun _ _ _ _ _ hb hsep h => walk_unit hb hsep h) hb rfl rfl hloop
  | _ => cases h

/-- **A member of a concept** is walked. -/
theorem walk_conceptMember {taxonomy name : PyStr} {label : Option String} {sectionId : String}
    {m : PyStr × PyJson}
    {sep : List Char} (hb : b.pos = b.text.length) (hsep : LineEnd sep toks)
    (h : renderConceptMember S py seed
      (textOf taxonomy ++ ":" ++ textOf name) label sectionId b sep m = .ok b') :
    Walk S py seed (some sectionId) (memberTokens m ++ toks) (memberEntries taxonomy name label m) b
    b' := by
  have hkey : Walk S py seed (some sectionId) [strToken m.1, .colon] [] b _ :=
    walk_key hb m.1 (show marks "        ".toList = some [] from rfl) (show marks ": ".toList
      = some [.colon] from rfl)
  rw [memberEntries]
  simp only [renderConceptMember] at h
  split_ifs at h ⊢ with hunits
  · obtain ⟨b₁, hvalue, h⟩ := Except.bind_eq_ok_iff.mp h
    obtain rfl := Except.ok.inj h
    have hbody := hkey.append hb (walk_units hkey.located hvalue)
    have hall := hbody.append hb (walk_emit hbody.located hsep.lexes)
    rw [List.append_nil, List.nil_append] at hall
    rw [memberTokens]
    exact hall
  · obtain rfl := Except.ok.inj h
    rw [memberTokens]
    exact hkey.append hb (walk_value hkey.located m.2 hsep)

/-- The names of a concept's entries. -/
theorem names_of_mem {taxonomy : PyStr} {concept : PyStr × PyJson} {e : Entry}
    (h : e ∈ conceptEntries taxonomy concept) :
    e.taxonomy = taxonomy ∧ e.name = concept.1 := by
  obtain ⟨m, -, hm⟩ := List.mem_flatMap.mp h
  rw [memberEntries] at hm
  split_ifs at hm
  · obtain ⟨unit, -, hunit⟩ := List.mem_flatMap.mp hm
    obtain ⟨v, -, hv⟩ := List.mem_flatMap.mp hunit
    cases v with
    | obj observation =>
      obtain rfl := List.mem_singleton.mp hv
      exact ⟨rfl, rfl⟩
    | _ => cases hv
  · cases hm

/-- **One concept.**  Its section ends behind its last observation. -/
theorem walk_concept {taxonomy : PyStr} {concept : PyStr × PyJson} {sep : List Char}
    (hb : b.pos = b.text.length)
    (hsep : LineEnd sep toks) (h : renderConcept S py seed taxonomy b sep concept = .ok b') :
    Walk S py seed none (memberTokens concept ++ toks) (conceptEntries taxonomy concept) b b' := by
  obtain ⟨name, v⟩ := concept
  cases v with
  | obj members =>
    obtain ⟨b₁, hloop, h⟩ := Except.bind_eq_ok_iff.mp h
    obtain rfl := Except.ok.inj h
    have hblank : (b.emit "      ".toList).pos = (b.emit "      ".toList).text.length :=
      located_emit hb _
    -- the name, the lines of its members and the closing brace
    have hname :
        Walk S py seed (some (S.uuid5 (sectionName seed (b.sections.length + 1))))
          [strToken name] []
        (b.emit "      ".toList) _ := walk_emit hblank (JsonReader.lexes_writeStr name)
    have hmark : Lexes ": \x7b\n".toList [.colon, .openObj] := lexes_marks rfl
    have hhead := hname.append hblank (walk_emit hname.located hmark)
    have hlines :=
      hhead.append hblank (walk_eachLine (fun _ _ _ _ _ hb hsep h => walk_conceptMember hb hsep h)
      hhead.located hloop)
    have hend : Lexes "      \x7d".toList [.closeObj] := lexes_marks rfl
    have hbody := hlines.append hblank (walk_emit hlines.located hend)
    have hle := hbody.pos_le hblank
    obtain ⟨piece, htext, hlexes⟩ := hbody.written
    obtain ⟨cs, sections, hes, hspans, hobs, hsections, hok, hpair, -, -, -, hopen, hhome⟩ :=
      hbody.cited
    obtain rfl := hopen rfl
    have hentries : cs.map Citation.entry = conceptEntries taxonomy (name, .obj members) := by
      rw [hes, List.append_nil]
      rfl
    have hpos : b.pos ≤ (b.emit "      ".toList).pos := Nat.le_add_right _ _
    have hlocated := hbody.located
    have hwhole : (((b₁.emit "      \x7d".toList).emit sep)).text = b.text
        ++ ("      ".toList ++ (piece ++ sep)) := by
      rw [text_emit _ sep, htext, text_emit, List.append_assoc, List.append_assoc]
    refine ⟨⟨"      ".toList ++ (piece ++ sep), hwhole, ?_⟩, located_emit hlocated sep, cs, [_],
      hentries, hspans, hobs,
      congrArg (· ++ [_]) (hsections.trans (List.append_nil _)),
      fun c hc => ⟨?_, hpos.trans (hok c hc).2⟩, hpair, ?_,
      List.pairwise_singleton _ _, rfl, (by rintro ⟨⟩),
      fun c hc => .inr ⟨_, List.mem_singleton_self _, ?_⟩⟩
    · -- the tokens
      have hblank : Lexes "      ".toList [] := lexes_marks rfl
      have hall := hblank.append (hlexes.append hsep.lexes)
      have htoks : memberTokens (name, .obj members) ++ toks
          = [] ++ ([strToken name] ++ [.colon, .openObj] ++ joined memberTokens (byKey members)
            ++ [.closeObj] ++ toks) := by
        rw [memberTokens, tokens_obj]
        simp
      rwa [htoks]
    · show c.Ok S py seed ((b₁.emit "      \x7d".toList).emit sep).text
      rw [text_emit]
      exact (hok c hc).1.grow
    · -- the section stands around its citations
      intro s hs
      obtain rfl := List.mem_singleton.mp hs
      exact ⟨hpos, hle, Nat.le_add_right _ _, rfl⟩
    · -- and each citation is at home in it
      refine ⟨?_, ?_, (hok c hc).2, ?_⟩
      · rcases hhome c hc with hid | ⟨s, hs, -⟩
        · exact Option.some.inj hid
        · cases hs
      · have hentry : c.entry ∈ conceptEntries taxonomy (name, .obj members) :=
        hentries ▸ List.mem_map_of_mem hc
        obtain ⟨htaxonomy, hname⟩ := names_of_mem hentry
        rw [htaxonomy, hname]
      · exact (hok c hc).1.bound.trans hlocated.ge
  | _ => cases h

/-- **A taxonomy** is walked. -/
theorem walk_taxonomy {taxonomy : PyStr × PyJson} {sep : List Char} (hb : b.pos = b.text.length)
    (hsep : LineEnd sep toks)
    (h : renderTaxonomy S py seed b sep taxonomy = .ok b') :
    Walk S py seed none (memberTokens taxonomy ++ toks) (taxonomyEntries taxonomy) b b' := by
  obtain ⟨name, v⟩ := taxonomy
  cases v with
  | obj concepts =>
    obtain ⟨b₁, hloop, h⟩ := Except.bind_eq_ok_iff.mp h
    obtain rfl := Except.ok.inj h
    have hkey : Walk S py seed none [strToken name, .colon, .openObj] [] b _ :=
      walk_key hb name (show marks "    ".toList = some [] from rfl)
        (show marks ": \x7b\n".toList = some [.colon, .openObj] from rfl)
    have hlines :=
      hkey.append hb
        (walk_eachLine (fun _ _ _ _ _ hb hsep h => walk_concept hb hsep h) hkey.located hloop)
    have hall := hlines.append hb
      (walk_close hlines.located (show marks "    \x7d".toList = some [.closeObj] from rfl) hsep)
    have htoks : memberTokens (name, .obj concepts) ++ toks
        = strToken name :: [.colon, .openObj] ++ joined memberTokens (byKey concepts)
          ++ (.closeObj :: toks) := by
      rw [memberTokens, tokens_obj]
      simp
    rw [htoks]
    rw [List.append_nil, List.nil_append] at hall
    exact hall
  | _ => cases h

/-- **The facts of a payload** are walked. -/
theorem walk_facts {facts : PyJson} (hb : b.pos = b.text.length)
    (h : renderFacts S py seed facts b = .ok b') :
    Walk S py seed none (tokens lineStyle facts.sortKeys)
    ((byKey (membersOf facts)).flatMap taxonomyEntries) b b' := by
  cases facts with
  | obj members =>
    cases members with
    | nil =>
      obtain rfl := Except.ok.inj h
      exact walk_emptyObject hb
    | cons m members =>
      obtain ⟨b₁, hloop, h⟩ := Except.bind_eq_ok_iff.mp h
      obtain rfl := Except.ok.inj h
      exact walk_object (fun _ _ _ _ _ hb hsep h => walk_taxonomy hb hsep h) hb rfl rfl hloop
  | _ => cases h

/-- **A member of the payload** is walked. -/
theorem walk_member {m : PyStr × PyJson} {sep : List Char} (hb : b.pos = b.text.length)
    (hsep : LineEnd sep toks)
    (h : renderMember S py seed b sep m = .ok b') :
    Walk S py seed none (memberTokens m ++ toks) (documentEntries m) b b' := by
  have hkey : Walk S py seed none [strToken m.1, .colon] [] b _ :=
    walk_key hb m.1 (show marks "  ".toList = some [] from rfl) (show marks ": ".toList
      = some [.colon] from rfl)
  rw [documentEntries]
  simp only [renderMember] at h
  split_ifs at h ⊢ with hfacts
  · obtain ⟨b₁, hvalue, h⟩ := Except.bind_eq_ok_iff.mp h
    obtain rfl := Except.ok.inj h
    have hbody := hkey.append hb (walk_facts hkey.located hvalue)
    have hall := hbody.append hb (walk_emit hbody.located hsep.lexes)
    rw [List.append_nil, List.nil_append] at hall
    rw [memberTokens]
    exact hall
  · obtain rfl := Except.ok.inj h
    rw [memberTokens]
    exact hkey.append hb (walk_value hkey.located m.2 hsep)

/-- **The whole document.** -/
theorem walk_document {payload : List (PyStr × PyJson)}
    (h : renderDocument S py seed payload {} = .ok b') :
    Walk S py seed none (tokens lineStyle (PyJson.obj payload).sortKeys) (entries payload) {}
    b' := by
  obtain ⟨b₁, hloop, h⟩ := Except.bind_eq_ok_iff.mp h
  obtain rfl := Except.ok.inj h
  exact walk_object (fun _ _ _ _ _ hb hsep h => walk_member hb hsep h) rfl rfl rfl hloop

end Walks

end CompanyFacts
