/-
# The rows of a parsed filing

What `parse_filing` hands to the tables of sections, spans and tables.  Sections and tables are
numbered as they open, a paragraph begins after the one before it, and a fact gets the span of its
range where there is one, so that no two rows of a kind have one place (`placed_of_parseFiling`).
-/
import EvidenceLab.FilingParser

namespace Filing

/-- The rows of a version: no two of a kind have one place, and an identifier is made from the
version and the place. -/
structure Placed (uuid5 : String → String) (seed : String) (sections : List Section)
    (spans : List SourceSpan) (tables : List ExtractedTable) : Prop where
  sectionOrders : (sections.map Section.order).Nodup
  spanRanges : (spans.map fun s => (s.startChar, s.endChar)).Nodup
  tableOrders : (tables.map ExtractedTable.order).Nodup
  sectionIds : ∀ s ∈ sections, s.id = uuid5 (sectionName seed s.order)
  spanIds : ∀ s ∈ spans, s.id = uuid5 (spanName seed s.startChar s.endChar)
  tableIds : ∀ t ∈ tables, t.id = uuid5 (tableName seed t.order)

/-! ## The walk -/

section Walk

variable {st st' : State}

/-- What opens and closes sections, paragraphs and tables. -/
structure Outline where
  sections : List ℕ
  ranges : List (ℕ × ℕ × ℕ)
  block : Option ℕ
  tables : List ℕ
  tableStack : List ℕ
  tableCount : ℕ

def outline (st : State) : Outline where
  sections := st.sections.map MutableSection.order
  ranges := st.paragraphRanges
  block := st.blockStart
  tables := st.tables.map TableState.order
  tableStack := st.tableStack.map TableState.order
  tableCount := st.tableCount

/-- The invariant of the walk. -/
structure OutlineOk (o : Outline) (pos : ℕ) : Prop where
  sections : o.sections = List.range o.sections.length
  ranges : o.ranges.Pairwise fun a b => a.2.2 ≤ b.2.1
  /-- The text after the last paragraph is that of the open one. -/
  closed : ∀ r ∈ o.ranges, r.2.2 ≤ pos ∧ ∀ start, o.block = some start → r.2.2 ≤ start
  tables : (o.tables ++ o.tableStack).Nodup
  counted : ∀ n ∈ o.tables ++ o.tableStack, n < o.tableCount

/-- Nothing opens or closes, and the text grows. -/
structure Keeps (st st' : State) : Prop where
  outline : outline st' = outline st
  pos : st.pos ≤ st'.pos

theorem Keeps.refl (st : State) : Keeps st st := ⟨rfl, le_rfl⟩

theorem Keeps.trans {st'' : State} (h : Keeps st st') (h' : Keeps st' st'') : Keeps st st'' :=
  ⟨h'.outline.trans h.outline, h.pos.trans h'.pos⟩

/-- An outline is in order at every later position. -/
theorem OutlineOk.grow {o : Outline} {pos pos' : ℕ} (h : OutlineOk o pos) (hpos : pos ≤ pos') :
    OutlineOk o pos' :=
  ⟨h.sections, h.ranges, fun r hr => ⟨(h.closed r hr).1.trans hpos, (h.closed r hr).2⟩, h.tables,
    h.counted⟩

/-- Steps that keep the outline keep it in order. -/
theorem OutlineOk.keep (h : OutlineOk (outline st) st.pos) (hkeeps : Keeps st st') :
    OutlineOk (outline st') st'.pos := by
  rw [hkeeps.outline]
  exact h.grow hkeeps.pos

/-- Appending text keeps the outline. -/
theorem keeps_append (piece : List Char) (st : State) : Keeps st (append piece st) :=
  ⟨rfl, Nat.le_add_right _ _⟩

/-- A line break keeps the outline. -/
theorem keeps_newlineIf (block : Bool) (st : State) : Keeps st (newlineIf block st) := by
  unfold newlineIf newline
  split_ifs
  · exact keeps_append _ _
  · exact .refl st
  · exact .refl st

theorem keeps_appendData (data : String) (st : State) : Keeps st (appendData data st) := by
  unfold appendData
  dsimp only
  split_ifs
  · exact .refl st
  · exact (keeps_append _ st).trans (keeps_append _ _)
  · exact keeps_append _ st

/-- The innermost table keeps its number. -/
theorem keeps_onTable {f : TableState → TableState} (hf : ∀ table, (f table).order = table.order)
    (st : State) : Keeps st (onTable f st) := by
  unfold onTable
  split
  · exact .refl st
  · rename_i table rest hstack
    refine ⟨?_, le_rfl⟩
    simp only [outline, hstack, List.map_cons, hf]

/-- Opening a header tag keeps the outline. -/
theorem keeps_startHeaderTag (tag : String) (attrs : List (String × Option String)) (st : State) :
    Keeps st (startHeaderTag tag attrs st) := by
  unfold startHeaderTag
  split_ifs
  all_goals exact ⟨rfl, le_rfl⟩

/-- Reading a period keeps the outline. -/
theorem keeps_endPeriodTag {repr : String → String} {kind : String} {captured : List Char}
    (h : endPeriodTag repr kind captured st = .ok st') : Keeps st st' := by
  unfold endPeriodTag at h
  split at h
  · rw [← Except.ok.inj h]
    exact ⟨rfl, le_rfl⟩
  · cases h

/-- Closing a header tag keeps the outline. -/
theorem keeps_endHeaderTag {repr : String → String} {tag : String}
    (h : endHeaderTag repr tag st = .ok st') : Keeps st st' := by
  unfold endHeaderTag at h
  dsimp only at h
  split_ifs at h
  · exact keeps_endPeriodTag h
  · exact keeps_endPeriodTag h
  · exact keeps_endPeriodTag h
  all_goals
    rw [← Except.ok.inj h]
    exact ⟨rfl, le_rfl⟩

theorem order_closeRow (table : TableState) : (closeRow table).order = table.order := by
  unfold closeRow
  split
  · rfl
  · split_ifs <;> rfl

theorem order_cellData (data : String) (table : TableState) :
    (cellData data table).order = table.order := by
  unfold cellData
  split
  · rfl
  · dsimp only
    split_ifs <;> rfl

/-- A table is numbered by those that were opened before it. -/
theorem outlineOk_openTable (h : OutlineOk (outline st) st.pos) (table : TableState)
    (htable : table.order = st.tableCount) :
    OutlineOk (outline { st with
      tableStack := table :: st.tableStack
      tableCount := st.tableCount + 1 }) st.pos := by
  refine ⟨h.sections, h.ranges, h.closed, ?_, fun n hn => ?_⟩
  · have hfresh : st.tableCount ∉ (outline st).tables ++ (outline st).tableStack :=
      fun hmem => lt_irrefl _ (h.counted _ hmem)
    show ((outline st).tables ++ table.order :: (outline st).tableStack).Nodup
    rw [htable]
    exact List.nodup_middle.mpr (List.nodup_cons.mpr ⟨hfresh, h.tables⟩)
  · have hmem : n = st.tableCount ∨ n ∈ (outline st).tables ++ (outline st).tableStack := by
      rw [← List.mem_cons, ← htable]
      exact List.perm_middle.mem_iff.mp hn
    rcases hmem with rfl | hmem
    · exact Nat.lt_succ_self _
    · exact (h.counted n hmem).trans (Nat.lt_succ_self _)

/-- Opening a table keeps the outline in order. -/
theorem outlineOk_openTableTag (tag : String) (h : OutlineOk (outline st) st.pos) :
    OutlineOk (outline (openTableTag tag st)) (openTableTag tag st).pos := by
  unfold openTableTag
  by_cases h₁ : tag = "table"
  · rw [if_pos h₁]
    exact outlineOk_openTable h _ rfl
  by_cases h₂ : tag = "caption"
  · rw [if_neg h₁, if_pos h₂]
    refine h.keep (keeps_onTable (fun table => ?_) st)
    rfl
  by_cases h₃ : tag = "tr"
  · rw [if_neg h₁, if_neg h₂, if_pos h₃]
    refine h.keep (keeps_onTable (fun table => ?_) st)
    rfl
  by_cases h₄ : tag = "td" ∨ tag = "th"
  · rw [if_neg h₁, if_neg h₂, if_neg h₃, if_pos h₄]
    refine h.keep (keeps_onTable (fun table => ?_) st)
    rfl
  · rw [if_neg h₁, if_neg h₂, if_neg h₃, if_neg h₄]
    exact h

/-- **Opening a tag** keeps the outline in order. -/
theorem outlineOk_openTag (tag : String) (attrs : List (String × Option String))
    (h : OutlineOk (outline st) st.pos) :
    OutlineOk (outline (openTag tag attrs st)) (openTag tag attrs st).pos := by
  unfold openTag
  split
  · exact ⟨h.sections, h.ranges, h.closed, h.tables, h.counted⟩
  · split_ifs
    · -- the open paragraph begins at the end of the text
      refine ⟨h.sections, h.ranges, fun r hr => ?_, h.tables, h.counted⟩
      refine ⟨(h.closed r hr).1, fun start hstart => ?_⟩
      rw [← Option.some.inj hstart]
      exact (h.closed r hr).1
    · exact ⟨h.sections, h.ranges, h.closed, h.tables, h.counted⟩
    · exact outlineOk_openTableTag tag h

/-- A section is numbered by those before it. -/
theorem outlineOk_closeHeading (h : OutlineOk (outline st) st.pos) :
    OutlineOk (outline (closeHeading st)) (closeHeading st).pos := by
  unfold closeHeading
  dsimp only
  split_ifs
  · exact ⟨h.sections, h.ranges, h.closed, h.tables, h.counted⟩
  · refine ⟨?_, h.ranges, h.closed, h.tables, h.counted⟩
    have hsections := h.sections
    simp only [outline, List.length_map] at hsections
    simp only [outline, List.map_append, hsections, List.map_cons, List.map_nil,
      List.length_append, List.length_range, List.length_singleton, List.range_succ]

/-- A paragraph ends where the text does. -/
theorem outlineOk_closeParagraph (h : OutlineOk (outline st) st.pos) :
    OutlineOk (outline (closeParagraph st)) (closeParagraph st).pos := by
  unfold closeParagraph
  split
  · exact h
  · rename_i start hstart
    have hnone : ∀ {p : Prop} (start' : ℕ), (none : Option ℕ) = some start' → p :=
      fun _ heq => by cases heq
    by_cases hlt : start < st.pos
    · refine ⟨h.sections, ?_, fun r hr => ⟨?_, fun _ => hnone _⟩, h.tables, h.counted⟩
      · show List.Pairwise _ (if start < st.pos then _ else _)
        rw [if_pos hlt]
        refine List.pairwise_append.mpr ⟨h.ranges, List.pairwise_singleton _ _, ?_⟩
        intro a ha b hb
        rw [List.mem_singleton.mp hb]
        exact (h.closed a ha).2 start hstart
      · change r ∈ (if start < st.pos then _ else _) at hr
        rw [if_pos hlt] at hr
        rcases List.mem_append.mp hr with hr | hr
        · exact (h.closed r hr).1
        · rw [List.mem_singleton.mp hr]
    · rw [if_neg hlt]
      exact ⟨h.sections, h.ranges, fun r hr => ⟨(h.closed r hr).1, fun _ => hnone _⟩, h.tables,
        h.counted⟩

/-- A table that is closed has a place of its own. -/
theorem outlineOk_closeTable (h : OutlineOk (outline st) st.pos) :
    OutlineOk (outline (closeTable st)) (closeTable st).pos := by
  unfold closeTable
  split
  · exact h
  · rename_i table rest hstack
    have horders : (outline { st with tables := st.tables ++ [table], tableStack := rest }).tables
        ++ (outline { st with tables := st.tables ++ [table], tableStack := rest }).tableStack
        = (outline st).tables ++ (outline st).tableStack := by
      simp [outline, hstack]
    refine ⟨h.sections, h.ranges, h.closed, ?_, ?_⟩
    · rw [horders]
      exact h.tables
    · rw [horders]
      exact h.counted

/-- **Closing a tag** keeps the outline in order. -/
theorem outlineOk_closeTag (tag : String) (h : OutlineOk (outline st) st.pos) :
    OutlineOk (outline (closeTag tag st)) (closeTag tag st).pos := by
  unfold closeTag closeTableTag
  split_ifs
  · exact outlineOk_closeHeading h
  · exact outlineOk_closeParagraph h
  · unfold closeFact
    split
    · exact h
    · exact ⟨h.sections, h.ranges, h.closed, h.tables, h.counted⟩
  · refine h.keep (keeps_onTable (fun table => ?_) st)
    rfl
  · refine h.keep (keeps_onTable (fun table => ?_) st)
    rfl
  · exact h.keep (keeps_onTable order_closeRow st)
  · exact outlineOk_closeTable h
  · exact h

/-- **An event keeps the invariant.** -/
theorem outlineOk_step {repr : String → String} {e : Event} (h : OutlineOk (outline st) st.pos)
    (hstep : step repr st e = .ok st') : OutlineOk (outline st') st'.pos := by
  cases e with
  | startTag tag attrs =>
      rw [← Except.ok.inj hstep, handleStartTag]
      split_ifs
      · exact ⟨h.sections, h.ranges, h.closed, h.tables, h.counted⟩
      · exact h.keep (keeps_startHeaderTag tag attrs st)
      · exact outlineOk_openTag tag attrs (h.keep (keeps_newlineIf _ st))
  | endTag tag =>
      rw [step, handleEndTag] at hstep
      split_ifs at hstep
      · rw [← Except.ok.inj hstep]
        exact ⟨h.sections, h.ranges, h.closed, h.tables, h.counted⟩
      · exact h.keep (keeps_endHeaderTag hstep)
      · rw [← Except.ok.inj hstep]
        exact (outlineOk_closeTag tag h).keep (keeps_newlineIf _ _)
  | data text =>
      rw [← Except.ok.inj hstep, handleData]
      split_ifs
      · exact ⟨h.sections, h.ranges, h.closed, h.tables, h.counted⟩
      · exact h
      · exact (h.keep (keeps_onTable (order_cellData text) st)).keep (keeps_appendData text _)

theorem outlineOk_init : OutlineOk (outline {}) 0 where
  sections := rfl
  ranges := List.Pairwise.nil
  closed r hr := by cases hr
  tables := List.nodup_nil
  counted n hn := by cases hn

/-- **Every fed document** has its outline in order. -/
theorem outlineOk_feed {repr : String → String} {events : List Event}
    (h : feed repr events = .ok st) : OutlineOk (outline st) st.pos :=
  Except.foldlM_ok_run (fun _ st => OutlineOk (outline st) st.pos)
    (fun _ _ _ _ _ _ hinv hstep => outlineOk_step hinv hstep) outlineOk_init h

end Walk

/-! ## The rows -/

section Rows

variable {uuid5 : String → String} {sha256Hex : List Char → String} {repr : String → String}
  {seed : String} {text : List Char}

/-- A trimmed range lies inside of the range. -/
theorem trimRange_bounds (text : List Char) (start stop : ℕ) :
    start ≤ (trimRange text start stop).1 ∧ (trimRange text start stop).2 ≤ stop :=
  ⟨Nat.le_add_right _ _, Nat.sub_le _ _⟩

/-- What is true of the spans that have been collected. -/
structure SpansOk (uuid5 : String → String) (seed : String) (c : Collected) : Prop where
  ranges : (c.spans.map fun s => (s.startChar, s.endChar)).Nodup
  ids : ∀ s ∈ c.spans, s.id = uuid5 (spanName seed s.startChar s.endChar)
  known : ∀ s ∈ c.spans, (c.spanByRange.get? (s.startChar, s.endChar)).isSome = true

/-- The spans of the paragraphs follow one another. -/
theorem ranges_paragraphSpans {ranges : List (ℕ × ℕ × ℕ)}
    (h : ranges.Pairwise fun a b => a.2.2 ≤ b.2.1) :
    ((ranges.filterMap (paragraphSpan uuid5 sha256Hex seed text)).map
      fun s => (s.startChar, s.endChar)).Nodup := by
  rw [List.Nodup, List.pairwise_map, List.pairwise_filterMap]
  refine h.imp ?_
  intro a b hab s hs u hu heq
  obtain ⟨hnot, hs⟩ := Option.ite_none_left_eq_some.mp hs
  obtain ⟨-, hu⟩ := Option.ite_none_left_eq_some.mp hu
  obtain rfl := Option.some.inj hs
  obtain rfl := Option.some.inj hu
  have hstart : (trimRange text a.2.1 a.2.2).1 = (trimRange text b.2.1 b.2.2).1 :=
    congrArg Prod.fst heq
  have hstop := (trimRange_bounds text a.2.1 a.2.2).2
  have hnext := (trimRange_bounds text b.2.1 b.2.2).1
  omega

/-- The identifier of a paragraph is the hash of its place. -/
theorem id_paragraphSpan {range : ℕ × ℕ × ℕ} {s : SourceSpan}
    (h : paragraphSpan uuid5 sha256Hex seed text range = some s) :
    s.id = uuid5 (spanName seed s.startChar s.endChar) := by
  obtain ⟨-, h⟩ := Option.ite_none_left_eq_some.mp h
  rw [← Option.some.inj h]
  rfl

/-- A span is added where its range has none. -/
theorem spansOk_addSpan {c : Collected} (h : SpansOk uuid5 seed c) (sectionIndex start stop : ℕ) :
    SpansOk uuid5 seed (addSpan uuid5 sha256Hex seed text sectionIndex start stop c) := by
  unfold addSpan
  split
  · exact h
  · rename_i hnone
    have hset : ∀ range : ℕ × ℕ, (c.spanByRange.get? range).isSome = true →
        ((c.spanByRange.set (start, stop) (uuid5 (spanName seed start stop))).get? range).isSome
          = true := by
      intro range hrange
      rw [Dict.get?_set]
      split_ifs
      · rfl
      · exact hrange
    refine ⟨?_, fun s hs => ?_, fun s hs => ?_⟩
    · rw [List.map_append, List.map_singleton, ← List.concat_eq_append]
      refine h.ranges.concat fun hmem => ?_
      obtain ⟨s, hs, heq⟩ := List.mem_map.mp hmem
      have hknown := h.known s hs
      have hrange : (s.startChar, s.endChar) = (start, stop) := heq
      rw [hrange, hnone] at hknown
      cases hknown
    · rcases List.mem_append.mp hs with hs | hs
      · exact h.ids s hs
      · rw [List.mem_singleton.mp hs]
        rfl
    · rcases List.mem_append.mp hs with hs | hs
      · exact hset _ (h.known s hs)
      · rw [List.mem_singleton.mp hs]
        show ((c.spanByRange.set (start, stop) _).get? (start, stop)).isSome = true
        rw [Dict.get?_set_self]
        rfl

/-- **A fact keeps the spans apart.** -/
theorem spansOk_addFact {contexts : Dict String XbrlContext} {units : Dict String (List Char)}
    {c c' : Collected} {raw : RawFactState} (h : SpansOk uuid5 seed c)
    (hadd : addFact uuid5 sha256Hex repr seed text contexts units c raw = .ok c') :
    SpansOk uuid5 seed c' := by
  unfold addFact at hadd
  dsimp only at hadd
  split_ifs at hadd
  · rw [← Except.ok.inj hadd]
    exact ⟨h.ranges, h.ids, h.known⟩
  · obtain ⟨⟨concept, contextRef, unitRef⟩, -, hadd⟩ := Except.bind_eq_ok_iff.mp hadd
    obtain ⟨_, -, hadd⟩ := Except.bind_eq_ok_iff.mp hadd
    obtain ⟨_, -, hadd⟩ := Except.bind_eq_ok_iff.mp hadd
    obtain ⟨scale, -, hadd⟩ := Except.bind_eq_ok_iff.mp hadd
    rw [← Except.ok.inj hadd]
    have hadded : SpansOk uuid5 seed (addSpan uuid5 sha256Hex seed text raw.sectionIndex
        (trimRange text raw.start raw.stop).1 (trimRange text raw.start raw.stop).2 c) :=
      spansOk_addSpan h raw.sectionIndex _ _
    exact ⟨hadded.ranges, hadded.ids, hadded.known⟩

/-- **The rows of a filing have places of their own.** -/
theorem placed_of_parseFiling {contentHash : String} {events : List Event}
    {parsed : ParsedDocument}
    (h : parseFiling uuid5 sha256Hex repr seed contentHash events = .ok parsed) :
    Placed uuid5 seed parsed.sections parsed.spans parsed.tables := by
  obtain ⟨st, hfeed, h⟩ := Except.bind_eq_ok_iff.mp h
  obtain ⟨_, -, h⟩ := Except.bind_eq_ok_iff.mp h
  obtain ⟨c, hc, h⟩ := Except.bind_eq_ok_iff.mp h
  obtain rfl := Except.ok.inj h
  have hok := outlineOk_feed hfeed
  have hspans : SpansOk uuid5 seed c := by
    refine Except.foldlM_ok_run (fun _ c => SpansOk uuid5 seed c)
      (fun _ _ _ _ _ _ hinv hstep => spansOk_addFact hinv hstep) ?_ hc
    refine ⟨ranges_paragraphSpans hok.ranges, fun s hs => ?_, fun s hs => ?_⟩
    · obtain ⟨range, -, hrange⟩ := List.mem_filterMap.mp hs
      exact id_paragraphSpan hrange
    · refine Dict.get?_isSome_iff.mpr (Dict.mem_keys_update.mpr (.inr ?_))
      exact List.mem_map.mpr ⟨_, List.mem_map_of_mem hs, rfl⟩
  have htables := (StableSort.sortBy_perm TableState.order st.tables).map TableState.order
  refine ⟨?_, hspans.ranges, ?_, fun s hs => ?_, hspans.ids, fun t ht => ?_⟩
  · have horders : (makeSections uuid5 seed st.canonicalText st.sections).map Section.order
        = (outline st).sections := by
      have hfst := congrArg (List.map MutableSection.order) (List.zipIdx_map_fst 0 st.sections)
      rw [List.map_map] at hfst
      rw [makeSections, List.map_map]
      exact hfst
    rw [horders, hok.sections]
    exact List.nodup_range
  · rw [List.map_map]
    exact htables.nodup_iff.mpr (List.nodup_append.mp hok.tables).1
  · obtain ⟨⟨s', index⟩, -, rfl⟩ := List.mem_map.mp hs
    rfl
  · obtain ⟨t', -, rfl⟩ := List.mem_map.mp ht
    rfl

end Rows

end Filing
