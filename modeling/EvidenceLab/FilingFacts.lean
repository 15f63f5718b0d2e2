/-
# The facts of parsed filings

What the parser of filings can produce as parts of a fact: exactly the facts of `filing`.  The
tables of the header hold only names that are not empty and stripped texts, along the whole walk
(`exists_filing_fact`), and every such fact is reported by some filing (`exists_filing_of_fact`).
-/
import EvidenceLab.FactKeys

namespace Xbrl

open Delimited (StartsSolid EndsSolid Solid)

/-! ## What the parser produces -/

section Parser

open Filing

variable {st st' : State}

theorem solid_strip {cs : List Char} (h : PyText.strip cs ≠ []) :
    Solid Blank (PyText.strip cs) := by
  have hstrip : PyText.strip cs = (cs.dropWhile PyText.isSpace).rdropWhile PyText.isSpace := rfl
  refine ⟨h, fun c hc => ?_, fun c hc => ?_⟩
  · obtain ⟨x, xs, hx⟩ := List.exists_cons_of_ne_nil h
    have hprefix := List.rdropWhile_prefix (p := PyText.isSpace) (l := cs.dropWhile PyText.isSpace)
    rw [← hstrip, hx] at hprefix
    obtain ⟨rest, hrest⟩ := hprefix
    rw [hx, List.head?_cons] at hc
    obtain rfl := Option.some.inj hc
    have hhead : (cs.dropWhile PyText.isSpace).head? = some x := by rw [← hrest]; rfl
    have hnot := List.head?_dropWhile_not PyText.isSpace cs
    rw [hhead] at hnot
    simpa using hnot
  · rw [hstrip] at h hc
    have hlast := List.rdropWhile_last_not PyText.isSpace (cs.dropWhile PyText.isSpace) h
    rw [List.getLast?_eq_some_getLast h] at hc
    obtain rfl := Option.some.inj hc
    exact hlast

/-- The tables of the header hold what facts of a filing can have. -/
structure HeaderOk (st : State) : Prop where
  contexts : ∀ id context, st.contexts.get? id = some context → filing.IsDims context.dimensions
  units : ∀ id measure, st.units.get? id = some measure → Solid Blank measure
  dims : filing.IsDims st.contextDims

/-- The tables of the header. -/
def header (st : State) :
    Dict String XbrlContext × Dict String (List Char) × Dict String (List Char) :=
  (st.contexts, st.units, st.contextDims)

/-- The header invariant depends on the header only. -/
theorem HeaderOk.of_header (h : HeaderOk st) (heq : header st' = header st) : HeaderOk st' := by
  simp only [header, Prod.mk.injEq] at heq
  obtain ⟨hc, hu, hd⟩ := heq
  exact ⟨hc ▸ h.contexts, hu ▸ h.units, hd ▸ h.dims⟩

theorem isDims_nil : filing.IsDims [] := ⟨List.nodup_nil, fun kv hkv => by cases hkv⟩

/-- A dimension that is added keeps the dimensions in order. -/
theorem isDims_set {d : Dict String (List Char)} (hd : filing.IsDims d) {name : String}
    {member : List Char}
    (hname : name ≠ "") (hmember : Solid Blank member) : filing.IsDims (d.set name member) := by
  refine ⟨Dict.nodup_keys_set hd.1 name member, ?_⟩
  rintro ⟨k, v⟩ hkv
  have hget := Dict.get?_of_mem (Dict.nodup_keys_set hd.1 name member) hkv
  rw [Dict.get?_set] at hget
  split_ifs at hget with hk
  · rw [← hk, ← Option.some.inj hget]
    exact ⟨hname, hmember⟩
  · exact hd.2 _ (Dict.mem_of_get? hget)

/-- A line break does not touch the header. -/
theorem header_newlineIf (block : Bool) : header (newlineIf block st) = header st := by
  unfold newlineIf newline
  split_ifs <;> rfl

/-- Tables do not touch the header. -/
theorem header_onTable (f : TableState → TableState) : header (onTable f st) = header st := by
  unfold onTable
  split <;> rfl

theorem header_appendData (data : String) : header (appendData data st) = header st := by
  unfold appendData
  dsimp only
  split_ifs <;> rfl

/-- Opening a tag of the body does not touch the header. -/
theorem header_openTag (tag : String) (attrs : List (String × Option String)) :
    header (openTag tag attrs st) = header st := by
  have htable : header (openTableTag tag st) = header st := by
    unfold openTableTag
    by_cases h1 : tag = "table"
    · rw [if_pos h1]
      rfl
    · by_cases h2 : tag = "caption"
      · rw [if_neg h1, if_pos h2, header_onTable]
      · by_cases h3 : tag = "tr"
        · rw [if_neg h1, if_neg h2, if_pos h3, header_onTable]
        · by_cases h4 : tag = "td" ∨ tag = "th"
          · rw [if_neg h1, if_neg h2, if_neg h3, if_pos h4, header_onTable]
          · rw [if_neg h1, if_neg h2, if_neg h3, if_neg h4]
  unfold openTag
  split
  · rfl
  · split_ifs
    · rfl
    · rfl
    · exact htable

/-- Closing a tag of the body does not touch the header. -/
theorem header_closeTag (tag : String) : header (closeTag tag st) = header st := by
  unfold closeTag closeTableTag
  split_ifs
  · unfold closeHeading
    dsimp only
    split_ifs <;> rfl
  · unfold closeParagraph
    split <;> rfl
  · unfold closeFact
    split <;> rfl
  · exact header_onTable _
  · exact header_onTable _
  · exact header_onTable _
  · unfold closeTable
    split <;> rfl
  · rfl

/-- An opening tag of the header starts a context, or changes no table. -/
theorem headerOk_startHeaderTag (tag : String) (attrs : List (String × Option String))
    (h : HeaderOk st) :
    HeaderOk (startHeaderTag tag attrs st) := by
  unfold startHeaderTag
  split_ifs
  · exact ⟨h.contexts, h.units, isDims_nil⟩
  all_goals exact ⟨h.contexts, h.units, h.dims⟩

/-- A given attribute is not empty. -/
theorem given_ne {text : Option String} {s : String} (h : given text = some s) : s ≠ "" := by
  rw [given, Option.filter_eq_some_iff] at h
  simpa using h.2

/-- The dimensions with a member that was captured. -/
theorem isDims_captured {d : Dict String (List Char)} {dimension : Option String} {cs : List Char}
    (hd : filing.IsDims d) :
    filing.IsDims (match given dimension with
      | some dimension => if PyText.strip cs = [] then d else d.set dimension (PyText.strip cs)
      | none => d) := by
  cases hgiven : given dimension with
  | none => exact hd
  | some dimension =>
      dsimp only
      split_ifs with hcs
      · exact hd
      · exact isDims_set hd (given_ne hgiven) (solid_strip hcs)

/-- The units with a measure that was captured. -/
theorem solid_captured {units : Dict String (List Char)} {id : Option String} {cs : List Char}
    (hunits : ∀ id measure, units.get? id = some measure → Solid Blank measure) :
    ∀ key measure, Dict.get? (match given id with
      | some unit => if PyText.strip cs = [] then units else units.set unit (PyText.strip cs)
      | none => units) key = some measure → Solid Blank measure := by
  cases given id with
  | none => exact hunits
  | some unit =>
      dsimp only
      split_ifs with hcs
      · exact hunits
      · intro key measure hget
        rw [Dict.get?_set] at hget
        split_ifs at hget
        · rw [← Option.some.inj hget]
          exact solid_strip hcs
        · exact hunits key measure hget

/-- The contexts with one that is closed. -/
theorem isDims_context {contexts : Dict String XbrlContext} {id : Option String}
    {context : String → XbrlContext}
    (hcontexts : ∀ id context, contexts.get? id = some context → filing.IsDims context.dimensions)
    (hcontext : ∀ id, filing.IsDims (context id).dimensions) :
    ∀ key c, Dict.get? (match given id with
      | some id => contexts.set id (context id)
      | none => contexts) key = some c → filing.IsDims c.dimensions := by
  cases given id with
  | none => exact hcontexts
  | some id =>
      intro key c hget
      rw [Dict.get?_set] at hget
      split_ifs at hget
      · rw [← Option.some.inj hget]
        exact hcontext id
      · exact hcontexts key c hget

/-- A closing tag of the header enters a member, a measure or a context. -/
theorem headerOk_endHeaderTag {repr : String → String} {tag : String} (h : HeaderOk st)
    (hstep : endHeaderTag repr tag st = .ok st') : HeaderOk st' := by
  have hperiod : ∀ kind captured, endPeriodTag repr kind captured st = .ok st' → HeaderOk st' := by
    intro kind captured hstep
    unfold endPeriodTag at hstep
    split at hstep
    · rw [← Except.ok.inj hstep]
      exact ⟨h.contexts, h.units, h.dims⟩
    · cases hstep
  unfold endHeaderTag at hstep
  by_cases h1 : tag = "xbrli:instant"
  · rw [if_pos h1] at hstep
    exact hperiod _ _ hstep
  · rw [if_neg h1] at hstep
    by_cases h2 : tag = "xbrli:startdate"
    · rw [if_pos h2] at hstep
      exact hperiod _ _ hstep
    · rw [if_neg h2] at hstep
      by_cases h3 : tag = "xbrli:enddate"
      · rw [if_pos h3] at hstep
        exact hperiod _ _ hstep
      · rw [if_neg h3] at hstep
        by_cases h4 : tag = "xbrldi:explicitmember"
        · rw [if_pos h4] at hstep
          rw [← Except.ok.inj hstep]
          exact ⟨h.contexts, h.units, isDims_captured h.dims⟩
        · rw [if_neg h4] at hstep
          by_cases h5 : tag = "xbrli:measure"
          · rw [if_pos h5] at hstep
            rw [← Except.ok.inj hstep]
            exact ⟨h.contexts, solid_captured h.units, h.dims⟩
          · rw [if_neg h5] at hstep
            by_cases h6 : tag = "xbrli:context"
            · rw [if_pos h6] at hstep
              rw [← Except.ok.inj hstep]
              exact ⟨isDims_context h.contexts fun _ => h.dims, h.units, h.dims⟩
            · rw [if_neg h6] at hstep
              by_cases h7 : tag = "xbrli:unit"
              · rw [if_pos h7] at hstep
                rw [← Except.ok.inj hstep]
                exact ⟨h.contexts, h.units, h.dims⟩
              · rw [if_neg h7] at hstep
                rw [← Except.ok.inj hstep]
                exact h

/-- **An event keeps the tables of the header.** -/
theorem headerOk_step {repr : String → String} {e : Event} (h : HeaderOk st)
    (hstep : step repr st e = .ok st') :
    HeaderOk st' := by
  cases e with
  | startTag tag attrs =>
      rw [← Except.ok.inj hstep, handleStartTag]
      split_ifs
      · exact ⟨h.contexts, h.units, h.dims⟩
      · exact headerOk_startHeaderTag tag attrs h
      · exact h.of_header ((header_openTag tag attrs).trans (header_newlineIf _))
  | endTag tag =>
      rw [step, handleEndTag] at hstep
      split_ifs at hstep
      · rw [← Except.ok.inj hstep]
        exact ⟨h.contexts, h.units, h.dims⟩
      · exact headerOk_endHeaderTag h hstep
      · rw [← Except.ok.inj hstep]
        exact h.of_header ((header_newlineIf _).trans (header_closeTag tag))
  | data text =>
      rw [← Except.ok.inj hstep, handleData]
      split_ifs
      · exact ⟨h.contexts, h.units, h.dims⟩
      · exact h
      · exact h.of_header ((header_appendData text).trans (header_onTable _))

theorem headerOk_init : HeaderOk {} where
  contexts _ _ h := by cases h
  units _ _ h := by cases h
  dims := isDims_nil

/-- **Every fed document** has a header in order. -/
theorem headerOk_feed {repr : String → String} {events : List Event}
    (h : feed repr events = .ok st) : HeaderOk st :=
  Except.foldlM_ok_run (fun _ st => HeaderOk st) (fun _ _ _ _ _ _ hinv hstep =>
    headerOk_step hinv hstep) headerOk_init h

/-- A fact of a document has a concept. -/
theorem concept_ne_addFact {uuid5 repr : String → String} {sha256Hex : List Char → String}
    {seed : String} {text : List Char}
    {contexts : Dict String XbrlContext} {units : Dict String (List Char)} {c c' : Collected}
    {raw : RawFactState}
    (h : ∀ f ∈ c.facts, f.concept ≠ "")
    (hadd : addFact uuid5 sha256Hex repr seed text contexts units c raw = .ok c') :
    ∀ f ∈ c'.facts, f.concept ≠ "" := by
  unfold addFact at hadd
  dsimp only at hadd
  split_ifs at hadd
  · rw [← Except.ok.inj hadd]
    exact h
  · obtain ⟨⟨concept, contextRef, unitRef⟩, hrefs, hadd⟩ := Except.bind_eq_ok_iff.mp hadd
    obtain ⟨_, -, hadd⟩ := Except.bind_eq_ok_iff.mp hadd
    obtain ⟨_, -, hadd⟩ := Except.bind_eq_ok_iff.mp hadd
    obtain ⟨scale, -, hadd⟩ := Except.bind_eq_ok_iff.mp hadd
    have hconcept : concept ≠ "" := by
      unfold requireRefs at hrefs
      split at hrefs
      · rename_i hname _ _
        rw [Except.ok.injEq, Prod.mk.injEq] at hrefs
        exact hrefs.1 ▸ given_ne hname
      · cases hrefs
    have hspan : ∀ c : Collected, ∀ sectionIndex start stop,
        (addSpan uuid5 sha256Hex seed text sectionIndex start stop c).facts = c.facts := by
      intro c sectionIndex start stop
      unfold addSpan
      split <;> rfl
    rw [← Except.ok.inj hadd]
    intro f hf
    rcases List.mem_append.mp hf with hf | hf
    · rw [hspan] at hf
      exact h f hf
    · rw [List.mem_singleton.mp hf]
      exact hconcept

/-- **What `parse_filing` produces** are parts of a fact of a filing. -/
theorem exists_filing_fact {uuid5 repr : String → String} {sha256Hex : List Char → String}
    {seed contentHash : String} {events : List Event}
    {parsed : ParsedDocument}
    (hparse : parseFiling uuid5 sha256Hex repr seed contentHash events = .ok parsed)
    {fact : InlineFact} (hfact : fact ∈ parsed.facts) {o : Occurrence}
    (ho : inlineOccurrence repr parsed fact = .ok o) :
    ∃ f : filing.Fact, f.concept = o.concept ∧ f.unit = o.unit ∧ f.period = o.period ∧
    f.dimensions = o.dimensions := by
  obtain ⟨st, hfeed, hfinish⟩ := Except.bind_eq_ok_iff.mp hparse
  have hok := headerOk_feed hfeed
  unfold finish at hfinish
  obtain ⟨_, -, hfinish⟩ := Except.bind_eq_ok_iff.mp hfinish
  obtain ⟨c, hc, hfinish⟩ := Except.bind_eq_ok_iff.mp hfinish
  have hconcepts : ∀ f ∈ c.facts, f.concept ≠ "" :=
    Except.foldlM_ok_run (fun _ c => ∀ f ∈ c.facts, f.concept ≠ "")
      (fun _ _ _ _ _ _ hinv hstep => concept_ne_addFact hinv hstep) (fun f hf => by cases hf) hc
  obtain rfl := Except.ok.inj hfinish
  obtain ⟨context, hcontext, ho⟩ := Except.bind_eq_ok_iff.mp ho
  obtain ⟨measure, hmeasure, ho⟩ := Except.bind_eq_ok_iff.mp ho
  obtain ⟨value, -, ho⟩ := Except.bind_eq_ok_iff.mp ho
  obtain ⟨period, -, ho⟩ := Except.bind_eq_ok_iff.mp ho
  rw [← Except.ok.inj ho]
  have hne : fact.concept.toList ≠ [] :=
    fun hnil => hconcepts fact hfact (String.toList_eq_nil_iff.mp hnil)
  have hunit := hok.units _ _ (Except.orRaise_eq_ok_iff.mp hmeasure)
  have hdims := hok.contexts _ _ (Except.orRaise_eq_ok_iff.mp hcontext)
  exact ⟨⟨fact.concept, mapUnit measure, period, context.dimensions, hne, ⟨measure, hunit, rfl⟩,
    hdims⟩, rfl, rfl, rfl, rfl⟩

/-! ## What a filing can say -/

/-- An element of the header with a text. -/
def textElement (tag : String) (attrs : List (String × Option String)) (text : List Char) :
    List Event :=
  [.startTag tag attrs, .data (String.ofList text), .endTag tag]

def periodElements : Period → List Event
  | .instant day => textElement "xbrli:instant" [] day.isoFormat
  | .duration start stop =>
      textElement "xbrli:startdate" [] start.isoFormat
        ++ textElement "xbrli:enddate" [] stop.isoFormat

def memberElements (dimensions : Dict String (List Char)) : List Event :=
  dimensions.flatMap fun kv => textElement "xbrldi:explicitmember" [("dimension", some kv.1)] kv.2

/-- A filing that reports a figure for one period, with dimensions and a measure. -/
def reportOf (concept : String) (measure : List Char) (period : Period)
    (dimensions : Dict String (List Char)) :
    List Event :=
  [.startTag "ix:header" [], .startTag "xbrli:context" [("id", some "c")]] ++ periodElements period
    ++ memberElements dimensions
      ++ [.endTag "xbrli:context", .startTag "xbrli:unit" [("id", some "u")]]
    ++ textElement "xbrli:measure" [] measure ++ [.endTag "xbrli:unit", .endTag "ix:header"]
    ++ [.startTag "ix:nonfraction" [("name", some concept), ("contextref", some "c"),
      ("unitref", some "u")],
      .data "1", .endTag "ix:nonfraction"]

theorem strip_of_solid {cs : List Char} (h : Solid Blank cs) : PyText.strip cs = cs := by
  have hstarts : cs.dropWhile PyText.isSpace = cs := by
    obtain ⟨c, cs, rfl⟩ := List.exists_cons_of_ne_nil h.ne
    rw [List.dropWhile_cons_of_neg]
    exact h.starts c rfl
  have hends : cs.rdropWhile PyText.isSpace = cs := by
    obtain ⟨cs, c, rfl⟩ := List.eq_nil_or_concat cs |>.resolve_left h.ne
    rw [List.concat_eq_append] at h ⊢
    exact List.rdropWhile_concat_neg _ _ _ (h.ends c (by simp))
  have hstrip : PyText.strip cs = (cs.dropWhile PyText.isSpace).rdropWhile PyText.isSpace := rfl
  rw [hstrip, hstarts, hends]

theorem solid_isoFormat (d : Calendar.CivilDate) : Solid Blank d.isoFormat := by
  have hchars : ∀ c ∈ d.isoFormat, ¬ Blank c := by
    intro c hc
    rcases isoFormat_chars d c hc with h | rfl
    · exact isDigit_not_blank h
    · decide
  exact ⟨List.ne_nil_of_mem (List.mem_append_right _ List.mem_cons_self : '-' ∈ d.isoFormat),
    fun c hc => hchars c (List.mem_of_mem_head? hc),
    fun c hc => hchars c (List.mem_of_mem_getLast? hc)⟩

/-- An element of the header: its opening tag, its text, and its closing tag. -/
theorem feed_textElement {repr : String → String} {tag : String}
    {attrs : List (String × Option String)} {text : List Char}
    (htag : tag ≠ "ix:header") (hst : st.inIxHeader = true) {opened : State}
    (hopen : startHeaderTag tag attrs st = opened) (hheader : opened.inIxHeader = true)
    (hcapture : opened.captureKind.isSome = true) :
    (textElement tag attrs text).foldlM (step repr) st
      = endHeaderTag repr tag { opened with captureParts := opened.captureParts ++ [text] } := by
  have h1 : step repr st (.startTag tag attrs) = .ok opened := by
    rw [step, handleStartTag, if_neg htag, if_pos hst, hopen]
  have h2 : step repr opened (.data (String.ofList text))
      = .ok { opened with captureParts := opened.captureParts ++ [text] } := by
    rw [step, handleData, if_pos hheader, if_pos hcapture, String.toList_ofList]
  have h3 : step repr { opened with captureParts := opened.captureParts ++ [text] } (.endTag tag)
      = endHeaderTag repr tag { opened with captureParts := opened.captureParts ++ [text] } := by
    rw [step, handleEndTag, if_neg htag, if_pos hheader]
  rw [textElement, List.foldlM_cons, h1, Except.ok_bind, List.foldlM_cons, h2, Except.ok_bind,
    List.foldlM_cons, h3]
  simp only [List.foldlM_nil, bind_pure]

/-- A member of a context. -/
theorem feed_member {repr : String → String} {kv : String × List Char}
    (hkv : kv.1 ≠ "" ∧ Solid Blank kv.2)
    (hst : st.inIxHeader = true) :
    (textElement "xbrldi:explicitmember" [("dimension", some kv.1)] kv.2).foldlM (step repr) st
      = .ok { st with
          contextDims := st.contextDims.set kv.1 kv.2
          captureKind := none
          captureParts := [kv.2]
          captureDimension := none } := by
  have hgiven : given (some kv.1) = some kv.1 := by simp [given, hkv.1]
  have hparts : PyText.strip ([] ++ [kv.2]).flatten = kv.2 := by
    rw [List.nil_append, List.flatten_singleton, strip_of_solid hkv.2]
  have hopen : startHeaderTag "xbrldi:explicitmember" [("dimension", some kv.1)] st
      =
        { st with captureKind := some "dimension-member", captureParts := [], captureDimension :=
              some kv.1 } := rfl
  rw [feed_textElement (by decide) hst hopen hst rfl]
  simp only [endHeaderTag, String.reduceEq, if_false, if_true, hparts, hgiven, if_neg hkv.2.ne]
  rfl

/-- A date of a context. -/
theorem feed_date (repr : String → String) (tag kind : String) (st : State)
    (htag : tag ≠ "ix:header")
    (hst : st.inIxHeader = true)
    (hopen : startHeaderTag tag [] st = { st with captureKind := some kind, captureParts := [] })
    (hend : ∀ st, endHeaderTag repr tag st = endPeriodTag repr kind
      (PyText.strip st.captureParts.flatten) st)
    (d : Calendar.CivilDate) :
    (textElement tag [] d.isoFormat).foldlM (step repr) st
      = .ok { st with contextPeriod :=
        st.contextPeriod.set kind d, captureKind := none, captureParts := [d.isoFormat] } := by
  rw [feed_textElement htag hst hopen hst rfl, hend, endPeriodTag]
  simp only [List.nil_append, List.flatten_singleton, strip_of_solid (solid_isoFormat d),
    Calendar.fromIsoFormat_isoFormat]

/-- The dates of a context. -/
def periodDates : Period → Dict String Calendar.CivilDate
  | .instant day => [("instant", day)]
  | .duration start stop => [("startdate", start), ("enddate", stop)]

/-- The elements of a period are fed into an open context. -/
theorem feed_period (repr : String → String) (p : Period) (st : State) (hst : st.inIxHeader = true)
    (hperiod : st.contextPeriod = []) :
    ∃ parts, (periodElements p).foldlM (step repr) st
      = .ok { st with contextPeriod := periodDates p, captureKind := none, captureParts :=
        parts } := by
  cases p with
  | instant day =>
      refine ⟨[day.isoFormat], ?_⟩
      rw [periodElements,
        feed_date repr "xbrli:instant" "instant" st (by decide) hst rfl (fun _ => rfl), hperiod]
      rfl
  | duration start stop =>
      refine ⟨[stop.isoFormat], ?_⟩
      have hstop := feed_date repr "xbrli:enddate" "enddate"
        { st with
          contextPeriod := st.contextPeriod.set "startdate" start
          captureKind := none
          captureParts := [start.isoFormat] } (by decide) hst rfl (fun _ => rfl) stop
      rw [periodElements, List.foldlM_append,
        feed_date repr "xbrli:startdate" "startdate" st (by decide) hst rfl (fun _ => rfl),
        Except.ok_bind, hstop, hperiod]
      rfl

/-- The elements of the dimensions are fed into an open context. -/
theorem feed_members (repr : String → String) {dims : Dict String (List Char)}
    (hdims : ∀ kv ∈ dims, kv.1 ≠ "" ∧ Solid Blank kv.2) (st : State) (hst : st.inIxHeader = true)
    (hkind : st.captureKind = none) (hdimension : st.captureDimension = none) :
    ∃ parts, (memberElements dims).foldlM (step repr) st
      = .ok { st with contextDims := Dict.update st.contextDims dims, captureParts := parts } := by
  induction dims generalizing st with
  | nil => exact ⟨st.captureParts, rfl⟩
  | cons kv dims ih =>
      obtain ⟨hkv, hdims⟩ := List.forall_mem_cons.mp hdims
      obtain ⟨parts, hparts⟩ := ih hdims { st with
          contextDims := st.contextDims.set kv.1 kv.2
          captureKind := none
          captureParts := [kv.2]
          captureDimension := none } hst rfl rfl
      refine ⟨parts, ?_⟩
      rw [memberElements, List.flatMap_cons, List.foldlM_append, feed_member hkv hst,
        Except.ok_bind, ← memberElements,
        hparts]
      obtain ⟨⟩ := st
      simp only at hkind hdimension
      subst hkind hdimension
      rfl

/-- The attributes of the figure. -/
def figureAttrs (concept : String) : FactAttrs :=
  ⟨some concept, some "c", some "u", none, none, none, none, none⟩

/-- The context of the figure. -/
def figureContext (period : Period) (dimensions : Dict String (List Char)) : XbrlContext :=
  ⟨"c", (periodDates period).get? "instant", (periodDates period).get? "startdate",
    (periodDates period).get? "enddate",
    dimensions⟩

/-- The context of a figure has its period. -/
theorem periodOf_figureContext (period : Period) (dimensions : Dict String (List Char)) :
    periodOf (figureContext period dimensions) = some period := by
  cases period <;> rfl

/-- The state behind the header of the report. -/
def headerRead (measure : List Char) (period : Period) (dimensions : Dict String (List Char)) :
    State where
  contexts := [("c", figureContext period dimensions)]
  units := [("u", measure)]
  contextPeriod := periodDates period
  contextDims := dimensions
  captureParts := [measure]

/-- The state behind the figure. -/
def figureRead (concept : String) (measure : List Char) (period : Period)
    (dimensions : Dict String (List Char)) : State :=
  { headerRead measure period dimensions with
    parts := [['1']]
    pos := 1
    rawFacts := [⟨figureAttrs concept, 0, 1, 0⟩] }

/-- The walk over the report. -/
theorem feed_reportOf {repr : String → String} {concept : String} {measure : List Char}
    {period : Period}
    {dimensions : Dict String (List Char)} (hmeasure : Solid Blank measure)
    (hdims : filing.IsDims dimensions) :
    feed repr (reportOf concept measure period dimensions)
    = .ok (figureRead concept measure period dimensions) := by
  have hupdate : Dict.update [] dimensions = dimensions :=
    Dict.update_of_disjoint hdims.1 (by simp [Dict.keys])
  -- the opening of the header and of the context
  have hstart :
      [Event.startTag "ix:header" [], .startTag "xbrli:context" [("id", some "c")]].foldlM
      (step repr) {}
      = .ok { inIxHeader := true, contextId := some "c" } := rfl
  -- the period and the dimensions
  obtain ⟨parts, hperiod⟩ :=
    feed_period repr period { inIxHeader := true, contextId := some "c" } rfl rfl
  obtain ⟨parts', hmembers⟩ := feed_members repr hdims.2
    { inIxHeader := true, contextId := some "c", contextPeriod :=
    periodDates period, captureParts := parts } rfl rfl rfl
  rw [hupdate] at hmembers
  have hcontext :
      [Event.endTag "xbrli:context", .startTag "xbrli:unit" [("id", some "u")]].foldlM (step repr)
      { inIxHeader := true, contextId := some "c", contextPeriod :=
        periodDates period, contextDims := dimensions,
        captureParts := parts' }
      = .ok { headerRead measure period dimensions with
          inIxHeader := true, units := [], unitId := some "u", captureParts := parts' } := rfl
  -- the unit
  have hunit : (textElement "xbrli:measure" [] measure).foldlM (step repr)
      { headerRead measure period dimensions with
        inIxHeader := true, units := [], unitId := some "u", captureParts := parts' }
      = .ok { headerRead measure period dimensions
        with inIxHeader := true, unitId := some "u" } := by
    rw [feed_textElement (by decide) rfl rfl rfl rfl]
    have hparts : PyText.strip ([] ++ [measure]).flatten = measure := by
      rw [List.nil_append, List.flatten_singleton, strip_of_solid hmeasure]
    have hgiven : given (some "u") = some "u" := rfl
    simp only [startHeaderTag, endHeaderTag, String.reduceEq, if_false, if_true, hparts, hgiven,
      if_neg hmeasure.ne]
    rfl
  -- the end of the header
  have hheader : [Event.endTag "xbrli:unit", .endTag "ix:header"].foldlM (step repr)
      { headerRead measure period dimensions with inIxHeader := true, unitId := some "u" }
      = .ok (headerRead measure period dimensions) := rfl
  -- the figure
  have hopen : step repr (headerRead measure period dimensions)
      (.startTag "ix:nonfraction" [("name", some concept), ("contextref", some "c"),
        ("unitref", some "u")])
      = .ok { headerRead measure period dimensions with factStack := [(figureAttrs concept, 0)] } :=
        rfl
  have hdata :
      step repr { headerRead measure period dimensions with factStack :=
        [(figureAttrs concept, 0)] } (.data "1")
      = .ok { headerRead measure period dimensions with
          parts := [['1']], pos := 1, factStack := [(figureAttrs concept, 0)] } := by
    have hwords : PyText.joinWords "1" = ['1'] := by decide
    rw [step, handleData, onTable, appendData]
    simp [hwords, append, headerRead]
  have hclose : step repr { headerRead measure period dimensions with
      parts := [['1']], pos := 1, factStack := [(figureAttrs concept, 0)] }
        (.endTag "ix:nonfraction")
      = .ok (figureRead concept measure period dimensions) := rfl
  rw [feed, reportOf, List.foldlM_append, List.foldlM_append, List.foldlM_append,
    List.foldlM_append, List.foldlM_append,
    List.foldlM_append, hstart, Except.ok_bind, hperiod, Except.ok_bind, hmembers,
    Except.ok_bind, hcontext,
    Except.ok_bind, hunit, Except.ok_bind, hheader, Except.ok_bind, List.foldlM_cons,
    hopen, Except.ok_bind,
    List.foldlM_cons, hdata, Except.ok_bind, List.foldlM_cons, hclose]
  rfl

/-- The figure of the report. -/
def figureFact (uuid5 : String → String) (seed concept : String) : InlineFact where
  concept := concept
  contextRef := "c"
  unitRef := "u"
  scale := 0
  decimals := none
  sign := none
  format := none
  rawText := ['1']
  spanId := uuid5 (spanName seed 0 1)
  sectionId := uuid5 (sectionName seed 0)
  startChar := 0
  endChar := 1

theorem parseFactValue_figureFact (uuid5 repr : String → String) (seed concept : String) :
    parseFactValue repr (figureFact uuid5 seed concept) = .ok ⟨false, 1, 0⟩ := by
  have hclosed : magnitude? (figureFact id "" "") = some ⟨false, 1, 0⟩ := by decide
  have hm : magnitude? (figureFact uuid5 seed concept) = some ⟨false, 1, 0⟩ := hclosed
  have hscaled : scaled false false 0 ⟨false, 1, 0⟩ = .ok ⟨false, 1, 0⟩ := by decide
  have hplain : isNegative (PyText.strip ['1']) = false := by decide
  rw [parseFactValue_eq hm, handled_eq_ok_iff]
  exact hplain ▸ hscaled

/-- The document of the report. -/
theorem finish_figureRead (uuid5 repr : String → String) (sha256Hex : List Char → String)
    (seed contentHash : String)
    {concept : String} (hconcept : concept ≠ "") (measure : List Char) (period : Period)
    (dimensions : Dict String (List Char)) :
    ∃ parsed, finish uuid5 sha256Hex repr seed contentHash
    (figureRead concept measure period dimensions) = .ok parsed
      ∧ parsed.facts = [figureFact uuid5 seed concept]
      ∧ parsed.contexts = [("c", figureContext period dimensions)]
      ∧ parsed.units = [("u", measure)] := by
  have htrim : trimRange ['1'] 0 1 = (0, 1) := by decide
  have hgiven : given (some concept) = some concept := by simp [given, hconcept]
  have hrefs : requireRefs (figureAttrs concept) 0 1 = .ok (concept, "c", "u") := by
    unfold requireRefs figureAttrs
    rw [hgiven]
    rfl
  have hnil : (figureAttrs concept).isNil = false := by
    have hclosed : (figureAttrs "").isNil = false := by decide
    exact hclosed
  -- the figure becomes a fact with the one span
  have hadd :
      addFact uuid5 sha256Hex repr seed ['1'] [("c", figureContext period dimensions)]
        [("u", measure)]
      { spans := [], spanByRange := [] } ⟨figureAttrs concept, 0, 1, 0⟩
      = .ok { spans := [makeSpan uuid5 sha256Hex seed ['1'] 0 0 1],
              spanByRange := [((0, 1), uuid5 (spanName seed 0 1))],
              facts := [figureFact uuid5 seed concept] } := by
    unfold addFact
    simp only [htrim, hnil, hrefs]
    rfl
  -- the text is not empty
  have hraise : Except.raiseIf (PyText.strip ['1'] = []) (⟨.emptyDocument,
      "no textual content found after parsing; the source is likely truncated or not an HTML filing"⟩ : ParseError)
      = .ok () := by
    rw [Except.raiseIf_eq_ok_iff]
    decide
  refine ⟨⟨contentHash, "fel-parser/1.0.0", ['1'], makeSections uuid5 seed ['1'] [rootSection],
    [makeSpan uuid5 sha256Hex seed ['1'] 0 0 1], [], [("c", figureContext period dimensions)],
    [("u", measure)],
    [figureFact uuid5 seed concept], []⟩, ?_, rfl, rfl, rfl⟩
  have hfold : (orderedFacts (figureRead concept measure period dimensions).rawFacts).foldlM
      (addFact uuid5 sha256Hex repr seed ['1'] [("c", figureContext period dimensions)]
      [("u", measure)])
      { spans := [], spanByRange := [] }
      = .ok { spans := [makeSpan uuid5 sha256Hex seed ['1'] 0 0 1],
              spanByRange := [((0, 1), uuid5 (spanName seed 0 1))],
              facts := [figureFact uuid5 seed concept] } := by
    rw [show orderedFacts (figureRead concept measure period dimensions).rawFacts
      = [⟨figureAttrs concept, 0, 1, 0⟩] from rfl,
      List.foldlM_cons, hadd]
    rfl
  have htext : (figureRead concept measure period dimensions).canonicalText = ['1'] := rfl
  unfold finish
  simp only [htext, hraise, Except.ok_bind]
  exact (congrArg (· >>= _) hfold).trans rfl

/-- **Every fact of a filing is produced**: some filing reports a figure with its parts. -/
theorem exists_filing_of_fact (uuid5 repr : String → String) (sha256Hex : List Char → String)
    (seed contentHash : String)
    (f : filing.Fact) :
    ∃ events parsed fact o, parseFiling uuid5 sha256Hex repr seed contentHash events = .ok parsed
      ∧ fact ∈ parsed.facts ∧ inlineOccurrence repr parsed fact = .ok o
      ∧ f.concept = o.concept ∧ f.unit = o.unit ∧ f.period = o.period
      ∧ f.dimensions = o.dimensions := by
  obtain ⟨measure, hmeasure, hunit⟩ := f.isUnit
  have hconcept : f.concept ≠ "" := fun h => f.isConcept (String.toList_eq_nil_iff.mpr h)
  have hfeed : feed repr (reportOf f.concept measure f.period f.dimensions)
      = .ok (figureRead f.concept measure f.period f.dimensions) := feed_reportOf hmeasure f.isDims
  obtain ⟨parsed, hfinish, hfacts, hcontexts, hunits⟩ :=
    finish_figureRead uuid5 repr sha256Hex seed contentHash hconcept measure f.period f.dimensions
  have hcontext : parsed.contexts.get? "c" = some (figureContext f.period f.dimensions) := by
    rw [hcontexts]; rfl
  have hmeasured : parsed.units.get? "u" = some measure := by rw [hunits]; rfl
  refine ⟨reportOf f.concept measure f.period f.dimensions, parsed, figureFact uuid5 seed f.concept,
    ⟨f.concept, none, mapUnit measure, f.period, f.dimensions, ⟨false, 1, 0⟩,
    uuid5 (spanName seed 0 1)⟩, ?_, ?_, ?_,
    rfl, hunit.symm, rfl, rfl⟩
  · rw [parseFiling, hfeed, Except.ok_bind, hfinish]
  · rw [hfacts]
    exact List.mem_singleton_self _
  · rw [inlineOccurrence, parseFactValue_figureFact]
    simp only [figureFact, hcontext, hmeasured, Except.orRaise, Except.ok_bind,
      periodOf_figureContext, Except.pure_eq_ok]
    rfl

end Parser

end Xbrl
