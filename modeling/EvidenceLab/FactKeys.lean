/-
# The keys of facts

The key of a fact joins its concept, unit, period and dimensions with bars, semicolons and equality
signs, and escapes none of them.  The parts are texts of the source: of a filing, where units and
members are stripped, or of a snapshot, where the dimensions have fixed names.

`keys_identify_iff` says which facts share their key with no other fact that the source can report.
-/
import EvidenceLab.Borders
import EvidenceLab.XbrlFacts

namespace Xbrl

open Delimited (StartsSolid EndsSolid Solid border_cases border_of_not_mem border_unique
  border_cases_of_ne
  startsSolid_border endsSolid_border startsSolid_of_border)

/-- A blank of Python. -/
abbrev Blank (c : Char) : Prop := PyText.isSpace c = true

/-! ## Dates -/

/-- A date is written in digits and hyphens. -/
theorem isoFormat_chars (d : Calendar.CivilDate) :
    ∀ c ∈ d.isoFormat, c.isDigit = true ∨ c = '-' := by
  intro c hc
  simp only [Calendar.CivilDate.isoFormat, List.mem_append, List.mem_cons] at hc
  rcases hc with hc | rfl | hc | rfl | hc
  · exact .inl (Calendar.padded_digits _ _ c hc)
  · exact .inr rfl
  · exact .inl (Calendar.padded_digits _ _ c hc)
  · exact .inr rfl
  · exact .inl (Calendar.padded_digits _ _ c hc)

/-- A date can be read off its text. -/
theorem isoFormat_inj {d d' : Calendar.CivilDate} (h : d.isoFormat = d'.isoFormat) : d = d' := by
  have hread := Calendar.fromIsoFormat_isoFormat d
  rw [h, Calendar.fromIsoFormat_isoFormat] at hread
  exact (Option.some.inj hread).symm

/-- The characters of a period. -/
def isStampChar (c : Char) : Bool :=
  c.isDigit || ['-', ':', 'i', 'n', 's', 't', 'a', 'd', 'u', 'r', 'o'].contains c

theorem instant_toList : "instant:".toList = ['i', 'n', 's', 't', 'a', 'n', 't', ':'] := by
    decide

theorem duration_toList : "duration:".toList = ['d', 'u', 'r', 'a', 't', 'i', 'o', 'n', ':'] := by
    decide

/-- A period is written in the characters of a stamp. -/
theorem repr_chars (p : Period) : ∀ c ∈ p.repr, isStampChar c = true := by
  have hdate : ∀ d : Calendar.CivilDate, ∀ c ∈ d.isoFormat, isStampChar c = true := by
    intro d c hc
    rcases isoFormat_chars d c hc with h | rfl
    · rw [isStampChar, h, Bool.true_or]
    · decide
  have hinstant : ∀ c ∈ "instant:".toList, isStampChar c = true := by
    rw [instant_toList, ← List.all_eq_true]
    rfl
  have hduration : ∀ c ∈ "duration:".toList, isStampChar c = true := by
    rw [duration_toList, ← List.all_eq_true]
    rfl
  intro c hc
  cases p with
  | instant day =>
      rcases List.mem_append.mp hc with hc | hc
      · exact hinstant c hc
      · exact hdate day c hc
  | duration start stop =>
      rcases List.mem_append.mp hc with hc | hc
      · exact hduration c hc
      · rcases List.mem_append.mp hc with hc | hc
        · exact hdate start c hc
        · rcases List.mem_cons.mp hc with rfl | hc
          · decide
          · exact hdate stop c hc

theorem not_mem_repr {c : Char} (h : isStampChar c = false) (p : Period) : c ∉ p.repr := by
  intro hmem
  rw [repr_chars p c hmem] at h
  cases h

/-- A period has a hyphen in its text. -/
theorem hyphen_mem_repr (p : Period) : '-' ∈ p.repr := by
  have hdate : ∀ d : Calendar.CivilDate, '-' ∈ d.isoFormat := fun d =>
    List.mem_append_right _ List.mem_cons_self
  cases p with
  | instant day => exact List.mem_append_right _ (hdate day)
  | duration start stop => exact List.mem_append_right _ (List.mem_append_left _ (hdate start))

theorem isDigit_not_blank {c : Char} (h : c.isDigit = true) : ¬ Blank c := by
  rw [Char.isDigit, Bool.and_eq_true, decide_eq_true_iff, decide_eq_true_iff] at h
  have hlow : 48 ≤ c.toNat := h.1
  have hhigh : c.toNat ≤ 57 := h.2
  simp only [Blank, PyText.isSpace, Bool.or_eq_true, Bool.and_eq_true, decide_eq_true_iff,
    beq_iff_eq]
  omega

theorem isStampChar_not_blank {c : Char} (h : isStampChar c = true) : ¬ Blank c := by
  rw [isStampChar, Bool.or_eq_true] at h
  rcases h with h | h
  · exact isDigit_not_blank h
  · have hall :
    ['-', ':', 'i', 'n', 's', 't', 'a', 'd', 'u', 'r', 'o'].all (fun c => !PyText.isSpace c)
    = true := rfl
    have hc := List.all_eq_true.mp hall c (List.contains_iff_mem.mp h)
    simpa using hc

/-- The text of a period begins and ends with a character that is not blank. -/
theorem solid_repr (p : Period) : Solid Blank p.repr where
  ne := List.ne_nil_of_mem (hyphen_mem_repr p)
  starts c hc := isStampChar_not_blank (repr_chars p c (List.mem_of_mem_head? hc))
  ends c hc := isStampChar_not_blank (repr_chars p c (List.mem_of_mem_getLast? hc))

/-- An instant and a duration differ in their first word. -/
theorem instant_ne_duration (day start stop : Calendar.CivilDate) :
    (Period.instant day).repr ≠ (Period.duration start stop).repr := by
  intro h
  have htexts : "instant:".toList ++ day.isoFormat = "duration:".toList
    ++ (start.isoFormat ++ ':' :: stop.isoFormat) := h
  rw [instant_toList, duration_toList] at htexts
  have hhead := (List.cons.inj htexts).1
  cases hhead

/-- A period is known by its text. -/
theorem repr_inj {p p' : Period} (h : p.repr = p'.repr) : p = p' := by
  have hcolon : ∀ d : Calendar.CivilDate, ':' ∉ d.isoFormat := by
    intro d hmem
    rcases isoFormat_chars d _ hmem with h | h
    · exact absurd h (by decide)
    · exact absurd h (by decide)
  cases p with
  | instant day =>
      cases p' with
      | instant day' =>
          have hday : day.isoFormat = day'.isoFormat := List.append_cancel_left h
          rw [isoFormat_inj hday]
      | duration start stop => exact absurd h (instant_ne_duration day start stop)
  | duration start stop =>
      cases p' with
      | instant day => exact absurd h.symm (instant_ne_duration day start stop)
      | duration start' stop' =>
          have hdates : start.isoFormat ++ ':' :: stop.isoFormat = start'.isoFormat ++ ':'
              :: stop'.isoFormat :=
            List.append_cancel_left h
          obtain ⟨hstart, hstop⟩ := border_unique (hcolon start) (hcolon start') hdates
          rw [isoFormat_inj hstart, isoFormat_inj hstop]

/-! ## Units -/

/-- Characters that lowering keeps are found in the lowered text. -/
theorem mem_lower {c : Char} (hc : c ≠ '\u212A' ∧ c ≠ '\u0130' ∧ c.toLower = c) {text : List Char}
    (h : c ∈ text) :
    c ∈ PyText.lower (String.ofList text) := by
  rw [PyText.lower, String.toList_ofList, List.mem_flatMap]
  refine ⟨c, h, ?_⟩
  rw [if_neg hc.1, if_neg hc.2.1, hc.2.2]
  exact List.mem_singleton_self c

/-- A measure with a sign that no registered measure has stands for itself. -/
theorem mapUnit_of_mem {c : Char} (hc : c ≠ '\u212A' ∧ c ≠ '\u0130' ∧ c.toLower = c)
    (hkeys : unitMeasures.all (fun kv => !kv.1.toList.contains c) = true) {text : List Char}
    (h : c ∈ text) :
    mapUnit text = text := by
  have hnone : unitMeasures.get? (String.ofList (PyText.lower (String.ofList text))) = none := by
    rw [Dict.get?_eq_none_iff]
    intro hmem
    obtain ⟨kv, hkv, hkey⟩ := List.mem_map.mp hmem
    have hno := List.all_eq_true.mp hkeys kv hkv
    rw [hkey, String.toList_ofList] at hno
    simp [mem_lower hc h] at hno
  rw [mapUnit, hnone, Option.getD_none]

/-- A unit with a bar is no measure of the table. -/
theorem mapUnit_of_bar {text : List Char} (h : '|' ∈ text) : mapUnit text = text :=
  mapUnit_of_mem (by decide) (by decide) h

/-- The text of a period is no measure of the table. -/
theorem mapUnit_repr (p : Period) : mapUnit p.repr = p.repr :=
  mapUnit_of_mem (by decide) (by decide) (hyphen_mem_repr p)

/-- The unit of a stripped measure has no blank at an end. -/
theorem solid_mapUnit {measure : List Char} (h : Solid Blank measure) :
    Solid Blank (mapUnit measure) := by
  rw [mapUnit]
  cases hget : unitMeasures.get? (String.ofList (PyText.lower (String.ofList measure))) with
  | none => exact h
  | some unit =>
      have hall : unitMeasures.all (fun kv => kv.2 != [] && kv.2.all fun c => !PyText.isSpace c)
          = true := by
        decide
      have hunit := List.all_eq_true.mp hall _ (Dict.mem_of_get? hget)
      rw [Bool.and_eq_true, bne_iff_ne] at hunit
      have hchars : ∀ c ∈ unit, ¬ Blank c := by
        intro c hc
        simpa using List.all_eq_true.mp hunit.2 c hc
      exact ⟨hunit.1, fun c hc => hchars c (List.mem_of_mem_head? hc),
        fun c hc => hchars c (List.mem_of_mem_getLast? hc)⟩

/-! ## Dimensions -/

/-- `name=member`. -/
def entryText (kv : String × List Char) : List Char := kv.1.toList ++ '=' :: kv.2

/-- Entries with semicolons between them. -/
def joined (es : List (String × List Char)) : List Char := [';'].intercalate (es.map entryText)

/-- Dimensions are written in the order of their names. -/
theorem dimsRepr_eq (d : Dict String (List Char)) :
    dimsRepr d = joined (StableSort.sortBy Prod.fst d) := rfl

@[simp] theorem joined_nil : joined [] = [] := rfl

@[simp] theorem joined_singleton (kv : String × List Char) : joined [kv] = entryText kv := by
  simp [joined, List.intercalate]

/-- A semicolon stands between two dimensions. -/
theorem joined_cons (kv : String × List Char) {es : List (String × List Char)} (h : es ≠ []) :
    joined (kv :: es) = entryText kv ++ ';' :: joined es := by
  obtain ⟨e, es, rfl⟩ := List.exists_cons_of_ne_nil h
  simp [joined, List.intercalate]

/-- A text of entries ends with the value of one. -/
theorem joined_last (kv : String × List Char) (es : List (String × List Char)) :
    ∃ q k r, joined (kv :: es) = q ++ '=' :: r ∧ (k, r) ∈ kv :: es
      ∧ ((es = [] ∧ q = kv.1.toList ∧ r = kv.2) ∨ ∃ x,
        q = kv.1.toList ++ '=' :: (kv.2 ++ ';' :: x)) := by
  induction es generalizing kv with
  | nil => exact ⟨_, kv.1, kv.2, joined_singleton kv, List.mem_singleton_self _,
      .inl ⟨rfl, rfl, rfl⟩⟩
  | cons e es ih =>
      obtain ⟨q, k, r, htext, hmem, -⟩ := ih e
      refine ⟨entryText kv ++ ';' :: q, k, r, ?_, List.mem_cons_of_mem _ hmem, .inr ⟨q, ?_⟩⟩
      · rw [joined_cons kv (List.cons_ne_nil e es), htext, List.append_assoc, List.cons_append]
      · rw [entryText, List.append_assoc, List.cons_append]

theorem joined_ne_nil {es : List (String × List Char)} (h : es ≠ []) : joined es ≠ [] := by
  obtain ⟨e, es, rfl⟩ := List.exists_cons_of_ne_nil h
  obtain ⟨q, k, r, htext, -⟩ := joined_last e es
  rw [htext]
  simp

/-- Only no dimensions are written as the empty text. -/
theorem dimsRepr_eq_nil_iff {d : Dict String (List Char)} : dimsRepr d = [] ↔ d = [] := by
  constructor
  · intro h
    by_contra hd
    exact joined_ne_nil (StableSort.sortBy_ne_nil Prod.fst hd) h
  · rintro rfl
    rfl

@[simp] theorem dimsRepr_singleton (kv : String × List Char) : dimsRepr [kv] = entryText kv :=
  joined_singleton kv

/-- Two dictionaries hold the same items. -/
def SameMap (d d' : Dict String (List Char)) : Prop := ∀ k, d.get? k = d'.get? k

/-- The same items are the same list in another order. -/
theorem sameMap_iff_perm {d d' : Dict String (List Char)} (hd : d.keys.Nodup)
    (hd' : d'.keys.Nodup) :
    SameMap d d' ↔ d.Perm d' := by
  rw [List.perm_ext_iff_of_nodup (List.Nodup.of_map _ hd) (List.Nodup.of_map _ hd')]
  have hmem : ∀ {d : Dict String (List Char)}, d.keys.Nodup → ∀ k v, (k, v) ∈ d ↔
      d.get? k = some v :=
    fun hd k v => ⟨Dict.get?_of_mem hd, Dict.mem_of_get?⟩
  constructor
  · rintro h ⟨k, v⟩
    rw [hmem hd, hmem hd', h]
  · intro h k
    refine Option.ext fun v => ?_
    rw [← hmem hd, ← hmem hd', h]

/-- The order of the dimensions does not change their text. -/
theorem dimsRepr_eq_of_perm {d d' : Dict String (List Char)} (hd : d.keys.Nodup) (h : d.Perm d') :
    dimsRepr d = dimsRepr d' := by
  rw [dimsRepr_eq, dimsRepr_eq, StableSort.sortBy_eq_of_perm h fun a ha b hb hkey => ?_]
  exact List.inj_on_of_nodup_map hd ha hb hkey

/-! ## Sources -/

/-- What the facts of a kind of source can have. -/
structure Channel where
  blank : Char → Prop
  IsConcept : List Char → Prop
  IsUnit : List Char → Prop
  IsDims : Dict String (List Char) → Prop
  bar_solid : ¬ blank '|'
  concept_append : ∀ c x, IsConcept c → IsConcept (c ++ '|' :: x)
  unit_starts : ∀ u, IsUnit u → StartsSolid blank u
  unit_ends : ∀ u, IsUnit u → EndsSolid blank u
  unit_of_bar : ∀ u, '|' ∈ u → StartsSolid blank u → EndsSolid blank u → IsUnit u
  unit_of_period : ∀ p : Period, IsUnit p.repr
  nodup : ∀ d, IsDims d → d.keys.Nodup

namespace Channel

variable (ch : Channel)

/-- What the key of a fact is made of. -/
structure Fact where
  concept : String
  unit : List Char
  period : Period
  dimensions : Dict String (List Char)
  isConcept : ch.IsConcept concept.toList
  isUnit : ch.IsUnit unit
  isDims : ch.IsDims dimensions

variable {ch}

def Fact.key (f : ch.Fact) : List Char := factKey f.concept f.unit f.period f.dimensions

/-- The same concept, unit, period and dimensions. -/
structure Fact.Same (f g : ch.Fact) : Prop where
  concept : f.concept = g.concept
  unit : f.unit = g.unit
  period : f.period = g.period
  dimensions : SameMap f.dimensions g.dimensions

/-- The key of a fact is the key of the facts with the same parts. -/
def Fact.Identified (f : ch.Fact) : Prop := ∀ g : ch.Fact, f.key = g.key ↔ f.Same g

/-- The kinds of parts of a key. -/
def kinds (ch : Channel) : Delimited.Parts '|' ch.blank where
  IsFirst := ch.IsConcept
  IsSecond := ch.IsUnit
  IsStamp t := ∃ p : Period, p.repr = t
  IsRest t := ∃ d, ch.IsDims d ∧ dimsRepr d = t
  bar_solid := ch.bar_solid
  first_append := ch.concept_append
  second_starts := ch.unit_starts
  second_ends := ch.unit_ends
  second_of_bar := ch.unit_of_bar
  second_of_stamp := by
    rintro _ ⟨p, rfl⟩
    exact ch.unit_of_period p
  stamp_plain := by
    rintro _ ⟨p, rfl⟩
    exact not_mem_repr rfl p

/-- The parts as they stand in the key. -/
def Fact.reading (f : ch.Fact) : Delimited.Reading Char :=
  ⟨f.concept.toList, f.unit, f.period.repr, dimsRepr f.dimensions⟩

/-- The key of a fact is the text of its reading. -/
theorem Fact.key_eq (f : ch.Fact) : f.key = f.reading.text '|' := rfl

/-- The reading of a fact is valid for its channel. -/
theorem Fact.valid (f : ch.Fact) : ch.kinds.Valid f.reading :=
  ⟨f.isConcept, f.isUnit, ⟨f.period, rfl⟩, ⟨f.dimensions, f.isDims, rfl⟩⟩

/-- Every valid reading is that of a fact. -/
theorem exists_of_valid {r : Delimited.Reading Char} (h : ch.kinds.Valid r) :
    ∃ f : ch.Fact, f.reading = r := by
  obtain ⟨c, u, t, rest⟩ := r
  obtain ⟨hc, hu, ⟨p, hp⟩, ⟨d, hd, hrest⟩⟩ := h
  have hconcept : (String.ofList c).toList = c := String.toList_ofList
  refine ⟨⟨String.ofList c, u, p, d, by rwa [hconcept], hu, hd⟩, ?_⟩
  rw [Fact.reading, Delimited.Reading.mk.injEq]
  exact ⟨hconcept, rfl, hp, hrest⟩

/-- Facts of one identity have one reading. -/
theorem Fact.Same.reading_eq {f g : ch.Fact} (h : f.Same g) : f.reading = g.reading := by
  have hperm := (sameMap_iff_perm (ch.nodup _ f.isDims) (ch.nodup _ g.isDims)).mp h.dimensions
  rw [Fact.reading, Fact.reading, h.concept, h.unit, h.period,
    dimsRepr_eq_of_perm (ch.nodup _ f.isDims) hperm]

/-- The text of the dimensions is also the text of others. -/
def Fact.DimsRecut (f : ch.Fact) : Prop :=
  ∃ d, ch.IsDims d ∧ dimsRepr d = dimsRepr f.dimensions ∧ ¬ SameMap f.dimensions d

/-- **A key identifies a fact** when it has no second reading, and its dimensions have none. -/
theorem Fact.identified_iff (f : ch.Fact) :
    f.Identified ↔ ¬ ch.kinds.Recut f.reading ∧ ¬ f.DimsRecut := by
  constructor
  · intro h
    constructor
    · intro hrecut
      obtain ⟨r, hr, htext, hne⟩ := Delimited.Parts.exists_of_recut f.valid hrecut
      obtain ⟨g, rfl⟩ := exists_of_valid hr
      exact hne (((h g).mp htext.symm).reading_eq).symm
    · rintro ⟨d, hd, htext, hne⟩
      let g : ch.Fact := ⟨f.concept, f.unit, f.period, d, f.isConcept, f.isUnit, hd⟩
      have hkey : f.key = g.key := by
        rw [Fact.key_eq, Fact.key_eq, Fact.reading, Fact.reading, htext]
      exact hne ((h g).mp hkey).dimensions
  · rintro ⟨hrecut, hdims⟩ g
    refine ⟨fun hkey => ?_, fun hsame => by rw [Fact.key_eq, Fact.key_eq, hsame.reading_eq]⟩
    have hreading := (Delimited.Parts.eq_or_recut f.valid g.valid hkey).resolve_right hrecut
    rw [Fact.reading, Fact.reading, Delimited.Reading.mk.injEq] at hreading
    refine ⟨String.toList_injective hreading.1, hreading.2.1, repr_inj hreading.2.2.1, ?_⟩
    by_contra hne
    exact hdims ⟨g.dimensions, g.isDims, hreading.2.2.2.symm, hne⟩

/-- Maps of different sizes differ. -/
theorem not_sameMap_of_length {f : ch.Fact} {d : Dict String (List Char)} (hd : ch.IsDims d)
    (h : f.dimensions.length ≠ d.length) : ¬ SameMap f.dimensions d :=
  fun hsame => h ((sameMap_iff_perm (ch.nodup _ f.isDims) (ch.nodup _ hd)).mp hsame).length_eq

/-- Maps of one entry each differ where the entries do. -/
theorem not_sameMap_singleton {f : ch.Fact} {kv kv' : String × List Char} (hf : f.dimensions = [kv])
    (hd : ch.IsDims [kv']) (h : kv ≠ kv') : ¬ SameMap f.dimensions [kv'] := by
  intro hsame
  have hperm := (sameMap_iff_perm (ch.nodup _ f.isDims) (ch.nodup _ hd)).mp hsame
  rw [hf] at hperm
  exact h (List.perm_singleton.mp hperm |> List.singleton_inj.mp)

/-- Two dimensions or more are also the text of one: the rest stands in the first member. -/
theorem Fact.dimsRecut_of_two (f : ch.Fact) (h : 2 ≤ f.dimensions.length)
    (hmerge : ∀ e es, es ≠ [] → (∀ kv ∈ e :: es, kv ∈ f.dimensions) →
      ch.IsDims [(e.1, e.2 ++ ';' :: joined es)]) :
    f.DimsRecut := by
  have hlength := (StableSort.sortBy_perm Prod.fst f.dimensions).length_eq
  have hmem : ∀ kv ∈ StableSort.sortBy Prod.fst f.dimensions, kv ∈ f.dimensions :=
    fun kv => StableSort.mem_sortBy.mp
  have htext := dimsRepr_eq f.dimensions
  generalize StableSort.sortBy Prod.fst f.dimensions = es at hlength hmem htext
  match es with
  | [] => simp at hlength; omega
  | [e] => simp at hlength; omega
  | e :: e' :: es =>
      have hd := hmerge e (e' :: es) (List.cons_ne_nil _ _) hmem
      refine ⟨_, hd, ?_, not_sameMap_of_length hd (by rw [List.length_singleton]; omega)⟩
      rw [htext, joined_cons e (List.cons_ne_nil _ _), dimsRepr_singleton, entryText, entryText,
        List.append_assoc,
        List.cons_append]

/-- A period stands in the dimensions, with dimensions behind it. -/
def Fact.StampInDims (f : ch.Fact) : Prop :=
  ∃ p : Period, ∃ d, ch.IsDims d ∧ (dimsRepr f.dimensions = p.repr ++ '|' :: dimsRepr d
    ∨ ∃ x, EndsSolid ch.blank x ∧ dimsRepr f.dimensions = x ++ '|' :: (p.repr ++ '|' :: dimsRepr d))

/-- The parts of a fact that its key does not tell apart: a bar in the concept or in the unit is
taken for the border, a second dimension for the end of the first value, and a single dimension has
an ambiguity of its own. -/
def Fact.Ambiguous (One : String → List Char → Prop) (f : ch.Fact) : Prop :=
  (∃ a b, f.concept.toList = a ++ '|' :: b ∧ ch.IsConcept a ∧ StartsSolid ch.blank b)
    ∨ (∃ a b, f.unit = a ++ '|' :: b ∧ ch.IsUnit b)
    ∨ 2 ≤ f.dimensions.length
    ∨ ∃ name value, f.dimensions = [(name, value)] ∧ One name value

/-- **The keys of a kind of source**, after its single dimensions. -/
theorem Fact.identified_iff_of_one {One : String → List Char → Prop} (f : ch.Fact)
    (hmerge : ∀ e es, es ≠ [] → (∀ kv ∈ e :: es, kv ∈ f.dimensions) →
      ch.IsDims [(e.1, e.2 ++ ';' :: joined es)])
    (hone : ∀ name value, f.dimensions = [(name, value)] →
      (f.StampInDims ∨ f.DimsRecut ↔ One name value)) :
    f.Identified ↔ ¬ f.Ambiguous One := by
  have hrecut : ch.kinds.Recut f.reading ↔
      (∃ a b, f.concept.toList = a ++ '|' :: b ∧ ch.IsConcept a ∧ StartsSolid ch.blank b)
      ∨ (∃ a b, f.unit = a ++ '|' :: b ∧ ch.IsUnit b) ∨ f.StampInDims := by
    refine or_congr_right (or_congr_right ?_)
    constructor
    · rintro ⟨_, _, ⟨p, rfl⟩, ⟨d, hd, rfl⟩, h⟩
      exact ⟨p, d, hd, h⟩
    · rintro ⟨p, d, hd, h⟩
      exact ⟨_, _, ⟨p, rfl⟩, ⟨d, hd, rfl⟩, h⟩
  have hdims : f.StampInDims ∨ f.DimsRecut
      ↔ 2 ≤ f.dimensions.length ∨ ∃ name value, f.dimensions = [(name, value)] ∧
        One name value := by
    match hf : f.dimensions with
    | [] =>
        refine iff_of_false ?_ (by simp)
        rintro (⟨p, d, -, h⟩ | ⟨d, -, htext, hne⟩)
        · rw [hf, dimsRepr_eq_nil_iff.mpr rfl] at h
          simp at h
        · rw [hf, dimsRepr_eq_nil_iff.mpr rfl, dimsRepr_eq_nil_iff] at htext
          rw [hf, htext] at hne
          exact hne fun k => rfl
    | [(name, value)] =>
        rw [hone name value hf]
        simp
    | e :: e' :: es =>
        have htwo : 2 ≤ f.dimensions.length := by rw [hf]; simp
        exact iff_of_true (.inr (f.dimsRecut_of_two htwo hmerge)) (.inl (by simp))
  rw [Fact.identified_iff, ← not_or, not_iff_not, hrecut, Fact.Ambiguous, ← hdims,
    or_assoc, or_assoc]

end Channel

/-! ## Filings -/

theorem blank_bar : ¬ Blank '|' := by decide

/-- A unit of a measure begins with a character that is not blank. -/
theorem startsSolid_mapUnit {u : List Char}
    (h : ∃ measure, Solid Blank measure ∧ mapUnit measure = u) : Solid Blank u := by
  obtain ⟨measure, hm, rfl⟩ := h
  exact solid_mapUnit hm

/-- What `parse_filing` can produce: an attribute that is not empty as concept, the unit of a
stripped text, and dimensions with a name and a stripped member. -/
def filing : Channel where
  blank := Blank
  IsConcept c := c ≠ []
  IsUnit u := ∃ measure, Solid Blank measure ∧ mapUnit measure = u
  IsDims d := d.keys.Nodup ∧ ∀ kv ∈ d, kv.1 ≠ "" ∧ Solid Blank kv.2
  bar_solid := blank_bar
  concept_append c x _ := by simp
  unit_starts _ h := (startsSolid_mapUnit h).starts
  unit_ends _ h := (startsSolid_mapUnit h).ends
  unit_of_bar u hbar hstarts hends :=
    ⟨u, ⟨List.ne_nil_of_mem hbar, hstarts, hends⟩, mapUnit_of_bar hbar⟩
  unit_of_period p := ⟨p.repr, solid_repr p, mapUnit_repr p⟩
  nodup _ h := h.1

section Filing

variable {d : Dict String (List Char)} {name : String} {member : List Char}

/-- The text of dimensions of a filing ends with a member. -/
theorem filing_last (hd : filing.IsDims d) (hne : d ≠ []) :
    ∃ q r, dimsRepr d = q ++ '=' :: r ∧ Solid Blank r
      ∧ ((∃ k, k ≠ "" ∧ q = k.toList ∧ d = [(k, r)])
        ∨ ∃ k x, k ≠ [] ∧ StartsSolid Blank x ∧ q = k ++ '=' :: x) := by
  have hmem : ∀ kv ∈ StableSort.sortBy Prod.fst d, kv ∈ d := fun kv => StableSort.mem_sortBy.mp
  have hperm := StableSort.sortBy_perm Prod.fst d
  rw [dimsRepr_eq]
  obtain ⟨e, es, hes⟩ := List.exists_cons_of_ne_nil (StableSort.sortBy_ne_nil Prod.fst hne)
  rw [hes] at hmem hperm ⊢
  obtain ⟨q, k, r, htext, hlast, hq⟩ := joined_last e es
  have he := hd.2 e (hmem e List.mem_cons_self)
  refine ⟨q, r, htext, (hd.2 _ (hmem _ hlast)).2, ?_⟩
  rcases hq with ⟨rfl, rfl, rfl⟩ | ⟨x, rfl⟩
  · exact .inl ⟨e.1, he.1, rfl, List.perm_singleton.mp hperm.symm⟩
  · refine .inr ⟨e.1.toList, _, ?_, (startsSolid_border (by decide)).mpr he.2.starts, rfl⟩
    exact fun hnil => he.1 (String.toList_eq_nil_iff.mp hnil)

/-- The equality sign can stand elsewhere in a dimension. -/
def Split (name : String) (member : List Char) : Prop :=
  (∃ a b, member = a ++ '=' :: b ∧ b ≠ [] ∧ StartsSolid Blank b)
    ∨ ∃ a b, name.toList = a ++ '=' :: b ∧ a ≠ [] ∧ StartsSolid Blank b

/-- Dimensions with the text of one are that one, or it can be split elsewhere. -/
theorem eq_or_split (hd : filing.IsDims d) (h : dimsRepr d = entryText (name, member)) :
    d = [(name, member)] ∨ Split name member := by
  have hne : d ≠ [] := by
    rintro rfl
    simp [entryText, dimsRepr_eq_nil_iff.mpr rfl] at h
  obtain ⟨q, r, htext, hr, hq⟩ := filing_last hd hne
  rw [htext, entryText] at h
  rcases border_cases h with ⟨rfl, rfl⟩ | ⟨m, hname, rfl⟩ | ⟨m, rfl, hmember⟩
  · rcases hq with ⟨k, -, hk, hdims⟩ | ⟨k, x, hk, hx, hname⟩
    · have hname : name = k := String.toList_injective hk
      exact .inl (hname ▸ hdims)
    · exact .inr (.inr ⟨k, x, hname, hk, hx⟩)
  · refine .inr (.inr ⟨q, m, hname, ?_, (startsSolid_border (by decide)).mp hr.starts⟩)
    rintro rfl
    rcases hq with ⟨k, hk, hnil, -⟩ | ⟨k, x, hk, -, hnil⟩
    · exact hk (String.toList_eq_nil_iff.mp hnil.symm)
    · simp at hnil
  · exact .inr (.inl ⟨m, r, hmember, hr.ne, hr.starts⟩)

/-- A text of dimensions that is not empty has an equality sign with a solid text behind it. -/
theorem exists_split (hd : filing.IsDims d) (hne : d ≠ []) :
    ∃ q r, q ≠ [] ∧ Solid Blank r ∧ dimsRepr d = q ++ '=' :: r := by
  obtain ⟨q, r, htext, hr, hq⟩ := filing_last hd hne
  refine ⟨q, r, ?_, hr, htext⟩
  rcases hq with ⟨k, hk, rfl, -⟩ | ⟨k, x, hk, -, rfl⟩
  · exact fun hnil => hk (String.toList_eq_nil_iff.mp hnil)
  · simp

/-- A period stands in the name or at the end of the member, between bars. -/
def HoldsPeriod (name : String) (member : List Char) : Prop :=
  (∃ p : Period, ∃ b, b ≠ [] ∧ (name.toList = p.repr ++ '|' :: b
      ∨ ∃ a, EndsSolid Blank a ∧ name.toList = a ++ '|' :: (p.repr ++ '|' :: b)))
    ∨ ∃ p : Period, ∃ a, EndsSolid Blank a ∧ member = a ++ '|' :: (p.repr ++ ['|'])

theorem equality_not_blank : ¬ Blank '=' := by decide

/-- The text of dimensions behind a period in a name. -/
theorem split_of_name {b : List Char} (hd : filing.IsDims d) (h : dimsRepr d = b ++ '=' :: member) :
    b ≠ [] ∨ Split name member := by
  by_cases hb : b = []
  · rw [hb, List.nil_append] at h
    have hne : d ≠ [] := by
      rintro rfl
      simp [dimsRepr_eq_nil_iff.mpr rfl] at h
    obtain ⟨q, r, hq, hr, htext⟩ := exists_split hd hne
    obtain ⟨e, q, rfl⟩ := List.exists_cons_of_ne_nil hq
    rw [htext, List.cons_append] at h
    exact .inr (.inl ⟨q, r, (List.cons.inj h).2.symm, hr.ne, hr.starts⟩)
  · exact .inl hb

/-- A stamp in the text of one dimension. -/
theorem holdsPeriod_of_stamp {p : Period} (hd : filing.IsDims d)
    (h : entryText (name, member) = p.repr ++ '|' :: dimsRepr d
      ∨ ∃ x, EndsSolid Blank x ∧ entryText (name, member) = x ++ '|' ::
      (p.repr ++ '|' :: dimsRepr d)) :
    Split name member ∨ HoldsPeriod name member := by
  have hsign : '=' ∉ p.repr := not_mem_repr rfl p
  simp only [entryText] at h
  rcases h with h | ⟨x, hx, h⟩
  · rcases border_cases_of_ne (by decide) h with ⟨m, hm, -⟩ | ⟨b, hname, hdims⟩
    · rw [hm] at hsign
      simp at hsign
    · rcases split_of_name hd hdims with hb | hsplit
      · exact .inr (.inl ⟨p, b, hb, .inl hname⟩)
      · exact .inl hsplit
  · rcases border_cases_of_ne (by decide) h with ⟨y, rfl, hmember⟩ | ⟨m, hname, hm⟩
    · -- the period stands in the member
      have hy : EndsSolid Blank y := (endsSolid_border equality_not_blank).mp hx
      by_cases hne : d = []
      · rw [dimsRepr_eq_nil_iff.mpr hne] at hmember
        exact .inr (.inr ⟨p, y, hy, hmember⟩)
      · obtain ⟨q, r, -, hr, htext⟩ := exists_split hd hne
        refine .inl (.inl ⟨y ++ '|' :: (p.repr ++ '|' :: q), r, ?_, hr.ne, hr.starts⟩)
        rw [hmember, htext]
        simp
    · rcases border_cases_of_ne (by decide) hm with ⟨b, rfl, hdims⟩ | ⟨m', hm', -⟩
      · rcases split_of_name hd hdims with hb | hsplit
        · exact .inr (.inl ⟨p, b, hb, .inr ⟨x, hx, hname⟩⟩)
        · exact .inl hsplit
      · rw [hm'] at hsign
        simp at hsign

/-- One dimension of a filing has a name and a member without blanks at its ends. -/
theorem isDims_singleton_iff : filing.IsDims [(name, member)] ↔ name ≠ "" ∧ Solid Blank member := by
  simp [filing, Dict.keys]

/-- A split dimension is another one with the same text. -/
theorem dimsRecut_of_split {f : filing.Fact} (hf : f.dimensions = [(name, member)])
    (h : Split name member) :
    f.DimsRecut := by
  have hvalid : name ≠ "" ∧ Solid Blank member := isDims_singleton_iff.mp (hf ▸ f.isDims)
  have hrecut : ∀ name' member', name' ≠ [] → Solid Blank member' →
      name' ++ '=' :: member' = name.toList ++ '=' :: member → name' ≠ name.toList →
        f.DimsRecut := by
    intro name' member' hname hmember htext hne
    have hd : filing.IsDims [(String.ofList name', member')] :=
      isDims_singleton_iff.mpr ⟨fun h0 => hname (by simpa using congrArg String.toList h0), hmember⟩
    refine ⟨_, hd, ?_, Channel.not_sameMap_singleton hf hd fun heq => ?_⟩
    · rw [hf, dimsRepr_singleton, dimsRepr_singleton, entryText, entryText, String.toList_ofList]
      exact htext
    · have hfirst := congrArg (fun kv => kv.1.toList) heq
      simp only [String.toList_ofList] at hfirst
      exact hne hfirst.symm
  rcases h with ⟨a, b, rfl, hb, hstarts⟩ | ⟨a, b, hname, ha, hstarts⟩
  · have hends : EndsSolid Blank b := (endsSolid_border equality_not_blank).mp hvalid.2.ends
    refine hrecut (name.toList ++ '=' :: a) b (by simp) ⟨hb, hstarts, hends⟩ (by simp) fun h => ?_
    exact absurd (congrArg List.length h) (by simp)
  · have hmember : Solid Blank (b ++ '=' :: member) :=
      ⟨by simp, (startsSolid_border equality_not_blank).mpr hstarts,
        (endsSolid_border equality_not_blank).mpr hvalid.2.ends⟩
    refine hrecut a (b ++ '=' :: member) ha hmember (by rw [hname]; simp) fun h => ?_
    rw [hname] at h
    exact absurd (congrArg List.length h) (by simp)

/-- A period in a dimension is a second reading of the key. -/
theorem stampInDims_of_holdsPeriod {f : filing.Fact} (hf : f.dimensions = [(name, member)])
    (h : HoldsPeriod name member) :
    f.StampInDims := by
  have hvalid : name ≠ "" ∧ Solid Blank member := isDims_singleton_iff.mp (hf ▸ f.isDims)
  have htext : dimsRepr f.dimensions = name.toList ++ '=' :: member := by
    rw [hf, dimsRepr_singleton, entryText]
  rw [Channel.Fact.StampInDims, htext]
  rcases h with ⟨p, b, hb, hname⟩ | ⟨p, a, ha, rfl⟩
  · have hd : filing.IsDims [(String.ofList b, member)] :=
      isDims_singleton_iff.mpr ⟨fun h0 => hb (by simpa using congrArg String.toList h0), hvalid.2⟩
    refine ⟨p, _, hd, ?_⟩
    rw [dimsRepr_singleton, entryText, String.toList_ofList]
    rcases hname with hname | ⟨a, ha, hname⟩
    · exact .inl (by rw [hname]; simp)
    · exact .inr ⟨a, ha, by rw [hname]; simp⟩
  · have hnil : filing.IsDims [] := ⟨List.nodup_nil, fun kv hkv => by cases hkv⟩
    refine ⟨p, [], hnil, .inr ⟨name.toList ++ '=' :: a, ?_, by simp [dimsRepr_eq_nil_iff.mpr rfl]⟩⟩
    exact (endsSolid_border equality_not_blank).mpr ha

/-- Dimensions of a filing merge into one. -/
theorem filing_merge {e : String × List Char} {es : List (String × List Char)} (hne : es ≠ [])
    (h : ∀ kv ∈ e :: es, kv.1 ≠ "" ∧ Solid Blank kv.2) :
    filing.IsDims [(e.1, e.2 ++ ';' :: joined es)] := by
  have he := h e List.mem_cons_self
  obtain ⟨e', es, rfl⟩ := List.exists_cons_of_ne_nil hne
  obtain ⟨q, k, r, htext, hmem, -⟩ := joined_last e' es
  have hr := (h _ (List.mem_cons_of_mem e hmem)).2
  refine isDims_singleton_iff.mpr ⟨he.1, by simp, (startsSolid_border (by decide)).mpr he.2.starts,
    ?_⟩
  rw [htext]
  exact (endsSolid_border (by decide)).mpr ((endsSolid_border equality_not_blank).mpr hr.ends)

/-- What one dimension of a filing does not tell apart. -/
def FilingOne (name : String) (member : List Char) : Prop :=
  Split name member ∨ HoldsPeriod name member

/-- **The keys of filings.** -/
theorem filing_identified_iff (f : filing.Fact) : f.Identified ↔ ¬ f.Ambiguous FilingOne := by
  refine f.identified_iff_of_one (fun e es hne hmem => filing_merge hne fun kv hkv =>
    f.isDims.2 kv (hmem kv hkv)) ?_
  intro name member hf
  constructor
  · rintro (⟨p, d, hd, htext⟩ | ⟨d, hd, htext, hne⟩)
    · rw [hf, dimsRepr_singleton] at htext
      exact holdsPeriod_of_stamp hd htext
    · rw [hf, dimsRepr_singleton] at htext
      rcases eq_or_split hd htext with rfl | hsplit
      · rw [hf] at hne
        exact absurd (fun k => rfl) hne
      · exact .inl hsplit
  · rintro (h | h)
    · exact .inr (dimsRecut_of_split hf h)
    · exact .inl (stampInDims_of_holdsPeriod hf h)

end Filing

/-! ## Snapshots -/

/-- `_PROVENANCE_KEYS`. -/
def provenanceKeys : List String := ["accn", "form", "fy", "fp", "frame"]

theorem no_blank_starts (v : List Char) : StartsSolid (fun _ => False) v := fun _ _ => id

theorem no_blank_ends (v : List Char) : EndsSolid (fun _ => False) v := fun _ _ => id

/-- What `parse_company_facts` can produce: a name in a taxonomy as concept, the unit of any text,
and the provenance as dimensions, with any values. -/
def snapshot : Channel where
  blank _ := False
  IsConcept c := ':' ∈ c
  IsUnit u := ∃ measure, mapUnit measure = u
  IsDims d := d.keys.Nodup ∧ ∀ kv ∈ d, kv.1 ∈ provenanceKeys
  bar_solid := id
  concept_append _ _ h := List.mem_append_left _ h
  unit_starts u _ := no_blank_starts u
  unit_ends u _ := no_blank_ends u
  unit_of_bar u hbar _ _ := ⟨u, mapUnit_of_bar hbar⟩
  unit_of_period p := ⟨p.repr, mapUnit_repr p⟩
  nodup _ h := h.1

theorem provenance_plain {name : String} (h : name ∈ provenanceKeys) :
    '=' ∉ name.toList ∧ '|' ∉ name.toList := by
  have hall :
      provenanceKeys.all (fun name => !name.toList.contains '=' && !name.toList.contains '|')
        = true := by
    decide
  simpa using List.all_eq_true.mp hall name h

section Snapshot

variable {d : Dict String (List Char)} {name : String} {member : List Char}

/-- A later dimension stands in the value of a dimension. -/
def HoldsLater (name : String) (member : List Char) : Prop :=
  ∃ a later b, later ∈ provenanceKeys ∧ name < later ∧
    member = a ++ ';' :: (later.toList ++ '=' :: b)

/-- A period stands in the value of a dimension, with nothing or a dimension behind it. -/
def HoldsPeriodDims (member : List Char) : Prop :=
  ∃ a, ∃ p : Period, ∃ rest, member = a ++ '|' :: (p.repr ++ '|' :: rest)
    ∧ (rest = [] ∨ ∃ other b, other ∈ provenanceKeys ∧ rest = other.toList ++ '=' :: b)

/-- A text of dimensions that is not empty starts with a name. -/
theorem snapshot_first (hd : snapshot.IsDims d) (hne : d ≠ []) :
    ∃ e es, d.Perm (e :: es) ∧ e.1 ∈ provenanceKeys
      ∧ ((es = [] ∧ dimsRepr d = entryText e)
        ∨ ∃ later b, later ∈ provenanceKeys ∧ e.1 < later
          ∧ dimsRepr d = e.1.toList ++ '=' :: (e.2 ++ ';' :: (later.toList ++ '=' :: b))) := by
  have hmem : ∀ kv ∈ StableSort.sortBy Prod.fst d, kv ∈ d := fun kv => StableSort.mem_sortBy.mp
  have hperm := StableSort.sortBy_perm Prod.fst d
  have hsorted := StableSort.pairwise_key_sortBy Prod.fst d
  rw [dimsRepr_eq]
  obtain ⟨e, es, hes⟩ := List.exists_cons_of_ne_nil (StableSort.sortBy_ne_nil Prod.fst hne)
  rw [hes] at hmem hperm hsorted ⊢
  refine ⟨e, es, hperm.symm, hd.2 e (hmem e List.mem_cons_self), ?_⟩
  cases es with
  | nil => exact .inl ⟨rfl, joined_singleton e⟩
  | cons e' es =>
      have hnodup : (Dict.keys (e :: e' :: es)).Nodup := (hperm.map Prod.fst).nodup_iff.mpr hd.1
      have hlt : e.1 < e'.1 := by
        refine lt_of_le_of_ne ((List.pairwise_cons.mp hsorted).1 e' List.mem_cons_self) fun heq =>
          ?_
        rw [Dict.keys, List.map_cons, List.nodup_cons] at hnodup
        exact hnodup.1 (heq ▸ List.mem_cons_self)
      have hlater : ∃ b, joined (e' :: es) = e'.1.toList ++ '=' :: b := by
        cases es with
        | nil => exact ⟨e'.2, joined_singleton e'⟩
        | cons e'' es =>
            refine ⟨e'.2 ++ ';' :: joined (e'' :: es), ?_⟩
            rw [joined_cons e' (List.cons_ne_nil _ _), entryText, List.append_assoc,
              List.cons_append]
      obtain ⟨b, hb⟩ := hlater
      refine .inr ⟨e'.1, b, hd.2 e' (hmem e' (by simp)), hlt, ?_⟩
      rw [joined_cons e (List.cons_ne_nil _ _), entryText, List.append_assoc, List.cons_append, hb]

/-- Dimensions with the text of one are that one, or a later one stands in its value. -/
theorem eq_or_holdsLater (hd : snapshot.IsDims d) (hname : name ∈ provenanceKeys)
    (h : dimsRepr d = entryText (name, member)) :
    d = [(name, member)] ∨ HoldsLater name member := by
  have hne : d ≠ [] := by
    rintro rfl
    simp [entryText, dimsRepr_eq_nil_iff.mpr rfl] at h
  obtain ⟨⟨k, v⟩, es, hperm, hk, ⟨rfl, htext⟩ | ⟨later, b, hlater, hlt, htext⟩⟩ :=
    snapshot_first hd hne
  · rw [htext, entryText, entryText] at h
    obtain ⟨hkey, rfl⟩ := border_unique (provenance_plain hk).1 (provenance_plain hname).1 h
    obtain rfl : k = name := String.toList_injective hkey
    exact .inl (List.perm_singleton.mp hperm)
  · rw [htext, entryText] at h
    obtain ⟨hkey, rfl⟩ := border_unique (provenance_plain hk).1 (provenance_plain hname).1 h
    obtain rfl : k = name := String.toList_injective hkey
    exact .inr ⟨v, later, b, hlater, hlt, rfl⟩

/-- A stamp in the text of one dimension stands in its value. -/
theorem holdsPeriodDims_of_stamp {p : Period} (hd : snapshot.IsDims d)
    (hname : name ∈ provenanceKeys)
    (h : entryText (name, member) = p.repr ++ '|' :: dimsRepr d
      ∨ ∃ x, EndsSolid (fun _ => False) x ∧ entryText (name, member) = x ++ '|' ::
      (p.repr ++ '|' :: dimsRepr d)) :
    HoldsPeriodDims member := by
  have hplain := (provenance_plain hname).2
  have hsign : '=' ∉ p.repr := not_mem_repr rfl p
  simp only [entryText] at h
  rcases h with h | ⟨x, -, h⟩
  · rcases border_cases_of_ne (by decide) h with ⟨m, hm, -⟩ | ⟨m, hm, -⟩
    · rw [hm] at hsign
      simp at hsign
    · rw [hm] at hplain
      simp at hplain
  · rcases border_cases_of_ne (by decide) h with ⟨a, rfl, hmember⟩ | ⟨m, hm, -⟩
    · refine ⟨a, p, dimsRepr d, hmember, ?_⟩
      by_cases hne : d = []
      · exact .inl (dimsRepr_eq_nil_iff.mpr hne)
      · obtain ⟨e, es, -, he, ⟨-, htext⟩ | ⟨later, b, -, -, htext⟩⟩ := snapshot_first hd hne
        · exact .inr ⟨e.1, e.2, he, htext⟩
        · exact .inr ⟨e.1, _, he, htext⟩
    · rw [hm] at hplain
      simp at hplain

/-- One dimension of a snapshot is a member of the observation. -/
theorem snapshot_singleton_iff : snapshot.IsDims [(name, member)] ↔ name ∈ provenanceKeys := by
  simp [snapshot, Dict.keys]

/-- A value that holds a later dimension is also the value and that dimension. -/
theorem dimsRecut_of_holdsLater {f : snapshot.Fact} (hf : f.dimensions = [(name, member)])
    (h : HoldsLater name member) :
    f.DimsRecut := by
  have hname : name ∈ provenanceKeys := snapshot_singleton_iff.mp (hf ▸ f.isDims)
  obtain ⟨a, later, b, hlater, hlt, rfl⟩ := h
  have hd : snapshot.IsDims [(name, a), (later, b)] := by
    refine ⟨by simp [Dict.keys, hlt.ne], fun kv hkv => ?_⟩
    rcases List.mem_pair.mp hkv with rfl | rfl
    · exact hname
    · exact hlater
  have hsorted : StableSort.sortBy Prod.fst [(name, a), (later, b)] = [(name, a), (later, b)] := by
    simp [StableSort.sortBy, hlt.le]
  refine ⟨_, hd, ?_, Channel.not_sameMap_of_length hd (by rw [hf]; simp)⟩
  rw [hf, dimsRepr_singleton, dimsRepr_eq, hsorted, joined_cons _ (List.cons_ne_nil _ _),
    joined_singleton]
  simp [entryText]

/-- A member that spells a period and dimensions makes the fact ambiguous. -/
theorem stampInDims_of_holdsPeriodDims {f : snapshot.Fact} (hf : f.dimensions = [(name, member)])
    (h : HoldsPeriodDims member) : f.StampInDims := by
  have htext : dimsRepr f.dimensions = name.toList ++ '=' :: member := by
    rw [hf, dimsRepr_singleton, entryText]
  rw [Channel.Fact.StampInDims, htext]
  obtain ⟨a, p, rest, rfl, hrest⟩ := h
  have hdims : ∃ d, snapshot.IsDims d ∧ dimsRepr d = rest := by
    rcases hrest with rfl | ⟨other, b, hother, rfl⟩
    · exact ⟨[], ⟨List.nodup_nil, fun kv hkv => by cases hkv⟩, rfl⟩
    · exact ⟨[(other, b)], snapshot_singleton_iff.mpr hother, dimsRepr_singleton _⟩
  obtain ⟨d, hd, rfl⟩ := hdims
  exact ⟨p, d, hd, .inr ⟨name.toList ++ '=' :: a, no_blank_ends _, by simp⟩⟩

/-- What one dimension of a snapshot does not tell apart. -/
def SnapshotOne (name : String) (member : List Char) : Prop :=
  HoldsLater name member ∨ HoldsPeriodDims member

/-- **The keys of snapshots.** -/
theorem snapshot_identified_iff (f : snapshot.Fact) : f.Identified ↔ ¬ f.Ambiguous SnapshotOne := by
  refine f.identified_iff_of_one (fun e es _ hmem => snapshot_singleton_iff.mpr ?_) ?_
  · exact f.isDims.2 e (hmem e List.mem_cons_self)
  · intro name member hf
    have hname : name ∈ provenanceKeys := snapshot_singleton_iff.mp (hf ▸ f.isDims)
    constructor
    · rintro (⟨p, d, hd, htext⟩ | ⟨d, hd, htext, hne⟩)
      · rw [hf, dimsRepr_singleton] at htext
        exact .inr (holdsPeriodDims_of_stamp hd hname htext)
      · rw [hf, dimsRepr_singleton] at htext
        rcases eq_or_holdsLater hd hname htext with rfl | hlater
        · rw [hf] at hne
          exact absurd (fun k => rfl) hne
        · exact .inl hlater
    · rintro (h | h)
      · exact .inr (dimsRecut_of_holdsLater hf h)
      · exact .inl (stampInDims_of_holdsPeriodDims hf h)

end Snapshot

/-- **Keys identify facts** of filings and of snapshots exactly when they are not ambiguous. -/
theorem keys_identify_iff (f : filing.Fact) (s : snapshot.Fact) :
    (f.Identified ↔ ¬ f.Ambiguous FilingOne) ∧ (s.Identified ↔ ¬ s.Ambiguous SnapshotOne) :=
  ⟨filing_identified_iff f, snapshot_identified_iff s⟩

/-- A text without blanks begins and ends with a character that is not blank. -/
theorem solid_of_chars {cs : List Char} (hne : cs ≠ [])
    (h : cs.all (fun c => !PyText.isSpace c) = true) :
    Solid Blank cs := by
  have hchars : ∀ c ∈ cs, ¬ Blank c := fun c hc => by simpa using List.all_eq_true.mp h c hc
  exact ⟨hne, fun c hc => hchars c (List.mem_of_mem_head? hc),
    fun c hc => hchars c (List.mem_of_mem_getLast? hc)⟩

/-- Revenues at the end of a year, by dimensions. -/
def revenues (dimensions : Dict String (List Char)) (h : filing.IsDims dimensions) :
    filing.Fact where
  concept := "us-gaap:Revenues"
  unit := "USD".toList
  period := .instant yearEnd
  dimensions := dimensions
  isConcept := (by decide : "us-gaap:Revenues".toList ≠ [])
  isUnit :=
    ⟨"USD".toList, solid_of_chars (by decide) (by decide), by decide⟩
  isDims := h

/-- Revenues of a product in a region. -/
def twoMembers : filing.Fact :=
  revenues [("srt:ProductAxis", "co:Phone".toList), ("srt:RegionAxis", "co:Asia".toList)] (by
    refine ⟨by decide, fun kv hkv => ?_⟩
    rcases List.mem_pair.mp hkv with rfl | rfl
    · exact ⟨by decide, solid_of_chars (by decide) (by decide)⟩
    · exact ⟨by decide, solid_of_chars (by decide) (by decide)⟩)

/-- Revenues of a product whose member holds the text of a second dimension. -/
def oneMember : filing.Fact :=
  revenues [("srt:ProductAxis", "co:Phone;srt:RegionAxis=co:Asia".toList)]
    (isDims_singleton_iff.mpr ⟨by decide, solid_of_chars (by decide) (by decide)⟩)

/-- The two have one key. -/
theorem merged_member_shares_key :
    ¬ (twoMembers.key = oneMember.key ↔ twoMembers.Same oneMember) := by
  have hkey : twoMembers.key = oneMember.key := by decide
  intro h
  have hregion := (h.mp hkey).dimensions "srt:RegionAxis"
  revert hregion
  decide

end Xbrl
