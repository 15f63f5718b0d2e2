/-
# Comparability keys

`build_comparability_key` joins the comparability fields of a figure with `|`, each as `name=value`
with the value stripped and nothing escaped.  The values are free text of the model, so a value may
hold the delimiter and the name of a field, and then two different figures may have one key.

`comparability_key_separates_iff` says which figures are separated from all others: those in which
no value holds the delimiter and the name of its own field, or of the field after it.

`Revalidation.withModels` is the validator with the units and the magnitudes of the models: under a
hash that sees no order of members it sees none (`withModels_orderFree`).
-/
import EvidenceLab.Delimited
import EvidenceLab.Normalize

namespace Extraction

/-! ## Stripped texts -/

/-- A text that is not empty and has no blank at either end. -/
abbrev SolidText (cs : List Char) : Prop := Delimited.Solid (fun c => PyText.isSpace c = true) cs

/-- A text without blanks at its ends is stripped. -/
theorem strip_of_solid {cs : List Char} (h : SolidText cs) : PyText.strip cs = cs := by
  have hdrop : ∀ l : List Char, (∀ c ∈ l.head?, ¬ PyText.isSpace c = true) →
      l.dropWhile PyText.isSpace = l := by
    intro l hl
    cases l with
    | nil => rfl
    | cons c l => exact List.dropWhile_cons_of_neg (hl c rfl)
  rw [PyText.strip, hdrop cs h.starts, hdrop, List.reverse_reverse]
  rw [List.head?_reverse]
  exact h.ends

/-- A stripped text has no blanks at its ends. -/
theorem solid_strip {cs : List Char} (h : PyText.strip cs ≠ []) : SolidText (PyText.strip cs) := by
  have hhead : ∀ l : List Char, ∀ c ∈ (l.dropWhile PyText.isSpace).head?,
      ¬ PyText.isSpace c = true := by
    intro l c hc
    have := List.head?_dropWhile_not PyText.isSpace l
    rw [hc] at this
    simpa using this
  refine ⟨h, ?_, ?_⟩
  · -- what is left after the blanks at the end are gone starts as before
    have hsuffix :=
      List.dropWhile_suffix (l := (cs.dropWhile PyText.isSpace).reverse) PyText.isSpace
    obtain ⟨t, ht⟩ := List.reverse_prefix.mpr hsuffix
    rw [List.reverse_reverse] at ht
    have hstart := hhead cs
    rw [← ht] at hstart
    exact (Delimited.startsSolid_append_iff h).mp hstart
  · intro c hc
    rw [PyText.strip, List.getLast?_reverse] at hc
    exact hhead _ c hc

/-! ## The ontology -/

/-- A field list as the packaged ontology has them: the metric, then distinct names without the
delimiter. -/
structure MetricDef.Plain (m : MetricDef) : Prop where
  id : '|' ∉ m.id.toList
  first : m.comparabilityKeyFields.head? = some "metric_id"
  nodup : m.comparabilityKeyFields.Nodup
  names : ∀ f ∈ m.comparabilityKeyFields, '|' ∉ f.toList

instance (m : MetricDef) : Decidable m.Plain :=
  decidable_of_iff ('|' ∉ m.id.toList ∧ m.comparabilityKeyFields.head? = some "metric_id"
    ∧ m.comparabilityKeyFields.Nodup ∧ ∀ f ∈ m.comparabilityKeyFields, '|' ∉ f.toList)
    ⟨fun h => ⟨h.1, h.2.1, h.2.2.1, h.2.2.2⟩, fun h => ⟨h.id, h.first, h.nodup, h.names⟩⟩

/-- A loaded ontology: metrics with distinct ids. -/
structure Ontology where
  metrics : List MetricDef
  distinct : (metrics.map MetricDef.id).Nodup
  plain : ∀ m ∈ metrics, m.Plain

/-- The comparability fields of `saas-metrics.v1.json`. -/
def saasMetrics : Ontology where
  metrics := [⟨"arr", ["metric_id", "currency", "construction", "scope"]⟩,
    ⟨"mrr", ["metric_id", "currency", "construction", "scope"]⟩,
    ⟨"nrr", ["metric_id", "base_quantity", "window", "population_scope"]⟩,
    ⟨"grr", ["metric_id", "base_quantity", "window", "churn_inclusions"]⟩,
    ⟨"cust_total", ["metric_id", "customer_definition"]⟩,
    ⟨"cust_threshold", ["metric_id", "threshold_amount", "threshold_basis"]⟩,
    ⟨"seats", ["metric_id", "seat_scope"]⟩,
    ⟨"bookings", ["metric_id", "currency", "definition_present"]⟩,
    ⟨"billings", ["metric_id", "currency", "formula"]⟩,
    ⟨"rpo", ["metric_id", "currency", "usage_exemption", "label_family"]⟩,
    ⟨"crpo", ["metric_id", "currency", "horizon_months"]⟩,
    ⟨"deferred_rev", ["metric_id", "currency", "tag_family", "current_noncurrent_split"]⟩,
    ⟨"sub_gm", ["metric_id", "margin_scope"]⟩, ⟨"svc_gm", ["metric_id", "margin_scope"]⟩]
  distinct := by decide
  plain := by decide

/-- The qualifier fields of the key. -/
def MetricDef.names (m : MetricDef) : List String := m.comparabilityKeyFields.tail

/-- The stripped value of a field. -/
def valueAt (quals : Dict String String) (field : String) : List Char :=
  PyText.strip ((quals.get? field).getD "").toList

/-- A field as the key labels it. -/
def label (field : String) : List Char := field.toList ++ ['=']

/-- The labelled values of a figure. -/
def fieldsOf (names : List String) (quals : Dict String String) : Delimited.Fields Char :=
  names.map fun f => (label f, valueAt quals f)

/-- The delimiter and the name of a field stand in the value of the field before it, or in its own,
with text left over on the far side and no blank beside them. -/
def AmbiguousFigure (m : MetricDef) (quals : Dict String String) : Prop :=
  match m.names with
  | [] => False
  | f :: rest => Delimited.Ambiguous '|' (fun c => PyText.isSpace c = true) (valueAt quals f)
      (fieldsOf rest quals)

/-- The stripped values of every comparability field agree. -/
def SameQualifiers (m : MetricDef) (quals quals' : Dict String String) : Prop :=
  ∀ f ∈ m.comparabilityKeyFields, f ≠ "metric_id" → valueAt quals f = valueAt quals' f

/-! ## The text of a key -/

section Key

variable {m : MetricDef} {quals : Dict String String}

theorem MetricDef.Plain.fields_eq (h : m.Plain) :
    m.comparabilityKeyFields = "metric_id" :: m.names := by
  have hfirst := h.first
  rw [MetricDef.names]
  cases hf : m.comparabilityKeyFields with
  | nil =>
      rw [hf] at hfirst
      cases hfirst
  | cons f fields =>
      rw [hf] at hfirst
      rw [Option.some.inj hfirst]
      rfl

theorem MetricDef.Plain.metric_id_not_mem (h : m.Plain) : "metric_id" ∉ m.names := by
  have hnodup := h.nodup
  rw [h.fields_eq] at hnodup
  exact (List.nodup_cons.mp hnodup).1

theorem MetricDef.Plain.names_nodup (h : m.Plain) : m.names.Nodup := by
  have hnodup := h.nodup
  rw [h.fields_eq] at hnodup
  exact (List.nodup_cons.mp hnodup).2

/-- The parts of a key. -/
def partOf (m : MetricDef) (quals : Dict String String) (field : String) : Except String String :=
  if field = "metric_id" then .ok ("metric_id=" ++ m.id)
  else
    match quals.get? field with
    | some value =>
        if PyText.strip value.toList = [] then
          .error ("missing required qualifier for comparability: " ++ field)
        else .ok (field ++ "=" ++ String.ofList (PyText.strip value.toList))
    | none => .error ("missing required qualifier for comparability: " ++ field)

/-- A part is the label of its field and the stripped value, which is not empty. -/
theorem partOf_eq_ok_iff {f part : String} (hf : f ≠ "metric_id") :
    partOf m quals f = .ok part ↔ valueAt quals f ≠ [] ∧
    part.toList = label f ++ valueAt quals f := by
  rw [partOf, if_neg hf, valueAt]
  cases hq : quals.get? f with
  | none => simp [PyText.strip]
  | some value =>
      by_cases hs : PyText.strip value.toList = []
      · simp [hs]
      · show (if PyText.strip value.toList = [] then _ else _) = _ ↔ _
        rw [if_neg hs, Except.ok.injEq, ← String.toList_inj, label]
        simp [hs, eq_comm]

/-- The parts are joined by bars. -/
theorem toList_intercalate_bar (part : String) (parts : List String) :
    ("|".intercalate (part :: parts)).toList = part.toList ++ parts.flatMap fun p => '|'
    :: p.toList := by
  induction parts generalizing part with
  | nil => simp
  | cons p parts ih =>
      rw [String.intercalate_cons_cons, String.toList_append, String.toList_append, ih,
        List.flatMap_cons]
      simp

/-- Parts exist if and only if no value is empty. -/
theorem flatMap_parts {names : List String} (hnames : "metric_id" ∉ names) {parts : List String}
    (h : List.Forall₂ (fun f part => partOf m quals f = .ok part) names parts) :
    (∀ f ∈ names, valueAt quals f ≠ [])
      ∧ (parts.flatMap fun p => '|' :: p.toList)
      = Delimited.tailText '|' (fieldsOf names quals) := by
  induction h with
  | nil => simp [fieldsOf, Delimited.tailText]
  | @cons f part names parts hpart hrest ih =>
      rw [List.mem_cons, not_or] at hnames
      obtain ⟨hne, htext⟩ := (partOf_eq_ok_iff (Ne.symm hnames.1)).mp hpart
      obtain ⟨hall, htail⟩ := ih hnames.2
      refine ⟨List.forall_mem_cons.mpr ⟨hne, hall⟩, ?_⟩
      show _ = Delimited.tailText '|' ((label f, valueAt quals f) :: fieldsOf names quals)
      rw [List.flatMap_cons, htail, htext, Delimited.tailText_cons]
      simp

/-- **The key of a figure**: the id of the metric and the labelled values. -/
theorem buildComparabilityKey_eq_ok_iff (h : m.Plain) {key : String} :
    buildComparabilityKey m quals = .ok key ↔
      (∀ f ∈ m.names, valueAt quals f ≠ [])
        ∧ key.toList = ("metric_id=" ++ m.id).toList
        ++ Delimited.tailText '|' (fieldsOf m.names quals) := by
  have hbuild : buildComparabilityKey m quals
      = (m.comparabilityKeyFields.mapM (partOf m quals) >>= fun parts =>
        .ok ("|".intercalate parts)) := rfl
  rw [hbuild, Except.bind_eq_ok_iff]
  constructor
  · rintro ⟨parts, hparts, hkey⟩
    rw [Except.mapM_eq_ok_iff, h.fields_eq] at hparts
    cases hparts with
    | @cons _ part _ parts hpart hrest =>
        obtain ⟨hall, htail⟩ := flatMap_parts h.metric_id_not_mem hrest
        refine ⟨hall, ?_⟩
        rw [← Except.ok.inj hkey, toList_intercalate_bar, htail, ← Except.ok.inj hpart]
  · rintro ⟨hall, hkey⟩
    have hparts :
        ∀ f ∈ m.names, partOf m quals f = .ok (String.ofList (label f ++ valueAt quals f)) := by
      intro f hf
      have hne : f ≠ "metric_id" := fun heq => h.metric_id_not_mem (heq ▸ hf)
      exact (partOf_eq_ok_iff hne).mpr ⟨hall f hf, by simp⟩
    have hforall : List.Forall₂ (fun f part => partOf m quals f = .ok part) m.names
        (m.names.map fun f => String.ofList (label f ++ valueAt quals f)) := by
      rw [List.forall₂_map_right_iff, List.forall₂_same]
      exact hparts
    refine ⟨("metric_id=" ++ m.id) :: m.names.map fun f =>
      String.ofList (label f ++ valueAt quals f), ?_, ?_⟩
    · rw [Except.mapM_eq_ok_iff, h.fields_eq]
      exact .cons rfl hforall
    · rw [Except.ok.injEq, ← String.toList_inj, toList_intercalate_bar, hkey,
        (flatMap_parts h.metric_id_not_mem hforall).2]

end Key

/-! ## Equal keys -/

/-- The first field ends at the first bar. -/
theorem takeWhile_bar {cs : List Char} (h : '|' ∉ cs) (fields : Delimited.Fields Char) :
    (cs ++ Delimited.tailText '|' fields).takeWhile (· != '|') = cs := by
  have htail : (Delimited.tailText '|' fields).takeWhile (· != '|') = [] := by
    cases fields with
    | nil => rfl
    | cons f fields =>
        rw [Delimited.tailText_cons]
        rfl
  rw [List.takeWhile_append_of_pos, htail, List.append_nil]
  intro c hc
  simp only [bne_iff_ne, ne_eq]
  exact fun heq => h (heq ▸ hc)

/-- A metric of an ontology is known by its identifier. -/
theorem metric_eq_of_id_eq {O : Ontology} {m m' : MetricDef} (hm : m ∈ O.metrics)
    (hm' : m' ∈ O.metrics)
    (h : m.id = m'.id) : m = m' :=
  List.inj_on_of_nodup_map O.distinct hm hm' h

/-- A label has no bar. -/
theorem label_plain {f : String} (h : '|' ∉ f.toList) : '|' ∉ label f := by
  rw [label, List.mem_append, not_or]
  exact ⟨h, by decide⟩

/-- The fields of one metric have one shape. -/
theorem sameShape_fieldsOf {names : List String} (hnames : ∀ f ∈ names, '|' ∉ f.toList)
    (quals : Dict String String)
    {quals' : Dict String String} (h' : ∀ f ∈ names, valueAt quals' f ≠ []) :
    Delimited.SameShape '|' (fun c => PyText.isSpace c = true) (fieldsOf names quals)
    (fieldsOf names quals') where
  labels := by simp [fieldsOf]
  plain f hf := by
    obtain ⟨g, hg, rfl⟩ := List.mem_map.mp hf
    exact label_plain (hnames g hg)
  solid f hf := by
    obtain ⟨g, hg, rfl⟩ := List.mem_map.mp hf
    exact solid_strip (h' g hg)

/-- Fields are equal only if the values are. -/
theorem fieldsOf_inj {names : List String} {quals quals' : Dict String String}
    (h : fieldsOf names quals = fieldsOf names quals') :
    ∀ f ∈ names, valueAt quals f = valueAt quals' f := by
  intro f hf
  have := List.map_inj_left.mp h f hf
  exact (Prod.mk.inj this).2

section Separation

variable {O : Ontology} {m m' : MetricDef} {quals quals' : Dict String String} {key key' : String}

/-- Qualifiers are the same if their stripped values are. -/
theorem sameQualifiers_iff (h : m.Plain) :
    SameQualifiers m quals quals' ↔ ∀ f ∈ m.names, valueAt quals f = valueAt quals' f := by
  rw [SameQualifiers, h.fields_eq]
  constructor
  · intro hs f hf
    exact hs f (List.mem_cons_of_mem _ hf) fun heq => h.metric_id_not_mem (heq ▸ hf)
  · intro hs f hf hne
    exact hs f ((List.mem_cons.mp hf).resolve_left hne)

/-- The same qualifiers have one key. -/
theorem key_eq_of_sameQualifiers (h : m.Plain) (hk : buildComparabilityKey m quals = .ok key)
    (hk' : buildComparabilityKey m quals' = .ok key') (hs : SameQualifiers m quals quals') :
    key = key' := by
  rw [← String.toList_inj, ((buildComparabilityKey_eq_ok_iff h).mp hk).2,
    ((buildComparabilityKey_eq_ok_iff h).mp hk').2]
  congr 2
  apply List.map_congr_left
  intro f hf
  rw [(sameQualifiers_iff h).mp hs f hf]

/-- Equal keys are keys of one figure, or the figure is ambiguous. -/
theorem same_of_key_eq (hm : m ∈ O.metrics) (hm' : m' ∈ O.metrics)
    (hamb : ¬ AmbiguousFigure m quals)
    (hk : buildComparabilityKey m quals = .ok key)
    (hk' : buildComparabilityKey m' quals' = .ok key) :
    m = m' ∧ SameQualifiers m quals quals' := by
  have hp := O.plain m hm
  obtain ⟨-, htext⟩ := (buildComparabilityKey_eq_ok_iff hp).mp hk
  obtain ⟨hall', htext'⟩ := (buildComparabilityKey_eq_ok_iff (O.plain m' hm')).mp hk'
  rw [htext, String.toList_append, String.toList_append, List.append_assoc, List.append_assoc]
    at htext'
  have hrest := List.append_cancel_left htext'
  -- the ids are the parts before the first delimiter
  have hid : m.id = m'.id := by
    have := congrArg (List.takeWhile (· != '|')) hrest
    rw [takeWhile_bar hp.id, takeWhile_bar (O.plain m' hm').id] at this
    exact String.toList_inj.mp this
  obtain rfl := metric_eq_of_id_eq hm hm' hid
  refine ⟨rfl, (sameQualifiers_iff hp).mpr ?_⟩
  have htail := List.append_cancel_left hrest
  have hnames : ∀ f ∈ m.names, '|' ∉ f.toList :=
    fun f hf => hp.names f (hp.fields_eq ▸ List.mem_cons_of_mem _ hf)
  rw [AmbiguousFigure] at hamb
  cases hn : m.names with
  | nil => simp
  | cons f rest =>
      rw [hn] at hamb htail hnames hall'
      have htext : Delimited.text '|' (valueAt quals f) (fieldsOf rest quals)
          = Delimited.text '|' (valueAt quals' f) (fieldsOf rest quals') := by
        have h1 : Delimited.tailText '|' ((label f, valueAt quals f) :: fieldsOf rest quals)
            = Delimited.tailText '|' ((label f, valueAt quals' f) :: fieldsOf rest quals') := htail
        rw [Delimited.tailText_cons, Delimited.tailText_cons, List.cons.injEq] at h1
        exact List.append_cancel_left h1.2
      have hshape := sameShape_fieldsOf (fun g hg => hnames g (List.mem_cons_of_mem _ hg)) quals
        (fun g hg => hall' g (List.mem_cons_of_mem _ hg))
      rcases Delimited.eq_or_ambiguous hshape (solid_strip (hall' f List.mem_cons_self)) htext
        with ⟨hv, hf⟩ | h
      · exact List.forall_mem_cons.mpr ⟨hv, fieldsOf_inj hf⟩
      · exact absurd h hamb

/-- Qualifiers with given values. -/
def qualsOf (pairs : List (String × List Char)) : Dict String String :=
  pairs.map fun p => (p.1, String.ofList p.2)

/-- The value of a listed qualifier. -/
theorem valueAt_qualsOf {pairs : List (String × List Char)} (hnodup : (pairs.map Prod.fst).Nodup)
    (hsolid : ∀ p ∈ pairs, SolidText p.2) {p : String × List Char} (hp : p ∈ pairs) :
    valueAt (qualsOf pairs) p.1 = p.2 := by
  have hkeys : (Dict.keys (qualsOf pairs)).Nodup := by
    rw [Dict.keys, qualsOf, List.map_map]
    exact hnodup
  have hmem : (p.1, String.ofList p.2) ∈ qualsOf pairs := List.mem_map.mpr ⟨p, hp, rfl⟩
  rw [valueAt, Dict.get?_of_mem hkeys hmem, Option.getD_some, String.toList_ofList]
  exact strip_of_solid (hsolid p hp)

/-- The fields of listed qualifiers are the list. -/
theorem fieldsOf_qualsOf {pairs : List (String × List Char)} (hnodup : (pairs.map Prod.fst).Nodup)
    (hsolid : ∀ p ∈ pairs, SolidText p.2) {sub : List (String × List Char)}
    (hsub : ∀ p ∈ sub, p ∈ pairs) :
    fieldsOf (sub.map Prod.fst) (qualsOf pairs) = sub.map fun p => (label p.1, p.2) := by
  rw [fieldsOf, List.map_map]
  apply List.map_congr_left
  intro p hp
  exact Prod.ext rfl (valueAt_qualsOf hnodup hsolid (hsub p hp))

/-- An ambiguous figure shares its key with another one. -/
theorem exists_other_of_ambiguous (hp : m.Plain) (hamb : AmbiguousFigure m quals)
    (hk : buildComparabilityKey m quals = .ok key) :
    ∃ quals', buildComparabilityKey m quals' = .ok key ∧ ¬ SameQualifiers m quals quals' := by
  obtain ⟨hall, htext⟩ := (buildComparabilityKey_eq_ok_iff hp).mp hk
  have hnodup := hp.names_nodup
  rw [AmbiguousFigure] at hamb
  cases hn : m.names with
  | nil =>
      rw [hn] at hamb
      exact hamb.elim
  | cons f rest =>
      rw [hn] at hamb hall htext hnodup
      -- the other values are stripped texts, behind labels that do not end in a blank
      have hsolid : ∀ x ∈ fieldsOf rest quals, SolidText x.2 := by
        intro x hx
        obtain ⟨g, hg, rfl⟩ := List.mem_map.mp hx
        exact solid_strip (hall g (List.mem_cons_of_mem _ hg))
      have hlabels : ∀ x ∈ fieldsOf rest quals,
          Delimited.EndsSolid (fun c => PyText.isSpace c = true) ('|' :: x.1) := by
        intro x hx
        obtain ⟨g, hg, rfl⟩ := List.mem_map.mp hx
        show Delimited.EndsSolid _ ('|' :: (g.toList ++ ['=']))
        rw [← List.cons_append, Delimited.endsSolid_append_iff (by simp)]
        intro c hc
        rw [← Option.some.inj hc]
        decide
      obtain ⟨w, fields, hfields, hw, hws, heq, hne⟩ := Delimited.exists_recut (by decide)
        (solid_strip (hall f List.mem_cons_self)) hsolid hlabels hamb
      have hlen : fields.length = rest.length := by
        simpa [fieldsOf] using congrArg List.length hfields
      -- the other reading as qualifiers
      let sub := rest.zip (fields.map Prod.snd)
      have hfst : sub.map Prod.fst = rest := List.map_fst_zip (by simp [hlen])
      have hsub : (sub.map fun p => (label p.1, p.2)) = fields := by
        have hlab : rest.map label = fields.map Prod.fst := by
          rw [hfields, fieldsOf, List.map_map]
          rfl
        have hzip :
            (sub.map fun p => (label p.1, p.2)) = (rest.map label).zip (fields.map Prod.snd) :=
          (List.zip_map_left ..).symm
        rw [hzip, hlab]
        exact (List.zip_of_prod rfl rfl).symm
      let pairs := (f, w) :: sub
      have hpairs : (pairs.map Prod.fst).Nodup := by
        rw [List.map_cons, hfst]
        exact hnodup
      have hpsolid : ∀ p ∈ pairs, SolidText p.2 := by
        intro p hp
        rcases List.mem_cons.mp hp with rfl | hp
        · exact hw
        · have : (label p.1, p.2) ∈ fields := hsub ▸ List.mem_map.mpr ⟨p, hp, rfl⟩
          exact hws _ this
      have hf' : valueAt (qualsOf pairs) f = w :=
        valueAt_qualsOf hpairs hpsolid (p := (f, w)) List.mem_cons_self
      have hrest' : fieldsOf rest (qualsOf pairs) = fields := by
        rw [← hsub, ← fieldsOf_qualsOf hpairs hpsolid (fun p hp => List.mem_cons_of_mem _ hp), hfst]
      refine ⟨qualsOf pairs, (buildComparabilityKey_eq_ok_iff hp).mpr ⟨?_, ?_⟩, ?_⟩
      · -- the other qualifiers have all the fields
        rw [hn]
        refine List.forall_mem_cons.mpr ⟨?_, ?_⟩
        · rw [hf']
          exact hw.ne
        · intro g hg
          have hmem : (label g, valueAt (qualsOf pairs) g) ∈ fields :=
            hrest' ▸ List.mem_map.mpr ⟨g, hg, rfl⟩
          exact (hws _ hmem).ne
      · -- their key is the same text
        rw [htext, hn]
        congr 1
        show Delimited.tailText '|' ((label f, valueAt quals f) :: fieldsOf rest quals)
          = Delimited.tailText '|' ((label f, valueAt (qualsOf pairs) f)
            :: fieldsOf rest (qualsOf pairs))
        rw [hf', hrest', Delimited.tailText_cons, Delimited.tailText_cons]
        exact congrArg (fun t => '|' :: (label f ++ t)) heq.symm
      · -- they are not the same qualifiers
        rw [sameQualifiers_iff hp, hn]
        intro hs
        refine hne ⟨hf'.symm.trans (hs f List.mem_cons_self).symm, ?_⟩
        rw [← hrest', fieldsOf, fieldsOf]
        apply List.map_congr_left
        intro g hg
        rw [hs g (List.mem_cons_of_mem _ hg)]

end Separation

/-! ## Conflicts -/

/-- SHA-256 and the canonical JSON together: equal hashes are hashes of one document. -/
def Revalidation.CollisionFree (T : Revalidation) : Prop :=
  ∀ d e : Doc, T.hash d = T.hash e → d.sorted = e.sorted

/-- Without collisions equal conflict keys come from equal comparability keys. -/
theorem key_eq_of_conflictKeyFor_eq {T : Revalidation} (hT : T.CollisionFree)
    {payload payload' : Doc}
    {key key' : String} (hkey : key ≠ "") (hkey' : key' ≠ "")
    (h : T.conflictKeyFor payload (some key) = T.conflictKeyFor payload' (some key')) :
    key = key' := by
  have hfield : ∀ (payload : Doc) (key : String), key ≠ "" → ∃ d : Doc,
      T.conflictKeyFor payload (some key) = T.hash d ∧ (d.field "identity").field "comparability"
      = .str key := by
    intro payload key hkey
    refine ⟨_, rfl, ?_⟩
    simp only [Doc.field, Doc.get?, if_neg hkey]
    rfl
  obtain ⟨d, hd, hdk⟩ := hfield payload key hkey
  obtain ⟨e, he, hek⟩ := hfield payload' key' hkey'
  have hsorted := hT d e (hd.symm.trans (h.trans he))
  have := Doc.field_congr (Doc.field_congr hsorted "identity") "comparability"
  rw [hdk, hek] at this
  exact Doc.str.inj this

theorem key_ne_empty {m : MetricDef} (hp : m.Plain) {quals : Dict String String} {key : String}
    (hk : buildComparabilityKey m quals = .ok key) : key ≠ "" := by
  intro heq
  have := ((buildComparabilityKey_eq_ok_iff hp).mp hk).2
  rw [heq, String.toList_append] at this
  simp at this

/-- What the key of a figure is for. -/
structure Separated (O : Ontology) (T : Revalidation) (m : MetricDef) (quals : Dict String String)
    (key : String) : Prop where
  /-- Equal keys are those of the same metric with the same qualifiers. -/
  keys : ∀ m' ∈ O.metrics, ∀ quals' key', buildComparabilityKey m' quals' = .ok key' →
    (key = key' ↔ m = m' ∧ SameQualifiers m quals quals')
  /-- A conflict with the figure has no member with other qualifiers. -/
  conflicts : ∀ m' ∈ O.metrics, ∀ quals' key', buildComparabilityKey m' quals' = .ok key' →
    ∀ drafts, ∀ c ∈ T.detectConflicts drafts, ∀ d ∈ drafts, ∀ d' ∈ drafts,
      T.draftKey d = c.conflictKey → T.draftKey d' = c.conflictKey → d.comparability = some key →
      d'.comparability = some key' → m = m' ∧ SameQualifiers m quals quals'

/-- **The key of a figure separates it** from every other figure, and from their conflicts, exactly
when the figure is not ambiguous. -/
theorem comparability_key_separates_iff (O : Ontology) (T : Revalidation) (hT : T.CollisionFree)
    (m : MetricDef)
    (hm : m ∈ O.metrics) (quals : Dict String String) (key : String)
    (hk : buildComparabilityKey m quals = .ok key) :
    Separated O T m quals key ↔ ¬ AmbiguousFigure m quals := by
  have hp := O.plain m hm
  constructor
  · intro h hamb
    obtain ⟨quals', hk', hne⟩ := exists_other_of_ambiguous hp hamb hk
    exact hne ((h.keys m hm quals' key hk').mp rfl).2
  · intro hamb
    refine ⟨?_, ?_⟩
    · intro m' hm' quals' key' hk'
      constructor
      · rintro rfl
        exact same_of_key_eq hm hm' hamb hk hk'
      · rintro ⟨rfl, hs⟩
        exact key_eq_of_sameQualifiers hp hk hk' hs
    · intro m' hm' quals' key' hk' drafts c hc d hd d' hd' hkey hkey' hcomp hcomp'
      have heq :
          T.conflictKeyFor d.payload (some key) = T.conflictKeyFor d'.payload (some key') := by
        have := hkey.trans hkey'.symm
        rwa [Revalidation.draftKey, Revalidation.draftKey, hcomp, hcomp'] at this
      obtain rfl :=
        key_eq_of_conflictKeyFor_eq hT (key_ne_empty hp hk) (key_ne_empty (O.plain m' hm') hk') heq
      exact same_of_key_eq hm hm' hamb hk hk'

/-! ## Two figures with one key -/

mutual

/-- A document as a JSON tree, with a number as the list of its text. -/
def Doc.coded : Doc → Json
  | .null => .null
  | .bool b => .bool b
  | .num literal => .arr [.str literal]
  | .str s => .str s
  | .arr xs => .arr (.null :: Doc.codedItems xs)
  | .obj members => .obj (Doc.codedMembers members)

def Doc.codedItems : List Doc → List Json
  | [] => []
  | x :: xs => x.coded :: Doc.codedItems xs

def Doc.codedMembers : List (String × Doc) → List (String × Json)
  | [] => []
  | (key, x) :: members => (key, x.coded) :: Doc.codedMembers members

end

mutual

/-- A document is known by its code. -/
theorem Doc.coded_injective : ∀ d e : Doc, d.coded = e.coded → d = e
  | .null, e, h => by cases e <;> simp_all [Doc.coded]
  | .bool b, e, h => by cases e <;> simp_all [Doc.coded]
  | .num literal, e, h => by cases e <;> simp_all [Doc.coded]
  | .str s, e, h => by cases e <;> simp_all [Doc.coded]
  | .arr xs, e, h => by
      cases e with
      | arr ys =>
          rw [Doc.coded, Doc.coded, Json.arr.injEq, List.cons.injEq] at h
          rw [Doc.codedItems_injective xs ys h.2]
      | _ => simp [Doc.coded] at h
  | .obj members, e, h => by
      cases e with
      | obj members' =>
          rw [Doc.coded, Doc.coded, Json.obj.injEq] at h
          rw [Doc.codedMembers_injective members members' h]
      | _ => simp [Doc.coded] at h

theorem Doc.codedItems_injective :
    ∀ xs ys : List Doc, Doc.codedItems xs = Doc.codedItems ys → xs = ys
  | [], [], _ => rfl
  | [], _ :: _, h => by cases h
  | _ :: _, [], h => by cases h
  | x :: xs, y :: ys, h => by
      rw [Doc.codedItems, Doc.codedItems, List.cons.injEq] at h
      rw [Doc.coded_injective x y h.1, Doc.codedItems_injective xs ys h.2]

theorem Doc.codedMembers_injective :
    ∀ ms ns : List (String × Doc), Doc.codedMembers ms = Doc.codedMembers ns → ms = ns
  | [], [], _ => rfl
  | [], _ :: _, h => by cases h
  | _ :: _, [], h => by cases h
  | (key, x) :: ms, (key', y) :: ns, h => by
      rw [Doc.codedMembers, Doc.codedMembers, List.cons.injEq, Prod.mk.injEq] at h
      rw [h.1.1, Doc.coded_injective x y h.1.2, Doc.codedMembers_injective ms ns h.2]

end

/-! ## The validator of the models -/

/-- `canonical_unit`; a value that is no text is kept. -/
def Doc.canonicalUnit : Doc → Doc
  | .str s => .str (String.ofList (Normalize.canonicalUnit s))
  | d => d

/-- `canonical_magnitude`, where it does not raise. -/
def Doc.magnitude (value scale : Doc) : Doc :=
  (Fingerprint.canonicalMagnitude value scale).toOption.getD value

/-- The validator with the units and the magnitudes of the models, under a hash. -/
def Revalidation.withModels (T : Revalidation) (hash : Doc → String) : Revalidation :=
  { T with hash := hash, canonicalUnit := Doc.canonicalUnit, magnitude := Doc.magnitude }

/-- Whether a document is a finite number does not depend on the order of its members. -/
theorem Doc.finite?_congr {d e : Doc} (h : d.sorted = e.sorted) : d.finite? = e.finite? := by
  cases d <;> cases e <;> simp_all [Doc.sorted, Doc.finite?]

theorem Doc.int?_congr {d e : Doc} (h : d.sorted = e.sorted) : d.int? = e.int? := by
  cases d <;> cases e <;> simp_all [Doc.sorted, Doc.int?]

theorem Doc.canonicalUnit_congr {d e : Doc} (h : d.sorted = e.sorted) :
    d.canonicalUnit.sorted = e.canonicalUnit.sorted := by
  cases d <;> cases e <;> simp_all [Doc.sorted, Doc.canonicalUnit]

/-- A magnitude is a token of its number, or the value itself. -/
theorem Doc.magnitude_congr {d e s t : Doc} (h : d.sorted = e.sorted) (hs : s.sorted = t.sorted) :
    (d.magnitude s).sorted = (e.magnitude t).sorted := by
  have hshift : Fingerprint.shiftOf s = Fingerprint.shiftOf t := by
    rw [Fingerprint.shiftOf, Doc.int?_congr hs, Fingerprint.shiftOf]
  cases hf : e.finite? with
  | none =>
      rw [Doc.magnitude, Doc.magnitude, Fingerprint.canonicalMagnitude,
        Fingerprint.canonicalMagnitude, Doc.finite?_congr h, hf]
      exact h
  | some a =>
      have hsame : Fingerprint.canonicalMagnitude d s = Fingerprint.canonicalMagnitude e t := by
        rw [Fingerprint.canonicalMagnitude, Fingerprint.canonicalMagnitude, Doc.finite?_congr h, hf,
          hshift]
      rw [Doc.magnitude, Doc.magnitude, hsame]
      cases Fingerprint.canonicalMagnitude e t with
      | ok x => rfl
      | error message => exact h

/-- The validator of the models does not see the order of members, as its hash does not. -/
theorem Revalidation.withModels_orderFree (T : Revalidation) {hash : Doc → String}
    (h : ∀ d e : Doc, d.sorted = e.sorted → hash d = hash e) : (T.withModels hash).OrderFree where
  hash := h
  unit _ _ := Doc.canonicalUnit_congr
  magnitude _ _ _ _ := Doc.magnitude_congr

/-- So it is with `hash_json`, under any digest. -/
theorem Revalidation.hashJson_orderFree (T : Revalidation) (sha256Hex : String → String) :
    (T.withModels (Fingerprint.hashJson sha256Hex)).OrderFree := by
  refine T.withModels_orderFree fun d e h => ?_
  rw [Fingerprint.hashJson, Fingerprint.hashJson, canonicalJson, canonicalJson, h]

/-- The validator of the models, with the codes of the documents for hashes. -/
def Revalidation.coded : Revalidation :=
  Revalidation.textual.withModels fun d => String.ofList d.sorted.coded.dump

/-- The coding of documents has no collisions. -/
theorem Revalidation.coded_collisionFree : Revalidation.coded.CollisionFree := by
  intro d e h
  exact Doc.coded_injective _ _ (Json.dump_injective (String.ofList_injective h))

def arrMetric : MetricDef := ⟨"arr", ["metric_id", "currency", "construction", "scope"]⟩

def arrQualifiers (currency construction : String) : Dict String String :=
  [("currency", currency), ("construction", construction), ("scope", "total")]

/-- A figure without the delimiter in its values. -/
theorem comparability_key_separates_iff_usd :
    buildComparabilityKey arrMetric (arrQualifiers " USD " "net")
        = .ok "metric_id=arr|currency=USD|construction=net|scope=total"
      ∧ Separated saasMetrics .coded arrMetric (arrQualifiers " USD " "net")
        "metric_id=arr|currency=USD|construction=net|scope=total" := by
  have hbuild : buildComparabilityKey arrMetric (arrQualifiers " USD " "net")
      = .ok "metric_id=arr|currency=USD|construction=net|scope=total" := by decide
  refine ⟨hbuild,
    (comparability_key_separates_iff saasMetrics .coded Revalidation.coded_collisionFree arrMetric
    List.mem_cons_self _ _ hbuild).mpr ?_⟩
  exact Delimited.not_ambiguous_of_not_mem (by decide) (by decide)

/-- **Two figures with one key**: the text of one currency runs on into the construction. -/
theorem construction_in_currency_shares_key :
    buildComparabilityKey arrMetric (arrQualifiers "USD" "net|construction=gross")
        = .ok "metric_id=arr|currency=USD|construction=net|construction=gross|scope=total"
      ∧ buildComparabilityKey arrMetric (arrQualifiers "USD|construction=net" "gross")
        = .ok "metric_id=arr|currency=USD|construction=net|construction=gross|scope=total"
      ∧ ¬ Separated saasMetrics .coded arrMetric (arrQualifiers "USD" "net|construction=gross")
        "metric_id=arr|currency=USD|construction=net|construction=gross|scope=total" := by
  have hother : buildComparabilityKey arrMetric (arrQualifiers "USD|construction=net" "gross")
      = .ok "metric_id=arr|currency=USD|construction=net|construction=gross|scope=total" := by
        decide
  refine ⟨by decide, hother, ?_⟩
  intro h
  have hs :=
    ((h.keys arrMetric List.mem_cons_self _ _ hother).mp rfl).2 "currency" (by decide) (by decide)
  revert hs
  decide

end Extraction
