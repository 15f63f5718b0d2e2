/-
# What the text of a snapshot says

* `canonical_bytes_iff`: the stored bytes of two payloads are equal exactly when the payloads are
  the same, their zeros apart.
* `text_is_payload`: the canonical text is JSON, and says what the payload says.
* `spans_are_observations`: the spans are the observations of the payload, and each stands in the
  section of its concept.
* `facts_are_cited`: the text that a fact cites is the observation that it comes from.
-/
import EvidenceLab.CompanyFactsWalk

/-! ## Dictionaries -/

namespace Dict

variable {κ α : Type} [DecidableEq κ] {d d' items : Dict κ α} {k : κ}

theorem mem_set {kv : κ × α} {v : α} (h : kv ∈ set d k v) : kv ∈ d ∨ kv = (k, v) := by
  induction d with
  | nil => exact .inr (List.mem_singleton.mp h)
  | cons x d ih =>
      obtain ⟨k', v'⟩ := x
      rw [set] at h
      split_ifs at h
      · exact (List.mem_cons.mp h).symm.imp (List.mem_cons_of_mem _) id
      · rcases List.mem_cons.mp h with rfl | h
        · exact .inl List.mem_cons_self
        · exact (ih h).imp (List.mem_cons_of_mem _) id

/-- The entries of an updated dictionary are old or new. -/
theorem mem_update {kv : κ × α} (h : kv ∈ update d items) : kv ∈ d ∨ kv ∈ items := by
  induction items generalizing d with
  | nil => exact .inl h
  | cons x items ih =>
      rcases ih (d := set d x.1 x.2) h with h | h
      · exact (mem_set h).imp id fun heq => List.mem_cons.mpr (.inl heq)
      · exact .inr (List.mem_cons_of_mem _ h)

/-- Updating keeps the keys of a dictionary distinct. -/
theorem nodup_keys_update (hd : (keys d).Nodup) : (keys (update d items)).Nodup := by
  induction items generalizing d with
  | nil => exact hd
  | cons x items ih => exact ih (d := set d x.1 x.2) (nodup_keys_set hd _ _)

/-- A dictionary in another order. -/
theorem get?_perm (hd : (keys d).Nodup) (h : d.Perm d') : get? d k = get? d' k := by
  have hd' : (keys d').Nodup := (h.map Prod.fst).nodup_iff.mp hd
  refine Option.ext fun v => ⟨fun hv => get?_of_mem hd' (h.mem_iff.mp (mem_of_get? hv)),
    fun hv => ?_⟩
  exact get?_of_mem hd (h.mem_iff.mpr (mem_of_get? hv))

end Dict

namespace CompanyFacts

open Filing (Section SourceSpan rootHeading spanName sectionName slice)
open Ingestion (DeriveError Tools)
open JsonReader (Style decode depth lenient lex mapDecimals mapItems mapMembers tokens write
  writeItems writeMembers)
open PyJson (Distinct DistinctItems DistinctMembers Leaves LeavesItems LeavesMembers Same byKey
  member normal plainNumber)
open Xbrl (CompanyFactsObservation NormalizedFact normalizeCompanyFacts decimalStr)

/-! ## Payloads -/

/-- No text with a lone surrogate. -/
def Encodable : PyJson → Prop :=
  Leaves (fun v => ∀ points, v ≠ .str (.lone points)) (fun k => ∃ s, k = .text s)

mutual

/-- A value that passes the check has no lone surrogate. -/
theorem encodable_of_eq_true : ∀ {v : PyJson}, encodable v = true → Encodable v
  | .null, _ => fun _ => PyJson.noConfusion
  | .bool _, _ => fun _ => PyJson.noConfusion
  | .int _, _ => fun _ => PyJson.noConfusion
  | .decimal _, _ => fun _ => PyJson.noConfusion
  | .str (.text s), _ => fun points h => by cases h
  | .str (.lone _), h => by cases h
  | .arr _, h => encodableItems_of_eq_true h
  | .obj _, h => encodableMembers_of_eq_true h

theorem encodableItems_of_eq_true : ∀ {vs : List PyJson}, encodableItems vs = true →
    LeavesItems (fun v => ∀ points, v ≠ .str (.lone points)) (fun k => ∃ s, k = .text s) vs
  | [], _ => trivial
  | _ :: _, h =>
      have hboth := Bool.and_eq_true_iff.mp h
      ⟨encodable_of_eq_true hboth.1, encodableItems_of_eq_true hboth.2⟩

theorem encodableMembers_of_eq_true : ∀ {ms : List (PyStr × PyJson)}, encodableMembers ms = true →
    LeavesMembers (fun v => ∀ points, v ≠ .str (.lone points)) (fun k => ∃ s, k = .text s) ms
  | [], _ => trivial
  | (.text s, _) :: _, h =>
      have hboth := Bool.and_eq_true_iff.mp h
      ⟨⟨⟨s, rfl⟩, encodable_of_eq_true hboth.1⟩, encodableMembers_of_eq_true hboth.2⟩
  | (.lone _, _) :: _, h => by cases h

end

/-- A dictionary tree that can be written: distinct keys, and texts with characters. -/
structure Payload (v : PyJson) : Prop where
  distinct : Distinct v
  encodable : Encodable v

/-- The members of a payload are payloads. -/
theorem Payload.member {ms : List (PyStr × PyJson)} (h : Payload (.obj ms)) {m : PyStr × PyJson}
    (hm : m ∈ ms) :
    Payload m.2 :=
  ⟨PyJson.distinctMembers_iff.mp h.distinct.2 m hm,
    (PyJson.leavesMembers_iff.mp h.encodable m hm).2⟩

/-- The items of a payload are payloads. -/
theorem Payload.item {vs : List PyJson} (h : Payload (.arr vs)) {v : PyJson} (hv : v ∈ vs) :
    Payload v :=
  ⟨PyJson.distinctItems_iff.mp h.distinct v hv, PyJson.leavesItems_iff.mp h.encodable v hv⟩

/-- Sorting keeps a payload a payload. -/
theorem Payload.sortKeys {v : PyJson} (h : Payload v) : Payload v.sortKeys :=
  ⟨(PyJson.shuffled_sortKeys v).distinct h.distinct,
    (PyJson.shuffled_sortKeys v).leaves h.encodable⟩

/-- A payload can be written and read back. -/
theorem Payload.readable {v : PyJson} (h : Payload v) : JsonReader.Readable (fun _ => True) v :=
  PyJson.readable_of_leaves (fun _ _ => trivial) (fun points hp => hp points rfl) (fun _ hk => hk)
    h.distinct h.encodable

mutual

/-- Leaves and keys may be described more loosely. -/
theorem leaves_mono {P P' : PyJson → Prop} {K K' : PyStr → Prop} (hP : ∀ v, P v → P' v)
    (hK : ∀ k, K k → K' k) :
    ∀ {v : PyJson}, Leaves P K v → Leaves P' K' v
  | .null, h => hP _ h
  | .bool _, h => hP _ h
  | .int _, h => hP _ h
  | .decimal _, h => hP _ h
  | .str _, h => hP _ h
  | .arr _, h => leavesItems_mono hP hK h
  | .obj _, h => leavesMembers_mono hP hK h

theorem leavesItems_mono {P P' : PyJson → Prop} {K K' : PyStr → Prop} (hP : ∀ v, P v → P' v)
    (hK : ∀ k, K k → K' k) :
    ∀ {vs : List PyJson}, LeavesItems P K vs → LeavesItems P' K' vs
  | [], _ => trivial
  | _ :: _, h => ⟨leaves_mono hP hK h.1, leavesItems_mono hP hK h.2⟩

theorem leavesMembers_mono {P P' : PyJson → Prop} {K K' : PyStr → Prop} (hP : ∀ v, P v → P' v)
    (hK : ∀ k, K k → K' k) :
    ∀ {ms : List (PyStr × PyJson)}, LeavesMembers P K ms → LeavesMembers P' K' ms
  | [], _ => trivial
  | (_, _) :: _, h => ⟨⟨hK _ h.1.1, leaves_mono hP hK h.1.2⟩, leavesMembers_mono hP hK h.2⟩

end

/-- The keys of a payload are distinct and well-formed. -/
theorem Payload.keyed {v : PyJson} (h : Payload v) : PyJson.Keyed v := by
  refine ⟨h.distinct, leaves_mono (fun _ _ => trivial) ?_ h.encodable⟩
  rintro _ ⟨s, rfl⟩
  trivial

/-- A decoded snapshot is a payload. -/
theorem payload_of_decodePayload {S : Tools} {py : Interpreter} {raw : List UInt8}
    {payload : List (PyStr × PyJson)}
    (h : decodePayload S py raw = .ok payload) (hencodable : encodableMembers payload ≠ false) :
    Payload (.obj payload) := by
  obtain ⟨decoded, -, h⟩ := Except.bind_eq_ok_iff.mp h
  obtain ⟨v, hv, h⟩ := Except.bind_eq_ok_iff.mp h
  have hdistinct : Distinct v := by
    suffices hclosed :
      JsonReader.Closed (decoder S py decoded.toList) Distinct from JsonReader.decode_induction
        hclosed hv
    refine ⟨trivial, fun _ => trivial, fun _ => trivial, ?_, ?_, ?_,
      fun items hitems => PyJson.distinctItems_iff.mpr hitems,
      ?_⟩
    · intro literal v hv
      simp only [decoder] at hv
      split_ifs at hv
      obtain rfl := Except.ok.inj hv
      trivial
    · intro literal v hv
      simp only [decoder] at hv
      split at hv
      · obtain rfl := Except.ok.inj hv
        trivial
      · cases hv
    · intro name v hv
      cases hv
    · intro members v hmembers hv
      obtain rfl := Except.ok.inj hv
      -- a later member of a key takes the place of the earlier one
      refine ⟨Dict.nodup_keys_update List.nodup_nil, PyJson.distinctMembers_iff.mpr fun m hm => ?_⟩
      rcases Dict.mem_update hm with hm | hm
      · cases hm
      · exact hmembers m hm
  have hv : v = .obj payload := by
    cases v with
    | obj members =>
      cases members with
      | nil => cases h
      | cons m members => rw [Except.ok.inj h]
    | _ => cases h
  subst hv
  exact ⟨hdistinct, encodableMembers_of_eq_true (Bool.eq_true_of_not_eq_false hencodable)⟩

/-! ## Texts -/

/-- The text is JSON for a value. -/
def Spells (text : List Char) (v : PyJson) : Prop :=
  ∃ maxDepth, decode (lenient maxDepth) text = .ok v

/-- The compact style writes digits alone. -/
theorem compactStyle_plain : compactStyle.Plain := ⟨Xbrl.decimalStr_eq, fun _ => rfl⟩

/-- The style of one observation writes digits alone. -/
theorem lineStyle_plain : lineStyle.Plain := ⟨Xbrl.decimalStr_eq, fun _ => rfl⟩

/-- A text with the tokens of a value spells it. -/
theorem spells_of_tokens {text : List Char} {v : PyJson} (hv : Payload v)
    (h : JsonReader.Lexes text (tokens lineStyle v.sortKeys)) : Spells text (normal v) := by
  refine ⟨depth v.sortKeys, JsonReader.decode_of_writes ?_ le_rfl⟩
  have hlex : lex text = tokens lineStyle v.sortKeys := by
    have hnil := h []
    rwa [List.append_nil, JsonReader.lex_nil, List.append_nil] at hnil
  rw [hlex]
  exact JsonReader.writes_tokens (JsonReader.reads_lenient _ lineStyle_plain)
    hv.sortKeys.readable le_rfl

/-- **A rendered value is read back.** -/
theorem spells_renderJsonValue {v : PyJson} (hv : Payload v) :
    Spells (renderJsonValue v) (normal v) :=
  ⟨depth v.sortKeys, JsonReader.decode_write_plain lineStyle_plain hv.sortKeys.readable le_rfl⟩

/-! ## Canonical bytes -/

/-- No decimal is a zero with a minus sign. -/
def UnsignedZeros : PyJson → Prop :=
  Leaves (fun v => ∀ d, v = .decimal d → d.value = 0 → d.neg = false) fun _ => True

/-- The text of a decimal without places is that of its integer. -/
theorem intText_signed {d : Decimal} (hwhole : d.plainParts.2 = 0)
    (hzero : d.value = 0 → d.neg = false) :
    Json.intText d.plain.signed = d.plainText := by
  have hnil := (Decimal.placeDigits_eq_nil_iff d).mpr hwhole
  have hdigits : d.wholeDigits = Nat.toDigits 10 d.plainParts.1 := by
    rw [← List.append_nil d.wholeDigits, ← hnil, Decimal.whole_append_places, hwhole,
      Decimal.paddedDigits_zero]
  have hvalue : d.plainParts.1 = 0 → d.value = 0 := by
    intro h0
    rw [← Decimal.plain_value d, Decimal.value_eq_signed, Decimal.plain, Decimal.signed]
    simp [h0]
  rw [Decimal.plainText_parts, hnil, JsonReader.fractionText, if_pos rfl, List.append_nil,
    hdigits, Json.intText,
    Decimal.signed]
  show _ = Decimal.signText d.neg ++ _
  cases hneg : d.neg with
  | false =>
    have hsigned : ¬ ((d.plainParts.1 : ℤ) < 0) := by omega
    simp [Decimal.plain, Decimal.signText, hneg]
  | true =>
    have hpos : 0 < d.plainParts.1 := by
      rcases Nat.eq_zero_or_pos d.plainParts.1 with h0 | hpos
      · rw [hzero (hvalue h0)] at hneg
        cases hneg
      · exact hpos
    simp [Decimal.plain, Decimal.signText, hneg, hpos]

mutual

/-- Numbers as they are read have the texts that were read. -/
theorem write_mapDecimals {style : Style} (hstyle : style.Plain) : ∀ {v : PyJson}, UnsignedZeros v →
    write style (mapDecimals plainNumber v) = write style v
  | .null, _ => rfl
  | .bool _, _ => rfl
  | .int _, _ => rfl
  | .decimal d, h => by
      show write style (plainNumber d) = style.decimal d
      rw [hstyle.decimal, plainNumber]
      split_ifs with hwhole
      · exact intText_signed hwhole (h d rfl)
      · show style.decimal d.plain = _
        rw [hstyle.decimal, Decimal.plainText_eq_iff]
        exact ⟨Decimal.plain_value d, fun _ => rfl⟩
  | .str _, _ => rfl
  | .arr _, h => congrArg (fun text => '[' :: (text ++ [']'])) (writeItems_mapItems hstyle h)
  | .obj _,
      h => congrArg (fun text => '\x7b' :: (text ++ ['\x7d'])) (writeMembers_mapMembers hstyle h)

/-- Items are written with their decimals in plain notation. -/
theorem writeItems_mapItems {style : Style} (hstyle : style.Plain) : ∀ {vs : List PyJson},
    LeavesItems (fun v => ∀ d, v = .decimal d → d.value = 0 → d.neg = false) (fun _ => True) vs →
    writeItems style (mapItems plainNumber vs) = writeItems style vs
  | [], _ => rfl
  | [_], h => write_mapDecimals hstyle h.1
  | v :: w :: vs, h => by
      have hrest :
        LeavesItems (fun v => ∀ d, v = .decimal d → d.value = 0 → d.neg = false) (fun _ => True)
          (w :: vs) := h.2
      have hitems := writeItems_mapItems hstyle hrest
      rw [mapItems] at hitems
      rw [mapItems, mapItems, writeItems, writeItems, write_mapDecimals hstyle h.1, hitems]

theorem writeMembers_mapMembers {style : Style} (hstyle : style.Plain) :
    ∀ {ms : List (PyStr × PyJson)},
    LeavesMembers (fun v => ∀ d, v = .decimal d → d.value = 0 → d.neg = false) (fun _ => True) ms →
    writeMembers style (mapMembers plainNumber ms) = writeMembers style ms
  | [], _ => rfl
  | [(_, _)], h => by
      rw [mapMembers, mapMembers, writeMembers, writeMembers, write_mapDecimals hstyle h.1.2]
  | (_, v) :: (k, w) :: ms, h => by
      have hrest :
        LeavesMembers (fun v => ∀ d, v = .decimal d → d.value = 0 → d.neg = false) (fun _ => True)
        ((k, w) :: ms) := h.2
      have hmembers := writeMembers_mapMembers hstyle hrest
      rw [mapMembers] at hmembers
      rw [mapMembers, mapMembers, writeMembers, writeMembers, write_mapDecimals hstyle h.1.2,
        hmembers]

end

/-- Equal bytes are those of equal texts. -/
theorem utf8_injective {a b : List Char}
    (h : a.flatMap String.utf8EncodeChar = b.flatMap String.utf8EncodeChar) : a = b := by
  have henc : a.utf8Encode = b.utf8Encode := congrArg List.toByteArray h
  have hdec := congrArg ByteArray.utf8Decode? henc
  rw [List.utf8Decode?_utf8Encode, List.utf8Decode?_utf8Encode, Option.some.injEq] at hdec
  exact congrArg Array.toList hdec

/-- **Equal bytes, the same payload.**  The other way, a zero with a minus sign is written apart
from one without. -/
theorem canonical_bytes_iff {v w : PyJson} (hv : Distinct v) (hw : Distinct w)
    (hencodable : encodable v = true)
    (hencodable' : encodable w = true) :
    (canonicalCompanyFactsBytes v = canonicalCompanyFactsBytes w → Same v w)
      ∧ (Same v w → UnsignedZeros v → UnsignedZeros w →
        canonicalCompanyFactsBytes v = canonicalCompanyFactsBytes w) := by
  have hpv : Payload v := ⟨hv, encodable_of_eq_true hencodable⟩
  have hpw : Payload w := ⟨hw, encodable_of_eq_true hencodable'⟩
  have hbytes : canonicalCompanyFactsBytes v = canonicalCompanyFactsBytes w ↔
      compactJsonValue v = compactJsonValue w := by
    rw [canonicalCompanyFactsBytes, canonicalCompanyFactsBytes, if_pos hencodable,
      if_pos hencodable', Option.some.injEq]
    exact ⟨utf8_injective, fun h => congrArg (List.flatMap String.utf8EncodeChar) h⟩
  rw [hbytes]
  constructor
  · intro h
    have hnormal : normal v = normal w :=
      JsonReader.mapDecimals_of_write_eq compactStyle_plain hpv.sortKeys.readable
        hpw.sortKeys.readable h
    exact (PyJson.normal_eq_iff hpv.keyed).mp hnormal
  · intro hsame hzeros hzeros'
    have hwrite : ∀ {u : PyJson}, UnsignedZeros u →
        compactJsonValue u = write compactStyle (normal u) := fun hu =>
      (write_mapDecimals compactStyle_plain ((PyJson.shuffled_sortKeys _).leaves hu)).symm
    rw [hwrite hzeros, hwrite hzeros', hsame.normal_eq hpv.keyed]

/-- Two spellings of one payload. -/
def spelledTwice (first : Bool) : PyJson :=
  if first then .obj [(.text "val", .decimal ⟨false, 10, -1⟩), (.text "fy", .int 2024)]
  else .obj [(.text "fy", .int 2024), (.text "val", .int 1)]

theorem canonical_bytes_iff_spelledTwice :
    canonicalCompanyFactsBytes (spelledTwice true) = canonicalCompanyFactsBytes (spelledTwice false)
      ∧ Same (spelledTwice true) (spelledTwice false) := by
  have hbytes : canonicalCompanyFactsBytes (spelledTwice true)
      = canonicalCompanyFactsBytes (spelledTwice false) := by
    decide +kernel
  have hdistinct : ∀ first, Distinct (spelledTwice first) := by
    intro first
    cases first with
    | true => exact ⟨by decide, trivial, trivial, trivial⟩
    | false => exact ⟨by decide, trivial, trivial, trivial⟩
  exact ⟨hbytes,
    (canonical_bytes_iff (hdistinct true) (hdistinct false) (by decide) (by decide)).1 hbytes⟩

/-! ## Where an observation stands -/

/-- The members that lead to an entry: `facts`, its taxonomy, its concept, `units` and its unit. -/
def Stands (payload : List (PyStr × PyJson)) (e : Entry) : Prop :=
  ∃ facts concepts concept units observations, (.text "facts", .obj facts) ∈ payload ∧
    (e.taxonomy, .obj concepts) ∈ facts
    ∧ (e.name, .obj concept) ∈ concepts ∧ e.label = labelOf concept
      ∧ (.text "units", .obj units) ∈ concept
    ∧ (e.unit, .arr observations) ∈ units ∧ .obj e.observation ∈ observations

/-- The members of an object. -/
theorem mem_membersOf {v : PyJson} {m : PyStr × PyJson} :
    m ∈ membersOf v ↔ ∃ members, v = .obj members ∧ m ∈ members := by
  cases v with
  | obj members => simp [membersOf]
  | _ => simp [membersOf]

/-- The items of an array. -/
theorem mem_itemsOf {v x : PyJson} : x ∈ itemsOf v ↔ ∃ items, v = .arr items ∧ x ∈ items := by
  cases v with
  | arr items => simp [itemsOf]
  | _ => simp [itemsOf]

/-- Ordering members drops none. -/
theorem mem_byKey {ms : List (PyStr × PyJson)} {m : PyStr × PyJson} : m ∈ byKey ms ↔ m ∈ ms :=
  StableSort.mem_sortBy

/-- **The entries are the observations of the payload.** -/
theorem mem_entries_iff {payload : List (PyStr × PyJson)} {e : Entry} :
    e ∈ entries payload ↔ Stands payload e := by
  constructor
  · intro h
    obtain ⟨⟨root, v⟩, hfacts, h⟩ := List.mem_flatMap.mp h
    rw [documentEntries] at h
    split_ifs at h with hroot
    case neg => cases h
    obtain rfl : root = .text "facts" := hroot
    obtain ⟨⟨taxonomy, t⟩, htaxonomy, h⟩ := List.mem_flatMap.mp h
    obtain ⟨⟨name, c⟩, hconcept, h⟩ := List.mem_flatMap.mp h
    obtain ⟨⟨key, u⟩, hunits, h⟩ := List.mem_flatMap.mp h
    rw [memberEntries] at h
    split_ifs at h with hkey
    case neg => cases h
    obtain rfl : key = .text "units" := hkey
    obtain ⟨⟨unit, o⟩, hunit, h⟩ := List.mem_flatMap.mp h
    obtain ⟨x, hx, h⟩ := List.mem_flatMap.mp h
    obtain ⟨facts, rfl, htaxonomy'⟩ := mem_membersOf.mp (mem_byKey.mp htaxonomy)
    obtain ⟨concepts, rfl, hconcept'⟩ := mem_membersOf.mp (mem_byKey.mp hconcept)
    obtain ⟨concept, rfl, hunits'⟩ := mem_membersOf.mp (mem_byKey.mp hunits)
    obtain ⟨units, rfl, hunit'⟩ := mem_membersOf.mp (mem_byKey.mp hunit)
    obtain ⟨observations, rfl, hx'⟩ := mem_itemsOf.mp hx
    cases x with
    | obj observation =>
      obtain rfl := List.mem_singleton.mp h
      exact ⟨facts, concepts, concept, units, observations, mem_byKey.mp hfacts, htaxonomy',
        hconcept', rfl, hunits', hunit',
        hx'⟩
    | _ => cases h
  · rintro ⟨facts, concepts, concept, units, observations, hfacts, htaxonomy, hconcept, hlabel,
    hunits, hunit, hx⟩
    refine List.mem_flatMap.mpr ⟨_, mem_byKey.mpr hfacts, ?_⟩
    rw [documentEntries, if_pos rfl]
    refine List.mem_flatMap.mpr ⟨_, mem_byKey.mpr htaxonomy,
      List.mem_flatMap.mpr ⟨_, mem_byKey.mpr hconcept,
      List.mem_flatMap.mpr ⟨_, mem_byKey.mpr hunits, ?_⟩⟩⟩
    rw [memberEntries, if_pos rfl]
    refine List.mem_flatMap.mpr ⟨_, mem_byKey.mpr hunit, List.mem_flatMap.mpr ⟨_, hx, ?_⟩⟩
    refine List.mem_singleton.mpr ?_
    obtain ⟨taxonomy, name, label, unit, observation⟩ := e
    exact congrArg (fun label => Entry.mk taxonomy name label unit observation) hlabel

/-- The observation has a number. -/
def Entry.numbered (e : Entry) : Bool :=
  ((Dict.get? e.observation (.text "val")).bind magnitude).isSome

/-- The observation of an entry is a payload. -/
theorem Stands.payload {payload : List (PyStr × PyJson)} {e : Entry} (h : Stands payload e)
    (hp : Payload (.obj payload)) :
    Payload (.obj e.observation) := by
  obtain ⟨facts, concepts, concept, units, observations, hfacts, htaxonomy, hconcept, -,
    hunits, hunit, hx⟩ := h
  exact ((((hp.member hfacts).member htaxonomy).member hconcept).member hunits).member
    hunit |>.item hx

/-! ## One observation -/

/-- A snapshot of one observation. -/
def oneShare : List UInt8 :=
  "\x7b\"facts\":\x7b\"dei\":\x7b\"Shares\":\x7b\"units\":\x7b\"shares\":[\x7b\"end\":\"2024-09-28\",\"val\":1.5\x7d]\x7d\x7d\x7d\x7d\x7d".toList.flatMap
    String.utf8EncodeChar

def oneShareSeed : String := "fb5d4c3e-3b0c-5e6e-9a38-0c8a5f6f3d11"

/-- The hash of the observation, and the identifiers of what is made from the seed. -/
def oneShareTools : Tools where
  sha256Hex _ := "73806799aa154e846437831ea9a92216a80b9a540fd36e2fef9a8229018f94f5"
  uuid5 name :=
    if name = oneShareSeed ++ "|section|0" then "3d2c4a9b-f4f8-51f0-b027-98bf4980b8b5"
    else if name = oneShareSeed ++ "|section|1" then "6cea96fb-3957-505c-acd8-656382d3551d"
    else if name = oneShareSeed ++ "|span|99|132" then "f5b44eeb-74ac-59c3-b976-7845a1e64cec"
    else "6e926e1d-3855-57f1-922b-a3723c260897"
  uuid5Url _ := ""
  repr text := "'" ++ text ++ "'"

/-- Nothing is printed. -/
def quiet : Interpreter := ⟨fun _ => "", fun _ => [], fun _ => "", fun _ => 0, 900⟩

/-- A result that passes a test is there. -/
theorem exists_of_any {ε α : Type} {x : Except ε α} {p : α → Bool} (h : x.toOption.any p = true) :
    ∃ a, x = .ok a ∧ p a = true := by
  cases x with
  | ok a => exact ⟨a, rfl, h⟩
  | error e => cases h

/-- The snapshot has one span, and one fact. -/
theorem exists_oneShare :
    ∃ parsed fact, parseCompanyFacts oneShareTools quiet oneShareSeed "" oneShare = .ok parsed
    ∧ normalizeCompanyFacts oneShareTools.uuid5 "" oneShareSeed parsed.observations = .ok [fact]
    ∧ parsed.spans.length = 1 ∧ fact.value = "1.5".toList := by
  have h :
    ((parseCompanyFacts oneShareTools quiet oneShareSeed "" oneShare).toOption.any fun parsed =>
      parsed.spans.length = 1
        && (normalizeCompanyFacts oneShareTools.uuid5 "" oneShareSeed
            parsed.observations).toOption.any fun facts =>
          facts.map (fun f => f.value) = ["1.5".toList]) = true := by
    decide +kernel
  obtain ⟨parsed, hparsed, hok⟩ := exists_of_any h
  obtain ⟨hspans, hok⟩ := Bool.and_eq_true_iff.mp hok
  obtain ⟨facts, hfacts, hvalues⟩ := exists_of_any hok
  obtain ⟨fact, rfl, hvalue⟩ := List.map_eq_singleton_iff.mp (of_decide_eq_true hvalues)
  exact ⟨parsed, fact, hparsed, hfacts, of_decide_eq_true hspans, hvalue⟩

/-! ## The parsed snapshot -/

section Parsed

variable {S : Tools} {py : Interpreter} {seed contentHash : String} {raw : List UInt8}
    {parsed : ParsedCompanyFacts}

/-- What the parser did. -/
theorem walk_of_parse (h : parseCompanyFacts S py seed contentHash raw = .ok parsed) :
    ∃ payload b, decodePayload S py raw = .ok payload ∧ Payload (.obj payload)
      ∧ Walk S py seed none (tokens lineStyle (PyJson.obj payload).sortKeys) (entries payload) {} b
      ∧ parsed.text = b.text
      ∧ (∃ root : Section, parsed.sections = root :: b.sections ∧ root.order = 0
        ∧ root.startChar = 0
        ∧ root.endChar = b.text.length ∧ root.id = S.uuid5 (sectionName seed 0))
      ∧ parsed.spans = b.spans ∧ parsed.observations = b.observations := by
  obtain ⟨payload, hpayload, h⟩ := Except.bind_eq_ok_iff.mp h
  obtain ⟨u, hraise, h⟩ := Except.bind_eq_ok_iff.mp h
  obtain ⟨b, hb, h⟩ := Except.bind_eq_ok_iff.mp h
  obtain rfl := Except.ok.inj h
  have hencodable := Except.raiseIf_eq_ok_iff.mp hraise
  exact ⟨payload, b, hpayload, payload_of_decodePayload hpayload hencodable, walk_document hb, rfl,
    ⟨_, rfl, rfl, rfl, rfl, rfl⟩, rfl, rfl⟩

/-- **The canonical text says what the payload says**, and spells it as every rendering of the same
payload does. -/
theorem text_is_payload (h : parseCompanyFacts S py seed contentHash raw = .ok parsed) :
    ∃ payload, decodePayload S py raw = .ok payload ∧ Spells parsed.text (normal (.obj payload))
      ∧ Same (.obj payload) (normal (.obj payload)) := by
  obtain ⟨payload, b, hpayload, hp, hwalk, htext, -⟩ := walk_of_parse h
  obtain ⟨piece, hpiece, hlexes⟩ := hwalk.written
  have hb : b.text = piece := hpiece
  refine ⟨payload, hpayload, ?_, PyJson.same_normal _⟩
  rw [htext, hb]
  exact spells_of_tokens hp hlexes

theorem text_is_payload_oneShare : ∃ text payload, Spells text (normal (.obj payload))
    ∧ decodePayload oneShareTools quiet oneShare = .ok payload := by
  obtain ⟨parsed, -, h, -⟩ := exists_oneShare
  obtain ⟨payload, hpayload, hspells, -⟩ := text_is_payload h
  exact ⟨parsed.text, payload, hspells, hpayload⟩

/-- The citations that the parser made, one for each observation of the payload. -/
theorem citations_of_parse (h : parseCompanyFacts S py seed contentHash raw = .ok parsed) :
    ∃ payload, decodePayload S py raw = .ok payload ∧ Payload (.obj payload)
      ∧ ∃ cs : List Citation, cs.map Citation.entry = entries payload
        ∧ parsed.spans = cs.map Citation.span
        ∧ parsed.observations = cs.filterMap Citation.observation
        ∧ (∀ c ∈ cs, c.Ok S py seed parsed.text ∧ Stands payload c.entry
          ∧ Spells (slice parsed.text c.span.startChar c.span.endChar)
          (normal (.obj c.entry.observation))
          ∧ ∃ s ∈ parsed.sections, Home c s)
        ∧ cs.Pairwise (fun c d => c.span.endChar ≤ d.span.startChar) := by
  obtain ⟨payload, b, hpayload, hp, hwalk, htext, ⟨root, hroot, -⟩, hspans, hobs⟩ := walk_of_parse h
  obtain ⟨cs, sections, hes, hcs, hco, hsections, hok, hpair, -, -, -, -, hhome⟩ := hwalk.cited
  have hsections' : b.sections = sections := hsections
  refine ⟨payload, hpayload, hp, cs, hes, hspans.trans hcs, hobs.trans hco, fun c hc => ?_, hpair⟩
  have hstands : Stands payload c.entry := mem_entries_iff.mp (hes ▸ List.mem_map_of_mem hc)
  have hcited := (hok c hc).1
  rw [htext, hcited.slice, hcited.covered]
  refine ⟨hcited, hstands, spells_renderJsonValue (hstands.payload hp), ?_⟩
  rcases hhome c hc with hopen | ⟨s, hs, hhome⟩
  · cases hopen
  · rw [hroot, hsections']
    exact ⟨s, List.mem_cons_of_mem _ hs, hhome⟩

/-- The sections of the text: the root covers it, and the others follow one another. -/
theorem sections_of_parse (h : parseCompanyFacts S py seed contentHash raw = .ok parsed) :
    parsed.sections.map Section.order = List.range parsed.sections.length
      ∧ (parsed.sections.drop 1).Pairwise (fun s u => s.endChar ≤ u.startChar)
      ∧ ∀ s ∈ parsed.sections, s.startChar ≤ s.endChar ∧ s.endChar ≤ parsed.text.length
        ∧ s.id = S.uuid5 (sectionName seed s.order) := by
  obtain ⟨payload, b, -, -, hwalk, htext, ⟨root, hroot, horder, hstart, hstop, hid⟩, -⟩ :=
    walk_of_parse h
  obtain ⟨cs, sections, -, -, -, hsections, -, -, hsec, hsecPair, horders, -⟩ := hwalk.cited
  have hsections' : b.sections = sections := hsections
  refine ⟨?_, ?_, fun s hs => ?_⟩
  · rw [hroot, hsections', List.map_cons, horder, horders, List.length_cons, List.range_eq_range',
    List.range'_succ]
    rfl
  · rw [hroot, hsections']
    exact hsecPair
  · rw [hroot, hsections'] at hs
    rw [htext]
    rcases List.mem_cons.mp hs with rfl | hs
    · rw [hstart, hstop, horder, hid]
      exact ⟨Nat.zero_le _, le_rfl, rfl⟩
    · obtain ⟨-, hrange, hend, hname⟩ := hsec s hs
      exact ⟨hrange, hwalk.located ▸ hend, hname⟩

/-- **The spans are the observations of the payload**, one after the other, each where its text
stands, and in the section of its concept. -/
theorem spans_are_observations (h : parseCompanyFacts S py seed contentHash raw = .ok parsed) :
    ∃ payload, decodePayload S py raw = .ok payload ∧ ∃ cs : List Citation,
    cs.map Citation.entry = entries payload
      ∧ parsed.spans = cs.map Citation.span
      ∧ parsed.observations = cs.filterMap Citation.observation
      ∧ (∀ c ∈ cs, c.Ok S py seed parsed.text ∧ Stands payload c.entry
        ∧ Spells (slice parsed.text c.span.startChar c.span.endChar)
        (normal (.obj c.entry.observation))
        ∧ ∃ s ∈ parsed.sections, Home c s)
      ∧ cs.Pairwise (fun c d => c.span.endChar ≤ d.span.startChar)
      ∧ parsed.sections.map Section.order = List.range parsed.sections.length
      ∧ (parsed.sections.drop 1).Pairwise (fun s u => s.endChar ≤ u.startChar)
      ∧ ∀ s ∈ parsed.sections, s.startChar ≤ s.endChar ∧ s.endChar ≤ parsed.text.length
        ∧ s.id = S.uuid5 (sectionName seed s.order) := by
  obtain ⟨payload, hpayload, -, cs, hes, hspans, hobs, hok, hpair⟩ := citations_of_parse h
  exact ⟨payload, hpayload, cs, hes, hspans, hobs, hok, hpair, sections_of_parse h⟩

theorem spans_are_observations_oneShare : ∃ parsed payload c,
    parseCompanyFacts oneShareTools quiet oneShareSeed "" oneShare = .ok parsed
      ∧ decodePayload oneShareTools quiet oneShare = .ok payload ∧ entries payload = [c.entry]
      ∧ parsed.spans = [c.span]
      ∧
      Spells (slice parsed.text c.span.startChar c.span.endChar) (normal (.obj c.entry.observation))
      ∧ ∃ s ∈ parsed.sections, Home c s := by
  obtain ⟨parsed, fact, h, -, hspans, -⟩ := exists_oneShare
  obtain ⟨payload, hpayload, cs, hentries, hspans', -, hok, -⟩ := spans_are_observations h
  rw [hspans', List.length_map] at hspans
  obtain ⟨c, rfl⟩ := List.length_eq_one_iff.mp hspans
  obtain ⟨-, -, hspells, hhome⟩ := hok c List.mem_cons_self
  exact ⟨parsed, payload, c, h, hpayload, hentries.symm, hspans', hspells, hhome⟩

/-- A member of a normal form is the normal form of the member. -/
theorem get?_normal {ms : List (PyStr × PyJson)} (h : Payload (.obj ms)) (k : PyStr) :
    Dict.get? (byKey (ms.map fun m => (m.1, normal m.2))) k = (Dict.get? ms k).map normal := by
  have hkeys : Dict.keys (ms.map fun m => (m.1, normal m.2)) = ms.map Prod.fst := by
    rw [Dict.keys, List.map_map]
    rfl
  have hnodup : (Dict.keys (ms.map fun m => (m.1, normal m.2))).Nodup := hkeys ▸ h.distinct.1
  refine (Dict.get?_perm hnodup (StableSort.sortBy_perm _ _).symm).symm.trans ?_
  exact Dict.get?_map ms (fun _ v => normal v) k

/-- The normal form keeps the number of an observation. -/
theorem number?_normal {v : PyJson} {d : Decimal} (h : magnitude v = some d) :
    (normal v).number? = some d.value := by
  cases v with
  | int i =>
    obtain rfl := Option.some.inj h
    rw [PyJson.value_ofInt]
    rfl
  | decimal d' =>
    obtain rfl := Option.some.inj h
    exact PyJson.number?_plainNumber d'
  | _ => cases h

/-- A fact says what its observation says, and cites the text of it: an object whose `val` is the
number of the fact and whose `end` is the end of its period. -/
structure Cites (py : Interpreter) (text : List Char) (c : Citation) (f : NormalizedFact) :
    Prop where
  concept : f.concept = c.entry.qualified
  label : f.label = c.entry.label
  unit : f.unit = Xbrl.mapUnit (textOf c.entry.unit).toList
  dimensions : f.dimensions = dimensionsOf py c.entry.observation
  restates : f.restates = none
  span : f.sourceSpanId = c.span.id
  slice : ∃ members, Spells (slice text c.span.startChar c.span.endChar) (.obj members)
    ∧ (Dict.get? members (.text "val")).bind PyJson.number? = some (Decimal.readFixed f.value)
    ∧ ∃ s d, Dict.get? members (.text "end") = some (.str s)
      ∧ Calendar.fromIsoFormat (textOf s).toList = some d
      ∧ (f.period = .instant d ∨ ∃ start, f.period = .duration start d)

/-- The record of an observation cites it. -/
theorem cites_makeRecord {text : List Char} {c : Citation} {o : CompanyFactsObservation}
    {entityId versionId : String}
    {ordinal : ℕ} {duplicateOf : Option String} (hcited : c.Ok S py seed text)
    (hp : Payload (.obj c.entry.observation))
    (hspells : Spells (Filing.slice text c.span.startChar c.span.endChar)
      (normal (.obj c.entry.observation)))
    (hco : c.observation = some o) :
    Cites py text c (Xbrl.makeRecord S.uuid5 entityId versionId (Xbrl.observedOccurrence o)
      ordinal duplicateOf
      (Xbrl.restated [] (Xbrl.observedOccurrence o))) := by
  have hsees := hcited.observed o hco
  refine ⟨hsees.concept, hsees.label, congrArg Xbrl.mapUnit hsees.unit, hsees.dimensions, rfl,
    hsees.spanId, _,
    PyJson.normal_obj _ ▸ hspells, ?_, ?_⟩
  · obtain ⟨v, hv, hmag⟩ := Option.bind_eq_some_iff.mp hsees.value
    rw [get?_normal hp, hv]
    show (normal v).number? = some (Decimal.readFixed (decimalStr o.value))
    rw [number?_normal hmag, Xbrl.readFixed_decimalStr]
  · obtain ⟨s, hs, hdate⟩ := hsees.periodEnd
    refine ⟨s, o.periodEnd, ?_, hdate, ?_⟩
    · have hend : Dict.get? c.entry.observation (.text "end") = some (.str s) := by
        rw [member] at hs
        cases hget : Dict.get? c.entry.observation (.text "end") with
        | none =>
          rw [hget] at hs
          cases hs
        | some v =>
          rw [hget] at hs
          exact congrArg some hs
      rw [get?_normal hp, hend]
      rfl
    · show (Xbrl.observedOccurrence o).period = _ ∨ _
      rw [Xbrl.observedOccurrence]
      cases o.periodStart with
      | none => exact .inl rfl
      | some start => exact .inr ⟨start, rfl⟩

/-- What belongs to the results of a list belongs to the members that have one. -/
theorem forall₂_filterMap {α β γ : Type} {f : α → Option β} {R : β → γ → Prop} :
    ∀ {l : List α} {ys : List γ},
    List.Forall₂ R (l.filterMap f) ys →
      List.Forall₂ (fun a y => a ∈ l ∧ ∃ b, f a = some b ∧
        R b y) (l.filter fun a => (f a).isSome) ys
  | [], _, h => by
      cases h
      exact .nil
  | a :: l, ys, h => by
      have htail : ∀ {ys : List γ}, List.Forall₂ R (l.filterMap f) ys → List.Forall₂
          (fun a' y => a' ∈ a :: l ∧ ∃ b, f a' = some b ∧ R b y) (l.filter fun a => (f a).isSome)
          ys := fun h =>
        (forall₂_filterMap h).imp fun _ _ hx => ⟨List.mem_cons_of_mem _ hx.1, hx.2⟩
      cases ha : f a with
      | none =>
        rw [List.filterMap_cons_none ha] at h
        rw [List.filter_cons_of_neg (by simp [ha])]
        exact htail h
      | some b =>
        rw [List.filterMap_cons_some ha] at h
        rw [List.filter_cons_of_pos (by simp [ha])]
        cases h with
        | cons hb h => exact .cons ⟨List.mem_cons_self, b, ha, hb⟩ (htail h)

/-- **What a fact cites.**  The facts are those of the observations with a number, one for each and
in their order, and a fact cites the span of its observation. -/
theorem facts_are_cited {entityId versionId : String} {facts : List NormalizedFact}
    (h : parseCompanyFacts S py seed contentHash raw = .ok parsed)
    (hfacts : normalizeCompanyFacts S.uuid5 entityId versionId parsed.observations = .ok facts) :
    ∃ payload, decodePayload S py raw = .ok payload
      ∧ ∃ cs : List Citation, cs.map Citation.entry = entries payload
      ∧ parsed.spans = cs.map Citation.span
        ∧ (∀ c ∈ cs, Stands payload c.entry)
        ∧ cs.Pairwise (fun c d => c.span.endChar ≤ d.span.startChar)
        ∧ List.Forall₂ (Cites py parsed.text) (cs.filter fun c => c.entry.numbered) facts := by
  obtain ⟨payload, hpayload, hpayloadOk, cs, hes, hspans, hobs, hok, hpair⟩ := citations_of_parse h
  obtain ⟨st, hst, rfl⟩ :=
    Xbrl.records_eq_ok_iff.mp ((Xbrl.normalizeCompanyFacts_eq _).symm.trans hfacts)
  have hmade := (Xbrl.run_fold hst).made
  rw [hobs, List.forall₂_map_left_iff] at hmade
  -- an observation has a number exactly when the parser kept it
  have hnumbered :
      (cs.filter fun c => c.observation.isSome) = cs.filter fun c => c.entry.numbered := by
    refine List.filter_congr fun c hc => ?_
    cases hco : c.observation with
    | none => simp [Entry.numbered, (hok c hc).1.skipped hco]
    | some o => simp [Entry.numbered, ((hok c hc).1.observed o hco).value]
  refine ⟨payload, hpayload, cs, hes, hspans, fun c hc => (hok c hc).2.1, hpair, ?_⟩
  rw [← hnumbered]
  refine (forall₂_filterMap hmade).imp ?_
  rintro c f ⟨hc, o, hco, ordinal, duplicateOf, rfl⟩
  obtain ⟨hcited, hstands, hspells, -⟩ := hok c hc
  exact cites_makeRecord hcited (hstands.payload hpayloadOk) hspells hco

theorem facts_are_cited_oneShare :
    ∃ parsed fact, parseCompanyFacts oneShareTools quiet oneShareSeed "" oneShare = .ok parsed
    ∧ normalizeCompanyFacts oneShareTools.uuid5 "" oneShareSeed parsed.observations = .ok [fact]
    ∧ fact.value = "1.5".toList ∧ ∃ c, parsed.spans = [c.span]
    ∧ Cites quiet parsed.text c fact := by
  obtain ⟨parsed, fact, h, hfacts, hspans, hvalue⟩ := exists_oneShare
  obtain ⟨payload, -, cs, -, hspans', -, -, hcites⟩ := facts_are_cited h hfacts
  refine ⟨parsed, fact, h, hfacts, hvalue, ?_⟩
  rw [hspans', List.length_map] at hspans
  obtain ⟨c, rfl⟩ := List.length_eq_one_iff.mp hspans
  cases hnumbered : c.entry.numbered with
  | false =>
    rw [List.filter_cons_of_neg (by simp [hnumbered])] at hcites
    cases hcites
  | true =>
    rw [List.filter_cons_of_pos (by simp [hnumbered])] at hcites
    cases hcites with
    | cons hc _ => exact ⟨c, hspans', hc⟩

end Parsed

end CompanyFacts
