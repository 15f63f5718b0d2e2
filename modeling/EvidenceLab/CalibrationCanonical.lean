/-
# The canonical form of calibration datasets

What `canonical_dataset_bytes` writes, `load_dataset` reads as the same dataset.

* `weight` bounds the bytes of a document whatever the order of its members; the dictionary of a
  parsed dataset stays below `_MAX_BYTES` (`weight_project_le`).
* `loadDataset_dump` is the round trip, and `canonical_form` the whole: the canonical bytes are a
  fixed point, every order and every layout of an accepted source that fits is accepted as the same
  dataset, and digests tell datasets apart up to these orders.
-/
import EvidenceLab.CalibrationLoad
import EvidenceLab.CalibrationOrder
import EvidenceLab.JsonGrammar
import EvidenceLab.Tabulated

namespace CalibrationDataset

open PyJson (Shuffled ShuffledItems ShuffledMembers shuffledItems_iff shuffledMembers_iff Distinct
  Leaves LeavesItems
  LeavesMembers shuffled_sortKeys)
open JsonReader (quote write writeItems writeMembers writeStr escapePlain depth depthItems
  depthMembers Writes)
open Except (bind_eq_ok_iff raiseIf_eq_ok_iff mapM_eq_ok_iff)
open Calendar (padded length_padded padded_digits)
open StableSort (sortBy sortBy_perm mem_sortBy)

/-! ## The nesting of a document -/

mutual

/-- The depth check passes a scalar and every value that is not nested too deep. -/
theorem checkDepth_eq_ok_iff : ∀ {v : PyJson} {k : ℕ} {u : Unit},
    checkDepth v k = .ok u ↔ depth v = 0 ∨ depth v + k ≤ maxDepth + 1
  | .null, _, _ => by simp [checkDepth, depth]
  | .bool _, _, _ => by simp [checkDepth, depth]
  | .int _, _, _ => by simp [checkDepth, depth]
  | .decimal _, _, _ => by simp [checkDepth, depth]
  | .str _, _, _ => by simp [checkDepth, depth]
  | .arr items, k, u => by
      simp only [checkDepth, depth, bind_eq_ok_iff, raiseIf_eq_ok_iff, exists_const, not_lt,
        checkItems_eq_ok_iff]
      omega
  | .obj members, k, u => by
      simp only [checkDepth, depth, bind_eq_ok_iff, raiseIf_eq_ok_iff, exists_const, not_lt,
        checkMembers_eq_ok_iff]
      omega

theorem checkItems_eq_ok_iff : ∀ {vs : List PyJson} {k : ℕ} {u : Unit},
    checkItems vs k = .ok u ↔ depthItems vs = 0 ∨ depthItems vs + k ≤ maxDepth + 1
  | [], _, _ => by simp [checkItems, depthItems]
  | v :: vs, k, u => by
      simp only [checkItems, depthItems, bind_eq_ok_iff, exists_const, checkDepth_eq_ok_iff,
        checkItems_eq_ok_iff]
      omega

theorem checkMembers_eq_ok_iff : ∀ {ms : List (PyStr × PyJson)} {k : ℕ} {u : Unit},
    checkMembers ms k = .ok u ↔ depthMembers ms = 0 ∨ depthMembers ms + k ≤ maxDepth + 1
  | [], _, _ => by simp [checkMembers, depthMembers]
  | (_, v) :: ms, k, u => by
      simp only [checkMembers, depthMembers, bind_eq_ok_iff, exists_const, checkDepth_eq_ok_iff,
        checkMembers_eq_ok_iff]
      omega

end

/-- The check of a whole document. -/
theorem checkDepth_one_iff {v : PyJson} {u : Unit} :
    checkDepth v 1 = .ok u ↔ depth v ≤ maxDepth := by
  rw [checkDepth_eq_ok_iff]
  omega

mutual

/-- A document without decimals passes `_reject_dict_floats`. -/
theorem rejectFloats_of_leaves {P : PyJson → Prop} {K : PyStr → Prop}
    (hdec : ∀ d, ¬ P (.decimal d)) :
    ∀ {v : PyJson}, Leaves P K v → rejectFloats v = .ok ()
  | .null, _ => rfl
  | .bool _, _ => rfl
  | .int _, _ => rfl
  | .decimal d, h => absurd h (hdec d)
  | .str _, _ => rfl
  | .arr _, h => rejectItems_of_leaves hdec h
  | .obj _, h => rejectMembers_of_leaves hdec h

theorem rejectItems_of_leaves {P : PyJson → Prop} {K : PyStr → Prop}
    (hdec : ∀ d, ¬ P (.decimal d)) :
    ∀ {vs : List PyJson}, LeavesItems P K vs → rejectItems vs = .ok ()
  | [], _ => rfl
  | _ :: _, h => by
      rw [rejectItems, rejectFloats_of_leaves hdec h.1]
      exact rejectItems_of_leaves hdec h.2

theorem rejectMembers_of_leaves {P : PyJson → Prop} {K : PyStr → Prop}
    (hdec : ∀ d, ¬ P (.decimal d)) :
    ∀ {ms : List (PyStr × PyJson)}, LeavesMembers P K ms → rejectMembers ms = .ok ()
  | [], _ => rfl
  | (_, _) :: _, h => by
      rw [rejectMembers, rejectFloats_of_leaves hdec h.1.2]
      exact rejectMembers_of_leaves hdec h.2

end

/-! ## The bytes of a document -/

/-- The bytes of a text in UTF-8. -/
def size (cs : List Char) : ℕ := (cs.map Char.utf8Size).sum

theorem size_nil : size [] = 0 := rfl

theorem size_cons (c : Char) (cs : List Char) : size (c :: cs) = c.utf8Size + size cs := by
  rw [size, size, List.map_cons, List.sum_cons]

theorem size_append (cs ds : List Char) : size (cs ++ ds) = size cs + size ds := by
  rw [size, size, size, List.map_append, List.sum_append]

/-- The encoder writes as many bytes as `size` counts. -/
theorem size_utf8 (cs : List Char) : (utf8 cs).size = size cs := by
  rw [utf8, String.toByteArray_ofList]
  induction cs with
  | nil => rfl
  | cons c cs ih =>
      rw [List.utf8Encode_cons, ByteArray.size_append, ih, size_cons, List.utf8Encode_singleton,
        List.size_toByteArray,
        String.length_utf8EncodeChar]

mutual

/-- A bound on the bytes of a document, the same for every order of its members. -/
def weight : PyJson → ℕ
  | .null => 4
  | .bool _ => 5
  | .int i => size (Json.intText i)
  | .decimal _ => 1
  | .str s => size (writeStr s)
  | .arr items => weightItems items + 2
  | .obj members => weightMembers members + 2

def weightItems : List PyJson → ℕ
  | [] => 0
  | v :: vs => weight v + 1 + weightItems vs

def weightMembers : List (PyStr × PyJson) → ℕ
  | [] => 0
  | (k, v) :: ms => size (writeStr k) + weight v + 2 + weightMembers ms

end

mutual

/-- The compact text of a value is no longer than its weight. -/
theorem size_write_le : ∀ v : PyJson, size (write compact v) ≤ weight v
  | .null => by decide
  | .bool true => by decide
  | .bool false => by decide
  | .int _ => le_rfl
  | .decimal _ => le_of_eq (by decide : size ['0'] = 1)
  | .str _ => le_rfl
  | .arr items => by
      rw [write, weight, size_cons, size_append]
      have h := size_items_le items
      have : size [']'] = 1 := by decide
      have : '['.utf8Size = 1 := by decide
      omega
  | .obj members => by
      rw [write, weight, size_cons, size_append]
      have h := size_members_le members
      have : size ['}'] = 1 := by decide
      have : '{'.utf8Size = 1 := by decide
      omega

theorem size_items_le : ∀ vs : List PyJson, size (writeItems compact vs) ≤ weightItems vs
  | [] => le_rfl
  | [v] => by
      have h := size_write_le v
      rw [writeItems, weightItems]
      omega
  | v :: w :: vs => by
      have h := size_write_le v
      have hvs := size_items_le (w :: vs)
      have : size compact.comma = 1 := by decide
      rw [writeItems, weightItems, size_append, size_append]
      omega

theorem size_members_le :
    ∀ ms : List (PyStr × PyJson), size (writeMembers compact ms) ≤ weightMembers ms
  | [] => le_rfl
  | [(k, v)] => by
      have h := size_write_le v
      have : size compact.colon = 1 := by decide
      rw [writeMembers, weightMembers, size_append, size_append]
      omega
  | (k, v) :: m :: ms => by
      have h := size_write_le v
      have hms := size_members_le (m :: ms)
      have : size compact.colon = 1 := by decide
      have : size compact.comma = 1 := by decide
      rw [writeMembers, weightMembers, size_append, size_append, size_append, size_append]
      omega

end

/-- The weight of an array is a sum over its items, each with its comma. -/
theorem weightItems_eq (vs : List PyJson) :
    weightItems vs = (vs.map fun v => weight v + 1).sum := by
  induction vs with
  | nil => rfl
  | cons v vs ih => rw [weightItems, List.map_cons, List.sum_cons, ih]

/-- The weight of an object is a sum over its members, each with its colon and comma. -/
theorem weightMembers_eq (ms : List (PyStr × PyJson)) :
    weightMembers ms = (ms.map fun m => size (writeStr m.1) + weight m.2 + 2).sum := by
  induction ms with
  | nil => rfl
  | cons m ms ih => rw [weightMembers, List.map_cons, List.sum_cons, ih]

mutual

/-- The order of members does not change the weight. -/
theorem weight_eq_of_shuffled : ∀ {v w : PyJson}, Shuffled v w → weight v = weight w
  | _, _, .same _ => rfl
  | _, _, .arr h hp => by
      rw [weight, weight, weight_eq_of_items h, weightItems_eq, weightItems_eq, (hp.map _).sum_eq]
  | _, _, .obj h hp => by
      rw [weight, weight, weight_eq_of_members h, weightMembers_eq, weightMembers_eq,
        (hp.map _).sum_eq]

theorem weight_eq_of_items : ∀ {vs ws : List PyJson}, ShuffledItems vs ws →
    weightItems vs = weightItems ws
  | _, _, .nil => rfl
  | _, _, .cons h hs => by
      rw [weightItems, weightItems, weight_eq_of_shuffled h, weight_eq_of_items hs]

theorem weight_eq_of_members : ∀ {ms ns : List (PyStr × PyJson)}, ShuffledMembers ms ns →
    weightMembers ms = weightMembers ns
  | _, _, .nil => rfl
  | _, _, .cons h hs => by
      rw [weightMembers, weightMembers, weight_eq_of_shuffled h, weight_eq_of_members hs]

end

/-! ## The bytes of the fields -/

/-- A printable ASCII character that a string literal does not escape. -/
def isPlain (c : Char) : Bool :=
  0x20 ≤ c.toNat && c.toNat < 0x7f && c.toNat != 0x22 && c.toNat != 0x5c

/-- A plain character is written as it is. -/
theorem escapePlain_of_isPlain {c : Char} (h : isPlain c = true) : escapePlain c = [c] := by
  simp only [isPlain, Bool.and_eq_true, decide_eq_true_eq, bne_iff_ne] at h
  have hne : ∀ d : Char, d.toNat < 0x20 ∨ d.toNat = 0x22 ∨ d.toNat = 0x5c → c ≠ d := by
    rintro d hd rfl
    omega
  rw [escapePlain, if_neg (hne _ (by decide)), if_neg (hne _ (by decide)),
    if_neg (hne _ (by decide)),
    if_neg (hne _ (by decide)), if_neg (hne _ (by decide)), if_neg (hne _ (by decide)),
    if_neg (hne _ (by decide)),
    if_neg (by omega)]

theorem utf8Size_of_isPlain {c : Char} (h : isPlain c = true) : c.utf8Size = 1 := by
  simp only [isPlain, Bool.and_eq_true, decide_eq_true_eq, bne_iff_ne] at h
  rw [Char.utf8Size, if_pos]
  rw [UInt32.le_iff_toNat_le]
  exact le_trans (Nat.le_of_lt h.1.1.2) (by decide)

/-- A text without escapes has its length and two quotes. -/
theorem weight_of_plain {s : String} (h : ∀ c ∈ s.toList, isPlain c = true) :
    size (writeStr (.text s)) = s.toList.length + 2 := by
  have hbody : ∀ cs : List Char, (∀ c ∈ cs, isPlain c = true) →
      size (cs.flatMap escapePlain) = cs.length := by
    intro cs hcs
    induction cs with
    | nil => rfl
    | cons c cs ih =>
        rw [List.forall_mem_cons] at hcs
        rw [List.flatMap_cons, size_append, escapePlain_of_isPlain hcs.1, size_cons,
          utf8Size_of_isPlain hcs.1, ih hcs.2,
          size_nil, List.length_cons]
        omega
  have hquote : '"'.utf8Size = 1 := by decide
  rw [writeStr, quote, size_cons, size_append, hbody _ h, size_cons, size_nil, hquote]
  omega

theorem isPlain_of_isDigit {c : Char} (h : c.isDigit = true) : isPlain c = true := by
  have hrange : 48 ≤ c.toNat ∧ c.toNat ≤ 57 := by
    simpa [Char.isDigit, UInt32.le_iff_toNat_le] using h
  simp only [isPlain, Bool.and_eq_true, decide_eq_true_eq, bne_iff_ne]
  omega

theorem isPlain_of_isLower {c : Char} (h : c.isLower = true) : isPlain c = true := by
  have hrange : 97 ≤ c.toNat ∧ c.toNat ≤ 122 := by
    simpa [Char.isLower, UInt32.le_iff_toNat_le] using h
  simp only [isPlain, Bool.and_eq_true, decide_eq_true_eq, bne_iff_ne]
  omega

theorem isPlain_of_isHexDigit {c : Char} (h : isHexDigit c = true) : isPlain c = true := by
  rw [isHexDigit, Bool.or_eq_true] at h
  rcases h with h | h
  · exact isPlain_of_isDigit h
  · have hrange : 97 ≤ c.toNat ∧ c.toNat ≤ 102 := by
      simpa [Char.le_def, UInt32.le_iff_toNat_le] using h
    simp only [isPlain, Bool.and_eq_true, decide_eq_true_eq, bne_iff_ne]
    omega

/-- An identifier is written in 36 characters and two quotes. -/
theorem weight_uuid (i : Uuid) : weight (.ofText i.text) = 38 := by
  have h := i.valid
  simp only [isUuidText, Bool.and_eq_true, beq_iff_eq, List.all_eq_true] at h
  obtain ⟨⟨hlen, hdash⟩, hhex⟩ := h
  rw [PyJson.ofText, weight, weight_of_plain, hlen]
  intro c hc
  obtain ⟨n, hn, rfl⟩ := List.mem_iff_getElem.mp hc
  have hmem := hhex (i.text.toList[n], n) (by
    rw [List.mem_iff_getElem]
    exact ⟨n, by rwa [List.length_zipIdx], by rw [List.getElem_zipIdx, Nat.zero_add]⟩)
  rw [Bool.or_eq_true, decide_eq_true_eq] at hmem
  rcases hmem with hmem | hmem
  · have hd := hdash n hmem
    rw [List.getD_eq_getElem _ _ hn] at hd
    rw [hd]
    decide
  · exact isPlain_of_isHexDigit hmem

theorem weight_hash (i : Hash) : weight (.ofText i.text) = 66 := by
  have h := i.valid
  simp only [Bool.and_eq_true, beq_iff_eq, List.all_eq_true] at h
  rw [PyJson.ofText, weight, weight_of_plain fun c hc => isPlain_of_isHexDigit (h.2 c hc), h.1]

/-- Field names stay within 64 characters. -/
theorem weight_field (f : FieldName) : weight (.ofText f.text) ≤ 66 := by
  have h := f.valid
  cases hs : f.text.toList with
  | nil =>
      rw [hs] at h
      cases h
  | cons c cs =>
      rw [hs, isFieldText] at h
      simp only [Bool.and_eq_true, Bool.or_eq_true, decide_eq_true_eq, List.all_eq_true, beq_iff_eq]
        at h
      obtain ⟨⟨hc, hlen⟩, hcs⟩ := h
      rw [PyJson.ofText, weight, weight_of_plain, hs, List.length_cons]
      · omega
      · rw [hs, List.forall_mem_cons]
        refine ⟨isPlain_of_isLower hc, fun d hd => ?_⟩
        rcases hcs d hd with (h | h) | rfl
        · exact isPlain_of_isLower h
        · exact isPlain_of_isDigit h
        · decide

/-- A score has at most 14 characters. -/
theorem weight_score (s : Isotonic.Score) : weight (.ofText s.text) ≤ 16 := by
  have h := s.valid
  unfold Isotonic.isScoreText at h
  rw [PyJson.ofText, weight]
  split at h
  · rename_i hs
    rw [weight_of_plain, hs]
    · decide
    · rw [hs, List.forall_mem_singleton]
      decide
  · rename_i hs
    rw [weight_of_plain, hs]
    · decide
    · rw [hs, List.forall_mem_singleton]
      decide
  · rename_i digits hs
    simp only [Bool.and_eq_true, decide_eq_true_eq, List.all_eq_true] at h
    rw [weight_of_plain, hs, List.length_cons, List.length_cons]
    · omega
    · rw [hs, List.forall_mem_cons, List.forall_mem_cons]
      exact ⟨by decide, by decide, fun c hc => isPlain_of_isDigit (h.1.2 c hc)⟩
  · cases h

theorem weight_stamp (t : Stamp) : weight (.ofText t.format) = 22 := by
  have hyear : t.date.year < 10 ^ 4 := lt_of_le_of_lt t.date.year_mem.2 (by norm_num)
  have hmonth : t.date.month < 10 ^ 2 := lt_of_le_of_lt t.date.month_mem.2 (by norm_num)
  have hday : t.date.day < 10 ^ 2 := t.date.day_lt
  have hhour : t.hour < 10 ^ 2 := t.hour_lt.trans (by norm_num)
  have hminute : t.minute < 10 ^ 2 := t.minute_lt.trans (by norm_num)
  have hsecond : t.second < 10 ^ 2 := t.second_lt.trans (by norm_num)
  rw [PyJson.ofText, weight, weight_of_plain]
  · simp only [Stamp.format, String.toList_ofList, Calendar.CivilDate.isoFormat, List.length_append,
      List.length_cons,
      List.length_nil, length_padded hyear (by norm_num), length_padded hmonth (by norm_num),
      length_padded hday (by norm_num), length_padded hhour (by norm_num),
      length_padded hminute (by norm_num),
      length_padded hsecond (by norm_num)]
  · have hpad : ∀ w n, ∀ c ∈ padded w n, isPlain c = true :=
    fun w n c hc => isPlain_of_isDigit (padded_digits w n c hc)
    simp only [Stamp.format, String.toList_ofList, Calendar.CivilDate.isoFormat,
      List.forall_mem_append,
      List.forall_mem_cons, List.not_mem_nil, false_imp_iff, implies_true, and_true]
    exact ⟨⟨hpad _ _, by decide, hpad _ _, by decide, hpad _ _⟩, by decide, hpad _ _, by
      decide, hpad _ _, by decide,
      hpad _ _, by decide⟩

theorem weight_split (s : Split) : weight (.ofText s.name) ≤ 13 := by
  cases s <;> decide

theorem weight_family (f : Family) : weight (.ofText f.name) ≤ 16 := by
  cases f <;> decide

theorem weight_kind (k : EvidenceKind) : weight (.ofText k.name) ≤ 13 := by
  cases k <;> decide

/-- An array of identifiers grows by 39 bytes with each of them. -/
theorem weight_uuids (ids : List Uuid) : weight (uuids ids) = 39 * ids.length + 2 := by
  rw [uuids, weight, weightItems_eq, List.map_map, List.map_congr_left (g := fun _ => 39),
    List.map_const',
    List.sum_replicate, smul_eq_mul, mul_comm]
  intro i _
  rw [Function.comp_apply, weight_uuid]

/-- The bytes of the members of an object with text keys. -/
theorem weight_object (ms : List (String × PyJson)) :
    weight (object ms) = (ms.map fun m => size (quote m.1.toList) + weight m.2 + 2).sum + 2 := by
  rw [object, weight, weightMembers_eq, List.map_map]
  rfl

/-! ## The bytes of a dataset -/

/-- The bounds that `parse` checks. -/
structure Bounded (d : Dataset) : Prop where
  issuers : ∀ s, (d.splits.window s).issuerIds.length ≤ maxIssuers
  records : d.records.length ≤ maxRecords
  outcome : ∀ r ∈ d.records, r.outcome = 0 ∨ r.outcome = 1
  reviewers : ∀ r ∈ d.records, r.reviewerIds.length ≤ 2

/-- The parser accepts no more issuers than the bound of the module. -/
theorem length_issuers {v : PyJson} {w : Window} (h : splitWindow v = .ok w) :
    w.issuerIds.length ≤ maxIssuers := by
  simp only [splitWindow, uniqueUuids, bind_eq_ok_iff, raiseIf_eq_ok_iff, Except.pure_eq_ok,
    Except.ok.injEq, not_lt] at h
  obtain ⟨_, -, _, ⟨items, -, _, hlimit, _, -, parsed, hparsed, _, -, rfl⟩, _, -, _,
    -, _, -, rfl⟩ := h
  rw [mapM_eq_ok_iff] at hparsed
  rwa [(sortBy_perm _ _).length_eq, ← hparsed.length_eq]

/-- No kind of evidence has more than two reviewers. -/
theorem length_reviewers {v : PyJson} {kind : EvidenceKind} {ids : List Uuid}
    (h : reviewers v kind = .ok ids) :
    ids.length ≤ 2 := by
  simp only [reviewers, bind_eq_ok_iff, raiseIf_eq_ok_iff] at h
  obtain ⟨_, -, parsed, -, _, -, h⟩ := h
  cases kind with
  | synthetic =>
      simp only [bind_eq_ok_iff, raiseIf_eq_ok_iff, Except.pure_eq_ok, Except.ok.injEq] at h
      obtain ⟨_, -, rfl⟩ := h
      exact Nat.zero_le 2
  | adjudicated =>
      simp only [bind_eq_ok_iff, raiseIf_eq_ok_iff, Except.pure_eq_ok, Except.ok.injEq, not_not]
        at h
      obtain ⟨_, hlen, rfl⟩ := h
      rw [(sortBy_perm _ _).length_eq, hlen]

/-- **A parsed dataset is within the bounds** of the parser. -/
theorem bounded_of_parse {v : PyJson} {d : Dataset} (h : parse v = .ok d) : Bounded d := by
  obtain ⟨ms, -, -, -, -, -, hsplits, raw, found, -, hlen, hscan, hrecords, -⟩ :=
    parse_eq_ok_iff.mp h
  obtain ⟨hread, -, -⟩ := scanRecords_eq_ok_iff.mp hscan
  have hread' : ∀ r ∈ d.records, ∃ item, readRecord d.evidenceKind item = .ok r := by
    intro r hr
    rw [hrecords, mem_sortBy] at hr
    obtain ⟨item, -, hitem⟩ := mem_of_forall₂_right hread.flip hr
    exact ⟨item, hitem⟩
  refine ⟨?_, ?_, ?_, ?_⟩
  · simp only [splitManifest, bind_eq_ok_iff, raiseIf_eq_ok_iff, Except.pure_eq_ok, Except.ok.injEq]
    at hsplits
    obtain ⟨_, -, train, htrain, calibration, hcalibration, evaluation, hevaluation, _, -, _,
      -, hd⟩ := hsplits
    intro s
    rw [← hd]
    cases s with
    | train => exact length_issuers htrain
    | calibration => exact length_issuers hcalibration
    | evaluation => exact length_issuers hevaluation
  · rwa [hrecords, (sortBy_perm _ _).length_eq, ← hread.length_eq]
  · intro r hr
    obtain ⟨item, hitem⟩ := hread' r hr
    obtain ⟨_, -, -, -, -, -, -, -, -, -, -, -, -, -, -, h, -⟩ := readRecord_eq_ok_iff.mp hitem
    exact h
  · intro r hr
    obtain ⟨item, hitem⟩ := hread' r hr
    obtain ⟨_, -, -, -, -, -, -, -, -, -, -, -, -, -, -, -, h⟩ := readRecord_eq_ok_iff.mp hitem
    exact length_reviewers h

/-- A record that was parsed stays below 637 bytes. -/
theorem weight_record {r : Record} (houtcome : r.outcome = 0 ∨ r.outcome = 1)
    (hreviewers : r.reviewerIds.length ≤ 2) :
    weight r.project ≤ 637 := by
  have hint : weight (.int r.outcome) = 1 := by
    rcases houtcome with h | h <;> rw [h] <;> decide
  have hkeys : (recordKeys.map fun key => size (quote key.toList)).sum = 143 := by decide
  have hsum : weight r.project = (recordKeys.map fun key => size (quote key.toList)).sum
      + (38 + 66 + 38 + 66 + 22 + 22 + 22 + weight (.ofText r.split.name)
        + weight (.ofText r.family.name)
        + weight (.ofText r.field.text) + weight (.ofText r.score.text) + 1
          + (39 * r.reviewerIds.length + 2)) + 28 := by
    rw [Record.project, weight_object]
    simp only [recordKeys, List.map_cons, List.map_nil, List.sum_cons, List.sum_nil,
      weight_uuid, weight_hash,
      weight_stamp, weight_uuids, hint]
    ring
  have := weight_split r.split
  have := weight_family r.family
  have := weight_field r.field
  have := weight_score r.score
  omega

/-- A window with as many issuers as allowed stays below 40000 bytes. -/
theorem weight_window {w : Window} (h : w.issuerIds.length ≤ maxIssuers) :
    weight w.project ≤ 40000 := by
  have hkeys : (splitKeys.map fun key => size (quote key.toList)).sum = 30 := by decide
  have hsum : weight w.project = (splitKeys.map fun key => size (quote key.toList)).sum
      + (39 * w.issuerIds.length + 2 + 22 + 22) + 8 := by
    rw [Window.project, weight_object]
    simp only [splitKeys, List.map_cons, List.map_nil, List.sum_cons, List.sum_nil,
      weight_stamp, weight_uuids,
      (sortBy_perm id w.issuerIds).length_eq]
    ring
  rw [maxIssuers] at h
  omega

/-- The manifest of three windows stays below 120100 bytes. -/
theorem weight_manifest {m : Manifest} (h : ∀ s, (m.window s).issuerIds.length ≤ maxIssuers) :
    weight m.project ≤ 120100 := by
  have hkeys : (Split.all.map fun s => size (quote s.name.toList)).sum = 32 := by decide
  have hsum : weight m.project = (Split.all.map fun s => size (quote s.name.toList)).sum
      + (weight m.train.project + weight m.calibration.project + weight m.evaluation.project)
        + 8 := by
    rw [Manifest.project, weight_object]
    simp only [Split.all, List.map_cons, List.map_nil, List.sum_cons, List.sum_nil, Manifest.window]
    ring
  have h1 := weight_window (h .train)
  have h2 := weight_window (h .calibration)
  have h3 := weight_window (h .evaluation)
  simp only [Manifest.window] at h1 h2 h3
  omega

/-- The pins of a dataset stay below 1000 bytes. -/
theorem weight_pins (ps : List Hash) :
    weight (object (pinKeys.zip (ps.map fun p => .ofText p.text))) ≤ 1000 := by
  rw [weight_object]
  have hkeys : (pinKeys.map fun key => size (quote key.toList) + 66 + 2).sum ≤ 900 := by decide
  refine le_trans (Nat.add_le_add_right (le_trans ?_ hkeys) 2) (by norm_num)
  generalize pinKeys = keys
  clear hkeys
  induction keys generalizing ps with
  | nil => simp
  | cons key keys ih =>
      cases ps with
      | nil => simp
      | cons p ps =>
          rw [List.map_cons, List.zip_cons_cons, List.map_cons, List.sum_cons, List.map_cons,
            List.sum_cons, weight_hash]
          exact Nat.add_le_add_left (ih ps) _

/-- **The dictionary of a dataset fits.** -/
theorem weight_project_le {d : Dataset} (h : Bounded d) : weight d.project ≤ maxBytes := by
  have hkeys : (datasetKeys.map fun key => size (quote key.toList)).sum ≤ 100 := by decide
  have hsum : weight d.project = (datasetKeys.map fun key => size (quote key.toList)).sum
      + (weight (.ofText schema) + 38 + weight (.ofText d.evidenceKind.name)
        + weight (object (pinKeys.zip (d.pins.map fun p => .ofText p.text)))
          + weight d.splits.project
        + weight (.arr (d.records.map Record.project))) + 14 := by
    rw [Dataset.project, weight_object]
    simp only [datasetKeys, List.map_cons, List.map_nil, List.sum_cons, List.sum_nil, weight_uuid,
      Manifest.project]
    ring
  have hrecords : weight (.arr (d.records.map Record.project)) ≤ 638 * maxRecords + 2 := by
    rw [weight, weightItems_eq, List.map_map]
    have hle : ∀ r ∈ d.records, ((fun v => weight v + 1) ∘ Record.project) r ≤ 638 := fun r hr =>
      Nat.succ_le_succ (weight_record (h.outcome r hr) (h.reviewers r hr))
    have hsum :=
        List.sum_le_card_nsmul (d.records.map ((fun v => weight v + 1) ∘ Record.project)) 638 (by
      simpa only [List.forall_mem_map] using hle)
    rw [List.length_map, smul_eq_mul] at hsum
    have := h.records
    omega
  have hschema : weight (.ofText schema) ≤ 40 := by decide
  have := weight_kind d.evidenceKind
  have := weight_pins d.pins
  have := weight_manifest h.issuers
  rw [maxRecords] at hrecords
  rw [maxBytes]
  omega

/-! ## Writing and reading back -/

/-- The values in the dictionary of a dataset. -/
def IsLeaf (v : PyJson) : Prop := (∃ s, v = .ofText s) ∨ v = .int 0 ∨ v = .int 1

/-- A key without surrogates. -/
def IsTextKey (k : PyStr) : Prop := ∃ s, k = .text s

/-- The texts a dataset projects to are plain. -/
theorem leaves_text (s : String) : Leaves IsLeaf IsTextKey (.ofText s) := .inl ⟨s, rfl⟩

theorem leaves_uuids (ids : List Uuid) : Leaves IsLeaf IsTextKey (uuids ids) := by
  rw [uuids, Leaves, PyJson.leavesItems_iff, List.forall_mem_map]
  exact fun i _ => leaves_text i.text

/-- An object of plain values under plain keys is plain. -/
theorem leaves_object {ms : List (String × PyJson)} (h : ∀ m ∈ ms, Leaves IsLeaf IsTextKey m.2) :
    Leaves IsLeaf IsTextKey (object ms) := by
  rw [object, Leaves, PyJson.leavesMembers_iff, List.forall_mem_map]
  exact fun m hm => ⟨⟨m.1, rfl⟩, h m hm⟩

/-- A projected record has only texts, outcomes and plain keys. -/
theorem leaves_record {r : Record} (h : r.outcome = 0 ∨ r.outcome = 1) :
    Leaves IsLeaf IsTextKey r.project := by
  refine leaves_object ?_
  simp only [List.forall_mem_cons, List.not_mem_nil, false_imp_iff, implies_true, and_true]
  refine ⟨leaves_text _, leaves_text _, leaves_text _, leaves_text _, leaves_text _,
    leaves_text _, leaves_text _,
    leaves_text _, leaves_text _, leaves_text _, leaves_text _, ?_, leaves_uuids _⟩
  rcases h with h | h <;> rw [h]
  · exact .inr (.inl rfl)
  · exact .inr (.inr rfl)

theorem leaves_window (w : Window) : Leaves IsLeaf IsTextKey w.project := by
  refine leaves_object ?_
  simp only [List.forall_mem_cons, List.not_mem_nil, false_imp_iff, implies_true, and_true]
  exact ⟨leaves_uuids _, leaves_text _, leaves_text _⟩

/-- A projected dataset has only texts, outcomes and plain keys. -/
theorem leaves_project {d : Dataset} (h : Bounded d) : Leaves IsLeaf IsTextKey d.project := by
  refine leaves_object ?_
  simp only [List.forall_mem_cons, List.not_mem_nil, false_imp_iff, implies_true, and_true]
  refine ⟨leaves_text _, leaves_text _, leaves_text _, leaves_object ?_, leaves_object ?_, ?_⟩
  · intro m hm
    obtain ⟨p, -, hp⟩ := List.mem_map.mp (List.of_mem_zip hm).2
    exact hp ▸ leaves_text p.text
  · rw [List.forall_mem_map]
    exact fun s _ => leaves_window _
  · rw [Leaves, PyJson.leavesItems_iff, List.forall_mem_map]
    exact fun r hr => leaves_record (h.outcome r hr)

/-- The decoder reads what `_dump` writes of such a document. -/
theorem reads_compact (spare : ℕ) :
    JsonReader.Reads (decoder spare) compact (fun i => i = 0 ∨ i = 1) fun _ => .int 0 where
  int i h := by
    rcases h with rfl | rfl
    · rfl
    · rfl
  decimal _ _ := .int rfl
  pairs members h := if_pos h

/-- The bytes are a text that spells a document, with any white space between its tokens. -/
def Spells (spare : ℕ) (raw : ByteArray) (payload : PyJson) : Prop :=
  ∃ text, raw.utf8Decode? = some text ∧ text.toList.head? ≠ some '\uFEFF'
    ∧ Writes (decoder spare) payload (JsonReader.lex text.toList) (decoder spare).maxDepth

/-- What `decode` accepts. -/
theorem decode_eq_ok_iff {spare : ℕ} {raw : ByteArray} {payload : PyJson} :
    decode spare raw = .ok payload ↔ raw.size ≤ maxBytes ∧ depth payload ≤ maxDepth ∧
    Spells spare raw payload := by
  have hmap : ∀ (x : Except DecodeFailure PyJson) y, (x.mapError fun e => fail e.code) = .ok y ↔
      x = .ok y := by
    intro x y
    cases x <;> simp [Except.mapError]
  have hgrammar : ∀ (text : List Char) v, JsonReader.decode (decoder spare) text = .ok v ↔
      Writes (decoder spare) v (JsonReader.lex text) (decoder spare).maxDepth := fun text v =>
    JsonReader.decode_eq_ok_iff (by simp [decoder])
  simp only [decode, bind_eq_ok_iff, raiseIf_eq_ok_iff, hmap, hgrammar, Except.orRaise_eq_ok_iff,
    Except.pure_eq_ok,
    Except.ok.injEq, not_lt, exists_const, checkDepth_one_iff]
  constructor
  · rintro ⟨hsize, text, htext, hbom, _, hwrites, hdepth, rfl⟩
    exact ⟨hsize, hdepth, text, htext, hbom, hwrites⟩
  · rintro ⟨hsize, hdepth, text, htext, hbom, hwrites⟩
    exact ⟨hsize, text, htext, hbom, payload, hwrites, hdepth, rfl⟩

/-- Every decoded object has distinct keys. -/
theorem distinct_of_decode {spare : ℕ} {raw : ByteArray} {payload : PyJson}
    (h : decode spare raw = .ok payload) :
    Distinct payload := by
  obtain ⟨-, -, text, -, -, hwrites⟩ := decode_eq_ok_iff.mp h
  refine JsonReader.decode_induction (P := Distinct) ?_ (JsonReader.decode_of_writes hwrites le_rfl)
  refine ⟨trivial, fun _ => trivial, fun _ => trivial, ?_, ?_, ?_, ?_, ?_⟩
  · intro literal v hv
    simp only [decoder, intLiteral] at hv
    split_ifs at hv <;> cases hv <;> exact trivial
  · intro literal v hv
    cases hv
  · intro name v hv
    cases hv
  · exact fun items hitems => PyJson.distinctItems_iff.mpr hitems
  · intro members v hmembers hv
    simp only [decoder, objectPairs] at hv
    split_ifs at hv with hnodup
    cases hv
    exact ⟨hnodup, PyJson.distinctMembers_iff.mpr hmembers⟩

theorem lex_blanks (n : ℕ) : JsonReader.lex (List.replicate n ' ') = [] := by
  induction n with
  | zero => rfl
  | succ n ih => rw [List.replicate_succ, JsonReader.lex_blank (by decide), ih]

/-- The written text of a document, with blanks behind it, spells the document. -/
theorem spells_write (spare n : ℕ) {ms : List (PyStr × PyJson)} (hdistinct : Distinct (.obj ms))
    (hleaves : Leaves IsLeaf IsTextKey (.obj ms)) (hdepth : depth (.obj ms) ≤ maxDepth) :
    Spells spare (utf8 (write compact (.obj ms) ++ List.replicate n ' ')) (.obj ms) := by
  refine ⟨(write compact (.obj ms) ++ List.replicate n ' ').toArray, ?_, ?_, ?_⟩
  · rw [utf8, String.toByteArray_ofList, List.utf8Decode?_utf8Encode]
  · rw [write]
    simp
  · have hends : JsonReader.EndsNumber (List.replicate n ' ') := by
      intro c hc
      rw [List.head?_replicate] at hc
      split_ifs at hc
      · cases hc
      · obtain rfl : ' ' = c := Option.some.inj hc
        decide
    have hreadable : JsonReader.Readable (fun i => i = 0 ∨ i = 1) (.obj ms) :=
      PyJson.readable_of_leaves (P := IsLeaf) (K := IsTextKey) (by simp [IsLeaf]) (by simp [IsLeaf])
        (fun _ => id)
        hdistinct hleaves
    have htokens :=
      JsonReader.writes_tokens (reads_compact spare) hreadable
        (hdepth.trans (Nat.le_add_right _ spare))
    rw [PyJson.mapDecimals_of_leaves (by simp [IsLeaf]) hleaves] at htokens
    rw [List.toList_toArray, JsonReader.lexesValue_write compact (.obj ms) _ hends, lex_blanks,
      List.append_nil]
    exact htokens

section RoundTrip

variable {payload : PyJson} {d : Dataset}

/-- The dictionary of a dataset is validated as that dataset. -/
theorem validated_project (hv : Distinct payload) (hdepth : depth payload ≤ maxDepth)
    (h : parse payload = .ok d) :
    validated d.project = .ok d := by
  have hshuffled := codec_parse.sound payload d hv h
  simp only [validated, bind_eq_ok_iff, exists_const, checkDepth_one_iff]
  refine ⟨hshuffled.depth_eq ▸ hdepth, (), ?_, parse_project hv h⟩
  exact rejectFloats_of_leaves (by simp [IsLeaf]) (leaves_project (bounded_of_parse h))

/-- The canonical bytes of a parsed dataset are those of its projection. -/
theorem canonicalDatasetBytes_project (hv : Distinct payload) (hdepth : depth payload ≤ maxDepth)
    (h : parse payload = .ok d) : canonicalDatasetBytes d.project = .ok (dump d.project) := by
  rw [canonicalDatasetBytes, validated_project hv hdepth h]
  rfl

/-- The document that `_dump` writes. -/
theorem sortKeys_project (d : Dataset) : ∃ ms, d.project.sortKeys = .obj ms := ⟨_, rfl⟩

/-- The canonical bytes, with blanks behind them, spell the sorted dictionary. -/
theorem spells_dump (spare n : ℕ) (hv : Distinct payload) (hdepth : depth payload ≤ maxDepth)
    (h : parse payload = .ok d) :
    Spells spare (utf8 (write compact d.project.sortKeys ++ List.replicate n ' '))
    d.project.sortKeys := by
  have hsorted : Shuffled payload d.project.sortKeys :=
    (codec_parse.sound payload d hv h).trans (shuffled_sortKeys _)
  have hleaves : Leaves IsLeaf IsTextKey d.project.sortKeys :=
    (shuffled_sortKeys _).leaves (leaves_project (bounded_of_parse h))
  have hdistinct : Distinct d.project.sortKeys := hsorted.distinct hv
  rw [hsorted.depth_eq] at hdepth
  obtain ⟨ms, hms⟩ := sortKeys_project d
  rw [hms] at hleaves hdistinct hdepth ⊢
  exact spells_write spare n hdistinct hleaves hdepth

/-- **The canonical bytes of a parsed dataset fit the limit of the loader.** -/
theorem size_dump_le (h : parse payload = .ok d) : (dump d.project).size ≤ maxBytes := by
  rw [dump, size_utf8]
  refine (size_write_le _).trans ?_
  rw [← weight_eq_of_shuffled (shuffled_sortKeys d.project)]
  exact weight_project_le (bounded_of_parse h)

/-- **The canonical bytes load as their dataset.** -/
theorem loadDataset_dump (spare : ℕ) (hv : Distinct payload) (hdepth : depth payload ≤ maxDepth)
    (h : parse payload = .ok d) : loadDataset spare (dump d.project) = .ok d.project := by
  have hsorted : Shuffled payload d.project.sortKeys :=
    (codec_parse.sound payload d hv h).trans (shuffled_sortKeys _)
  have hspells := spells_dump spare 0 hv hdepth h
  rw [List.replicate_zero, List.append_nil] at hspells
  exact loadDataset_eq_ok_iff.mpr ⟨d.project.sortKeys, d,
    decode_eq_ok_iff.mpr ⟨size_dump_le h, hsorted.depth_eq ▸ hdepth, hspells⟩,
    codec_parse.stable payload _ d hv hsorted h,
    rfl⟩

end RoundTrip

/-- A dataset that loads, with what it was parsed from. -/
theorem loadDataset_spec {spare : ℕ} {raw : ByteArray} {d : PyJson}
    (h : loadDataset spare raw = .ok d) :
    ∃ payload parsed, Spells spare raw payload ∧ Distinct payload ∧ depth payload ≤ maxDepth
      ∧ parse payload = .ok parsed ∧ d = parsed.project := by
  obtain ⟨payload, parsed, hdecode, hparsed, rfl⟩ := loadDataset_eq_ok_iff.mp h
  obtain ⟨-, hdepth, hspells⟩ := decode_eq_ok_iff.mp hdecode
  exact ⟨payload, parsed, hspells, distinct_of_decode hdecode, hdepth, hparsed, rfl⟩

/-- A text spells one document. -/
theorem Spells.unique {spare : ℕ} {raw : ByteArray} {v w : PyJson} (hv : Spells spare raw v)
    (hw : Spells spare raw w) :
    v = w := by
  obtain ⟨text, htext, -, hv⟩ := hv
  obtain ⟨text', htext', -, hw⟩ := hw
  obtain rfl : text = text' := Option.some.inj (htext.symm.trans htext')
  exact Except.ok.inj
    ((JsonReader.decode_of_writes hv le_rfl).symm.trans (JsonReader.decode_of_writes hw le_rfl))

/-- An order of the document, in any layout that fits, loads as the same dataset. -/
theorem loadDataset_of_shuffled {spare : ℕ} {raw raw' : ByteArray} {payload payload' d : PyJson}
    (hraw : Spells spare raw payload) (hraw' : Spells spare raw' payload')
    (hw : Shuffled payload payload')
    (hsize : raw'.size ≤ maxBytes) (h : loadDataset spare raw = .ok d) :
    loadDataset spare raw' = .ok d := by
  obtain ⟨v, parsed, hv, hdistinct, hdepth, hparsed, rfl⟩ := loadDataset_spec h
  obtain rfl := hv.unique hraw
  exact loadDataset_eq_ok_iff.mpr ⟨payload', parsed,
    decode_eq_ok_iff.mpr ⟨hsize, hw.depth_eq ▸ hdepth, hraw'⟩,
    codec_parse.stable v payload' parsed hdistinct hw hparsed, rfl⟩

/-- What the loader returns has canonical bytes, and loading these returns it again. -/
theorem canonicalDatasetBytes_of_load {spare : ℕ} {raw : ByteArray} {d : PyJson}
    (h : loadDataset spare raw = .ok d) :
    canonicalDatasetBytes d = .ok (dump d) ∧ loadDataset spare (dump d) = .ok d := by
  obtain ⟨payload, parsed, -, hdistinct, hdepth, hparsed, rfl⟩ := loadDataset_spec h
  exact ⟨canonicalDatasetBytes_project hdistinct hdepth hparsed,
    loadDataset_dump spare hdistinct hdepth hparsed⟩

/-- **Calibration datasets have one canonical form.**  Of a dataset that loads, the canonical bytes
exist, load as it and are their own canonical bytes.  Every order of the document in every layout
loads as the same dataset, when both texts fit.  Two datasets have one digest exactly when their
documents are orders of each other.  A source that does not load raises a `CalibrationDatasetError`.
-/
theorem canonical_form (spare : ℕ) (sha256Hex : ByteArray → String)
    (hsha : Function.Injective sha256Hex) :
    (∀ raw d, loadDataset spare raw = .ok d → ∃ bytes, canonicalDatasetBytes d = .ok bytes
        ∧ loadDataset spare bytes = .ok d ∧ (loadDataset spare bytes >>= canonicalDatasetBytes)
        = .ok bytes)
      ∧ (∀ raw raw' payload payload', Spells spare raw payload → Spells spare raw' payload' →
          Shuffled payload payload' → raw.size ≤ maxBytes → raw'.size ≤ maxBytes →
            ∀ d, loadDataset spare raw = .ok d ↔ loadDataset spare raw' = .ok d)
      ∧ (∀ raw raw' d d', loadDataset spare raw = .ok d → loadDataset spare raw' = .ok d' →
          (datasetDigest sha256Hex d = datasetDigest sha256Hex d' ↔
            ∃ payload payload', Spells spare raw payload ∧ Spells spare raw' payload' ∧
            Shuffled payload payload'))
      ∧ ∀ raw, (∃ d, loadDataset spare raw = .ok d) ∨ ∃ e : DatasetError,
      loadDataset spare raw = .error e := by
  refine ⟨?_, ?_, ?_, ?_⟩
  · intro raw d h
    obtain ⟨hbytes, hload⟩ := canonicalDatasetBytes_of_load h
    exact ⟨dump d, hbytes, hload, by rw [hload, Except.ok_bind, hbytes]⟩
  · intro raw raw' payload payload' hraw hraw' hw hsize hsize' d
    exact ⟨loadDataset_of_shuffled hraw hraw' hw hsize',
      loadDataset_of_shuffled hraw' hraw hw.symm hsize⟩
  · intro raw raw' d d' h h'
    obtain ⟨hbytes, hload⟩ := canonicalDatasetBytes_of_load h
    obtain ⟨hbytes', hload'⟩ := canonicalDatasetBytes_of_load h'
    have hdigest : datasetDigest sha256Hex d = datasetDigest sha256Hex d' ↔ d = d' := by
      simp only [datasetDigest, hbytes, hbytes', Except.ok_bind, Except.pure_eq_ok,
        Except.ok.injEq, hsha.eq_iff]
      constructor
      · intro heq
        rw [heq] at hload
        exact Except.ok.inj (hload.symm.trans hload')
      · rintro rfl
        rfl
    rw [hdigest]
    obtain ⟨payload, parsed, hspells, hdistinct, -, hparsed, rfl⟩ := loadDataset_spec h
    obtain ⟨payload', parsed', hspells', hdistinct', -, hparsed', rfl⟩ := loadDataset_spec h'
    rw [project_eq_iff hdistinct hdistinct' hparsed hparsed']
    constructor
    · exact fun hw => ⟨payload, payload', hspells, hspells', hw⟩
    · rintro ⟨v, w, hv, hw, hshuffled⟩
      rwa [hspells.unique hv, hspells'.unique hw]
  · intro raw
    cases loadDataset spare raw with
    | ok d => exact .inl ⟨d, rfl⟩
    | error e => exact .inr ⟨e, rfl⟩

/-! ## A dataset of two records -/

/-- A window of one issuer. -/
def windowPayload (issuer startAt endAt : String) : PyJson :=
  object [("issuer_ids", .arr [.ofText issuer]), ("start_at", .ofText startAt),
    ("end_at", .ofText endAt)]

/-- A synthetic record whose proposal and source have one hash. -/
def recordPayload (sample hash issuer publishedAt asOf adjudicatedAt split score : String)
    (outcome : ℤ) : PyJson :=
  object [("sample_id", .ofText sample), ("proposal_sha256", .ofText hash),
    ("issuer_id", .ofText issuer),
    ("source_sha256", .ofText hash), ("published_at", .ofText publishedAt), ("as_of", .ofText asOf),
    ("adjudicated_at", .ofText adjudicatedAt), ("split", .ofText split), ("family", .ofText "kpi"),
    ("field", .ofText "revenue"), ("score", .ofText score), ("outcome", .int outcome),
    ("reviewer_ids", .arr [])]

def hash0 : String := "0000000000000000000000000000000000000000000000000000000000000000"

def hash1 : String := "1111111111111111111111111111111111111111111111111111111111111111"

/-- A training record and a calibration record. -/
def twoRecordsPayload : PyJson :=
  object [("schema_version", .ofText schema),
    ("dataset_id", .ofText "11111111-1111-4111-8111-111111111111"),
    ("evidence_kind", .ofText "synthetic"),
    ("pins", object (pinKeys.map fun key => (key, .ofText hash0))),
    ("split_manifest", object
      [("train", windowPayload "22222222-2222-4222-8222-222222222222" "2020-01-01T00:00:00Z"
        "2020-12-31T00:00:00Z"),
        ("calibration",
          windowPayload "33333333-3333-4333-8333-333333333333" "2021-01-01T00:00:00Z"
          "2021-12-31T00:00:00Z"),
        ("evaluation",
          windowPayload "44444444-4444-4444-8444-444444444444" "2022-01-01T00:00:00Z"
          "2022-12-31T00:00:00Z")]),
    ("records", .arr
      [recordPayload "55555555-5555-4555-8555-555555555555" hash0
          "22222222-2222-4222-8222-222222222222"
          "2020-03-01T00:00:00Z" "2020-04-01T00:00:00Z" "2020-05-01T00:00:00Z" "train" "0.25" 1,
        recordPayload "66666666-6666-4666-8666-666666666666" hash1
          "33333333-3333-4333-8333-333333333333"
          "2021-03-01T00:00:00Z" "2021-04-01T00:00:00Z" "2021-05-01T00:00:00Z"
            "calibration" "1" 0])]

theorem isSome_twoRecords : (parse twoRecordsPayload).toOption.isSome = true := by decide

def twoRecords : Dataset := (parse twoRecordsPayload).toOption.get isSome_twoRecords

/-- The payload of the two records parses to them. -/
theorem parse_twoRecords : parse twoRecordsPayload = .ok twoRecords := by
  have hget : ∀ (x : Except DatasetError Dataset) (h : x.toOption.isSome = true),
      x = .ok (x.toOption.get h) := by
    intro x h
    cases x with
    | ok d => rfl
    | error e => cases h
  exact hget _ isSome_twoRecords

theorem distinct_twoRecords : Distinct twoRecordsPayload := by
  simp only [twoRecordsPayload, object, windowPayload, recordPayload, Distinct,
    PyJson.DistinctMembers, pinKeys,
    PyJson.DistinctItems, List.map_cons, List.map_nil, and_true]
  decide

theorem depth_twoRecords : depth twoRecordsPayload ≤ maxDepth := by decide

/-- The two records are loaded from their own canonical bytes. -/
theorem load_twoRecords : loadDataset 0 (dump twoRecords.project) = .ok twoRecords.project :=
  loadDataset_dump 0 distinct_twoRecords depth_twoRecords parse_twoRecords

/-- Bytes as a text, a character for each. -/
def latin (bytes : ByteArray) : String :=
  String.ofList (bytes.data.toList.map fun b => Char.ofNat b.toNat)

theorem latin_injective : Function.Injective latin := by
  intro a b h
  have hlist := String.ofList_injective h
  have hbyte : Function.Injective fun b : UInt8 => Char.ofNat b.toNat := by
    intro x y hxy
    have hx : ∀ b : UInt8, (Char.ofNat b.toNat).toNat = b.toNat := fun b => by
      rw [Char.ofNat, dif_pos (Or.inl (lt_trans b.toNat_lt (by norm_num)))]
      rfl
    have := congrArg Char.toNat hxy
    rw [hx, hx] at this
    exact UInt8.toNat_inj.mp this
  exact ByteArray.ext (Array.toList_inj.mp (List.map_injective_iff.mpr hbyte hlist))

/-- The SHA-256 of the canonical bytes of the two records; the marked bytes elsewhere. -/
def knownDigest (bytes : ByteArray) : String :=
  tabulated [(latin (dump twoRecords.project),
    "f0d4599e74e3551c8a0eed35ea8ae6260f6f6d735dc937e0fe0c58daf9b06be2")]
    (latin bytes)

/-- The digest of the example keeps texts apart. -/
theorem knownDigest_injective : Function.Injective knownDigest := by
  intro a b h
  refine latin_injective (tabulated_injective ?_ ?_ h)
  · rw [List.map_singleton]
    exact List.nodup_singleton _
  · rw [List.forall_mem_singleton]
    decide

/-- Two records: their canonical bytes load as them. -/
theorem canonical_form_two_records :
    ∃ bytes, canonicalDatasetBytes twoRecords.project = .ok bytes ∧
    loadDataset 0 bytes = .ok twoRecords.project
      ∧ datasetDigest knownDigest twoRecords.project
        = .ok "f0d4599e74e3551c8a0eed35ea8ae6260f6f6d735dc937e0fe0c58daf9b06be2" := by
  obtain ⟨bytes, hbytes, hload, -⟩ :=
    (canonical_form 0 knownDigest knownDigest_injective).1 _ _ load_twoRecords
  refine ⟨bytes, hbytes, hload, ?_⟩
  rw [datasetDigest, (canonicalDatasetBytes_of_load load_twoRecords).1, Except.ok_bind, knownDigest]
  exact congrArg Except.ok (tabulated_of_get? (by rw [Dict.get?_cons, if_pos rfl]))

/-- White space is bounded: behind enough blanks the two records are rejected. -/
theorem padded_source_rejected :
    ¬ ∀ raw raw' payload payload', Spells 0 raw payload → Spells 0 raw' payload' →
    Shuffled payload payload' →
      ∀ d, loadDataset 0 raw = .ok d → loadDataset 0 raw' = .ok d := by
  intro hall
  have hspells := spells_dump 0 0 distinct_twoRecords depth_twoRecords parse_twoRecords
  have hpadded := spells_dump 0 maxBytes distinct_twoRecords depth_twoRecords parse_twoRecords
  rw [List.replicate_zero, List.append_nil] at hspells
  have hload := hall _ _ _ _ hspells hpadded (.same _) _ load_twoRecords
  obtain ⟨payload, parsed, hdecode, -, -⟩ := loadDataset_eq_ok_iff.mp hload
  obtain ⟨hsize, -, -⟩ := decode_eq_ok_iff.mp hdecode
  obtain ⟨ms, hms⟩ := sortKeys_project twoRecords
  have hblanks : size (List.replicate maxBytes ' ') = maxBytes := by
    rw [size, List.map_replicate, List.sum_replicate, smul_eq_mul]
    rfl
  rw [size_utf8, size_append, hblanks, hms, write, size_cons] at hsize
  have hbrace : '{'.utf8Size = 1 := by decide
  omega

/-! ## Isolation -/

/-- **Datasets that load are isolated**: the dictionary is that of records of which any two in
different splits share no issuer, source or proposal, and whose earlier contexts stay before the
later publications; records of one proposal agree, and no label or sample occurs twice. -/
theorem loaded_dataset_isolated (spare : ℕ) (raw : ByteArray) (d : PyJson)
    (h : loadDataset spare raw = .ok d) :
    ∃ parsed : Dataset, d = parsed.project ∧ NoLeakage parsed.records := by
  obtain ⟨payload, parsed, -, hparsed, rfl⟩ := loadDataset_eq_ok_iff.mp h
  obtain ⟨hapart, hcons, hordered⟩ := parse_spec hparsed
  exact ⟨parsed, rfl, noLeakage_of_consistent hapart hcons hordered⟩

/-- The two records stand in different splits. -/
theorem loaded_dataset_isolated_two_records :
    ∃ parsed : Dataset, twoRecords.project = parsed.project ∧ NoLeakage parsed.records :=
  loaded_dataset_isolated 0 (dump twoRecords.project) twoRecords.project load_twoRecords

end CalibrationDataset
