/-
# Citations and their grades

The model of `validate/citations.py`, of the citation part of `validate/pipeline.py` and of the
stage `verify_citations`.  A citation is judged twice.  `citation_errors` looks its span up in a
dictionary of the asserted hashes and decides whether the draft is blocked; `citation_status_for`
reads the row itself and decides the grade that is stored with it.

The dictionary keeps the last hash asserted for a span, under the text of its id, so a row may be
invalid without a blocker.  `citations_agree_iff` says for which payloads the two judgements agree.
-/
import EvidenceLab.Validation

namespace Extraction

/-! ## The pinned evidence -/

/-- What `evidence_map` keeps of a block. -/
structure PinnedSpan where
  documentVersionId : String
  text : String
  textHash : String

/-- `evidence_map`. -/
def evidenceMap (blocks : List EvidenceBlock) : Dict String PinnedSpan :=
  blocks.foldl (fun pinned b => pinned.set b.sourceSpanId ⟨b.documentVersionId, b.text, b.textHash⟩)
    []

/-! ## Reading the citations -/

/-- `d or other`. -/
def Doc.orElse (d other : Doc) : Doc := if d.truthy then d else other

/-- The elements of a loop over `d or []`: those of a list, the characters of a text, the keys of an
object. -/
def Doc.iterate (d : Doc) : Except String (List Doc) :=
  match d with
  | .arr xs => .ok xs
  | .str s => .ok (s.toList.map fun c => .str (String.singleton c))
  | .obj members => .ok (members.map fun m => .str m.1)
  | d => if d.truthy then .error "TypeError" else .ok []

/-- `str(d)`: a text is itself, `repr` writes the others. -/
def Doc.toText (repr : Doc → String) : Doc → String
  | .str s => s
  | d => repr d

namespace Citation

section Citation

variable (sha256Hex : String → String) (repr : Doc → String)

/-- The hash of a pinned span: the stored one, or that of its text. -/
def actual (p : PinnedSpan) : String := if p.textHash = "" then sha256Hex p.text else p.textHash

/-- The span that an item of the evidence cites, as `citation_errors` reads it. -/
def spanOf (item : Doc) : Option String :=
  match item with
  | .str s => some s
  | .obj _ => if (item.field "source_span_id").truthy
      then some ((item.field "source_span_id").toText repr) else none
  | _ => none

/-- The loop of `citation_errors`: its errors so far and the number of verified citations. -/
def checkSpan (evidenceBySpan : Dict String PinnedSpan) (expectedHashes : Dict String String)
    (found : List String × ℕ) (span : String) : List String × ℕ :=
  match evidenceBySpan.get? span with
  | none => (found.1 ++ ["cited span not in pinned evidence: " ++ span], found.2)
  | some block =>
      match expectedHashes.get? span with
      | none => found
      | some expected =>
          if actual sha256Hex block ≠ expected
            then (found.1 ++ ["span hash mismatch: " ++ span], found.2)
          else (found.1, found.2 + 1)

/-- `citation_errors`. -/
def citationErrors (payload : Doc) (evidenceBySpan : Dict String PinnedSpan)
    (expectedHashes : Dict String String) :
    List String :=
  let evidence :=
    (payload.field "evidence").orElse ((payload.field "source_span_ids").orElse (.arr []))
  let spanIds := evidence.items.filterMap (spanOf repr)
  if spanIds = [] then ["proposal cites no evidence"]
  else
    let found := spanIds.foldl (checkSpan sha256Hex evidenceBySpan expectedHashes) ([], 0)
    if found.2 = 0 then found.1
      ++ ["no verified citation: no cited span asserts a matching text_hash"]
    else found.1

/-- The span and the hash that an item asserts. -/
def assertionOf (item : Doc) : Option (String × String) :=
  match item with
  | .obj _ =>
      match item.field "text_hash" with
      | .str hash =>
          if (item.field "source_span_id").truthy ∧ hash ≠ "" then
            some ((item.field "source_span_id").toText repr, hash)
          else none
      | _ => none
  | _ => none

/-- `_claimed_span_hashes`. -/
def claimedSpanHashes (clean : Doc) : Except String (Dict String String) := do
  let items ← (clean.field "evidence").iterate
  return Dict.update [] (items.filterMap (assertionOf repr))

/-- What the citation checks contribute to `_collect_blockers`. -/
def citationBlockers (clean : Doc) (evidenceBySpan : Dict String PinnedSpan) :
    Except String (List String) := do
  let claimed ← claimedSpanHashes repr clean
  return citationErrors sha256Hex repr clean evidenceBySpan claimed

/-- The values of `citation_status` that the pipeline writes. -/
inductive CitationStatus where
  | verified
  | membership
  | invalid
  deriving DecidableEq

def CitationStatus.name : CitationStatus → String
  | .verified => "verified"
  | .membership => "partial"
  | .invalid => "invalid"

/-- `citation_status_for`. -/
def citationStatusFor (row : Doc) (evidenceBySpan : Dict String PinnedSpan) : CitationStatus :=
  match row.field "source_span_id" with
  | .str span =>
      if PyText.strip span.toList = [] then .invalid
      else
        match evidenceBySpan.get? span with
        | none => .invalid
        | some pinned =>
            match row.field "text_hash" with
            | .str asserted =>
                if asserted = "" then .membership
                else if asserted = actual sha256Hex pinned then .verified else .invalid
            | _ => .membership
  | _ => .invalid

/-- `row["citation_status"] = status`. -/
def grade (evidenceBySpan : Dict String PinnedSpan) (row : Doc) : Doc :=
  Doc.set "citation_status" (.str (citationStatusFor sha256Hex row evidenceBySpan).name) row

/-- The citation row of an item before it is graded; the grade of the model is dropped. -/
def bareRow (item : Doc) : Option Doc :=
  match item with
  | .obj members =>
      if (item.field "source_span_id").truthy
        then some (.obj (members.filter fun m => m.1 != "citation_status"))
      else none
  | .str s => some (.obj [("source_span_id", .str s), ("role", .str "supports")])
  | _ => none

/-- The document of the pinned span stands in when the row names none. -/
def pinDocument (evidenceBySpan : Dict String PinnedSpan) (row : Doc) : Doc :=
  if (row.field "document_version_id").truthy then row
  else
    match evidenceBySpan.get? ((row.field "source_span_id").toText repr) with
    | none => row
    | some pinned =>
        if pinned.documentVersionId = "" then row
        else Doc.set "document_version_id" (.str pinned.documentVersionId) row

/-- `_evidence_rows`. -/
def evidenceRows (clean : Doc) (evidenceBySpan : Dict String PinnedSpan) :
    Except String (List Doc) := do
  let items ← (clean.field "evidence").iterate
  return (items.filterMap bareRow).map fun row =>
    grade sha256Hex evidenceBySpan (pinDocument repr evidenceBySpan row)

/-- What the stage `verify_citations` reports. -/
structure CitationCounts where
  verified : ℕ
  membership : ℕ
  invalid : ℕ
  checked : ℕ

/-- `_stage_verify_citations`, on the evidence rows of the validated drafts. -/
def stageVerifyCitations (evidence : List EvidenceBlock) (validated : List (List Doc)) :
    List (List Doc) × CitationCounts :=
  let pinned := evidenceMap evidence
  let statuses := validated.flatten.map fun row => citationStatusFor sha256Hex row pinned
  (validated.map fun rows => rows.map (grade sha256Hex pinned),
    ⟨statuses.count .verified, statuses.count .membership, statuses.count .invalid,
    validated.length⟩)

/-! ## What the two judgements look at -/

/-- The elements of `clean.get("evidence") or []`, when that is a list. -/
def Lists (clean : Doc) (items : List Doc) : Prop :=
  (clean.field "evidence").orElse (.arr []) = .arr items

/-- An item with a span id that is a text and not blank, if it has one at all. -/
def PlainId (item : Doc) : Prop :=
  match item with
  | .str s => PyText.strip s.toList ≠ []
  | .obj _ => (item.field "source_span_id").truthy → ∃ s, item.field "source_span_id" = .str s ∧
      PyText.strip s.toList ≠ []
  | _ => True

/-- The last hash asserted for a span. -/
def LastAsserted (items : List Doc) (span hash : String) : Prop :=
  ∃ before after, items.filterMap (assertionOf repr) = before ++ (span, hash) :: after ∧
    ∀ a ∈ after, a.1 ≠ span

section Kinds

variable (items : List Doc) (pinned : Dict String PinnedSpan)

/-- Every cited span is pinned. -/
def AllPinned : Prop := ∀ span ∈ items.filterMap (spanOf repr), (pinned.get? span).isSome

/-- Some citation asserts a hash. -/
def SomeAsserted : Prop := ∃ item ∈ items, (assertionOf repr item).isSome

/-- Every asserted hash is that of its span. -/
def AllRight : Prop :=
  ∀ a ∈ items.filterMap (assertionOf repr), ∀ block, pinned.get? a.1 = some block →
  actual sha256Hex block = a.2

/-- The last hash asserted for each span is that of the span. -/
def LastRight : Prop := ∀ span hash block, LastAsserted repr items span hash →
    pinned.get? span = some block →
  actual sha256Hex block = hash

/-- Two hashes are asserted for one span. -/
def Differ : Prop :=
  ∃ a ∈ items.filterMap (assertionOf repr), ∃ b ∈ items.filterMap (assertionOf repr),
  a.1 = b.1 ∧ a.2 ≠ b.2

/-- The payloads on which a row is invalid and no blocker says so: every cited span is pinned, a
hash is asserted and the last one for each span is right, but two hashes are asserted for one span,
or the id of a citation is blank or no text. -/
structure Masked : Prop where
  allPinned : AllPinned repr items pinned
  asserted : SomeAsserted repr items
  lastRight : LastRight sha256Hex repr items pinned
  defect : Differ repr items ∨ ∃ item ∈ items, ¬ PlainId item

end Kinds

/-- The item without the grade that the model supplied. -/
def ungraded : Doc → Doc
  | .obj members => .obj (members.filter fun m => m.1 != "citation_status")
  | d => d

/-- The rows of a draft support it: none is invalid and one is verified. -/
def Supported (rows : List Doc) : Prop :=
  (∀ row ∈ rows, row.field "citation_status" ≠ .str "invalid")
    ∧ ∃ row ∈ rows, row.field "citation_status" = .str "verified"

/-- The citations of a payload are judged consistently. -/
structure Agrees (clean : Doc) (items : List Doc) (evidence : List EvidenceBlock) : Prop where
  judged :
    ∃ blockers rows, citationBlockers sha256Hex repr clean (evidenceMap evidence) = .ok blockers
    ∧ evidenceRows sha256Hex repr clean (evidenceMap evidence) = .ok rows
      ∧ (blockers = [] ↔ Supported rows)
  ownGrade : ∀ clean' items', Lists clean' items' → items'.map ungraded = items.map ungraded →
    evidenceRows sha256Hex repr clean' (evidenceMap evidence)
      = evidenceRows sha256Hex repr clean (evidenceMap evidence)
  regrade : ∀ (rows : List Doc) (validated : List (List Doc)) (i : ℕ),
    evidenceRows sha256Hex repr clean (evidenceMap evidence) = .ok rows →
    validated[i]? = some rows →
      (stageVerifyCitations sha256Hex evidence validated).1[i]? = some rows

/-! ## The dictionary of the asserted hashes -/

/-- A span with an asserted hash has a last one. -/
theorem exists_lastAsserted {items : List Doc} {a : String × String}
    (h : a ∈ items.filterMap (assertionOf repr)) :
    ∃ hash, LastAsserted repr items a.1 hash := by
  have hkey : a.1 ∈ Dict.keys (Dict.update [] (items.filterMap (assertionOf repr))) := by
    exact Dict.mem_keys_update.mpr (.inr (List.mem_map_of_mem h))
  obtain ⟨hash, hget⟩ := Option.isSome_iff_exists.mp (Dict.get?_isSome_iff.mpr hkey)
  exact ⟨hash, Dict.get?_update_nil_iff.mp hget⟩

/-- The last hash of a span is one of its assertions. -/
theorem LastAsserted.mem {items : List Doc} {span hash : String}
    (h : LastAsserted repr items span hash) :
    (span, hash) ∈ items.filterMap (assertionOf repr) := by
  obtain ⟨before, after, heq, -⟩ := h
  rw [heq]
  simp

/-! ## The blockers -/

section Blockers

variable (pinned : Dict String PinnedSpan) (expected : Dict String String)

/-- A cited span about which the loop has nothing to say. -/
def SpanOk (span : String) : Prop :=
  ∃ block, pinned.get? span = some block ∧ ∀ hash, expected.get? span = some hash →
    actual sha256Hex block = hash

/-- A cited span with a right hash. -/
def SpanVerified (span : String) : Prop :=
  ∃ block, pinned.get? span = some block ∧ expected.get? span = some (actual sha256Hex block)

variable (found : List String × ℕ) (span : String)

/-- A span adds no error if and only if it is right. -/
theorem checkSpan_errors : (checkSpan sha256Hex pinned expected found span).1 = [] ↔
    found.1 = [] ∧ SpanOk sha256Hex pinned expected span := by
  rw [checkSpan, SpanOk]
  cases hp : pinned.get? span with
  | none => simp
  | some block =>
      cases he : expected.get? span with
      | none => simp
      | some hash =>
          by_cases h : actual sha256Hex block = hash
          · simp [h]
          · simp [h]

/-- A span is not counted if and only if it is not verified. -/
theorem checkSpan_verified : (checkSpan sha256Hex pinned expected found span).2 = 0 ↔
    found.2 = 0 ∧ ¬ SpanVerified sha256Hex pinned expected span := by
  rw [checkSpan, SpanVerified]
  cases hp : pinned.get? span with
  | none => simp
  | some block =>
      cases he : expected.get? span with
      | none => simp
      | some hash =>
          by_cases h : actual sha256Hex block = hash
          · simp [h]
          · simp [h, Ne.symm h]

/-- The spans have no errors if and only if all of them are right. -/
theorem foldl_checkSpan_errors (spans : List String) :
    (spans.foldl (checkSpan sha256Hex pinned expected) found).1 = [] ↔
      found.1 = [] ∧ ∀ span ∈ spans, SpanOk sha256Hex pinned expected span := by
  induction spans generalizing found with
  | nil => simp
  | cons span spans ih =>
      rw [List.foldl_cons, ih, checkSpan_errors, List.forall_mem_cons, and_assoc]

/-- None is counted if and only if no span is verified. -/
theorem foldl_checkSpan_verified (spans : List String) :
    (spans.foldl (checkSpan sha256Hex pinned expected) found).2 = 0 ↔
      found.2 = 0 ∧ ∀ span ∈ spans, ¬ SpanVerified sha256Hex pinned expected span := by
  induction spans generalizing found with
  | nil => simp
  | cons span spans ih =>
      rw [List.foldl_cons, ih, checkSpan_verified, List.forall_mem_cons, and_assoc]

end Blockers

/-- The citations of a payload are an array, or absent and falsy. -/
theorem lists_cases {clean : Doc} {items : List Doc} (h : Lists clean items) :
    (clean.field "evidence").truthy ∧ clean.field "evidence" = .arr items
      ∨ ¬ (clean.field "evidence").truthy ∧ items = [] := by
  rw [Lists, Doc.orElse] at h
  split_ifs at h with ht
  · exact .inl ⟨ht, h⟩
  · rw [Doc.arr.injEq] at h
    exact .inr ⟨ht, h.symm⟩

theorem iterate_of_falsy {d : Doc} (h : ¬ d.truthy) : d.iterate = .ok [] := by
  cases d with
  | null | bool b | num literal => simp [Doc.iterate, h]
  | str s =>
      have hs : s = "" := by simpa [Doc.truthy] using h
      rw [hs]
      rfl
  | arr xs =>
      have hxs : xs = [] := by simpa [Doc.truthy] using h
      rw [hxs]
      rfl
  | obj members =>
      have hm : members = [] := by simpa [Doc.truthy] using h
      rw [hm]
      rfl

/-- Iterating the citations gives their list. -/
theorem iterate_of_lists {clean : Doc} {items : List Doc} (h : Lists clean items) :
    (clean.field "evidence").iterate = .ok items := by
  rcases lists_cases h with ⟨-, h⟩ | ⟨ht, rfl⟩
  · rw [h]
    rfl
  · exact iterate_of_falsy ht

/-- A list of cited spans passes when it has nothing to say and one span is verified. -/
theorem citationErrors_eq_nil_iff {clean : Doc} {items : List Doc} (h : Lists clean items)
    (pinned : Dict String PinnedSpan) :
    citationErrors sha256Hex repr clean pinned (Dict.update [] (items.filterMap (assertionOf repr)))
    = [] ↔
      (∀ span ∈ items.filterMap (spanOf repr), SpanOk sha256Hex pinned
        (Dict.update [] (items.filterMap (assertionOf repr))) span)
      ∧ ∃ span ∈ items.filterMap (spanOf repr), SpanVerified sha256Hex pinned
        (Dict.update [] (items.filterMap (assertionOf repr))) span := by
  generalize hx : Dict.update [] (items.filterMap (assertionOf repr)) = expected
  generalize hs :
    ((clean.field "evidence").orElse
    ((clean.field "source_span_ids").orElse (.arr []))).items.filterMap
    (spanOf repr) = spans
  have hbody : citationErrors sha256Hex repr clean pinned expected = [] ↔
      (∀ span ∈ spans, SpanOk sha256Hex pinned expected span)
        ∧ ∃ span ∈ spans, SpanVerified sha256Hex pinned expected span := by
    rw [citationErrors]
    simp only [hs]
    split_ifs with hnil hzero
    · simp [hnil]
    · rw [foldl_checkSpan_verified] at hzero
      have hnone : ¬ ∃ span ∈ spans, SpanVerified sha256Hex pinned expected span := by
        rintro ⟨span, hspan, hv⟩
        exact hzero.2 span hspan hv
      simp [hnone]
    · rw [foldl_checkSpan_verified] at hzero
      have hsome : ∃ span ∈ spans, SpanVerified sha256Hex pinned expected span := by
        by_contra hnone
        exact hzero ⟨rfl, fun span hspan hv => hnone ⟨span, hspan, hv⟩⟩
      rw [foldl_checkSpan_errors]
      simp [hsome]
  rw [hbody]
  rcases lists_cases h with ⟨ht, hf⟩ | ⟨ht, hitems⟩
  · have hspans : spans = items.filterMap (spanOf repr) := by
      rw [← hs, Doc.orElse, if_pos ht, hf]
      rfl
    rw [hspans]
  · -- without evidence no hash is asserted, so no span of `source_span_ids` is verified
    have hexp : expected = [] := by
      rw [← hx, hitems]
      rfl
    have hnone : ∀ span, ¬ SpanVerified sha256Hex pinned expected span := by
      rintro span ⟨block, -, hget⟩
      rw [hexp] at hget
      cases hget
    simp [hnone]

/-! ## The grades -/

theorem field_set_self (key : String) (v : Doc) (members : List (String × Doc)) :
    (Doc.set key v (.obj members)).field key = v := by
  rw [Doc.set]
  split_ifs with hany
  · induction members with
    | nil => simp at hany
    | cons m members ih =>
        by_cases hm : m.1 = key
        · simp [Doc.field, Doc.get?, hm]
        · have hrest : members.any (fun m => m.1 == key) := by simpa [hm] using hany
          simpa [Doc.field, Doc.get?, hm] using ih hrest
  · have hnone : members.find? (fun m => m.1 == key) = none := by
      rw [List.find?_eq_none]
      intro m hm hk
      exact hany (List.any_eq_true.mpr ⟨m, hm, hk⟩)
    simp [Doc.field, Doc.get?, List.find?_append, hnone]

theorem field_set_of_ne {key key' : String} (h : key ≠ key') (v d : Doc) :
    (Doc.set key v d).field key' = d.field key' := by
  cases d with
  | obj members =>
      rw [Doc.set]
      split_ifs with hany
      · clear hany
        induction members with
        | nil => rfl
        | cons m members ih =>
            by_cases hm : m.1 = key
            · simpa [Doc.field, Doc.get?, hm, h] using ih
            · by_cases hm' : m.1 = key'
              · simp [Doc.field, Doc.get?, hm', Ne.symm h]
              · simpa [Doc.field, Doc.get?, hm, hm'] using ih
      · simp [Doc.field, Doc.get?, List.find?_append, h]
  | _ => rfl

/-- Setting a field to the value it was set to changes nothing. -/
theorem set_set (key : String) (v d : Doc) : Doc.set key v (Doc.set key v d) = Doc.set key v d := by
  cases d with
  | obj members =>
      by_cases hany : members.any (fun m => m.1 == key)
      · have hmap :
        (members.map fun m => if m.1 == key then (key, v) else m).any (fun m => m.1 == key) := by
          rw [List.any_map]
          obtain ⟨m, hm, hk⟩ := List.any_eq_true.mp hany
          exact List.any_eq_true.mpr ⟨m, hm, by simp [beq_iff_eq.mp hk]⟩
        rw [Doc.set, if_pos hany, Doc.set, if_pos hmap, List.map_map]
        congr 1
        apply List.map_congr_left
        intro m hm
        by_cases hk : m.1 = key
        · simp [hk]
        · simp [hk]
      · have hnew : (members ++ [(key, v)]).any (fun m => m.1 == key) := by simp
        have hkeep : (members.map fun m => if m.1 == key then (key, v) else m) = members := by
          conv_rhs => rw [← List.map_id members]
          apply List.map_congr_left
          intro m hm
          have hk : ¬ m.1 == key := fun hk => hany (List.any_eq_true.mpr ⟨m, hm, hk⟩)
          rw [if_neg hk]
          rfl
        rw [Doc.set, if_neg hany, Doc.set, if_pos hnew, List.map_append, hkeep]
        simp
  | _ => rfl

/-- Removing a key keeps the other fields. -/
theorem field_filter {key key' : String} (h : key ≠ key') (members : List (String × Doc)) :
    (Doc.obj (members.filter fun m => m.1 != key)).field key' = (Doc.obj members).field key' := by
  rw [Doc.field, Doc.field, Doc.get?, Doc.get?, List.find?_filter]
  congr 3
  funext m
  by_cases hm : m.1 = key'
  · simp [hm, Ne.symm h]
  · simp [hm]

/-- The grade reads the span id and the hash of the row and nothing else. -/
theorem citationStatusFor_congr {row row' : Doc}
    (hspan : row.field "source_span_id" = row'.field "source_span_id")
    (hhash : row.field "text_hash" = row'.field "text_hash") (pinned : Dict String PinnedSpan) :
    citationStatusFor sha256Hex row pinned = citationStatusFor sha256Hex row' pinned := by
  rw [citationStatusFor, citationStatusFor, hspan, hhash]

/-- Pinning a row to its document writes that key only. -/
theorem field_pinDocument {key : String} (h : key ≠ "document_version_id")
    (pinned : Dict String PinnedSpan) (row : Doc) :
    (pinDocument repr pinned row).field key = row.field key := by
  rw [pinDocument]
  split
  · rfl
  · split
    · rfl
    · split
      · rfl
      · exact field_set_of_ne h.symm _ _

/-- The grade of a citation, from its span id and the hash it asserts. -/
theorem citationStatusFor_text {row : Doc} {span : String}
    (hspan : row.field "source_span_id" = .str span)
    (hblank : PyText.strip span.toList ≠ []) {pinned : Dict String PinnedSpan} {block : PinnedSpan}
    (hblock : pinned.get? span = some block) :
    (citationStatusFor sha256Hex row pinned ≠ .invalid ↔
      ∀ hash, row.field "text_hash" = .str hash → hash ≠ "" → actual sha256Hex block = hash)
    ∧ (citationStatusFor sha256Hex row pinned = .verified ↔
      row.field "text_hash" = .str (actual sha256Hex block) ∧ actual sha256Hex block ≠ "") := by
  simp only [citationStatusFor, hspan, if_neg hblank, hblock]
  cases hh : row.field "text_hash" with
  | str asserted =>
      by_cases he : asserted = ""
      · simp only [he]
        simp
      · by_cases ha : asserted = actual sha256Hex block
        · simp [← ha, he]
        · simp [he, ha, Ne.symm ha]
  | _ => simp

/-- A span without evidence is invalid. -/
theorem citationStatusFor_of_not_pinned {row : Doc} {span : String}
    {pinned : Dict String PinnedSpan}
    (hspan : row.field "source_span_id" = .str span) (hblock : pinned.get? span = none) :
    citationStatusFor sha256Hex row pinned = .invalid := by
  simp only [citationStatusFor, hspan, hblock, ite_self]

/-- A span without a text is invalid. -/
theorem citationStatusFor_of_no_text {row : Doc}
    (hspan : ∀ s, row.field "source_span_id" = .str s → PyText.strip s.toList = [])
    (pinned : Dict String PinnedSpan) :
    citationStatusFor sha256Hex row pinned = .invalid := by
  rw [citationStatusFor]
  cases h : row.field "source_span_id" with
  | str s => simp [hspan s h]
  | _ => rfl

/-- What an item says of a span: the item has a row exactly when it cites a span. -/
structure ItemRow (item row : Doc) (span : String) : Prop where
  cited : spanOf repr item = some span
  plain : PlainId item ↔ ∃ s, row.field "source_span_id" = .str s ∧ PyText.strip s.toList ≠ []
  text : ∀ s, row.field "source_span_id" = .str s → s = span
  assertion : ∀ a, assertionOf repr item = some a ↔ a.1 = span ∧ a.2 ≠ "" ∧
    row.field "text_hash" = .str a.2

/-- A row comes from the span of its citation. -/
theorem itemRow_of_bareRow {item row : Doc} (h : bareRow item = some row) :
    ∃ span, ItemRow repr item row span := by
  cases item with
  | str s =>
      rw [bareRow, Option.some.injEq] at h
      subst h
      exact ⟨s, rfl, by simp [PlainId, Doc.field, Doc.get?], by simp [Doc.field, Doc.get?],
        by simp [assertionOf, Doc.field, Doc.get?]⟩
  | obj members =>
      rw [bareRow] at h
      split_ifs at h with ht
      rw [Option.some.injEq] at h
      subst h
      refine ⟨((Doc.obj members).field "source_span_id").toText repr, by
        simp [spanOf, ht], ?_, ?_, ?_⟩
      · rw [field_filter (by decide), PlainId]
        exact ⟨fun h => h ht, fun h _ => h⟩
      · intro s hs
        rw [field_filter (by decide)] at hs
        rw [hs]
        rfl
      · rintro ⟨span, hash⟩
        rw [field_filter (by decide), assertionOf]
        cases hh : (Doc.obj members).field "text_hash" with
        | str s =>
            by_cases he : s = ""
            · simp only [he]
              simp
            · show (if ((Doc.obj members).field "source_span_id").truthy ∧ s ≠ "" then _ else none)
              = some (span, hash) ↔ _
              rw [if_pos ⟨ht, he⟩, Option.some.injEq, Prod.mk.injEq, Doc.str.injEq]
              constructor
              · rintro ⟨rfl, rfl⟩
                exact ⟨rfl, he, rfl⟩
              · rintro ⟨h1, -, h3⟩
                exact ⟨h1.symm, h3⟩
        | _ => simp
  | _ => cases h

/-- A citation has a row if and only if it names a span. -/
theorem bareRow_isSome_iff {item : Doc} :
    (∃ row, bareRow item = some row) ↔ ∃ span, spanOf repr item = some span := by
  cases item with
  | obj members =>
      rw [bareRow, spanOf]
      split_ifs <;> simp
  | _ => simp [bareRow, spanOf]

/-- A row is not invalid when its id is a text, the span is pinned and an asserted hash is right. -/
theorem status_ne_invalid_iff {item row : Doc} {span : String} (h : ItemRow repr item row span)
    (pinned : Dict String PinnedSpan) :
    citationStatusFor sha256Hex row pinned ≠ .invalid ↔
      PlainId item ∧ ∃ block, pinned.get? span = some block
        ∧ ∀ a, assertionOf repr item = some a → actual sha256Hex block = a.2 := by
  rw [h.plain]
  by_cases hp : ∃ s, row.field "source_span_id" = .str s ∧ PyText.strip s.toList ≠ []
  · obtain ⟨s, hs, hblank⟩ := hp
    obtain rfl := h.text s hs
    cases hblock : pinned.get? s with
    | none => simp [citationStatusFor_of_not_pinned sha256Hex hs hblock]
    | some block =>
        rw [(citationStatusFor_text sha256Hex hs hblank hblock).1]
        constructor
        · intro hr
          refine ⟨⟨s, hs, hblank⟩, block, rfl, ?_⟩
          intro a ha
          obtain ⟨-, hne, hhash⟩ := (h.assertion a).mp ha
          exact hr a.2 hhash hne
        · rintro ⟨-, block', hb, hr⟩ hash hhash hne
          obtain rfl := Option.some.inj hb
          exact hr (s, hash) ((h.assertion _).mpr ⟨rfl, hne, hhash⟩)
  · have hinv : citationStatusFor sha256Hex row pinned = .invalid := by
      apply citationStatusFor_of_no_text
      intro s hs
      by_contra hblank
      exact hp ⟨s, hs, hblank⟩
    simp [hinv, hp]

/-- A row is verified when it moreover asserts a hash. -/
theorem status_eq_verified_iff {item row : Doc} {span : String} (h : ItemRow repr item row span)
    (pinned : Dict String PinnedSpan) :
    citationStatusFor sha256Hex row pinned = .verified ↔
      citationStatusFor sha256Hex row pinned ≠ .invalid ∧ (assertionOf repr item).isSome := by
  constructor
  · intro hv
    have hne : citationStatusFor sha256Hex row pinned ≠ .invalid := by
      rw [hv]
      decide
    refine ⟨hne, ?_⟩
    obtain ⟨hplain, block, hblock, -⟩ := (status_ne_invalid_iff sha256Hex repr h pinned).mp hne
    obtain ⟨s, hs, hblank⟩ := h.plain.mp hplain
    obtain rfl := h.text s hs
    obtain ⟨hhash, hempty⟩ := (citationStatusFor_text sha256Hex hs hblank hblock).2.mp hv
    rw [(h.assertion (s, actual sha256Hex block)).mpr ⟨rfl, hempty, hhash⟩]
    rfl
  · rintro ⟨hne, hsome⟩
    obtain ⟨a, ha⟩ := Option.isSome_iff_exists.mp hsome
    obtain ⟨hplain, block, hblock, hright⟩ := (status_ne_invalid_iff sha256Hex repr h pinned).mp hne
    obtain ⟨s, hs, hblank⟩ := h.plain.mp hplain
    obtain rfl := h.text s hs
    obtain ⟨-, hempty, hhash⟩ := (h.assertion a).mp ha
    rw [(citationStatusFor_text sha256Hex hs hblank hblock).2, hright a ha]
    exact ⟨hhash, hempty⟩

/-- A status is known by its name. -/
theorem name_eq_iff {s t : CitationStatus} : Doc.str s.name = .str t.name ↔ s = t := by
  rw [Doc.str.injEq]
  cases s <;> cases t <;> decide

/-- A row is graded with the status of its span. -/
theorem field_grade {item row : Doc} (h : bareRow item = some row)
    (pinned : Dict String PinnedSpan) :
    (grade sha256Hex pinned (pinDocument repr pinned row)).field "citation_status"
      = .str (citationStatusFor sha256Hex row pinned).name := by
  have hobj : ∃ members, pinDocument repr pinned row = .obj members := by
    obtain ⟨members, rfl⟩ : ∃ members, row = .obj members := by
      cases item with
      | obj members =>
          rw [bareRow] at h
          split_ifs at h
          exact ⟨_, (Option.some.inj h).symm⟩
      | str s => exact ⟨_, (Option.some.inj h).symm⟩
      | _ => cases h
    rw [pinDocument]
    split
    · exact ⟨_, rfl⟩
    · split
      · exact ⟨_, rfl⟩
      · split
        · exact ⟨_, rfl⟩
        · rw [Doc.set]
          split
          · exact ⟨_, rfl⟩
          · exact ⟨_, rfl⟩
  have hstatus : citationStatusFor sha256Hex (pinDocument repr pinned row) pinned
      = citationStatusFor sha256Hex row pinned :=
    citationStatusFor_congr sha256Hex (field_pinDocument repr (by decide) pinned row)
      (field_pinDocument repr (by decide) pinned row) pinned
  obtain ⟨members, hm⟩ := hobj
  rw [grade, hstatus, hm, field_set_self]

/-- The graded rows of a list of items. -/
def rowsOf (pinned : Dict String PinnedSpan) (items : List Doc) : List Doc :=
  (items.filterMap bareRow).map fun row => grade sha256Hex pinned (pinDocument repr pinned row)

/-- A payload is supported if no row is invalid and one is verified. -/
theorem supported_rowsOf_iff (pinned : Dict String PinnedSpan) (items : List Doc) :
    Supported (rowsOf sha256Hex repr pinned items) ↔
      (∀ item ∈ items, ∀ row, bareRow item = some row →
        citationStatusFor sha256Hex row pinned ≠ .invalid)
        ∧ ∃ item ∈ items, ∃ row, bareRow item = some row ∧ citationStatusFor sha256Hex row pinned
        = .verified := by
  rw [Supported, rowsOf]
  apply and_congr
  · constructor
    · intro h item hitem row hrow hinv
      refine h _ (List.mem_map_of_mem (List.mem_filterMap.mpr ⟨item, hitem, hrow⟩)) ?_
      rw [field_grade sha256Hex repr hrow, hinv]
      rfl
    · intro h graded hgraded
      obtain ⟨row, hmem, rfl⟩ := List.mem_map.mp hgraded
      obtain ⟨item, hitem, hrow⟩ := List.mem_filterMap.mp hmem
      rw [field_grade sha256Hex repr hrow]
      exact fun heq => h item hitem row hrow ((name_eq_iff (t := .invalid)).mp heq)
  · constructor
    · rintro ⟨graded, hgraded, heq⟩
      obtain ⟨row, hmem, rfl⟩ := List.mem_map.mp hgraded
      obtain ⟨item, hitem, hrow⟩ := List.mem_filterMap.mp hmem
      rw [field_grade sha256Hex repr hrow] at heq
      exact ⟨item, hitem, row, hrow, (name_eq_iff (t := .verified)).mp heq⟩
    · rintro ⟨item, hitem, row, hrow, hv⟩
      refine ⟨_, List.mem_map_of_mem (List.mem_filterMap.mpr ⟨item, hitem, hrow⟩), ?_⟩
      rw [field_grade sha256Hex repr hrow, hv]
      rfl

/-! ## Both judgements over the citations -/

section Judgements

variable {items : List Doc} {pinned : Dict String PinnedSpan}

/-- An assertion names its span. -/
theorem spanOf_of_assertionOf {item : Doc} {a : String × String}
    (h : assertionOf repr item = some a) :
    spanOf repr item = some a.1 := by
  cases item with
  | obj members =>
      rw [assertionOf] at h
      split at h
      · split_ifs at h with ht
        rw [spanOf, if_pos ht.1, ← Option.some.inj h]
      · cases h
  | _ => cases h

/-- **The validator reports nothing** if and only if all spans are pinned, one is asserted and the
last hashes are right. -/
theorem noBlockers_iff {clean : Doc} (h : Lists clean items) :
    citationErrors sha256Hex repr clean pinned (Dict.update [] (items.filterMap (assertionOf repr)))
    = [] ↔
      AllPinned repr items pinned ∧ SomeAsserted repr items ∧
      LastRight sha256Hex repr items pinned := by
  have hcited : ∀ {span hash}, LastAsserted repr items span hash →
      span ∈ items.filterMap (spanOf repr) := by
    intro span hash hl
    obtain ⟨item, hitem, ha⟩ := List.mem_filterMap.mp (LastAsserted.mem repr hl)
    exact List.mem_filterMap.mpr ⟨item, hitem, spanOf_of_assertionOf repr ha⟩
  rw [citationErrors_eq_nil_iff sha256Hex repr h]
  constructor
  · rintro ⟨hok, span, hspan, block, hblock, hget⟩
    refine ⟨?_, ?_, ?_⟩
    · intro span' hspan'
      obtain ⟨block', hblock', -⟩ := hok span' hspan'
      rw [hblock']
      rfl
    · have hl := LastAsserted.mem repr (Dict.get?_update_nil_iff.mp hget)
      obtain ⟨item, hitem, ha⟩ := List.mem_filterMap.mp hl
      exact ⟨item, hitem, by rw [ha]; rfl⟩
    · intro span' hash block' hl hblock'
      obtain ⟨block'', hblock'', hright⟩ := hok span' (hcited hl)
      rw [hblock', Option.some.injEq] at hblock''
      rw [hblock'']
      exact hright hash (Dict.get?_update_nil_iff.mpr hl)
  · rintro ⟨hpinned, ⟨item, hitem, hsome⟩, hlast⟩
    refine ⟨?_, ?_⟩
    · intro span hspan
      obtain ⟨block, hblock⟩ := Option.isSome_iff_exists.mp (hpinned span hspan)
      exact ⟨block, hblock,
        fun hash hget => hlast span hash block (Dict.get?_update_nil_iff.mp hget) hblock⟩
    · obtain ⟨a, ha⟩ := Option.isSome_iff_exists.mp hsome
      obtain ⟨hash, hl⟩ := exists_lastAsserted repr (List.mem_filterMap.mpr ⟨item, hitem, ha⟩)
      obtain ⟨block, hblock⟩ := Option.isSome_iff_exists.mp (hpinned a.1 (hcited hl))
      refine ⟨a.1, hcited hl, block, hblock, ?_⟩
      rw [hlast a.1 hash block hl hblock]
      exact Dict.get?_update_nil_iff.mpr hl

/-- **The grades support a payload** if and only if all spans are pinned, one is asserted and every
hash is right. -/
theorem supported_iff : Supported (rowsOf sha256Hex repr pinned items) ↔
    AllPinned repr items pinned ∧ SomeAsserted repr items ∧ AllRight sha256Hex repr items pinned
      ∧ ∀ item ∈ items, PlainId item := by
  rw [supported_rowsOf_iff]
  constructor
  · rintro ⟨hvalid, item, hitem, row, hrow, hv⟩
    refine ⟨?_, ?_, ?_, ?_⟩
    · -- every cited span is pinned
      intro span hspan
      obtain ⟨item', hitem', hs⟩ := List.mem_filterMap.mp hspan
      obtain ⟨row', hrow'⟩ := (bareRow_isSome_iff repr).mpr ⟨span, hs⟩
      obtain ⟨span', hi⟩ := itemRow_of_bareRow repr hrow'
      obtain ⟨-, block, hblock, -⟩ :=
        (status_ne_invalid_iff sha256Hex repr hi pinned).mp (hvalid item' hitem' row' hrow')
      rw [Option.some.inj (hs.symm.trans hi.cited), hblock]
      rfl
    · obtain ⟨span, hi⟩ := itemRow_of_bareRow repr hrow
      exact ⟨item, hitem, ((status_eq_verified_iff sha256Hex repr hi pinned).mp hv).2⟩
    · -- every assertion is right where its span is pinned
      intro a ha block hblock
      obtain ⟨item', hitem', hs⟩ := List.mem_filterMap.mp ha
      obtain ⟨row', hrow'⟩ := (bareRow_isSome_iff repr).mpr ⟨a.1, spanOf_of_assertionOf repr hs⟩
      obtain ⟨span', hi⟩ := itemRow_of_bareRow repr hrow'
      obtain ⟨-, block', hblock', hright⟩ :=
        (status_ne_invalid_iff sha256Hex repr hi pinned).mp (hvalid item' hitem' row' hrow')
      obtain rfl := ((hi.assertion a).mp hs).1
      rw [hblock, Option.some.injEq] at hblock'
      rw [hblock']
      exact hright a hs
    · -- an item that gives no row has a plain id
      intro item' hitem'
      cases hr : bareRow item' with
      | none =>
          cases item' with
          | obj members =>
              intro ht
              rw [bareRow, if_pos ht] at hr
              cases hr
          | str s => cases hr
          | _ => trivial
      | some row' =>
          obtain ⟨span', hi⟩ := itemRow_of_bareRow repr hr
          exact ((status_ne_invalid_iff sha256Hex repr hi pinned).mp
            (hvalid item' hitem' row' hr)).1
  · rintro ⟨hpinned, ⟨item, hitem, hsome⟩, hright, hplain⟩
    have hvalid : ∀ item ∈ items, ∀ row, bareRow item = some row →
        citationStatusFor sha256Hex row pinned ≠ .invalid := by
      intro item' hitem' row' hrow'
      obtain ⟨span', hi⟩ := itemRow_of_bareRow repr hrow'
      obtain ⟨block, hblock⟩ := Option.isSome_iff_exists.mp
        (hpinned span' (List.mem_filterMap.mpr ⟨item', hitem', hi.cited⟩))
      refine (status_ne_invalid_iff sha256Hex repr hi pinned).mpr ⟨hplain item' hitem',
        block, hblock, ?_⟩
      -- the assertion of the item is the one that the row carries
      intro a ha
      refine hright a (List.mem_filterMap.mpr ⟨item', hitem', ha⟩) block ?_
      rw [((hi.assertion a).mp ha).1]
      exact hblock
    refine ⟨hvalid, item, hitem, ?_⟩
    obtain ⟨a, ha⟩ := Option.isSome_iff_exists.mp hsome
    obtain ⟨row, hrow⟩ := (bareRow_isSome_iff repr).mpr ⟨a.1, spanOf_of_assertionOf repr ha⟩
    obtain ⟨span, hi⟩ := itemRow_of_bareRow repr hrow
    exact ⟨row, hrow,
      (status_eq_verified_iff sha256Hex repr hi pinned).mpr ⟨hvalid item hitem row hrow, hsome⟩⟩

/-- All hashes are right when the last ones are and no two differ. -/
theorem allRight_iff (hlast : LastRight sha256Hex repr items pinned)
    (hpinned : AllPinned repr items pinned) :
    AllRight sha256Hex repr items pinned ↔ ¬ Differ repr items := by
  constructor
  · rintro hright ⟨a, ha, b, hb, hspan, hne⟩
    obtain ⟨item, hitem, hs⟩ := List.mem_filterMap.mp ha
    obtain ⟨block, hblock⟩ := Option.isSome_iff_exists.mp
      (hpinned a.1 (List.mem_filterMap.mpr ⟨item, hitem, spanOf_of_assertionOf repr hs⟩))
    exact hne ((hright a ha block hblock).symm.trans (hright b hb block (hspan ▸ hblock)))
  · intro hsame a ha block hblock
    obtain ⟨hash, hl⟩ := exists_lastAsserted repr ha
    rw [hlast a.1 hash block hl hblock]
    by_contra hne
    exact hsame ⟨a, ha, (a.1, hash), LastAsserted.mem repr hl, rfl, fun h => hne h.symm⟩

/-- Where all hashes are right, the last ones are. -/
theorem lastRight_of_allRight (h : AllRight sha256Hex repr items pinned) :
    LastRight sha256Hex repr items pinned :=
  fun _ _ block hl hblock => h _ (LastAsserted.mem repr hl) block hblock

/-- The two judgements differ on the masked payloads and on no others. -/
theorem noBlockers_iff_supported_iff {clean : Doc} (h : Lists clean items) :
    (citationErrors sha256Hex repr clean pinned
      (Dict.update [] (items.filterMap (assertionOf repr))) = [] ↔
      Supported (rowsOf sha256Hex repr pinned items)) ↔ ¬ Masked sha256Hex repr items pinned := by
  rw [noBlockers_iff sha256Hex repr h, supported_iff]
  constructor
  · rintro hiff ⟨hpinned, hasserted, hlast, hdefect⟩
    obtain ⟨-, -, hright, hplain⟩ := hiff.mp ⟨hpinned, hasserted, hlast⟩
    rcases hdefect with hdiffer | ⟨item, hitem, hid⟩
    · exact (allRight_iff sha256Hex repr hlast hpinned).mp hright hdiffer
    · exact hid (hplain item hitem)
  · intro hmask
    constructor
    · rintro ⟨hpinned, hasserted, hlast⟩
      refine ⟨hpinned, hasserted, (allRight_iff sha256Hex repr hlast hpinned).mpr ?_, ?_⟩
      · exact fun hdiffer => hmask ⟨hpinned, hasserted, hlast, .inl hdiffer⟩
      · intro item hitem
        by_contra hid
        exact hmask ⟨hpinned, hasserted, hlast, .inr ⟨item, hitem, hid⟩⟩
    · rintro ⟨hpinned, hasserted, hright, -⟩
      exact ⟨hpinned, hasserted, lastRight_of_allRight sha256Hex repr hright⟩

end Judgements

/-! ## Agreement -/

theorem bareRow_ungraded (item : Doc) : bareRow (ungraded item) = bareRow item := by
  cases item with
  | obj members =>
      rw [ungraded, bareRow, bareRow, field_filter (by decide)]
      simp
  | _ => rfl

/-- The rows do not depend on grades given before. -/
theorem filterMap_bareRow_congr {items items' : List Doc}
    (h : items'.map ungraded = items.map ungraded) :
    items'.filterMap bareRow = items.filterMap bareRow := by
  have hmap : ∀ l : List Doc, l.filterMap bareRow = (l.map ungraded).filterMap bareRow := by
    intro l
    rw [List.filterMap_map]
    congr 1
    funext item
    exact (bareRow_ungraded item).symm
  rw [hmap items', h, ← hmap items]

/-- The rows of a payload are those of its citations. -/
theorem evidenceRows_of_lists {clean : Doc} {items : List Doc} (h : Lists clean items)
    (pinned : Dict String PinnedSpan) :
    evidenceRows sha256Hex repr clean pinned = .ok (rowsOf sha256Hex repr pinned items) := by
  rw [evidenceRows, iterate_of_lists h]
  rfl

/-- The blockers of a payload are those of its assertions. -/
theorem citationBlockers_of_lists {clean : Doc} {items : List Doc} (h : Lists clean items)
    (pinned : Dict String PinnedSpan) :
    citationBlockers sha256Hex repr clean pinned
      = .ok (citationErrors sha256Hex repr clean pinned
        (Dict.update [] (items.filterMap (assertionOf repr)))) := by
  rw [citationBlockers, claimedSpanHashes, iterate_of_lists h]
  rfl

/-- A graded row is graded alike once more. -/
theorem grade_grade (pinned : Dict String PinnedSpan) (row : Doc) :
    grade sha256Hex pinned (grade sha256Hex pinned row) = grade sha256Hex pinned row := by
  have hstatus : citationStatusFor sha256Hex (grade sha256Hex pinned row) pinned
      = citationStatusFor sha256Hex row pinned :=
    citationStatusFor_congr sha256Hex (field_set_of_ne (by decide) _ _)
      (field_set_of_ne (by decide) _ _) pinned
  conv_lhs => rw [grade, hstatus]
  rw [grade, set_set]

/-- The stage grades rows again as they were graded. -/
theorem stage_regrades (evidence : List EvidenceBlock) {items : List Doc}
    {validated : List (List Doc)} {i : ℕ}
    (h : validated[i]? = some (rowsOf sha256Hex repr (evidenceMap evidence) items)) :
    (stageVerifyCitations sha256Hex evidence validated).1[i]?
    = some (rowsOf sha256Hex repr (evidenceMap evidence) items) := by
  show (validated.map fun rows => rows.map (grade sha256Hex (evidenceMap evidence)))[i]? = _
  rw [List.getElem?_map, h, Option.map_some, Option.some.injEq, rowsOf, List.map_map]
  apply List.map_congr_left
  intro row hrow
  exact grade_grade sha256Hex (evidenceMap evidence) _

/-- **The citation blockers and the citation grades agree** on every payload with a list of
citations except the masked ones.  The grades never depend on a grade that the model supplied, and
the stage `verify_citations` repeats them. -/
theorem citations_agree_iff (clean : Doc) (items : List Doc) (evidence : List EvidenceBlock)
    (h : Lists clean items) :
    Agrees sha256Hex repr clean items evidence ↔
    ¬ Masked sha256Hex repr items (evidenceMap evidence) := by
  have hrows := evidenceRows_of_lists sha256Hex repr h (evidenceMap evidence)
  have hblockers := citationBlockers_of_lists sha256Hex repr h (evidenceMap evidence)
  rw [← noBlockers_iff_supported_iff sha256Hex repr h]
  constructor
  · rintro ⟨⟨blockers, rows, hb, hr, hiff⟩, -, -⟩
    rw [hblockers, Except.ok.injEq] at hb
    rw [hrows, Except.ok.injEq] at hr
    rw [hb, hr]
    exact hiff
  · intro hiff
    refine ⟨⟨_, _, hblockers, hrows, hiff⟩, ?_, ?_⟩
    · intro clean' items' h' hsame
      rw [hrows, evidenceRows_of_lists sha256Hex repr h', rowsOf, rowsOf,
        filterMap_bareRow_congr hsame]
    · intro rows validated i hr hi
      rw [hrows, Except.ok.injEq] at hr
      rw [← hr] at hi ⊢
      exact stage_regrades sha256Hex repr evidence hi

end Citation

/-! ## A masked payload -/

/-- A citation of the span `s1` with a hash. -/
def citing (hash : String) : Doc := .obj [("source_span_id", .str "s1"), ("text_hash", .str hash)]

/-- A payload that cites a span twice, first with a hash that is not the one of the span. -/
def overwritten : Doc :=
  .obj [("kind", .str "kpi"), ("evidence", .arr [citing "sha256:00", citing "sha256:2c"])]

def pinnedSpans : List EvidenceBlock := [⟨"s1", "d1", "ARR was $12 million", "sha256:2c", none⟩]

/-- A span that is cited twice with its hash. -/
def repeated : List Doc := [citing "sha256:2c", citing "sha256:2c"]

theorem citations_agree_iff_repeated :
    Agrees (fun text => "sha256:" ++ text) (fun _ => "") (.obj [("evidence", .arr repeated)])
    repeated
      pinnedSpans := by
  have hlists : Lists (.obj [("evidence", .arr repeated)]) repeated := rfl
  refine (citations_agree_iff _ _ _ _ _ hlists).mpr ?_
  rintro ⟨-, -, -, ⟨a, ha, b, hb, -, hne⟩ | ⟨item, hitem, hid⟩⟩
  · -- both citations assert one hash
    have hlist : repeated.filterMap (assertionOf fun _ => "")
        = [("s1", "sha256:2c"), ("s1", "sha256:2c")] := rfl
    rw [hlist, List.mem_pair, or_self] at ha hb
    exact hne (by rw [ha, hb])
  · rw [repeated, List.mem_pair, or_self] at hitem
    rw [hitem] at hid
    exact hid fun _ => ⟨"s1", rfl, by decide⟩

/-- No blocker, although the first row is invalid for good. -/
theorem overwritten_hash_not_blocked :
    Lists overwritten [citing "sha256:00", citing "sha256:2c"]
      ∧ citationBlockers (fun text => "sha256:" ++ text) (fun _ => "") overwritten
      (evidenceMap pinnedSpans) = .ok []
      ∧ ¬ Agrees (fun text => "sha256:" ++ text) (fun _ => "") overwritten
        [citing "sha256:00", citing "sha256:2c"] pinnedSpans := by
  refine ⟨rfl, rfl, ?_⟩
  rintro ⟨⟨blockers, rows, hb, hr, hiff⟩, -, -⟩
  obtain rfl : [] = blockers := Except.ok.inj hb
  obtain ⟨hvalid, -⟩ := hiff.mp rfl
  have hfirst :
      rows.head? = some (.obj [("source_span_id", .str "s1"), ("text_hash", .str "sha256:00"),
      ("document_version_id", .str "d1"), ("citation_status", .str "invalid")]) := by
    rw [← Except.ok.inj hr]
    rfl
  exact hvalid _ (List.mem_of_head? hfirst) rfl

end Citation

end Extraction
