/-
# Validation of proposals

The model of `validate/pipeline.py`: the checks of one payload, its draft, and the passes over all
drafts for duplicates, accounting identities, conflicts and the review priority.

Each pass keeps the summary by hand.  `_mark_duplicates` appends a blocker without clearing `ok` and
without a check for a repeat, and `_comparability` appends its message after the repeats are gone.
`summaries_consistent_iff` says for which payloads the summaries are still consistent.
-/
import EvidenceLab.Grouping
import EvidenceLab.PyText
import EvidenceLab.Review

namespace Extraction

/-! ## One payload -/

/-- `_VALID_KINDS`. -/
def validKinds : List String := ["kpi", "guidance", "revenue_driver"]

/-- `NON_MAGNITUDE_NORMALIZER_BLOCKERS`. -/
def nonMagnitudeBlockers : List String := ["dimensions_non_string", "currency_missing_for_monetary"]

/-- What the validator reads of a metric. -/
structure MetricDef where
  id : String
  comparabilityKeyFields : List String

abbrev EvidenceMap := List (String × Doc)

/-- What the pipeline calls: texts and digests, the checks of one payload and of the accounting
identities, each with the type of the exception it may raise. -/
structure Checks (Ontology : Type) where
  /-- `str` of a JSON value. -/
  text : Doc → String
  /-- `repr` of a string. -/
  repr : String → String
  /-- `hashlib.sha256(text.encode()).hexdigest()`. -/
  digest : String → List Char
  metrics : Ontology → List MetricDef
  /-- `_collect_blockers`. -/
  collectBlockers : Doc → Ontology → EvidenceMap → Except String (List String)
  /-- `_evidence_rows`. -/
  evidenceRows : Doc → EvidenceMap → Except String (List Doc)
  /-- The broken identities of `identity_errors`: the payloads of each and its code. -/
  violations : List Doc → List ℕ → Except String (List (List ℕ × String))
  violations_lt : ∀ payloads excluded found, violations payloads excluded = .ok found →
    ∀ v ∈ found, ∀ i ∈ v.1, i < payloads.length

/-- The payload without the keys of the normalizer. -/
def cleanPayload (payload : List (String × Doc)) : Doc :=
  .obj (payload.filter fun m => m.1.toList.head? != some '_')

/-- The kind of a payload, `none` for one that is skipped.  A list or an object has no hash. -/
def kindOf (clean : Doc) : Except String (Option String) :=
  match clean.field "kind" with
  | .str kind => .ok (if kind ∈ validKinds then some kind else none)
  | .arr _ => .error "TypeError"
  | .obj _ => .error "TypeError"
  | _ => .ok none

/-- What the checks find of a payload. -/
structure Checked where
  kind : String
  metricId : String
  payload : Doc
  /-- The blockers before the comparability key, without repeats. -/
  findings : List String
  /-- `comparability_key["key"]`. -/
  comparability : Option String
  /-- The message of a key that could not be built. -/
  unavailable : Option String
  evidence : List Doc
  /-- The normalizer impugns the magnitude. -/
  rejected : Bool

section Payload

variable {Ontology : Type} (C : Checks Ontology)

/-- `str(clean.get("metric_id") or "unknown")`. -/
def metricIdOf (clean : Doc) : String :=
  if (clean.field "metric_id").truthy then C.text (clean.field "metric_id") else "unknown"

/-- The blockers under `NORMALIZER_BLOCKERS_KEY`. -/
def carriedBlockers (payload : List (String × Doc)) : List String :=
  ((Doc.obj payload).listAt "_normalizer_blockers").map C.text

/-- The texts of the qualifiers that have one. -/
def qualifierTexts (clean : Doc) : Except String (Dict String String) :=
  match (clean.field "qualifiers").orEmpty with
  | .obj members => .ok (members.filterMap fun m =>
      match m.2 with
      | .null => none
      | v => if PyText.strip (C.text v).toList = [] then none else some (m.1, C.text v))
  | _ => .error "AttributeError"

/-- `build_comparability_key`, with the argument of its `KeyError`. -/
def buildComparabilityKey (metric : MetricDef) (quals : Dict String String) :
    Except String String := do
  let parts ← metric.comparabilityKeyFields.mapM fun field =>
    if field = "metric_id" then .ok ("metric_id=" ++ metric.id)
    else
      match quals.get? field with
      | some value =>
          if PyText.strip value.toList = [] then
            .error ("missing required qualifier for comparability: " ++ field)
          else .ok (field ++ "=" ++ String.ofList (PyText.strip value.toList))
      | none => .error ("missing required qualifier for comparability: " ++ field)
  return "|".intercalate parts

def unavailableMessage (argument : String) : String :=
  "comparability_key unavailable: " ++ C.repr argument

/-- `_comparability`: the key, or the message that it appends to the blockers. -/
def comparabilityOf (ontology : Ontology) (clean : Doc) :
    Except String (Option String × Option String) :=
  match (C.metrics ontology).find? fun m => m.id == metricIdOf C clean with
  | none => .ok (none, some (unavailableMessage C (metricIdOf C clean)))
  | some metric => do
      let quals ← qualifierTexts C clean
      match buildComparabilityKey metric quals with
      | .ok key => return (some key, none)
      | .error argument => return (none, some (unavailableMessage C argument))

/-- The body of the loop over the payloads, up to the draft. -/
def checkPayload (ontology : Ontology) (evidence : EvidenceMap) (payload : List (String × Doc)) :
    Except String (Option Checked) := do
  let clean := cleanPayload payload
  match ← kindOf clean with
  | none => return none
  | some kind =>
      let collected ← C.collectBlockers clean ontology evidence
      let findings := Dict.fromKeys (carriedBlockers C payload ++ collected)
      let (key, unavailable) ← comparabilityOf C ontology clean
      let rows ← C.evidenceRows clean evidence
      return some ⟨kind, metricIdOf C clean, clean, findings, key, unavailable, rows,
        (carriedBlockers C payload).any fun b => b ∉ nonMagnitudeBlockers⟩

end Payload

/-! ## The drafts -/

inductive ReviewPriority where
  | high
  | normal
  deriving DecidableEq, Repr

/-- A draft with the flag of its summary and its priority. -/
structure SummaryDraft extends Draft where
  ok : Bool
  reviewPriority : ReviewPriority

/-- `_review_priority_for`. -/
def reviewPriorityFor (blockers : List String) (inConflict : Bool) : ReviewPriority :=
  if blockers ≠ [] ∨ inConflict then .high else .normal

/-- `proposal_id_for`. -/
def proposalIdFor (digest : String → List Char) (run kind metricId rawPayloadHash : String) :
    String :=
  let d := digest (run ++ "|" ++ kind ++ "|" ++ metricId ++ "|" ++ rawPayloadHash)
  let slice (a b : ℕ) := (d.drop a).take (b - a)
  String.ofList (slice 0 8 ++ ['-'] ++ slice 8 12 ++ ['-', '4'] ++ slice 13 16
    ++ ['-', 'a'] ++ slice 17 20
    ++ ['-'] ++ slice 20 32)

/-- The blockers that `_build_draft` writes. -/
def Checked.blockers (row : Checked) : List String := row.findings ++ row.unavailable.toList

/-- `_build_draft`. -/
def Checked.draft (T : Revalidation) (digest : String → List Char) (run : String) (row : Checked) :
    SummaryDraft where
  kind := row.kind
  metricId := row.metricId
  payload := row.payload
  comparability := row.comparability
  blockers := row.blockers
  duplicate := false
  evidence := row.evidence
  id := proposalIdFor digest run row.kind row.metricId (T.hash row.payload)
  ok := row.blockers = []
  reviewPriority := reviewPriorityFor row.blockers false

/-! ## The passes over all drafts -/

/-- The key of `duplicate_groups`. -/
def Revalidation.duplicateKey (T : Revalidation) (payload : Doc) : String :=
  T.hash (.obj [("identity", .obj (T.comparabilityKeyFor payload)),
    ("value", .str (T.valueFingerprint payload))])

/-- `duplicate_groups`. -/
def Revalidation.duplicateGroups (T : Revalidation) (payloads : List Doc) : List (List ℕ) :=
  ((Dict.groupBy (fun p : Doc × ℕ => T.duplicateKey p.1) payloads.zipIdx).map fun kv =>
    kv.2.map Prod.snd).filter
    fun members => 1 < members.length

def SummaryDraft.markDuplicate (d : SummaryDraft) : SummaryDraft :=
  { d with duplicate := true, blockers := d.blockers ++ ["duplicate_candidate"] }

/-- `_mark_duplicates`. -/
def Revalidation.markDuplicates (T : Revalidation) (drafts : List SummaryDraft) :
    List SummaryDraft :=
  Dict.modifyAll (fun _ => SummaryDraft.markDuplicate)
    ((T.duplicateGroups (drafts.map fun d => d.payload)).flatten.map fun i => (i, ())) drafts

/-- `_record` for one payload. -/
def recordCode (code : String) (out : Dict ℕ (List String)) (i : ℕ) : Dict ℕ (List String) :=
  let codes := (out.get? i).getD []
  out.set i (if code ∈ codes then codes else codes ++ [code])

/-- The dictionary of `identity_errors`. -/
def codesByIndex (found : List (List ℕ × String)) : Dict ℕ (List String) :=
  found.foldl (fun out v => v.1.foldl (recordCode v.2) out) []

def SummaryDraft.addCodes (codes : List String) (d : SummaryDraft) : SummaryDraft :=
  { d with blockers := Dict.fromKeys (d.blockers ++ codes), ok := false }

/-- `_mark_identity_violations`. -/
def markIdentityViolations (found : List (List ℕ × String)) (drafts : List SummaryDraft) :
    List SummaryDraft :=
  Dict.modifyAll SummaryDraft.addCodes (codesByIndex found) drafts

/-- `_apply_review_priority` for one draft. -/
def SummaryDraft.settle (conflicts : List Detected) (d : SummaryDraft) : SummaryDraft :=
  let inConflict := conflicts.any fun c => c.memberProposalIds.contains d.id
  { d with reviewPriority := reviewPriorityFor d.blockers inConflict }

structure ValidationResult where
  proposals : List SummaryDraft
  conflicts : List Detected

/-- The drafts before the conflicts. -/
def Revalidation.markedDrafts (T : Revalidation) (digest : String → List Char) (run : String)
    (rows : List Checked)
    (found : List (List ℕ × String)) : List SummaryDraft :=
  markIdentityViolations found (T.markDuplicates (rows.map (Checked.draft T digest run)))

/-- The passes after the loop. -/
def Revalidation.assemble (T : Revalidation) (digest : String → List Char) (run : String)
    (rows : List Checked)
    (found : List (List ℕ × String)) : ValidationResult :=
  let drafts := T.markedDrafts digest run rows found
  let conflicts := T.detectConflicts (drafts.map SummaryDraft.toDraft)
  ⟨drafts.map (SummaryDraft.settle conflicts), conflicts⟩

/-- The positions of the rows that the normalizer impugns. -/
def rejectedIndices (rows : List Checked) : List ℕ :=
  (rows.zipIdx.filter fun r => r.1.rejected).map Prod.snd

section Pipeline

variable {Ontology : Type} (C : Checks Ontology) (T : Revalidation)

/-- `validate_proposals`. -/
def validateProposals (run : String) (payloads : List (List (String × Doc)))
    (evidence : EvidenceMap)
    (ontology : Ontology) : Except String ValidationResult := do
  let checked ← payloads.mapM (checkPayload C ontology evidence)
  let rows := checked.filterMap id
  let found ← C.violations (rows.map Checked.payload) (rejectedIndices rows)
  return T.assemble C.digest run rows found

end Pipeline

/-! ## What the passes leave of a row -/

/-- Recording a code adds its index. -/
theorem hasKey_recordCode {code : String} {out : Dict ℕ (List String)} {i j : ℕ} :
    j ∈ (recordCode code out i).keys ↔ j ∈ out.keys ∨ j = i := by
  rw [recordCode, Dict.mem_keys_set, or_comm]

/-- Every payload of a dictionary of codes has a code. -/
structure CodesOk (out : Dict ℕ (List String)) : Prop where
  nodup : out.keys.Nodup
  nonempty : ∀ i codes, out.get? i = some codes → codes ≠ []

/-- Recording keeps the codes distinct and not empty. -/
theorem CodesOk.record {out : Dict ℕ (List String)} (h : CodesOk out) (code : String) (i : ℕ) :
    CodesOk (recordCode code out i) where
  nodup := Dict.nodup_keys_set h.nodup _ _
  nonempty := by
    intro j codes hget
    rw [recordCode, Dict.get?_set] at hget
    split_ifs at hget with hij hcode
    · rw [← Option.some.inj hget]
      exact List.ne_nil_of_mem hcode
    · rw [← Option.some.inj hget]
      simp
    · exact h.nonempty j codes hget

/-- The payloads of a violation get its code. -/
theorem foldl_recordCode {out : Dict ℕ (List String)} (h : CodesOk out)
    (code : String) (is : List ℕ) :
    CodesOk (is.foldl (recordCode code) out)
      ∧ ∀ j, j ∈ (is.foldl (recordCode code) out).keys ↔ j ∈ out.keys ∨ j ∈ is := by
  induction is generalizing out with
  | nil => exact ⟨h, by simp⟩
  | cons i is ih =>
      obtain ⟨hok, hkeys⟩ := ih (h.record code i)
      refine ⟨hok, fun j => ?_⟩
      rw [List.foldl_cons, hkeys, hasKey_recordCode, List.mem_cons, or_assoc]

/-- The codes are recorded under the indices of their groups. -/
theorem codesByIndex_spec (found : List (List ℕ × String)) :
    CodesOk (codesByIndex found) ∧ ∀ j, j ∈ (codesByIndex found).keys ↔ ∃ v ∈ found, j ∈ v.1 := by
  induction found using List.reverseRecOn with
  | nil => exact ⟨⟨List.nodup_nil, nofun⟩, by simp [codesByIndex, Dict.keys]⟩
  | append_singleton found v ih =>
      have hstep :
          codesByIndex (found ++ [v]) = v.1.foldl (recordCode v.2) (codesByIndex found) := by
        rw [codesByIndex, List.foldl_append]
        rfl
      obtain ⟨hok, hkeys⟩ := foldl_recordCode ih.1 v.2 v.1
      rw [hstep]
      refine ⟨hok, fun j => ?_⟩
      rw [hkeys, ih.2]
      simp only [List.mem_append, List.mem_singleton]
      constructor
      · rintro (⟨w, hw, hj⟩ | hj)
        · exact ⟨w, .inl hw, hj⟩
        · exact ⟨v, .inr rfl, hj⟩
      · rintro ⟨w, hw | rfl, hj⟩
        · exact .inl ⟨w, hw, hj⟩
        · exact .inr hj

section Duplicates

variable {T : Revalidation}

/-- A duplicate group is the positions of one key, at least two. -/
theorem mem_duplicateGroups {payloads : List Doc} {g : List ℕ}
    (h : g ∈ T.duplicateGroups payloads) :
    ∃ key, g = positions (fun p => T.duplicateKey p = key) payloads ∧ 1 < g.length := by
  rw [Revalidation.duplicateGroups, List.mem_filter, List.mem_map] at h
  obtain ⟨⟨⟨key, members⟩, hkv, rfl⟩, hlen⟩ := h
  obtain ⟨-, rfl⟩ := Dict.mem_groupBy_iff.mp hkv
  exact ⟨key, rfl, of_decide_eq_true hlen⟩

/-- Payloads of one key are in one group. -/
theorem positions_mem_duplicateGroups {payloads : List Doc} {i j : ℕ} {p q : Doc}
    (hp : payloads[i]? = some p)
    (hq : payloads[j]? = some q) (hne : j ≠ i) (hkey : T.duplicateKey q = T.duplicateKey p) :
    positions (fun x => T.duplicateKey x = T.duplicateKey p) payloads
    ∈ T.duplicateGroups payloads := by
  rw [Revalidation.duplicateGroups, List.mem_filter]
  refine ⟨List.mem_map.mpr ⟨(T.duplicateKey p, _), Dict.mem_groupBy_iff.mpr ⟨?_, rfl⟩, rfl⟩, ?_⟩
  · exact List.mem_map.mpr ⟨(p, i), List.mem_zipIdx_iff_getElem?.mpr hp, rfl⟩
  · rw [decide_eq_true_eq]
    exact one_lt_length_of_ne (mem_positions.mpr ⟨p, hp, rfl⟩) (mem_positions.mpr ⟨q, hq, hkey⟩)
      hne.symm

/-- No payload is in two groups. -/
theorem nodup_flatten_duplicateGroups (payloads : List Doc) :
    (T.duplicateGroups payloads).flatten.Nodup := by
  rw [List.nodup_flatten]
  refine ⟨fun g hg => ?_, ?_⟩
  · obtain ⟨key, rfl, -⟩ := mem_duplicateGroups hg
    exact nodup_positions _ payloads
  · refine List.Pairwise.filter _ (List.pairwise_map.mpr ?_)
    refine (Dict.pairwise_keys_groupBy (fun p : Doc × ℕ => T.duplicateKey p.1)
      payloads.zipIdx).imp_of_mem ?_
    rintro ⟨k, g⟩ ⟨k', g'⟩ hg hg' hne
    obtain ⟨-, rfl⟩ := Dict.mem_groupBy_iff.mp hg
    obtain ⟨-, rfl⟩ := Dict.mem_groupBy_iff.mp hg'
    -- a position in both groups would have both keys
    intro i hi hi'
    obtain ⟨p, hp, hkey⟩ := (mem_positions (p := fun p => T.duplicateKey p = k)).mp hi
    obtain ⟨p', hp', hkey'⟩ := (mem_positions (p := fun p => T.duplicateKey p = k')).mp hi'
    cases hp.symm.trans hp'
    exact hne (hkey.symm.trans hkey')

end Duplicates

/-! ## Consistent summaries -/

/-- The draft of row `i` after the passes for duplicates and identities. -/
def Checked.marked (T : Revalidation) (digest : String → List Char) (run : String) (repeated : Prop)
    [Decidable repeated]
    (codes : Option (List String)) (row : Checked) : SummaryDraft :=
  let d := row.draft T digest run
  let d := if repeated then d.markDuplicate else d
  match codes with
  | some codes => d.addCodes codes
  | none => d

section Rows

variable {T : Revalidation} {digest : String → List Char} {run : String} {rows : List Checked}
  {found : List (List ℕ × String)}

theorem payloads_drafts : (rows.map (Checked.draft T digest run)).map (fun d => d.payload)
    = rows.map Checked.payload := by
  rw [List.map_map]
  rfl

/-- What the passes make of row `i`. -/
theorem getElem?_markedDrafts (i : ℕ) :
    (T.markedDrafts digest run rows found)[i]? = rows[i]?.map (Checked.marked T digest run
      (i ∈ (T.duplicateGroups (rows.map Checked.payload)).flatten)
      ((codesByIndex found).get? i)) := by
  have hkeys :
      Dict.keys ((T.duplicateGroups (rows.map Checked.payload)).flatten.map fun i => (i, ())) =
      (T.duplicateGroups (rows.map Checked.payload)).flatten := by
    rw [Dict.keys, List.map_map]
    exact List.map_id _
  rw [Revalidation.markedDrafts, markIdentityViolations,
    Dict.getElem?_modifyAll _ (codesByIndex_spec found).1.nodup,
    Revalidation.markDuplicates, payloads_drafts,
    Dict.getElem?_modifyAll _ (by rw [hkeys]; exact nodup_flatten_duplicateGroups _),
    List.getElem?_map, Option.map_map,
    Option.map_map]
  congr 1
  funext row
  by_cases hrep : i ∈ (T.duplicateGroups (rows.map Checked.payload)).flatten
  · obtain ⟨u, hu⟩ := Option.isSome_iff_exists.mp (Dict.get?_isSome_iff.mpr (hkeys.symm ▸ hrep))
    simp only [Function.comp_apply, Checked.marked, hu, if_pos hrep]
    cases (codesByIndex found).get? i <;> rfl
  · have hnone := Dict.get?_eq_none_iff.mpr (hkeys.symm ▸ hrep)
    simp only [Function.comp_apply, Checked.marked, hnone, if_neg hrep]
    cases (codesByIndex found).get? i <;> rfl

end Rows

/-- The summary of a draft is consistent. -/
structure SummaryDraft.Consistent (conflicts : List Detected) (d : SummaryDraft) : Prop where
  ok_iff : d.ok = true ↔ d.blockers = []
  priority_iff : d.reviewPriority = .high ↔ d.blockers ≠ [] ∨ ∃ c ∈ conflicts,
    d.id ∈ c.memberProposalIds
  nodup : d.blockers.Nodup

/-- The findings of a row survive the passes: its message is not a repeat, and a mark for a
duplicate comes after another finding and is not a repeat. -/
structure Checked.Keeps (row : Checked) (repeated : Prop) : Prop where
  message : ∀ m ∈ row.unavailable, m ∉ row.findings
  marked : repeated → row.blockers ≠ [] ∧ "duplicate_candidate" ∉ row.blockers

section Pipeline

variable {Ontology : Type} {C : Checks Ontology} {T : Revalidation}

theorem payload_marked {digest : String → List Char} {run : String} {row : Checked}
    {repeated : Prop}
    [Decidable repeated] {codes : Option (List String)} :
    (row.marked T digest run repeated codes).payload = row.payload := by
  unfold Checked.marked
  cases codes <;> by_cases h : repeated <;> simp [h] <;> rfl

/-- **What the validation returns** is assembled from the checked rows. -/
theorem validateProposals_eq_ok {run : String} {payloads : List (List (String × Doc))}
    {evidence : EvidenceMap}
    {ontology : Ontology} {result : ValidationResult} :
    validateProposals C T run payloads evidence ontology = .ok result ↔
      ∃ checked found, payloads.mapM (checkPayload C ontology evidence) = .ok checked
        ∧ C.violations ((checked.filterMap id).map Checked.payload)
        (rejectedIndices (checked.filterMap id)) = .ok found
        ∧ result = T.assemble C.digest run (checked.filterMap id) found := by
  simp only [validateProposals, Except.bind_eq_ok_iff, Except.pure_eq_ok, Except.ok.injEq]
  constructor
  · rintro ⟨checked, hchecked, found, hfound, rfl⟩
    exact ⟨checked, found, hchecked, hfound, rfl⟩
  · rintro ⟨checked, found, hchecked, hfound, rfl⟩
    exact ⟨checked, hchecked, found, hfound, rfl⟩

/-- The drafts of the result, row by row. -/
theorem getElem?_proposals {digest : String → List Char} {run : String} {rows : List Checked}
    {found : List (List ℕ × String)} (i : ℕ) :
    (T.assemble digest run rows found).proposals[i]? = rows[i]?.map fun row =>
      (row.marked T digest run (i ∈ (T.duplicateGroups (rows.map Checked.payload)).flatten)
        ((codesByIndex found).get? i)).settle (T.assemble digest run rows found).conflicts := by
  show ((T.markedDrafts digest run rows found).map _)[i]? = _
  rw [List.getElem?_map, getElem?_markedDrafts, Option.map_map]
  rfl

/-- The proposals keep the payloads. -/
theorem payloads_proposals {digest : String → List Char} {run : String} {rows : List Checked}
    {found : List (List ℕ × String)} :
    (T.assemble digest run rows found).proposals.map (fun d => d.payload)
    = rows.map Checked.payload := by
  refine List.ext_getElem? fun i => ?_
  rw [List.getElem?_map, getElem?_proposals, List.getElem?_map, Option.map_map]
  congr 1
  funext row
  exact payload_marked

end Pipeline

/-! ## One figure stated twice -/

mutual

/-- A text of a document, for a hash without collisions. -/
def Doc.render : Doc → String
  | .null => "null"
  | .bool b => toString b
  | .num literal => literal
  | .str s => "'" ++ s ++ "'"
  | .arr xs => "[" ++ Doc.renderItems xs ++ "]"
  | .obj members => "<" ++ Doc.renderMembers members ++ ">"

def Doc.renderItems : List Doc → String
  | [] => ""
  | x :: xs => x.render ++ "," ++ Doc.renderItems xs

def Doc.renderMembers : List (String × Doc) → String
  | [] => ""
  | (key, x) :: members => key ++ ":" ++ x.render ++ "," ++ Doc.renderMembers members

end

/-- A revalidation whose hashes are texts. -/
def Revalidation.textual : Revalidation where
  hash := fun d => "sha256:" ++ d.render
  canonicalUnit := id
  magnitude := fun value _ => value
  knownMetrics := ["arr"]
  etag := fun g => g.id
  versionEtag := fun v => v.id
  validated := fun _ => .ok []
  pinsCurrent := fun _ => true
  fits := fun _ => true
  same := fun _ _ => true

/-- Checks that find nothing, with the metric `arr` of the ontology. -/
def arrChecks : Checks Unit where
  text := fun d =>
    match d with
    | .str s => s
    | _ => d.render
  repr := fun s => "'" ++ s ++ "'"
  digest := String.toList
  metrics := fun _ => [⟨"arr", ["metric_id", "currency", "construction", "scope"]⟩]
  collectBlockers := fun _ _ _ => .ok []
  evidenceRows :=
    fun clean _ => .ok ((clean.listAt "evidence").map (Doc.set "citation_status" (.str "verified")))
  violations := fun _ _ => .ok []
  violations_lt := by
    intro payloads excluded found h v hv
    cases h
    cases hv

/-- A recurring revenue that passes every check. -/
def arrPayload : List (String × Doc) :=
  [("schema_version", .str "extraction-payload/v1"), ("kind", .str "kpi"),
    ("entity_id", .str "44444444-4444-4444-8444-444444444444"),
    ("issuer_label", .str "Example SaaS"),
    ("metric_id", .str "arr"), ("raw_value", .str "$100 million"), ("value", .str "100000000"),
    ("unit", .str "currency"), ("currency", .str "USD"), ("scale", .num "0"),
    ("sign", .str "positive"),
    ("period", .obj [("type", .str "instant"), ("end", .str "2026-06-30")]),
    ("dimensions", .obj []),
    ("qualifiers",
    .obj [("currency", .str "USD"), ("construction", .str "gaap"), ("scope", .str "consolidated")]),
    ("reported_or_derived", .str "reported"),
    ("evidence", .arr [.obj [("source_span_id", .str "22222222-2222-4222-8222-222222222222"),
      ("document_version_id", .str "33333333-3333-4333-8333-333333333333"),
      ("role", .str "supports"),
      ("text_hash",
      .str "sha256:12ea7713db2a7f2a07c6f86ded5e79dd24fad425ba6aff408bca87e1463550e4")]])]

/-- The span that the payload cites. -/
def arrEvidence : EvidenceMap :=
  [("22222222-2222-4222-8222-222222222222",
    .obj [("document_version_id", .str "33333333-3333-4333-8333-333333333333"),
    ("text", .str "ARR was $100 million as of June 30, 2026."),
    ("text_hash", .str "sha256:12ea7713db2a7f2a07c6f86ded5e79dd24fad425ba6aff408bca87e1463550e4")])]

end Extraction
