/-
# Conflicts of the validated proposals

`detect_conflicts` groups the drafts by their conflict key, `duplicate_groups` by fact identity and
value, and a proposal id is a digest of the payload.  The three do not always fit: a payload that is
stated twice has one id, so the conflict of the two has one member, which persistence refuses.

`conflicts_persistable_iff` says for which payloads the conflicts can be persisted.
-/
import EvidenceLab.ReviewPeers
import EvidenceLab.Validation

namespace Extraction

/-! ## Documents up to the order of their members -/

mutual

/-- The document with the members of its objects in the order of their keys, as `sort_keys` writes
them. -/
def Doc.sorted : Doc → Doc
  | .null => .null
  | .bool b => .bool b
  | .num literal => .num literal
  | .str s => .str s
  | .arr xs => .arr (Doc.sortedItems xs)
  | .obj members => .obj ((Doc.sortedMembers members).insertionSort fun a b => a.1 ≤ b.1)

def Doc.sortedItems : List Doc → List Doc
  | [] => []
  | x :: xs => x.sorted :: Doc.sortedItems xs

def Doc.sortedMembers : List (String × Doc) → List (String × Doc)
  | [] => []
  | (key, x) :: members => (key, x.sorted) :: Doc.sortedMembers members

end

theorem Doc.sortedMembers_eq_map (members : List (String × Doc)) :
    Doc.sortedMembers members = members.map fun m => (m.1, m.2.sorted) := by
  induction members with
  | nil => rfl
  | cons m members ih => rw [Doc.sortedMembers, ih, List.map_cons]

theorem Doc.length_sortedItems (xs : List Doc) : (Doc.sortedItems xs).length = xs.length := by
  induction xs with
  | nil => rfl
  | cons x xs ih => rw [Doc.sortedItems, List.length_cons, List.length_cons, ih]

section Find

variable {α : Type} (key : String)

/-- Inserting by key keeps what a key finds. -/
theorem find?_orderedInsert (x : String × α) (l : List (String × α)) :
    (l.orderedInsert (fun a b => a.1 ≤ b.1) x).find? (fun m => m.1 == key)
      = (x :: l).find? fun m => m.1 == key := by
  induction l with
  | nil => rfl
  | cons y l ih =>
      rw [List.orderedInsert]
      split_ifs with hle
      · rfl
      · -- an element that stays before `x` has another key
        by_cases hx : x.1 = key
        · have hy : y.1 ≠ key := fun hy => hle (by rw [hx, hy])
          rw [List.find?_cons_of_neg (by simp [hy]), ih, List.find?_cons_of_pos (by simp [hx]),
            List.find?_cons_of_pos (by simp [hx])]
        · rw [List.find?_cons_of_neg (a := x) (by simp [hx])]
          by_cases hy : y.1 = key
          · rw [List.find?_cons_of_pos (by simp [hy]), List.find?_cons_of_pos (by simp [hy])]
          · rw [List.find?_cons_of_neg (by simp [hy]), List.find?_cons_of_neg (by simp [hy]), ih,
              List.find?_cons_of_neg (by simp [hx])]

/-- Sorting by key keeps the first member of every key. -/
theorem find?_insertionSort (l : List (String × α)) :
    (l.insertionSort fun a b => a.1 ≤ b.1).find? (fun m => m.1 == key) = l.find? fun m =>
    m.1 == key := by
  induction l with
  | nil => rfl
  | cons x l ih =>
      rw [List.insertionSort_cons, find?_orderedInsert, List.find?_cons, List.find?_cons, ih]

end Find

/-- A field of a sorted document is the sorted field. -/
theorem Doc.field_sorted (key : String) (d : Doc) : d.sorted.field key = (d.field key).sorted := by
  cases d with
  | obj members =>
      rw [Doc.sorted, Doc.field, Doc.field, Doc.get?, Doc.get?, find?_insertionSort,
        Doc.sortedMembers_eq_map,
        List.find?_map]
      show ((Option.map (fun m : String × Doc => (m.1, m.2.sorted))
        (members.find? fun m => m.1 == key)).map
        Prod.snd).getD .null = _
      cases members.find? fun m => m.1 == key with
      | none => rfl
      | some m => rfl
  | _ => rfl

theorem isEmpty_congr {α β : Type} {l : List α} {l' : List β} (h : l.length = l'.length) :
    l.isEmpty = l'.isEmpty := by
  cases l <;> cases l' <;> simp_all

/-- Sorting does not change whether a document is truthy. -/
theorem Doc.truthy_sorted (d : Doc) : d.sorted.truthy = d.truthy := by
  cases d with
  | arr xs =>
      rw [Doc.sorted, Doc.truthy, Doc.truthy, isEmpty_congr (Doc.length_sortedItems xs)]
  | obj members =>
      rw [Doc.sorted, Doc.truthy, Doc.truthy, isEmpty_congr]
      rw [List.length_insertionSort, Doc.sortedMembers_eq_map, List.length_map]
  | _ => rfl

theorem Doc.orEmpty_sorted (d : Doc) : d.sorted.orEmpty = d.orEmpty.sorted := by
  rw [Doc.orEmpty, Doc.orEmpty, Doc.truthy_sorted]
  split_ifs
  · rfl
  · rfl

/-! ## Keys of equal documents -/

/-- The functions of a revalidation do not see the order of members: `hash_json` sorts them, a unit
is rewritten when it is a text, a magnitude when it is a number. -/
structure Revalidation.OrderFree (T : Revalidation) : Prop where
  hash : ∀ d e : Doc, d.sorted = e.sorted → T.hash d = T.hash e
  unit : ∀ d e : Doc, d.sorted = e.sorted → (T.canonicalUnit d).sorted = (T.canonicalUnit e).sorted
  magnitude : ∀ d e s t : Doc, d.sorted = e.sorted → s.sorted = t.sorted →
    (T.magnitude d s).sorted = (T.magnitude e t).sorted

/-- Objects are sorted alike if their members are. -/
theorem Doc.sorted_obj_congr {members members' : List (String × Doc)}
    (h : (members.map fun m => (m.1, m.2.sorted)) = members'.map fun m => (m.1, m.2.sorted)) :
    (Doc.obj members).sorted = (Doc.obj members').sorted := by
  rw [Doc.sorted, Doc.sorted, Doc.sortedMembers_eq_map, Doc.sortedMembers_eq_map, h]

section Keys

variable {T : Revalidation} {p q : Doc}

/-- Documents that sort alike have fields that do. -/
theorem Doc.field_congr (h : p.sorted = q.sorted) (key : String) :
    (p.field key).sorted = (q.field key).sorted := by
  rw [← Doc.field_sorted, ← Doc.field_sorted, h]

theorem Doc.orEmpty_congr (h : p.sorted = q.sorted) (key : String) :
    (p.field key).orEmpty.sorted = (q.field key).orEmpty.sorted := by
  rw [← Doc.orEmpty_sorted, ← Doc.orEmpty_sorted, Doc.field_congr h]

/-- Payloads that sort alike have one identity. -/
theorem Revalidation.OrderFree.identity_congr (hT : T.OrderFree) (h : p.sorted = q.sorted) :
    (Doc.obj (T.comparabilityKeyFor p)).sorted = (Doc.obj (T.comparabilityKeyFor q)).sorted := by
  refine Doc.sorted_obj_congr ?_
  simp only [Revalidation.comparabilityKeyFor, List.map_cons, List.map_nil, Doc.field_congr h,
    Doc.orEmpty_congr h,
    hT.unit _ _ (Doc.field_congr h "unit")]

/-- Payloads that sort alike have one fingerprint. -/
theorem Revalidation.OrderFree.valueFingerprint_congr (hT : T.OrderFree) (h : p.sorted = q.sorted) :
    T.valueFingerprint p = T.valueFingerprint q := by
  refine hT.hash _ _ (Doc.sorted_obj_congr ?_)
  simp only [List.map_cons, List.map_nil, Doc.field_congr h,
    hT.magnitude _ _ _ _ (Doc.field_congr h _) (Doc.field_congr h "scale")]

/-- Documents that differ in the order of members only are duplicates. -/
theorem Revalidation.OrderFree.duplicateKey_congr (hT : T.OrderFree) (h : p.sorted = q.sorted) :
    T.duplicateKey p = T.duplicateKey q := by
  refine hT.hash _ _ (Doc.sorted_obj_congr ?_)
  simp only [List.map_cons, List.map_nil, hT.identity_congr h, hT.valueFingerprint_congr h]

end Keys

/-! ## Rows, copies and the conflicts they are in -/

/-- The conflict key of a row. -/
def Checked.key (T : Revalidation) (row : Checked) : String :=
  T.conflictKeyFor row.payload row.comparability

def Checked.proposalId (T : Revalidation) (digest : String → List Char) (run : String)
    (row : Checked) : String :=
  proposalIdFor digest run row.kind row.metricId (T.hash row.payload)

/-- Two rows state one payload. -/
structure Checked.Copy (row other : Checked) : Prop where
  kind : row.kind = other.kind
  metricId : row.metricId = other.metricId
  payload : row.payload.sorted = other.payload.sorted

/-- No other row has the conflict key of row `i`. -/
def Alone (T : Revalidation) (rows : List Checked) (i : ℕ) (row : Checked) : Prop :=
  ∀ j other, rows[j]? = some other → other.key T = row.key T → j = i

/-- What the persistence of conflicts relies on. -/
structure Persistable (T : Revalidation) (payloads : List Doc) (result : ValidationResult) :
    Prop where
  distinct : ∀ c ∈ result.conflicts, ∃ a ∈ c.memberProposalIds, ∃ b ∈ c.memberProposalIds, a ≠ b
  disjoint : result.conflicts.Pairwise fun c c' => c.memberProposalIds.Disjoint c'.memberProposalIds
  duplicates : ∀ g ∈ T.duplicateGroups payloads, ∃ c ∈ result.conflicts,
    "duplicate_candidate" ∈ c.reasonCodes
    ∧ ∀ i ∈ g, ∀ d, result.proposals[i]? = some d → d.id ∈ c.memberProposalIds
  disagreements : ∀ d ∈ result.proposals, ∀ e ∈ result.proposals,
    T.draftKey d.toDraft = T.draftKey e.toDraft →
    T.valueFingerprint d.payload ≠ T.valueFingerprint e.payload → ∃ c ∈ result.conflicts,
      "value_disagreement" ∈ c.reasonCodes ∧ d.id ∈ c.memberProposalIds ∧ e.id ∈ c.memberProposalIds
  accepted : ∀ c ∈ result.conflicts, ∀ (db : ReviewDb) workspaceId,
    db.occurrenceRun workspaceId c.memberProposalIds ≠ .error (.other "ValueError")

/-- The rows of one conflict key are not all copies of one payload, and the rows of a duplicate
group have one conflict key: except that a row that is alone with its key may repeat a row that has
the key. -/
structure Distinguishable (T : Revalidation) (rows : List Checked) : Prop where
  notOnlyCopies : ∀ i row, rows[i]? = some row → ¬ Alone T rows i row →
    ∃ other ∈ rows, other.key T = row.key T ∧ ¬ other.Copy row
  duplicates : ∀ g ∈ T.duplicateGroups (rows.map Checked.payload), ∃ i ∈ g, ∃ row,
    rows[i]? = some row
    ∧ ¬ Alone T rows i row ∧ ∀ j ∈ g, ∀ other, rows[j]? = some other →
      other.key T = row.key T ∨ Alone T rows j other ∧ ∃ twin ∈ rows, twin.key T = row.key T ∧
        twin.Copy other

section Rows

variable {T : Revalidation} {digest : String → List Char} {run : String} {rows : List Checked}
  {found : List (List ℕ × String)}

/-- What conflicts read of a draft is in its row. -/
structure DraftOf (T : Revalidation) (digest : String → List Char) (run : String) (repeated : Prop)
    (row : Checked)
    (d : Draft) : Prop where
  id : d.id = row.proposalId T digest run
  key : T.draftKey d = row.key T
  payload : d.payload = row.payload
  duplicate : d.duplicate = true ↔ repeated

/-- A marked row is a draft of its row. -/
theorem draftOf_marked {repeated : Prop} [Decidable repeated] (codes : Option (List String))
    (row : Checked) :
    DraftOf T digest run repeated row (row.marked T digest run repeated codes).toDraft := by
  by_cases h : repeated
  · simp only [Checked.marked, if_pos h]
    cases codes with
    | none => exact ⟨rfl, rfl, rfl, iff_of_true rfl h⟩
    | some codes => exact ⟨rfl, rfl, rfl, iff_of_true rfl h⟩
  · simp only [Checked.marked, if_neg h]
    cases codes with
    | none => exact ⟨rfl, rfl, rfl, iff_of_false Bool.false_ne_true h⟩
    | some codes => exact ⟨rfl, rfl, rfl, iff_of_false Bool.false_ne_true h⟩

/-- The drafts that `detect_conflicts` reads. -/
def draftsOf (T : Revalidation) (digest : String → List Char) (run : String) (rows : List Checked)
    (found : List (List ℕ × String)) : List Draft :=
  (T.markedDrafts digest run rows found).map SummaryDraft.toDraft

/-- Every checked row has its draft. -/
theorem getElem?_draftsOf (T : Revalidation) (digest : String → List Char) (run : String)
    (found : List (List ℕ × String)) {i : ℕ} {row : Checked} (h : rows[i]? = some row) :
    ∃ d, (draftsOf T digest run rows found)[i]? = some d
      ∧
      DraftOf T digest run (i ∈ (T.duplicateGroups (rows.map Checked.payload)).flatten) row d := by
  refine ⟨_, ?_, draftOf_marked ((codesByIndex found).get? i) row⟩
  rw [draftsOf, List.getElem?_map, getElem?_markedDrafts, h]
  rfl

/-- Every draft is that of a checked row. -/
theorem row_of_draft {i : ℕ} {d : Draft} (h : (draftsOf T digest run rows found)[i]? = some d) :
    ∃ row, rows[i]? = some row
      ∧
      DraftOf T digest run (i ∈ (T.duplicateGroups (rows.map Checked.payload)).flatten) row d := by
  rw [draftsOf, List.getElem?_map, getElem?_markedDrafts, Option.map_map, Option.map_eq_some_iff]
    at h
  obtain ⟨row, hrow, rfl⟩ := h
  exact ⟨row, hrow, draftOf_marked ((codesByIndex found).get? i) row⟩

/-- The members of a detected conflict are the ids of the rows with its key. -/
theorem mem_members_iff {c : Detected}
    (hc : c ∈ T.detectConflicts (draftsOf T digest run rows found)) {m : String} :
    m ∈ c.memberProposalIds ↔ ∃ row ∈ rows, row.proposalId T digest run = m ∧
    row.key T = c.conflictKey := by
  rw [mem_memberProposalIds hc]
  constructor
  · rintro ⟨d, hd, rfl, hkey⟩
    obtain ⟨i, hi⟩ := List.mem_iff_getElem?.mp hd
    obtain ⟨row, hrow, hdraft⟩ := row_of_draft hi
    exact ⟨row, List.mem_of_getElem? hrow, hdraft.id.symm, hdraft.key.symm.trans hkey⟩
  · rintro ⟨row, hrow, rfl, hkey⟩
    obtain ⟨i, hi⟩ := List.mem_iff_getElem?.mp hrow
    obtain ⟨d, hd, hdraft⟩ := getElem?_draftsOf T digest run found hi
    exact ⟨d, List.mem_of_getElem? hd, hdraft.id, hdraft.key.trans hkey⟩

/-- A row is not alone if another one has its key. -/
theorem not_alone_iff {i : ℕ} {row : Checked} : ¬ Alone T rows i row
    ↔ ∃ j other, rows[j]? = some other ∧ other.key T = row.key T ∧ j ≠ i := by
  simp only [Alone, not_forall, exists_prop]

/-- A detected conflict comes from a row that is not alone with its key. -/
theorem exists_row_of_detected {c : Detected}
    (hc : c ∈ T.detectConflicts (draftsOf T digest run rows found)) :
    ∃ i row, rows[i]? = some row ∧ ¬ Alone T rows i row ∧ row.key T = c.conflictKey := by
  obtain ⟨key, -, hlen, rfl⟩ := mem_detectConflicts.mp hc
  simp only [beq_eq_decide] at hlen
  obtain ⟨i, j, d, e, hne, hd, he, hdkey, hekey⟩ := two_le_length_filter_iff.mp hlen
  obtain ⟨row, hrow, hdraft⟩ := row_of_draft hd
  obtain ⟨other, hother, hdraft'⟩ := row_of_draft he
  refine ⟨i, row, hrow, not_alone_iff.mpr ⟨j, other, hother, ?_, hne.symm⟩,
    hdraft.key.symm.trans hdkey⟩
  rw [← hdraft.key, ← hdraft'.key, hdkey, hekey]

/-- The conflict of a row that is not alone with its key, and its reasons. -/
theorem exists_detected_of_row (T : Revalidation) (digest : String → List Char) (run : String)
    (found : List (List ℕ × String)) {i : ℕ} {row : Checked} (hrow : rows[i]? = some row)
    (halone : ¬ Alone T rows i row) :
    ∃ c ∈ T.detectConflicts (draftsOf T digest run rows found), c.conflictKey = row.key T
      ∧ (i ∈ (T.duplicateGroups (rows.map Checked.payload)).flatten →
        "duplicate_candidate" ∈ c.reasonCodes)
      ∧ ∀ other ∈ rows, other.key T = row.key T →
        T.valueFingerprint other.payload ≠ T.valueFingerprint row.payload →
        "value_disagreement" ∈ c.reasonCodes := by
  obtain ⟨j, other, hother, hkey, hne⟩ := not_alone_iff.mp halone
  obtain ⟨d, hd, hdraft⟩ := getElem?_draftsOf T digest run found hrow
  obtain ⟨e, he, hdraft'⟩ := getElem?_draftsOf T digest run found hother
  -- two drafts have the key
  have hlen :
      2 ≤ ((draftsOf T digest run rows found).filter fun x =>
        T.draftKey x == row.key T).length := by
    simp only [beq_eq_decide]
    exact two_le_length_filter_iff.mpr ⟨i, j, d, e, hne.symm, hd, he, hdraft.key,
      hdraft'.key.trans hkey⟩
  have hmem : d ∈ (draftsOf T digest run rows found).filter fun x => T.draftKey x == row.key T :=
    List.mem_filter.mpr ⟨List.mem_of_getElem? hd, by simp [hdraft.key]⟩
  refine ⟨_, mem_detectConflicts.mpr ⟨row.key T, ?_, hlen, rfl⟩, rfl, ?_, ?_⟩
  · exact List.mem_map.mpr ⟨d, List.mem_of_getElem? hd, hdraft.key⟩
  · intro hrep
    have hany : (((draftsOf T digest run rows found).filter fun x => T.draftKey x == row.key T).any
        fun m => m.duplicate) = true := List.any_eq_true.mpr ⟨d, hmem, hdraft.duplicate.mpr hrep⟩
    simp only [Revalidation.conflictReasons, hany, Bool.or_true, if_true]
    simp
  · -- their values differ, so the detection sees two fingerprints
    intro other' hother' hkey' hvalue
    obtain ⟨k, hk⟩ := List.mem_iff_getElem?.mp hother'
    obtain ⟨e', he', hdraft''⟩ := getElem?_draftsOf T digest run found hk
    have hmem' :
        e' ∈ (draftsOf T digest run rows found).filter fun x => T.draftKey x == row.key T :=
      List.mem_filter.mpr ⟨List.mem_of_getElem? he', by simp [hdraft''.key, hkey']⟩
    have htwo :
        1 < (((draftsOf T digest run rows found).filter fun x => T.draftKey x == row.key T).map
        fun m => T.valueFingerprint m.payload).dedup.length := by
      refine one_lt_length_of_ne (List.mem_dedup.mpr (List.mem_map_of_mem hmem))
        (List.mem_dedup.mpr (List.mem_map_of_mem hmem')) ?_
      rw [hdraft.payload, hdraft''.payload]
      exact hvalue.symm
    have htwo' :
        2 ≤ (((draftsOf T digest run rows found).filter fun x => T.draftKey x == row.key T).map
        fun m => T.valueFingerprint m.payload).dedup.length := htwo
    simp only [Revalidation.conflictReasons, if_pos htwo']
    simp

/-- Rows of one key are alone together. -/
theorem not_alone_of_key {i j : ℕ} {row other : Checked} (h : ¬ Alone T rows j other)
    (hother : rows[j]? = some other) (hkey : row.key T = other.key T) : ¬ Alone T rows i row := by
  by_cases hij : j = i
  · obtain ⟨k, third, hthird, hk, hne⟩ := not_alone_iff.mp h
    exact not_alone_iff.mpr ⟨k, third, hthird, hk.trans hkey.symm, hij ▸ hne⟩
  · exact not_alone_iff.mpr ⟨j, other, hother, hkey.symm, hij⟩

/-- A row with the key of a detected conflict is not alone with it. -/
theorem not_alone_of_detected {c : Detected}
    (hc : c ∈ T.detectConflicts (draftsOf T digest run rows found)) {i : ℕ}
    {row : Checked} (hkey : row.key T = c.conflictKey) : ¬ Alone T rows i row := by
  obtain ⟨j, other, hother, halone, hkey'⟩ := exists_row_of_detected hc
  exact not_alone_of_key halone hother (hkey.trans hkey'.symm)

/-- The digest tells the payloads of the rows apart. -/
def IdsApart (T : Revalidation) (digest : String → List Char) (run : String) (rows : List Checked) :
    Prop :=
  ∀ row ∈ rows, ∀ other ∈ rows, row.proposalId T digest run = other.proposalId T digest run →
    row.Copy other

/-- Copies have one identifier. -/
theorem Checked.Copy.proposalId_eq (hT : T.OrderFree) {row other : Checked} (h : row.Copy other) :
    row.proposalId T digest run = other.proposalId T digest run := by
  rw [Checked.proposalId, Checked.proposalId, h.kind, h.metricId, hT.hash _ _ h.payload]

theorem getElem?_payload {i : ℕ} {row : Checked} (h : rows[i]? = some row) :
    (rows.map Checked.payload)[i]? = some row.payload := by
  rw [List.getElem?_map, h]
  rfl

/-- A copy of a row of a duplicate group is in the group. -/
theorem mem_group_of_copy (hT : T.OrderFree) {g : List ℕ}
    (hg : g ∈ T.duplicateGroups (rows.map Checked.payload))
    {i j : ℕ} {row other : Checked} (hi : i ∈ g) (hrow : rows[i]? = some row)
    (hother : rows[j]? = some other)
    (hcopy : other.Copy row) : j ∈ g := by
  obtain ⟨key, rfl, -⟩ := mem_duplicateGroups hg
  obtain ⟨p, hp, hkey⟩ := mem_positions.mp hi
  cases (getElem?_payload hrow).symm.trans hp
  exact mem_positions.mpr ⟨_, getElem?_payload hother,
    (hT.duplicateKey_congr hcopy.payload).trans hkey⟩

/-- A group of duplicates is not empty. -/
theorem exists_mem_group {g : List ℕ} (hg : g ∈ T.duplicateGroups (rows.map Checked.payload)) :
    ∃ i ∈ g, ∃ row, rows[i]? = some row := by
  obtain ⟨key, rfl, hlen⟩ := mem_duplicateGroups hg
  obtain ⟨i, hi⟩ := List.exists_mem_of_length_pos (Nat.zero_lt_of_lt hlen)
  obtain ⟨p, hp, -⟩ := mem_positions.mp hi
  rw [List.getElem?_map, Option.map_eq_some_iff] at hp
  obtain ⟨row, hrow, -⟩ := hp
  exact ⟨i, hi, row, hrow⟩

/-- The drafts of the result have the ids and keys of the rows. -/
theorem getElem?_result (T : Revalidation) (digest : String → List Char) (run : String)
    (found : List (List ℕ × String)) {i : ℕ} {row : Checked} (hrow : rows[i]? = some row) :
    ∃ d, (T.assemble digest run rows found).proposals[i]? = some d
      ∧ DraftOf T digest run (i ∈ (T.duplicateGroups (rows.map Checked.payload)).flatten)
      row d.toDraft := by
  rw [getElem?_proposals, hrow]
  exact ⟨_, rfl, draftOf_marked ((codesByIndex found).get? i) row⟩

/-- Every proposal of the result is that of a checked row. -/
theorem row_of_result {i : ℕ} {d : SummaryDraft}
    (h : (T.assemble digest run rows found).proposals[i]? = some d) :
    ∃ row, rows[i]? = some row
      ∧ DraftOf T digest run (i ∈ (T.duplicateGroups (rows.map Checked.payload)).flatten)
      row d.toDraft := by
  rw [getElem?_proposals, Option.map_eq_some_iff] at h
  obtain ⟨row, hrow, rfl⟩ := h
  exact ⟨row, hrow, draftOf_marked ((codesByIndex found).get? i) row⟩

/-! ## When the conflicts can be persisted -/

/-- Members that are not all copies have two identifiers. -/
theorem distinct_of_notOnlyCopies (hids : IdsApart T digest run rows) (h : Distinguishable T rows)
    {c : Detected}
    (hc : c ∈ T.detectConflicts (draftsOf T digest run rows found)) :
    ∃ a ∈ c.memberProposalIds, ∃ b ∈ c.memberProposalIds, a ≠ b := by
  obtain ⟨i, row, hrow, halone, hkey⟩ := exists_row_of_detected hc
  obtain ⟨other, hother, hsame, hcopy⟩ := h.notOnlyCopies i row hrow halone
  have hmem := List.mem_of_getElem? hrow
  refine ⟨_, (mem_members_iff hc).mpr ⟨other, hother, rfl, hsame.trans hkey⟩, _,
    (mem_members_iff hc).mpr ⟨row, hmem, rfl, hkey⟩, fun heq => ?_⟩
  exact hcopy (hids other hother row hmem heq)

/-- The rows of two conflicts with a member in common would be duplicates, so the conflicts have one
key. -/
theorem disjoint_of_distinguishable (hT : T.OrderFree) (hids : IdsApart T digest run rows)
    (h : Distinguishable T rows)
    {c c' : Detected} (hc : c ∈ T.detectConflicts (draftsOf T digest run rows found))
    (hc' : c' ∈ T.detectConflicts (draftsOf T digest run rows found))
    (hne : c.conflictKey ≠ c'.conflictKey) :
    c.memberProposalIds.Disjoint c'.memberProposalIds := by
  intro m hm hm'
  obtain ⟨row, hrow, hid, hkey⟩ := (mem_members_iff hc).mp hm
  obtain ⟨row', hrow', hid', hkey'⟩ := (mem_members_iff hc').mp hm'
  have hcopy := hids row hrow row' hrow' (hid.trans hid'.symm)
  obtain ⟨i, hi⟩ := List.mem_iff_getElem?.mp hrow
  obtain ⟨j, hj⟩ := List.mem_iff_getElem?.mp hrow'
  have hij : j ≠ i := by
    rintro rfl
    cases hi.symm.trans hj
    exact hne (hkey.symm.trans hkey')
  have hgroup :=
    positions_mem_duplicateGroups (T := T) (getElem?_payload hi) (getElem?_payload hj) hij
    (hT.duplicateKey_congr hcopy.payload.symm)
  obtain ⟨k, -, first, -, -, hall⟩ := h.duplicates _ hgroup
  have hfirst : row.key T = first.key T :=
    (hall i (mem_positions.mpr ⟨_, getElem?_payload hi, rfl⟩) row hi).resolve_right
      fun hlone => not_alone_of_detected hc hkey hlone.1
  have hsecond : row'.key T = first.key T :=
    (hall j (mem_positions.mpr ⟨_, getElem?_payload hj, hT.duplicateKey_congr hcopy.payload.symm⟩)
      row' hj).resolve_right
      fun hlone => not_alone_of_detected hc' hkey' hlone.1
  exact hne (hkey.symm.trans (hfirst.trans (hsecond.symm.trans hkey')))

/-- A conflict with two members passes the check of `_occurrence_run`. -/
theorem occurrenceRun_ne_valueError {members : List String}
    (h : ∃ a ∈ members, ∃ b ∈ members, a ≠ b) (db : ReviewDb)
    (workspaceId : String) :
    db.occurrenceRun workspaceId members ≠ .error (.other "ValueError") := by
  obtain ⟨a, ha, b, hb, hne⟩ := h
  have htwo : ¬ members.dedup.length < 2 := by
    have := one_lt_length_of_ne (List.mem_dedup.mpr ha) (List.mem_dedup.mpr hb) hne
    omega
  intro herror
  simp only [ReviewDb.occurrenceRun, Except.raiseIf, if_neg htwo, Except.ok_bind] at herror
  split_ifs at herror <;> simp_all

/-- **Distinguishable rows** have conflicts that can be persisted. -/
theorem persistable_of_distinguishable (hT : T.OrderFree) (hids : IdsApart T digest run rows)
    (h : Distinguishable T rows) :
    Persistable T (rows.map Checked.payload) (T.assemble digest run rows found) where
  distinct c hc := distinct_of_notOnlyCopies hids h hc
  disjoint := by
    have hkeys :=
      List.pairwise_map.mp (detectConflicts_keys_nodup (T := T) (draftsOf T digest run rows found))
    exact hkeys.imp_of_mem fun hc hc' hne => disjoint_of_distinguishable hT hids h hc hc' hne
  duplicates := by
    intro g hg
    obtain ⟨i, hi, row, hrow, halone, hall⟩ := h.duplicates g hg
    obtain ⟨c, hc, hkey, hreason, -⟩ :=
      exists_detected_of_row T digest run found hrow halone
    refine ⟨c, hc, hreason (List.mem_flatten.mpr ⟨g, hg, hi⟩), fun j hj d hd => ?_⟩
    obtain ⟨other, hother, hdraft⟩ := row_of_result hd
    rw [show d.id = other.proposalId T digest run from hdraft.id]
    rcases hall j hj other hother with hsame | ⟨-, twin, htwin, hsame, hcopy⟩
    · exact (mem_members_iff hc).mpr ⟨other, List.mem_of_getElem? hother, rfl,
        hsame.trans hkey.symm⟩
    · exact (mem_members_iff hc).mpr ⟨twin, htwin, hcopy.proposalId_eq hT, hsame.trans hkey.symm⟩
  disagreements := by
    intro d hd e he hkey hvalue
    obtain ⟨i, hi⟩ := List.mem_iff_getElem?.mp hd
    obtain ⟨j, hj⟩ := List.mem_iff_getElem?.mp he
    obtain ⟨row, hrow, hdraft⟩ := row_of_result hi
    obtain ⟨other, hother, hdraft'⟩ := row_of_result hj
    have hsame : other.key T = row.key T := by rw [← hdraft.key, ← hdraft'.key, hkey]
    have hne : j ≠ i := by
      rintro rfl
      cases hi.symm.trans hj
      exact hvalue rfl
    obtain ⟨c, hc, hckey, -, hreason⟩ := exists_detected_of_row T digest run found hrow
      (not_alone_iff.mpr ⟨j, other, hother, hsame, hne⟩)
    refine ⟨c, hc, hreason other (List.mem_of_getElem? hother) hsame ?_, ?_, ?_⟩
    · rw [← hdraft.payload, ← hdraft'.payload]
      exact hvalue.symm
    · exact (mem_members_iff hc).mpr ⟨row, List.mem_of_getElem? hrow, hdraft.id.symm, hckey.symm⟩
    · exact (mem_members_iff hc).mpr ⟨other, List.mem_of_getElem? hother, hdraft'.id.symm,
        hsame.trans hckey.symm⟩
  accepted c hc := occurrenceRun_ne_valueError (distinct_of_notOnlyCopies hids h hc)

/-- Rows whose conflicts can be persisted are distinguishable. -/
theorem distinguishable_of_persistable (hT : T.OrderFree) (hids : IdsApart T digest run rows)
    (h : Persistable T (rows.map Checked.payload) (T.assemble digest run rows found)) :
    Distinguishable T rows where
  notOnlyCopies := by
    intro i row hrow halone
    obtain ⟨c, hc, hkey, -⟩ := exists_detected_of_row T digest run found hrow halone
    obtain ⟨a, ha, b, hb, hne⟩ := h.distinct c hc
    obtain ⟨first, hfirst, rfl, hfkey⟩ := (mem_members_iff hc).mp ha
    obtain ⟨second, hsecond, rfl, hskey⟩ := (mem_members_iff hc).mp hb
    -- one of the two members has another id than the row
    by_cases hid : first.proposalId T digest run = row.proposalId T digest run
    · refine ⟨second, hsecond, hskey.trans hkey, fun hcopy => hne ?_⟩
      rw [hid, hcopy.proposalId_eq hT]
    · exact ⟨first, hfirst, hfkey.trans hkey, fun hcopy => hid (hcopy.proposalId_eq hT)⟩
  duplicates := by
    intro g hg
    obtain ⟨c, hc, -, hmembers⟩ := h.duplicates g hg
    -- every row of the group has a copy in the conflict
    have htwin : ∀ j ∈ g, ∀ other, rows[j]? = some other →
        ∃ (k : ℕ) (twin : Checked), rows[k]? = some twin ∧ twin.Copy other ∧
          twin.key T = c.conflictKey := by
      intro j hj other hother
      obtain ⟨d, hd, hdraft⟩ := getElem?_result T digest run found hother
      obtain ⟨twin, htwin, hid, hkey⟩ := (mem_members_iff hc).mp (hmembers j hj d hd)
      obtain ⟨k, hk⟩ := List.mem_iff_getElem?.mp htwin
      exact ⟨k, twin, hk, hids twin htwin other (List.mem_of_getElem? hother) (hid.trans hdraft.id),
        hkey⟩
    obtain ⟨j, hj, other, hother⟩ := exists_mem_group hg
    obtain ⟨i, row, hrow, hcopy, hkey⟩ := htwin j hj other hother
    refine ⟨i, mem_group_of_copy hT hg hj hother hrow hcopy, row, hrow,
      not_alone_of_detected hc hkey, ?_⟩
    intro k hk third hthird
    by_cases hsame : third.key T = row.key T
    · exact .inl hsame
    · obtain ⟨l, twin, hl, hcopy', hkey'⟩ := htwin k hk third hthird
      refine .inr ⟨?_, twin, List.mem_of_getElem? hl, hkey'.trans hkey.symm, hcopy'⟩
      by_contra halone
      obtain ⟨c', hc', hckey, -⟩ := exists_detected_of_row T digest run found hthird halone
      have hne : c ≠ c' := by
        rintro rfl
        exact hsame (hckey.symm.trans hkey.symm)
      have hsymm :
          Std.Symm fun c c' : Detected => c.memberProposalIds.Disjoint c'.memberProposalIds :=
        ⟨fun x y hxy => hxy.symm⟩
      have hdisjoint := h.disjoint.forall hc hc' hne
      exact hdisjoint
        ((mem_members_iff hc).mpr ⟨twin, List.mem_of_getElem? hl, hcopy'.proposalId_eq hT, hkey'⟩)
        ((mem_members_iff hc').mpr ⟨third, List.mem_of_getElem? hthird, rfl, hckey.symm⟩)

end Rows

section Pipeline

variable {Ontology : Type}

/-- The conflicts that validation returns can be persisted. -/
def ConflictsPersistable (C : Checks Ontology) (T : Revalidation) (run : String)
    (payloads : List (List (String × Doc))) (evidence : EvidenceMap) (ontology : Ontology) : Prop :=
  ∀ result, validateProposals C T run payloads evidence ontology = .ok result →
    Persistable T (result.proposals.map fun d => d.payload) result

/-- The rows of the payloads, when no check raises. -/
def RowsOf (C : Checks Ontology) (payloads : List (List (String × Doc))) (evidence : EvidenceMap)
    (ontology : Ontology)
    (rows : List Checked) : Prop :=
  ∃ checked found, payloads.mapM (checkPayload C ontology evidence) = .ok checked ∧
    rows = checked.filterMap id
    ∧ C.violations (rows.map Checked.payload) (rejectedIndices rows) = .ok found

/-- **Conflicts can be persisted** exactly when the rows of one conflict key are never all copies of
one payload and the rows of a duplicate group have one conflict key. -/
theorem conflicts_persistable_iff {C : Checks Ontology} {T : Revalidation} {run : String}
    {payloads : List (List (String × Doc))} {evidence : EvidenceMap} {ontology : Ontology}
    (hT : T.OrderFree)
    (hids : ∀ rows, RowsOf C payloads evidence ontology rows → IdsApart T C.digest run rows) :
    ConflictsPersistable C T run payloads evidence ontology
      ↔ ∀ rows, RowsOf C payloads evidence ontology rows → Distinguishable T rows := by
  constructor
  · rintro h rows ⟨checked, found, hchecked, rfl, hfound⟩
    have hresult := h _ (validateProposals_eq_ok.mpr ⟨checked, found, hchecked, hfound, rfl⟩)
    rw [payloads_proposals] at hresult
    exact distinguishable_of_persistable hT (hids _ ⟨checked, found, hchecked, rfl, hfound⟩) hresult
  · intro h result hresult
    obtain ⟨checked, found, hchecked, hfound, rfl⟩ := validateProposals_eq_ok.mp hresult
    have hrows : RowsOf C payloads evidence ontology (checked.filterMap id) :=
      ⟨checked, found, hchecked, rfl, hfound⟩
    rw [payloads_proposals]
    exact persistable_of_distinguishable hT (hids _ hrows) (h _ hrows)

end Pipeline

/-! ## One figure stated twice, and two readings of one figure -/

/-- Hashes that are texts in the order of the keys. -/
def Revalidation.sortedText : Revalidation :=
  { Revalidation.textual with hash := fun d => "sha256:" ++ d.sorted.render }

/-- The texts of sorted documents do not depend on the order of members. -/
theorem Revalidation.sortedText_orderFree : Revalidation.sortedText.OrderFree where
  hash d e h := by
    show "sha256:" ++ d.sorted.render = "sha256:" ++ e.sorted.render
    rw [h]
  unit _ _ h := h
  magnitude _ _ _ _ h _ := h

/-- **A figure stated twice** has one id, and persistence refuses its conflict. -/
theorem arrTwice_not_persistable :
    ¬ ConflictsPersistable arrChecks .sortedText "run" [arrPayload, arrPayload] arrEvidence () := by
  obtain ⟨row, hrow⟩ : ∃ row, checkPayload arrChecks () arrEvidence arrPayload = .ok (some row) :=
    ⟨_, rfl⟩
  have hchecked : [arrPayload, arrPayload].mapM (checkPayload arrChecks () arrEvidence)
      = .ok [some row, some row] := by
    rw [List.mapM_cons, List.mapM_cons, List.mapM_nil, hrow]
    rfl
  have hrows : ∀ other ∈ [row, row], other = row := by simp
  have hids : IdsApart .sortedText arrChecks.digest "run" [row, row] := by
    intro a ha b hb _
    rw [hrows a ha, hrows b hb]
    exact ⟨rfl, rfl, rfl⟩
  intro h
  have hresult := h _ (validateProposals_eq_ok.mpr ⟨_, [], hchecked, rfl, rfl⟩)
  rw [payloads_proposals] at hresult
  have hdistinguishable :=
    distinguishable_of_persistable Revalidation.sortedText_orderFree hids hresult
  have hnot : ¬ Alone .sortedText [row, row] 0 row := fun halone => by
    have h10 : 1 = 0 := halone 1 row rfl rfl
    omega
  obtain ⟨other, hother, -, hcopy⟩ := hdistinguishable.notOnlyCopies 0 row rfl hnot
  rw [hrows other hother] at hcopy
  exact hcopy ⟨rfl, rfl, rfl⟩

/-- Two readings of a recurring revenue, with little else. -/
def arrReading (value : String) : List (String × Doc) :=
  [("kind", .str "kpi"), ("metric_id", .str "arr"), ("value", .str value)]

/-- The checks of the readings, with a digest of 64 digits. -/
def readingChecks : Checks Unit :=
  { arrChecks with
    collectBlockers := fun _ _ _ => .ok ["schema_version must be extraction-payload/v1"]
    digest := fun s =>
      let n := s.toList.foldl (fun n c => (n * 257 + c.toNat) % 16 ^ 64) 1
      (Nat.toDigits 16 n).reverse ++ List.replicate (64 - (Nat.toDigits 16 n).length) '0' }

/-- The row of a reading. -/
def readingRow (value : String) : Checked where
  kind := "kpi"
  metricId := "arr"
  payload := .obj (arrReading value)
  findings := ["schema_version must be extraction-payload/v1"]
  comparability := none
  unavailable :=
    some "comparability_key unavailable: 'missing required qualifier for comparability: currency'"
  evidence := []
  rejected := false

theorem readingRows {rows : List Checked}
    (h : RowsOf readingChecks [arrReading "1", arrReading "2"] [] () rows) :
    rows = [readingRow "1", readingRow "2"] := by
  obtain ⟨checked, found, hchecked, rfl, -⟩ := h
  have hrun : [arrReading "1", arrReading "2"].mapM (checkPayload readingChecks () [])
      = .ok [some (readingRow "1"), some (readingRow "2")] := rfl
  cases hchecked.symm.trans hrun
  rfl

/-- Readings of two values are no copies. -/
theorem readingRow_not_copy {value value' : String} (h : value ≠ value') :
    ¬ (readingRow value).Copy (readingRow value') := by
  intro hcopy
  have hfield := congrArg (Doc.field "value") hcopy.payload
  rw [Doc.field_sorted, Doc.field_sorted] at hfield
  exact h (Doc.str.inj hfield)

theorem conflicts_persistable_iff_readings :
    (validateProposals readingChecks .sortedText "run" [arrReading "1", arrReading "2"] [] ()).map
        (fun r => r.conflicts.map fun c => (c.reasonCodes, c.memberProposalIds.dedup.length))
      = .ok [(["value_disagreement"], 2)]
      ∧ ConflictsPersistable readingChecks .sortedText "run" [arrReading "1",
        arrReading "2"] [] () := by
  refine ⟨by decide +kernel, ?_⟩
  have h12 : ¬ (readingRow "1").Copy (readingRow "2") := readingRow_not_copy (by decide)
  have h21 : ¬ (readingRow "2").Copy (readingRow "1") := readingRow_not_copy (by decide)
  have hkey : (readingRow "1").key .sortedText = (readingRow "2").key .sortedText := rfl
  have hid : (readingRow "1").proposalId .sortedText readingChecks.digest "run"
      ≠ (readingRow "2").proposalId .sortedText readingChecks.digest "run" := by
    decide +kernel
  refine (conflicts_persistable_iff Revalidation.sortedText_orderFree fun rows hrows => ?_).mpr
    fun rows hrows => ?_
  · rw [readingRows hrows]
    intro a ha b hb heq
    rw [List.mem_cons, List.mem_singleton] at ha hb
    rcases ha with rfl | rfl <;> rcases hb with rfl | rfl
    · exact ⟨rfl, rfl, rfl⟩
    · exact absurd heq hid
    · exact absurd heq.symm hid
    · exact ⟨rfl, rfl, rfl⟩
  · rw [readingRows hrows]
    constructor
    · intro i row hrow _
      have hmem := List.mem_of_getElem? hrow
      rw [List.mem_cons, List.mem_singleton] at hmem
      rcases hmem with rfl | rfl
      · exact ⟨readingRow "2", by simp, hkey.symm, h21⟩
      · exact ⟨readingRow "1", by simp, hkey, h12⟩
    · have hnone :
      Revalidation.sortedText.duplicateGroups ([readingRow "1", readingRow "2"].map Checked.payload)
          = [] := by
        decide +kernel
      rw [hnone]
      exact fun g hg => absurd hg List.not_mem_nil

end Extraction
