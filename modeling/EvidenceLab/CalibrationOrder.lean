/-
# Calibration datasets up to the order of their source

`parse` reads a dataset in the same way from every order of the records, of the issuers, of the
reviewers and of the keys, and the interchange dictionary is one of these orders.

* A `Codec` is a reader with the writer of what it reads: what is read stands in the source up to
  the order (`sound`), and every order of the source is read alike (`stable`).
* `codec_parse` puts the codecs of the fields together, and `project_eq_iff` is the result: two
  sources have one dictionary exactly when one is an order of the other.
-/
import EvidenceLab.CalibrationScan
import EvidenceLab.JsonShuffle

namespace CalibrationDataset

open PyJson (Shuffled Distinct member keysAre keysAre_perm shuffled_member shuffled_object
  shuffledItems_iff
  distinctMembers_iff)
open Except (bind_eq_ok_iff raiseIf_eq_ok_iff mapM_eq_ok_iff)
open StableSort (sortBy sortBy_perm sortBy_eq_of_perm)

/-- A reader and the writer of what it reads. -/
structure Codec {α : Type} (read : PyJson → Except DatasetError α) (project : α → PyJson) :
    Prop where
  sound : ∀ v a, Distinct v → read v = .ok a → Shuffled v (project a)
  stable : ∀ v w a, Distinct v → Shuffled v w → read v = .ok a → read w = .ok a

/-! ## Values without an order -/

/-- A text is not shuffled. -/
theorem shuffled_str {s : PyStr} {w : PyJson} (h : Shuffled (.str s) w) : w = .str s := by
  cases h
  rfl

theorem shuffled_int {i : ℤ} {w : PyJson} (h : Shuffled (.int i) w) : w = .int i := by
  cases h
  rfl

/-- A reader of what has no order. -/
theorem Codec.of_eq {α : Type} {read : PyJson → Except DatasetError α} {project : α → PyJson}
    (hread : ∀ v a, read v = .ok a → v = project a)
    (hproject : ∀ a w, Shuffled (project a) w → w = project a) :
    Codec read project where
  sound v a _ h := hread v a h ▸ .same v
  stable v w a _ hw h := by
    obtain rfl := hread v a h
    rwa [hproject a w hw]

/-- An accepted identifier is its own text. -/
theorem eq_of_canonicalUuid {v : PyJson} {i : Uuid} (h : canonicalUuid v = .ok i) :
    v = .ofText i.text := by
  unfold canonicalUuid at h
  split at h
  · split_ifs at h
    cases h
    rfl
  · cases h

theorem eq_of_canonicalHash {v : PyJson} {i : Hash} (h : canonicalHash v = .ok i) :
    v = .ofText i.text := by
  unfold canonicalHash at h
  split at h
  · split_ifs at h
    cases h
    rfl
  · cases h

theorem eq_of_canonicalField {v : PyJson} {f : FieldName} (h : canonicalField v = .ok f) :
    v = .ofText f.text := by
  unfold canonicalField at h
  split at h
  · split_ifs at h
    cases h
    rfl
  · cases h

theorem eq_of_canonicalScore {v : PyJson} {s : Isotonic.Score} (h : canonicalScore v = .ok s) :
    v = .ofText s.text := by
  unfold canonicalScore at h
  split at h
  · split_ifs at h
    cases h
    rfl
  · cases h

theorem eq_of_canonicalStamp {v : PyJson} {t : Stamp} (h : canonicalStamp v = .ok t) :
    v = .ofText t.format := by
  unfold canonicalStamp at h
  split at h
  · split at h
    · split_ifs at h with hformat
      cases h
      rw [hformat]
    · cases h
  · cases h

/-- An accepted name is that of its member. -/
theorem eq_of_oneOf {α : Type} {members : List α} {name : α → String} {v : PyJson} {a : α}
    (h : oneOf members name v = .ok a) : v = .ofText (name a) := by
  unfold oneOf at h
  split at h
  · cases hfind : members.find? fun a => name a == _ with
    | none =>
        rw [hfind] at h
        cases h
    | some b =>
        rw [hfind] at h
        obtain rfl : b = a := Except.ok.inj h
        have hb := List.find?_some hfind
        rw [beq_iff_eq] at hb
        rw [hb]
  · cases h

theorem eq_of_requireInt {v : PyJson} {i : ℤ} (h : requireInt v = .ok i) : v = .int i := by
  unfold requireInt at h
  split at h <;> cases h
  rfl

/-- Identifiers are read back from their text. -/
theorem codec_uuid : Codec canonicalUuid fun i => .ofText i.text :=
  .of_eq (fun _ _ => eq_of_canonicalUuid) fun _ _ => shuffled_str

/-- Hashes are read back from their text. -/
theorem codec_hash : Codec canonicalHash fun i => .ofText i.text :=
  .of_eq (fun _ _ => eq_of_canonicalHash) fun _ _ => shuffled_str

theorem codec_field : Codec canonicalField fun f => .ofText f.text :=
  .of_eq (fun _ _ => eq_of_canonicalField) fun _ _ => shuffled_str

/-- Scores are read back from their text. -/
theorem codec_score : Codec canonicalScore fun s => .ofText s.text :=
  .of_eq (fun _ _ => eq_of_canonicalScore) fun _ _ => shuffled_str

/-- Times are read back from their text. -/
theorem codec_stamp : Codec canonicalStamp fun t => .ofText t.format :=
  .of_eq (fun _ _ => eq_of_canonicalStamp) fun _ _ => shuffled_str

/-- Members of an enumeration are read back from their names. -/
theorem codec_oneOf {α : Type} (members : List α) (name : α → String) :
    Codec (oneOf members name) fun a => .ofText (name a) :=
  .of_eq (fun _ _ => eq_of_oneOf) fun _ _ => shuffled_str

theorem codec_int : Codec requireInt .int :=
  .of_eq (fun _ _ => eq_of_requireInt) fun _ _ => shuffled_int

/-! ## Lists of identities -/

/-- The ids that a list spells. -/
theorem eq_of_mapM_uuid {items : List PyJson} {ids : List Uuid}
    (h : items.mapM canonicalUuid = .ok ids) :
    items = ids.map fun i => .ofText i.text := by
  rw [mapM_eq_ok_iff] at h
  induction h with
  | nil => rfl
  | cons h _ ih => rw [List.map_cons, eq_of_canonicalUuid h, ih]

/-- Ids in another order. -/
theorem shuffled_uuids {ids ids' : List Uuid} (h : ids.Perm ids') :
    Shuffled (uuids ids) (uuids ids') :=
  .arr (shuffledItems_iff.mpr (List.forall₂_same.mpr fun v _ => .same v)) (h.map _)

/-- What an order of some spelled ids is. -/
theorem arr_of_shuffled_uuids {ids : List Uuid} {w : PyJson} (h : Shuffled (uuids ids) w) :
    ∃ ids', w = uuids ids' ∧ ids.Perm ids' := by
  cases h with
  | same => exact ⟨ids, rfl, .refl _⟩
  | @arr _ ys zs hitems hp =>
      have hzs : zs = ids.map fun i => PyJson.ofText i.text := by
        rw [shuffledItems_iff, List.forall₂_map_left_iff] at hitems
        clear hp
        induction hitems with
        | nil => rfl
        | cons h _ ih => rw [List.map_cons, shuffled_str h, ih]
      rw [hzs] at hp
      have hspell :
          List.Forall₂ (fun v i => v = PyJson.ofText (Uuid.text i))
            (ids.map fun i => PyJson.ofText i.text) ids :=
        List.forall₂_map_left_iff.mpr (List.forall₂_same.mpr fun _ _ => rfl)
      obtain ⟨ids', hys, hperm⟩ := List.perm_comp_forall₂ hp.symm hspell
      refine ⟨ids', congrArg PyJson.arr ?_, hperm.symm⟩
      clear hp hperm
      induction hys with
      | nil => rfl
      | cons h _ ih => rw [List.map_cons, h, ih]

theorem mapM_uuid (ids : List Uuid) :
    (ids.map fun i => PyJson.ofText i.text).mapM canonicalUuid = .ok ids := by
  rw [mapM_eq_ok_iff, List.forall₂_map_left_iff, List.forall₂_same]
  intro i _
  rw [canonicalUuid, dif_pos i.valid]

/-- The spelled ids, sorted, do not depend on their order. -/
theorem sort_ids {ids ids' : List Uuid} (h : ids.Perm ids') : sortBy id ids = sortBy id ids' :=
  sortBy_eq_of_perm h fun _ _ _ _ => id

/-- Lists of identifiers are read back. -/
theorem codec_uniqueUuids (limit : ℕ) : Codec (fun v => uniqueUuids v limit) uuids where
  sound v ids _ h := by
    simp only [uniqueUuids, bind_eq_ok_iff, raiseIf_eq_ok_iff, Except.pure_eq_ok, Except.ok.injEq]
      at h
    obtain ⟨items, hitems, _, -, _, -, parsed, hparsed, _, -, rfl⟩ := h
    unfold requireList at hitems
    split at hitems <;> cases hitems
    rw [eq_of_mapM_uuid hparsed]
    exact shuffled_uuids (sortBy_perm _ _).symm
  stable v w ids _ hw h := by
    simp only [uniqueUuids, bind_eq_ok_iff, raiseIf_eq_ok_iff, Except.pure_eq_ok, Except.ok.injEq]
      at h ⊢
    obtain ⟨items, hitems, _, hlimit, _, hempty, parsed, hparsed, _, hnodup, rfl⟩ := h
    unfold requireList at hitems
    split at hitems <;> cases hitems
    rw [eq_of_mapM_uuid hparsed] at hw hlimit hempty
    obtain ⟨ids', rfl, hperm⟩ := arr_of_shuffled_uuids hw
    rw [List.length_map, hperm.length_eq] at hlimit hempty
    rw [not_not, hperm.nodup_iff] at hnodup
    refine ⟨_, rfl, (), ?_, (), ?_, ids', mapM_uuid ids', (), not_not.mpr hnodup,
      sort_ids hperm.symm⟩
    · rwa [List.length_map]
    · rwa [List.length_map]

/-- Reviewers are read back. -/
theorem codec_reviewers (kind : EvidenceKind) : Codec (fun v => reviewers v kind) uuids where
  sound v ids _ h := by
    simp only [reviewers, bind_eq_ok_iff, raiseIf_eq_ok_iff] at h
    obtain ⟨items, hitems, parsed, hparsed, _, -, h⟩ := h
    unfold requireList at hitems
    split at hitems <;> cases hitems
    rw [eq_of_mapM_uuid hparsed]
    cases kind with
    | synthetic =>
        simp only [bind_eq_ok_iff, raiseIf_eq_ok_iff, Except.pure_eq_ok, Except.ok.injEq, not_not]
          at h
        obtain ⟨_, rfl, rfl⟩ := h
        exact .same _
    | adjudicated =>
        simp only [bind_eq_ok_iff, raiseIf_eq_ok_iff, Except.pure_eq_ok, Except.ok.injEq] at h
        obtain ⟨_, -, rfl⟩ := h
        exact shuffled_uuids (sortBy_perm _ _).symm
  stable v w ids _ hw h := by
    simp only [reviewers, bind_eq_ok_iff, raiseIf_eq_ok_iff] at h ⊢
    obtain ⟨items, hitems, parsed, hparsed, _, hnodup, h⟩ := h
    unfold requireList at hitems
    split at hitems <;> cases hitems
    rw [eq_of_mapM_uuid hparsed] at hw
    obtain ⟨ids', rfl, hperm⟩ := arr_of_shuffled_uuids hw
    rw [not_not, hperm.nodup_iff] at hnodup
    refine ⟨_, rfl, ids', mapM_uuid ids', (), not_not.mpr hnodup, ?_⟩
    cases kind with
    | synthetic =>
        simp only [bind_eq_ok_iff, raiseIf_eq_ok_iff, Except.pure_eq_ok, Except.ok.injEq, not_not]
          at h ⊢
        obtain ⟨_, rfl, rfl⟩ := h
        exact ⟨(), List.nil_perm.mp hperm, rfl⟩
    | adjudicated =>
        simp only [bind_eq_ok_iff, raiseIf_eq_ok_iff, Except.pure_eq_ok, Except.ok.injEq] at h ⊢
        obtain ⟨_, hlen, rfl⟩ := h
        exact ⟨(), hperm.length_eq ▸ hlen, sort_ids hperm.symm⟩

/-! ## Objects -/

/-- The member of an object with distinct keys has distinct keys. -/
theorem distinct_member {ms : List (PyStr × PyJson)} (h : Distinct (.obj ms)) (key : String) :
    Distinct (member ms key) := by
  unfold member
  cases hget : Dict.get? ms (.text key) with
  | none => exact trivial
  | some v => exact distinctMembers_iff.mp h.2 _ (Dict.mem_of_get? hget)

/-- What a reader of an object finds in an object with exactly its keys. -/
theorem requireKeys_spec {keys : List String} {v : PyJson} {ms : List (PyStr × PyJson)}
    (h : requireKeys keys v = .ok ms) : v = .obj ms ∧ keysAre ms keys = true := by
  simp only [requireKeys, bind_eq_ok_iff, raiseIf_eq_ok_iff, Except.pure_eq_ok, Except.ok.injEq,
    Bool.not_eq_false] at h
  obtain ⟨ms', hms, _, hkeys, rfl⟩ := h
  unfold requireDict at hms
  split at hms <;> cases hms
  exact ⟨rfl, hkeys⟩

/-- It finds the same members, up to the order inside them, in every order of the object. -/
theorem requireKeys_shuffled {keys : List String} {v w : PyJson} {ms : List (PyStr × PyJson)}
    (hv : Distinct v)
    (hw : Shuffled v w) (h : requireKeys keys v = .ok ms) :
    ∃ ns, requireKeys keys w = .ok ns ∧ ∀ key, Distinct (member ms key) ∧
    Shuffled (member ms key) (member ns key) := by
  obtain ⟨rfl, hkeys⟩ := requireKeys_spec h
  obtain ⟨ns, rfl⟩ : ∃ ns, w = .obj ns := by
    cases hw <;> exact ⟨_, rfl⟩
  obtain ⟨hperm, hmember⟩ := shuffled_member hw hv.1
  refine ⟨ns, ?_, fun key => ⟨distinct_member hv key, hmember key⟩⟩
  simp only [requireKeys, requireDict, bind_eq_ok_iff, raiseIf_eq_ok_iff, Except.pure_eq_ok,
    Except.ok.injEq,
    Bool.not_eq_false, exists_eq_left']
  exact ⟨(), keysAre_perm hperm ▸ hkeys, trivial⟩

/-- The members of an object under its keys are the object, up to the order. -/
theorem shuffled_of_requireKeys {v : PyJson} {ms : List (PyStr × PyJson)}
    {ns : List (String × PyJson)}
    {keys : List String} (hv : Distinct v) (h : requireKeys keys v = .ok ms)
    (hns : ns.map Prod.fst = keys)
    (hkeys : keys.Nodup) (hval : ∀ n ∈ ns, Shuffled (member ms n.1) n.2) :
    Shuffled v (object ns) := by
  obtain ⟨rfl, hms⟩ := requireKeys_spec h
  subst hns
  exact shuffled_object hv.1 hkeys hms hval

/-- Pins are read back. -/
theorem codec_pins :
    Codec pins fun ps => object (pinKeys.zip (ps.map fun p => .ofText p.text)) where
  sound v ps hv h := by
    simp only [pins, bind_eq_ok_iff] at h
    obtain ⟨ms, hms, hpins⟩ := h
    rw [mapM_eq_ok_iff] at hpins
    have hlen := hpins.length_eq
    refine shuffled_of_requireKeys hv hms (List.map_fst_zip (by rw [List.length_map, hlen]))
      (by decide) ?_
    clear hms hlen
    generalize pinKeys = keys at hpins ⊢
    induction hpins with
    | nil => simp
    | cons h _ ih =>
        rw [List.map_cons, List.zip_cons_cons, List.forall_mem_cons]
        exact ⟨eq_of_canonicalHash h ▸ .same _, ih⟩
  stable v w ps hv hw h := by
    simp only [pins, bind_eq_ok_iff] at h ⊢
    obtain ⟨ms, hms, hpins⟩ := h
    obtain ⟨ns, hns, hmember⟩ := requireKeys_shuffled hv hw hms
    refine ⟨ns, hns, ?_⟩
    rw [mapM_eq_ok_iff] at hpins ⊢
    exact hpins.imp fun key p hp => codec_hash.stable _ _ p (hmember key).1 (hmember key).2 hp

/-! ## Splits -/

/-- Windows are read back. -/
theorem codec_window : Codec splitWindow Window.project where
  sound v w hv h := by
    simp only [splitWindow, bind_eq_ok_iff, raiseIf_eq_ok_iff, Except.pure_eq_ok, Except.ok.injEq]
      at h
    obtain ⟨ms, hms, issuers, hissuers, startAt, hstart, endAt, hend, _, -, rfl⟩ := h
    refine shuffled_of_requireKeys hv hms rfl (by decide) ?_
    obtain ⟨rfl, -⟩ := requireKeys_spec hms
    simp only [List.forall_mem_cons, List.not_mem_nil, false_imp_iff, implies_true, and_true]
    refine ⟨?_, codec_stamp.sound _ _ (distinct_member hv _) hstart,
      codec_stamp.sound _ _ (distinct_member hv _) hend⟩
    exact ((codec_uniqueUuids maxIssuers).sound _ _ (distinct_member hv _) hissuers).trans
      (shuffled_uuids (sortBy_perm _ _).symm)
  stable v w win hv hw h := by
    simp only [splitWindow, bind_eq_ok_iff, raiseIf_eq_ok_iff, Except.pure_eq_ok, Except.ok.injEq]
      at h ⊢
    obtain ⟨ms, hms, issuers, hissuers, startAt, hstart, endAt, hend, u, hle, rfl⟩ := h
    obtain ⟨ns, hns, hmember⟩ := requireKeys_shuffled hv hw hms
    exact ⟨ns, hns, issuers,
      (codec_uniqueUuids maxIssuers).stable _ _ _ (hmember _).1 (hmember _).2 hissuers,
      startAt, codec_stamp.stable _ _ _ (hmember _).1 (hmember _).2 hstart,
      endAt, codec_stamp.stable _ _ _ (hmember _).1 (hmember _).2 hend, u, hle, rfl⟩

/-- The interchange dictionary of the windows. -/
def Manifest.project (m : Manifest) : PyJson :=
  object (Split.all.map fun s => (s.name, (m.window s).project))

/-- The manifest is read back. -/
theorem codec_manifest : Codec splitManifest Manifest.project where
  sound v m hv h := by
    simp only [splitManifest, bind_eq_ok_iff, raiseIf_eq_ok_iff, Except.pure_eq_ok, Except.ok.injEq]
      at h
    obtain ⟨ms, hms, train, htrain, calibration, hcalibration, evaluation, hevaluation, _,
      -, _, -, rfl⟩ := h
    refine shuffled_of_requireKeys hv hms rfl (by decide) ?_
    obtain ⟨rfl, -⟩ := requireKeys_spec hms
    simp only [Split.all, List.map_cons, List.map_nil, List.forall_mem_cons, List.not_mem_nil,
      false_imp_iff,
      implies_true, and_true]
    exact ⟨codec_window.sound _ _ (distinct_member hv _) htrain,
      codec_window.sound _ _ (distinct_member hv _) hcalibration,
      codec_window.sound _ _ (distinct_member hv _) hevaluation⟩
  stable v w m hv hw h := by
    simp only [splitManifest, bind_eq_ok_iff, raiseIf_eq_ok_iff, Except.pure_eq_ok, Except.ok.injEq]
      at h ⊢
    obtain ⟨ms, hms, train, htrain, calibration, hcalibration, evaluation, hevaluation, u, hord, u',
      hapart, rfl⟩ := h
    obtain ⟨ns, hns, hmember⟩ := requireKeys_shuffled hv hw hms
    exact ⟨ns, hns, train, codec_window.stable _ _ _ (hmember _).1 (hmember _).2 htrain,
      calibration, codec_window.stable _ _ _ (hmember _).1 (hmember _).2 hcalibration,
      evaluation, codec_window.stable _ _ _ (hmember _).1 (hmember _).2 hevaluation, u, hord,
      u', hapart, rfl⟩

/-! ## Records -/

/-- What `readRecord` asks of the members of an item. -/
theorem readRecord_eq_ok_iff {kind : EvidenceKind} {v : PyJson} {r : Record} :
    readRecord kind v = .ok r ↔
      ∃ ms, requireKeys recordKeys v = .ok ms
        ∧ canonicalUuid (member ms "sample_id") = .ok r.sampleId
        ∧ canonicalHash (member ms "proposal_sha256") = .ok r.proposalSha256
        ∧ canonicalUuid (member ms "issuer_id") = .ok r.issuerId
        ∧ canonicalHash (member ms "source_sha256") = .ok r.sourceSha256
        ∧ canonicalStamp (member ms "published_at") = .ok r.publishedAt
        ∧ canonicalStamp (member ms "as_of") = .ok r.asOf
        ∧ canonicalStamp (member ms "adjudicated_at") = .ok r.adjudicatedAt
        ∧ (r.publishedAt ≤ r.asOf ∧ r.asOf ≤ r.adjudicatedAt)
        ∧ oneOf Split.all Split.name (member ms "split") = .ok r.split
        ∧ oneOf Family.all Family.name (member ms "family") = .ok r.family
        ∧ canonicalField (member ms "field") = .ok r.field
        ∧ canonicalScore (member ms "score") = .ok r.score
        ∧ requireInt (member ms "outcome") = .ok r.outcome
        ∧ (r.outcome = 0 ∨ r.outcome = 1)
        ∧ reviewers (member ms "reviewer_ids") kind = .ok r.reviewerIds := by
  simp only [readRecord, readFields, bind_eq_ok_iff, raiseIf_eq_ok_iff, Except.pure_eq_ok,
    Except.ok.injEq, not_not]
  constructor
  · rintro ⟨ms, hms, id, h1, _, h2, _, h3, _, h4, _, h5, _, h6, _, h7, _, h8, _, h9, _, h10, _,
      h11, _, h12, _, h13,
      _, h14, _, h15, rfl⟩
    exact ⟨ms, hms, h1, h2, h3, h4, h5, h6, h7, h8, h9, h10, h11, h12, h13, by
      dsimp only; omega, h15⟩
  · rintro ⟨ms, hms, h1, h2, h3, h4, h5, h6, h7, h8, h9, h10, h11, h12, h13, h14, h15⟩
    exact ⟨ms, hms, _, h1, _, h2, _, h3, _, h4, _, h5, _, h6, _, h7, (), h8, _, h9, _, h10, _,
      h11, _, h12, _, h13,
      (), by omega, _, h15, rfl⟩

/-- **Records are read back** from their projection. -/
theorem codec_record (kind : EvidenceKind) : Codec (readRecord kind) Record.project where
  sound v r hv h := by
    obtain ⟨ms, hms, h1, h2, h3, h4, h5, h6, h7, -, h9, h10, h11, h12, h13, -, h15⟩ :=
      readRecord_eq_ok_iff.mp h
    refine shuffled_of_requireKeys hv hms rfl (by decide) ?_
    obtain ⟨rfl, -⟩ := requireKeys_spec hms
    have hd := distinct_member hv
    simp only [List.forall_mem_cons, List.not_mem_nil, false_imp_iff, implies_true, and_true]
    exact ⟨codec_uuid.sound _ _ (hd _) h1, codec_hash.sound _ _ (hd _) h2,
      codec_uuid.sound _ _ (hd _) h3,
      codec_hash.sound _ _ (hd _) h4, codec_stamp.sound _ _ (hd _) h5,
      codec_stamp.sound _ _ (hd _) h6,
      codec_stamp.sound _ _ (hd _) h7, (codec_oneOf _ _).sound _ _ (hd _) h9,
      (codec_oneOf _ _).sound _ _ (hd _) h10,
      codec_field.sound _ _ (hd _) h11, codec_score.sound _ _ (hd _) h12,
      codec_int.sound _ _ (hd _) h13,
      (codec_reviewers kind).sound _ _ (hd _) h15⟩
  stable v w r hv hw h := by
    obtain ⟨ms, hms, h1, h2, h3, h4, h5, h6, h7, h8, h9, h10, h11, h12, h13, h14, h15⟩ :=
      readRecord_eq_ok_iff.mp h
    obtain ⟨ns, hns, hmember⟩ := requireKeys_shuffled hv hw hms
    have hd := fun key => (hmember key).1
    have hs := fun key => (hmember key).2
    exact readRecord_eq_ok_iff.mpr ⟨ns, hns, codec_uuid.stable _ _ _ (hd _) (hs _) h1,
      codec_hash.stable _ _ _ (hd _) (hs _) h2, codec_uuid.stable _ _ _ (hd _) (hs _) h3,
      codec_hash.stable _ _ _ (hd _) (hs _) h4, codec_stamp.stable _ _ _ (hd _) (hs _) h5,
      codec_stamp.stable _ _ _ (hd _) (hs _) h6, codec_stamp.stable _ _ _ (hd _) (hs _) h7, h8,
      (codec_oneOf _ _).stable _ _ _ (hd _) (hs _) h9,
      (codec_oneOf _ _).stable _ _ _ (hd _) (hs _) h10,
      codec_field.stable _ _ _ (hd _) (hs _) h11, codec_score.stable _ _ _ (hd _) (hs _) h12,
      codec_int.stable _ _ _ (hd _) (hs _) h13, h14,
      (codec_reviewers kind).stable _ _ _ (hd _) (hs _) h15⟩

/-! ## Datasets -/

/-- The scan reads the records of a list in any order, and of items in any order inside them. -/
theorem scanRecords_shuffled {kind : EvidenceKind} {manifest : Manifest}
    {items items' : List PyJson}
    {found : ScanState × List Record} (hitems : ∀ v ∈ items, Distinct v)
    (hw : Shuffled (.arr items) (.arr items')) (h : scanRecords kind manifest items = .ok found) :
    ∃ found', scanRecords kind manifest items' = .ok found' ∧ found.2.Perm found'.2 := by
  obtain ⟨hread, hcons, -⟩ := scanRecords_eq_ok_iff.mp h
  obtain ⟨zs, hz, hperm⟩ : ∃ zs, List.Forall₂ Shuffled items zs ∧ zs.Perm items' := by
    cases hw with
    | same => exact ⟨items, List.forall₂_same.mpr fun v _ => .same v, .refl _⟩
    | arr hz hp => exact ⟨_, shuffledItems_iff.mp hz, hp⟩
  have hread' : List.Forall₂ (fun item r => readRecord kind item = .ok r) zs found.2 := by
    clear hw h hperm hcons
    generalize found.2 = records at hread ⊢
    induction hz generalizing records with
    | nil => rwa [List.forall₂_nil_left_iff] at hread ⊢
    | cons hv _ ih =>
        rw [List.forall_mem_cons] at hitems
        obtain ⟨r, rs, hr, hrs, rfl⟩ := List.forall₂_cons_left_iff.mp hread
        exact .cons ((codec_record kind).stable _ _ r hitems.1 hv hr) (ih hitems.2 rs hrs)
  obtain ⟨records', hrecords', hp⟩ := List.perm_comp_forall₂ hperm.symm hread'
  exact ⟨(stateOf records', records'),
    scanRecords_eq_ok_iff.mpr ⟨hrecords', hcons.perm hp.symm, rfl⟩, hp.symm⟩

/-- The items of a scan, up to the order inside them. -/
theorem shuffled_of_scanRecords {kind : EvidenceKind} {manifest : Manifest} {items : List PyJson}
    {found : ScanState × List Record} (hitems : ∀ v ∈ items, Distinct v)
    (h : scanRecords kind manifest items = .ok found) :
    Shuffled (.arr items) (.arr (found.2.map Record.project)) := by
  obtain ⟨hread, -, -⟩ := scanRecords_eq_ok_iff.mp h
  refine .arr (shuffledItems_iff.mpr ?_) (List.Perm.refl _)
  rw [List.forall₂_map_right_iff]
  clear h
  generalize found.2 = records at hread ⊢
  induction hread with
  | nil => exact .nil
  | cons hr _ ih =>
      rw [List.forall_mem_cons] at hitems
      exact .cons ((codec_record kind).sound _ _ hitems.1 hr) (ih hitems.2)

/-- What `parse` asks of the members of a payload. -/
theorem parse_eq_ok_iff {v : PyJson} {d : Dataset} :
    parse v = .ok d ↔
      ∃ ms, requireKeys datasetKeys v = .ok ms
        ∧ member ms "schema_version" = .ofText schema
        ∧ canonicalUuid (member ms "dataset_id") = .ok d.datasetId
        ∧ oneOf EvidenceKind.all EvidenceKind.name (member ms "evidence_kind") = .ok d.evidenceKind
        ∧ pins (member ms "pins") = .ok d.pins
        ∧ splitManifest (member ms "split_manifest") = .ok d.splits
        ∧ ∃ raw found, member ms "records" = .arr raw ∧ raw.length ≤ maxRecords
          ∧ scanRecords d.evidenceKind d.splits raw = .ok found
          ∧ d.records = sortBy Record.sampleId found.2
          ∧ Ordered d.records := by
  have hschema : ∀ v u, checkSchema v = .ok u ↔ v = .ofText schema := by
    intro v u
    unfold checkSchema
    split
    · rw [raiseIf_eq_ok_iff, not_not, PyJson.str.injEq]
    · simp_all
  have hlist : ∀ v raw, requireList v = .ok raw ↔ v = .arr raw := by
    intro v raw
    unfold requireList
    split <;> simp_all
  simp only [parse, bind_eq_ok_iff, raiseIf_eq_ok_iff, Except.pure_eq_ok,
    Except.ok.injEq, hschema, hlist,
    crossSplitCutoff_eq_ok_iff, not_lt]
  constructor
  · rintro ⟨ms, hms, _, h1, _, h2, _, h3, _, h4, _, h5, raw, h6, _, h7, found, h8, _, h9, rfl⟩
    exact ⟨ms, hms, h1, h2, h3, h4, h5, raw, found, h6, h7, h8, rfl, h9⟩
  · rintro ⟨ms, hms, h1, h2, h3, h4, h5, raw, found, h6, h7, h8, h9, h10⟩
    refine ⟨ms, hms, (), h1, _, h2, _, h3, _, h4, _, h5, raw, h6, (), h7, found, h8,
      (), h9 ▸ h10, ?_⟩
    rw [← h9]

/-- **Datasets are read from every order of their source**, and their dictionary is one of the
orders. -/
theorem codec_parse : Codec parse Dataset.project where
  sound v d hv h := by
    obtain ⟨ms, hms, h1, h2, h3, h4, h5, raw, found, h6, -, h8, h9, -⟩ := parse_eq_ok_iff.mp h
    refine shuffled_of_requireKeys hv hms rfl (by decide) ?_
    obtain ⟨rfl, -⟩ := requireKeys_spec hms
    have hd := distinct_member hv
    simp only [List.forall_mem_cons, List.not_mem_nil, false_imp_iff, implies_true, and_true]
    refine ⟨h1 ▸ .same _, codec_uuid.sound _ _ (hd _) h2, (codec_oneOf _ _).sound _ _ (hd _) h3,
      codec_pins.sound _ _ (hd _) h4, codec_manifest.sound _ _ (hd _) h5, ?_⟩
    have hraw : Distinct (.arr raw) := h6 ▸ hd "records"
    rw [h6, h9]
    refine (shuffled_of_scanRecords (PyJson.distinctItems_iff.mp hraw) h8).trans ?_
    exact .arr (shuffledItems_iff.mpr (List.forall₂_same.mpr fun v _ => .same v))
      ((sortBy_perm _ _).symm.map _)
  stable v w d hv hw h := by
    obtain ⟨ms, hms, h1, h2, h3, h4, h5, raw, found, h6, h7, h8, h9, h10⟩ := parse_eq_ok_iff.mp h
    obtain ⟨ns, hns, hmember⟩ := requireKeys_shuffled hv hw hms
    have hd := fun key => (hmember key).1
    have hs := fun key => (hmember key).2
    have hschema : member ns "schema_version" = .ofText schema := by
      have := hs "schema_version"
      rw [h1] at this
      exact shuffled_str this
    have hraw : Distinct (.arr raw) := h6 ▸ hd "records"
    obtain ⟨raw', h6', hlen⟩ :
        ∃ raw', member ns "records" = .arr raw' ∧ raw.length = raw'.length := by
      have := hs "records"
      rw [h6] at this
      generalize member ns "records" = w' at this
      cases this with
      | same => exact ⟨raw, rfl, rfl⟩
      | arr hz hp => exact ⟨_, rfl, (shuffledItems_iff.mp hz).length_eq.trans hp.length_eq⟩
    have hshuffled : Shuffled (.arr raw) (.arr raw') := h6 ▸ h6' ▸ hs "records"
    obtain ⟨found', h8', hperm⟩ :=
      scanRecords_shuffled (PyJson.distinctItems_iff.mp hraw) hshuffled h8
    have hsamples := (scanRecords_eq_ok_iff.mp h8).2.1.samples
    have hsort : sortBy Record.sampleId found.2 = sortBy Record.sampleId found'.2 :=
      sortBy_eq_of_perm hperm fun a ha b hb heq => List.inj_on_of_nodup_map hsamples ha hb heq
    exact parse_eq_ok_iff.mpr ⟨ns, hns, hschema,
      codec_uuid.stable _ _ _ (hd _) (hs _) h2, (codec_oneOf _ _).stable _ _ _ (hd _) (hs _) h3,
      codec_pins.stable _ _ _ (hd _) (hs _) h4, codec_manifest.stable _ _ _ (hd _) (hs _) h5,
      raw', found', h6',
      hlen ▸ h7, h8', h9.trans hsort, h10⟩

/-- **Two sources have one dictionary** exactly when one is an order of the other. -/
theorem project_eq_iff {v w : PyJson} {d e : Dataset} (hv : Distinct v) (hw : Distinct w)
    (hd : parse v = .ok d)
    (he : parse w = .ok e) : d.project = e.project ↔ Shuffled v w := by
  constructor
  · intro h
    exact (codec_parse.sound v d hv hd).trans (h ▸ (codec_parse.sound w e hw he).symm)
  · intro h
    rw [Except.ok.inj (he.symm.trans (codec_parse.stable v w d hv h hd))]

/-- The dictionary of a dataset is read as that dataset. -/
theorem parse_project {v : PyJson} {d : Dataset} (hv : Distinct v) (h : parse v = .ok d) :
    parse d.project = .ok d :=
  codec_parse.stable v _ d hv (codec_parse.sound v d hv h) h

end CalibrationDataset
