/-
# Fusion does not depend on the order of its input

What `fuse` reads of an item is its id, its provenance, its best rank and its appearances in order
(`Item`). A permutation of the lanes and of the hits inside each lane permutes the items
(`items_perm`), and every later stage is a sort, a least element or a fold over a sorted list.

The survivors are the least items of their provenances; every other item is merged into the survivor
of its provenance by exactly one decision.
-/
import EvidenceLab.Fusion

namespace Retrieval

open StableSort

/-! ## Permuted inputs -/

/-- The hits of a mapping, in the order of the mapping. -/
def LaneResults.all (results : LaneResults) : List LaneCandidate := results.flatMap Prod.snd

/-- What the lanes promise of a mapping. -/
structure LaneResults.Valid (results : LaneResults) : Prop where
  lanes_nodup : results.keys.Nodup
  ranks_pos : ∀ c ∈ results.all, 1 ≤ c.laneRank
  ranks_nodup : ∀ lane ∈ results, (lane.2.map LaneCandidate.laneRank).Nodup
  provenance : ∀ c ∈ results.all, ∀ c' ∈ results.all, c.itemId = c'.itemId →
    provenanceKey c = provenanceKey c'

/-- The lanes permuted, and the hits inside each lane. -/
def LaneResults.Permuted (results results' : LaneResults) : Prop :=
  ∃ lanes : LaneResults, results.Perm lanes ∧
    List.Forall₂ (fun l l' => l.1 = l'.1 ∧ l.2.Perm l'.2) lanes results'

/-- The order of the lanes does not change what a lane holds. -/
theorem get?_eq_of_perm {d d' : LaneResults} (hd : d.keys.Nodup) (hp : d.Perm d') (k : String) :
    d.get? k = d'.get? k := by
  have hd' : d'.keys.Nodup := (hp.map Prod.fst).nodup_iff.mp hd
  cases h : d.get? k with
  | some v => exact (Dict.get?_of_mem hd' (hp.mem_iff.mp (Dict.mem_of_get? h))).symm
  | none =>
      symm
      rw [Dict.get?_eq_none_iff] at h ⊢
      exact fun hk => h ((hp.map Prod.fst).mem_iff.mpr hk)

theorem keys_eq_of_forall₂ {d d' : LaneResults}
    (h : List.Forall₂ (fun l l' => l.1 = l'.1 ∧ l.2.Perm l'.2) d d') :
    d.keys = d'.keys := by
  induction h with
  | nil => rfl
  | cons hl _ ih => exact congrArg₂ List.cons hl.1 ih

theorem getD_perm_of_forall₂ {d d' : LaneResults}
    (h : List.Forall₂ (fun l l' => l.1 = l'.1 ∧ l.2.Perm l'.2) d d')
    (k : String) : ((d.get? k).getD []).Perm ((d'.get? k).getD []) := by
  induction h with
  | nil => exact List.Perm.refl _
  | @cons l l' _ _ hl _ ih =>
      obtain ⟨k₁, v⟩ := l
      obtain ⟨k₂, v'⟩ := l'
      obtain ⟨rfl, hv⟩ : k₁ = k₂ ∧ v.Perm v' := hl
      rw [Dict.get?_cons, Dict.get?_cons]
      split_ifs
      · exact hv
      · exact ih

/-- Permuted results have the same lanes. -/
theorem LaneResults.Permuted.keys_perm {results results' : LaneResults}
    (h : results.Permuted results') :
    results.keys.Perm results'.keys := by
  obtain ⟨lanes, hp, hl⟩ := h
  rw [← keys_eq_of_forall₂ hl]
  exact hp.map Prod.fst

/-- Permuted results have the same candidates in each lane. -/
theorem LaneResults.Permuted.getD_perm {results results' : LaneResults}
    (h : results.Permuted results')
    (hkeys : results.keys.Nodup) (lane : String) :
    ((results.get? lane).getD []).Perm ((results'.get? lane).getD []) := by
  obtain ⟨lanes, hp, hl⟩ := h
  rw [get?_eq_of_perm hkeys hp]
  exact getD_perm_of_forall₂ hl lane

/-- The lanes are fused in an order of their own, whatever order they come in. -/
theorem fusedLanes_eq {results results' : LaneResults} (h : results.keys.Perm results'.keys) :
    fusedLanes results = fusedLanes results' := by
  rw [fusedLanes, fusedLanes]
  congr 1
  · refine List.filter_congr fun lane _ => ?_
    rw [decide_eq_decide]
    exact h.mem_iff
  · exact sortBy_eq_of_perm (h.filter _) fun a _ b _ hab => hab

/-- The hits of the lanes, one block for each lane. -/
def blocks (results : LaneResults) : List (List LaneCandidate) :=
  (fusedLanes results).map fun lane => (results.get? lane).getD []

/-- The blocks of permuted results agree lane by lane. -/
theorem LaneResults.Permuted.blocks_perm {results results' : LaneResults}
    (h : results.Permuted results')
    (hkeys : results.keys.Nodup) : List.Forall₂ List.Perm (blocks results) (blocks results') := by
  rw [blocks, blocks, ← fusedLanes_eq h.keys_perm]
  induction fusedLanes results with
  | nil => exact List.Forall₂.nil
  | cons lane lanes ih => exact List.Forall₂.cons (h.getD_perm hkeys lane) ih

/-- Every lane of the results is fused. -/
theorem mem_fusedLanes {results : LaneResults} {lane : String} :
    lane ∈ fusedLanes results ↔ lane ∈ results.keys := by
  rw [fusedLanes, List.mem_append, mem_sortBy, List.mem_filter, List.mem_filter, decide_eq_true_iff,
    decide_eq_true_iff]
  tauto

theorem nodup_fusedLanes {results : LaneResults} (h : results.keys.Nodup) :
    (fusedLanes results).Nodup := by
  rw [fusedLanes, List.nodup_append']
  refine ⟨List.Nodup.filter _ (by decide), ((sortBy_perm id _).nodup_iff).mpr (h.filter _), ?_⟩
  intro lane hknown hextra
  rw [mem_sortBy, List.mem_filter, decide_eq_true_iff] at hextra
  exact hextra.2 (List.mem_filter.mp hknown).1

/-- Looking every lane up gives the lanes of the dictionary. -/
theorem map_getD_keys {results : LaneResults} (h : results.keys.Nodup) :
    (results.keys.map fun lane => (results.get? lane).getD []) = results.map Prod.snd := by
  show ((results.map Prod.fst).map fun lane => (results.get? lane).getD []) = _
  rw [List.map_map]
  refine List.map_congr_left fun l hl => ?_
  show (results.get? l.1).getD [] = l.2
  rw [Dict.get?_of_mem h hl]
  rfl

/-- **No hit is lost.** -/
theorem hits_perm {results : LaneResults} (h : results.keys.Nodup) :
    (hits results).Perm results.all := by
  have hlanes : (fusedLanes results).Perm results.keys :=
    (List.perm_ext_iff_of_nodup (nodup_fusedLanes h) h).mpr fun _ => mem_fusedLanes
  rw [hits, LaneResults.all, List.flatMap_def, ← map_getD_keys h]
  exact (hlanes.map _).flatten

/-- The hits are the candidates of all lanes. -/
theorem mem_hits {results : LaneResults} (h : results.keys.Nodup) {c : LaneCandidate} :
    c ∈ hits results ↔ c ∈ results.all := (hits_perm h).mem_iff

theorem mem_blocks {results : LaneResults} {block : List LaneCandidate}
    (h : block ∈ blocks results) :
    ∃ lane, (lane, block) ∈ results := by
  obtain ⟨lane, hlane, rfl⟩ := List.mem_map.mp h
  rw [mem_fusedLanes, ← Dict.get?_isSome_iff, Option.isSome_iff_exists] at hlane
  obtain ⟨block, hblock⟩ := hlane
  refine ⟨lane, ?_⟩
  rw [hblock]
  exact Dict.mem_of_get? hblock

/-! ## Items -/

/-- What the later stages read of an entry. -/
structure Item where
  itemId : String
  provenance : List String
  rank : ℕ
  ordered : List LaneCandidate

def itemOf (e : Entry) : Item := ⟨e.1, provenanceOf e, bestRank e.2, orderedAppearances e.2⟩

/-- The best rank does not depend on the order of appearances. -/
theorem bestRank_perm {l l' : List LaneCandidate} (h : l.Perm l') : bestRank l = bestRank l' := by
  have hmem : ∀ a, a ∈ l.map LaneCandidate.laneRank ↔ a ∈ l'.map LaneCandidate.laneRank :=
    fun _ => (h.map LaneCandidate.laneRank).mem_iff
  rw [bestRank, bestRank]
  congr 1
  refine Option.ext fun a => ?_
  rw [List.min?_eq_some_iff, List.min?_eq_some_iff]
  simp only [hmem]

/-- An item has the provenance of any of its candidates where these agree. -/
theorem provenanceOf_eq {itemId : String} {l : List LaneCandidate} {c : LaneCandidate} (hc : c ∈ l)
    (hall : ∀ a ∈ l, provenanceKey a = provenanceKey c) :
    provenanceOf (itemId, l) = provenanceKey c := by
  cases l with
  | nil => cases hc
  | cons a l => exact hall a List.mem_cons_self

/-- The appearances of an item. -/
def appearancesOf (itemId : String) (l : List LaneCandidate) : List LaneCandidate :=
  l.filter fun c => c.itemId = itemId

/-- The appearances of an item are its candidates. -/
theorem mem_appearancesOf {itemId : String} {l : List LaneCandidate} {c : LaneCandidate} :
    c ∈ appearancesOf itemId l ↔ c ∈ l ∧ c.itemId = itemId := by
  rw [appearancesOf, List.mem_filter, decide_eq_true_iff]

/-- Items are grouped with all of their appearances. -/
theorem mem_groupByItem {results : LaneResults} {e : Entry} : e ∈ groupByItem results
    ↔ (∃ c ∈ hits results, c.itemId = e.1) ∧ e.2 = appearancesOf e.1 (hits results) := by
  obtain ⟨itemId, l⟩ := e
  rw [groupByItem, Dict.mem_groupBy_iff, List.mem_map]
  rfl

/-- The appearances in order do not depend on the order inside the lanes. -/
theorem orderedAppearances_eq {results results' : LaneResults} (hvalid : results.Valid)
    (hvalid' : results'.Valid)
    (h : results.Permuted results') (itemId : String) :
    orderedAppearances (appearancesOf itemId (hits results))
    = orderedAppearances (appearancesOf itemId (hits results')) := by
  have hsplit : ∀ r : LaneResults, appearancesOf itemId (hits r)
      = ((blocks r).map (appearancesOf itemId)).flatten := by
    intro r
    rw [appearancesOf, hits, List.filter_flatten]
    rfl
  have hkeys : ∀ r : LaneResults, r.Valid → ∀ b ∈ (blocks r).map (appearancesOf itemId),
      b.Pairwise fun x y => toLex (lanePriority x.lane, x.laneRank)
      ≠ toLex (lanePriority y.lane, y.laneRank) := by
    intro r hr b hb
    obtain ⟨block, hblock, rfl⟩ := List.mem_map.mp hb
    obtain ⟨lane, hlane⟩ := mem_blocks hblock
    have hranks := List.pairwise_map.mp (hr.ranks_nodup (lane, block) hlane)
    refine (hranks.filter _).imp fun hne heq => hne ?_
    exact (Prod.mk.inj (toLex.injective heq)).2
  rw [hsplit, hsplit]
  refine sort_flatten_congr ?_ (hkeys results hvalid) (hkeys results' hvalid')
  refine List.forall₂_map_left_iff.mpr (List.forall₂_map_right_iff.mpr ?_)
  exact (h.blocks_perm hvalid.lanes_nodup).imp fun _ _ hb => hb.filter _

theorem LaneResults.Permuted.all_perm {results results' : LaneResults}
    (h : results.Permuted results') :
    results.all.Perm results'.all := by
  obtain ⟨lanes, hp, hl⟩ := h
  refine (hp.flatMap_right _).trans ?_
  clear hp
  induction hl with
  | nil => exact List.Perm.refl _
  | cons hl _ ih =>
      rw [LaneResults.all, List.flatMap_cons, List.flatMap_cons]
      exact hl.2.append ih

/-- The promises of the lanes survive a permutation. -/
theorem LaneResults.Permuted.valid {results results' : LaneResults} (h : results.Permuted results')
    (hvalid : results.Valid) : results'.Valid where
  lanes_nodup := h.keys_perm.nodup_iff.mp hvalid.lanes_nodup
  ranks_pos c hc := hvalid.ranks_pos c (h.all_perm.mem_iff.mpr hc)
  ranks_nodup lane hlane := by
    obtain ⟨lanes, hp, hl⟩ := h
    obtain ⟨l, hmem, -, hperm⟩ := mem_of_forall₂_left hl hlane
    exact (hperm.map _).nodup_iff.mp (hvalid.ranks_nodup l (hp.mem_iff.mpr hmem))
  provenance c hc c' hc' :=
    hvalid.provenance c (h.all_perm.mem_iff.mpr hc) c' (h.all_perm.mem_iff.mpr hc')

/-- **Permuted results group an item alike**, whatever order its candidates come in. -/
theorem itemOf_eq {results results' : LaneResults} (hvalid : results.Valid)
    (h : results.Permuted results')
    {c : LaneCandidate} (hc : c ∈ hits results) :
    itemOf (c.itemId, appearancesOf c.itemId (hits results))
    = itemOf (c.itemId, appearancesOf c.itemId (hits results')) := by
  have hvalid' := h.valid hvalid
  have hhits : (hits results).Perm (hits results') :=
    ((hits_perm hvalid.lanes_nodup).trans h.all_perm).trans (hits_perm hvalid'.lanes_nodup).symm
  have hsame : ∀ a ∈ appearancesOf c.itemId (hits results), provenanceKey a = provenanceKey c := by
    intro a ha
    obtain ⟨hmem, hid⟩ := mem_appearancesOf.mp ha
    exact hvalid.provenance a ((mem_hits hvalid.lanes_nodup).mp hmem) c
      ((mem_hits hvalid.lanes_nodup).mp hc) hid
  have happ :
    (appearancesOf c.itemId (hits results)).Perm (appearancesOf c.itemId (hits results')) :=
    hhits.filter _
  have hself : c ∈ appearancesOf c.itemId (hits results) := mem_appearancesOf.mpr ⟨hc, rfl⟩
  have hprov : provenanceOf (c.itemId, appearancesOf c.itemId (hits results))
      = provenanceOf (c.itemId, appearancesOf c.itemId (hits results')) :=
    (provenanceOf_eq hself hsame).trans
      (provenanceOf_eq (happ.mem_iff.mp hself) fun a ha => hsame a (happ.mem_iff.mpr ha)).symm
  simp only [itemOf, hprov, bestRank_perm happ, orderedAppearances_eq hvalid hvalid' h]

/-- No two groups have one item. -/
theorem nodup_ids_groupByItem (results : LaneResults) :
    (groupByItem results).Pairwise fun e e' => e.1 ≠ e'.1 :=
  Dict.pairwise_keys_groupBy _ _

/-- The items are those of the hits. -/
theorem mem_map_itemOf {results : LaneResults} {x : Item} : x ∈ (groupByItem results).map itemOf
    ↔ ∃ c ∈ hits results, x = itemOf (c.itemId, appearancesOf c.itemId (hits results)) := by
  rw [List.mem_map]
  constructor
  · rintro ⟨e, he, rfl⟩
    obtain ⟨⟨c, hc, hid⟩, hl⟩ := mem_groupByItem.mp he
    refine ⟨c, hc, ?_⟩
    rw [hid, ← hl]
  · rintro ⟨c, hc, rfl⟩
    exact ⟨_, mem_groupByItem.mpr ⟨⟨c, hc, rfl⟩, rfl⟩, rfl⟩

/-- **The items of permuted inputs are permuted.** -/
theorem items_perm {results results' : LaneResults} (hvalid : results.Valid)
    (h : results.Permuted results') :
    ((groupByItem results).map itemOf).Perm ((groupByItem results').map itemOf) := by
  have hnodup : ∀ r : LaneResults, ((groupByItem r).map itemOf).Nodup := by
    intro r
    refine List.pairwise_map.mpr ((nodup_ids_groupByItem r).imp fun hne heq => hne ?_)
    exact congrArg Item.itemId heq
  have hhits : ∀ c, c ∈ hits results ↔ c ∈ hits results' := by
    intro c
    rw [mem_hits hvalid.lanes_nodup, mem_hits (h.valid hvalid).lanes_nodup]
    exact h.all_perm.mem_iff
  refine (List.perm_ext_iff_of_nodup (hnodup results) (hnodup results')).mpr fun x => ?_
  rw [mem_map_itemOf, mem_map_itemOf]
  constructor
  · rintro ⟨c, hc, rfl⟩
    exact ⟨c, (hhits c).mp hc, itemOf_eq hvalid h hc⟩
  · rintro ⟨c, hc, rfl⟩
    exact ⟨c, (hhits c).mpr hc, (itemOf_eq hvalid h ((hhits c).mpr hc)).symm⟩

/-! ## Survivors and decisions -/

/-- The order of the survivors of one provenance. -/
def Item.key (x : Item) : ℕ ×ₗ String := toLex (x.rank, x.itemId)

/-- The decision about the items of one provenance. -/
def mergeDecision (provenance : List String) (items : List Item) : Option RetrievalDecision :=
  match items.argmin Item.key with
  | none => none
  | some winner =>
      if 1 < items.length then
        some ⟨"dedupe", "provenance_merge", sortBy id (items.map Item.itemId),
          .dedupe provenance winner.itemId
          (sortBy id ((items.map Item.itemId).filter (· ≠ winner.itemId))), none⟩
      else none

/-- A decision of the source is the abstract decision on the class. -/
theorem dedupeDecision_eq (cls : List String × List Entry) :
    dedupeDecision cls = mergeDecision cls.1 (cls.2.map itemOf) := by
  rw [dedupeDecision, mergeDecision, argmin_map, List.length_map, List.map_map]
  show _ = match (cls.2.argmin survivorKey).map itemOf with | none => none | some winner => _
  cases cls.2.argmin survivorKey <;> rfl

/-- The provenances, in order. -/
def provenances (byItem : List Entry) : List (List String) :=
  sortBy id (Dict.groupBy provenanceOf byItem).keys

/-- The provenances are those of the items. -/
theorem mem_provenances {byItem : List Entry} {key : List String} :
    key ∈ provenances byItem ↔ ∃ x ∈ byItem.map itemOf, x.provenance = key := by
  rw [provenances, mem_sortBy, ← Dict.get?_isSome_iff, Dict.get?_groupBy]
  split_ifs with h
  · obtain ⟨e, he, rfl⟩ := List.mem_map.mp h
    exact iff_of_true rfl ⟨itemOf e, List.mem_map_of_mem he, rfl⟩
  · refine iff_of_false (by decide) ?_
    rintro ⟨x, hx, rfl⟩
    obtain ⟨e, he, rfl⟩ := List.mem_map.mp hx
    exact h (List.mem_map_of_mem he)

theorem nodup_provenances (byItem : List Entry) : (provenances byItem).Nodup :=
  (sortBy_perm id _).nodup_iff.mpr (Dict.nodup_keys_groupBy _ _)

/-- The items of one provenance. -/
def classOf (items : List Item) (key : List String) : List Item :=
  items.filter fun x => x.provenance = key

/-- The classes hold, in the order of the provenances, the items of each of them. -/
theorem provenanceClasses_eq (byItem : List Entry) : provenanceClasses byItem
    = (provenances byItem).map fun key => (key, byItem.filter fun e => provenanceOf e = key) := by
  refine List.map_congr_left fun key hkey => ?_
  rw [mem_sortBy, ← Dict.get?_isSome_iff, Dict.get?_groupBy] at hkey
  rw [Dict.get?_groupBy]
  split_ifs at hkey ⊢ with h
  · rfl
  · cases hkey

theorem map_filter_provenance (byItem : List Entry) (key : List String) :
    (byItem.filter fun e => provenanceOf e = key).map itemOf = classOf (byItem.map itemOf) key := by
  rw [classOf, List.filter_map]
  rfl

/-- **The survivors of the source** are the least items of the classes. -/
theorem survivors_eq (byItem : List Entry) : (dedupe byItem).1.map itemOf
    = (provenances byItem).filterMap fun key =>
    (classOf (byItem.map itemOf) key).argmin Item.key := by
  rw [dedupe, provenanceClasses_eq, List.filterMap_map, List.map_filterMap]
  refine List.filterMap_congr fun key _ => ?_
  rw [← map_filter_provenance, argmin_map]
  rfl

/-- The decisions of the source are the abstract ones, class by class. -/
theorem decisions_eq (byItem : List Entry) : (dedupe byItem).2
    = (provenances byItem).filterMap fun key =>
    mergeDecision key (classOf (byItem.map itemOf) key) := by
  show (provenanceClasses byItem).filterMap dedupeDecision = _
  rw [provenanceClasses_eq, List.filterMap_map]
  refine List.filterMap_congr fun key _ => ?_
  rw [← map_filter_provenance]
  exact dedupeDecision_eq _

/-- The order of provenances depends only on which items there are. -/
theorem provenances_eq {byItem byItem' : List Entry}
    (h : (byItem.map itemOf).Perm (byItem'.map itemOf)) :
    provenances byItem = provenances byItem' := by
  refine sortBy_eq_of_perm ?_ fun a _ b _ hab => hab
  refine (List.perm_ext_iff_of_nodup (Dict.nodup_keys_groupBy _ _)
    (Dict.nodup_keys_groupBy _ _)).mpr fun key => ?_
  have hmem : ∀ es : List Entry, key ∈ (Dict.groupBy provenanceOf es).keys ↔ ∃ x ∈ es.map itemOf,
      x.provenance = key := by
    intro es
    rw [← mem_provenances, provenances, mem_sortBy]
  rw [hmem, hmem]
  simp only [h.mem_iff]

/-- Distinct items have distinct ids. -/
def IdsDistinct (items : List Item) : Prop := ∀ x ∈ items, ∀ y ∈ items, x.itemId = y.itemId → x = y

theorem idsDistinct_groupByItem (results : LaneResults) :
    IdsDistinct ((groupByItem results).map itemOf) := by
  intro x hx y hy hid
  obtain ⟨c, -, rfl⟩ := mem_map_itemOf.mp hx
  obtain ⟨c', -, rfl⟩ := mem_map_itemOf.mp hy
  have hc : c.itemId = c'.itemId := hid
  rw [hc]

theorem IdsDistinct.classOf {items : List Item} (h : IdsDistinct items) (key : List String) :
    IdsDistinct (classOf items key) :=
  fun x hx y hy => h x (List.mem_of_mem_filter hx) y (List.mem_of_mem_filter hy)

/-- With distinct identifiers the least item is the same in every order. -/
theorem IdsDistinct.argmin_eq {items items' : List Item} (h : IdsDistinct items)
    (hp : items.Perm items') :
    items.argmin Item.key = items'.argmin Item.key :=
  argmin_eq_of_perm hp fun x hx y hy hkey => h x hx y hy (Prod.mk.inj (toLex.injective hkey)).2

/-- With distinct identifiers the decision is the same in every order. -/
theorem IdsDistinct.mergeDecision_eq {items items' : List Item} (h : IdsDistinct items)
    (hp : items.Perm items')
    (provenance : List String) :
    mergeDecision provenance items = mergeDecision provenance items' := by
  have hsort : ∀ {l l' : List String}, l.Perm l' → sortBy id l = sortBy id l' :=
    fun hl => sortBy_eq_of_perm hl fun a _ b _ hab => hab
  rw [mergeDecision, mergeDecision, h.argmin_eq hp, hp.length_eq, hsort (hp.map Item.itemId)]
  cases items'.argmin Item.key with
  | none => rfl
  | some winner => simp only [hsort ((hp.map Item.itemId).filter (· ≠ winner.itemId))]

/-- **Permuted items have the same survivors and the same decisions.** -/
theorem dedupe_congr {byItem byItem' : List Entry} (hids : IdsDistinct (byItem.map itemOf))
    (h : (byItem.map itemOf).Perm (byItem'.map itemOf)) :
    (dedupe byItem).1.map itemOf = (dedupe byItem').1.map itemOf ∧
    (dedupe byItem).2 = (dedupe byItem').2 := by
  have hclass : ∀ key, (classOf (byItem.map itemOf) key).Perm (classOf (byItem'.map itemOf) key) :=
    fun key => h.filter _
  constructor
  · rw [survivors_eq, survivors_eq, provenances_eq h]
    exact List.filterMap_congr fun key _ => (hids.classOf key).argmin_eq (hclass key)
  · rw [decisions_eq, decisions_eq, provenances_eq h]
    exact List.filterMap_congr fun key _ => (hids.classOf key).mergeDecision_eq (hclass key) key

/-- The fusion of the survivors reads their items only. -/
theorem fuseSurvivors_eq (ctx : Decimal.Context) (survivors : List Entry) :
    fuseSurvivors ctx survivors
    = ((survivors.map itemOf).mapM fun x => fuseSurvivor ctx x.itemId x.ordered) >>= fun scored =>
      return rankAll (sortBy scoreKey scored) := by
  rw [List.mapM_map]
  rfl

/-- **Fusion does not depend on the order of its input**, in any context. -/
theorem fuse_congr (ctx : Decimal.Context) {results results' : LaneResults} (hvalid : results.Valid)
    (h : results.Permuted results')
    (fusedTopK : ℤ) (reranker : Reranker) (now : Option String) :
    fuse ctx results fusedTopK reranker now = fuse ctx results' fusedTopK reranker now := by
  obtain ⟨hsurvivors, hdecisions⟩ :=
    dedupe_congr (idsDistinct_groupByItem results) (items_perm hvalid h)
  have hfused : fuseSurvivors ctx (dedupe (groupByItem results)).1
      = fuseSurvivors ctx (dedupe (groupByItem results')).1 := by
    rw [fuseSurvivors_eq, fuseSurvivors_eq, hsurvivors]
  simp only [fuse, hfused, hdecisions]

/-! ## What is fused -/

/-- The best rank of an item in any lane. -/
def LaneResults.rankOf (results : LaneResults) (itemId : String) : ℕ :=
  bestRank (appearancesOf itemId results.all)

/-- The item of a hit is the survivor of its provenance: none has a better rank, or the same one and
a smaller id. -/
def LaneResults.Survives (results : LaneResults) (c : LaneCandidate) : Prop :=
  ∀ c' ∈ results.all, provenanceKey c' = provenanceKey c →
    toLex (results.rankOf c.itemId, c.itemId) ≤ toLex (results.rankOf c'.itemId, c'.itemId)

/-- The survivor that a dedupe decision names for an item it lists as merged. -/
def RetrievalDecision.mergesInto (itemId : String) (d : RetrievalDecision) : Option String :=
  match d.detail with
  | .dedupe _ survivor merged => if d.stage = "dedupe" ∧ itemId ∈ merged then some survivor
      else none
  | _ => none

/-- A candidate stands before another one: a higher score, or the same one and a smaller id. -/
def FusedCandidate.Before (f g : FusedCandidate) : Prop :=
  g.score < f.score ∨ f.score = g.score ∧ f.itemId < g.itemId

/-- The survivors and the decisions that fusion makes of a mapping. -/
structure IsFusion (results : LaneResults) (ranked : List FusedCandidate)
    (decisions : List RetrievalDecision) : Prop where
  survivor : ∀ f ∈ ranked, ∃ s ∈ results.all, s.itemId = f.itemId ∧ results.Survives s
  /-- Exactly one survivor for each provenance. -/
  unique : ∀ c ∈ results.all, ∃! f, f ∈ ranked ∧ ∃ s ∈ results.all, s.itemId = f.itemId ∧
    provenanceKey s = provenanceKey c
  /-- An item is a survivor, or exactly one decision merges it into the survivor of its provenance.
  -/
  kept : ∀ c ∈ results.all, (∃ f ∈ ranked, f.itemId = c.itemId) ∨ ∃ f ∈ ranked,
    (∃ s ∈ results.all, s.itemId = f.itemId ∧ provenanceKey s = provenanceKey c)
      ∧ decisions.filterMap (RetrievalDecision.mergesInto c.itemId) = [f.itemId]
  /-- Every appearance contributes. -/
  contributions :
    ∀ f ∈ ranked, f.contributions.Perm ((appearancesOf f.itemId results.all).map contributionOf)
  rank : ∀ i f, ranked[i]? = some f → f.fusedRank = i + 1
  before : ranked.Pairwise FusedCandidate.Before

/-! ### Items and hits -/

/-- The item with an id. -/
def itemAt (results : LaneResults) (itemId : String) : Item :=
  itemOf (itemId, appearancesOf itemId (hits results))

section Spec

variable {results : LaneResults}

/-- The items of valid results are those of their candidates. -/
theorem mem_items (hvalid : results.Valid) {x : Item} :
    x ∈ (groupByItem results).map itemOf ↔ ∃ c ∈ results.all, x = itemAt results c.itemId := by
  rw [mem_map_itemOf]
  simp only [mem_hits hvalid.lanes_nodup]
  rfl

/-- The appearances among the hits are those among all candidates. -/
theorem appearancesOf_hits_perm (hvalid : results.Valid) (itemId : String) :
    (appearancesOf itemId (hits results)).Perm (appearancesOf itemId results.all) :=
  (hits_perm hvalid.lanes_nodup).filter _

/-- An item has the best rank among its candidates. -/
theorem rank_itemAt (hvalid : results.Valid) (itemId : String) :
    (itemAt results itemId).rank = results.rankOf itemId :=
  bestRank_perm (appearancesOf_hits_perm hvalid itemId)

/-- Items are compared by rank and then by identifier. -/
theorem key_itemAt (hvalid : results.Valid) (itemId : String) :
    (itemAt results itemId).key = toLex (results.rankOf itemId, itemId) := by
  rw [Item.key, rank_itemAt hvalid]
  rfl

/-- An item has the provenance that all of its candidates name. -/
theorem provenance_itemAt (hvalid : results.Valid) {c : LaneCandidate} (hc : c ∈ results.all) :
    (itemAt results c.itemId).provenance = provenanceKey c := by
  refine provenanceOf_eq (mem_appearancesOf.mpr ⟨(mem_hits hvalid.lanes_nodup).mpr hc, rfl⟩) fun a
    ha => ?_
  obtain ⟨hmem, hid⟩ := mem_appearancesOf.mp ha
  exact hvalid.provenance a ((mem_hits hvalid.lanes_nodup).mp hmem) c hc hid

/-- The ordered appearances of an item are its candidates. -/
theorem ordered_itemAt (hvalid : results.Valid) (itemId : String) :
    (itemAt results itemId).ordered.Perm (appearancesOf itemId results.all) :=
  (sortBy_perm _ _).trans (appearancesOf_hits_perm hvalid itemId)

theorem ordered_itemAt_ne_nil (hvalid : results.Valid) {c : LaneCandidate} (hc : c ∈ results.all) :
    (itemAt results c.itemId).ordered ≠ [] := by
  intro hnil
  have hmem : c ∈ (itemAt results c.itemId).ordered :=
    (ordered_itemAt hvalid c.itemId).mem_iff.mpr (mem_appearancesOf.mpr ⟨hc, rfl⟩)
  rw [hnil] at hmem
  cases hmem

/-! ### The survivors -/

/-- The items of the survivors, by provenance. -/
def survivorItems (results : LaneResults) : List Item := (dedupe (groupByItem results)).1.map itemOf

/-- A class holds the items of its provenance. -/
theorem mem_classOf {items : List Item} {key : List String} {x : Item} :
    x ∈ classOf items key ↔ x ∈ items ∧ x.provenance = key := by
  rw [classOf, List.mem_filter, decide_eq_true_iff]

/-- The class of an item has a least item. -/
theorem exists_winner {items : List Item} {x : Item} (hx : x ∈ items) :
    ∃ w, (classOf items x.provenance).argmin Item.key = some w := by
  refine Option.ne_none_iff_exists'.mp fun hnone => ?_
  have hmem := mem_classOf.mpr ⟨hx, rfl⟩
  rw [List.argmin_eq_none.mp hnone] at hmem
  cases hmem

/-- **The survivors** are the least items of their provenances. -/
theorem mem_survivorItems {w : Item} : w ∈ survivorItems results
    ↔ (classOf ((groupByItem results).map itemOf) w.provenance).argmin Item.key = some w := by
  rw [survivorItems, survivors_eq, List.mem_filterMap]
  constructor
  · rintro ⟨key, -, hw⟩
    have hkey := (mem_classOf.mp (List.argmin_mem hw)).2
    rw [hkey]
    exact hw
  · intro hw
    have hmem := (mem_classOf.mp (List.argmin_mem hw)).1
    exact ⟨w.provenance, mem_provenances.mpr ⟨w, hmem, rfl⟩, hw⟩

theorem mem_items_of_survivor {w : Item} (hw : w ∈ survivorItems results) :
    w ∈ (groupByItem results).map itemOf :=
  (mem_classOf.mp (List.argmin_mem (mem_survivorItems.mp hw))).1

/-- A survivor stands before every item of its provenance. -/
theorem key_le_of_survivor {w x : Item} (hw : w ∈ survivorItems results)
    (hx : x ∈ (groupByItem results).map itemOf)
    (hprov : x.provenance = w.provenance) : w.key ≤ x.key :=
  List.le_of_mem_argmin (mem_classOf.mpr ⟨hx, hprov⟩) (mem_survivorItems.mp hw)

/-- **No provenance is lost**: every item has a survivor of its provenance. -/
theorem exists_survivor {x : Item} (hx : x ∈ (groupByItem results).map itemOf) :
    ∃ w ∈ survivorItems results, w.provenance = x.provenance := by
  obtain ⟨w, hw⟩ := exists_winner hx
  have hprov := (mem_classOf.mp (List.argmin_mem hw)).2
  exact ⟨w, mem_survivorItems.mpr (hprov.symm ▸ hw), hprov⟩

/-- A provenance has one survivor. -/
theorem eq_of_survivors {w w' : Item} (hw : w ∈ survivorItems results)
    (hw' : w' ∈ survivorItems results)
    (hprov : w.provenance = w'.provenance) : w = w' := by
  rw [mem_survivorItems] at hw hw'
  rw [hprov] at hw
  exact Option.some.inj (hw.symm.trans hw')

/-- No two survivors have one identifier. -/
theorem pairwise_ids_survivorItems (results : LaneResults) :
    (survivorItems results).Pairwise fun w w' => w.itemId ≠ w'.itemId := by
  rw [survivorItems, survivors_eq]
  refine List.Pairwise.filterMap _ (fun key key' hne w hw w' hw' hid => hne ?_)
    (nodup_provenances _)
  obtain ⟨hmem, hkey⟩ := mem_classOf.mp (List.argmin_mem hw)
  obtain ⟨hmem', hkey'⟩ := mem_classOf.mp (List.argmin_mem hw')
  rw [← hkey, ← hkey', idsDistinct_groupByItem results w hmem w' hmem' hid]

/-! ### The decisions -/

/-- A selection that takes one element of a list of distinct ones is a singleton. -/
theorem filterMap_eq_singleton {α β : Type} {f : α → Option β} {l : List α} (hl : l.Nodup) {a : α}
    {b : β} (ha : a ∈ l)
    (hf : f a = some b) (hother : ∀ x ∈ l, x ≠ a → f x = none) : l.filterMap f = [b] := by
  obtain ⟨l₁, l₂, rfl⟩ := List.append_of_mem ha
  have hnotin : a ∉ l₁ ++ l₂ := (List.nodup_cons.mp ((List.perm_middle.nodup_iff).mp hl)).1
  rw [List.mem_append, not_or] at hnotin
  have hnone : ∀ x ∈ l₁ ++ a :: l₂, x ≠ a → f x = none := hother
  have hleft : l₁.filterMap f = [] := by
    refine List.filterMap_eq_nil_iff.mpr fun x hx => hnone x (by simp [hx]) ?_
    rintro rfl
    exact hnotin.1 hx
  have hright : l₂.filterMap f = [] := by
    refine List.filterMap_eq_nil_iff.mpr fun x hx => hnone x (by simp [hx]) ?_
    rintro rfl
    exact hnotin.2 hx
  rw [List.filterMap_append, List.filterMap_cons_some hf, hleft, hright, List.nil_append]

/-- What the decision about a provenance says of an item. -/
theorem mergesInto_mergeDecision {items : List Item} {key : List String} {w : Item}
    (hw : items.argmin Item.key = some w) (itemId : String) :
    (mergeDecision key items).bind (RetrievalDecision.mergesInto itemId)
      = if 1 < items.length ∧ (∃ x ∈ items, x.itemId = itemId) ∧
      itemId ≠ w.itemId then some w.itemId else none := by
  rw [mergeDecision, hw]
  by_cases hlen : 1 < items.length
  · simp [hlen, RetrievalDecision.mergesInto]
  · simp [hlen]

/-- **An item that does not survive is merged by the decision of its provenance alone.** -/
theorem filterMap_mergesInto {items : List Item} (hids : IdsDistinct items)
    {keys : List (List String)} (hkeys : keys.Nodup)
    {x w : Item} (hx : x ∈ items) (hkey : x.provenance ∈ keys)
    (hw : (classOf items x.provenance).argmin Item.key = some w) (hne : x.itemId ≠ w.itemId) :
    (keys.filterMap fun key => mergeDecision key (classOf items key)).filterMap
    (RetrievalDecision.mergesInto x.itemId)
      = [w.itemId] := by
  rw [List.filterMap_filterMap]
  refine filterMap_eq_singleton hkeys hkey ?_ fun key _ hother => ?_
  · have hmem := mem_classOf.mpr ⟨hx, rfl⟩
    have hlen : 1 < (classOf items x.provenance).length :=
      one_lt_length_of_ne hmem (List.argmin_mem hw) fun heq => hne (congrArg Item.itemId heq)
    rw [mergesInto_mergeDecision hw, if_pos ⟨hlen, ⟨x, hmem, rfl⟩, hne⟩]
  · cases hv : (classOf items key).argmin Item.key with
    | none => rw [mergeDecision, hv]; rfl
    | some v =>
        rw [mergesInto_mergeDecision hv, if_neg]
        rintro ⟨-, ⟨y, hy, hid⟩, -⟩
        obtain ⟨hmem, hprov⟩ := mem_classOf.mp hy
        rw [hids y hmem x hx hid] at hprov
        exact hother hprov.symm

/-! ### The ranking -/

/-- The rank of a candidate is its place, counted from one. -/
theorem getElem?_rankAll (scored : List (Decimal × FusedCandidate)) (i : ℕ) :
    (rankAll scored)[i]? = scored[i]?.map fun s => { s.2 with fusedRank := i + 1 } := by
  rw [rankAll, List.getElem?_map, List.getElem?_zipIdx]
  cases scored[i]? with
  | none => rfl
  | some s => simp [Nat.add_comm]

/-- Ranking changes nothing of a candidate but its rank. -/
theorem mem_rankAll {scored : List (Decimal × FusedCandidate)} {f : FusedCandidate}
    (h : f ∈ rankAll scored) :
    ∃ s ∈ scored, ∃ r, f = { s.2 with fusedRank := r } := by
  obtain ⟨⟨s, r⟩, hs, rfl⟩ := List.mem_map.mp h
  refine ⟨s, ?_, r, rfl⟩
  rw [← List.zipIdx_map_fst 1 scored]
  exact List.mem_map_of_mem hs

/-- Every scored candidate is ranked. -/
theorem exists_mem_rankAll {scored : List (Decimal × FusedCandidate)} {s : Decimal × FusedCandidate}
    (h : s ∈ scored) :
    ∃ r, { s.2 with fusedRank := r } ∈ rankAll scored := by
  obtain ⟨i, hi⟩ := List.mem_iff_getElem?.mp h
  refine ⟨i + 1, List.mem_iff_getElem?.mpr ⟨i, ?_⟩⟩
  rw [getElem?_rankAll, hi]
  rfl

/-- **The ranking is strict** when the ids are distinct. -/
theorem pairwise_rankAll {scored : List (Decimal × FusedCandidate)}
    (hscore : ∀ s ∈ scored, s.2.score = s.1.value)
    (hids : scored.Pairwise fun s s' => s.2.itemId ≠ s'.2.itemId) :
    (rankAll (sortBy scoreKey scored)).Pairwise fun f g => f.itemId ≠ g.itemId ∧ f.Before g := by
  have hsorted : (sortBy scoreKey scored).Pairwise fun s s' => s.2.itemId ≠ s'.2.itemId :=
    ((sortBy_perm scoreKey scored).pairwise_iff fun h => h.symm).mpr hids
  have hbefore : (sortBy scoreKey scored).Pairwise fun s s' => s.2.itemId ≠ s'.2.itemId ∧
      s.2.Before s'.2 := by
    refine (hsorted.and (pairwise_key_sortBy scoreKey scored)).imp_of_mem fun {s s'} hs hs' ⟨hne,
      hle⟩ => ⟨hne, ?_⟩
    rw [FusedCandidate.Before, hscore s (mem_sortBy.mp hs), hscore s' (mem_sortBy.mp hs')]
    rcases Prod.Lex.le_iff.mp hle with hlt | ⟨heq, hid⟩
    · exact .inl (neg_lt_neg_iff.mp hlt)
    · exact .inr ⟨neg_injective heq, lt_of_le_of_ne hid hne⟩
  rw [← List.zipIdx_map_fst 1 (sortBy scoreKey scored)] at hbefore
  refine List.pairwise_map.mpr ?_
  exact (List.pairwise_map.mp hbefore).imp fun h => h

/-- What a candidate keeps of the item it stands for. -/
structure StandsFor (f : FusedCandidate) (w : Item) : Prop where
  itemId : f.itemId = w.itemId
  contributions : f.contributions = w.ordered.map contributionOf
  exact : f.termSum < 10 ^ 16 → f.score = f.termSum

/-- Scoring keeps the identifiers and their order. -/
theorem ids_of_mapM {items : List Item} {scored : List (Decimal × FusedCandidate)}
    (h : (items.mapM fun x => fuseSurvivor defaultContext x.itemId x.ordered) = .ok scored) :
    (scored.map fun s => s.2.itemId) = items.map Item.itemId := by
  rw [Except.mapM_eq_ok_iff] at h
  induction h with
  | nil => rfl
  | cons hs _ ih => rw [List.map_cons, List.map_cons, ih, fuseSurvivor_itemId hs]

/-- **The survivors are ranked**, each with the contributions of its item. -/
theorem exists_ranked (hvalid : results.Valid) :
    ∃ ranked, fuseSurvivors defaultContext (dedupe (groupByItem results)).1 = .ok ranked
    ∧ (∀ f ∈ ranked, ∃ w ∈ survivorItems results, StandsFor f w)
    ∧ (∀ w ∈ survivorItems results, ∃ f ∈ ranked, StandsFor f w)
    ∧ ranked.Pairwise (fun f g => f.itemId ≠ g.itemId ∧ f.Before g)
    ∧ ∀ i f, ranked[i]? = some f → f.fusedRank = i + 1 := by
  -- every item fuses
  have hspec : ∀ w ∈ survivorItems results, ∃ s, fuseSurvivor defaultContext w.itemId w.ordered
      = .ok s ∧ s.2.score = s.1.value
      ∧ ∀ r, StandsFor { s.2 with fusedRank := r } w := by
    intro w hw
    obtain ⟨c, hc, rfl⟩ := (mem_items hvalid).mp (mem_items_of_survivor hw)
    obtain ⟨s, hs, hid, hcontr, hscore, hexact⟩ :=
      fuseSurvivor_spec (itemAt results c.itemId).itemId
      (ordered_itemAt_ne_nil hvalid hc)
    exact ⟨s, hs, hscore, fun r => ⟨hid, hcontr, hexact⟩⟩
  -- so all do
  obtain ⟨scored, hscored⟩ :
      ∃ scored,
        ((survivorItems results).mapM fun x => fuseSurvivor defaultContext x.itemId x.ordered)
        = .ok scored := by
    cases h :
      (survivorItems results).mapM fun x => fuseSurvivor defaultContext x.itemId x.ordered with
    | ok scored => exact ⟨scored, rfl⟩
    | error e =>
        obtain ⟨w, hw, herr⟩ := Except.mapM_eq_error h
        obtain ⟨s, hs, -⟩ := hspec w hw
        rw [hs] at herr
        cases herr
  -- and each score comes from an item
  have hback : ∀ s ∈ scored, s.2.score = s.1.value ∧ ∃ w ∈ survivorItems results, ∀ r,
      StandsFor { s.2 with fusedRank := r } w := by
    intro s hs
    obtain ⟨w, hw, hok⟩ := Except.exists_of_mem_mapM hscored hs
    obtain ⟨s', hs', hscore, hstands⟩ := hspec w hw
    rw [hok] at hs'
    cases hs'
    exact ⟨hscore, w, hw, hstands⟩
  -- one for each
  have hids : scored.Pairwise fun s s' => s.2.itemId ≠ s'.2.itemId := by
    have hnodup : ((survivorItems results).map Item.itemId).Nodup :=
      List.pairwise_map.mpr (pairwise_ids_survivorItems results)
    rw [← ids_of_mapM hscored] at hnodup
    exact List.pairwise_map.mp hnodup
  refine ⟨rankAll (sortBy scoreKey scored), ?_, fun f hf => ?_, fun w hw => ?_,
    pairwise_rankAll (fun s hs => (hback s hs).1) hids, fun i f hf => ?_⟩
  · rw [fuseSurvivors_eq]
    show ((survivorItems results).mapM _ >>= _) = _
    rw [hscored]
    rfl
  · obtain ⟨s, hs, r, rfl⟩ := mem_rankAll hf
    obtain ⟨-, w, hw, hstands⟩ := hback s (mem_sortBy.mp hs)
    exact ⟨w, hw, hstands r⟩
  · obtain ⟨s, hs, hok⟩ := Except.mapM_ok_of_mem hscored hw
    obtain ⟨s', hs', -, hstands⟩ := hspec w hw
    rw [hok] at hs'
    cases hs'
    obtain ⟨r, hr⟩ := exists_mem_rankAll ((sortBy_perm scoreKey scored).mem_iff.mpr hs)
    exact ⟨_, hr, hstands r⟩
  · rw [getElem?_rankAll, Option.map_eq_some_iff] at hf
    obtain ⟨s, -, rfl⟩ := hf
    rfl

/-! ### The result -/

/-- **Fusion returns** the first of the ranked survivors, and its decisions account for every item.
A sum of contributions below 10¹⁶ has at most 28 digits, so that it is exact. -/
theorem fuse_spec (hvalid : results.Valid) {fusedTopK : ℤ} (hk : 0 ≤ fusedTopK)
    (now : Option String) :
    ∃ result ranked, fuse defaultContext results fusedTopK noopReranker now = .ok result
      ∧ result.candidates = ranked.take fusedTopK.toNat ∧ IsFusion results ranked result.decisions
      ∧ ∀ f ∈ ranked, f.termSum < 10 ^ 16 → f.score = f.termSum := by
  obtain ⟨ranked, hranked, hback, hforth, hpairs, hranks⟩ := exists_ranked hvalid
  -- a candidate, its item and its hit
  have hhit : ∀ f w, w ∈ survivorItems results → StandsFor f w →
      ∃ s ∈ results.all, s.itemId = f.itemId ∧ w = itemAt results s.itemId ∧
        provenanceKey s = w.provenance := by
    intro f w hw hstands
    obtain ⟨s, hs, rfl⟩ := (mem_items hvalid).mp (mem_items_of_survivor hw)
    exact ⟨s, hs, hstands.itemId.symm, rfl, (provenance_itemAt hvalid hs).symm⟩
  have hitem : ∀ c ∈ results.all, itemAt results c.itemId ∈ (groupByItem results).map itemOf :=
    fun c hc => (mem_items hvalid).mpr ⟨c, hc, rfl⟩
  have hsame : ∀ f ∈ ranked, ∀ g ∈ ranked, f.itemId = g.itemId → f = g := by
    intro f hf g hg hid
    have hnodup : (ranked.map FusedCandidate.itemId).Nodup :=
      List.pairwise_map.mpr (hpairs.imp And.left)
    exact List.inj_on_of_nodup_map hnodup hf hg hid
  have hexists : ∀ c ∈ results.all, ∃ f ∈ ranked, ∃ w ∈ survivorItems results,
      StandsFor f w ∧ w.provenance = provenanceKey c := by
    intro c hc
    obtain ⟨w, hw, hprov⟩ := exists_survivor (hitem c hc)
    obtain ⟨f, hf, hstands⟩ := hforth w hw
    exact ⟨f, hf, w, hw, hstands, hprov.trans (provenance_itemAt hvalid hc)⟩
  refine ⟨_, ranked, by rw [fuse, if_neg (not_lt.mpr hk)]; simp only [hranked]; rfl, ?_, ?_, ?_⟩
  · show (ranked.take rerankTopN ++ ranked.drop rerankTopN).take fusedTopK.toNat = _
    rw [List.take_append_drop]
  · refine ⟨fun f hf => ?_, fun c hc => ?_, fun c hc => ?_, fun f hf => ?_, hranks,
    hpairs.imp And.right⟩
    · obtain ⟨w, hw, hstands⟩ := hback f hf
      obtain ⟨s, hs, hid, rfl, hprov⟩ := hhit f w hw hstands
      refine ⟨s, hs, hid, fun c' hc' hsameProv => ?_⟩
      have hle := key_le_of_survivor hw (hitem c' hc')
        ((provenance_itemAt hvalid hc').trans (hsameProv.trans hprov))
      rw [key_itemAt hvalid, key_itemAt hvalid] at hle
      exact hle
    · obtain ⟨f, hf, w, hw, hstands, hprov⟩ := hexists c hc
      obtain ⟨s, hs, hid, -, hsprov⟩ := hhit f w hw hstands
      refine ⟨f, ⟨hf, s, hs, hid, hsprov.trans hprov⟩, ?_⟩
      rintro g ⟨hg, s', hs', hid', hprov'⟩
      obtain ⟨w', hw', hstands'⟩ := hback g hg
      obtain ⟨s'', hs'', hid'', -, hsprov''⟩ := hhit g w' hw' hstands'
      have hsame' := hvalid.provenance s'' hs'' s' hs' (hid''.trans hid'.symm)
      have hww : w' = w :=
        eq_of_survivors hw' hw (hsprov''.symm.trans (hsame'.trans (hprov'.trans hprov.symm)))
      exact hsame g hg f hf
        (hstands'.itemId.trans ((congrArg Item.itemId hww).trans hstands.itemId.symm))
    · obtain ⟨f, hf, w, hw, hstands, hprov⟩ := hexists c hc
      by_cases hself : c.itemId = w.itemId
      · exact .inl ⟨f, hf, hstands.itemId.trans hself.symm⟩
      · obtain ⟨s, hs, hid, -, hsprov⟩ := hhit f w hw hstands
        refine .inr ⟨f, hf, ⟨s, hs, hid, hsprov.trans hprov⟩, ?_⟩
        have hargmin := mem_survivorItems.mp hw
        rw [hprov, ← provenance_itemAt hvalid hc] at hargmin
        have hmerged :=
          filterMap_mergesInto (idsDistinct_groupByItem results) (nodup_provenances _) (hitem c hc)
          (mem_provenances.mpr ⟨_, hitem c hc, rfl⟩) hargmin hself
        rw [← decisions_eq] at hmerged
        show (List.map _ ((dedupe (groupByItem results)).2 ++ _)).filterMap _ = _
        rw [List.filterMap_map, List.filterMap_append, hstands.itemId]
        exact congrArg (· ++ []) hmerged
    · obtain ⟨w, hw, hstands⟩ := hback f hf
      obtain ⟨s, -, hid, rfl, -⟩ := hhit f w hw hstands
      rw [hstands.contributions, ← hid]
      exact (ordered_itemAt hvalid s.itemId).map contributionOf
  · intro f hf
    obtain ⟨w, -, hstands⟩ := hback f hf
    exact hstands.exact

/-- **Fusion loses nothing and does not depend on the order of its input.** -/
theorem fusion_loses_nothing (hvalid : results.Valid) {fusedTopK : ℤ} (hk : 0 ≤ fusedTopK)
    (now : Option String) :
    (∃ result ranked, fuse defaultContext results fusedTopK noopReranker now = .ok result
      ∧ result.candidates = ranked.take fusedTopK.toNat ∧ IsFusion results ranked result.decisions
      ∧ ∀ f ∈ ranked, f.termSum < 10 ^ 16 → f.score = f.termSum)
    ∧ ∀ (ctx : Decimal.Context) (results' : LaneResults), results.Permuted results' →
      fuse ctx results' fusedTopK noopReranker now
      = fuse ctx results fusedTopK noopReranker now := by
  obtain ⟨result, ranked, hfuse, hcandidates, hfusion, hscores⟩ := fuse_spec hvalid hk now
  refine ⟨⟨result, ranked, hfuse, hcandidates, hfusion, hscores⟩, fun ctx results' h => ?_⟩
  exact (fuse_congr ctx hvalid h fusedTopK noopReranker now).symm

end Spec

/-- A hit on a span. -/
def spanHit (itemId lane : String) (laneRank : ℕ) (sourceSpanId : String) : LaneCandidate :=
  ⟨itemId, lane, laneRank, "0.5", "span", sourceSpanId, "v1", "d1", "2024-01-01", none, none, none⟩

/-- Three items in two lanes, two of them of one span. -/
def twoLanes : LaneResults :=
  [("dense", [spanHit "a" "dense" 2 "s1", spanHit "b" "dense" 1 "s1"]),
  ("lexical", [spanHit "c" "lexical" 1 "s2"])]

theorem twoLanes_valid : twoLanes.Valid where
  lanes_nodup := by decide
  ranks_pos := by decide
  ranks_nodup := by decide
  provenance := by decide

theorem fusion_loses_nothing_twoLanes :
    ∃ result ranked, fuse defaultContext twoLanes 2 noopReranker none = .ok result
    ∧ result.candidates = ranked.take 2 ∧ IsFusion twoLanes ranked result.decisions := by
  obtain ⟨⟨result, ranked, hfuse, hcandidates, hfusion, -⟩, -⟩ :=
    fusion_loses_nothing twoLanes_valid (show (0 : ℤ) ≤ 2 by decide) none
  exact ⟨result, ranked, hfuse, hcandidates, hfusion⟩

/-! ## A context of few digits -/

/-- A context that keeps the eleven digits of a term. -/
def shortContext : Decimal.Context := { defaultContext with prec := 11, prec_pos := by decide }

/-- One item, the first of every lane. -/
def sevenLanes : LaneResults :=
  ["dense", "lexical", "facts", "tables", "u", "v", "w"].map fun lane =>
  (lane, [spanHit "a" lane 1 "s1"])

theorem sevenLanes_valid : sevenLanes.Valid where
  lanes_nodup := by decide
  ranks_pos := by decide
  ranks_nodup := by decide
  provenance := by decide

/-- **In a context of eleven digits the score is not the sum of its contributions**, which has
twelve. -/
theorem sevenLanes_score_inexact : sevenLanes.Valid ∧
    ¬ ∃ result, fuse shortContext sevenLanes 1 noopReranker none = .ok result
      ∧ ∀ f ∈ result.candidates, f.score = f.termSum := by
  have hany : ((fuse shortContext sevenLanes 1 noopReranker none).toOption.any fun result =>
      result.candidates.any fun f => decide (f.score ≠ f.termSum)) = true := by
    decide +kernel
  refine ⟨sevenLanes_valid, ?_⟩
  rintro ⟨result, hresult, hexact⟩
  rw [hresult] at hany
  obtain ⟨f, hf, hne⟩ := List.any_eq_true.mp hany
  exact of_decide_eq_true hne (hexact f hf)

end Retrieval
