/-
# Grouping by a key and updates by index

`Dict.groupBy key l` is the dictionary that a loop with `setdefault(key(x), []).append(x)` builds:
the keys in the order of their first element, each with its elements in the order of the list.
`Dict.modifyAll` is the loop that updates the elements of a list whose indices a dictionary has, and
`positions p l` the indices of the elements with a property.
-/
import EvidenceLab.Dict

/-! ## Positions -/

section Positions

variable {α : Type} {p : α → Prop} [DecidablePred p] {l : List α}

theorem one_lt_length_of_ne {x y : α} (hx : x ∈ l) (hy : y ∈ l) (hne : x ≠ y) : 1 < l.length := by
  have hpair : [x, y].Nodup := by simp [hne]
  exact (hpair.subperm (by simp [hx, hy])).length_le

/-- The indices of the elements with a property, in order. -/
def positions (p : α → Prop) [DecidablePred p] (l : List α) : List ℕ :=
  (l.zipIdx.filter fun x => p x.1).map Prod.snd

/-- The positions are those of the elements with the property. -/
theorem mem_positions {i : ℕ} : i ∈ positions p l ↔ ∃ x, l[i]? = some x ∧ p x := by
  simp only [positions, List.mem_map, List.mem_filter, decide_eq_true_eq, Prod.exists,
    List.mem_zipIdx_iff_getElem?]
  constructor
  · rintro ⟨x, j, ⟨hx, hp⟩, rfl⟩
    exact ⟨x, hx, hp⟩
  · rintro ⟨x, hx, hp⟩
    exact ⟨x, i, ⟨hx, hp⟩, rfl⟩

theorem nodup_positions (p : α → Prop) [DecidablePred p] (l : List α) : (positions p l).Nodup := by
  have hsub : (positions p l).Sublist (l.zipIdx.map Prod.snd) := List.filter_sublist.map Prod.snd
  refine hsub.nodup ?_
  rw [List.zipIdx_map_snd]
  exact List.nodup_range'

/-- There are as many positions as elements with the property. -/
theorem length_positions (p : α → Prop) [DecidablePred p] (l : List α) :
    (positions p l).length = (l.filter fun x => p x).length := by
  have hfst : l.zipIdx.map Prod.fst = l := List.zipIdx_map_fst 0 l
  rw [positions, List.length_map, ← List.countP_eq_length_filter, ← List.countP_eq_length_filter]
  conv_rhs => rw [← hfst, List.countP_map]
  rfl

/-- Two positions, as soon as there is more than one. -/
theorem exists_other_position {i : ℕ} (h : 1 < (positions p l).length) :
    ∃ j ∈ positions p l, j ≠ i := by
  by_contra hall
  push Not at hall
  have hsub : positions p l ⊆ [i] := fun j hj => List.mem_singleton.mpr (hall j hj)
  have hle := ((nodup_positions p l).subperm hsub).length_le
  rw [List.length_singleton] at hle
  omega

/-- Two elements have the property exactly when two positions do. -/
theorem two_le_length_filter_iff : 2 ≤ (l.filter fun x => p x).length
    ↔ ∃ (i j : ℕ) (x y : α), i ≠ j ∧ l[i]? = some x ∧ l[j]? = some y ∧ p x ∧ p y := by
  rw [← length_positions]
  constructor
  · intro h
    obtain ⟨i, hi⟩ := List.exists_mem_of_length_pos (l := positions p l) (by omega)
    obtain ⟨j, hj, hne⟩ := exists_other_position (i := i) (p := p) (l := l) (by omega)
    obtain ⟨x, hx, hpx⟩ := mem_positions.mp hi
    obtain ⟨y, hy, hpy⟩ := mem_positions.mp hj
    exact ⟨i, j, x, y, hne.symm, hx, hy, hpx, hpy⟩
  · rintro ⟨i, j, x, y, hne, hx, hy, hpx, hpy⟩
    exact one_lt_length_of_ne (mem_positions.mpr ⟨x, hx, hpx⟩) (mem_positions.mpr ⟨y, hy, hpy⟩) hne

end Positions

namespace Dict

variable {κ α : Type} [DecidableEq κ]

/-- One turn of the loop. -/
def push (key : α → κ) (d : Dict κ (List α)) (x : α) : Dict κ (List α) :=
  d.set (key x) ((d.get? (key x)).getD [] ++ [x])

/-- The groups of the elements of a list. -/
def groupBy (key : α → κ) (l : List α) : Dict κ (List α) := l.foldl (push key) []

/-- One more element goes into its group. -/
theorem groupBy_append_singleton (key : α → κ) (l : List α) (x : α) :
    groupBy key (l ++ [x]) = push key (groupBy key l) x := by
  rw [groupBy, List.foldl_append]
  rfl

/-- The group of a key is the elements with that key. -/
theorem get?_groupBy (key : α → κ) (l : List α) (k : κ) :
    (groupBy key l).get? k = if k ∈ l.map key then some (l.filter fun x => key x = k)
    else none := by
  induction l using List.reverseRecOn with
  | nil => rfl
  | append_singleton l x ih =>
      rw [groupBy_append_singleton, push, get?_set]
      by_cases hk : key x = k
      · subst hk
        have hself : (groupBy key l).get? (key x) = if key x ∈ l.map key
            then some (l.filter fun y => key y = key x) else none := ih
        rw [if_pos rfl, hself]
        by_cases hmem : key x ∈ l.map key
        · simp [hmem]
        · have hnone : (l.filter fun y => key y = key x) = [] := by
            rw [List.filter_eq_nil_iff]
            intro y hy hxy
            rw [decide_eq_true_eq] at hxy
            exact hmem (hxy ▸ List.mem_map_of_mem hy)
          simp [hmem, hnone]
      · rw [if_neg hk, ih]
        have hiff : k ∈ (l ++ [x]).map key ↔ k ∈ l.map key := by
          rw [List.map_append, List.mem_append, List.map_singleton, List.mem_singleton]
          exact or_iff_left fun h => hk h.symm
        have hfilter : ((l ++ [x]).filter fun y => key y = k) = l.filter fun y => key y = k := by
          rw [List.filter_append, List.filter_singleton]
          simp [hk]
        rw [hfilter]
        by_cases hmem : k ∈ l.map key
        · rw [if_pos hmem, if_pos (hiff.mpr hmem)]
        · rw [if_neg hmem, if_neg fun h => hmem (hiff.mp h)]

theorem nodup_keys_groupBy (key : α → κ) (l : List α) : (groupBy key l).keys.Nodup := by
  induction l using List.reverseRecOn with
  | nil => exact List.nodup_nil
  | append_singleton l x ih =>
      rw [groupBy_append_singleton]
      exact nodup_keys_set ih _ _

/-- **The groups** are the elements of each key, in their order. -/
theorem mem_groupBy_iff {key : α → κ} {l : List α} {k : κ} {g : List α} :
    (k, g) ∈ groupBy key l ↔ k ∈ l.map key ∧ g = l.filter fun x => key x = k := by
  constructor
  · intro h
    have hget := get?_of_mem (nodup_keys_groupBy key l) h
    rw [get?_groupBy] at hget
    split_ifs at hget with hk
    exact ⟨hk, (Option.some.inj hget).symm⟩
  · rintro ⟨hk, rfl⟩
    apply mem_of_get?
    rw [get?_groupBy, if_pos hk]

/-- No two groups have one key. -/
theorem pairwise_keys_groupBy (key : α → κ) (l : List α) :
    (groupBy key l).Pairwise fun a b => a.1 ≠ b.1 :=
  List.pairwise_map.mp (nodup_keys_groupBy key l)

section Modify

variable {γ β : Type}

/-- Every element whose index is a key is updated with the value of the key. -/
def modifyAll (f : γ → β → β) (d : Dict ℕ γ) (l : List β) : List β :=
  d.foldl (fun l kv => l.modify kv.1 (f kv.2)) l

/-- The element at a listed index is modified, and no other one. -/
theorem getElem?_modifyAll (f : γ → β → β) {d : Dict ℕ γ} (hd : d.keys.Nodup) (l : List β) (i : ℕ) :
    (modifyAll f d l)[i]? = l[i]?.map fun x =>
    (match d.get? i with | some c => f c x | none => x) := by
  induction d generalizing l with
  | nil => simp [modifyAll]
  | cons kv d ih =>
      obtain ⟨k, c⟩ := kv
      have hkeys : k ∉ keys d ∧ (keys d).Nodup := List.nodup_cons.mp hd
      rw [modifyAll, List.foldl_cons, ← modifyAll, ih hkeys.2, List.getElem?_modify, get?_cons]
      by_cases hk : k = i
      · subst hk
        rw [get?_eq_none_iff.mpr hkeys.1]
        cases l[k]? <;> simp
      · cases l[i]? <;> simp [hk]

end Modify

end Dict
