/-
# Insertion-ordered dictionaries

`Dict κ α` is a dictionary that remembers the order in which its keys were first set.  `set`
overwrites in place and appends a new key.  `update` sets the items of another dictionary one by
one.
-/
import Mathlib

/-- A dictionary, as the list of its items in insertion order. -/
abbrev Dict (κ α : Type) := List (κ × α)

namespace Dict

variable {κ α β : Type} [DecidableEq κ]

/-- The value under a key. -/
def get? (d : Dict κ α) (k : κ) : Option α :=
  match d with
  | [] => none
  | (k', v) :: d => if k' = k then some v else get? d k

/-- The keys, in insertion order. -/
def keys (d : Dict κ α) : List κ := d.map Prod.fst

/-- `d[k] = v`. -/
def set (d : Dict κ α) (k : κ) (v : α) : Dict κ α :=
  match d with
  | [] => [(k, v)]
  | (k', v') :: d => if k' = k then (k, v) :: d else (k', v') :: set d k v

/-- `d.update(items)`. -/
def update (d items : Dict κ α) : Dict κ α := items.foldl (fun d kv => set d kv.1 kv.2) d

@[simp] theorem get?_nil (k : κ) : get? ([] : Dict κ α) k = none := rfl

theorem get?_cons (k k' : κ) (v : α) (d : Dict κ α) :
    get? ((k', v) :: d) k = if k' = k then some v else get? d k := rfl

/-- A key that is set has the new value, and the others keep theirs. -/
theorem get?_set (d : Dict κ α) (k k' : κ) (v : α) :
    get? (set d k v) k' = if k = k' then some v else get? d k' := by
  induction d with
  | nil => simp [set, get?]
  | cons kv d ih =>
      rw [set]
      split_ifs with h1 h2 h2
      · simp [get?, h2]
      · rw [get?_cons, get?_cons, if_neg h2, if_neg (by rw [h1]; exact h2)]
      · rw [get?_cons, ih, if_pos h2, if_neg (by rw [← h2]; exact h1)]
      · rw [get?_cons, get?_cons, ih, if_neg h2]

@[simp] theorem get?_set_self (d : Dict κ α) (k : κ) (v : α) : get? (set d k v) k = some v := by
  rw [get?_set, if_pos rfl]

theorem get?_set_of_ne {d : Dict κ α} {k k' : κ} (h : k ≠ k') (v : α) :
    get? (set d k v) k' = get? d k' := by
  rw [get?_set, if_neg h]

theorem get?_isSome_iff {d : Dict κ α} {k : κ} : (get? d k).isSome ↔ k ∈ keys d := by
  induction d with
  | nil => simp [keys]
  | cons kv d ih =>
      rw [get?_cons]
      split_ifs with h
      · simp [keys, h]
      · rw [ih, keys, keys, List.map_cons, List.mem_cons]
        constructor
        · exact Or.inr
        · rintro (hk | hk)
          · exact absurd hk.symm h
          · exact hk

/-- A key is missing if and only if it is not listed. -/
theorem get?_eq_none_iff {d : Dict κ α} {k : κ} : get? d k = none ↔ k ∉ keys d := by
  rw [← get?_isSome_iff, Option.not_isSome_iff_eq_none]

theorem mem_of_get? {d : Dict κ α} {k : κ} {v : α} (h : get? d k = some v) : (k, v) ∈ d := by
  induction d with
  | nil => simp at h
  | cons kv d ih =>
      rw [get?_cons] at h
      split_ifs at h with hk
      · rw [Option.some.injEq] at h
        rw [← hk, ← h]
        exact List.mem_cons_self
      · exact List.mem_cons_of_mem _ (ih h)

/-- An entry is found under its key where keys are distinct. -/
theorem get?_of_mem {d : Dict κ α} {k : κ} {v : α} (hd : (keys d).Nodup) (h : (k, v) ∈ d) :
    get? d k = some v := by
  induction d with
  | nil => simp at h
  | cons kv d ih =>
      rw [keys, List.map_cons, List.nodup_cons] at hd
      rw [get?_cons]
      rcases List.mem_cons.mp h with h | h
      · rw [← h, if_pos rfl]
      · rw [if_neg, ih hd.2 h]
        intro hk
        exact hd.1 (List.mem_map.mpr ⟨(k, v), h, hk.symm⟩)

theorem mem_keys_of_get? {d : Dict κ α} {k : κ} {v : α} (h : get? d k = some v) : k ∈ keys d :=
  List.mem_map.mpr ⟨(k, v), mem_of_get? h, rfl⟩

/-- A new key is appended. -/
theorem keys_set (d : Dict κ α) (k : κ) (v : α) :
    keys (set d k v) = if k ∈ keys d then keys d else keys d ++ [k] := by
  induction d with
  | nil => simp [set, keys]
  | cons kv d ih =>
      rw [set]
      split_ifs with h1 h2 h2
      · simp [keys, h1]
      · simp [keys, h1] at h2
      · have hk : k ∈ keys d := by
          rw [keys, List.map_cons, List.mem_cons] at h2
          exact h2.resolve_left (fun h => h1 h.symm)
        rw [if_pos hk] at ih
        rw [keys, List.map_cons, ← keys, ih]
        rfl
      · have hk : k ∉ keys d := by
          intro hk
          exact h2 (List.mem_cons_of_mem _ hk)
        rw [if_neg hk] at ih
        rw [keys, List.map_cons, ← keys, ih]
        rfl

theorem mem_keys_set {d : Dict κ α} {k k' : κ} {v : α} :
    k' ∈ keys (set d k v) ↔ k' = k ∨ k' ∈ keys d := by
  rw [keys_set]
  split_ifs with h
  · constructor
    · exact Or.inr
    · rintro (rfl | h') <;> assumption
  · simp [or_comm]

/-- Setting keeps the keys distinct. -/
theorem nodup_keys_set {d : Dict κ α} (hd : (keys d).Nodup) (k : κ) (v : α) :
    (keys (set d k v)).Nodup := by
  rw [keys_set]
  split_ifs with h
  · exact hd
  · rw [List.nodup_append]
    refine ⟨hd, List.nodup_singleton k, ?_⟩
    intro a ha b hb hab
    rw [List.mem_singleton] at hb
    exact h (by rw [← hb, ← hab]; exact ha)

/-- Setting a new key appends it. -/
theorem set_of_not_mem {d : Dict κ α} {k : κ} (h : k ∉ keys d) (v : α) :
    set d k v = d ++ [(k, v)] := by
  induction d with
  | nil => rfl
  | cons kv d ih =>
      rw [keys, List.map_cons, List.mem_cons, not_or] at h
      rw [set, if_neg (fun hk => h.1 hk.symm), ih h.2]
      rfl

/-- The first of two dictionaries comes first. -/
theorem get?_append (d d' : Dict κ α) (k : κ) :
    get? (d ++ d') k = (get? d k).or (get? d' k) := by
  induction d with
  | nil => simp
  | cons kv d ih =>
      rw [List.cons_append, get?_cons, get?_cons]
      split_ifs with h
      · rfl
      · exact ih

omit [DecidableEq κ] in
theorem keys_append (d d' : Dict κ α) : keys (d ++ d') = keys d ++ keys d' := by
  simp [keys]

/-- Updating with new keys appends them. -/
theorem update_of_disjoint {d items : Dict κ α} (hi : (keys items).Nodup)
    (h : ∀ k ∈ keys items, k ∉ keys d) : update d items = d ++ items := by
  induction items generalizing d with
  | nil => simp [update]
  | cons kv items ih =>
      rw [keys, List.map_cons, List.nodup_cons] at hi
      have hkv : kv.1 ∉ keys d := h kv.1 List.mem_cons_self
      have hrest : ∀ k ∈ keys items, k ∉ keys (d ++ [kv]) := by
        intro k hk
        rw [keys_append, List.mem_append, not_or]
        refine ⟨h k (List.mem_cons_of_mem _ hk), ?_⟩
        intro hmem
        have : k = kv.1 := by simpa [keys] using hmem
        exact hi.1 (this ▸ hk)
      rw [update, List.foldl_cons, set_of_not_mem hkv]
      have := ih hi.2 hrest
      rw [update] at this
      rw [show ((kv.1, kv.2) : κ × α) = kv from rfl, this, List.append_assoc]
      rfl

theorem update_cons_of_not_mem {k : κ} (v : α) (d : Dict κ α) {items : Dict κ α}
    (h : k ∉ keys items) :
    update ((k, v) :: d) items = (k, v) :: update d items := by
  unfold update
  induction items generalizing d with
  | nil => rfl
  | cons kv items ih =>
      rw [keys, List.map_cons, List.mem_cons, not_or] at h
      have hset : set ((k, v) :: d) kv.1 kv.2 = (k, v) :: set d kv.1 kv.2 := by
        rw [set, if_neg (fun heq => h.1 heq)]
      rw [List.foldl_cons, List.foldl_cons, hset, ih _ h.2]

/-- Overwriting every value, in the order of the keys. -/
theorem update_of_keys_eq {d items : Dict κ α} (h : keys d = keys items) (hi : (keys items).Nodup) :
    update d items = items := by
  induction items generalizing d with
  | nil => exact List.map_eq_nil_iff.mp h
  | cons kv items ih =>
      cases d with
      | nil => simp [keys] at h
      | cons kv' d =>
          rw [keys, List.map_cons, keys, List.map_cons, List.cons.injEq] at h
          rw [keys, List.map_cons, List.nodup_cons] at hi
          have hset : set (kv' :: d) kv.1 kv.2 = (kv.1, kv.2) :: d := by
            rw [set, if_pos h.1]
          rw [update, List.foldl_cons, hset]
          exact (update_cons_of_not_mem kv.2 d hi.1).trans (congrArg _ (ih h.2 hi.2))

/-- Updating prefers the new entries. -/
theorem get?_update {items : Dict κ α} (hi : (keys items).Nodup) (d : Dict κ α) (k : κ) :
    get? (update d items) k = (get? items k).or (get? d k) := by
  induction items generalizing d with
  | nil => rfl
  | cons kv items ih =>
      rw [keys, List.map_cons, List.nodup_cons] at hi
      rw [update, List.foldl_cons, ← update, ih hi.2, get?_set, get?_cons]
      by_cases hk : kv.1 = k
      · have hnone : get? items k = none := get?_eq_none_iff.mpr (hk ▸ hi.1)
        rw [hnone, if_pos hk, if_pos hk]
        rfl
      · rw [if_neg hk, if_neg hk]

/-- Mapping the values maps what is found. -/
theorem get?_map (d : Dict κ α) (f : κ → α → β) (k : κ) :
    get? (d.map (fun kv => (kv.1, f kv.1 kv.2))) k = (get? d k).map (f k) := by
  induction d with
  | nil => rfl
  | cons kv d ih =>
      rw [List.map_cons, get?_cons, get?_cons]
      split_ifs with h
      · rw [h]
        rfl
      · exact ih

/-- The keys of an update are those of both. -/
theorem mem_keys_update {d items : Dict κ α} {k : κ} :
    k ∈ keys (update d items) ↔ k ∈ keys d ∨ k ∈ keys items := by
  induction items generalizing d with
  | nil => simp [update, keys]
  | cons kv items ih =>
      rw [update, List.foldl_cons, ← update, ih, mem_keys_set, keys, keys, keys,
        List.map_cons, List.mem_cons]
      tauto

/-- A dictionary that is filled item by item holds the last value of a key. -/
theorem get?_update_nil_iff {items : Dict κ α} {k : κ} {v : α} :
    get? (update [] items) k = some v ↔
      ∃ before after, items = before ++ (k, v) :: after ∧ ∀ kv ∈ after, kv.1 ≠ k := by
  induction items using List.reverseRecOn with
  | nil => simp [update]
  | append_singleton items kv ih =>
      have hset : update [] (items ++ [kv]) = set (update [] items) kv.1 kv.2 := by
        rw [update, List.foldl_append]
        rfl
      rw [hset, get?_set]
      split_ifs with hk
      · constructor
        · intro h
          refine ⟨items, [], ?_, by simp⟩
          rw [← hk, ← Option.some.inj h]
        · rintro ⟨before, after, heq, hafter⟩
          rcases List.eq_nil_or_concat after with rfl | ⟨after, kv', rfl⟩
          · obtain ⟨-, h⟩ := List.append_inj' heq rfl
            rw [List.cons.inj h |>.1]
          · rw [List.concat_eq_append, ← List.cons_append, ← List.append_assoc] at heq
            obtain ⟨-, h⟩ := List.append_inj' heq rfl
            rw [List.cons.inj h |>.1] at hk
            exact absurd hk (hafter kv' (by simp))
      · rw [ih]
        constructor
        · rintro ⟨before, after, rfl, hafter⟩
          refine ⟨before, after ++ [kv], by simp, ?_⟩
          intro kv' hkv'
          rcases List.mem_append.mp hkv' with h | h
          · exact hafter kv' h
          · rw [List.mem_singleton.mp h]
            exact hk
        · rintro ⟨before, after, heq, hafter⟩
          rcases List.eq_nil_or_concat after with rfl | ⟨after, kv', rfl⟩
          · obtain ⟨-, h⟩ := List.append_inj' heq rfl
            rw [List.cons.inj h |>.1] at hk
            exact absurd rfl hk
          · rw [List.concat_eq_append, ← List.cons_append, ← List.append_assoc] at heq
            obtain ⟨h, -⟩ := List.append_inj' heq rfl
            exact ⟨before, after, h, fun kv'' h'' => hafter kv'' (by simp [h''])⟩

/-! ## Keys in order of first occurrence -/

/-- `dict.fromkeys(ks)`, as the list of its keys: each key at its first occurrence. -/
def fromKeys (ks : List κ) : List κ :=
  ks.foldl (fun seen k => if k ∈ seen then seen else seen ++ [k]) []

theorem fromKeys_append_singleton (ks : List κ) (k : κ) :
    fromKeys (ks ++ [k]) = if k ∈ fromKeys ks then fromKeys ks else fromKeys ks ++ [k] := by
  rw [fromKeys, List.foldl_append]
  rfl

/-- Removing duplicates loses no key. -/
@[simp] theorem mem_fromKeys {ks : List κ} {k : κ} : k ∈ fromKeys ks ↔ k ∈ ks := by
  induction ks using List.reverseRecOn generalizing k with
  | nil => simp [fromKeys]
  | append_singleton ks k' ih =>
      rw [fromKeys_append_singleton]
      split_ifs with h
      · rw [ih] at h ⊢
        constructor
        · exact fun hk => List.mem_append_left _ hk
        · intro hk
          rcases List.mem_append.mp hk with hk | hk
          · exact hk
          · rw [List.mem_singleton.mp hk]
            exact h
      · rw [List.mem_append, List.mem_append, ih]

/-- No duplicates are left. -/
theorem nodup_fromKeys (ks : List κ) : (fromKeys ks).Nodup := by
  induction ks using List.reverseRecOn with
  | nil => simp [fromKeys]
  | append_singleton ks k ih =>
      rw [fromKeys_append_singleton]
      split_ifs with h
      · exact ih
      · rw [List.nodup_append]
        refine ⟨ih, List.nodup_singleton k, ?_⟩
        intro a ha b hb hab
        rw [List.mem_singleton] at hb
        exact h (hb ▸ hab ▸ ha)

end Dict
