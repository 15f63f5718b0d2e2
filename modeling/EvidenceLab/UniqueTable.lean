/-
# Tables with unique keys

A table whose rows are inserted by transactions and never changed after their commit.  A row has
some keys, and no two rows share one.  An insertion waits while another transaction holds a key of
the row, and conflicts with a committed row that has one.

`Sound`: the committed rows share no key with each other or with what is pending, and a key is held
by the one transaction whose row has it.  Every operation keeps it.  `Free`: no transaction holds a
key, so that an insertion finds the committed rows only.
-/
import Mathlib

/-- The committed rows in their order, who holds a key, and the row that a transaction has inserted.
-/
structure UniqueTable (K V : Type*) where
  rows : List V
  owner : K → Option ℕ
  pending : ℕ → Option V

namespace UniqueTable

/-- What an insertion comes to. -/
inductive Insertion (K V : Type*) where
  | waits
  | conflict
  | inserted (tab : UniqueTable K V)

variable {K V : Type*} [DecidableEq K]

def empty : UniqueTable K V := ⟨[], fun _ => none, fun _ => none⟩

section Operations

variable (keys : V → List K)

/-- The committed row of a key. -/
def find? (tab : UniqueTable K V) (k : K) : Option V := tab.rows.find? fun v => k ∈ keys v

/-- `INSERT`.  A transaction inserts one row. -/
def insert (tab : UniqueTable K V) (t : ℕ) (v : V) : Insertion K V :=
  if (tab.pending t).isSome || (keys v).any (fun k => (tab.owner k).isSome) then .waits
  else if (keys v).any (fun k => (tab.find? keys k).isSome) then .conflict
  else .inserted
    { tab with
      owner := fun k => if k ∈ keys v then some t else tab.owner k
      pending := Function.update tab.pending t (some v) }

/-- `UPDATE` of the row that the transaction has inserted; its keys stay. -/
def amend (tab : UniqueTable K V) (t : ℕ) (f : V → V) : UniqueTable K V :=
  { tab with pending := Function.update tab.pending t ((tab.pending t).map f) }

omit [DecidableEq K] in
/-- The keys of a transaction are free again. -/
def released (owner : K → Option ℕ) (t : ℕ) (k : K) : Option ℕ :=
  if owner k = some t then none else owner k

def commit (tab : UniqueTable K V) (t : ℕ) : UniqueTable K V where
  rows := tab.rows ++ (tab.pending t).toList
  owner := released tab.owner t
  pending := Function.update tab.pending t none

def rollback (tab : UniqueTable K V) (t : ℕ) : UniqueTable K V where
  rows := tab.rows
  owner := released tab.owner t
  pending := Function.update tab.pending t none

structure Sound (tab : UniqueTable K V) : Prop where
  distinct : tab.rows.Pairwise fun a b => ∀ k ∈ keys a, k ∉ keys b
  owner_iff : ∀ k t, tab.owner k = some t ↔ ∃ v, tab.pending t = some v ∧ k ∈ keys v
  fresh : ∀ t v, tab.pending t = some v → ∀ k ∈ keys v, tab.find? keys k = none

end Operations

variable {keys : V → List K} {tab tab' : UniqueTable K V} {t t' : ℕ} {k : K} {v : V}

/-! ## Finding -/

/-- What is found is a row with the key. -/
theorem mem_of_find? (h : tab.find? keys k = some v) : v ∈ tab.rows ∧ k ∈ keys v :=
  have hk : decide (k ∈ keys v) = true := List.find?_some (p := fun v => decide (k ∈ keys v)) h
  ⟨List.mem_of_find?_eq_some h, of_decide_eq_true hk⟩

/-- Nothing is found if no row has the key. -/
theorem find?_eq_none_iff : tab.find? keys k = none ↔ ∀ v ∈ tab.rows, k ∉ keys v := by
  simp [find?]

/-- Rows of one key are one row. -/
theorem Sound.find?_of_mem (h : tab.Sound keys) (hv : v ∈ tab.rows) (hk : k ∈ keys v) :
    tab.find? keys k = some v := by
  obtain ⟨before, after, hrows⟩ := List.append_of_mem hv
  have hbefore : ∀ u ∈ before, ¬ decide (k ∈ keys u) = true := by
    intro u hu hku
    have hdistinct := h.distinct
    rw [hrows] at hdistinct
    exact (List.pairwise_append.mp hdistinct).2.2 u hu v List.mem_cons_self k
      (of_decide_eq_true hku) hk
  rw [find?, hrows, List.find?_append, List.find?_eq_none.mpr hbefore]
  simp [hk]

/-- Rows that share a key are one. -/
theorem Sound.eq_of_mem (h : tab.Sound keys) {u : V} (hu : u ∈ tab.rows) (hv : v ∈ tab.rows)
    (hku : k ∈ keys u)
    (hkv : k ∈ keys v) : u = v :=
  Option.some.inj ((h.find?_of_mem hu hku).symm.trans (h.find?_of_mem hv hkv))

/-- Two transactions hold no key together. -/
theorem Sound.eq_of_pending (h : tab.Sound keys) {u : V} (hu : tab.pending t = some u)
    (hv : tab.pending t' = some v)
    (hku : k ∈ keys u) (hkv : k ∈ keys v) : t = t' := by
  have hown := (h.owner_iff k t).mpr ⟨u, hu, hku⟩
  have hown' := (h.owner_iff k t').mpr ⟨v, hv, hkv⟩
  exact Option.some.inj (hown.symm.trans hown')

/-! ## The operations -/

theorem sound_empty : (empty : UniqueTable K V).Sound keys where
  distinct := List.Pairwise.nil
  owner_iff k t := by simp [empty]
  fresh t v h := by cases h

/-- What an insertion found. -/
theorem insert_cases (keys : V → List K) (tab : UniqueTable K V) (t : ℕ) (v : V) :
    tab.insert keys t v = .waits
    ∨ (tab.insert keys t v = .conflict ∧ ∃ k ∈ keys v, (tab.find? keys k).isSome)
    ∨ (∃ tab', tab.insert keys t v = .inserted tab' ∧ tab'.rows = tab.rows
      ∧ tab'.pending = Function.update tab.pending t (some v)
      ∧ tab.pending t = none
      ∧ (∀ k ∈ keys v, tab.owner k = none ∧ tab.find? keys k = none)
      ∧ ∀ k, tab'.owner k = if k ∈ keys v then some t else tab.owner k) := by
  rw [insert]
  split_ifs with hwaits hconflict
  · exact .inl rfl
  · refine .inr (.inl ⟨rfl, ?_⟩)
    obtain ⟨k, hk, hfound⟩ := List.any_eq_true.mp hconflict
    exact ⟨k, hk, hfound⟩
  · refine .inr (.inr ⟨_, rfl, rfl, rfl, ?_, fun k hk => ?_, fun k => rfl⟩)
    · rw [Bool.or_eq_true, not_or] at hwaits
      exact Option.not_isSome_iff_eq_none.mp hwaits.1
    · simp only [Bool.or_eq_true, List.any_eq_true, not_or, not_exists, not_and,
        Option.not_isSome_iff_eq_none]
        at hwaits hconflict
      exact ⟨hwaits.2 k hk, hconflict k hk⟩

/-- An insertion commits nothing. -/
theorem rows_of_insert (h : tab.insert keys t v = .inserted tab') : tab'.rows = tab.rows := by
  obtain hw | ⟨hc, -⟩ | ⟨tab₁, hi, hrows, -⟩ := insert_cases keys tab t v
  · rw [h] at hw
    cases hw
  · rw [h] at hc
    cases hc
  · rw [h] at hi
    cases hi
    exact hrows

theorem find?_congr (h : tab'.rows = tab.rows) (k : K) : tab'.find? keys k = tab.find? keys k := by
  rw [find?, find?, h]

/-- **An insertion** keeps the keys of the table apart. -/
theorem Sound.insert (h : tab.Sound keys) (hins : tab.insert keys t v = .inserted tab') :
    tab'.Sound keys := by
  obtain hw | ⟨hc, -⟩ | ⟨tab₁, hi, hrows, hpending, hnone, hfree, howner⟩ :=
    insert_cases keys tab t v
  · rw [hins] at hw
    cases hw
  · rw [hins] at hc
    cases hc
  · rw [hins] at hi
    cases hi
    refine ⟨hrows ▸ h.distinct, fun k t' => ?_, fun t' u hu k hk => ?_⟩
    · rw [howner, hpending]
      by_cases ht : t' = t
      · subst ht
        rw [Function.update_self]
        split_ifs with hk
        · simp [hk]
        · rw [h.owner_iff, hnone]
          simp [hk]
      · rw [Function.update_of_ne ht, ← h.owner_iff]
        split_ifs with hk
        · rw [(hfree k hk).1]
          simp [Ne.symm ht]
        · rfl
    · rw [find?_congr hrows]
      rw [hpending] at hu
      by_cases ht : t' = t
      · subst ht
        rw [Function.update_self, Option.some.injEq] at hu
        subst hu
        exact (hfree k hk).2
      · rw [Function.update_of_ne ht] at hu
        exact h.fresh t' u hu k hk

/-- An update keeps the keys. -/
theorem Sound.amend (h : tab.Sound keys) {f : V → V}
    (hf : ∀ v, tab.pending t = some v → keys (f v) = keys v) :
    (tab.amend t f).Sound keys := by
  have hpending : ∀ t' u, (tab.amend t f).pending t' = some u → ∃ v, tab.pending t' = some v ∧
      keys u = keys v := by
    intro t' u hu
    rw [UniqueTable.amend] at hu
    by_cases ht : t' = t
    · subst ht
      simp only [Function.update_self] at hu
      obtain ⟨v, hv, rfl⟩ := Option.map_eq_some_iff.mp hu
      exact ⟨v, hv, hf v hv⟩
    · simp only [Function.update_of_ne ht] at hu
      exact ⟨u, hu, rfl⟩
  refine ⟨h.distinct, fun k t' => ?_, fun t' u hu k hk => ?_⟩
  · show tab.owner k = some t' ↔ _
    rw [h.owner_iff]
    constructor
    · rintro ⟨v, hv, hk⟩
      by_cases ht : t' = t
      · subst ht
        exact ⟨f v, by simp [UniqueTable.amend, hv], by rw [hf v hv]; exact hk⟩
      · exact ⟨v, by simp [UniqueTable.amend, ht, hv], hk⟩
    · rintro ⟨u, hu, hk⟩
      obtain ⟨v, hv, hkeys⟩ := hpending t' u hu
      exact ⟨v, hv, hkeys ▸ hk⟩
  · obtain ⟨v, hv, hkeys⟩ := hpending t' u hu
    exact h.fresh t' v hv k (hkeys ▸ hk)

/-- A transaction that ends holds nothing, and the others keep what they hold. -/
theorem Sound.released (h : tab.Sound keys) (k : K) (t' : ℕ) :
    UniqueTable.released tab.owner t k = some t' ↔ ∃ v, Function.update tab.pending t none t'
    = some v ∧ k ∈ keys v := by
  rw [UniqueTable.released]
  by_cases ht : t' = t
  · subst ht
    rw [Function.update_self]
    split_ifs with hown
    · simp
    · simp [hown]
  · rw [Function.update_of_ne ht, ← h.owner_iff]
    split_ifs with hown
    · simp [hown, Ne.symm ht]
    · rfl

/-- A rollback keeps the keys of the table apart. -/
theorem Sound.rollback (h : tab.Sound keys) : (tab.rollback t).Sound keys := by
  refine ⟨h.distinct, h.released, fun t' u hu k hk => ?_⟩
  have hpending : tab.pending t' = some u := by
    by_cases ht : t' = t
    · subst ht
      simp [UniqueTable.rollback] at hu
    · simpa [UniqueTable.rollback, ht] using hu
  exact h.fresh t' u hpending k hk

omit [DecidableEq K] in
/-- A commit adds the row that was pending. -/
theorem mem_commit : v ∈ (tab.commit t).rows ↔ v ∈ tab.rows ∨ tab.pending t = some v := by
  simp [commit]

/-- **A commit** keeps the keys of the table apart. -/
theorem Sound.commit (h : tab.Sound keys) : (tab.commit t).Sound keys := by
  refine ⟨?_, h.released, fun t' u hu k hk => ?_⟩
  · refine List.pairwise_append.mpr ⟨h.distinct, ?_, fun a ha b hb k hka hkb => ?_⟩
    · cases tab.pending t with
      | none => exact List.Pairwise.nil
      | some v => exact List.pairwise_singleton _ v
    · have hfresh := h.fresh t b (Option.mem_toList.mp hb) k hkb
      exact find?_eq_none_iff.mp hfresh a ha hka
  · have ht : t' ≠ t := by
      rintro rfl
      simp [UniqueTable.commit] at hu
    have hpending : tab.pending t' = some u := by simpa [UniqueTable.commit, ht] using hu
    rw [find?_eq_none_iff]
    intro v hv hkv
    rcases mem_commit.mp hv with hv | hv
    · exact find?_eq_none_iff.mp (h.fresh t' u hpending k hk) v hv hkv
    · exact ht (h.eq_of_pending hpending hv hk hkv)

/-! ## One transaction after another -/

/-- No key is held, and the transaction has inserted nothing. -/
structure Free (tab : UniqueTable K V) (t : ℕ) : Prop where
  pending : tab.pending t = none
  owner : ∀ k, tab.owner k = none

omit [DecidableEq K] in
theorem free_empty (t : ℕ) : (empty : UniqueTable K V).Free t := ⟨rfl, fun _ => rfl⟩

/-- Nothing stands in the way of an insertion. -/
theorem Free.insert (h : tab.Free t) (hfree : ∀ k ∈ keys v, tab.find? keys k = none) :
    tab.insert keys t v = .inserted { tab with
      owner := fun k => if k ∈ keys v then some t else tab.owner k
      pending := Function.update tab.pending t (some v) } := by
  have hfound : ((keys v).any fun k => (tab.find? keys k).isSome) = false := by
    rw [List.any_eq_false]
    intro k hk
    rw [hfree k hk]
    exact Bool.false_ne_true
  simp [UniqueTable.insert, h.pending, h.owner, hfound]

/-- A committed row stands in the way. -/
theorem Free.insert_conflict (h : tab.Free t) (hk : k ∈ keys v)
    (hfound : (tab.find? keys k).isSome = true) : tab.insert keys t v = .conflict := by
  have hany : ((keys v).any fun k => (tab.find? keys k).isSome) = true :=
    List.any_eq_true.mpr ⟨k, hk, hfound⟩
  simp [UniqueTable.insert, h.pending, h.owner, hany]

omit [DecidableEq K] in
/-- Where only one transaction holds keys, its end frees them all. -/
theorem released_eq_none {owner : K → Option ℕ}
    (h : ∀ k, owner k = none ∨ owner k = some t) (k : K) : released owner t k = none := by
  rw [released]
  split_ifs with hown
  · rfl
  · exact (h k).resolve_right hown

omit [DecidableEq K] in
/-- A transaction that commits holds nothing. -/
theorem free_commit (h : ∀ k, tab.owner k = none ∨ tab.owner k = some t) : (tab.commit t).Free t :=
  ⟨Function.update_self _ _ _, released_eq_none h⟩

omit [DecidableEq K] in
theorem Free.commit (h : tab.Free t) : (tab.commit t).Free t :=
  free_commit fun k => .inl (h.owner k)

omit [DecidableEq K] in
theorem Free.rollback (h : tab.Free t) : (tab.rollback t).Free t :=
  ⟨Function.update_self _ _ _, released_eq_none fun k => .inl (h.owner k)⟩

omit [DecidableEq K] in
theorem Free.rows_commit (h : tab.Free t) : (tab.commit t).rows = tab.rows := by
  rw [UniqueTable.commit, h.pending]
  exact List.append_nil _

/-- Only the keys of one row are held. -/
theorem Free.owner_insert (h : tab.Free t) (k : K) :
    (if k ∈ keys v then some t else tab.owner k) = none
      ∨ (if k ∈ keys v then some t else tab.owner k) = some t := by
  split_ifs
  · exact .inr rfl
  · exact .inl (h.owner k)

omit [DecidableEq K] in
/-- The pending row is appended. -/
theorem rows_commit (h : tab.pending t = some v) : (tab.commit t).rows = tab.rows ++ [v] := by
  rw [commit, h]
  rfl

omit [DecidableEq K] in
theorem pending_amend {f : V → V} (h : tab.pending t = some v) :
    (tab.amend t f).pending t = some (f v) := by
  rw [amend, h]
  exact Function.update_self _ _ _

end UniqueTable
