/-
# Stable sorting by a key

`List.insertionSort` is stable: elements with equal keys keep their order
(`pairwise_sortBy`). Two consequences: the sort of a list of blocks does not depend on
the order inside the blocks when the keys inside a block are distinct (`sort_flatten_congr`), and a
sort or a least element by a total order does not depend on the order of the list at all.
-/
import Mathlib

namespace StableSort

variable {α κ : Type} [LinearOrder κ]

/-- `sorted(l, key=key)`. -/
def sortBy (key : α → κ) (l : List α) : List α := l.insertionSort fun a b => key a ≤ key b

variable {key : α → κ} {l l' : List α}

/-- Sorting drops no element. -/
theorem sortBy_perm (key : α → κ) (l : List α) : (sortBy key l).Perm l :=
  List.perm_insertionSort _ l

@[simp] theorem mem_sortBy {x : α} : x ∈ sortBy key l ↔ x ∈ l := (sortBy_perm key l).mem_iff

theorem sortBy_ne_nil (key : α → κ) (h : l ≠ []) : sortBy key l ≠ [] := by
  intro hnil
  have hperm := sortBy_perm key l
  rw [hnil] at hperm
  exact h hperm.nil_eq.symm

/-- An element that is inserted keeps its place before the elements with its key. -/
theorem pairwise_orderedInsert {s : α → α → Prop} {a : α} (ha : ∀ b ∈ l, s a b)
    (hl : l.Pairwise fun b c => key b ≤ key c ∧ (key c ≤ key b → s b c)) :
    (l.orderedInsert (fun b c => key b ≤ key c) a).Pairwise fun b c => key b ≤ key c ∧
    (key c ≤ key b → s b c) := by
  induction l with
  | nil => simp
  | cons b l ih =>
      obtain ⟨hb, hl⟩ := List.pairwise_cons.mp hl
      rw [List.orderedInsert]
      split_ifs with hle
      · refine List.pairwise_cons.mpr ⟨fun c hc => ⟨?_, fun _ => ha c hc⟩,
        List.pairwise_cons.mpr ⟨hb, hl⟩⟩
        rcases List.mem_cons.mp hc with rfl | hc
        · exact hle
        · exact hle.trans (hb c hc).1
      · refine List.pairwise_cons.mpr ⟨fun c hc => ?_,
        ih (fun c hc => ha c (List.mem_cons_of_mem b hc)) hl⟩
        rcases (List.mem_orderedInsert _).mp hc with rfl | hc
        · exact ⟨(not_le.mp hle).le, fun h => absurd h hle⟩
        · exact hb c hc

/-- **The sort is stable**: it orders by the key and keeps what held of earlier and later elements.
-/
theorem pairwise_sortBy {s : α → α → Prop} (hl : l.Pairwise s) :
    (sortBy key l).Pairwise fun b c => key b ≤ key c ∧ (key c ≤ key b → s b c) := by
  induction l with
  | nil => exact List.Pairwise.nil
  | cons a l ih =>
      obtain ⟨ha, hl⟩ := List.pairwise_cons.mp hl
      rw [sortBy, List.insertionSort_cons]
      exact pairwise_orderedInsert (fun b hb => ha b (mem_sortBy.mp hb)) (ih hl)

/-- Sorted elements are in the order of their keys. -/
theorem pairwise_key_sortBy (key : α → κ) (l : List α) :
    (sortBy key l).Pairwise fun b c => key b ≤ key c :=
  (pairwise_sortBy (s := fun _ _ => True) (List.pairwise_of_forall fun _ _ => trivial)).imp And.left

/-- A sort by a key that tells the elements apart does not depend on the order of the list. -/
theorem sortBy_eq_of_perm (hp : l.Perm l') (hinj : ∀ a ∈ l, ∀ b ∈ l, key a = key b → a = b) :
    sortBy key l = sortBy key l' := by
  refine List.Perm.eq_of_pairwise ?_ (pairwise_key_sortBy key l) (pairwise_key_sortBy key l')
    (((sortBy_perm key l).trans hp).trans (sortBy_perm key l').symm)
  intro a b ha hb hab hba
  exact hinj a (mem_sortBy.mp ha) b (hp.mem_iff.mpr (mem_sortBy.mp hb)) (le_antisymm hab hba)

/-! ## Blocks -/

/-- The elements of the blocks, each with the position of its block. -/
def tagged (k : ℕ) (blocks : List (List α)) : List (α × ℕ) :=
  (blocks.zipIdx k).flatMap fun b => b.1.map fun x => (x, b.2)

/-- The elements of the first block are tagged first. -/
theorem tagged_cons (k : ℕ) (block : List α) (blocks : List (List α)) :
    tagged k (block :: blocks) = (block.map fun x => (x, k)) ++ tagged (k + 1) blocks := by
  rw [tagged, List.zipIdx_cons, List.flatMap_cons]
  rfl

/-- Tagging keeps the elements. -/
theorem map_fst_tagged (k : ℕ) (blocks : List (List α)) :
    (tagged k blocks).map Prod.fst = blocks.flatten := by
  induction blocks generalizing k with
  | nil => rfl
  | cons block blocks ih =>
      rw [tagged_cons, List.map_append, ih, List.map_map, List.flatten_cons]
      congr 1
      exact List.map_id _

/-- Tags begin at the given number. -/
theorem le_of_mem_tagged {k : ℕ} {blocks : List (List α)} {x : α × ℕ} (h : x ∈ tagged k blocks) :
    k ≤ x.2 := by
  induction blocks generalizing k with
  | nil => cases h
  | cons block blocks ih =>
      rw [tagged_cons, List.mem_append] at h
      rcases h with h | h
      · obtain ⟨y, -, rfl⟩ := List.mem_map.mp h
        exact le_rfl
      · exact (Nat.le_succ k).trans (ih h)

omit [LinearOrder κ] in
/-- An earlier element is in an earlier block, or it has another key. -/
theorem pairwise_tagged {k : ℕ} {blocks : List (List α)}
    (h : ∀ b ∈ blocks, b.Pairwise fun x y => key x ≠ key y) :
    (tagged k blocks).Pairwise fun x y => x.2 < y.2 ∨ x.2 = y.2 ∧ key x.1 ≠ key y.1 := by
  induction blocks generalizing k with
  | nil => exact List.Pairwise.nil
  | cons block blocks ih =>
      rw [tagged_cons, List.pairwise_append]
      refine ⟨?_, ih fun b hb => h b (List.mem_cons_of_mem block hb), fun x hx y hy => ?_⟩
      · exact List.pairwise_map.mpr ((h block List.mem_cons_self).imp fun hne => .inr ⟨rfl, hne⟩)
      · obtain ⟨z, -, rfl⟩ := List.mem_map.mp hx
        exact .inl (le_of_mem_tagged hy)

/-- Permuted blocks are tagged alike. -/
theorem tagged_perm {k : ℕ} {blocks blocks' : List (List α)}
    (h : List.Forall₂ List.Perm blocks blocks') :
    (tagged k blocks).Perm (tagged k blocks') := by
  induction h generalizing k with
  | nil => exact List.Perm.refl _
  | cons hb _ ih =>
      rw [tagged_cons, tagged_cons]
      exact (hb.map _).append ih

/-- **The order inside the blocks does not matter** when the keys inside each block are distinct. -/
theorem sort_flatten_congr {blocks blocks' : List (List α)}
    (h : List.Forall₂ List.Perm blocks blocks')
    (hkeys : ∀ b ∈ blocks, b.Pairwise fun x y => key x ≠ key y)
    (hkeys' : ∀ b ∈ blocks', b.Pairwise fun x y => key x ≠ key y) :
    sortBy key blocks.flatten = sortBy key blocks'.flatten := by
  have hmap : ∀ bs : List (List α), sortBy key bs.flatten
      = (sortBy (fun x : α × ℕ => key x.1) (tagged 0 bs)).map Prod.fst := by
    intro bs
    rw [sortBy, sortBy,
      List.map_insertionSort (r := fun a b => key a.1 ≤ key b.1) (s := fun a b => key a ≤ key b)
      Prod.fst _ (fun a _ b _ => Iff.rfl), map_fst_tagged]
  rw [hmap, hmap]
  congr 1
  refine List.Perm.eq_of_pairwise ?_ (pairwise_sortBy (pairwise_tagged hkeys))
    (pairwise_sortBy (pairwise_tagged hkeys'))
    (((sortBy_perm _ _).trans (tagged_perm h)).trans (sortBy_perm _ _).symm)
  -- elements with one key in one block cannot stand in both orders
  rintro x y - - ⟨hxy, hs⟩ ⟨hyx, hs'⟩
  have hkey : key x.1 = key y.1 := le_antisymm hxy hyx
  rcases hs hyx, hs' hxy with ⟨hlt | ⟨-, hne⟩, hlt' | ⟨-, hne'⟩⟩
  · exact absurd (hlt.trans hlt') (lt_irrefl _)
  · exact absurd hkey.symm hne'
  · exact absurd hkey hne
  · exact absurd hkey hne

/-! ## The least element -/

/-- The least element does not depend on the order. -/
theorem argmin_eq_of_perm (hp : l.Perm l') (hinj : ∀ a ∈ l, ∀ b ∈ l, key a = key b → a = b) :
    l.argmin key = l'.argmin key := by
  cases hmin : l.argmin key with
  | none =>
      rw [List.argmin_eq_none.mp hmin] at hp
      rw [← hp.nil_eq]
      rfl
  | some a =>
      cases hmin' : l'.argmin key with
      | none =>
          rw [List.argmin_eq_none.mp hmin'] at hp
          rw [hp.eq_nil] at hmin
          cases hmin
      | some b =>
          have ha := List.argmin_mem hmin
          have hb := hp.mem_iff.mpr (List.argmin_mem hmin')
          have hab := List.le_of_mem_argmin hb hmin
          have hba := List.le_of_mem_argmin (hp.mem_iff.mp ha) hmin'
          exact congrArg some (hinj a ha b hb (le_antisymm hab hba))

/-- The least image is the image of the least. -/
theorem argmin_map {β : Type} (f : α → β) (key : β → κ) (l : List α) :
    (l.map f).argmin key = (l.argmin fun a => key (f a)).map f := by
  induction l using List.reverseRecOn with
  | nil => rfl
  | append_singleton l a ih =>
      rw [List.map_append, List.map_singleton, List.argmin_concat, List.argmin_concat, ih]
      cases l.argmin fun a => key (f a) with
      | none => rfl
      | some b =>
          show (if key (f a) < key (f b) then some (f a) else some (f b))
            = (if key (f a) < key (f b) then some a else some b).map f
          split_ifs <;> rfl

end StableSort
