/-
# Reading a table by keys

A table is a list of rows in no particular order, with keys in a linear order.  A read filters,
sorts and cuts.  When the rows of interest are, in order, `pre ++ x :: post`, the rows after the key
of `x` are `post` (`sort_after`), and the rows before it, sorted the other way, are `pre` backwards
(`sort_before`).  Descending reads are ascending reads in the dual order.
-/
import Mathlib.Data.List.Sort
import Mathlib.Order.OrderDual

namespace Keyset

variable {α κ : Type*} [LinearOrder κ] (key : α → κ)

/-- The rows in the order of their keys. -/
def sort (rows : List α) : List α := rows.insertionSort (fun a b => key a ≤ key b)

/-- Rows in strict order of their keys. -/
def Ordered (rows : List α) : Prop := rows.Pairwise (fun a b => key a < key b)

variable {key}

theorem sort_perm (rows : List α) : (sort key rows).Perm rows := List.perm_insertionSort _ _

/-- Rows with distinct keys come out strictly ordered. -/
theorem sort_ordered {rows : List α} (h : (rows.map key).Nodup) : Ordered key (sort key rows) := by
  have : Std.Total (fun a b : α => key a ≤ key b) := ⟨fun a b => le_total _ _⟩
  have : IsTrans α (fun a b => key a ≤ key b) := ⟨fun _ _ _ => le_trans⟩
  have hle : (sort key rows).Pairwise (fun a b => key a ≤ key b) := List.pairwise_insertionSort _ _
  have hne : (sort key rows).Pairwise (fun a b => key a ≠ key b) := by
    rw [← List.pairwise_map]
    exact ((sort_perm rows).map key).nodup_iff.mpr h
  exact (hle.and hne).imp fun hab => lt_of_le_of_ne hab.1 hab.2

theorem Ordered.nodup_keys {rows : List α} (h : Ordered key rows) : (rows.map key).Nodup :=
  List.pairwise_map.mpr (h.imp fun hab => hab.ne)

/-- There is one strictly ordered list of given rows. -/
theorem sort_eq {rows l : List α} (hp : rows.Perm l) (hl : Ordered key l) : sort key rows = l := by
  refine List.Perm.eq_of_pairwise (fun a b _ _ hab hba => absurd hab hba.asymm) ?_ hl
    ((sort_perm rows).trans hp)
  exact sort_ordered ((hp.map key).nodup_iff.mpr hl.nodup_keys)

section Split

variable {rows pre post : List α} {x : α}

/-- The rows behind a key. -/
theorem sort_after (hp : rows.Perm (pre ++ x :: post)) (hl : Ordered key (pre ++ x :: post)) :
    sort key (rows.filter (fun r => key x < key r)) = post := by
  obtain ⟨-, hpost, hcross⟩ := List.pairwise_append.mp hl
  rw [List.pairwise_cons] at hpost
  apply sort_eq
  · refine (hp.filter _).trans (List.Perm.of_eq ?_)
    rw [List.filter_append, List.filter_cons_of_neg (by simp), List.filter_eq_nil_iff.mpr,
      List.filter_eq_self.mpr, List.nil_append]
    · exact fun r hr => by simpa using hpost.1 r hr
    · exact fun r hr => by simpa using (hcross r hr x List.mem_cons_self).le
  · exact hpost.2

/-- The rows before a key, backwards. -/
theorem sort_before (hp : rows.Perm (pre ++ x :: post)) (hl : Ordered key (pre ++ x :: post)) :
    sort (OrderDual.toDual ∘ key) (rows.filter (fun r => key r < key x)) = pre.reverse := by
  obtain ⟨hpre, hpost, hcross⟩ := List.pairwise_append.mp hl
  rw [List.pairwise_cons] at hpost
  apply sort_eq
  · refine ((hp.filter _).trans (List.Perm.of_eq ?_)).trans (List.reverse_perm pre).symm
    rw [List.filter_append, List.filter_cons_of_neg (by simp),
      List.filter_eq_nil_iff (l := post) |>.mpr,
      List.filter_eq_self.mpr, List.append_nil]
    · exact fun r hr => by simpa using hcross r hr x List.mem_cons_self
    · exact fun r hr => by simpa using (hpost.1 r hr).le
  · exact List.pairwise_reverse.mpr hpre

end Split

end Keyset
