/-
# Bisection

`bisectRight keys x` halves an interval of positions until it is empty.  Keys that are at most `x`
up to some position and above `x` from there on have that position found (`bisectRight_append`);
sorted keys always split that way (`bisectRight_split`).
-/
import Mathlib

namespace Bisection

variable {α : Type*} [LinearOrder α]

/-- The loop of `bisect_right` between two positions; the interval is never longer than the fuel. -/
def bisectLoop (keys : List α) (x : α) : ℕ → ℕ → ℕ → ℕ
  | 0, lo, _ => lo
  | fuel + 1, lo, hi =>
      if lo < hi then
        let mid := (lo + hi) / 2
        match keys[mid]? with
        | none => lo
        | some key => if x < key then bisectLoop keys x fuel lo mid
            else bisectLoop keys x fuel (mid + 1) hi
      else lo

/-- The position behind the keys that are at most `x`. -/
def bisectRight (keys : List α) (x : α) : ℕ := bisectLoop keys x keys.length 0 keys.length

theorem bisectLoop_append {l r : List α} {x : α} (hl : ∀ k ∈ l, k ≤ x) (hr : ∀ k ∈ r, x < k) :
    ∀ fuel lo hi, lo ≤ l.length → l.length ≤ hi → hi ≤ (l ++ r).length → hi ≤ lo + fuel →
      bisectLoop (l ++ r) x fuel lo hi = l.length := by
  intro fuel
  induction fuel with
  | zero =>
      intro lo hi hlo hhi _ hfuel
      show lo = l.length
      omega
  | succ fuel ih =>
      intro lo hi hlo hhi hlen hfuel
      rw [bisectLoop]
      split_ifs with hlt
      · have hmid : (lo + hi) / 2 < (l ++ r).length := by omega
        simp only [List.getElem?_eq_getElem hmid]
        by_cases hside : (lo + hi) / 2 < l.length
        · -- the middle is among the keys up to `x`
          have hkey : (l ++ r)[(lo + hi) / 2] ≤ x := by
            rw [List.getElem_append_left hside]
            exact hl _ (List.getElem_mem _)
          rw [if_neg (not_lt.mpr hkey)]
          exact ih _ _ (by omega) hhi hlen (by omega)
        · have hkey : x < (l ++ r)[(lo + hi) / 2] := by
            rw [List.getElem_append_right (not_lt.mp hside)]
            exact hr _ (List.getElem_mem _)
          rw [if_pos hkey]
          exact ih _ _ hlo (not_lt.mp hside) (by omega) (by omega)
      · omega

/-- **Bisection finds the split.** -/
theorem bisectRight_append {l r : List α} {x : α} (hl : ∀ k ∈ l, k ≤ x) (hr : ∀ k ∈ r, x < k) :
    bisectRight (l ++ r) x = l.length :=
  bisectLoop_append hl hr _ _ _ (Nat.zero_le _) (by simp) le_rfl (by omega)

/-- Sorted keys split at the position that is found. -/
theorem bisectRight_split {keys : List α} (h : keys.Pairwise (· ≤ ·)) (x : α) :
    ∃ l r, keys = l ++ r ∧ bisectRight keys x = l.length ∧ (∀ k ∈ l, k ≤ x) ∧ ∀ k ∈ r, x < k := by
  have hsplit :
      keys.takeWhile (fun k => decide (k ≤ x)) ++ keys.dropWhile (fun k => decide (k ≤ x)) = keys :=
    List.takeWhile_append_dropWhile
  have hl : ∀ k ∈ keys.takeWhile (fun k => decide (k ≤ x)), k ≤ x := by
    intro k hk
    simpa using List.mem_takeWhile_imp hk
  have hr : ∀ k ∈ keys.dropWhile (fun k => decide (k ≤ x)), x < k := by
    intro k hk
    cases hdrop : keys.dropWhile (fun k => decide (k ≤ x)) with
    | nil =>
        rw [hdrop] at hk
        cases hk
    | cons first rest =>
        have hfirst : x < first := by
          have hnot :=
            List.dropWhile_get_zero_not (fun k => decide (k ≤ x)) keys (by rw [hdrop]; simp)
          simpa [hdrop] using hnot
        have hsorted : (first :: rest).Pairwise (· ≤ ·) := by
          rw [← hsplit, hdrop] at h
          exact (List.pairwise_append.mp h).2.1
        rw [hdrop] at hk
        rcases List.mem_cons.mp hk with rfl | hk
        · exact hfirst
        · exact hfirst.trans_le ((List.pairwise_cons.mp hsorted).1 k hk)
  refine ⟨_, _, hsplit.symm, ?_, hl, hr⟩
  have hfound := bisectRight_append hl hr
  rw [hsplit] at hfound
  exact hfound

end Bisection
