/-
# Bounded iteration to a fixed point

A step function is applied to a state until a judge of the last two states is satisfied, a bounded
number of times.  Step and judge may fail.

* `states next s k`: the state after `k` steps.
* `turn next judge s k`: the `k`-th state with its judgement.
* **`loop_cases`**: the loop ends at the first turn that is good or fails, or at its bound.
-/
import EvidenceLab.ExceptRules

namespace BoundedIteration

variable {σ ρ ε : Type}

/-- The state after `k` steps. -/
def states (next : σ → Except ε σ) (s : σ) (k : ℕ) : Except ε σ := (fun x => x >>= next)^[k] (.ok s)

/-- The `k`-th step, from the state before it, and how it is judged. -/
def turn (next : σ → Except ε σ) (judge : σ → σ → Except ε ρ) (s : σ) (k : ℕ) :
    Except ε (σ × ρ) := do
  let u ← states next s (k - 1)
  let w ← next u
  let r ← judge u w
  return (w, r)

/-- How the loop ended. -/
inductive Ending (σ ρ : Type) where
  | converged (k : ℕ) (state : σ) (judgement : ρ)
  | exhausted (last : Option ρ)

/-- At most `fuel` more steps, after `k`. -/
def loop (next : σ → Except ε σ) (judge : σ → σ → Except ε ρ) (good : ρ → Bool) :
    ℕ → ℕ → σ → Option ρ → Except ε (Ending σ ρ)
  | 0, _, _, last => .ok (.exhausted last)
  | fuel + 1, k, u, _ => do
    let w ← next u
    let r ← judge u w
    if good r then .ok (.converged (k + 1) w r) else loop next judge good fuel (k + 1) w (some r)

section

variable {next : σ → Except ε σ} {judge : σ → σ → Except ε ρ} {good : ρ → Bool} {s : σ}

theorem states_zero : states next s 0 = .ok s := rfl

theorem states_succ (k : ℕ) : states next s (k + 1) = states next s k >>= next := by
  rw [states, Function.iterate_succ_apply', states]

/-- A turn that returned is a step. -/
theorem states_of_turn {k : ℕ} (hk : 1 ≤ k) {w : σ} {r : ρ} (h : turn next judge s k = .ok (w, r)) :
    states next s k = .ok w := by
  obtain ⟨j, rfl⟩ : ∃ j, k = j + 1 := ⟨k - 1, by omega⟩
  simp only [turn, Nat.add_sub_cancel, Except.bind_eq_ok_iff, Except.pure_eq_ok, Except.ok.injEq,
    Prod.mk.injEq] at h
  obtain ⟨u, hu, w', hw, r', -, rfl, -⟩ := h
  rw [states_succ, hu, Except.ok_bind, hw]

variable (next judge good s) in
/-- The turn was judged and is not good. -/
def Misses (k : ℕ) : Prop := ∃ w r, turn next judge s k = .ok (w, r) ∧ good r = false

/-- **How the loop ends**: at the first turn that is good, at the first that fails, or at the bound
with the last judgement. -/
theorem loop_cases : ∀ (fuel k : ℕ) {u : σ} {last : Option ρ}, states next s k = .ok u →
    (∃ j w r, k < j ∧ j ≤ k + fuel ∧ (∀ i, k < i → i < j → Misses next judge good s i)
        ∧ turn next judge s j = .ok (w, r) ∧ good r = true
        ∧ loop next judge good fuel k u last = .ok (.converged j w r))
      ∨ (∃ j e, k < j ∧ j ≤ k + fuel ∧ (∀ i, k < i → i < j → Misses next judge good s i)
        ∧ turn next judge s j = .error e ∧ loop next judge good fuel k u last = .error e)
      ∨ (∀ i, k < i → i ≤ k + fuel → Misses next judge good s i)
        ∧ ∃ end', loop next judge good fuel k u last = .ok (.exhausted end')
          ∧ (fuel = 0 → end' = last)
          ∧ (0 < fuel → ∃ w r, turn next judge s (k + fuel) = .ok (w, r) ∧ end' = some r) := by
  intro fuel
  induction fuel with
  | zero =>
      intro k u last hu
      refine .inr (.inr ⟨fun i h1 h2 => by omega, last, rfl, fun _ => rfl, by omega⟩)
  | succ fuel ih =>
      intro k u last hu
      -- the first turn steps from `u` and judges the outcome
      have hturn : turn next judge s (k + 1) = do
          let w ← next u
          let r ← judge u w
          return (w, r) := by
        rw [turn, Nat.add_sub_cancel, hu, Except.ok_bind]
      have hfirst : ∀ i, k < i → i < k + 1 → Misses next judge good s i := fun i h1 h2 => by omega
      rw [loop]
      cases hw : next u with
      | error e =>
          exact .inr (.inl ⟨k + 1, e, by omega, by omega, hfirst, by rw [hturn, hw]; rfl, rfl⟩)
      | ok w =>
          rw [Except.ok_bind]
          cases hr : judge u w with
          | error e =>
              exact .inr (.inl ⟨k + 1, e, by omega, by omega, hfirst,
                by rw [hturn, hw, Except.ok_bind, hr]; rfl, rfl⟩)
          | ok r =>
              have hok : turn next judge s (k + 1) = .ok (w, r) := by
                rw [hturn, hw, Except.ok_bind, hr, Except.ok_bind]
                rfl
              rw [Except.ok_bind]
              by_cases hgood : good r = true
              · rw [if_pos hgood]
                exact .inl ⟨k + 1, w, r, by omega, by omega, hfirst, hok, hgood, rfl⟩
              · rw [if_neg hgood]
                -- the next turn starts from the state just reached
                have hmiss : ∀ j, (∀ i, k + 1 < i → i < j → Misses next judge good s i) →
                    ∀ i, k < i → i < j → Misses next judge good s i := by
                  intro j hj i h1 h2
                  by_cases hi : i = k + 1
                  · rw [hi]
                    exact ⟨w, r, hok, by simpa using hgood⟩
                  · exact hj i (by omega) h2
                rcases @ih (k + 1) w (some r) (states_of_turn (by omega) hok) with
                  ⟨j, w', r', h1, h2, hj, hturn', hgood', hloop⟩ | ⟨j, e, h1, h2, hj, hturn', hloop⟩
                    | ⟨hall, end', hloop, hzero, hlast⟩
                · exact .inl ⟨j, w', r', by omega, by omega, hmiss j hj, hturn', hgood', hloop⟩
                · exact .inr (.inl ⟨j, e, by omega, by omega, hmiss j hj, hturn', hloop⟩)
                · refine .inr (.inr ⟨?_, end', hloop, by omega, fun _ => ?_⟩)
                  · intro i h1 h2
                    exact hmiss (k + (fuel + 1) + 1) (fun i h3 h4 => hall i h3 (by omega)) i h1
                      (by omega)
                  · rw [show k + (fuel + 1) = k + 1 + fuel by omega]
                    rcases Nat.eq_zero_or_pos fuel with rfl | hpos
                    · exact ⟨w, r, hok, hzero rfl⟩
                    · exact hlast hpos

end

end BoundedIteration
