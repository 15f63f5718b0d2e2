/-
# Transition systems with labelled steps

A system is a partial function `step s a`: the state after the action `a`, when `a` can be taken in
`s`.  An action carries everything the environment chooses (who acts, the clock, a fresh token), so
one list of actions is one interleaving.

* `run` takes a list of actions one after another.
* `Admits C s as` says that every action of the run is taken in a state where `C` allows it.
* `run_invariant`, `run_invariant_of_admits` and `run_rank` carry a step property over a run.
-/
import Mathlib.Data.List.Basic

namespace Transitions

variable {σ α : Type*} (step : σ → α → Option σ)

/-- The state after the actions `as`, when each of them can be taken. -/
def run (s : σ) : List α → Option σ
  | [] => some s
  | a :: as =>
    match step s a with
    | some s' => run s' as
    | none => none

/-- Every action of the run from `s` is taken in a state that `C` allows it in. -/
def Admits (C : σ → α → Prop) (s : σ) : List α → Prop
  | [] => True
  | a :: as => C s a ∧ ∀ s', step s a = some s' → Admits C s' as

/-- How many actions of the run from `s` are taken in a state where `C` holds of them. -/
def count (C : σ → α → Bool) (s : σ) : List α → ℕ
  | [] => 0
  | a :: as =>
    match step s a with
    | some s' => (if C s a then 1 else 0) + count C s' as
    | none => 0

variable {step} {s s' : σ} {a : α} {as bs : List α}

@[simp] theorem run_nil : run step s [] = some s := rfl

theorem run_cons_eq_some_iff :
    run step s (a :: as) = some s' ↔ ∃ m, step s a = some m ∧ run step m as = some s' := by
  rw [run]
  cases step s a with
  | none => simp
  | some m => simp

theorem run_append_eq_some_iff :
    run step s (as ++ bs) = some s' ↔ ∃ m, run step s as = some m ∧ run step m bs = some s' := by
  induction as generalizing s with
  | nil => simp
  | cons a as ih =>
      simp only [List.cons_append, run_cons_eq_some_iff, ih]
      constructor
      · rintro ⟨m, hm, m', hm', h⟩
        exact ⟨m', ⟨m, hm, hm'⟩, h⟩
      · rintro ⟨m', ⟨m, hm, hm'⟩, h⟩
        exact ⟨m, hm, m', hm', h⟩

/-- **Invariant rule.** What the first state has and every step keeps, every state of a run has. -/
theorem run_invariant {P : σ → Prop} (hstep : ∀ s a s', P s → step s a = some s' → P s')
    (h₀ : P s) (h : run step s as = some s') : P s' := by
  induction as generalizing s with
  | nil =>
      rw [run_nil, Option.some.injEq] at h
      exact h ▸ h₀
  | cons a as ih =>
      obtain ⟨m, hm, h⟩ := run_cons_eq_some_iff.mp h
      exact ih (hstep s a m h₀ hm) h

/-- The invariant rule for runs that stay within a condition on their steps. -/
theorem run_invariant_of_admits {P : σ → Prop} {C : σ → α → Prop}
    (hstep : ∀ s a s', P s → C s a → step s a = some s' → P s') (h₀ : P s)
    (hC : Admits step C s as) (h : run step s as = some s') : P s' := by
  induction as generalizing s with
  | nil =>
      rw [run_nil, Option.some.injEq] at h
      exact h ▸ h₀
  | cons a as ih =>
      obtain ⟨m, hm, h⟩ := run_cons_eq_some_iff.mp h
      exact ih (hstep s a m h₀ hC.1 hm) (hC.2 m hm) h

/-- **Ranking rule.** A rank that no step raises and that the steps of a kind lower by `k`. -/
theorem run_rank {P : σ → Prop} {C : σ → α → Bool} {rank : σ → ℕ} {k : ℕ}
    (hP : ∀ s a s', P s → step s a = some s' → P s')
    (hstep : ∀ s a s', P s → step s a = some s' → rank s' ≤ rank s - if C s a then k else 0)
    (h₀ : P s) (h : run step s as = some s') : rank s' ≤ rank s - k * count step C s as := by
  induction as generalizing s with
  | nil =>
      rw [run_nil, Option.some.injEq] at h
      subst h
      simp [count]
  | cons a as ih =>
      obtain ⟨m, hm, h⟩ := run_cons_eq_some_iff.mp h
      have hrest := ih (hP s a m h₀ hm) h
      have hfirst := hstep s a m h₀ hm
      simp only [count, hm]
      cases hC : C s a with
      | true =>
          simp only [hC, if_true] at hfirst ⊢
          rw [Nat.mul_add, Nat.mul_one]
          omega
      | false =>
          simp only [hC, Bool.false_eq_true, if_false, Nat.zero_add] at hfirst ⊢
          omega

theorem admits_cons {C : σ → α → Prop} (hC : C s a) (h : step s a = some s')
    (has : Admits step C s' as) : Admits step C s (a :: as) := by
  refine ⟨hC, fun m hm => ?_⟩
  rw [h] at hm
  obtain rfl := Option.some.inj hm
  exact has

/-- A run can be checked against a condition that can be decided. -/
instance decidableAdmits {C : σ → α → Prop} [∀ s a, Decidable (C s a)] :
    (s : σ) → (as : List α) → Decidable (Admits step C s as)
  | _, [] => isTrue trivial
  | s, a :: as =>
      match h : step s a with
      | none => decidable_of_iff (C s a) (by simp [Admits, h])
      | some s' =>
          have := decidableAdmits (C := C) s' as
          decidable_of_iff (C s a ∧ Admits step C s' as) (by simp [Admits, h])

end Transitions
