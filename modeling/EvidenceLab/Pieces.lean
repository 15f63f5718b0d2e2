/-
# Machines that are fed in pieces

A `PieceReader` reads symbols one by one, emits events and may get stuck.  It is fed in pieces of at
most `W` symbols: a piece is decoded as a whole before any of its symbols is read, and the size of
the buffer is looked at only between two pieces.  `feed` is such a run, `fine` the one with pieces
of one symbol.

Both habits make the result depend on the pieces.  A piece that cannot be decoded hides the events
of its first symbols, and a buffer that is too large for less than `W` symbols may go unnoticed.
`feed_agree_iff` says that nothing else does: the result is the same for all ways to cut the input
exactly when no event is followed by an undecodable symbol within `W` symbols, and nothing but a
failure follows once the buffer has been too large (`Steady`).
-/
import Mathlib

/-- A machine over symbols `α` with events `ε`. -/
structure PieceReader (σ α ε : Type) where
  /-- One symbol; `none` when the machine is stuck. -/
  step : σ → α → Option (σ × Option ε)
  /-- The symbols of a piece can be decoded. -/
  decodes : σ → List α → Bool
  /-- The buffer is too large. -/
  full : σ → Bool
  /-- The input may end here. -/
  mayEnd : σ → Bool
  decodes_nil : ∀ s, decodes s [] = true
  decodes_cons : ∀ {s a s' e}, step s a = some (s', e) → ∀ l, decodes s (a :: l) = decodes s' l
  decodes_of_append : ∀ {s l l'}, decodes s (l ++ l') = true → decodes s l = true

namespace PieceReader

variable {σ α ε : Type} (M : PieceReader σ α ε)

/-! ## Runs -/

/-- The events of a list of symbols, and the state after it unless the machine got stuck. -/
def run : σ → List α → List ε × Option σ
  | s, [] => ([], some s)
  | s, a :: l =>
      match M.step s a with
      | none => ([], none)
      | some (s', e) => (e.toList ++ (run s' l).1, (run s' l).2)

/-- A run that is fed in pieces: the events, and whether it ended well. -/
def feed : σ → List (List α) → List ε × Bool
  | s, [] => ([], M.mayEnd s)
  | s, p :: ps =>
      if M.decodes s p then
        match M.run s p with
        | (es, none) => (es, false)
        | (es, some s') => if M.full s' then (es, false) else (es ++ (feed s' ps).1, (feed s' ps).2)
      else ([], false)

/-- The run in pieces of one symbol. -/
def fine : σ → List α → List ε × Bool
  | s, [] => ([], M.mayEnd s)
  | s, a :: l =>
      match M.step s a with
      | none => ([], false)
      | some (s', e) => if M.full s' then (e.toList, false)
          else (e.toList ++ (fine s' l).1, (fine s' l).2)

/-- The pieces of an input. -/
def IsCut (W : ℕ) (l : List α) (ps : List (List α)) : Prop :=
  ps.flatten = l ∧ ∀ p ∈ ps, p ≠ [] ∧ p.length ≤ W

/-! ## Positions -/

/-- The state after the first `i` symbols. -/
def stateAt (s : σ) (l : List α) (i : ℕ) : Option σ := (M.run s (l.take i)).2

/-- The symbol at `t` completes an event. -/
def EventAt (s : σ) (l : List α) (t : ℕ) : Prop :=
  ∃ s' a s'' e, M.stateAt s l t = some s' ∧ l[t]? = some a ∧ M.step s' a = some (s'', some e)

/-- The buffer is too large after the first `q` symbols. -/
def FullAt (s : σ) (l : List α) (q : ℕ) : Prop :=
  0 < q ∧ q ≤ l.length ∧ ∃ s', M.stateAt s l q = some s' ∧ M.full s' = true

/-- The buffer has been too large along `W` symbols, so that a piece has ended there. -/
def BlockedAt (W : ℕ) (s : σ) (l : List α) (i : ℕ) : Prop :=
  ∃ j, j + W ≤ i + 1 ∧ ∀ k < W, M.FullAt s l (j + k)

/-- The machine reads the whole input and may stop there. -/
def EndsWell (s : σ) (l : List α) : Prop :=
  ∃ s', (M.run s l).2 = some s' ∧ M.full s' = false ∧ M.mayEnd s' = true

/-- Nothing that the pieces could hide. -/
structure Steady (W : ℕ) (s : σ) (l : List α) : Prop where
  /-- The symbols after an event can be decoded. -/
  decoded : ∀ t, M.EventAt s l t → ¬ M.BlockedAt W s l t → M.decodes s (l.take (t + W)) = true
  /-- No event after the buffer has been too large … -/
  quiet : ∀ q t, M.FullAt s l q → q ≤ t → ¬ M.BlockedAt W s l t → ¬ M.EventAt s l t
  /-- … and no good end. -/
  doomed : ∀ q, M.FullAt s l q → ¬ M.BlockedAt W s l l.length → ¬ M.EndsWell s l

section Runs

variable {M} {s s' : σ} {l r p : List α} {es : List ε}

/-- A run goes on from the state it has reached. -/
theorem run_append (h : M.run s p = (es, some s')) (r : List α) :
    M.run s (p ++ r) = (es ++ (M.run s' r).1, (M.run s' r).2) := by
  induction p generalizing s es with
  | nil =>
      cases h
      rfl
  | cons a p ih =>
      rw [List.cons_append, run]
      rw [run] at h
      cases hstep : M.step s a with
      | none =>
          rw [hstep] at h
          cases h
      | some x =>
          obtain ⟨s₁, e⟩ := x
          rw [hstep] at h
          obtain ⟨h₁, h₂⟩ := Prod.mk.inj h
          have hp : M.run s₁ p = ((M.run s₁ p).1, some s') := Prod.ext rfl h₂
          simp only [ih hp, ← h₁, List.append_assoc]

/-- A stuck run stays stuck. -/
theorem run_append_stuck (h : M.run s p = (es, none)) (r : List α) :
    M.run s (p ++ r) = (es, none) := by
  induction p generalizing s es with
  | nil => cases h
  | cons a p ih =>
      rw [List.cons_append, run]
      rw [run] at h
      cases hstep : M.step s a with
      | none =>
          rw [hstep] at h
          exact h
      | some x =>
          obtain ⟨s₁, e⟩ := x
          rw [hstep] at h
          obtain ⟨h₁, h₂⟩ := Prod.mk.inj h
          have hp : M.run s₁ p = ((M.run s₁ p).1, none) := Prod.ext rfl h₂
          simp only [ih hp, ← h₁]

/-- What can be read can be decoded. -/
theorem decodes_append (h : M.run s p = (es, some s')) (r : List α) :
    M.decodes s (p ++ r) = M.decodes s' r := by
  induction p generalizing s es with
  | nil =>
      cases h
      rfl
  | cons a p ih =>
      rw [run] at h
      cases hstep : M.step s a with
      | none =>
          rw [hstep] at h
          cases h
      | some x =>
          obtain ⟨s₁, e⟩ := x
          rw [hstep] at h
          obtain ⟨-, h₂⟩ := Prod.mk.inj h
          rw [List.cons_append, M.decodes_cons hstep]
          exact ih (Prod.ext rfl h₂)

/-- What has been run can be decoded. -/
theorem decodes_of_run (h : M.run s p = (es, some s')) : M.decodes s p = true := by
  rw [← List.append_nil p, decodes_append h, M.decodes_nil]

theorem run_eq (s : σ) (l : List α) (h : (M.run s l).2 = some s') :
    M.run s l = ((M.run s l).1, some s') := Prod.ext rfl h

/-- A prefix of what can be read can be read. -/
theorem exists_stateAt_of_le {i j : ℕ} (hij : i ≤ j) (h : M.stateAt s l j = some s') :
    ∃ s₁, M.stateAt s l i = some s₁ := by
  cases hi : M.stateAt s l i with
  | some s₁ => exact ⟨s₁, rfl⟩
  | none =>
      have hrun : M.run s (l.take i) = ((M.run s (l.take i)).1, none) := Prod.ext rfl hi
      have hsplit : l.take j = l.take i ++ (l.take j).drop i := by
        have htake : (l.take j).take i = l.take i := by rw [List.take_take, min_eq_left hij]
        rw [← htake, List.take_append_drop]
      rw [stateAt, hsplit, run_append_stuck hrun] at h
      cases h

/-! ### After a piece -/

/-- The states of the second part are those of its own run. -/
theorem stateAt_append (h : M.run s p = (es, some s')) (r : List α) (i : ℕ) :
    M.stateAt s (p ++ r) (p.length + i) = M.stateAt s' r i := by
  rw [stateAt, List.take_length_add_append, run_append h]
  rfl

/-- The states of the first part do not depend on what follows. -/
theorem stateAt_append_left (s : σ) {i : ℕ} (hi : i ≤ p.length) (r : List α) :
    M.stateAt s (p ++ r) i = M.stateAt s p i := by
  rw [stateAt, List.take_append_of_le_length hi]
  rfl

/-- The events of the second part are those of its own run. -/
theorem eventAt_append (h : M.run s p = (es, some s')) (r : List α) (t : ℕ) :
    M.EventAt s (p ++ r) (p.length + t) ↔ M.EventAt s' r t := by
  rw [EventAt, EventAt, stateAt_append h, List.getElem?_append_right (Nat.le_add_right _ _),
    Nat.add_sub_cancel_left]

/-- The events of the first part do not depend on what follows. -/
theorem eventAt_append_left (s : σ) {t : ℕ} (ht : t < p.length) (r : List α) :
    M.EventAt s (p ++ r) t ↔ M.EventAt s p t := by
  rw [EventAt, EventAt, stateAt_append_left s ht.le, List.getElem?_append_left ht]

/-- The machine is full in the second part where its own run is. -/
theorem fullAt_append (h : M.run s p = (es, some s')) (r : List α) {q : ℕ} (hq : 0 < q) :
    M.FullAt s (p ++ r) (p.length + q) ↔ M.FullAt s' r q := by
  rw [FullAt, FullAt, stateAt_append h, List.length_append]
  constructor
  · rintro ⟨-, hle, hfull⟩
    exact ⟨hq, by omega, hfull⟩
  · rintro ⟨-, hle, hfull⟩
    exact ⟨by omega, by omega, hfull⟩

/-- The machine is full in the first part whatever follows. -/
theorem fullAt_append_left (s : σ) {q : ℕ} (hq : q ≤ p.length) (r : List α) :
    M.FullAt s (p ++ r) q ↔ M.FullAt s p q := by
  rw [FullAt, FullAt, stateAt_append_left s hq, List.length_append]
  constructor
  · rintro ⟨hpos, -, hfull⟩
    exact ⟨hpos, hq, hfull⟩
  · rintro ⟨hpos, -, hfull⟩
    exact ⟨hpos, by omega, hfull⟩

theorem stateAt_length (s : σ) (l : List α) : M.stateAt s l l.length = (M.run s l).2 := by
  rw [stateAt, List.take_length]

/-- A run that ends in room is not full at its end. -/
theorem not_fullAt_length (h : M.run s p = (es, some s')) (hfull : M.full s' = false) (r : List α) :
    ¬ M.FullAt s (p ++ r) p.length := by
  rintro ⟨-, -, s₁, hs₁, hfull₁⟩
  rw [stateAt_append_left s le_rfl, stateAt_length, h] at hs₁
  cases hs₁
  rw [hfull] at hfull₁
  cases hfull₁

/-- A state that is not full separates what is before it from what is after it. -/
theorem blockedAt_append (h : M.run s p = (es, some s')) (hfull : M.full s' = false)
    {W : ℕ} (hW : 0 < W)
    (hp : p.length ≤ W) (r : List α) (i : ℕ) : M.BlockedAt W s (p ++ r) (p.length + i) ↔
    M.BlockedAt W s' r i := by
  constructor
  · rintro ⟨j, hj, hall⟩
    -- otherwise the end of the piece would be one of the full places
    have hlater : p.length < j := by
      by_contra hle
      rw [not_lt] at hle
      have hpos : 0 < j := (hall 0 hW).1
      have hmid := hall (p.length - j) (by omega)
      rw [Nat.add_sub_cancel' hle] at hmid
      exact not_fullAt_length h hfull r hmid
    refine ⟨j - p.length, by omega, fun k hk => ?_⟩
    have hk' := hall k hk
    rw [show j + k = p.length + (j - p.length + k) by omega, fullAt_append h r (by omega)] at hk'
    exact hk'
  · rintro ⟨j, hj, hall⟩
    refine ⟨p.length + j, by omega, fun k hk => ?_⟩
    have hk' := hall k hk
    rw [show p.length + j + k = p.length + (j + k) by omega, fullAt_append h r hk'.1]
    exact hk'

/-- Too few places for a block. -/
theorem not_blockedAt_of_lt {W i : ℕ} (hW : 0 < W) (hi : i < W) : ¬ M.BlockedAt W s l i := by
  rintro ⟨j, hj, hall⟩
  have hpos : 0 < j := (hall 0 hW).1
  omega

/-- A machine that was never full is not blocked. -/
theorem not_blockedAt_of_not_full {W i : ℕ} (hW : 0 < W) (h : ∀ q, q ≤ i → ¬ M.FullAt s l q) :
    ¬ M.BlockedAt W s l i := by
  rintro ⟨j, hj, hall⟩
  exact h (j + 0) (by omega) (hall 0 hW)

/-- What blocks a place blocks every later one. -/
theorem BlockedAt.mono {W i j : ℕ} (hij : i ≤ j) (h : M.BlockedAt W s l i) :
    M.BlockedAt W s l j := by
  obtain ⟨k, hk, hall⟩ := h
  exact ⟨k, by omega, hall⟩

/-- A run ends well if its second part does. -/
theorem endsWell_append (h : M.run s p = (es, some s')) (r : List α) :
    M.EndsWell s (p ++ r) ↔ M.EndsWell s' r := by
  rw [EndsWell, EndsWell, run_append h]

/-- **What is left after a piece is steady again.** -/
theorem Steady.drop {W : ℕ} (hW : 0 < W) (hp : p.length ≤ W) (h : M.run s p = (es, some s'))
    (hfull : M.full s' = false)
    (hsteady : M.Steady W s (p ++ r)) : M.Steady W s' r where
  decoded t ht hblocked := by
    have hdec := hsteady.decoded (p.length + t) ((eventAt_append h r t).mpr ht)
      (fun hb => hblocked ((blockedAt_append h hfull hW hp r t).mp hb))
    rw [Nat.add_assoc, List.take_length_add_append, decodes_append h] at hdec
    exact hdec
  quiet q t hq hqt hblocked ht :=
    hsteady.quiet (p.length + q) (p.length + t) ((fullAt_append h r hq.1).mpr hq) (by omega)
      (fun hb => hblocked ((blockedAt_append h hfull hW hp r t).mp hb))
      ((eventAt_append h r t).mpr ht)
  doomed q hq hblocked hwell := by
    refine hsteady.doomed (p.length + q) ((fullAt_append h r hq.1).mpr hq) (fun hb => hblocked ?_)
      ((endsWell_append h r).mpr hwell)
    rw [List.length_append] at hb
    exact (blockedAt_append h hfull hW hp r r.length).mp hb

/-! ## Pieces of one symbol -/

theorem run_singleton {a : α} {e : Option ε} (h : M.step s a = some (s', e)) :
    M.run s [a] = (e.toList, some s') := by
  simp [run, h]

/-- Feeding single bytes is the finest feeding. -/
theorem feed_singletons (s : σ) (l : List α) : M.feed s (l.map fun a => [a]) = M.fine s l := by
  induction l generalizing s with
  | nil => rfl
  | cons a l ih =>
      rw [List.map_cons, feed, fine]
      cases hstep : M.step s a with
      | none =>
          have hrun : M.run s [a] = ([], none) := by simp [run, hstep]
          rw [hrun]
          simp
      | some x =>
          obtain ⟨s₁, e⟩ := x
          have hrun := run_singleton hstep
          rw [if_pos (decodes_of_run hrun), hrun]
          show (if M.full s₁ then _ else (_ ++ (M.feed s₁ (l.map fun a => [a])).1, _)) = _
          rw [ih]

/-- Single bytes cut a list. -/
theorem isCut_singletons {W : ℕ} (hW : 0 < W) (l : List α) : IsCut W l (l.map fun a => [a]) := by
  refine ⟨?_, fun p hp => ?_⟩
  · rw [← List.flatMap_def]
    exact List.flatMap_singleton' l
  · obtain ⟨a, -, rfl⟩ := List.mem_map.mp hp
    exact ⟨List.cons_ne_nil a [], hW⟩

/-- A piece along which the buffer is never too large. -/
theorem fine_append (h : M.run s p = (es, some s')) (hfull : ∀ q, ¬ M.FullAt s p q) (r : List α) :
    M.fine s (p ++ r) = (es ++ (M.fine s' r).1, (M.fine s' r).2) := by
  induction p generalizing s es with
  | nil =>
      cases h
      rfl
  | cons a p ih =>
      rw [run] at h
      cases hstep : M.step s a with
      | none =>
          rw [hstep] at h
          cases h
      | some x =>
          obtain ⟨s₁, e⟩ := x
          rw [hstep] at h
          obtain ⟨h₁, h₂⟩ := Prod.mk.inj h
          have hrun := run_singleton hstep
          have hfull₁ : M.full s₁ = false := by
            by_contra htrue
            rw [Bool.not_eq_false] at htrue
            exact hfull 1 ⟨Nat.one_pos, Nat.succ_pos _, s₁, by simp [stateAt, hrun], htrue⟩
          have hrest : ∀ q, ¬ M.FullAt s₁ p q := fun q hq =>
            hfull (1 + q) ((fullAt_append hrun p hq.1).mpr hq)
          rw [List.cons_append, fine, hstep]
          simp only [hfull₁, ih (run_eq s₁ p h₂) hrest, Bool.false_eq_true, if_false, ← h₁,
            List.append_assoc]

/-- The run in pieces of one symbol stops where the buffer is too large. -/
theorem fine_of_fullAt {q : ℕ} (h : M.FullAt s l q) :
    ∃ q₀ ≤ q, M.FullAt s l q₀ ∧ M.fine s l = ((M.run s (l.take q₀)).1, false) := by
  obtain ⟨q₀, hq₀, hleast⟩ : ∃ q₀, M.FullAt s l q₀ ∧ ∀ q < q₀, ¬ M.FullAt s l q := by
    classical
    exact ⟨Nat.find ⟨q, h⟩, Nat.find_spec ⟨q, h⟩, fun _ hlt => Nat.find_min ⟨q, h⟩ hlt⟩
  have hle : q₀ ≤ q := by
    by_contra hlt
    exact hleast q (not_le.mp hlt) h
  refine ⟨q₀, hle, hq₀, ?_⟩
  -- everything up to the symbol before, then that symbol
  obtain ⟨hpos, hlen, s', hs', hfull⟩ := hq₀
  obtain ⟨i, rfl⟩ : ∃ i, q₀ = i + 1 := ⟨q₀ - 1, by omega⟩
  obtain ⟨s₁, hs₁⟩ := exists_stateAt_of_le (Nat.le_succ i) hs'
  have hrun := run_eq s (l.take i) hs₁
  have hsplit : l = l.take i ++ (l[i] :: l.drop (i + 1)) := by
    rw [List.getElem_cons_drop, List.take_append_drop]
  have htake : l.take (i + 1) = l.take i ++ [l[i]] := List.take_succ_eq_append_getElem hlen
  rw [stateAt, htake, run_append hrun] at hs'
  cases hstep : M.step s₁ l[i] with
  | none => simp [run, hstep] at hs'
  | some x =>
      obtain ⟨s₂, e⟩ := x
      have hsing := run_singleton hstep
      rw [hsing] at hs'
      cases hs'
      have hnone : ∀ q, ¬ M.FullAt s (l.take i) q := by
        intro q hq
        have hqi : q ≤ i := hq.2.1.trans (List.length_take_le i l)
        refine hleast q (by omega) ?_
        rw [← List.take_append_drop i l]
        exact (fullAt_append_left s hq.2.1 _).mpr hq
      rw [htake, run_append hrun, hsing]
      conv_lhs => rw [hsplit]
      rw [fine_append hrun hnone, fine, hstep]
      simp [hfull]

/-- Without later events, a first part has them all. -/
theorem run_events_of_take {i : ℕ} (h : ∀ t, i ≤ t → ¬ M.EventAt s l t) :
    (M.run s (l.take i)).1 = (M.run s l).1 := by
  induction l generalizing s i with
  | nil => rw [List.take_nil]
  | cons a l ih =>
      cases hstep : M.step s a with
      | none =>
          cases i with
          | zero => simp [run, hstep]
          | succ i => simp [run, hstep]
      | some x =>
          obtain ⟨s₁, e⟩ := x
          have hrun := run_singleton hstep
          have hshift : ∀ t, M.EventAt s (a :: l) (t + 1) ↔ M.EventAt s₁ l t := by
            intro t
            rw [Nat.add_comm]
            exact eventAt_append hrun l t
          cases i with
          | zero =>
              have hnone : e = none := by
                cases e with
                | none => rfl
                | some e => exact absurd ⟨s, a, s₁, e, rfl, rfl, hstep⟩ (h 0 le_rfl)
              have htail := ih (i := 0) fun t _ ht => h (t + 1) (Nat.zero_le _) ((hshift t).mpr ht)
              rw [List.take_zero] at htail ⊢
              simp only [run, hstep, hnone, Option.toList_none, List.nil_append, ← htail]
          | succ i =>
              have htail := ih (i := i) fun t hit ht => h (t + 1) (by omega) ((hshift t).mpr ht)
              simp only [List.take_succ_cons, run, hstep, htail]

/-- The run in pieces of one symbol meets no full buffer before an event it emits. -/
theorem exists_event_of_fine (h : (M.fine s l).1 ≠ []) : ∃ t, M.EventAt s l t ∧ ∀ q, q ≤ t →
    ¬ M.FullAt s l q := by
  induction l generalizing s with
  | nil => exact absurd rfl h
  | cons a l ih =>
      rw [fine] at h
      cases hstep : M.step s a with
      | none =>
          rw [hstep] at h
          exact absurd rfl h
      | some x =>
          obtain ⟨s₁, e⟩ := x
          have hrun := run_singleton hstep
          cases e with
          | some e =>
              refine ⟨0, ⟨s, a, s₁, e, rfl, rfl, hstep⟩, fun q hq hfull => ?_⟩
              exact absurd hfull.1 (by omega)
          | none =>
              rw [hstep] at h
              cases hfull : M.full s₁ with
              | true => simp [hfull] at h
              | false =>
                  simp only [hfull, Bool.false_eq_true, if_false, Option.toList_none,
                    List.nil_append] at h
                  obtain ⟨t, ht, hnone⟩ := ih h
                  refine ⟨1 + t, (eventAt_append hrun l t).mpr ht, fun q hq hq' => ?_⟩
                  obtain ⟨q, rfl⟩ : ∃ q', q = 1 + q' := ⟨q - 1, by have := hq'.1; omega⟩
                  rcases Nat.eq_zero_or_pos q with rfl | hpos
                  · exact not_fullAt_length hrun hfull l hq'
                  · exact hnone q (by omega) ((fullAt_append hrun l hpos).mp hq')

/-- A good end of the run in pieces of one symbol. -/
theorem endsWell_of_fine (hfull : M.full s = false) (h : (M.fine s l).2 = true) :
    M.EndsWell s l ∧ ∀ q, ¬ M.FullAt s l q := by
  induction l generalizing s with
  | nil =>
      refine ⟨⟨s, rfl, hfull, h⟩, fun q hq => ?_⟩
      exact absurd hq.1 (by have := hq.2.1; simp at this; omega)
  | cons a l ih =>
      rw [fine] at h
      cases hstep : M.step s a with
      | none =>
          rw [hstep] at h
          cases h
      | some x =>
          obtain ⟨s₁, e⟩ := x
          have hrun := run_singleton hstep
          rw [hstep] at h
          cases hfull₁ : M.full s₁ with
          | true => simp [hfull₁] at h
          | false =>
              simp only [hfull₁, Bool.false_eq_true, if_false] at h
              obtain ⟨hwell, hnone⟩ := ih hfull₁ h
              refine ⟨(endsWell_append hrun l).mpr hwell, fun q hq => ?_⟩
              obtain ⟨q, rfl⟩ : ∃ q', q = 1 + q' := ⟨q - 1, by have := hq.1; omega⟩
              rcases Nat.eq_zero_or_pos q with rfl | hpos
              · exact not_fullAt_length hrun hfull₁ l hq
              · exact hnone q ((fullAt_append hrun l hpos).mp hq)

/-- A run that gets stuck without being full fails at that place. -/
theorem fine_of_stuck (hfull : ∀ q, ¬ M.FullAt s l q) (h : (M.run s l).2 = none) :
    M.fine s l = ((M.run s l).1, false) := by
  induction l generalizing s with
  | nil => cases h
  | cons a l ih =>
      rw [run] at h
      rw [fine, run]
      cases hstep : M.step s a with
      | none => rfl
      | some x =>
          obtain ⟨s₁, e⟩ := x
          have hrun := run_singleton hstep
          rw [hstep] at h
          have hfull₁ : M.full s₁ = false := by
            by_contra htrue
            rw [Bool.not_eq_false] at htrue
            exact hfull 1 ⟨Nat.one_pos, Nat.succ_pos _, s₁, by simp [stateAt, hrun], htrue⟩
          have hrest := ih (fun q hq => hfull (1 + q) ((fullAt_append hrun l hq.1).mpr hq)) h
          simp only [hfull₁, hrest, Bool.false_eq_true, if_false]

/-! ## All cuts agree -/

/-- A steady input has no event that an undecodable piece could hide. -/
theorem fine_of_undecodable {W : ℕ} (hW : 0 < W) (hp : p.length ≤ W) (hfull : M.full s = false)
    (hsteady : M.Steady W s (p ++ r)) (hdec : M.decodes s p = false) :
    M.fine s (p ++ r) = ([], false) := by
  refine Prod.ext ?_ ?_
  · by_contra hne
    obtain ⟨t, ht, hnone⟩ := exists_event_of_fine hne
    have hdecoded := hsteady.decoded t ht (not_blockedAt_of_not_full hW hnone)
    obtain ⟨k, hk⟩ : ∃ k, t + W = p.length + k := ⟨t + W - p.length, by omega⟩
    rw [hk, List.take_length_add_append] at hdecoded
    rw [M.decodes_of_append hdecoded] at hdec
    cases hdec
  · by_contra hne
    rw [Bool.not_eq_false] at hne
    obtain ⟨⟨s', hs', -⟩, -⟩ := endsWell_of_fine hfull hne
    cases hrun : (M.run s p).2 with
    | none =>
        rw [run_append_stuck (Prod.ext rfl hrun)] at hs'
        cases hs'
    | some s₁ =>
        rw [decodes_of_run (run_eq s p hrun)] at hdec
        cases hdec

/-- A steady input on which the buffer has been too large along the piece. -/
theorem fine_after_full {W : ℕ} (hW : 0 < W) (hp : p.length ≤ W) (hsteady : M.Steady W s (p ++ r))
    (hrun : M.run s p = (es, some s')) (hfull : M.full s' = false) {q : ℕ}
    (hq : M.FullAt s (p ++ r) q)
    (hqp : q ≤ p.length) : M.fine s' r = ([], false) := by
  refine Prod.ext ?_ ?_
  · by_contra hne
    obtain ⟨t, ht, hnone⟩ := exists_event_of_fine hne
    refine hsteady.quiet q (p.length + t) hq (by omega) ?_ ((eventAt_append hrun r t).mpr ht)
    rw [blockedAt_append hrun hfull hW hp]
    exact not_blockedAt_of_not_full hW hnone
  · by_contra hne
    rw [Bool.not_eq_false] at hne
    obtain ⟨hwell, hnone⟩ := endsWell_of_fine hfull hne
    refine hsteady.doomed q hq ?_ ((endsWell_append hrun r).mpr hwell)
    rw [List.length_append, blockedAt_append hrun hfull hW hp]
    exact not_blockedAt_of_not_full hW fun q _ => hnone q

/-- **A steady input** gives the same result for every cut. -/
theorem feed_eq_fine {W : ℕ} (hW : 0 < W) {ps : List (List α)} (hcut : IsCut W l ps)
    (hfull : M.full s = false)
    (hsteady : M.Steady W s l) : M.feed s ps = M.fine s l := by
  induction ps generalizing s l with
  | nil =>
      obtain ⟨rfl, -⟩ := hcut
      rfl
  | cons p ps ih =>
      obtain ⟨rfl, hpieces⟩ := hcut
      rw [List.flatten_cons] at hsteady ⊢
      obtain ⟨hne, hp⟩ := hpieces p List.mem_cons_self
      have hrest : IsCut W ps.flatten ps :=
        ⟨rfl, fun p' hp' => hpieces p' (List.mem_cons_of_mem p hp')⟩
      -- inside the piece nothing is blocked, so that no event comes after a full buffer
      have hquiet : ∀ q, M.FullAt s (p ++ ps.flatten) q → q ≤ p.length →
          M.fine s (p ++ ps.flatten) = ((M.run s p).1, false) := by
        intro q hq hqp
        obtain ⟨q₀, hle, hq₀, hfine⟩ := fine_of_fullAt hq
        rw [hfine, List.take_append_of_le_length (hle.trans hqp)]
        refine Prod.ext (run_events_of_take fun t ht hevent => ?_) rfl
        have htp : t < p.length := by
          obtain ⟨_, _, _, _, -, ha, -⟩ := hevent
          exact (List.getElem?_eq_some_iff.mp ha).1
        exact hsteady.quiet q₀ t hq₀ ht (not_blockedAt_of_lt hW (by omega))
          ((eventAt_append_left s htp _).mpr hevent)
      rw [feed]
      cases hdec : M.decodes s p with
      | false =>
          rw [if_neg (by decide)]
          exact (fine_of_undecodable hW hp hfull hsteady hdec).symm
      | true =>
          rw [if_pos rfl]
          obtain ⟨es, o, hrun⟩ : ∃ es o, M.run s p = (es, o) := ⟨_, _, rfl⟩
          rw [hrun] at hquiet ⊢
          by_cases hany : ∃ q, M.FullAt s (p ++ ps.flatten) q ∧ q ≤ p.length
          · obtain ⟨q, hq, hqp⟩ := hany
            rw [hquiet q hq hqp]
            cases o with
            | none => rfl
            | some s' =>
                cases hfull' : M.full s' with
                | true => simp [hfull']
                | false =>
                    have hlater := ih hrest hfull' (hsteady.drop hW hp hrun hfull')
                    rw [fine_after_full hW hp hsteady hrun hfull' hq hqp] at hlater
                    simp [hfull', hlater]
          · have hnone : ∀ q, ¬ M.FullAt s p q := fun q hq =>
              hany ⟨q, (fullAt_append_left s hq.2.1 _).mpr hq, hq.2.1⟩
            cases o with
            | none =>
                have hstuck := run_append_stuck hrun ps.flatten
                have hall : ∀ q, ¬ M.FullAt s (p ++ ps.flatten) q := by
                  intro q hq
                  have hqp : p.length < q := not_le.mp fun hle => hany ⟨q, hq, hle⟩
                  obtain ⟨-, -, s', hs', -⟩ := hq
                  obtain ⟨s₁, hs₁⟩ := exists_stateAt_of_le hqp.le hs'
                  rw [stateAt_append_left s le_rfl, stateAt_length, hrun] at hs₁
                  cases hs₁
                rw [fine_of_stuck hall (by rw [hstuck]), hstuck]
            | some s' =>
                have hfull' : M.full s' = false := by
                  by_contra htrue
                  rw [Bool.not_eq_false] at htrue
                  refine hnone p.length ⟨List.length_pos_of_ne_nil hne, le_rfl, s', ?_, htrue⟩
                  rw [stateAt_length, hrun]
                rw [fine_append hrun hnone, ← ih hrest hfull' (hsteady.drop hW hp hrun hfull')]
                simp [hfull']

/-! ### Cuts that avoid the full places -/

/-- A piece that is run and leaves room is fed before the others. -/
theorem feed_cons (hrun : M.run s p = (es, some s')) (hfull : M.full s' = false)
    (ps : List (List α)) :
    M.feed s (p :: ps) = (es ++ (M.feed s' ps).1, (M.feed s' ps).2) := by
  rw [feed, if_pos (decodes_of_run hrun), hrun]
  simp [hfull]

/-- A piece that can be read emits its events, full or not. -/
theorem isPrefix_feed_cons (hrun : M.run s p = (es, some s')) (ps : List (List α)) :
    es <+: (M.feed s (p :: ps)).1 := by
  rw [feed, if_pos (decodes_of_run hrun), hrun]
  show es <+: (if M.full s' then (es, false) else (es ++ (M.feed s' ps).1, (M.feed s' ps).2)).1
  split_ifs
  · exact List.prefix_rfl
  · exact List.prefix_append _ _

/-- Less than `W` symbols before a place that is not blocked there is one that is not full. -/
theorem exists_gap {W t : ℕ} (h : ¬ M.BlockedAt W s l t) :
    ∃ c ≤ t, ¬ M.FullAt s l c ∧ t + 1 ≤ c + W := by
  classical
  obtain ⟨c, hc⟩ : ∃ c, Nat.findGreatest (fun c => ¬ M.FullAt s l c) t = c := ⟨_, rfl⟩
  have hzero : ¬ M.FullAt s l 0 := fun h => absurd h.1 (lt_irrefl 0)
  have hle : c ≤ t := hc ▸ Nat.findGreatest_le t
  have hnot : ¬ M.FullAt s l c := by
    have hspec := Nat.findGreatest_spec (P := fun c => ¬ M.FullAt s l c) (Nat.zero_le t) hzero
    rwa [hc] at hspec
  refine ⟨c, hle, hnot, ?_⟩
  by_contra hgap
  refine h ⟨c + 1, by omega, fun k hk => ?_⟩
  have hfull :=
    Nat.findGreatest_is_greatest (P := fun c => ¬ M.FullAt s l c) (n := t) (k := c + 1 + k)
    (by omega) (by omega)
  exact not_not.mp hfull

/-- A run between two places appends its events. -/
theorem run_take_append {i j : ℕ} (hij : i ≤ j) {s₁ s₂ : σ} (hi : M.stateAt s l i = some s₁)
    (hj : M.stateAt s l j = some s₂) :
    ∃ es, M.run s₁ ((l.take j).drop i) = (es, some s₂) ∧
    (M.run s (l.take j)).1 = (M.run s (l.take i)).1 ++ es := by
  have hrun := run_eq s (l.take i) hi
  have htake : (l.take j).take i = l.take i := by rw [List.take_take, min_eq_left hij]
  have hsplit : l.take j = l.take i ++ (l.take j).drop i := by rw [← htake, List.take_append_drop]
  have happend := run_append hrun ((l.take j).drop i)
  rw [← hsplit] at happend
  refine ⟨(M.run s₁ ((l.take j).drop i)).1, Prod.ext rfl ?_, by rw [happend]⟩
  have hstate : (M.run s (l.take j)).2 = some s₂ := hj
  rw [happend] at hstate
  exact hstate

/-- A cut of a first part is extended by one piece. -/
theorem flatten_append_piece {W i j : ℕ} (hij : i < j) (hj : j ≤ l.length) (hW : j ≤ i + W)
    {ps : List (List α)}
    (h : IsCut W (l.take i) ps) : IsCut W (l.take j) (ps ++ [(l.take j).drop i]) := by
  have htake : (l.take j).take i = l.take i := by rw [List.take_take, min_eq_left hij.le]
  refine ⟨?_, fun p hp => ?_⟩
  · rw [List.flatten_append, h.1, List.flatten_singleton, ← htake, List.take_append_drop]
  · rcases List.mem_append.mp hp with hp | hp
    · exact h.2 p hp
    · have hlen : p.length = j - i := by
        rw [List.mem_singleton.mp hp, List.length_drop, List.length_take, min_eq_left hj]
      exact ⟨List.ne_nil_of_length_pos (by omega), by omega⟩

/-- **A place that is neither full nor blocked can be reached.** -/
theorem exists_cut_avoiding {W : ℕ} (i : ℕ) (hi : i ≤ l.length) (hs' : M.stateAt s l i = some s')
    (hblocked : ¬ M.BlockedAt W s l i) (hfull : ¬ M.FullAt s l i) :
    ∃ ps, IsCut W (l.take i) ps
      ∧ ∀ rest, M.feed s (ps ++ rest) = ((M.run s (l.take i)).1 ++ (M.feed s' rest).1,
        (M.feed s' rest).2) := by
  induction i using Nat.strong_induction_on generalizing s' with
  | _ i ih =>
      rcases Nat.eq_zero_or_pos i with rfl | hpos
      · cases hs'
        exact ⟨[], ⟨rfl, fun p hp => absurd hp List.not_mem_nil⟩, fun rest => rfl⟩
      · obtain ⟨c, hc, hnot, hgap⟩ := exists_gap (fun h => hblocked (h.mono (Nat.sub_le i 1)))
        obtain ⟨s₁, hs₁⟩ := exists_stateAt_of_le (show c ≤ i by omega) hs'
        obtain ⟨ps, hps, hfeed⟩ :=
          ih c (by omega) (by omega) hs₁ (fun h => hblocked (h.mono (by omega))) hnot
        obtain ⟨es, hrun, hevents⟩ := run_take_append (show c ≤ i by omega) hs₁ hs'
        have hfull' : M.full s' = false := by
          by_contra htrue
          exact hfull ⟨hpos, hi, s', hs', Bool.not_eq_false _ ▸ htrue⟩
        refine ⟨ps ++ [(l.take i).drop c], flatten_append_piece (by omega) hi (by omega) hps,
          fun rest => ?_⟩
        rw [List.append_assoc, hfeed, List.singleton_append, feed_cons hrun hfull', hevents,
          List.append_assoc]

/-- A cut of a first part is extended by single bytes. -/
theorem IsCut.append_singletons {W i : ℕ} (hW : 0 < W) {ps : List (List α)}
    (h : IsCut W (l.take i) ps) :
    IsCut W l (ps ++ (l.drop i).map fun a => [a]) := by
  obtain ⟨hflat, hsize⟩ := isCut_singletons hW (l.drop i)
  refine ⟨by rw [List.flatten_append, h.1, hflat, List.take_append_drop], fun p hp => ?_⟩
  rcases List.mem_append.mp hp with hp | hp
  · exact h.2 p hp
  · exact hsize p hp

/-- An event at a place that is not blocked is emitted by some cut. -/
theorem exists_cut_emitting {W : ℕ} (hW : 0 < W) {t : ℕ} (ht : t < l.length)
    (hs' : M.stateAt s l (t + 1) = some s')
    (hblocked : ¬ M.BlockedAt W s l t) :
    ∃ ps, IsCut W l ps ∧ (M.run s (l.take (t + 1))).1 <+: (M.feed s ps).1 := by
  obtain ⟨c, hc, hnot, hgap⟩ := exists_gap hblocked
  obtain ⟨s₁, hs₁⟩ := exists_stateAt_of_le (show c ≤ t + 1 by omega) hs'
  obtain ⟨ps, hps, hfeed⟩ :=
    exists_cut_avoiding c (by omega) hs₁ (fun h => hblocked (h.mono hc)) hnot
  obtain ⟨es, hrun, hevents⟩ := run_take_append (show c ≤ t + 1 by omega) hs₁ hs'
  refine ⟨_, (flatten_append_piece (show c < t + 1 by omega) ht hgap hps).append_singletons hW, ?_⟩
  rw [List.append_assoc, hfeed, hevents, List.singleton_append]
  exact (List.prefix_append_right_inj _).mpr (isPrefix_feed_cons hrun _)

/-- At the place of an event the events grow by one. -/
theorem EventAt.run_take {t : ℕ} (h : M.EventAt s l t) :
    t < l.length ∧ ∃ s' e, M.stateAt s l (t + 1) = some s'
    ∧ (M.run s (l.take (t + 1))).1 = (M.run s (l.take t)).1 ++ [e] := by
  obtain ⟨s₁, a, s₂, e, hs₁, ha, hstep⟩ := h
  obtain ⟨ht, rfl⟩ := List.getElem?_eq_some_iff.mp ha
  have hrun := run_append (run_eq s (l.take t) hs₁) [l[t]]
  rw [← List.take_succ_eq_append_getElem ht, run_singleton hstep] at hrun
  refine ⟨ht, s₂, e, ?_, ?_⟩
  · rw [stateAt, hrun]
  · rw [hrun]
    rfl

/-- Later places have no fewer events. -/
theorem length_run_take_le {i j : ℕ} (hij : i ≤ j) {s₂ : σ} (hj : M.stateAt s l j = some s₂) :
    (M.run s (l.take i)).1.length ≤ (M.run s (l.take j)).1.length := by
  obtain ⟨s₁, hs₁⟩ := exists_stateAt_of_le hij hj
  obtain ⟨es, -, hevents⟩ := run_take_append hij hs₁ hj
  rw [hevents, List.length_append]
  exact Nat.le_add_right _ _

section Agree

variable {W : ℕ} (hW : 0 < W) (hagree : ∀ ps ps', IsCut W l ps → IsCut W l ps' →
      M.feed s ps = M.feed s ps')

include hW hagree

/-- Where all cuts agree, nothing happens after a full place that is not blocked. -/
theorem quiet_of_agree {q t : ℕ} (hq : M.FullAt s l q) (hqt : q ≤ t)
    (hblocked : ¬ M.BlockedAt W s l t) :
    ¬ M.EventAt s l t := by
  intro hevent
  obtain ⟨ht, s', e, hs', hrun⟩ := hevent.run_take
  obtain ⟨q₀, hle, -, hfine⟩ := fine_of_fullAt hq
  obtain ⟨ps, hps, hemits⟩ := exists_cut_emitting hW ht hs' hblocked
  rw [hagree ps _ hps (isCut_singletons hW l), feed_singletons, hfine] at hemits
  -- more events than there are before the full place
  obtain ⟨s₁, hs₁⟩ := exists_stateAt_of_le (Nat.le_succ t) hs'
  have hlen := hemits.length_le
  have hmono := length_run_take_le (hle.trans hqt) hs₁
  rw [hrun, List.length_append, List.length_singleton] at hlen
  exact absurd (hlen.trans hmono) (Nat.not_succ_le_self _)

/-- Where all cuts agree, a full place that is not blocked at the end dooms the run. -/
theorem doomed_of_agree {q : ℕ} (hq : M.FullAt s l q) (hblocked : ¬ M.BlockedAt W s l l.length) :
    ¬ M.EndsWell s l := by
  rintro ⟨s', hs', hfull, hend⟩
  rw [← stateAt_length] at hs'
  have hnot : ¬ M.FullAt s l l.length := by
    rintro ⟨-, -, s₁, hs₁, hfull₁⟩
    rw [hs'] at hs₁
    cases hs₁
    rw [hfull] at hfull₁
    cases hfull₁
  obtain ⟨q₀, -, -, hfine⟩ := fine_of_fullAt hq
  obtain ⟨ps, hps, hfeed⟩ := exists_cut_avoiding l.length le_rfl hs' hblocked hnot
  rw [List.take_length] at hps
  have heq := hagree ps _ hps (isCut_singletons hW l)
  rw [feed_singletons, hfine, ← List.append_nil ps, hfeed] at heq
  rw [feed, hend] at heq
  exact Bool.noConfusion (congrArg Prod.snd heq)

/-- Where all cuts agree, the bytes after an event can be decoded as far as a piece reaches. -/
theorem decoded_of_agree {t : ℕ} (hevent : M.EventAt s l t) (hblocked : ¬ M.BlockedAt W s l t) :
    M.decodes s (l.take (t + W)) = true := by
  by_contra hdec
  rw [Bool.not_eq_true] at hdec
  obtain ⟨ht, s', e, hs', hrun⟩ := hevent.run_take
  obtain ⟨s₁, hs₁⟩ := exists_stateAt_of_le (Nat.le_succ t) hs'
  have hnot : ¬ M.FullAt s l t := fun hfull => quiet_of_agree hW hagree hfull le_rfl hblocked hevent
  obtain ⟨ps, hps, hfeed⟩ := exists_cut_avoiding t ht.le hs₁ hblocked hnot
  -- the piece that begins with the event cannot be decoded
  have hpiece : M.decodes s₁ ((l.take (min (t + W) l.length)).drop t) = false := by
    rw [← decodes_append (run_eq s (l.take t) hs₁)]
    have htake : (l.take (min (t + W) l.length)).take t = l.take t := by
      rw [List.take_take, min_eq_left (by omega)]
    rw [← htake, List.take_append_drop, List.take_eq_take_min, min_assoc, min_self,
      ← List.take_eq_take_min]
    exact hdec
  have hcut :=
    (flatten_append_piece (l := l) (i := t) (j := min (t + W) l.length) (by omega)
    (by omega) (by omega)
    hps).append_singletons hW
  obtain ⟨ps', hps', hemits⟩ := exists_cut_emitting hW ht hs' hblocked
  rw [hagree ps' _ hps' hcut, List.append_assoc, hfeed, List.singleton_append, feed, hpiece, hrun]
    at hemits
  have hlen := hemits.length_le
  simp only [Bool.false_eq_true, if_false, List.append_nil, List.length_append,
    List.length_singleton] at hlen
  omega

end Agree

/-- **All cuts agree exactly on the steady inputs.** -/
theorem feed_agree_iff {W : ℕ} (hW : 0 < W) (hfull : M.full s = false) :
    (∀ ps ps', IsCut W l ps → IsCut W l ps' → M.feed s ps = M.feed s ps') ↔ M.Steady W s l := by
  constructor
  · intro hagree
    exact ⟨fun t => decoded_of_agree hW hagree, fun q t => quiet_of_agree hW hagree,
      fun q => doomed_of_agree hW hagree⟩
  · intro hsteady ps ps' hps hps'
    rw [feed_eq_fine hW hps hfull hsteady, feed_eq_fine hW hps' hfull hsteady]

end Runs

/-! ## Slices -/

/-- The consecutive slices of a list, `W` symbols each, the last one perhaps shorter. -/
def slices (W : ℕ) (l : List α) : List (List α) :=
  if l = [] ∨ W = 0 then [] else l.take W :: slices W (l.drop W)
termination_by l.length
decreasing_by
  rename_i h
  rw [not_or] at h
  have hpos := List.length_pos_of_ne_nil h.1
  rw [List.length_drop]
  omega

theorem slices_of_le {W : ℕ} {l : List α} (hne : l ≠ []) (hle : l.length ≤ W) :
    slices W l = [l] := by
  have hpos := List.length_pos_of_ne_nil hne
  rw [slices, if_neg (by rw [not_or]; exact ⟨hne, by omega⟩), List.take_of_length_le hle,
    List.drop_of_length_le hle,
    slices, if_pos (.inl rfl)]

/-- Slices cut a list. -/
theorem isCut_slices {W : ℕ} (hW : 0 < W) (l : List α) : IsCut W l (slices W l) := by
  induction hn : l.length using Nat.strong_induction_on generalizing l with
  | _ n ih =>
      rw [slices]
      split_ifs with h
      · obtain rfl : l = [] := h.resolve_right hW.ne'
        exact ⟨rfl, fun p hp => absurd hp List.not_mem_nil⟩
      · rw [not_or] at h
        have hpos := List.length_pos_of_ne_nil h.1
        obtain ⟨hflat, hsize⟩ :=
          ih (l.drop W).length (by rw [List.length_drop]; omega) (l.drop W) rfl
        refine ⟨by rw [List.flatten_cons, hflat, List.take_append_drop], fun p hp => ?_⟩
        rcases List.mem_cons.mp hp with rfl | hp
        · refine ⟨List.ne_nil_of_length_pos ?_, List.length_take_le W l⟩
          rw [List.length_take]
          omega
        · exact hsize p hp

/-- Slicing chunks cuts their bytes. -/
theorem isCut_flatMap_slices {W : ℕ} (hW : 0 < W) (chunks : List (List α)) :
    IsCut W chunks.flatten (chunks.flatMap (slices W)) := by
  induction chunks with
  | nil => exact ⟨rfl, fun p hp => absurd hp List.not_mem_nil⟩
  | cons chunk chunks ih =>
      obtain ⟨hflat, hsize⟩ := isCut_slices hW chunk
      refine ⟨by rw [List.flatMap_cons, List.flatten_append, hflat, ih.1, List.flatten_cons],
        fun p hp => ?_⟩
      rw [List.flatMap_cons, List.mem_append] at hp
      rcases hp with hp | hp
      · exact hsize p hp
      · exact ih.2 p hp

/-- Pieces that are short enough are not sliced again. -/
theorem IsCut.flatMap_slices {W : ℕ} {l : List α} {ps : List (List α)} (h : IsCut W l ps) :
    ps.flatMap (slices W) = ps := by
  have hself : ∀ p ∈ ps, slices W p = [p] := fun p hp => slices_of_le (h.2 p hp).1 (h.2 p hp).2
  rw [List.flatMap_def, List.map_congr_left hself, ← List.flatMap_def]
  exact List.flatMap_singleton' ps

end PieceReader
