/-
# Programs that share a state

A `Machine` answers the requests of many programs from one shared state.  Each program sits in a
slot; between two requests of one, any other may make its own, a program may stop for good, and
transactions of other parties may change the state or start a program.

`Sound` is the rule for such systems, in the manner of rely and guarantee: every slot has a ghost
state of one contract, tied to the shared state.  What a request does must keep the invariant, move
the ghost state of its own slot as the contract says, and leave the ties of all other slots alone.
`Sound.run` carries it over every run that stays within a condition on its steps.
-/
import EvidenceLab.Effects
import EvidenceLab.Transitions

namespace Pool

open Effects Transitions

variable {S : Sig} {ε α D X Y γ : Type}

/-- The shared state, and the program in each slot. -/
structure Config (S : Sig) (ε α D : Type) where
  db : D
  prog : ℕ → Option (Prog S ε α)

/-- The request that the program in slot `w` makes next; a program that ended makes none. -/
def Config.next (s : Config S ε α D) (w : ℕ) : Option S.Op :=
  match s.prog w with
  | some (.ask o _) => some o
  | _ => none

/-- How the shared state answers: `x` and `y` are what the environment chooses. -/
structure Machine (S : Sig) (ε α D X Y : Type) where
  /-- The request `o` of the program in a slot.  It may note which programs are still at work. -/
  serve : Config S ε α D → ℕ → (o : S.Op) → X → Option (D × S.Ans o)
  /-- A transaction of another party; it may start a program in a slot. -/
  other : D → Y → Option (D × Option (ℕ × Prog S ε α))

inductive Act (X Y : Type) where
  /-- The program in slot `w` makes its next request. -/
  | serve (w : ℕ) (x : X)
  /-- The program in slot `w` stops for good. -/
  | crash (w : ℕ)
  | other (y : Y)

/-- The program put into a slot. -/
def Config.put (s : Config S ε α D) (w : ℕ) (p : Option (Prog S ε α)) : Config S ε α D :=
  { s with prog := Function.update s.prog w p }

/-- What a transaction leaves: the new state, and the program it started. -/
def Config.start (s : Config S ε α D) (d : D) : Option (ℕ × Prog S ε α) → Config S ε α D
  | none => { s with db := d }
  | some (w, p) => { s with db := d }.put w (some p)

/-- One step. -/
def step (M : Machine S ε α D X Y) (s : Config S ε α D) : Act X Y → Option (Config S ε α D)
  | .serve w x =>
      match s.prog w with
      | some (.ask o k) => (M.serve s w o x).map fun dr =>
          { s with db := dr.1 }.put w (some (k dr.2))
      | _ => none
  | .crash w => some (s.put w none)
  | .other y => (M.other s.db y).map fun dp => s.start dp.1 dp.2

variable {M : Machine S ε α D X Y} {s s' : Config S ε α D}

/-- A worker's request is answered by the machine. -/
theorem step_serve {w : ℕ} {x : X} (h : step M s (.serve w x) = some s') :
    ∃ o k d r, s.prog w = some (.ask o k) ∧ M.serve s w o x = some (d, r)
      ∧ s' = { s with db := d }.put w (some (k r)) := by
  rw [step] at h
  split at h
  · rename_i o k hp
    obtain ⟨dr, hs, rfl⟩ := Option.map_eq_some_iff.mp h
    exact ⟨o, k, dr.1, dr.2, hp, hs, rfl⟩
  · cases h

/-- Another party changes the shared state. -/
theorem step_other {y : Y} (h : step M s (.other y) = some s') :
    ∃ d p, M.other s.db y = some (d, p) ∧ s' = s.start d p := by
  obtain ⟨dp, hs, rfl⟩ := Option.map_eq_some_iff.mp h
  exact ⟨dp.1, dp.2, hs, rfl⟩

/-! ## The rule -/

/-- The program keeps the contract from `g` on, wherever it ends. -/
abbrev Within (C : Contract S γ) (g : γ) (p : Prog S ε α) : Prop :=
  p.Keeps C (fun _ _ => True) (fun _ _ => True) g

/-- The obligations of the rule: `I` is the invariant of the shared state, `T d w g` ties the ghost
state `g` of slot `w` to it, and `A` is the condition on steps. -/
structure Sound (M : Machine S ε α D X Y) (C : Contract S γ) (A : Config S ε α D → Act X Y → Prop)
    (I : D → Prop) (T : D → ℕ → γ → Prop) : Prop where
  serve : ∀ {s : Config S ε α D} {w x o g d r}, I s.db → s.next w = some o → A s (.serve w x) →
    T s.db w g → C.allowed g o → M.serve s w o x = some (d, r) →
      I d ∧ (∃ g', C.next g o r g' ∧ T d w g')
        ∧ ∀ v g, v ≠ w → (s.next v).isSome = true → T s.db v g → T d v g
  other : ∀ {s : Config S ε α D} {y d p}, I s.db → A s (.other y) → M.other s.db y = some (d, p) →
    I d ∧ (∀ v g, T s.db v g → T d v g) ∧ ∀ w q, p = some (w, q) → ∃ g, T d w g ∧ Within C g q

/-- The invariant holds, and every program at work keeps the contract from a ghost state of its
slot. -/
structure Good (C : Contract S γ) (I : D → Prop) (T : D → ℕ → γ → Prop)
    (s : Config S ε α D) : Prop where
  inv : I s.db
  prog : ∀ w o k, s.prog w = some (.ask o k) → ∃ g, T s.db w g ∧ Within C g (.ask o k)

variable {C : Contract S γ} {A : Config S ε α D → Act X Y → Prop} {I : D → Prop}
  {T : D → ℕ → γ → Prop}

/-- **An answer** keeps every worker's contract. -/
theorem Good.serve (hM : Sound M C A I T) (hs : Good C I T s) {w : ℕ} {x : X}
    (hA : A s (.serve w x)) (h : step M s (.serve w x) = some s') : Good C I T s' := by
  obtain ⟨o, k, d, r, hp, hserve, rfl⟩ := step_serve h
  obtain ⟨g, hg, hkeeps⟩ := hs.prog w o k hp
  have hnext : s.next w = some o := by simp [Config.next, hp]
  obtain ⟨hI, ⟨g', hn, hg'⟩, hrest⟩ := hM.serve hs.inv hnext hA hg hkeeps.1 hserve
  refine ⟨hI, fun v o' k' hv => ?_⟩
  by_cases hvw : v = w
  · subst hvw
    have hk : k r = .ask o' k' := by simpa [Config.put] using hv
    exact ⟨g', hg', hk ▸ hkeeps.2 r g' hn⟩
  · have hv : s.prog v = some (.ask o' k') := by simpa [Config.put, hvw] using hv
    obtain ⟨f, hf, hkf⟩ := hs.prog v o' k' hv
    exact ⟨f, hrest v f hvw (by simp [Config.next, hv]) hf, hkf⟩

/-- A crash keeps the contracts of the others. -/
theorem Good.crash (hs : Good C I T s) {w : ℕ} : Good C I T (s.put w none) := by
  refine ⟨hs.inv, fun v o k hv => ?_⟩
  by_cases hvw : v = w
  · subst hvw
    simp [Config.put] at hv
  · exact hs.prog v o k (by simpa [Config.put, hvw] using hv)

/-- **Another party** keeps every worker's contract. -/
theorem Good.other (hM : Sound M C A I T) (hs : Good C I T s) {y : Y} (hA : A s (.other y))
    (h : step M s (.other y) = some s') : Good C I T s' := by
  obtain ⟨d, start, hother, rfl⟩ := step_other h
  obtain ⟨hI, hkeep, hstart⟩ := hM.other hs.inv hA hother
  have hold : ∀ v o k, s.prog v = some (.ask o k) → ∃ g, T d v g ∧ Within C g (.ask o k) := by
    intro v o k hv
    obtain ⟨g, hg, hk⟩ := hs.prog v o k hv
    exact ⟨g, hkeep v g hg, hk⟩
  cases start with
  | none => exact ⟨hI, hold⟩
  | some wq =>
      refine ⟨hI, fun v o k hv => ?_⟩
      by_cases hvw : v = wq.1
      · subst hvw
        have hq : wq.2 = .ask o k := by simpa [Config.start, Config.put] using hv
        exact hq ▸ hstart wq.1 wq.2 rfl
      · exact hold v o k (by simpa [Config.start, Config.put, hvw] using hv)

/-- **A step of the pool** keeps every worker's contract. -/
theorem Good.step (hM : Sound M C A I T) (hs : Good C I T s) {a : Act X Y} (hA : A s a)
    (h : step M s a = some s') : Good C I T s' := by
  cases a with
  | serve w x => exact hs.serve hM hA h
  | crash w =>
      cases h
      exact hs.crash
  | other y => exact hs.other hM hA h

/-- **The rule over runs.** -/
theorem Sound.run (hM : Sound M C A I T) (hs : Good C I T s) {as : List (Act X Y)}
    (hA : Admits (step M) A s as) (h : run (Pool.step M) s as = some s') : Good C I T s' :=
  run_invariant_of_admits (fun _ _ _ hs hA h => hs.step hM hA h) hs hA h

end Pool
