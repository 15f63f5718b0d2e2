/-
# Rules for computations that may raise

Inversion of `bind`, `forM`, `mapM` and `foldlM` in the `Except` monad: what is known when a
computation returned, and where an error came from.  `foldlM_ok_run` and `foldlM_ok_at` are
the invariant rules for a loop over a list: an invariant of the part already done and the state
carries from one step to the whole run.
-/
import Mathlib

/-! ## Related lists -/

/-- An element of the left list has its partner. -/
theorem mem_of_forall₂_right {α β : Type} {R : α → β → Prop} {l : List α} {l' : List β}
    (h : List.Forall₂ R l l') {a : α} (ha : a ∈ l) : ∃ b ∈ l', R a b := by
  induction h with
  | nil => simp at ha
  | cons hab _ ih =>
      rcases List.mem_cons.mp ha with rfl | ha
      · exact ⟨_, List.mem_cons_self, hab⟩
      · obtain ⟨b, hb, hab⟩ := ih ha
        exact ⟨b, List.mem_cons_of_mem _ hb, hab⟩

/-- An element of the right list has its partner. -/
theorem mem_of_forall₂_left {α β : Type} {R : α → β → Prop} {l : List α} {l' : List β}
    (h : List.Forall₂ R l l') {b : β} (hb : b ∈ l') : ∃ a ∈ l, R a b := by
  obtain ⟨a, ha, hab⟩ := mem_of_forall₂_right h.flip hb
  exact ⟨a, ha, hab⟩

/-! ## Results and errors -/

namespace Except

variable {ε α β σ : Type}

/-- A sequence returned: both parts did. -/
theorem bind_eq_ok_iff {x : Except ε α} {f : α → Except ε β} {b : β} :
    (x >>= f) = .ok b ↔ ∃ a, x = .ok a ∧ f a = .ok b := by
  cases x with
  | error e => simp [bind, Except.bind]
  | ok a => simp [bind, Except.bind]

/-- A sequence raised: its first part did, or its second part after the first returned. -/
theorem bind_eq_error_iff {x : Except ε α} {f : α → Except ε β} {e : ε} :
    (x >>= f) = .error e ↔ x = .error e ∨ ∃ a, x = .ok a ∧ f a = .error e := by
  cases x with
  | error e' => simp [bind, Except.bind]
  | ok a => simp [bind, Except.bind]

@[simp] theorem ok_bind (a : α) (f : α → Except ε β) : ((.ok a : Except ε α) >>= f) = f a := rfl

@[simp] theorem error_bind (e : ε) (f : α → Except ε β) :
    ((.error e : Except ε α) >>= f) = .error e := rfl

@[simp] theorem pure_eq_ok (a : α) : (pure a : Except ε α) = .ok a := rfl

@[simp] theorem throw_eq_error (e : ε) : (throw e : Except ε α) = .error e := rfl

/-- `if c: raise e`. -/
def raiseIf (c : Prop) [Decidable c] (e : ε) : Except ε Unit := if c then .error e else .ok ()

/-- A guard returned: its condition was false. -/
@[simp] theorem raiseIf_eq_ok_iff {c : Prop} [Decidable c] {e : ε} {u : Unit} :
    raiseIf c e = .ok u ↔ ¬ c := by
  unfold raiseIf
  split_ifs with h <;> simp [h]

@[simp] theorem raiseIf_eq_error_iff {c : Prop} [Decidable c] {e e' : ε} :
    raiseIf c e = .error e' ↔ c ∧ e = e' := by
  unfold raiseIf
  split_ifs with h <;> simp [h]

/-- The value, or `raise e` when there is none. -/
def orRaise (o : Option α) (e : ε) : Except ε α :=
  match o with
  | some a => .ok a
  | none => .error e

/-- A value is returned if there is one. -/
@[simp] theorem orRaise_eq_ok_iff {o : Option α} {e : ε} {a : α} :
    orRaise o e = .ok a ↔ o = some a := by
  cases o <;> simp [orRaise]

/-- A loop succeeds if every round does. -/
theorem forM_eq_ok_iff {l : List α} {f : α → Except ε Unit} {u : Unit} :
    l.forM f = .ok u ↔ ∀ x ∈ l, f x = .ok () := by
  rw [List.forM_eq_forM]
  induction l with
  | nil => simp
  | cons x l ih =>
      rw [List.forM_cons, bind_eq_ok_iff]
      constructor
      · rintro ⟨⟨⟩, hx, hl⟩ y hy
        rcases List.mem_cons.mp hy with rfl | hy
        · exact hx
        · exact ih.mp hl y hy
      · intro h
        exact ⟨(), h x List.mem_cons_self,
          ih.mpr (fun y hy => h y (List.mem_cons_of_mem x hy))⟩

/-- A map succeeds if every element does, with their values. -/
theorem mapM_eq_ok_iff {l : List α} {f : α → Except ε β} {ys : List β} :
    l.mapM f = .ok ys ↔ List.Forall₂ (fun x y => f x = .ok y) l ys := by
  induction l generalizing ys with
  | nil =>
      simp only [List.mapM_nil, pure_eq_ok, Except.ok.injEq, List.forall₂_nil_left_iff]
      exact eq_comm
  | cons x l ih =>
      rw [List.mapM_cons, bind_eq_ok_iff]
      constructor
      · rintro ⟨y, hx, h⟩
        obtain ⟨ys', hl, h⟩ := bind_eq_ok_iff.mp h
        rw [pure_eq_ok, Except.ok.injEq] at h
        rw [← h]
        exact .cons hx (ih.mp hl)
      · intro h
        cases h with
        | cons hx hl =>
            exact ⟨_, hx, bind_eq_ok_iff.mpr ⟨_, ih.mpr hl, rfl⟩⟩

/-- Each element of a loop that built a list has its value in the list. -/
theorem mapM_ok_of_mem {l : List α} {f : α → Except ε β} {ys : List β} (h : l.mapM f = .ok ys)
    {x : α} (hx : x ∈ l) : ∃ y ∈ ys, f x = .ok y := by
  rw [mapM_eq_ok_iff] at h
  induction h with
  | nil => cases hx
  | cons hy _ ih =>
      rcases List.mem_cons.mp hx with rfl | hx
      · exact ⟨_, List.mem_cons_self, hy⟩
      · obtain ⟨y, hmem, hy⟩ := ih hx
        exact ⟨y, List.mem_cons_of_mem _ hmem, hy⟩

/-- Each value of a list that a loop built comes from an element. -/
theorem exists_of_mem_mapM {l : List α} {f : α → Except ε β} {ys : List β} (h : l.mapM f = .ok ys)
    {y : β} (hy : y ∈ ys) : ∃ x ∈ l, f x = .ok y := by
  rw [mapM_eq_ok_iff] at h
  induction h with
  | nil => cases hy
  | cons hx _ ih =>
      rcases List.mem_cons.mp hy with rfl | hy
      · exact ⟨_, List.mem_cons_self, hx⟩
      · obtain ⟨x, hmem, hx⟩ := ih hy
        exact ⟨x, List.mem_cons_of_mem _ hmem, hx⟩

/-- A map depends on the values at the elements only. -/
theorem mapM_congr {f f' : α → Except ε β} {l : List α} (h : ∀ a ∈ l, f a = f' a) :
    l.mapM f = l.mapM f' := by
  induction l with
  | nil => rfl
  | cons a l ih =>
      rw [List.forall_mem_cons] at h
      rw [List.mapM_cons, List.mapM_cons, h.1, ih h.2]

/-- A loop over a list in another order builds the same list in another order. -/
theorem mapM_perm {f : α → Except ε β} {l l' : List α} (hp : l.Perm l') {ys : List β}
    (h : l.mapM f = .ok ys) : ∃ ys', l'.mapM f = .ok ys' ∧ ys.Perm ys' := by
  simp only [mapM_eq_ok_iff] at h ⊢
  exact List.perm_comp_forall₂ hp.symm h |>.imp fun ys' hy => ⟨hy.1, hy.2.symm⟩

/-- An error of a map is that of an element. -/
theorem mapM_eq_error {l : List α} {f : α → Except ε β} {e : ε} (h : l.mapM f = .error e) :
    ∃ x ∈ l, f x = .error e := by
  induction l with
  | nil => simp at h
  | cons x l ih =>
      rw [List.mapM_cons, bind_eq_error_iff] at h
      rcases h with hx | ⟨y, -, h⟩
      · exact ⟨x, List.mem_cons_self, hx⟩
      · rcases bind_eq_error_iff.mp h with hl | ⟨_, -, h⟩
        · obtain ⟨z, hz, he⟩ := ih hl
          exact ⟨z, List.mem_cons_of_mem x hz, he⟩
        · simp at h

/-- **Invariant of a loop that returned.**  `Inv done s` speaks of the elements done and the state
they led to. -/
theorem foldlM_ok_run {f : σ → α → Except ε σ} (Inv : List α → σ → Prop) {l : List α}
    (hstep : ∀ done x rest s s', done ++ x :: rest = l → Inv done s → f s x = .ok s' →
      Inv (done ++ [x]) s')
    {s s' : σ} (hinit : Inv [] s) (h : l.foldlM f s = .ok s') : Inv l s' := by
  suffices key : ∀ (todo done : List α) (s : σ), done ++ todo = l → Inv done s →
      todo.foldlM f s = .ok s' → Inv l s' from key l [] s rfl hinit h
  intro todo
  induction todo with
  | nil =>
      intro done s hl hinv h
      rw [List.foldlM_nil, pure_eq_ok, Except.ok.injEq] at h
      rw [← hl, List.append_nil, ← h]
      exact hinv
  | cons x todo ih =>
      intro done s hl hinv h
      rw [List.foldlM_cons, bind_eq_ok_iff] at h
      obtain ⟨s₁, hx, h⟩ := h
      exact ih (done ++ [x]) s₁ (by rw [List.append_assoc, List.singleton_append, hl])
        (hstep done x todo s s₁ hl hinv hx) h

/-- **A step of a loop that returned**: at each element, in a state that satisfies the invariant. -/
theorem foldlM_ok_at {f : σ → α → Except ε σ} (Inv : List α → σ → Prop) {l : List α}
    (hstep : ∀ done x rest s s', done ++ x :: rest = l → Inv done s → f s x = .ok s' →
      Inv (done ++ [x]) s')
    {s s' : σ} (hinit : Inv [] s) (h : l.foldlM f s = .ok s') {x : α} (hx : x ∈ l) :
    ∃ done rest t t', done ++ x :: rest = l ∧ Inv done t ∧ f t x = .ok t' := by
  suffices key : ∀ (todo done : List α) (s : σ), done ++ todo = l → Inv done s →
      todo.foldlM f s = .ok s' → x ∈ todo →
        ∃ done rest t t', done ++ x :: rest = l ∧ Inv done t ∧ f t x = .ok t' from
    key l [] s rfl hinit h hx
  intro todo
  induction todo with
  | nil =>
      intro done s hl hinv h hx
      cases hx
  | cons y todo ih =>
      intro done s hl hinv h hx
      rw [List.foldlM_cons, bind_eq_ok_iff] at h
      obtain ⟨s₁, hy, h⟩ := h
      rcases List.mem_cons.mp hx with rfl | hx
      · exact ⟨done, todo, s, s₁, hl, hinv, hy⟩
      · exact ih (done ++ [y]) s₁ (by rw [List.append_assoc, List.singleton_append, hl])
          (hstep done y todo s s₁ hl hinv hy) h hx

/-! ## Outcomes -/

/-- The outcome of a computation: it returns a value in `P` or raises an error in `E`. -/
def Yields (x : Except ε α) (P : α → Prop) (E : ε → Prop) : Prop :=
  match x with
  | .ok a => P a
  | .error e => E e

variable {P : α → Prop} {Q : β → Prop} {E : ε → Prop}

/-- A computation yields a value with `P` or an error with `E`. -/
theorem yields_iff {x : Except ε α} :
    x.Yields P E ↔ (∃ a, x = .ok a ∧ P a) ∨ ∃ e, x = .error e ∧ E e := by
  cases x <;> simp [Yields]

theorem yields_ok {a : α} (h : P a) : (Except.ok a : Except ε α).Yields P E := h

theorem yields_of_eq {x : Except ε α} {a : α} (hx : x = .ok a) (h : P a) : x.Yields P E :=
  hx ▸ yields_ok h

theorem yields_error {e : ε} (h : E e) : (Except.error e : Except ε α).Yields P E := h

/-- What a computation yields may be described more loosely. -/
theorem Yields.mono {x : Except ε α} {P' : α → Prop} (h : x.Yields P E)
    (hP : ∀ a, x = .ok a → P a → P' a) : x.Yields P' E := by
  cases x with
  | ok a => exact hP a rfl h
  | error e => exact h

/-- The errors of a computation may be described more loosely. -/
theorem Yields.weaken {x : Except ε α} {E' : ε → Prop} (h : x.Yields P E) (hE : ∀ e, E e → E' e) :
    x.Yields P E' := by
  cases x with
  | ok a => exact h
  | error e => exact hE e h

/-- Sequencing. -/
theorem Yields.bind {x : Except ε α} {f : α → Except ε β} (hx : x.Yields P E)
    (hf : ∀ a, x = .ok a → P a → (f a).Yields Q E) : (x >>= f).Yields Q E := by
  cases x with
  | ok a => exact hf a rfl hx
  | error e => exact hx

/-- A loop that builds a list. -/
theorem yields_mapM {R : α → β → Prop} {f : α → Except ε β} {l : List α}
    (h : ∀ a ∈ l, (f a).Yields (R a) E) : (l.mapM f).Yields (List.Forall₂ R l) E := by
  induction l with
  | nil =>
      rw [List.mapM_nil]
      exact List.Forall₂.nil
  | cons a l ih =>
      rw [List.mapM_cons]
      refine Yields.bind (h a List.mem_cons_self) (fun b _ hb => ?_)
      refine Yields.bind (ih (fun a' ha' => h a' (List.mem_cons_of_mem a ha'))) (fun bs _ hbs => ?_)
      exact yields_ok (List.Forall₂.cons hb hbs)

/-- **A loop with an invariant** of the elements done and the state. -/
theorem yields_foldlM {f : σ → α → Except ε σ} (Inv : List α → σ → Prop) {l : List α}
    (hstep : ∀ done x rest s, done ++ x :: rest = l → Inv done s →
      (f s x).Yields (Inv (done ++ [x])) E)
    {s : σ} (hinit : Inv [] s) : (l.foldlM f s).Yields (Inv l) E := by
  suffices key : ∀ (todo done : List α) (s : σ), done ++ todo = l → Inv done s →
      (todo.foldlM f s).Yields (Inv l) E from key l [] s rfl hinit
  intro todo
  induction todo with
  | nil =>
      intro done s hl hinv
      rw [List.append_nil] at hl
      exact hl ▸ hinv
  | cons x todo ih =>
      intro done s hl hinv
      rw [List.foldlM_cons]
      refine Yields.bind (hstep done x todo s hl hinv) (fun s' _ hs' => ?_)
      exact ih (done ++ [x]) s' (by rw [List.append_assoc, List.singleton_append, hl]) hs'

end Except
