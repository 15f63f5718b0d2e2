/-
# The grammar of the decoder

The decoder accepts exactly the texts whose tokens write a value.

* `decode_of_writes` is one half.  For the other the tokens read so far are described state by
  state: `State.Reads` says which tokens lead to a state, `step_reads` is the step and
  `writes_of_decode` the run.
* `decode_eq_ok_iff` is the result.
-/
import EvidenceLab.JsonReader

namespace JsonReader

variable {ε : Type} {hooks : Hooks ε}

/-! ## One more item -/

/-- One more item is written at the end. -/
theorem WritesItems.snoc {items : List PyJson} {v : PyJson} {ts ts' : List Token} {n : ℕ}
    (h : WritesItems hooks items ts n) (hne : items ≠ []) (hv : Writes hooks v ts' n) :
    WritesItems hooks (items ++ [v]) (ts ++ .comma :: ts') n := by
  induction items generalizing ts with
  | nil => exact absurd rfl hne
  | cons w items ih =>
      cases h with
      | one hw => exact .cons hw (.one hv) (by simp)
      | cons hw hs hne' =>
          rw [List.append_assoc, List.cons_append]
          exact .cons hw (ih hs hne') (by simp)

/-- One more member is written at the end. -/
theorem WritesMembers.snoc {members : List (PyStr × PyJson)} {k : PyStr} {v : PyJson}
    {ts ts' : List Token} {n : ℕ}
    (h : WritesMembers hooks members ts n) (hne : members ≠ []) (hv : Writes hooks v ts' n) :
    WritesMembers hooks (members ++ [(k, v)]) (ts ++ .comma :: .str k :: .colon :: ts') n := by
  induction members generalizing ts with
  | nil => exact absurd rfl hne
  | cons m members ih =>
      cases h with
      | one hw => exact .cons hw (.one hv) (by simp)
      | cons hw hs hne' =>
          rw [List.append_assoc, List.cons_append]
          exact .cons hw (ih hs hne') (by simp)

/-! ## The tokens read so far -/

variable (hooks)

/-- The tokens before the next item of an array that is being read. -/
def BeforeItem (items : List PyJson) (ts : List Token) (n : ℕ) : Prop :=
  (items = [] ∧ ts = [.openArr]) ∨ ∃ ts', items ≠ [] ∧ WritesItems hooks items ts' n ∧
  ts = .openArr :: ts' ++ [.comma]

/-- The tokens before the next key of an object that is being read. -/
def BeforeKey (members : List (PyStr × PyJson)) (ts : List Token) (n : ℕ) : Prop :=
  (members = [] ∧ ts = [.openObj])
    ∨ ∃ ts', members ≠ [] ∧ WritesMembers hooks members ts' n ∧ ts = .openObj :: ts' ++ [.comma]

/-- The tokens of an open container up to the value that comes. -/
def Frame.Reads : Frame → List Token → ℕ → Prop
  | .arr items, ts, n => BeforeItem hooks items ts n
  | .obj members key, ts, n => ∃ ts', BeforeKey hooks members ts' n ∧ ts = ts' ++ [.str key, .colon]

/-- The tokens of the open containers. -/
inductive StackReads : List Frame → List Token → Prop
  | nil : StackReads [] []
  | cons {f stack ts ts' n} (hs : StackReads stack ts) (hf : f.Reads hooks ts' n)
      (hn : stack.length + (n + 1) = hooks.maxDepth) : StackReads (f :: stack) (ts ++ ts')

/-- The tokens of the container that is being read, where a value may be nested so deep. -/
def Phase.Reads : Phase → List Token → ℕ → Prop
  | .value, ts, _ => ts = []
  | .firstItem, ts, n => 0 < n ∧ ts = [.openArr]
  | .nextItem items, ts, n => ∃ m ts', n = m + 1 ∧ items ≠ [] ∧ WritesItems hooks items ts' m ∧
      ts = .openArr :: ts'
  | .firstKey, ts, n => 0 < n ∧ ts = [.openObj]
  | .key members, ts, n => ∃ m, n = m + 1 ∧ BeforeKey hooks members ts m
  | .colon members k, ts, n => ∃ m ts', n = m + 1 ∧ BeforeKey hooks members ts' m ∧
      ts = ts' ++ [.str k]
  | .nextMember members, ts, n =>
    ∃ m ts', n = m + 1 ∧ members ≠ [] ∧ WritesMembers hooks members ts' m ∧ ts = .openObj :: ts'
  | .done v, ts, n => Writes hooks v ts n

/-- The tokens that lead to a state. -/
def State.Reads (ts : List Token) (st : State) : Prop :=
  ∃ ts₁ ts₂ n, ts = ts₁ ++ ts₂ ∧ StackReads hooks st.stack ts₁ ∧
    st.stack.length + n = hooks.maxDepth
    ∧ st.phase.Reads hooks ts₂ n ∧ ∀ v, st.phase = .done v → st.stack = []

variable {hooks}

/-- A value ends where one may come. -/
theorem complete_reads {v : PyJson} {stack : List Frame} {ts ts' : List Token} {n : ℕ}
    (hs : StackReads hooks stack ts)
    (hn : stack.length + n = hooks.maxDepth) (hv : Writes hooks v ts' n) :
    (complete v stack).Reads hooks (ts ++ ts') := by
  cases hs with
  | nil => exact ⟨[], ts', n, rfl, .nil, hn, hv, fun _ _ => rfl⟩
  | @cons f stack ts tf m hs hf hm =>
      obtain rfl : m = n := by
        rw [List.length_cons] at hn
        omega
      rw [List.append_assoc]
      cases f with
      | arr items =>
          refine ⟨ts, _, m + 1, rfl, hs, hm, ?_, nofun⟩
          rcases hf with ⟨rfl, rfl⟩ | ⟨ti, hne, hi, rfl⟩
          · exact ⟨m, ts', rfl, by simp, .one hv, rfl⟩
          · exact ⟨m, ti ++ .comma :: ts', rfl, by simp, hi.snoc hne hv, by simp⟩
      | obj members key =>
          refine ⟨ts, _, m + 1, rfl, hs, hm, ?_, nofun⟩
          obtain ⟨tk, hk, rfl⟩ := hf
          rcases hk with ⟨rfl, rfl⟩ | ⟨ti, hne, hi, rfl⟩
          · exact ⟨m, .str key :: .colon :: ts', rfl, by simp, .one hv, rfl⟩
          · exact ⟨m, ti ++ .comma :: .str key :: .colon :: ts', rfl, by
              simp, hi.snoc hne hv, by simp⟩

/-- The end of an array. -/
theorem writes_arr {items : List PyJson} {ts : List Token} {m n : ℕ}
    (h : WritesItems hooks items ts m) (hn : n = m + 1) :
    Writes hooks (.arr items) (.openArr :: ts ++ [.closeArr]) n := hn ▸ .arr h

theorem writes_obj {members : List (PyStr × PyJson)} {v : PyJson} {ts : List Token} {m n : ℕ}
    (h : WritesMembers hooks members ts m) (hv : hooks.pairs members = .ok v) (hn : n = m + 1) :
    Writes hooks v (.openObj :: ts ++ [.closeObj]) n := hn ▸ .obj h hv

/-- Opening a container reads its bracket. -/
theorem openContainer_reads {stack : List Frame} {p : Phase} {ts ts' : List Token} {st : State}
    (hs : StackReads hooks stack ts) (hp : ∀ n, 0 < n → p.Reads hooks ts' n)
    (hne : ∀ v, p ≠ .done v) (h : openContainer hooks stack p = .ok st) :
    st.Reads hooks (ts ++ ts') := by
  unfold openContainer at h
  split_ifs at h with hdepth
  cases h
  rw [not_le] at hdepth
  exact ⟨ts, ts', hooks.maxDepth - stack.length, rfl, hs, Nat.add_sub_cancel' hdepth.le,
    hp _ (Nat.sub_pos_of_lt hdepth), fun v hv => absurd hv (hne v)⟩

/-- **Beginning a value** reads its first token. -/
theorem beginValue_reads (hconstant : ∀ name v, hooks.constant name ≠ .ok v) {stack : List Frame}
    {t : Token}
    {ts : List Token} {st : State} {n : ℕ} (hs : StackReads hooks stack ts)
    (hn : stack.length + n = hooks.maxDepth)
    (h : beginValue hooks stack t = .ok st) : st.Reads hooks (ts ++ [t]) := by
  cases t <;> simp only [beginValue, Except.bind_eq_ok_iff, Except.pure_eq_ok, Except.ok.injEq,
    reduceCtorEq] at h
  case openObj => exact openContainer_reads (p := .firstKey) hs (fun n hn => ⟨hn, rfl⟩) nofun h
  case openArr => exact openContainer_reads (p := .firstItem) hs (fun n hn => ⟨hn, rfl⟩) nofun h
  case str s => exact h ▸ complete_reads hs hn .str
  case null => exact h ▸ complete_reads hs hn .null
  case bool b => exact h ▸ complete_reads hs hn .bool
  case int literal =>
    obtain ⟨v, hv, rfl⟩ := h
    exact complete_reads hs hn (.int hv)
  case float literal =>
    obtain ⟨v, hv, rfl⟩ := h
    exact complete_reads hs hn (.float hv)
  case constant name =>
    obtain ⟨v, hv, -⟩ := h
    exact absurd hv (hconstant name v)

/-- **One token more.** -/
theorem step_reads (hconstant : ∀ name v, hooks.constant name ≠ .ok v) {st st' : State} {t : Token}
    {ts : List Token}
    (hst : st.Reads hooks ts) (h : step hooks st t = .ok st') : st'.Reads hooks (ts ++ [t]) := by
  obtain ⟨stack, phase⟩ := st
  obtain ⟨ts₁, ts₂, n, rfl, hs, hn, hp, -⟩ := hst
  simp only at hs hn hp
  rw [List.append_assoc]
  unfold step at h
  split at h <;> rename_i heq <;> try (simp only at heq; subst heq)
  · -- a value comes
    rw [show ts₂ = [] from hp]
    exact beginValue_reads hconstant hs hn h
  · -- an empty array
    cases h
    obtain ⟨hpos, rfl⟩ := hp
    exact complete_reads hs hn (writes_arr .nil (Nat.sub_add_cancel hpos).symm)
  · -- the first item of an array
    rename_i hphase
    obtain rfl : phase = .firstItem := hphase
    obtain ⟨hpos, rfl⟩ := hp
    have hstack : StackReads hooks (.arr [] :: stack) (ts₁ ++ [.openArr]) :=
      .cons hs (n := n - 1) (.inl ⟨rfl, rfl⟩) (by omega)
    have hdone := beginValue_reads (n := n - 1) hconstant hstack (by rw [List.length_cons]; omega) h
    rwa [List.append_assoc] at hdone
  · -- an item ends
    cases h
    obtain ⟨m, ts', rfl, hne, hi, rfl⟩ := hp
    exact ⟨_, [], m, (List.append_nil _).symm, .cons hs (.inr ⟨ts', hne, hi, rfl⟩) hn,
      by simp only [List.length_cons]; omega, rfl, nofun⟩
  · -- an array ends
    cases h
    obtain ⟨m, ts', rfl, -, hi, rfl⟩ := hp
    exact complete_reads hs hn (writes_arr hi rfl)
  · -- an empty object
    obtain ⟨v, hv, h⟩ := Except.bind_eq_ok_iff.mp h
    cases h
    obtain ⟨hpos, rfl⟩ := hp
    exact complete_reads hs hn (writes_obj .nil hv (Nat.sub_add_cancel hpos).symm)
  · -- the first key of an object
    cases h
    obtain ⟨hpos, rfl⟩ := hp
    exact ⟨ts₁, _, n, rfl, hs, hn, ⟨n - 1, _, (Nat.sub_add_cancel hpos).symm, .inl ⟨rfl, rfl⟩, rfl⟩,
      nofun⟩
  · -- another key
    cases h
    obtain ⟨m, rfl, hk⟩ := hp
    exact ⟨ts₁, _, m + 1, rfl, hs, hn, ⟨m, _, rfl, hk, rfl⟩, nofun⟩
  · -- a key ends
    cases h
    obtain ⟨m, ts', rfl, hk, rfl⟩ := hp
    refine ⟨ts₁ ++ (ts' ++ [_, _]), [], m, ?_, .cons hs ⟨ts', hk, rfl⟩ hn, by
      simp only [List.length_cons]; omega, rfl, nofun⟩
    simp
  · -- a member ends
    cases h
    obtain ⟨m, ts', rfl, hne, hi, rfl⟩ := hp
    exact ⟨ts₁, _, m + 1, rfl, hs, hn, ⟨m, rfl, .inr ⟨ts', hne, hi, rfl⟩⟩, nofun⟩
  · -- an object ends
    obtain ⟨v, hv, h⟩ := Except.bind_eq_ok_iff.mp h
    cases h
    obtain ⟨m, ts', rfl, -, hi, rfl⟩ := hp
    exact complete_reads hs hn (writes_obj hi hv rfl)
  · cases h

/-- The tokens of a decoded text write the value. -/
theorem writes_of_decode (hconstant : ∀ name v, hooks.constant name ≠ .ok v) {v : PyJson}
    {text : List Char}
    (h : decode hooks text = .ok v) : Writes hooks v (lex text) hooks.maxDepth := by
  obtain ⟨st, hrun, hfin⟩ := Except.bind_eq_ok_iff.mp h
  have hst : st.Reads hooks (lex text) := by
    refine Except.foldlM_ok_run (fun ts st => st.Reads hooks ts)
      (fun _ _ _ _ _ _ hinv hstep => step_reads hconstant hinv hstep) ?_ hrun
    exact ⟨[], [], hooks.maxDepth, rfl, .nil, Nat.zero_add _, rfl, nofun⟩
  obtain ⟨stack, phase⟩ := st
  obtain ⟨ts₁, ts₂, n, hts, hs, hn, hp, hstack⟩ := hst
  unfold finish at hfin
  split at hfin
  · rename_i w heq
    simp only at heq hs hn hstack
    subst heq
    obtain rfl := hstack w rfl
    cases hs
    cases hfin
    rw [hts, ← hn, List.length_nil, Nat.zero_add]
    exact hp
  · cases hfin

/-- **The decoder accepts its grammar**, and nothing else. -/
theorem decode_eq_ok_iff (hconstant : ∀ name v, hooks.constant name ≠ .ok v) {v : PyJson}
    {text : List Char} :
    decode hooks text = .ok v ↔ Writes hooks v (lex text) hooks.maxDepth :=
  ⟨writes_of_decode hconstant, fun h => decode_of_writes h le_rfl⟩

end JsonReader
