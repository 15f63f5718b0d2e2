/-
# Borders in one text

Texts that are cut at a sign which their parts may hold as well.  Two borders of one text are the
same, or one of them stands inside a part that the other one ends (`border_cases`).

`Parts.eq_or_recut` and `Parts.exists_of_recut` say which texts of four parts, the third of them a
stamp that never holds the sign, have a second reading.
-/
import EvidenceLab.Delimited

namespace Delimited

variable {α : Type} {d : α}

/-! ## Two borders in one text -/

/-- Two borders of one text are the same, or one of them stands inside the part before the other. -/
theorem border_cases {x y x' y' : List α} (h : x ++ d :: y = x' ++ d :: y') :
    (x = x' ∧ y = y') ∨ (∃ m, x' = x ++ d :: m ∧ y = m ++ d :: y') ∨ ∃ m, x = x' ++ d :: m ∧
    y' = m ++ d :: y := by
  rcases List.append_eq_append_iff.mp h with ⟨m, rfl, hm⟩ | ⟨m, rfl, hm⟩
  · cases m with
    | nil => exact .inl ⟨(List.append_nil x).symm, (List.cons.inj hm).2⟩
    | cons e m =>
        obtain ⟨rfl, hy⟩ := List.cons.inj hm
        exact .inr (.inl ⟨m, rfl, hy⟩)
  · cases m with
    | nil => exact .inl ⟨List.append_nil x', (List.cons.inj hm).2.symm⟩
    | cons e m =>
        obtain ⟨rfl, hy⟩ := List.cons.inj hm
        exact .inr (.inr ⟨m, rfl, hy⟩)

/-- A border behind a part without its sign is the first one. -/
theorem border_of_not_mem {x y x' y' : List α} (hx : d ∉ x) (h : x ++ d :: y = x' ++ d :: y') :
    (x = x' ∧ y = y') ∨ ∃ m, x' = x ++ d :: m ∧ y = m ++ d :: y' := by
  rcases border_cases h with h | h | ⟨m, rfl, -⟩
  · exact .inl h
  · exact .inr h
  · exact absurd (List.mem_append_right x' List.mem_cons_self) hx

/-- The first delimiter of a text stands at one place. -/
theorem border_unique {x y x' y' : List α} (hx : d ∉ x) (hx' : d ∉ x')
    (h : x ++ d :: y = x' ++ d :: y') :
    x = x' ∧ y = y' := by
  rcases border_of_not_mem hx h with h | ⟨m, rfl, -⟩
  · exact h
  · exact absurd (List.mem_append_right x List.mem_cons_self) hx'

/-- Two borders with different signs: one stands before the other. -/
theorem border_cases_of_ne {e : α} (hde : d ≠ e) {x y x' y' : List α}
    (h : x ++ d :: y = x' ++ e :: y') :
    (∃ m, x' = x ++ d :: m ∧ y = m ++ e :: y') ∨ ∃ m, x = x' ++ e :: m ∧ y' = m ++ d :: y := by
  rcases List.append_eq_append_iff.mp h with ⟨m, rfl, hm⟩ | ⟨m, rfl, hm⟩
  · cases m with
    | nil => exact absurd (List.cons.inj hm).1 hde
    | cons f m =>
        obtain ⟨rfl, hy⟩ := List.cons.inj hm
        exact .inl ⟨m, rfl, hy⟩
  · cases m with
    | nil => exact absurd (List.cons.inj hm).1.symm hde
    | cons f m =>
        obtain ⟨rfl, hy⟩ := List.cons.inj hm
        exact .inr ⟨m, rfl, hy⟩

variable {blank : α → Prop}

theorem startsSolid_border (hd : ¬ blank d) {x y : List α} :
    StartsSolid blank (x ++ d :: y) ↔ StartsSolid blank x := by
  cases x with
  | nil => simp [StartsSolid, hd]
  | cons a x => rfl

theorem endsSolid_border (hd : ¬ blank d) {x y : List α} :
    EndsSolid blank (x ++ d :: y) ↔ EndsSolid blank y := by
  rw [endsSolid_append_iff (List.cons_ne_nil d y)]
  cases y with
  | nil => simp [EndsSolid, hd]
  | cons a y => simp [EndsSolid]

/-- Parts before a border of one text start alike. -/
theorem startsSolid_of_border (hd : ¬ blank d) {x y x' y' : List α}
    (h : x ++ d :: y = x' ++ d :: y')
    (hx : StartsSolid blank x) : StartsSolid blank x' := by
  rwa [← startsSolid_border hd, ← h, startsSolid_border hd]

/-! ## Three borders in one text -/

/-- The parts of a text with three bars. -/
structure Reading (α : Type) where
  first : List α
  second : List α
  stamp : List α
  rest : List α

def Reading.text (bar : α) (r : Reading α) : List α :=
  r.first ++ bar :: (r.second ++ bar :: (r.stamp ++ bar :: r.rest))

/-- What the parts of a text may be. -/
structure Parts (bar : α) (blank : α → Prop) where
  IsFirst : List α → Prop
  IsSecond : List α → Prop
  IsStamp : List α → Prop
  IsRest : List α → Prop
  bar_solid : ¬ blank bar
  first_append : ∀ c x, IsFirst c → IsFirst (c ++ bar :: x)
  second_starts : ∀ u, IsSecond u → StartsSolid blank u
  second_ends : ∀ u, IsSecond u → EndsSolid blank u
  second_of_bar : ∀ u, bar ∈ u → StartsSolid blank u → EndsSolid blank u → IsSecond u
  second_of_stamp : ∀ p, IsStamp p → IsSecond p
  stamp_plain : ∀ p, IsStamp p → bar ∉ p

namespace Parts

variable {bar : α} (P : Parts bar blank)

/-- The parts are of their kinds. -/
structure Valid (r : Reading α) : Prop where
  first : P.IsFirst r.first
  second : P.IsSecond r.second
  stamp : P.IsStamp r.stamp
  rest : P.IsRest r.rest

/-- The first part can be cut, or the second can, or a stamp stands in the last one. -/
def Recut (r : Reading α) : Prop :=
  (∃ a b, r.first = a ++ bar :: b ∧ P.IsFirst a ∧ StartsSolid blank b)
    ∨ (∃ a b, r.second = a ++ bar :: b ∧ P.IsSecond b)
    ∨ ∃ p ds, P.IsStamp p ∧ P.IsRest ds
      ∧ (r.rest = p ++ bar :: ds ∨ ∃ x, EndsSolid blank x ∧ r.rest = x ++ bar :: (p ++ bar :: ds))

variable {P}

/-- A border at the bar is a second reading if both sides allow it. -/
theorem second_border_iff {x y : List α} :
    P.IsSecond (x ++ bar :: y) ↔ StartsSolid blank x ∧ EndsSolid blank y := by
  rw [← startsSolid_border P.bar_solid, ← endsSolid_border P.bar_solid]
  exact ⟨fun h => ⟨P.second_starts _ h, P.second_ends _ h⟩,
    fun h => P.second_of_bar _ (List.mem_append_right x List.mem_cons_self) h.1 h.2⟩

/-- A stamp behind the first one stands in the last part. -/
theorem recut_of_stamp {r : Reading α} (hr : P.Valid r) {w p ds : List α} (hw : EndsSolid blank w)
    (hp : P.IsStamp p)
    (hds : P.IsRest ds) (h : r.stamp ++ bar :: r.rest = w ++ bar :: (p ++ bar :: ds)) :
    P.Recut r := by
  refine .inr (.inr ⟨p, ds, hp, hds, ?_⟩)
  rcases border_of_not_mem (P.stamp_plain _ hr.stamp) h with ⟨-, hrest⟩ | ⟨x, rfl, hrest⟩
  · exact .inl hrest
  · exact .inr ⟨x, (endsSolid_border P.bar_solid).mp hw, hrest⟩

/-- **Two readings of one text**: they are the same, or the first one can be cut again. -/
theorem eq_or_recut {r r' : Reading α} (hr : P.Valid r) (hr' : P.Valid r')
    (h : r.text bar = r'.text bar) :
    r = r' ∨ P.Recut r := by
  obtain ⟨c, u, p, ds⟩ := r
  obtain ⟨c', u', p', ds'⟩ := r'
  have hstarts := P.second_starts _ hr'.second
  have hends := P.second_ends _ hr'.second
  have hends₀ := P.second_ends _ hr.second
  simp only [Reading.text] at h hstarts hends hends₀
  rcases border_cases h with ⟨rfl, h₁⟩ | ⟨m, rfl, h₁⟩ | ⟨m, rfl, h₁⟩
  · rcases border_cases h₁ with ⟨rfl, h₂⟩ | ⟨m, rfl, h₂⟩ | ⟨m, rfl, h₂⟩
    · obtain ⟨rfl, rfl⟩ := border_unique (P.stamp_plain _ hr.stamp) (P.stamp_plain _ hr'.stamp) h₂
      exact .inl rfl
    · exact .inr (recut_of_stamp hr ((endsSolid_border P.bar_solid).mp hends) hr'.stamp hr'.rest h₂)
    · -- the second part of the first reading holds the stamp of the other reading
      refine .inr (.inr (.inl ⟨u', m, rfl, ?_⟩))
      rw [endsSolid_border P.bar_solid] at hends₀
      rcases border_of_not_mem (P.stamp_plain _ hr'.stamp) h₂ with ⟨rfl, -⟩ | ⟨x, rfl, -⟩
      · exact P.second_of_stamp _ hr'.stamp
      · rw [endsSolid_border P.bar_solid] at hends₀
        exact second_border_iff.mpr ⟨P.second_starts _ (P.second_of_stamp _ hr'.stamp), hends₀⟩
  · rcases border_cases h₁ with ⟨rfl, h₂⟩ | ⟨m', rfl, h₂⟩ | ⟨n, rfl, h₂⟩
    · exact .inr (recut_of_stamp hr hends hr'.stamp hr'.rest h₂)
    · have hw : EndsSolid blank (m' ++ bar :: u') := (endsSolid_border P.bar_solid).mpr hends
      refine .inr (recut_of_stamp hr hw hr'.stamp hr'.rest ?_)
      rw [List.append_assoc, List.cons_append]
      exact h₂
    · rcases border_cases h₂ with ⟨rfl, -⟩ | ⟨w, rfl, -⟩ | ⟨w, rfl, h₃⟩
      · exact .inr (.inr (.inl ⟨m, u', rfl, hr'.second⟩))
      · rw [endsSolid_border P.bar_solid, endsSolid_border P.bar_solid] at hends₀
        exact .inr (.inr (.inl ⟨m, _, rfl, second_border_iff.mpr ⟨hstarts, hends₀⟩⟩))
      · exact .inr
          (recut_of_stamp hr ((endsSolid_border P.bar_solid).mp hends) hr'.stamp hr'.rest h₃)
  · exact .inr (.inl ⟨c', m, rfl, hr'.first, startsSolid_of_border P.bar_solid h₁ hstarts⟩)

/-- A reading that can be cut again is not the only one. -/
theorem exists_of_recut {r : Reading α} (hr : P.Valid r) (h : P.Recut r) :
    ∃ r', P.Valid r' ∧ r'.text bar = r.text bar ∧ r' ≠ r := by
  obtain ⟨c, u, p, ds⟩ := r
  have hstarts := P.second_starts _ hr.second
  have hends := P.second_ends _ hr.second
  rcases h with ⟨a, b, rfl, ha, hb⟩ | ⟨a, b, rfl, hb⟩ | ⟨p', ds', hp, hds, rfl | ⟨x, hx, rfl⟩⟩
  · refine ⟨⟨a, b ++ bar :: u, p, ds⟩, ⟨ha, second_border_iff.mpr ⟨hb, hends⟩, hr.stamp, hr.rest⟩,
    ?_, fun heq => ?_⟩
    · simp [Reading.text]
    · exact absurd (congrArg (fun r => r.first.length) heq) (by simp)
  · refine ⟨⟨c ++ bar :: a, b, p, ds⟩, ⟨P.first_append c a hr.first, hb, hr.stamp, hr.rest⟩,
    ?_, fun heq => ?_⟩
    · simp [Reading.text]
    · exact absurd (congrArg (fun r => r.first.length) heq) (by simp)
  · have hu : P.IsSecond (u ++ bar :: p) :=
      second_border_iff.mpr ⟨hstarts, P.second_ends _ (P.second_of_stamp _ hr.stamp)⟩
    refine ⟨⟨c, u ++ bar :: p, p', ds'⟩, ⟨hr.first, hu, hp, hds⟩, ?_, fun heq => ?_⟩
    · simp [Reading.text]
    · exact absurd (congrArg (fun r => r.second.length) heq) (by simp)
  · have hu : P.IsSecond (u ++ bar :: (p ++ bar :: x)) :=
      second_border_iff.mpr ⟨hstarts, (endsSolid_border P.bar_solid).mpr hx⟩
    refine ⟨⟨c, u ++ bar :: (p ++ bar :: x), p', ds'⟩, ⟨hr.first, hu, hp, hds⟩, ?_, fun heq => ?_⟩
    · simp [Reading.text]
    · exact absurd (congrArg (fun r => r.second.length) heq) (by simp)

end Parts

end Delimited
