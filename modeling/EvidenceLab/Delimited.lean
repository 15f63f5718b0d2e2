/-
# Labelled texts joined by a delimiter

A record is written as its first value followed by a delimiter, a label and a value for each further
field, with nothing escaped.  Values are solid: not empty, and no blank at either end.  Labels do
not contain the delimiter, values may.

`eq_or_ambiguous` and `exists_recut` say which records share their text with another record of the
same labels: those in which the delimiter and a label stand inside the value before that label or
inside its own.
-/
import Mathlib

namespace Delimited

variable {α : Type} (delim : α) (blank : α → Prop)

/-- The fields after the first value: the label and the value of each. -/
abbrev Fields (α : Type) := List (List α × List α)

/-- The text of the further fields. -/
def tailText (fields : Fields α) : List α := fields.flatMap fun f => delim :: (f.1 ++ f.2)

/-- The text of a record. -/
def text (v : List α) (fields : Fields α) : List α := v ++ tailText delim fields

/-- No blank at the end. -/
def EndsSolid (v : List α) : Prop := ∀ x ∈ v.getLast?, ¬ blank x

/-- No blank at the start. -/
def StartsSolid (v : List α) : Prop := ∀ x ∈ v.head?, ¬ blank x

/-- A value that is not empty and has no blank at either end. -/
structure Solid (v : List α) : Prop where
  ne : v ≠ []
  starts : StartsSolid blank v
  ends : EndsSolid blank v

/-- The delimiter and the label stand in a value between `a` and `b`, with no blank beside them. -/
structure Cut (label v a b : List α) : Prop where
  split : v = a ++ delim :: (label ++ b)
  left : EndsSolid blank a
  right : StartsSolid blank b

/-- A label of the record stands in the value before it, or in its own value, with something left
over on the far side. -/
def Ambiguous (v : List α) : Fields α → Prop
  | [] => False
  | (label, x) :: fields =>
      (∃ a b, Cut delim blank label v a b ∧ a ≠ []) ∨ (∃ a b, Cut delim blank label x a b ∧ b ≠ [])
        ∨ Ambiguous x fields

section Lists

variable {delim blank}

theorem tailText_cons (label x : List α) (fields : Fields α) :
    tailText delim ((label, x) :: fields) = delim :: (label ++ (x ++ tailText delim fields)) := by
  rw [tailText, List.flatMap_cons, ← tailText, List.cons_append, List.append_assoc]

theorem startsSolid_append {a b : List α} (h : StartsSolid blank (a ++ b)) :
    StartsSolid blank a := by
  cases a with
  | nil => exact fun x hx => by cases hx
  | cons y a => exact h

theorem startsSolid_append_iff {a b : List α} (ha : a ≠ []) :
    StartsSolid blank (a ++ b) ↔ StartsSolid blank a := by
  cases a with
  | nil => exact absurd rfl ha
  | cons y a => exact Iff.rfl

theorem endsSolid_append_iff {a b : List α} (hb : b ≠ []) :
    EndsSolid blank (a ++ b) ↔ EndsSolid blank b := by
  rw [EndsSolid, EndsSolid, List.getLast?_append_of_ne_nil a hb]

theorem endsSolid_of_append {a b : List α} (h : EndsSolid blank (a ++ b)) : EndsSolid blank b := by
  by_cases hb : b = []
  · rw [hb]
    exact fun x hx => by cases hx
  · exact (endsSolid_append_iff hb).mp h

/-- Where the delimiter and a label meet the delimiter after a part `u`, the part starts with both:
the label does not contain the delimiter. -/
theorem exists_of_label_eq {label x u y : List α} (hlabel : delim ∉ label) (hu : u ≠ [])
    (h : delim :: (label ++ x) = u ++ delim :: y) :
    ∃ b, u = delim :: (label ++ b) ∧ x = b ++ delim :: y := by
  cases u with
  | nil => exact absurd rfl hu
  | cons d u =>
      rw [List.cons_append, List.cons.injEq] at h
      obtain ⟨rfl, h⟩ := h
      rcases List.append_eq_append_iff.mp h with ⟨b, rfl, hx⟩ | ⟨r, rfl, hr⟩
      · exact ⟨b, rfl, hx⟩
      · cases r with
        | nil => exact ⟨[], by simp, by simpa using hr.symm⟩
        | cons e r =>
            rw [List.cons_append, List.cons.injEq] at hr
            exact absurd (List.mem_append_right u (hr.1 ▸ List.mem_cons_self)) hlabel

/-- A record without the delimiter in its values is not ambiguous. -/
theorem not_ambiguous_of_not_mem {v : List α} {fields : Fields α} (hv : delim ∉ v)
    (hf : ∀ f ∈ fields, delim ∉ f.2) :
    ¬ Ambiguous delim blank v fields := by
  induction fields generalizing v with
  | nil => exact id
  | cons f fields ih =>
      have hx : delim ∉ f.2 := hf f List.mem_cons_self
      have hcut : ∀ {label v a b : List α}, delim ∉ v → ¬ Cut delim blank label v a b := by
        intro label v a b hv hcut
        rw [hcut.split] at hv
        simp at hv
      rintro (⟨a, b, hc, -⟩ | ⟨a, b, hc, -⟩ | h)
      · exact hcut hv hc
      · exact hcut hx hc
      · exact ih hx (fun g hg => hf g (List.mem_cons_of_mem _ hg)) h

end Lists

/-! ## Two readings of one text -/

section Readings

/-- Two lists of fields with the same labels and solid values. -/
structure SameShape (fields fields' : Fields α) : Prop where
  labels : fields'.map Prod.fst = fields.map Prod.fst
  plain : ∀ f ∈ fields, delim ∉ f.1
  solid : ∀ f ∈ fields', Solid blank f.2

variable {delim blank}

theorem SameShape.cons {label x : List α} {fields fields' : Fields α}
    (h : SameShape delim blank ((label, x) :: fields) fields') :
    ∃ y rest, fields' = (label, y) :: rest ∧ delim ∉ label ∧ Solid blank y
      ∧ SameShape delim blank fields rest := by
  cases fields' with
  | nil => exact absurd h.labels (by simp)
  | cons f rest =>
      obtain ⟨l, y⟩ := f
      have hl := h.labels
      rw [List.map_cons, List.map_cons, List.cons.injEq] at hl
      obtain ⟨rfl, hrest⟩ := hl
      exact ⟨y, rest, rfl, h.plain (l, x) List.mem_cons_self, h.solid _ List.mem_cons_self, hrest,
        fun f hf => h.plain f (List.mem_cons_of_mem _ hf),
        fun f hf => h.solid f (List.mem_cons_of_mem _ hf)⟩

theorem exists_of_label_tailText {label z u : List α} {fields : Fields α} (hlabel : delim ∉ label)
    (hu : u ≠ [])
    (h : delim :: (label ++ z) = u ++ tailText delim fields) :
    ∃ b, u = delim :: (label ++ b) ∧ z = b ++ tailText delim fields := by
  cases fields with
  | nil => exact ⟨z, by simpa [tailText] using h.symm, by simp [tailText]⟩
  | cons f fields =>
      rw [tailText_cons] at h ⊢
      exact exists_of_label_eq hlabel hu h

/-- A text that is the other one moved to the right has a label inside its own value. -/
theorem ambiguous_of_shift {fields fields' : Fields α} (h : SameShape delim blank fields fields')
    {u : List α}
    (hu : u ≠ []) (hends : EndsSolid blank u)
    (heq : tailText delim fields = u ++ tailText delim fields') (v : List α) :
    Ambiguous delim blank v fields := by
  induction fields generalizing fields' u v with
  | nil => simp_all [tailText]
  | cons f fields ih =>
      obtain ⟨label, x⟩ := f
      obtain ⟨w, rest, rfl, hlabel, hw, hrest⟩ := h.cons
      rw [tailText_cons, tailText_cons] at heq
      obtain ⟨b, rfl, hx⟩ := exists_of_label_eq hlabel hu heq
      have hb : EndsSolid blank b := endsSolid_of_append (a := delim :: label) hends
      -- the label of the other reading stands in `x` or after it
      have hafter :
          ∀ c, tailText delim fields = c ++ delim :: (label ++ (w ++ tailText delim rest)) →
          Ambiguous delim blank v ((label, x) :: fields) := by
        intro c hc
        refine .inr
          (.inr (ih hrest (u := c ++ delim :: (label ++ w)) (by simp) ?_ (by simpa using hc) x))
        rw [← List.cons_append, ← List.append_assoc, endsSolid_append_iff hw.ne]
        exact hw.ends
      rcases List.append_eq_append_iff.mp hx with ⟨c, -, hc⟩ | ⟨c, rfl, hc⟩
      · exact hafter c hc
      · by_cases hnil : c = []
        · exact hafter [] (by simpa [hnil] using hc.symm)
        · obtain ⟨b', rfl, hb'⟩ := exists_of_label_tailText hlabel hnil hc
          by_cases hnil' : b' = []
          · refine .inr (.inr (ih hrest hw.ne hw.ends ?_ _))
            rw [hnil', List.nil_append] at hb'
            exact hb'.symm
          · refine .inr (.inl ⟨b, b', ⟨rfl, hb, ?_⟩, hnil'⟩)
            apply startsSolid_append (b := tailText delim fields)
            rw [← hb', startsSolid_append_iff hw.ne]
            exact hw.starts

/-- Two records with one text are one record, or the first is ambiguous. -/
theorem eq_or_ambiguous {v w : List α} {fields fields' : Fields α}
    (h : SameShape delim blank fields fields')
    (hw : Solid blank w) (heq : text delim v fields = text delim w fields') :
    (v = w ∧ fields = fields') ∨ Ambiguous delim blank v fields := by
  induction fields generalizing v w fields' with
  | nil =>
      have hnil : fields' = [] := List.map_eq_nil_iff.mp h.labels
      rw [hnil] at heq ⊢
      exact .inl ⟨by simpa [text, tailText] using heq, rfl⟩
  | cons f fields ih =>
      obtain ⟨label, x⟩ := f
      obtain ⟨y, rest, rfl, hlabel, hy, hrest⟩ := h.cons
      -- with one first value the records are compared field by field
      have hsame : v = w → (v = w ∧ (label, x) :: fields = (label, y) :: rest)
          ∨ Ambiguous delim blank v ((label, x) :: fields) := by
        rintro rfl
        have htail := List.append_cancel_left heq
        rw [tailText_cons, tailText_cons, List.cons.injEq] at htail
        rcases ih hrest hy (List.append_cancel_left htail.2) with ⟨rfl, rfl⟩ | hamb
        · exact .inl ⟨rfl, rfl⟩
        · exact .inr (.inr (.inr hamb))
      rcases List.append_eq_append_iff.mp heq with ⟨u, rfl, hu⟩ | ⟨u, rfl, hu⟩
      · by_cases hnil : u = []
        · exact hsame (by simp [hnil])
        · exact .inr (ambiguous_of_shift h hnil (endsSolid_of_append hw.ends) hu v)
      · by_cases hnil : u = []
        · exact hsame (by simp [hnil])
        · rw [tailText_cons label y] at hu
          obtain ⟨b, rfl, hb⟩ := exists_of_label_tailText hlabel hnil hu
          refine .inr (.inl ⟨w, b, ⟨rfl, hw.ends, ?_⟩, hw.ne⟩)
          apply startsSolid_append (b := tailText delim ((label, x) :: fields))
          rw [← hb, startsSolid_append_iff hy.ne]
          exact hy.starts

/-- An ambiguous record has a second reading. -/
theorem exists_recut {v : List α} {fields : Fields α} (hdelim : ¬ blank delim) (hv : Solid blank v)
    (hsolid : ∀ f ∈ fields, Solid blank f.2)
    (hlabels : ∀ f ∈ fields, EndsSolid blank (delim :: f.1))
    (h : Ambiguous delim blank v fields) :
    ∃ w fields', fields'.map Prod.fst = fields.map Prod.fst ∧ Solid blank w ∧
    (∀ f ∈ fields', Solid blank f.2)
      ∧ text delim w fields' = text delim v fields ∧ ¬ (w = v ∧ fields' = fields) := by
  induction fields generalizing v with
  | nil => exact h.elim
  | cons f fields ih =>
      obtain ⟨label, x⟩ := f
      have hx : Solid blank x := hsolid _ List.mem_cons_self
      have hrest : ∀ f ∈ fields, Solid blank f.2 := fun f hf => hsolid f (List.mem_cons_of_mem _ hf)
      rcases h with ⟨a, b, hcut, ha⟩ | ⟨a, b, hcut, hb⟩ | hamb
      · -- the first value ends before the label that it contains
        refine ⟨a, (label, b ++ delim :: (label ++ x)) :: fields, rfl, ⟨ha, ?_, hcut.left⟩,
          ?_, ?_, ?_⟩
        · exact startsSolid_append (hcut.split ▸ hv.starts)
        · intro f hf
          rcases List.mem_cons.mp hf with rfl | hf
          · refine ⟨by simp, ?_, ?_⟩
            · by_cases hb : b = []
              · rw [hb]
                intro c hc
                rw [← Option.some.inj hc]
                exact hdelim
              · exact (startsSolid_append_iff hb).mpr hcut.right
            · show EndsSolid blank (b ++ delim :: (label ++ x))
              rw [← List.cons_append, ← List.append_assoc, endsSolid_append_iff hx.ne]
              exact hx.ends
          · exact hrest f hf
        · rw [text, text, tailText_cons, tailText_cons, hcut.split]
          simp
        · rintro ⟨hva, -⟩
          have := congrArg List.length (hva.trans hcut.split)
          simp at this
      · -- the first value takes the part of the second one before the label
        refine ⟨v ++ delim :: (label ++ a), (label, b) :: fields, rfl, ⟨by simp, ?_, ?_⟩,
          ?_, ?_, ?_⟩
        · exact (startsSolid_append_iff hv.ne).mpr hv.starts
        · rw [endsSolid_append_iff (by simp), ← List.cons_append]
          by_cases ha : a = []
          · rw [ha, List.append_nil]
            exact hlabels _ List.mem_cons_self
          · rw [endsSolid_append_iff ha]
            exact hcut.left
        · intro f hf
          rcases List.mem_cons.mp hf with rfl | hf
          · refine ⟨hb, hcut.right, ?_⟩
            apply endsSolid_of_append (a := a ++ delim :: label)
            have := hcut.split ▸ hx.ends
            simpa using this
          · exact hrest f hf
        · rw [text, text, tailText_cons, tailText_cons, hcut.split]
          simp
        · rintro ⟨hva, -⟩
          simp at hva
      · -- the ambiguity is further on
        obtain ⟨w, fields', hl, hw, hs, htext, hne⟩ :=
          ih hx hrest (fun f hf => hlabels f (List.mem_cons_of_mem _ hf)) hamb
        refine ⟨v, (label, w) :: fields', by simp [hl], hv, ?_, ?_, ?_⟩
        · intro f hf
          rcases List.mem_cons.mp hf with rfl | hf
          · exact hw
          · exact hs f hf
        · rw [text, text, tailText_cons, tailText_cons, ← text, ← text, htext]
        · rintro ⟨-, heq⟩
          rw [List.cons.injEq, Prod.mk.injEq] at heq
          exact hne ⟨heq.1.2, heq.2⟩

end Readings

end Delimited
