/-
# Fingerprints of values

The model of `canonical_magnitude` and `value_fingerprint`.  A finite decimal with an integer scale
is reduced to its digits without trailing zeros and the power of ten after them; a value that is no
finite decimal stands for itself, in the same place.  So a text that `Decimal` rejects for its
exponent can be the very token of another magnitude, and an exponent of more than 4300 digits cannot
be written at all.

`value_fingerprints_canonical_iff` says for which payloads equal fingerprints are equal contents.
-/
import EvidenceLab.DecimalParse
import EvidenceLab.DocText

namespace Extraction

/-! ## Magnitudes -/

/-- `isinstance(d, int)` and its value; a boolean is none. -/
def Doc.int? : Doc → Option ℤ
  | .num literal =>
      match literal.toList with
      | '-' :: ds => (Decimal.digits? ds).map fun n => -(n : ℤ)
      | ds => (Decimal.digits? ds).map fun n => (n : ℤ)
  | _ => none

/-- The finite number in `Decimal(str(d))`.  The texts of booleans, lists and objects are no
numbers. -/
def Doc.finite? : Doc → Option Decimal
  | .num literal =>
      match Decimal.ofText literal.toList with
      | some (.finite d) => some d
      | _ => none
  | .str s =>
      match Decimal.ofText s.toList with
      | some (.finite d) => some d
      | _ => none
  | _ => none

namespace Fingerprint

/-- A text of an integer; Python refuses one of more than 4300 digits. -/
def formatInt (i : ℤ) : Except String (List Char) :=
  if i.natAbs < 10 ^ 4300 then .ok (Json.intText i) else .error "ValueError"

/-- The exponent shift of a declared scale. -/
def shiftOf (scale : Doc) : ℤ := scale.int?.getD 0

/-- The token of digits without trailing zeros and their exponent. -/
def tokenText (neg : Bool) (c : ℕ) (exponent : List Char) : List Char :=
  (if neg then ['-'] else []) ++ (Nat.toDigits 10 c ++ 'e' :: exponent)

/-- `canonical_magnitude`. -/
def canonicalMagnitude (value scale : Doc) : Except String Doc :=
  match value.finite? with
  | none => .ok value
  | some d =>
      if d.coeff = 0 then .ok (.str "0e0")
      else do
        let exponent ← formatInt (d.trimmed.2 + shiftOf scale)
        return .str (String.ofList (tokenText d.neg d.trimmed.1 exponent))

section Fingerprint

variable (sha256Hex : String → String)

/-- `hash_json`. -/
def hashJson (d : Doc) : String := sha256Hex (canonicalJson d)

/-- `value_fingerprint`. -/
def valueFingerprint (payload : Doc) : Except String String := do
  let scale := payload.field "scale"
  let value ← canonicalMagnitude (payload.field "value") scale
  let low ← canonicalMagnitude (payload.field "low") scale
  let high ← canonicalMagnitude (payload.field "high") scale
  return hashJson sha256Hex
    (.obj [("value", value), ("low", low), ("high", high), ("text", payload.field "text"),
    ("category", payload.field "category"), ("direction", payload.field "direction")])

end Fingerprint

/-! ## What a fingerprint is for -/

/-- The magnitude of a decimal at a scale. -/
def magnitudeAt (d : Decimal) (shift : ℤ) : ℚ := d.value * 10 ^ shift

/-- Two values are one magnitude, or one raw value when neither is a finite decimal. -/
def SameFigure (v : Doc) (s : ℤ) (w : Doc) (t : ℤ) : Prop :=
  match v.finite?, w.finite? with
  | some a, some b => magnitudeAt a s = magnitudeAt b t
  | none, none => v.sorted = w.sorted
  | _, _ => False

/-- The fields of a figure. -/
def figureKeys : List String := ["value", "low", "high"]

/-- The fields of a payload that are words. -/
def wordKeys : List String := ["text", "category", "direction"]

/-- Two payloads with one economic content. -/
def SameContent (p q : Doc) : Prop :=
  (∀ key ∈ figureKeys,
    SameFigure (p.field key) (shiftOf (p.field "scale")) (q.field key) (shiftOf (q.field "scale")))
    ∧ ∀ key ∈ wordKeys, (p.field key).sorted = (q.field key).sorted

/-- The exponent of the last digit that is not zero can be written. -/
def Printable (v : Doc) (s : ℤ) : Prop :=
  ∀ d, v.finite? = some d → d.coeff ≠ 0 → (d.trimmed.2 + s).natAbs < 10 ^ 4300

/-- A text that `Decimal` does not accept spells the magnitude of another value, as digits without
trailing zeros and a power of ten. -/
def Spells (v w : Doc) (t : ℤ) : Prop :=
  ∃ text d neg c e, v = .str text ∧ v.finite? = none ∧ w.finite? = some d ∧ c % 10 ≠ 0
    ∧ text.toList = tokenText neg c (Json.intText e) ∧ magnitudeAt d t = Decimal.value ⟨neg, c, e⟩

/-- Of two values one spells the other. -/
def Spelled (v : Doc) (s : ℤ) (w : Doc) (t : ℤ) : Prop := Spells v w t ∨ Spells w v s

/-- Two payloads with different contents that no field tells apart. -/
structure Clash (p q : Doc) : Prop where
  figures : ∀ key ∈ figureKeys,
    SameFigure (p.field key) (shiftOf (p.field "scale")) (q.field key) (shiftOf (q.field "scale"))
      ∨ Spelled (p.field key) (shiftOf (p.field "scale")) (q.field key) (shiftOf (q.field "scale"))
  words : ∀ key ∈ wordKeys, (p.field key).sorted = (q.field key).sorted
  spelled : ∃ key ∈ figureKeys,
    Spelled (p.field key) (shiftOf (p.field "scale")) (q.field key) (shiftOf (q.field "scale"))

/-! ## Tokens -/

/-- A token is known by its sign, its digits and its exponent. -/
theorem tokenText_inj {neg neg' : Bool} {c c' : ℕ} {e e' : List Char}
    (h : tokenText neg c e = tokenText neg' c' e') : neg = neg' ∧ c = c' ∧ e = e' := by
  have hminus : ∀ (n : ℕ) (r r' : List Char), Nat.toDigits 10 n ++ r ≠ '-' :: r' := by
    intro n r r' heq
    obtain ⟨d, ds, hd, hdig⟩ := Json.toDigits_head n
    rw [hd, List.cons_append, List.cons.injEq] at heq
    rw [heq.1] at hdig
    exact absurd hdig (by decide)
  have hdigits : ∀ {c c' : ℕ} {e e' : List Char}, Nat.toDigits 10 c ++ 'e' :: e
      = Nat.toDigits 10 c' ++ 'e' :: e' →
      c = c' ∧ e = e' := by
    intro c c' e e' heq
    obtain ⟨hc, hrest⟩ :=
      Json.toDigits_append_inj (Json.stopsNumber_cons rfl e) (Json.stopsNumber_cons rfl e') heq
    exact ⟨hc, (List.cons.inj hrest).2⟩
  rw [tokenText, tokenText] at h
  cases neg <;> cases neg' <;> simp only [Bool.false_eq_true, if_true, if_false, List.nil_append,
    List.cons_append] at h
  · exact ⟨rfl, hdigits h⟩
  · exact absurd h (hminus _ _ _)
  · exact absurd h.symm (hminus _ _ _)
  · exact ⟨rfl, hdigits (List.cons.inj h).2⟩

theorem intText_inj {i j : ℤ} (h : Json.intText i = Json.intText j) : i = j := by
  have h' : Json.intText i ++ [] = Json.intText j ++ [] := by rw [h]
  exact (Json.intText_append_inj Json.stopsNumber_nil Json.stopsNumber_nil h').1

theorem zero_not_token {neg : Bool} {c : ℕ} {e : List Char} (hc : c % 10 ≠ 0) :
    "0e0".toList ≠ tokenText neg c e := by
  intro h
  have hzero : "0e0".toList = tokenText false 0 ['0'] := by decide
  rw [hzero] at h
  obtain ⟨-, rfl, -⟩ := tokenText_inj h
  exact hc rfl

theorem zero_finite : (Doc.str "0e0").finite?.isSome := by decide

/-- A value has one spelling without trailing zeros. -/
theorem spelling_inj {neg neg' : Bool} {c c' : ℕ} {e e' : ℤ} (hc : c % 10 ≠ 0) (hc' : c' % 10 ≠ 0)
    (h : Decimal.value ⟨neg, c, e⟩ = Decimal.value ⟨neg', c', e'⟩) :
    neg = neg' ∧ c = c' ∧ e = e' := by
  have hnormal : ∀ {neg : Bool} {c : ℕ} {e : ℤ}, c % 10 ≠ 0 → Decimal.Normal ⟨neg, c, e⟩ := by
    intro neg c e hc
    refine ⟨fun h0 => ?_, fun _ => hc⟩
    rw [show c = 0 from h0] at hc
    exact absurd rfl hc
  have hne : Decimal.value ⟨neg, c, e⟩ ≠ 0 := by
    rw [ne_eq, Decimal.value_eq_zero_iff]
    intro h0
    rw [show c = 0 from h0] at hc
    exact hc rfl
  have heq := Decimal.Normal.eq_of_value_eq (hnormal hc) (hnormal hc') h hne
  rw [Decimal.mk.injEq] at heq
  exact heq

/-- The magnitude of a number at a scale, without its trailing zeros. -/
theorem magnitudeAt_eq {d : Decimal} (h : d.coeff ≠ 0) (s : ℤ) :
    magnitudeAt d s = Decimal.value ⟨d.neg, d.trimmed.1, d.trimmed.2 + s⟩ := by
  rw [magnitudeAt, Decimal.value, Decimal.value, zpow_add₀ (by norm_num), mul_assoc _ (d.coeff : ℚ),
    ← (d.trimmed_spec h).1]
  ring

/-- Only zero has no magnitude. -/
theorem magnitudeAt_eq_zero_iff (d : Decimal) (s : ℤ) : magnitudeAt d s = 0 ↔ d.coeff = 0 := by
  have h10 : (10 : ℚ) ^ s ≠ 0 := by positivity
  rw [magnitudeAt, mul_eq_zero, Decimal.value_eq_zero_iff, or_iff_left h10]

/-- What `canonical_magnitude` returns. -/
inductive Canonical (v : Doc) (s : ℤ) : Doc → Prop where
  | raw (h : v.finite? = none) : Canonical v s v
  | zero {d : Decimal} (h : v.finite? = some d) (hd : d.coeff = 0) : Canonical v s (.str "0e0")
  | token {d : Decimal} (h : v.finite? = some d) (hd : d.coeff ≠ 0) :
      Canonical v s
        (.str (String.ofList (tokenText d.neg d.trimmed.1 (Json.intText (d.trimmed.2 + s)))))

/-- A value has a canonical magnitude if its exponent can be printed. -/
theorem canonicalMagnitude_ok_iff {v scale x : Doc} :
    canonicalMagnitude v scale = .ok x ↔ Canonical v (shiftOf scale) x ∧
    Printable v (shiftOf scale) := by
  rw [canonicalMagnitude, Printable]
  -- no finite number: the value stays as it is
  cases hv : v.finite? with
  | none =>
      simp only [Except.ok.injEq]
      constructor
      · rintro rfl
        exact ⟨.raw hv, fun d hd => by cases hd⟩
      · rintro ⟨h, -⟩
        cases h with
        | raw => rfl
        | zero h => simp [hv] at h
        | token h => simp [hv] at h
  | some d =>
      -- zero has a token of its own
      by_cases hd : d.coeff = 0
      · simp only [if_pos hd, Except.ok.injEq]
        constructor
        · rintro rfl
          refine ⟨.zero hv hd, fun d' hd' hne => ?_⟩
          rw [← Option.some.inj hd'] at hne
          exact absurd hd hne
        · rintro ⟨h, -⟩
          cases h with
          | raw h => simp [hv] at h
          | zero => rfl
          | token h hne =>
              rw [hv, Option.some.injEq] at h
              exact absurd (h ▸ hd) hne
      · -- any other number has a token, if its exponent has a text
        simp only [if_neg hd]
        rw [Except.bind_eq_ok_iff]
        constructor
        · rintro ⟨text, htext, hx⟩
          rw [formatInt] at htext
          split_ifs at htext with hlt
          rw [← Except.ok.inj htext] at hx
          rw [← Except.ok.inj hx]
          refine ⟨.token hv hd, fun d' hd' _ => ?_⟩
          rw [← Option.some.inj hd']
          exact hlt
        · rintro ⟨h, hlt⟩
          refine ⟨Json.intText (d.trimmed.2 + shiftOf scale), if_pos (hlt d rfl hd), ?_⟩
          cases h with
          | raw h => simp [hv] at h
          | zero h h0 =>
              rw [hv, Option.some.injEq] at h
              exact absurd (h ▸ h0) hd
          | token h =>
              rw [hv, Option.some.injEq] at h
              rw [h]
              rfl

/-- A value that is no decimal is its own token, which may be that of another value. -/
theorem sorted_eq_str_iff {d : Doc} {text : String} : d.sorted = .str text ↔ d = .str text := by
  cases d with
  | str s => rfl
  | _ => simp [Doc.sorted]

/-- A raw value is the canonical one of another if it spells it. -/
theorem raw_eq_iff {v w y : Doc} {t : ℤ} (hv : v.finite? = none) {d : Decimal}
    (hw : w.finite? = some d)
    (hy : Canonical w t y) : v.sorted = y.sorted ↔ Spells v w t := by
  cases hy with
  | raw h => simp [hw] at h
  | zero h h0 =>
      constructor
      · intro heq
        have := sorted_eq_str_iff.mp heq
        rw [this] at hv
        exact absurd zero_finite (by simp [hv])
      · rintro ⟨text, d', neg, c, e, -, -, hd', hc, -, hval⟩
        rw [hw, Option.some.injEq] at h hd'
        rw [← hd', h, (magnitudeAt_eq_zero_iff _ t).mpr h0, eq_comm, Decimal.value_eq_zero_iff]
          at hval
        rw [show c = 0 from hval] at hc
        exact absurd rfl hc
  | @token d' h hne =>
      rw [hw, Option.some.injEq] at h
      subst h
      constructor
      · intro heq
        have := sorted_eq_str_iff.mp heq
        exact ⟨_, d, d.neg, d.trimmed.1, d.trimmed.2 + t, this, hv, hw, (d.trimmed_spec hne).2, by
          simp,
          magnitudeAt_eq hne t⟩
      · rintro ⟨text, d', neg, c, e, rfl, -, hd', hc, htext, hval⟩
        rw [hw, Option.some.injEq] at hd'
        rw [← hd', magnitudeAt_eq hne] at hval
        obtain ⟨h1, h2, h3⟩ := spelling_inj (d.trimmed_spec hne).2 hc hval
        rw [h1, h2, h3, ← htext, String.ofList_toList]

/-- **Tokens are canonical**: they agree when the magnitudes do. -/
theorem token_eq_iff {v w x y : Doc} {s t : ℤ} {a b : Decimal} (hv : v.finite? = some a)
    (hw : w.finite? = some b)
    (hx : Canonical v s x) (hy : Canonical w t y) : x = y ↔ magnitudeAt a s = magnitudeAt b t := by
  cases hx with
  | raw h => simp [hv] at h
  | zero h h0 =>
      rw [hv, Option.some.injEq] at h
      subst h
      rw [(magnitudeAt_eq_zero_iff a s).mpr h0]
      cases hy with
      | raw h => simp [hw] at h
      | zero h h0 =>
          rw [hw, Option.some.injEq] at h
          rw [h, (magnitudeAt_eq_zero_iff _ t).mpr h0]
          simp
      | token h hne =>
          rw [hw, Option.some.injEq] at h
          subst h
          constructor
          · intro heq
            have htext := String.toList_inj.mpr (Doc.str.inj heq)
            exact absurd (htext.trans String.toList_ofList) (zero_not_token (b.trimmed_spec hne).2)
          · intro heq
            exact absurd ((magnitudeAt_eq_zero_iff b t).mp heq.symm) hne
  | token h hne =>
      rw [hv, Option.some.injEq] at h
      subst h
      cases hy with
      | raw h => simp [hw] at h
      | zero h h0 =>
          rw [hw, Option.some.injEq] at h
          subst h
          constructor
          · intro heq
            have htext := String.toList_inj.mpr (Doc.str.inj heq).symm
            exact absurd (htext.trans String.toList_ofList) (zero_not_token (a.trimmed_spec hne).2)
          · intro heq
            rw [(magnitudeAt_eq_zero_iff b t).mpr h0] at heq
            exact absurd ((magnitudeAt_eq_zero_iff a s).mp heq) hne
      | token h hne' =>
          rw [hw, Option.some.injEq] at h
          subst h
          rw [magnitudeAt_eq hne, magnitudeAt_eq hne', Doc.str.injEq]
          constructor
          · intro heq
            obtain ⟨h1, h2, h3⟩ := tokenText_inj (String.ofList_injective heq)
            rw [h1, h2, intText_inj h3]
          · intro heq
            obtain ⟨h1, h2, h3⟩ := spelling_inj (a.trimmed_spec hne).2 (b.trimmed_spec hne').2 heq
            rw [h1, h2, h3]

/-- Entries of two fingerprints agree for one figure, or for a text that spells the other value. -/
theorem canonical_eq_iff {v w x y : Doc} {s t : ℤ} (hx : Canonical v s x) (hy : Canonical w t y) :
    x.sorted = y.sorted ↔ SameFigure v s w t ∨ Spelled v s w t := by
  have hnone : ∀ {v w : Doc} {t : ℤ} {d : Decimal}, v.finite? = some d → ¬ Spells v w t := by
    rintro v w t d hv ⟨_, _, _, _, _, -, h, -⟩
    rw [hv] at h
    cases h
  have hother : ∀ {v w : Doc} {t : ℤ}, w.finite? = none → ¬ Spells v w t := by
    rintro v w t hw ⟨_, _, _, _, _, -, -, h, -⟩
    rw [hw] at h
    cases h
  have hsorted : ∀ {v x : Doc} {s : ℤ} {d : Decimal}, v.finite? = some d → Canonical v s x →
      x.sorted = x := by
    intro v x s d hv hx
    cases hx with
    | raw h => simp [hv] at h
    | zero => rfl
    | token => rfl
  -- a value is a figure or an opaque text; texts and figures agree where the text spells the figure
  rw [SameFigure, Spelled]
  cases hv : v.finite? with
  | none =>
      have hxv : x = v := by
        cases hx with
        | raw => rfl
        | zero h => simp [hv] at h
        | token h => simp [hv] at h
      cases hw : w.finite? with
      | none =>
          have hyw : y = w := by
            cases hy with
            | raw => rfl
            | zero h => simp [hw] at h
            | token h => simp [hw] at h
          rw [hxv, hyw]
          simp [hother hv, hother hw]
      | some b =>
          rw [hxv, raw_eq_iff hv hw hy]
          simp [hnone hw]
  | some a =>
      cases hw : w.finite? with
      | none =>
          have hyw : y = w := by
            cases hy with
            | raw => rfl
            | zero h => simp [hw] at h
            | token h => simp [hw] at h
          rw [hyw, eq_comm, raw_eq_iff hw hv hx]
          simp [hnone hv]
      | some b =>
          rw [hsorted hv hx, hsorted hw hy, token_eq_iff hv hw hx hy]
          simp [hnone hv, hnone hw]

/-! ## Fingerprints -/

section Fingerprint

variable {sha256Hex : String → String}

/-- The document that is hashed. -/
def contentDoc (payload value low high : Doc) : Doc :=
  .obj [("value", value), ("low", low), ("high", high), ("text", payload.field "text"),
    ("category", payload.field "category"), ("direction", payload.field "direction")]

/-- A payload has a fingerprint if its three magnitudes have canonical forms. -/
theorem valueFingerprint_ok_iff {p : Doc} {h : String} :
    valueFingerprint sha256Hex p = .ok h ↔ ∃ value low high,
      canonicalMagnitude (p.field "value") (p.field "scale") = .ok value
        ∧ canonicalMagnitude (p.field "low") (p.field "scale") = .ok low
        ∧ canonicalMagnitude (p.field "high") (p.field "scale") = .ok high
        ∧ h = hashJson sha256Hex (contentDoc p value low high) := by
  rw [valueFingerprint]
  simp only [Except.bind_eq_ok_iff, Except.pure_eq_ok, Except.ok.injEq, contentDoc]
  constructor
  · rintro ⟨value, hv, low, hl, high, hh, rfl⟩
    exact ⟨value, low, high, hv, hl, hh, rfl⟩
  · rintro ⟨value, low, high, hv, hl, hh, rfl⟩
    exact ⟨value, hv, low, hl, high, hh, rfl⟩

/-- Equal contents have equal canonical magnitudes and equal other fields. -/
theorem contentDoc_eq_iff {p q value low high value' low' high' : Doc} :
    (contentDoc p value low high).sorted = (contentDoc q value' low' high').sorted ↔
      (value.sorted = value'.sorted ∧ low.sorted = low'.sorted ∧ high.sorted = high'.sorted)
        ∧ ∀ key ∈ wordKeys, (p.field key).sorted = (q.field key).sorted := by
  constructor
  · intro h
    refine ⟨⟨Doc.field_congr h "value", Doc.field_congr h "low", Doc.field_congr h "high"⟩, ?_⟩
    simp only [wordKeys, List.forall_mem_cons, List.not_mem_nil, false_implies,
      implies_true, and_true]
    exact ⟨Doc.field_congr h "text", Doc.field_congr h "category", Doc.field_congr h "direction"⟩
  · rintro ⟨⟨hv, hl, hh⟩, hwords⟩
    simp only [wordKeys, List.forall_mem_cons, List.not_mem_nil, false_implies, implies_true,
      and_true] at hwords
    apply Doc.sorted_obj_congr
    simp [hv, hl, hh, hwords.1, hwords.2.1, hwords.2.2]

/-- The canonical form of decoded JSON is decoded JSON. -/
theorem Canonical.decoded {v x : Doc} {s : ℤ} (hv : v.Decoded) (h : Canonical v s x) :
    x.Decoded := by
  cases h with
  | raw => exact hv
  | zero => trivial
  | token => trivial

/-- Every figure of a payload can be written. -/
def AllPrintable (p : Doc) : Prop :=
  ∀ key ∈ figureKeys, Printable (p.field key) (shiftOf (p.field "scale"))

/-- A printable magnitude has a canonical form. -/
theorem exists_canonical {v scale : Doc} (h : Printable v (shiftOf scale)) :
    ∃ x, canonicalMagnitude v scale = .ok x := by
  cases hv : v.finite? with
  | none => exact ⟨v, canonicalMagnitude_ok_iff.mpr ⟨.raw hv, h⟩⟩
  | some d =>
      by_cases hd : d.coeff = 0
      · exact ⟨_, canonicalMagnitude_ok_iff.mpr ⟨.zero hv hd, h⟩⟩
      · exact ⟨_, canonicalMagnitude_ok_iff.mpr ⟨.token hv hd, h⟩⟩

/-- **A payload has a fingerprint** if and only if its magnitudes are printable. -/
theorem exists_fingerprint_iff {p : Doc} : (∃ h, valueFingerprint sha256Hex p = .ok h) ↔
    AllPrintable p := by
  rw [AllPrintable]
  simp only [figureKeys, List.forall_mem_cons, List.not_mem_nil, false_implies,
    implies_true, and_true]
  constructor
  · rintro ⟨h, hh⟩
    obtain ⟨value, low, high, hv, hl, hhigh, -⟩ := valueFingerprint_ok_iff.mp hh
    exact ⟨(canonicalMagnitude_ok_iff.mp hv).2, (canonicalMagnitude_ok_iff.mp hl).2,
      (canonicalMagnitude_ok_iff.mp hhigh).2⟩
  · rintro ⟨hv, hl, hh⟩
    obtain ⟨value, hv⟩ := exists_canonical hv
    obtain ⟨low, hl⟩ := exists_canonical hl
    obtain ⟨high, hh⟩ := exists_canonical hh
    exact ⟨_, valueFingerprint_ok_iff.mpr ⟨value, low, high, hv, hl, hh, rfl⟩⟩

/-- When two fingerprints are equal. -/
theorem fingerprint_eq_iff (hsha : Function.Injective sha256Hex) {p q : Doc} (hp : p.Decoded)
    (hq : q.Decoded)
    {a b : String} (ha : valueFingerprint sha256Hex p = .ok a)
    (hb : valueFingerprint sha256Hex q = .ok b) :
    a = b ↔ (∀ key ∈ figureKeys,
      SameFigure (p.field key) (shiftOf (p.field "scale")) (q.field key) (shiftOf (q.field "scale"))
        ∨
        Spelled (p.field key) (shiftOf (p.field "scale")) (q.field key) (shiftOf (q.field "scale")))
      ∧ ∀ key ∈ wordKeys, (p.field key).sorted = (q.field key).sorted := by
  obtain ⟨value, low, high, hv, hl, hh, rfl⟩ := valueFingerprint_ok_iff.mp ha
  obtain ⟨value', low', high', hv', hl', hh', rfl⟩ := valueFingerprint_ok_iff.mp hb
  obtain ⟨hv, -⟩ := canonicalMagnitude_ok_iff.mp hv
  obtain ⟨hl, -⟩ := canonicalMagnitude_ok_iff.mp hl
  obtain ⟨hh, -⟩ := canonicalMagnitude_ok_iff.mp hh
  obtain ⟨hv', -⟩ := canonicalMagnitude_ok_iff.mp hv'
  obtain ⟨hl', -⟩ := canonicalMagnitude_ok_iff.mp hl'
  obtain ⟨hh', -⟩ := canonicalMagnitude_ok_iff.mp hh'
  have hdecoded : ∀ {p value low high : Doc}, p.Decoded → value.Decoded →
      low.Decoded → high.Decoded →
      (contentDoc p value low high).Decoded := by
    intro p value low high hp h1 h2 h3
    exact ⟨h1, h2, h3, hp.field "text", hp.field "category", hp.field "direction", trivial⟩
  rw [hashJson, hashJson, hsha.eq_iff, canonicalJson_eq_canonicalJson
    (hdecoded hp (hv.decoded (hp.field _)) (hl.decoded (hp.field _)) (hh.decoded (hp.field _)))
    (hdecoded hq (hv'.decoded (hq.field _)) (hl'.decoded (hq.field _)) (hh'.decoded (hq.field _))),
    contentDoc_eq_iff, canonical_eq_iff hv hv', canonical_eq_iff hl hl', canonical_eq_iff hh hh']
  simp [figureKeys]

/-- One figure is not spelled by the other. -/
theorem not_spelled_of_sameFigure {v w : Doc} {s t : ℤ} (h : SameFigure v s w t) :
    ¬ Spelled v s w t := by
  rw [SameFigure] at h
  rintro (⟨_, d, _, _, _, -, hv, hw, -⟩ | ⟨_, d, _, _, _, -, hw, hv, -⟩) <;> simp [hv, hw] at h

/-- Both fingerprints exist, and they are equal exactly for one content. -/
def Tells (sha256Hex : String → String) (p q : Doc) : Prop :=
  ∃ a b, valueFingerprint sha256Hex p = .ok a ∧ valueFingerprint sha256Hex q = .ok b ∧
    (a = b ↔ SameContent p q)

/-- **Fingerprints tell payloads apart** where there are any, unless a token clashes with a raw
text. -/
theorem tells_iff (hsha : Function.Injective sha256Hex) {p q : Doc} (hp : p.Decoded)
    (hq : q.Decoded) :
    Tells sha256Hex p q ↔ AllPrintable p ∧ AllPrintable q ∧ ¬ Clash p q := by
  constructor
  · rintro ⟨a, b, ha, hb, hiff⟩
    refine ⟨exists_fingerprint_iff.mp ⟨a, ha⟩, exists_fingerprint_iff.mp ⟨b, hb⟩, ?_⟩
    rintro ⟨hfigures, hwords, key, hkey, hspelled⟩
    have hsame := hiff.mp ((fingerprint_eq_iff hsha hp hq ha hb).mpr ⟨hfigures, hwords⟩)
    exact not_spelled_of_sameFigure (hsame.1 key hkey) hspelled
  · rintro ⟨hpp, hqp, hclash⟩
    obtain ⟨a, ha⟩ := exists_fingerprint_iff.mpr hpp
    obtain ⟨b, hb⟩ := exists_fingerprint_iff.mpr hqp
    refine ⟨a, b, ha, hb, ?_⟩
    rw [fingerprint_eq_iff hsha hp hq ha hb]
    constructor
    · rintro ⟨hfigures, hwords⟩
      refine ⟨fun key hkey => ?_, hwords⟩
      rcases hfigures key hkey with h | h
      · exact h
      · exact absurd ⟨hfigures, hwords, key, hkey, h⟩ hclash
    · rintro ⟨hfigures, hwords⟩
      exact ⟨fun key hkey => .inl (hfigures key hkey), hwords⟩

/-- Both tokens exist, and they are equal exactly for one magnitude. -/
def TokensTell (v w scale scale' : Doc) (m m' : ℚ) : Prop :=
  ∃ x y, canonicalMagnitude v scale = .ok x ∧ canonicalMagnitude w scale' = .ok y ∧ (x = y ↔ m = m')

/-- Tokens tell numbers apart at their scales. -/
theorem tokensTell_iff {v w : Doc} (scale scale' : Doc) {a b : Decimal} (hv : v.finite? = some a)
    (hw : w.finite? = some b) :
    TokensTell v w scale scale' (magnitudeAt a (shiftOf scale)) (magnitudeAt b (shiftOf scale')) ↔
      Printable v (shiftOf scale) ∧ Printable w (shiftOf scale') := by
  constructor
  · rintro ⟨x, y, hx, hy, -⟩
    exact ⟨(canonicalMagnitude_ok_iff.mp hx).2, (canonicalMagnitude_ok_iff.mp hy).2⟩
  · rintro ⟨hv', hw'⟩
    obtain ⟨x, hx⟩ := exists_canonical hv'
    obtain ⟨y, hy⟩ := exists_canonical hw'
    exact ⟨x, y, hx, hy,
      token_eq_iff hv hw (canonicalMagnitude_ok_iff.mp hx).1 (canonicalMagnitude_ok_iff.mp hy).1⟩

end Fingerprint

/-- **Value fingerprints are canonical** for the payloads that can be written and do not clash.  The
tokens of finite decimal texts with integer scales are equal exactly for equal magnitudes. -/
theorem value_fingerprints_canonical_iff (sha256Hex : String → String)
    (hsha : Function.Injective sha256Hex) :
    (∀ (v w : String) (a b : Decimal) (scale scale' : Doc) (s t : ℤ), (Doc.str v).finite? = some a →
      (Doc.str w).finite? = some b → scale.int? = some s → scale'.int? = some t →
      (TokensTell (.str v) (.str w) scale scale' (a.value * 10 ^ s) (b.value * 10 ^ t) ↔
        Printable (.str v) s ∧ Printable (.str w) t))
    ∧ ∀ p q : Doc, p.Decoded → q.Decoded →
      (Tells sha256Hex p q ↔ AllPrintable p ∧ AllPrintable q ∧ ¬ Clash p q) := by
  refine ⟨?_, fun p q hp hq => tells_iff hsha hp hq⟩
  intro v w a b scale scale' s t hv hw hs ht
  have hshift : shiftOf scale = s := by rw [shiftOf, hs, Option.getD_some]
  have hshift' : shiftOf scale' = t := by rw [shiftOf, ht, Option.getD_some]
  have := tokensTell_iff scale scale' hv hw
  rw [hshift, hshift'] at this
  exact this

/-! ## Two spellings of one figure, and a clash -/

def figure (value scale : String) : Doc := .obj [("value", .str value), ("scale", .num scale)]

theorem injective_tagged : Function.Injective fun text : String => "sha256:" ++ text := by
  intro s t h
  have := String.toList_inj.mpr h
  rw [String.toList_append, String.toList_append] at this
  exact String.toList_inj.mp (List.append_cancel_left this)

/-- The figure has no text that `Decimal` rejects. -/
theorem not_clash_figure {v w scale scale' : String} {a b : Decimal}
    (hv : (Doc.str v).finite? = some a)
    (hw : (Doc.str w).finite? = some b) : ¬ Clash (figure v scale) (figure w scale') := by
  rintro ⟨-, -, key, hkey, hspelled⟩
  simp only [figureKeys, List.mem_cons, List.not_mem_nil, or_false] at hkey
  rcases hkey with rfl | rfl | rfl
  · rcases hspelled with ⟨text, d, neg, c, e, -, hnone, -⟩ | ⟨text, d, neg, c, e, -, hnone, -⟩
    · rw [show (figure v scale).field "value" = .str v from rfl, hv] at hnone
      cases hnone
    · rw [show (figure w scale').field "value" = .str w from rfl, hw] at hnone
      cases hnone
  all_goals
    rcases hspelled with ⟨text, d, neg, c, e, htext, -⟩ | ⟨text, d, neg, c, e, htext, -⟩
      <;> cases htext

theorem decoded_figure (value : String) {scale : String} (h : Doc.Numeral scale) :
    (figure value scale).Decoded :=
  ⟨trivial, h, trivial⟩

theorem allPrintable_figure {value scale : String} {d : Decimal}
    (hd : (Doc.str value).finite? = some d)
    (h : (d.trimmed.2 + shiftOf (.num scale)).natAbs < 10 ^ 4300) :
    AllPrintable (figure value scale) := by
  intro key hkey
  simp only [figureKeys, List.mem_cons, List.not_mem_nil, or_false] at hkey
  rcases hkey with rfl | rfl | rfl
  · intro d' hd' _
    rw [show (figure value scale).field "value" = .str value from rfl, hd, Option.some.injEq] at hd'
    rw [← hd']
    exact h
  all_goals
    intro d' hd' _
    cases hd'

/-- Twelve hundred million and one point two billion have one fingerprint. -/
theorem value_fingerprints_canonical_iff_billion :
    Tells (fun text => "sha256:" ++ text) (figure "1.2" "9") (figure "1200" "6")
      ∧ TokensTell (.str "1.2") (.str "1200") (.num "9") (.num "6")
        (Decimal.value ⟨false, 12, -1⟩ * 10 ^ (9 : ℤ)) (Decimal.value ⟨false, 1200, 0⟩
          * 10 ^ (6 : ℤ)) := by
  have hv : (Doc.str "1.2").finite? = some ⟨false, 12, -1⟩ := by decide
  have hw : (Doc.str "1200").finite? = some ⟨false, 1200, 0⟩ := by decide
  have hpv : ((⟨false, 12, -1⟩ : Decimal).trimmed.2 + 9).natAbs < 10 ^ 4300 := by decide +kernel
  have hpw : ((⟨false, 1200, 0⟩ : Decimal).trimmed.2 + 6).natAbs < 10 ^ 4300 := by decide +kernel
  have h := value_fingerprints_canonical_iff (fun text => "sha256:" ++ text) injective_tagged
  have hnine : Doc.Numeral "9" := ⟨by simp [Doc.numeralChars], '9', rfl, by simp [Doc.numeralHeads]⟩
  have hsix : Doc.Numeral "6" := ⟨by simp [Doc.numeralChars], '6', rfl, by simp [Doc.numeralHeads]⟩
  refine ⟨(h.2 _ _ (decoded_figure _ hnine) (decoded_figure _ hsix)).mpr
    ⟨allPrintable_figure hv hpv, allPrintable_figure hw hpw, not_clash_figure hv hw⟩, ?_⟩
  refine (h.1 "1.2" "1200" _ _ (.num "9") (.num "6") 9 6 hv hw (by decide)
    (by decide)).mpr ⟨?_, ?_⟩
  · intro d hd _
    rw [hv, Option.some.injEq] at hd
    rw [← hd]
    exact hpv
  · intro d hd _
    rw [hw, Option.some.injEq] at hd
    rw [← hd]
    exact hpw

/-- **A text and a magnitude with one fingerprint**: `Decimal` rejects the text for its exponent,
and it is the token of the magnitude. -/
theorem rejected_text_is_token :
    (∃ a, valueFingerprint (fun text => "sha256:" ++ text) (figure "1e1000000000000000000" "0")
      = .ok a
        ∧ valueFingerprint (fun text => "sha256:" ++ text) (figure "1" "1000000000000000000")
        = .ok a)
      ∧ ¬ SameContent (figure "1e1000000000000000000" "0") (figure "1" "1000000000000000000")
      ∧ ¬ Tells (fun text => "sha256:" ++ text) (figure "1e1000000000000000000" "0")
        (figure "1" "1000000000000000000") := by
  -- the exponent of the text is beyond the range of `Decimal`, but not beyond that of a scale
  have hv : (Doc.str "1e1000000000000000000").finite? = none := by decide
  have hw : (Doc.str "1").finite? = some ⟨false, 1, 0⟩ := by decide
  have hcontent :
      ¬ SameContent (figure "1e1000000000000000000" "0") (figure "1" "1000000000000000000") := by
    rintro ⟨h, -⟩
    have := h "value" (by decide)
    rw [SameFigure, show (figure "1e1000000000000000000" "0").field "value"
      = .str "1e1000000000000000000" from rfl,
      show (figure "1" "1000000000000000000").field "value" = .str "1" from rfl, hv, hw] at this
    exact this
  have hraw : canonicalMagnitude (.str "1e1000000000000000000") (.num "0")
      = .ok (.str "1e1000000000000000000") := by
    rw [canonicalMagnitude, hv]
  have htoken : canonicalMagnitude (.str "1") (.num "1000000000000000000")
      = .ok (.str "1e1000000000000000000") := by
    have hshift : shiftOf (.num "1000000000000000000") = 1000000000000000000 := by decide
    have hshort : (1000000000000000000 : ℤ).natAbs < 10 ^ 4300 := by decide +kernel
    have htext : String.ofList (tokenText false 1 (Json.intText 1000000000000000000))
        = "1e1000000000000000000" := by
      decide
    have htrim : (⟨false, 1, 0⟩ : Decimal).trimmed = (1, 0) := by decide
    rw [canonicalMagnitude, hw]
    simp only [hshift, htrim, zero_add, formatInt, if_pos hshort]
    show Except.ok (Doc.str (String.ofList (tokenText false 1 (Json.intText 1000000000000000000))))
      = _
    rw [htext]
  have hnull : ∀ scale : Doc, canonicalMagnitude .null scale = .ok .null := fun scale => rfl
  have hfp :
      ∀ {value scale : String} {x : Doc}, canonicalMagnitude (.str value) (.num scale) = .ok x →
      valueFingerprint (fun text => "sha256:" ++ text) (figure value scale)
        = .ok (hashJson (fun text => "sha256:" ++ text)
          (contentDoc (figure value scale) x .null .null)) := by
    intro value scale x hx
    exact valueFingerprint_ok_iff.mpr ⟨x, .null, .null, hx, hnull _, hnull _, rfl⟩
  -- the two contents have one fingerprint, and the contents differ
  have hp := hfp hraw
  have hq := hfp htoken
  refine ⟨⟨_, hp, hq⟩, hcontent, ?_⟩
  rintro ⟨a, b, ha, hb, hiff⟩
  rw [hp, Except.ok.injEq] at ha
  rw [hq, Except.ok.injEq] at hb
  exact hcontent (hiff.mp (ha.symm.trans hb))

end Fingerprint

end Extraction
