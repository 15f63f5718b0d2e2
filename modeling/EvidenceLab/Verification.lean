/-
# Verification of claims

The model of `verification.py`: the numeric check, the mock verifier, the integrity of citations and
the grade of a claim.  `abs` works in the ambient decimal context, so the check of a value compares
rounded magnitudes.

**`numeric_exact_iff`**: the check is exact for exactly the values that the ambient context tells
apart.
-/
import EvidenceLab.Claims
import EvidenceLab.ExceptRules
import EvidenceLab.PyText

namespace Retrieval

/-- What the code prints and rounds of the quotient of two counts, a floating-point number. -/
structure Quotients where
  /-- `f"{coverage:.2f}"`. -/
  text : ℕ → ℕ → String
  /-- The confidence of an edge that is not entailed. -/
  confidence : ℕ → ℕ → Decimal

/-- What verification can raise. -/
inductive VerifyError where
  | integrity (code message : String)
  | arithmetic (s : Decimal.Signal)
  deriving DecidableEq

/-- `CitationEdge`. -/
structure CitationEdge where
  status : CitationStatus
  numericChecks : Option NumericChecks
  rationale : String
  confidence : Decimal

/-! ## The checks -/

/-- `_tokens`. -/
def tokens (text : String) : List (List Char) :=
  (PyText.runs (fun c => ('a' ≤ c && c ≤ 'z') || ('0' ≤ c && c ≤ '9')) (PyText.lower text)).dedup

section Tokens

local instance tokens_lawful : LawfulBEq (List Char) := inferInstance

/-- The tokens of the claim that the evidence has, and all of them; `_coverage` is their quotient,
or 0 without tokens. -/
def coverage (claimText evidenceText : String) : ℕ × ℕ :=
  let claimTokens := tokens claimText
  ((claimTokens.filter (· ∈ tokens evidenceText)).length, claimTokens.length)

end Tokens

section Ambient

variable (ctx : Decimal.Context)

/-- `validate_numeric`.  The ambient context traps overflow, as the default one does. -/
def validateNumeric (claim evidence : NumericTuple) : Except Decimal.Signal NumericChecks := do
  let claimed ← ctx.abs claim.value
  let found ← ctx.abs evidence.value
  return ⟨decide (claimed.value = found.value), claim.unit == evidence.unit,
    claim.period == evidence.period,
    claim.sign == evidence.sign, claim.scale == evidence.scale⟩

/-- `all(numeric_checks.values())`. -/
def NumericChecks.all (c : NumericChecks) : Bool :=
  c.value && c.unit && c.period && c.sign && c.scale

/-- The names of the failed checks, sorted. -/
def NumericChecks.failed (c : NumericChecks) : List String :=
  [("period", c.period), ("scale", c.scale), ("sign", c.sign), ("unit", c.unit),
    ("value", c.value)].filterMap
    fun (name, ok) => if ok then none else some name

variable (quotients : Quotients)

/-- The edge of a claim whose numbers are no obstacle: identity or lexical coverage of the texts. -/
def textEdge (claimText evidenceText : String) (checks : Option NumericChecks) : CitationEdge :=
  let (covered, total) := coverage claimText evidenceText
  let status : CitationStatus :=
    if covered ≠ 0 ∧ PyText.joinWords claimText = PyText.joinWords evidenceText then .entailed
    else if total ≠ 0 ∧ total ≤ 2 * covered then .partial_ else .irrelevant
  ⟨status, checks,
    if status = .entailed then "whole-evidence text identity"
    else "lexical coverage " ++ quotients.text covered total ++ "; semantic entailment unverified",
    if status = .entailed then Decimal.ofNat 1 else quotients.confidence covered total⟩

/-- `MockCitationVerifier.verify`. -/
def verify (claimText : String) (evidence : ContextItem) (claimNumeric : Option NumericTuple) :
    Except Decimal.Signal CitationEdge :=
  match claimNumeric, evidence.numeric with
  | none, some _ =>
      if claimText.toList.any PyText.isDecimal then
        .ok ⟨.irrelevant, none, "numeric fact claim has no independently asserted numeric tuple",
          Decimal.ofNat 0⟩
      else .ok (textEdge quotients claimText evidence.text none)
  | none, none => .ok (textEdge quotients claimText evidence.text none)
  | some _, none =>
      .ok ⟨.irrelevant, none, "claim asserts numeric but evidence has no numeric tuple",
        Decimal.ofNat 0⟩
  | some claimed, some found => do
      let checks ← validateNumeric ctx claimed found
      if checks.all then return textEdge quotients claimText evidence.text (some checks)
      return ⟨.contradictory, some checks, "numeric mismatch: " ++ ", ".intercalate checks.failed,
        Decimal.ofNat 0⟩

/-! ## The grade -/

/-- `assert_citation_integrity`. -/
def assertCitationIntegrity (citation : ClaimCitation) (accepted : Dict String ContextItem) :
    Except VerifyError ContextItem :=
  match accepted.get? citation.itemId with
  | none => .error (.integrity "DANGLING_CITATION"
      ("citation item " ++ citation.itemId ++ " is not an accepted candidate"))
  | some item =>
      if citation.sourceSpanId ≠ item.sourceSpanId then
        .error (.integrity "CROSS_VERSION_CITATION"
          ("citation span " ++ citation.sourceSpanId ++ " does not belong to item "
          ++ citation.itemId))
      else .ok item

/-- `classify_claim`. -/
def classifyClaim (edges : List CitationStatus) : ClaimStatus :=
  if edges = [] then .unsupported
  else if .contradictory ∈ edges then .contradicted
  else if .entailed ∉ edges ∧ .partial_ ∉ edges then .unsupported
  else if ∀ status ∈ edges, status = .entailed then .supported
  else .partiallySupported

/-- `claim_confidence`: the least of the edges, the first of equals. -/
def claimConfidence : List CitationEdge → Option Decimal
  | [] => none
  | edge :: edges =>
      some (edges.foldl (fun least e => if e.confidence.value < least.value then e.confidence
        else least) edge.confidence)

/-- One citation of the loop. -/
def verifyCitation (accepted : Dict String ContextItem) (claim : GeneratedClaim)
    (citation : ClaimCitation) :
    Except VerifyError (ClaimCitation × CitationEdge) := do
  let item ← assertCitationIntegrity citation accepted
  let edge ← (verify ctx quotients claim.text item claim.numeric).mapError VerifyError.arithmetic
  return (⟨citation.itemId, citation.sourceSpanId, edge.status, edge.numericChecks,
    some edge.rationale,
    some "mock-entailment", some "mock-verifier-v1", some "v1", citation.quote⟩, edge)

/-- The status of a claim with edges. -/
def gradeOf (claim : GeneratedClaim) (statuses : List CitationStatus) : ClaimStatus :=
  let status := classifyClaim statuses
  if status = .supported ∧ claim.calculationLineage ≠ [] then .derived else status

/-- Citations alone make no claim derived. -/
theorem classifyClaim_ne_derived (edges : List CitationStatus) :
    classifyClaim edges ≠ .derived := by
  unfold classifyClaim
  split_ifs <;> simp

/-- A derived claim has a lineage. -/
theorem lineage_of_gradeOf {claim : GeneratedClaim} {statuses : List CitationStatus}
    (h : gradeOf claim statuses = .derived) : claim.calculationLineage ≠ [] := by
  unfold gradeOf at h
  simp only at h
  split_ifs at h with hlineage
  · exact hlineage.2
  · exact absurd h (classifyClaim_ne_derived statuses)

/-- One claim of the loop. -/
def verifyClaim (accepted : Dict String ContextItem) (claim : GeneratedClaim) :
    Except VerifyError GeneratedClaim := do
  let edges ← claim.citations.mapM (verifyCitation ctx quotients accepted claim)
  return {
    ord := claim.ord
    text := claim.text
    status := gradeOf claim (edges.map fun e => e.1.status)
    citations := edges.map Prod.fst
    confidence := claimConfidence (edges.map Prod.snd)
    calculationLineage := claim.calculationLineage
    numeric := claim.numeric
    lineage := lineage_of_gradeOf }

/-- `verify_claims` with the mock verifier. -/
def verifyClaims (claims : List GeneratedClaim) (context : List ContextItem) :
    Except VerifyError (List GeneratedClaim) :=
  claims.mapM (verifyClaim ctx quotients (acceptedItems context))

end Ambient

/-! ## When the value check is exact -/

section Exact

variable (ctx : Decimal.Context)

/-- The check of two values is exact: it returns, and it passes for equal magnitudes only. -/
def ExactCheck (claim evidence : NumericTuple) : Prop :=
  ∃ checks, validateNumeric ctx claim evidence = .ok checks
    ∧ (checks.value = true ↔ |claim.value.value| = |evidence.value.value|)

/-- The context tells two values apart: neither magnitude overflows, and different magnitudes are
still different when they are rounded to its precision. -/
structure TellsApart (a b : Decimal) : Prop where
  left : ctx.roundValue |a.value| ≠ none
  right : ctx.roundValue |b.value| ≠ none
  apart : |a.value| ≠ |b.value| → ctx.roundValue |a.value| ≠ ctx.roundValue |b.value|

/-- A value within the precision and the range of the context. -/
structure Fits (a : Decimal) : Prop where
  digits : Decimal.numDigits a.coeff ≤ ctx.prec
  exponent : ctx.etiny ≤ a.exp
  range : |a.value| < (10 : ℚ) ^ (ctx.emax + 1)

variable {ctx}

theorem Fits.roundValue_abs {a : Decimal} (h : Fits ctx a) :
    ctx.roundValue |a.value| = some |a.value| := by
  have hfit :=
    ctx.roundValue_of_fits (a := a.copyAbs) h.digits h.exponent
      (by rw [Decimal.value_copyAbs, abs_abs]; exact h.range)
  rwa [Decimal.value_copyAbs] at hfit

/-- Values that fit the context are told apart. -/
theorem Fits.tellsApart {a b : Decimal} (ha : Fits ctx a) (hb : Fits ctx b) :
    TellsApart ctx a b where
  left := by
    rw [ha.roundValue_abs]
    exact Option.some_ne_none _
  right := by
    rw [hb.roundValue_abs]
    exact Option.some_ne_none _
  apart := by
    intro hne
    rw [ha.roundValue_abs, hb.roundValue_abs]
    exact fun h => hne (Option.some.inj h)

/-- The checks are computed from the two rounded magnitudes. -/
theorem validateNumeric_eq_ok {claim evidence : NumericTuple} {checks : NumericChecks} :
    validateNumeric ctx claim evidence = .ok checks ↔ ∃ x y, ctx.abs claim.value = .ok x
      ∧ ctx.abs evidence.value = .ok y
      ∧ checks = ⟨decide (x.value = y.value), claim.unit == evidence.unit,
        claim.period == evidence.period,
        claim.sign == evidence.sign, claim.scale == evidence.scale⟩ := by
  simp only [validateNumeric, Except.bind_eq_ok_iff, Except.pure_eq_ok, Except.ok.injEq]
  constructor
  · rintro ⟨x, hx, y, hy, h⟩
    exact ⟨x, y, hx, hy, h.symm⟩
  · rintro ⟨x, y, hx, hy, h⟩
    exact ⟨x, hx, y, hy, h.symm⟩

/-- **The check is exact for the values that the context tells apart.** -/
theorem exactCheck_iff {claim evidence : NumericTuple} :
    ExactCheck ctx claim evidence ↔ TellsApart ctx claim.value evidence.value := by
  constructor
  · rintro ⟨checks, hchecks, hiff⟩
    obtain ⟨x, y, hx, hy, rfl⟩ := validateNumeric_eq_ok.mp hchecks
    have hxv := ctx.abs_value claim.value
    have hyv := ctx.abs_value evidence.value
    rw [hx] at hxv
    rw [hy] at hyv
    refine ⟨by rw [← hxv]; exact Option.some_ne_none _, by
      rw [← hyv]; exact Option.some_ne_none _, ?_⟩
    intro hne heq
    rw [← hxv, ← hyv] at heq
    have hvalue : x.value = y.value := Option.some.inj heq
    exact hne (hiff.mp (decide_eq_true hvalue))
  · intro h
    obtain ⟨v, hv⟩ := Option.ne_none_iff_exists'.mp h.left
    obtain ⟨w, hw⟩ := Option.ne_none_iff_exists'.mp h.right
    obtain ⟨x, hx, hxv⟩ := ctx.abs_eq_ok_of hv
    obtain ⟨y, hy, hyv⟩ := ctx.abs_eq_ok_of hw
    refine ⟨_, validateNumeric_eq_ok.mpr ⟨x, y, hx, hy, rfl⟩, ?_⟩
    rw [decide_eq_true_eq, hxv, hyv]
    constructor
    · intro hvw
      by_contra hne
      exact h.apart hne (by rw [hv, hw, hvw])
    · intro heq
      rw [heq, hw] at hv
      exact (Option.some.inj hv).symm

end Exact

/-! ## What a supported claim has in its evidence -/

/-- The numbers of a claim and of an item that it cites. -/
def CitedPair (claims : List GeneratedClaim) (context : List ContextItem) (n ev : NumericTuple) :
    Prop :=
  ∃ claim ∈ claims, claim.numeric = some n ∧ ∃ citation ∈ claim.citations, ∃ item,
    (acceptedItems context).get? citation.itemId = some item ∧ item.numeric = some ev

/-- Some cited item has the claimed magnitude, with the unit, the period and the scale of the claim.
-/
def FoundIn (context : List ContextItem) (claim : GeneratedClaim) (n : NumericTuple) : Prop :=
  ∃ citation ∈ claim.citations, ∃ item ∈ context, item.itemId = citation.itemId ∧ ∃ ev,
    item.numeric = some ev
    ∧ |n.value.value| = |ev.value.value| ∧ n.unit = ev.unit ∧ n.period = ev.period
      ∧ n.scale = ev.scale

/-- Numeric verification is exact: on the pairs that are compared, and in what it supports. -/
def NumericExact (ctx : Decimal.Context) (quotients : Quotients) (claims : List GeneratedClaim)
    (context : List ContextItem) : Prop :=
  (∀ n ev, CitedPair claims context n ev → ExactCheck ctx n ev)
    ∧ ∀ verified, verifyClaims ctx quotients claims context = .ok verified →
      List.Forall₂ (fun claim v => v.status = .supported ∨ v.status = .derived →
        ∀ n, claim.numeric = some n → FoundIn context claim n) claims verified

section Grade

variable {ctx : Decimal.Context} {quotients : Quotients}

/-- A claim that is graded supported has citations that entail it. -/
theorem supported_of_gradeOf {claim : GeneratedClaim} {statuses : List CitationStatus}
    (h : gradeOf claim statuses = .supported ∨ gradeOf claim statuses = .derived) :
    classifyClaim statuses = .supported := by
  unfold gradeOf at h
  simp only at h
  split_ifs at h with hderived
  · exact hderived.1
  · exact h.resolve_right (classifyClaim_ne_derived statuses)

/-- A supported claim is entailed by all of its citations. -/
theorem entailed_of_classifyClaim {edges : List CitationStatus}
    (h : classifyClaim edges = .supported) :
    edges ≠ [] ∧ ∀ status ∈ edges, status = .entailed := by
  unfold classifyClaim at h
  split_ifs at h with hnil _ _ hall
  exact ⟨hnil, hall⟩

/-- The edge of a claim with numbers is entailed only when all checks pass. -/
theorem checks_of_entailed {text : String} {item : ContextItem} {n : NumericTuple}
    {edge : CitationEdge}
    (h : verify ctx quotients text item (some n) = .ok edge) (hstatus : edge.status = .entailed) :
    ∃ ev checks, item.numeric = some ev ∧ validateNumeric ctx n ev = .ok checks ∧
    checks.all = true := by
  cases hev : item.numeric with
  | none =>
      simp only [verify, hev] at h
      cases h
      cases hstatus
  | some ev =>
      simp only [verify, hev, Except.bind_eq_ok_iff] at h
      obtain ⟨checks, hchecks, h⟩ := h
      split_ifs at h with hall
      · exact ⟨ev, checks, rfl, hchecks, hall⟩
      · cases h
        cases hstatus

/-- A citation is verified against the item it names. -/
theorem verifyCitation_eq_ok {accepted : Dict String ContextItem} {claim : GeneratedClaim}
    {citation : ClaimCitation}
    {r : ClaimCitation × CitationEdge}
    (h : verifyCitation ctx quotients accepted claim citation = .ok r) :
    r.1.status = r.2.status ∧ ∃ item, accepted.get? citation.itemId = some item
      ∧ verify ctx quotients claim.text item claim.numeric = .ok r.2 := by
  simp only [verifyCitation, Except.bind_eq_ok_iff, Except.pure_eq_ok, Except.ok.injEq] at h
  obtain ⟨item, hitem, edge, hedge, rfl⟩ := h
  refine ⟨rfl, item, ?_, ?_⟩
  · unfold assertCitationIntegrity at hitem
    split at hitem
    · cases hitem
    · split_ifs at hitem
      cases hitem
      assumption
  · cases hverify : verify ctx quotients claim.text item claim.numeric with
    | error s =>
        rw [hverify] at hedge
        cases hedge
    | ok edge' =>
        rw [hverify] at hedge
        cases hedge
        rfl

/-- **A supported numeric claim is in its evidence**, when the pairs it compares are told apart. -/
theorem foundIn_of_supported {claims : List GeneratedClaim} {context : List ContextItem}
    {claim v : GeneratedClaim}
    (hexact : ∀ n ev, CitedPair claims context n ev → ExactCheck ctx n ev) (hclaim : claim ∈ claims)
    (h : verifyClaim ctx quotients (acceptedItems context) claim = .ok v)
    (hstatus : v.status = .supported ∨ v.status = .derived) {n : NumericTuple}
    (hn : claim.numeric = some n) :
    FoundIn context claim n := by
  simp only [verifyClaim, Except.bind_eq_ok_iff, Except.pure_eq_ok, Except.ok.injEq] at h
  obtain ⟨edges, hedges, rfl⟩ := h
  obtain ⟨hne, hall⟩ := entailed_of_classifyClaim (supported_of_gradeOf hstatus)
  obtain ⟨edge, hedge⟩ := List.exists_mem_of_ne_nil edges (fun h => hne (by rw [h]; rfl))
  have hentailed : edge.1.status = .entailed := hall _ (List.mem_map_of_mem hedge)
  obtain ⟨citation, hcitation, hverify⟩ := Except.exists_of_mem_mapM hedges hedge
  obtain ⟨hsame, item, hitem, hedge_ok⟩ := verifyCitation_eq_ok hverify
  rw [hn] at hedge_ok
  obtain ⟨ev, checks, hev, hchecks, hpass⟩ := checks_of_entailed hedge_ok (hsame ▸ hentailed)
  obtain ⟨checks', hchecks', hvalue⟩ :=
    hexact n ev ⟨claim, hclaim, hn, citation, hcitation, item, hitem, hev⟩
  cases hchecks.symm.trans hchecks'
  obtain ⟨x, y, -, -, rfl⟩ := validateNumeric_eq_ok.mp hchecks
  simp only [NumericChecks.all, Bool.and_eq_true, beq_iff_eq] at hpass hvalue
  obtain ⟨⟨⟨⟨hv, hunit⟩, hperiod⟩, -⟩, hscale⟩ := hpass
  obtain ⟨hmem, hid⟩ := mem_of_acceptedItems hitem
  exact ⟨citation, hcitation, item, hmem, hid, ev, hev, hvalue.mp hv, hunit, hperiod, hscale⟩

end Grade

/-- **Numeric verification is exact** for the values that the ambient context tells apart, and for
no others. -/
theorem numeric_exact_iff (ctx : Decimal.Context) (quotients : Quotients)
    (claims : List GeneratedClaim)
    (context : List ContextItem) :
    (∀ n ev, ExactCheck ctx n ev ↔ TellsApart ctx n.value ev.value)
    ∧ (NumericExact ctx quotients claims context
        ↔ ∀ n ev, CitedPair claims context n ev → TellsApart ctx n.value ev.value) := by
  refine ⟨fun n ev => exactCheck_iff, ?_, ?_⟩
  · intro h n ev hpair
    exact exactCheck_iff.mp (h.1 n ev hpair)
  · intro h
    have hexact : ∀ n ev, CitedPair claims context n ev → ExactCheck ctx n ev :=
      fun n ev hpair => exactCheck_iff.mpr (h n ev hpair)
    refine ⟨hexact, fun verified hverified => ?_⟩
    have hall := Except.mapM_eq_ok_iff.mp hverified
    have hmem : List.Forall₂ (fun claim v => claim ∈ claims
        ∧ verifyClaim ctx quotients (acceptedItems context) claim = .ok v) claims verified :=
      (List.forall₂_and_left _ _).mpr ⟨fun claim hclaim => hclaim, hall⟩
    exact hmem.imp fun claim v hclaim hstatus n hn =>
      foundIn_of_supported hexact hclaim.1 hclaim.2 hstatus hn

theorem defaultPrec_pos : 0 < 28 := by decide

/-- The default context of `decimal`. -/
def defaultContext : Decimal.Context := ⟨28, .halfEven, -999999, 999999, defaultPrec_pos⟩

/-- A claim of a little more than one, with twenty-eight places. -/
def longClaim : NumericTuple := ⟨⟨false, 10 ^ 28 + 1, -28⟩, "USD", "FY2024", 6, by decide⟩

def oneFact : NumericTuple := ⟨⟨false, 1, 0⟩, "USD", "FY2024", 6, by decide⟩

def oneItem : ContextItem :=
  ⟨"f1", "fact", "Revenue was one million.", "s1", "d1", none, some oneFact⟩

def longCitation : ClaimCitation :=
  ⟨"f1", "s1", .irrelevant, none, none, none, none, none, some "one million"⟩

def longGenerated : GeneratedClaim :=
  ⟨0, "Revenue was one million.", .unsupported, [longCitation], none, [], some longClaim, by simp⟩

/-- Quotients that are not printed in the run below. -/
def noQuotients : Quotients := ⟨fun _ _ => "", fun _ _ => Decimal.ofNat 0⟩

theorem longClaim_supported_by_one :
    (verifyClaims defaultContext noQuotients [longGenerated] [oneItem]).map
    (List.map GeneratedClaim.status)
        = .ok [.supported]
      ∧ ¬ NumericExact defaultContext noQuotients [longGenerated] [oneItem] := by
  constructor
  · decide +kernel
  · intro h
    have hchecks :
        validateNumeric defaultContext longClaim oneFact = .ok ⟨true, true, true, true, true⟩ := by
      decide +kernel
    obtain ⟨checks, hchecks', hiff⟩ := h.1 longClaim oneFact
      ⟨longGenerated, by simp, rfl, longCitation, List.mem_singleton.mpr rfl, oneItem, rfl, rfl⟩
    cases hchecks.symm.trans hchecks'
    have hequal : |longClaim.value.value| = |oneFact.value.value| := hiff.mp rfl
    rw [Decimal.abs_value_eq_coeff, Decimal.abs_value_eq_coeff] at hequal
    norm_num [longClaim, oneFact] at hequal

end Retrieval
