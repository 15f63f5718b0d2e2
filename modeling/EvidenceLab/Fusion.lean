/-
# Fusion of the retrieval lanes

The model of `fusion.py`: the hits of all lanes grouped by item, the items with one provenance
collapsed to a survivor, reciprocal rank fusion of the survivors, the reranker hook and the trace of
decisions.

Scores are decimals in the context of the caller.  In the default one a sum is exact while it has at
most 28 digits, twelve of them after the point (`add_exact`); it never overflows, since a sum of
10²⁶ swallows every further term (`add_bounded`).
-/
import EvidenceLab.DecimalText
import EvidenceLab.Grouping
import EvidenceLab.HalfEven
import EvidenceLab.StableSort
import EvidenceLab.Verification

namespace Retrieval

open StableSort (sortBy)

/-! ## Data -/

/-- One hit of a lane, with its provenance. -/
structure LaneCandidate where
  itemId : String
  lane : String
  laneRank : ℕ
  rawScore : String
  kind : String
  sourceSpanId : String
  documentVersionId : String
  documentId : String
  publishedAt : String
  financialFactId : Option String
  tableId : Option String
  tableRowIndex : Option ℤ

/-- The hits under the name of their lane. -/
abbrev LaneResults := Dict String (List LaneCandidate)

/-- An item with its appearances. -/
abbrev Entry := String × List LaneCandidate

/-- `LANE_ORDER`. -/
def laneOrder : List String := ["dense", "lexical", "facts", "tables"]

/-- `RRF_K`. -/
def rrfK : ℕ := 60

/-- `RERANK_TOP_N`. -/
def rerankTopN : ℕ := 100

/-- `_RRF_QUANT`. -/
def rrfQuant : Decimal := ⟨false, 1, -12⟩

structure Contribution where
  lane : String
  laneRank : ℕ
  rawScore : String
  rrfContribution : String
  variantIndex : ℕ

structure FusedCandidate where
  itemId : String
  kind : String
  contributions : List Contribution
  fusedScore : String
  fusedRank : ℕ
  sourceSpanId : String
  documentVersionId : String
  documentId : String
  publishedAt : String
  financialFactId : Option String
  tableId : Option String
  tableRowIndex : Option ℤ

inductive DecisionDetail where
  | dedupe (provenance : List String) (survivor : String) (merged : List String)
  | fusion (k fusedCount : ℕ)
  | rerank (topN : ℕ) (reranker : String)

structure RetrievalDecision where
  stage : String
  code : String
  itemIds : List String
  detail : DecisionDetail
  occurredAt : Option String

structure FusionResult where
  candidates : List FusedCandidate
  decisions : List RetrievalDecision

structure Reranker where
  name : String
  rerank : List FusedCandidate → ℕ → List FusedCandidate

/-- `NoopReranker`. -/
def noopReranker : Reranker := ⟨"noop", fun candidates _ => candidates⟩

inductive FusionError where
  | signal (s : Decimal.Signal)
  /-- The first of no appearances. -/
  | indexError
  | valueError (text : String)
  deriving DecidableEq

/-! ## Grouping and dedupe -/

/-- The lanes in the order of fusion: the known ones, then the others by name. -/
def fusedLanes (results : LaneResults) : List String :=
  laneOrder.filter (· ∈ results.keys) ++ sortBy id (results.keys.filter (· ∉ laneOrder))

/-- Every hit, lane by lane. -/
def hits (results : LaneResults) : List LaneCandidate :=
  ((fusedLanes results).map fun lane => (results.get? lane).getD []).flatten

/-- `_group_by_item`. -/
def groupByItem (results : LaneResults) : Dict String (List LaneCandidate) :=
  Dict.groupBy LaneCandidate.itemId (hits results)

/-- `_provenance_key`. -/
def provenanceKey (c : LaneCandidate) : List String :=
  match c.financialFactId with
  | some fact => ["fact", fact]
  | none =>
      match c.tableId with
      | some table => ["table", table, (c.tableRowIndex.map toString).getD "None"]
      | none => ["span", c.sourceSpanId]

/-- The provenance of an item, that of its first appearance. -/
def provenanceOf (e : Entry) : List String :=
  match e.2 with
  | [] => []
  | c :: _ => provenanceKey c

/-- `_best_rank`. -/
def bestRank (appearances : List LaneCandidate) : ℕ :=
  ((appearances.map LaneCandidate.laneRank).min?).getD 0

/-- The key of the survivor: the best rank, then the id. -/
def survivorKey (e : Entry) : ℕ ×ₗ String := toLex (bestRank e.2, e.1)

/-- The items of each provenance, by provenance. -/
def provenanceClasses (byItem : List Entry) : List (List String × List Entry) :=
  let groups := Dict.groupBy provenanceOf byItem
  (sortBy id groups.keys).map fun key => (key, (groups.get? key).getD [])

/-- The decision of a class with several items. -/
def dedupeDecision (cls : List String × List Entry) : Option RetrievalDecision :=
  match cls.2.argmin survivorKey with
  | none => none
  | some winner =>
      if 1 < cls.2.length then
        some ⟨"dedupe", "provenance_merge", sortBy id (cls.2.map Prod.fst),
          .dedupe cls.1 winner.1 (sortBy id ((cls.2.map Prod.fst).filter (· ≠ winner.1))), none⟩
      else none

/-- `_dedupe`: the survivors and the decisions, by provenance. -/
def dedupe (byItem : List Entry) : List Entry × List RetrievalDecision :=
  ((provenanceClasses byItem).filterMap fun cls => cls.2.argmin survivorKey,
    (provenanceClasses byItem).filterMap dedupeDecision)

/-! ## Reciprocal rank fusion -/

section Terms

variable (ctx : Decimal.Context)

/-- `_rrf_term`, in the context of the caller. -/
def rrfTerm (laneRank : ℕ) : Except Decimal.Signal Decimal := do
  let quotient ← ctx.divide (Decimal.ofNat 1) (Decimal.ofNat (rrfK + laneRank))
  ctx.quantize quotient rrfQuant

/-- The place of a lane in the order; unknown lanes come after the others. -/
def lanePriority (lane : String) : ℕ := laneOrder.idxOf lane

/-- The appearances by lane and rank. -/
def orderedAppearances (appearances : List LaneCandidate) : List LaneCandidate :=
  sortBy (fun c => toLex (lanePriority c.lane, c.laneRank)) appearances

/-- One turn of the loop over the appearances. -/
def contribute (acc : Decimal × List Contribution) (c : LaneCandidate) :
    Except FusionError (Decimal × List Contribution) := do
  let term ← (rrfTerm ctx c.laneRank).mapError FusionError.signal
  let total ← (ctx.add acc.1 term).mapError FusionError.signal
  return (total, acc.2 ++ [⟨c.lane, c.laneRank, c.rawScore, String.ofList term.fixedText, 0⟩])

/-- The score and the candidate of a survivor, without a rank. -/
def fuseSurvivor (itemId : String) (ordered : List LaneCandidate) :
    Except FusionError (Decimal × FusedCandidate) := do
  let (total, contributions) ← ordered.foldlM (contribute ctx) (Decimal.ofNat 0, [])
  match ordered with
  | [] => throw .indexError
  | first :: _ =>
      return (total,
        ⟨itemId, first.kind, contributions, String.ofList total.fixedText, 0, first.sourceSpanId,
        first.documentVersionId, first.documentId, first.publishedAt, first.financialFactId,
        first.tableId,
        first.tableRowIndex⟩)

/-- The order of the scored survivors: the score from high to low, then the id.  A score has the
digits of the context, so that its negation is exact. -/
def scoreKey (s : Decimal × FusedCandidate) : ℚ ×ₗ String := toLex (-s.1.value, s.2.itemId)

/-- `_with_rank` along a list. -/
def rankAll (scored : List (Decimal × FusedCandidate)) : List FusedCandidate :=
  (scored.zipIdx 1).map fun s => { s.1.2 with fusedRank := s.2 }

/-- `_fuse_survivors`. -/
def fuseSurvivors (survivors : List Entry) : Except FusionError (List FusedCandidate) := do
  let scored ← survivors.mapM fun e => fuseSurvivor ctx e.1 (orderedAppearances e.2)
  return rankAll (sortBy scoreKey scored)

/-- `fuse`; `now` is the stamp that the decisions get. -/
def fuse (results : LaneResults) (fusedTopK : ℤ) (reranker : Reranker) (now : Option String) :
    Except FusionError FusionResult := do
  if fusedTopK < 0 then throw (.valueError "fused_top_k must be non-negative")
  let (survivors, dedupeDecisions) := dedupe (groupByItem results)
  let fused ← fuseSurvivors ctx survivors
  let hookInput := fused.take rerankTopN
  let decisions := dedupeDecisions
    ++ [⟨"fusion", "rrf_k60", fused.map FusedCandidate.itemId, .fusion rrfK fused.length, none⟩,
      ⟨"rerank", reranker.name, hookInput.map FusedCandidate.itemId,
      .rerank rerankTopN reranker.name, none⟩]
  let final := (reranker.rerank hookInput rerankTopN ++ fused.drop rerankTopN).take fusedTopK.toNat
  return ⟨final, decisions.map fun d => { d with occurredAt := now }⟩

end Terms

/-! ## Terms and sums -/

open Decimal (NearestEven)

theorem rounding_default : defaultContext.rounding = .halfEven := rfl

theorem lt_range_default {b : ℚ} (h : b < (10 : ℚ) ^ (27 : ℤ)) :
    b < (10 : ℚ) ^ (defaultContext.emax + 1) := by
  refine h.trans_le (zpow_le_zpow_right₀ (by norm_num) ?_)
  show (27 : ℤ) ≤ 999999 + 1
  norm_num

/-- The last place of a number below a power of ten. -/
theorem lastPlace_le {v : ℚ} (hv : 0 < v) {n : ℤ} (hvn : v < (10 : ℚ) ^ (n + 1))
    (hn : -999999 ≤ n) :
    defaultContext.lastPlace v ≤ n - 27 := by
  have hlog : Int.log 10 v < n + 1 := by
    rw [← Int.lt_zpow_iff_log_lt (by norm_num) hv]
    exact_mod_cast hvn
  rw [Decimal.Context.lastPlace, abs_of_pos hv]
  simp only [Decimal.Context.etiny, defaultContext]
  omega

theorem pow_multiple {b e : ℤ} (h : e ≤ b) : ∃ m : ℤ, (10 : ℚ) ^ b = m * (10 : ℚ) ^ e := by
  refine ⟨10 ^ (b - e).toNat, ?_⟩
  push_cast
  rw [← zpow_natCast, Int.toNat_of_nonneg (by omega), ← zpow_add₀ (by norm_num)]
  congr 1
  omega

/-- The quotient of a term: between zero and a fiftieth. -/
theorem quotient_spec (laneRank : ℕ) :
    ∃ q, defaultContext.divide (Decimal.ofNat 1) (Decimal.ofNat (rrfK + laneRank)) = .ok q
      ∧ 0 ≤ q.value ∧ q.value ≤ 1 / 50 := by
  have hn : (50 : ℚ) ≤ ((rrfK + laneRank : ℕ) : ℚ) := by
    have : 50 ≤ rrfK + laneRank := by
      unfold rrfK
      omega
    exact_mod_cast this
  have hpos : (0 : ℚ) < 1 / ((rrfK + laneRank : ℕ) : ℚ) := by positivity
  have hle : 1 / ((rrfK + laneRank : ℕ) : ℚ) ≤ 1 / 50 := one_div_le_one_div_of_le (by norm_num) hn
  have hplace := lastPlace_le (n := -2) hpos (hle.trans_lt (by norm_num)) (by norm_num)
  obtain ⟨m, hm⟩ := pow_multiple (b := -2) (hplace.trans (by norm_num))
  have hfiftieth : (1 / 50 : ℚ) = ((2 * m : ℤ) : ℚ)
      * (10 : ℚ) ^ defaultContext.lastPlace (1 / ((rrfK + laneRank : ℕ) : ℚ)) := by
    rw [Int.cast_mul, mul_assoc, ← hm]
    norm_num
  obtain ⟨w, hw, -, hnonneg, hwle⟩ :=
    Decimal.roundValue_le rounding_default hpos hle hfiftieth (lt_range_default (by norm_num))
  have hvalue := defaultContext.divide_value (Decimal.ofNat 1) (Decimal.ofNat (rrfK + laneRank))
  rw [Decimal.value_ofNat, Decimal.value_ofNat, Nat.cast_one, if_neg (by positivity), hw] at hvalue
  cases hq : defaultContext.divide (Decimal.ofNat 1) (Decimal.ofNat (rrfK + laneRank)) with
  | error e =>
      rw [hq] at hvalue
      cases hvalue
  | ok q =>
      rw [hq] at hvalue
      have hqw : q.value = w := Option.some.inj hvalue
      exact ⟨q, rfl, hqw ▸ hnonneg, hqw ▸ hwle⟩

/-- **A term** is a number of twelve places between zero and a fiftieth. -/
theorem rrfTerm_spec (laneRank : ℕ) :
    ∃ t, rrfTerm defaultContext laneRank = .ok t ∧ t.exp = -12 ∧ 0 ≤ t.value ∧
    t.value ≤ 1 / 50 := by
  obtain ⟨q, hq, hnonneg, hle⟩ := quotient_spec laneRank
  have hbound : (1 / 50 : ℚ) = ((2 * 10 ^ 10 : ℕ) : ℚ) * (10 : ℚ) ^ rrfQuant.exp := by
    norm_num [rrfQuant]
  obtain ⟨t, ht, hexp, htnonneg, htle⟩ :=
    Decimal.quantize_le (q := rrfQuant) rounding_default hnonneg
    (hbound ▸ hle) (by decide)
    (show (-999999 - 28 + 1 : ℤ) ≤ -12 by norm_num) (show (28 - 1 + -12 : ℤ) ≤ 999999 by
      norm_num) (by decide)
  refine ⟨t, ?_, hexp, htnonneg, hbound ▸ htle⟩
  rw [rrfTerm, hq]
  exact ht

/-- The term of a rank in the default context. -/
def termOf (laneRank : ℕ) : Decimal :=
  (rrfTerm defaultContext laneRank).toOption.getD (Decimal.ofNat 0)

/-- The term of a rank fits twelve places. -/
theorem rrfTerm_eq (laneRank : ℕ) : rrfTerm defaultContext laneRank = .ok (termOf laneRank) := by
  obtain ⟨t, ht, -⟩ := rrfTerm_spec laneRank
  rw [termOf, ht]
  rfl

/-- A term is at most a fiftieth. -/
theorem termOf_spec (laneRank : ℕ) :
    (termOf laneRank).exp = -12 ∧ 0 ≤ (termOf laneRank).value ∧
    (termOf laneRank).value ≤ 1 / 50 := by
  obtain ⟨t, ht, hspec⟩ := rrfTerm_spec laneRank
  rw [rrfTerm_eq] at ht
  cases ht
  exact hspec

/-- A sum with a term, in the context. -/
theorem exists_add_of_roundValue {a b : Decimal} {w : ℚ}
    (h : defaultContext.roundValue (a.value + b.value) = some w) :
    ∃ r, defaultContext.add a b = .ok r ∧ r.value = w := by
  have hvalue := defaultContext.add_value a b
  rw [h] at hvalue
  cases hr : defaultContext.add a b with
  | error e =>
      rw [hr] at hvalue
      cases hvalue
  | ok r =>
      rw [hr] at hvalue
      exact ⟨r, rfl, Option.some.inj hvalue⟩

/-- **A sum does not grow beyond 10²⁶**: there the last place is a tenth, and a term is less than
half of it. -/
theorem add_bounded {a t : Decimal} (ha : 0 ≤ a.value) (hale : a.value ≤ 10 ^ 26) (ht : 0 ≤ t.value)
    (htle : t.value ≤ 1 / 50) :
    ∃ r, defaultContext.add a t = .ok r ∧ 0 ≤ r.value ∧ r.value ≤ 10 ^ 26 := by
  have hpow : (10 : ℚ) ^ 26 = (10 : ℚ) ^ (26 : ℤ) := by norm_num
  rcases (add_nonneg ha ht).eq_or_lt with hzero | hpos
  · obtain ⟨r, hr, hval⟩ := exists_add_of_roundValue (a := a) (b := t) (w := 0)
      (by rw [← hzero, Decimal.Context.roundValue, if_pos rfl])
    exact ⟨r, hr, hval ▸ le_rfl, by rw [hval]; positivity⟩
  · have hlt : a.value + t.value < (10 : ℚ) ^ (26 + 1 : ℤ) := by
      refine (add_le_add hale htle).trans_lt ?_
      norm_num
    have hplace := lastPlace_le hpos hlt (by norm_num)
    by_cases hle : a.value + t.value ≤ 10 ^ 26
    · obtain ⟨m, hm⟩ := pow_multiple (b := 26) (hplace.trans (by norm_num))
      obtain ⟨w, hw, -, hnonneg, hwle⟩ :=
        Decimal.roundValue_le rounding_default hpos hle (hpow.trans hm)
          (lt_range_default (by norm_num))
      obtain ⟨r, hr, hval⟩ := exists_add_of_roundValue hw
      exact ⟨r, hr, hval ▸ hnonneg, hval ▸ hwle⟩
    · rw [not_le] at hle
      have hlast : defaultContext.lastPlace (a.value + t.value) = -1 := by
        refine le_antisymm (hplace.trans (by norm_num)) ?_
        have hlog : 26 ≤ Int.log 10 (a.value + t.value) := by
          rw [← Int.zpow_le_iff_le_log (by norm_num) hpos]
          exact_mod_cast hle.le
        rw [Decimal.Context.lastPlace, abs_of_pos hpos]
        simp only [defaultContext]
        omega
      have hgrid : (10 ^ 26 + 1 / 10 : ℚ) = ((10 ^ 27 + 1 : ℤ) : ℚ)
          * (10 : ℚ) ^ defaultContext.lastPlace (a.value + t.value) := by
        rw [hlast]
        norm_num
      obtain ⟨w, hw, hnear, hnonneg, -⟩ := Decimal.roundValue_le rounding_default hpos
        (b := 10 ^ 26 + 1 / 10) (by linarith) hgrid (lt_range_default (by norm_num))
      obtain ⟨r, hr, hval⟩ := exists_add_of_roundValue hw
      refine ⟨r, hr, hval ▸ hnonneg, ?_⟩
      -- the next multiple of a tenth is too far away
      rw [hlast] at hnear
      obtain ⟨j, rfl, hdist, -⟩ := hnear
      rw [abs_le] at hdist
      have hj : (j : ℚ) < ((10 ^ 27 + 1 : ℤ) : ℚ) := by
        have hup := hdist.2
        norm_num at hup ⊢
        linarith
      have hj' : j ≤ 10 ^ 27 := Int.lt_add_one_iff.mp (by exact_mod_cast hj)
      have hcast : (j : ℚ) ≤ 10 ^ 27 := by exact_mod_cast hj'
      rw [hval]
      norm_num
      linarith

/-- The twelve places of a term as a natural number. -/
theorem termOf_places (laneRank : ℕ) :
    ∃ n : ℕ, (termOf laneRank).value = n * (10 : ℚ) ^ (-12 : ℤ) := by
  obtain ⟨hexp, hnonneg, -⟩ := termOf_spec laneRank
  refine ⟨(termOf laneRank).coeff, ?_⟩
  rw [← abs_of_nonneg hnonneg, Decimal.abs_value_eq_coeff, hexp]

/-- **A sum of twelve places below 10¹⁶ is exact.** -/
theorem add_exact {a t : Decimal} {n : ℕ} (hn : a.value + t.value = n * (10 : ℚ) ^ (-12 : ℤ))
    (hlt : a.value + t.value < 10 ^ 16) {r : Decimal} (hr : defaultContext.add a t = .ok r) :
    r.value = a.value + t.value := by
  have hnlt : n < 10 ^ 28 := by
    rw [hn] at hlt
    have : (n : ℚ) < 10 ^ 28 := by
      norm_num at hlt
      linarith
    exact_mod_cast this
  have hvalue : (⟨false, n, -12⟩ : Decimal).value = a.value + t.value := by
    rw [hn, Decimal.value_eq_signed]
    simp [Decimal.signed]
  have hfits := defaultContext.roundValue_of_fits (a := ⟨false, n, -12⟩)
    ((Decimal.numDigits_le_iff (by decide)).mpr hnlt) (show (-999999 - 28 + 1 : ℤ) ≤ -12 by
        norm_num) (by
      rw [hvalue, abs_of_nonneg (by rw [hn]; positivity)]
      exact lt_range_default (hlt.trans (by norm_num)))
  rw [hvalue] at hfits
  obtain ⟨r', hr', hval⟩ := exists_add_of_roundValue hfits
  rw [hr] at hr'
  cases hr'
  exact hval

/-! ## The loop over the appearances -/

/-- What the trace keeps of an appearance. -/
def contributionOf (c : LaneCandidate) : Contribution :=
  ⟨c.lane, c.laneRank, c.rawScore, String.ofList (termOf c.laneRank).fixedText, 0⟩

/-- The number that a contribution shows. -/
def Contribution.term (c : Contribution) : ℚ := Decimal.readFixed c.rrfContribution.toList

/-- The number that a candidate shows as its score. -/
def FusedCandidate.score (c : FusedCandidate) : ℚ := Decimal.readFixed c.fusedScore.toList

/-- The exact sum of the contributions. -/
def FusedCandidate.termSum (c : FusedCandidate) : ℚ := (c.contributions.map Contribution.term).sum

/-- A contribution has the term of its rank. -/
theorem term_contributionOf (c : LaneCandidate) :
    (contributionOf c).term = (termOf c.laneRank).value := by
  rw [Contribution.term, contributionOf, String.toList_ofList, Decimal.readFixed_fixedText]

/-- A contribution adds its term. -/
theorem contribute_eq {total t : Decimal} {c : LaneCandidate} (acc : List Contribution)
    (h : defaultContext.add total (termOf c.laneRank) = .ok t) :
    contribute defaultContext (total, acc) c = .ok (t, acc ++ [contributionOf c]) := by
  rw [contribute, rrfTerm_eq]
  simp only [Except.mapError, Except.ok_bind, h]
  rfl

/-- **The loop does not raise**, and its sum is exact below 10¹⁶. -/
theorem foldlM_contribute (appearances : List LaneCandidate) (acc : List Contribution)
    {total : Decimal}
    (hnonneg : 0 ≤ total.value) (hle : total.value ≤ 10 ^ 26) :
    ∃ t, appearances.foldlM (contribute defaultContext) (total, acc)
    = .ok (t, acc ++ appearances.map contributionOf)
      ∧ ((∃ n : ℕ, total.value = n * (10 : ℚ) ^ (-12 : ℤ)) →
        total.value + (appearances.map fun c => (contributionOf c).term).sum < 10 ^ 16 →
        t.value = total.value + (appearances.map fun c => (contributionOf c).term).sum) := by
  induction appearances generalizing acc total with
  | nil =>
      refine ⟨total, ?_, fun _ _ => ?_⟩
      · rw [List.map_nil, List.append_nil]
        rfl
      · rw [List.map_nil, List.sum_nil, add_zero]
  | cons c appearances ih =>
      obtain ⟨-, htnonneg, htle⟩ := termOf_spec c.laneRank
      obtain ⟨s, hs, hsnonneg, hsle⟩ := add_bounded hnonneg hle htnonneg htle
      obtain ⟨t, ht, hexact⟩ := ih (acc ++ [contributionOf c]) hsnonneg hsle
      have hrest : 0 ≤ (appearances.map fun c => (contributionOf c).term).sum := by
        refine List.sum_nonneg fun x hx => ?_
        obtain ⟨a, -, rfl⟩ := List.mem_map.mp hx
        rw [term_contributionOf]
        exact (termOf_spec a.laneRank).2.1
      refine ⟨t, ?_, fun ⟨n, hn⟩ hlt => ?_⟩
      · rw [List.foldlM_cons, contribute_eq acc hs, Except.ok_bind, ht, List.map_cons,
        List.append_assoc]
        rfl
      · obtain ⟨m, hm⟩ := termOf_places c.laneRank
        rw [List.map_cons, List.sum_cons, ← add_assoc, term_contributionOf] at hlt ⊢
        have hplaces :
            total.value + (termOf c.laneRank).value = ((n + m : ℕ) : ℚ) * (10 : ℚ) ^ (-12 : ℤ) := by
          rw [hn, hm, Nat.cast_add, add_mul]
        have hsum := add_exact hplaces (by linarith) hs
        rw [← hsum] at hlt ⊢
        exact hexact ⟨n + m, hsum.trans hplaces⟩ hlt

/-- **A survivor with an appearance gets its candidate.** -/
theorem fuseSurvivor_spec (itemId : String) {ordered : List LaneCandidate} (h : ordered ≠ []) :
    ∃ s, fuseSurvivor defaultContext itemId ordered = .ok s ∧ s.2.itemId = itemId
      ∧ s.2.contributions = ordered.map contributionOf ∧ s.2.score = s.1.value
      ∧ (s.2.termSum < 10 ^ 16 → s.2.score = s.2.termSum) := by
  obtain ⟨total, htotal, hexact⟩ := foldlM_contribute ordered []
    (show 0 ≤ (Decimal.ofNat 0).value by simp) (by simp)
  cases ordered with
  | nil => exact absurd rfl h
  | cons first rest =>
      rw [List.nil_append] at htotal
      refine ⟨_, by rw [fuseSurvivor, htotal, Except.ok_bind]; rfl, rfl, rfl, ?_, fun hlt => ?_⟩
      · rw [FusedCandidate.score, String.toList_ofList, Decimal.readFixed_fixedText]
      · rw [FusedCandidate.score, String.toList_ofList, Decimal.readFixed_fixedText]
        rw [FusedCandidate.termSum, List.map_map] at hlt ⊢
        rw [Decimal.value_ofNat, Nat.cast_zero, zero_add] at hexact
        exact hexact ⟨0, by simp⟩ hlt

theorem fuseSurvivor_itemId {itemId : String} {ordered : List LaneCandidate}
    {s : Decimal × FusedCandidate}
    (h : fuseSurvivor defaultContext itemId ordered = .ok s) : s.2.itemId = itemId := by
  cases ordered with
  | nil => cases h
  | cons first rest =>
      obtain ⟨s', hs', hid, -⟩ := fuseSurvivor_spec itemId (List.cons_ne_nil first rest)
      rw [h] at hs'
      cases hs'
      exact hid

end Retrieval
