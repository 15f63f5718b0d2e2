/-
# Fixed-point policies and iteration records

`IterationGroup` is the explicit policy of one cyclic component (`iteration.py`): its members, a
seed and a tolerance for each, and the number of sweeps.  `IterationRun` is the record of one
execution, and `IterationRun.payload` what its id is hashed over.
-/
import EvidenceLab.Encodings

namespace CalcEngine

open Decimal (numDigits)

/-! ## Policies -/

def maxIterations : ℕ := 1000

/-- `ITERATION_ALGORITHM`. -/
def iterationAlgorithm : String := "jacobi/v1"

/-- What the constructor of an iteration group is given. -/
structure GroupFields where
  groupId : String
  members : List String
  seeds : List (String × String)
  absoluteTolerances : List (String × Decimal)
  relativeTolerance : Decimal
  maxIterations : ℕ
  deriving DecidableEq

/-- The engine errors `_tolerance` turns into policy errors. -/
def asPolicyError : EngineError → EngineError
  | .valueType message => .iterationPolicy message
  | .canonicalization message => .iterationPolicy message
  | e => e

/-- `_tolerance`. -/
def requireTolerance (value : Decimal) (field : String) : Except EngineError Unit := do
  (requireDecimal value field).mapError asPolicyError
  let _ ← (canonicalJson (.decimal value)).mapError asPolicyError
  Except.raiseIf (¬ (Decimal.ofNat 0).le value)
    (.iterationPolicy (field ++ " must be nonnegative"))

namespace GroupFields

/-- `IterationGroup.__post_init__`. -/
def postInit (g : GroupFields) : Except EngineError Unit := do
  requireSafeId g.groupId "group_id" .iterationPolicy
  Except.raiseIf (g.members = []) (.iterationPolicy "members must be a nonempty tuple")
  g.members.forM (fun m => requireSafeId m "member" .iterationPolicy)
  Except.raiseIf ((Dict.fromKeys g.members).insertionSort (· ≤ ·) ≠ g.members)
    (.iterationPolicy "members must be sorted and unique")
  Except.raiseIf (g.seeds.map Prod.fst ≠ g.members)
    (.iterationPolicy "seeds must declare every member exactly once")
  Except.raiseIf (g.absoluteTolerances.map Prod.fst ≠ g.members)
    (.iterationPolicy "absolute_tolerances must declare every member exactly once")
  g.seeds.forM (fun s => requireSafeId s.2 "seed" .iterationPolicy)
  requireTolerance g.relativeTolerance "relative_tolerance"
  g.absoluteTolerances.forM (fun t => do
    requireTolerance t.2 (t.1 ++ ".absolute_tolerance")
    Except.raiseIf (t.2.coeff = 0 ∧ g.relativeTolerance.coeff = 0)
      (.iterationPolicy (t.1 ++ " must have a positive tolerance")))
  Except.raiseIf (¬ (1 ≤ g.maxIterations ∧ g.maxIterations ≤ CalcEngine.maxIterations))
    (.iterationPolicy "max_iterations must be an integer from 1 through 1000")

end GroupFields

/-- An iteration group: fields that passed `__post_init__`. -/
structure IterationGroup extends GroupFields where
  valid : toGroupFields.postInit = .ok ()

/-- The constructor of `IterationGroup`. -/
def IterationGroup.make (g : GroupFields) : Except EngineError IterationGroup :=
  match h : g.postInit with
  | .ok () => .ok ⟨g, h⟩
  | .error e => .error e

theorem IterationGroup.ext_fields {g g' : IterationGroup}
    (h : g.toGroupFields = g'.toGroupFields) : g = g' := by
  cases g
  cases g'
  simp_all

instance : DecidableEq IterationGroup := fun g g' =>
  decidable_of_iff (g.toGroupFields = g'.toGroupFields)
    ⟨IterationGroup.ext_fields, fun h => by rw [h]⟩

/-- A group is accepted if its fields are in order. -/
theorem IterationGroup.make_eq_ok_iff {f : GroupFields} {g : IterationGroup} :
    IterationGroup.make f = .ok g ↔ g.toGroupFields = f := by
  unfold IterationGroup.make
  split
  · rename_i h
    rw [Except.ok.injEq]
    constructor
    · rintro rfl
      rfl
    · intro hg
      exact IterationGroup.ext_fields hg.symm
  · rename_i e h
    simp only [reduceCtorEq, false_iff]
    rintro rfl
    rw [g.valid] at h
    cases h

theorem mapError_eq_ok_iff {α : Type} {f : EngineError → EngineError} {x : Except EngineError α}
    {a : α} : x.mapError f = .ok a ↔ x = .ok a := by
  cases x <;> simp [Except.mapError]

/-- A number has a canonical text if it can be encoded. -/
theorem canonicalJson_decimal_ok_iff {d : Decimal} :
    (∃ s, canonicalJson (.decimal d) = .ok s) ↔ Encodable d := by
  constructor
  · rintro ⟨s, hs⟩
    exact inDomain_of_canonicalJson (v := .decimal d) trivial hs
  · intro h
    obtain ⟨j, -, hs⟩ := canonicalJson_ok (v := .decimal d) h
    exact ⟨_, hs⟩

/-- A tolerance is accepted if it can be encoded and is not negative. -/
theorem requireTolerance_eq_ok_iff {value : Decimal} {field : String} {u : Unit} :
    requireTolerance value field = .ok u ↔ Encodable value ∧ 0 ≤ value.value := by
  simp only [requireTolerance, Except.bind_eq_ok_iff, mapError_eq_ok_iff,
    requireDecimal_eq_ok_iff, exists_const, Except.raiseIf_eq_ok_iff, not_not,
    Decimal.le_iff_value_le, Decimal.value_ofNat, Nat.cast_zero]
  constructor
  · rintro ⟨-, s, hs, hv⟩
    exact ⟨canonicalJson_decimal_ok_iff.mp ⟨s, hs⟩, hv⟩
  · rintro ⟨he, hv⟩
    obtain ⟨s, hs⟩ := canonicalJson_decimal_ok_iff.mpr he
    exact ⟨he.digits, s, hs, hv⟩

/-- A list that sorting and deduplicating keeps is strictly sorted. -/
theorem sorted_of_sort_fromKeys {l : List String}
    (h : (Dict.fromKeys l).insertionSort (· ≤ ·) = l) : l.Pairwise (· < ·) := by
  have hnodup : l.Nodup := by
    rw [← h, (List.perm_insertionSort (· ≤ ·) _).nodup_iff]
    exact Dict.nodup_fromKeys l
  have hsort : l.Pairwise (· ≤ ·) := by
    rw [← h]
    exact List.pairwise_insertionSort (· ≤ ·) _
  exact hsort.imp₂ (fun a b hle hne => lt_of_le_of_ne hle hne) hnodup

/-- What a valid group guarantees. -/
structure GroupOk (g : GroupFields) : Prop where
  members_ne : g.members ≠ []
  members_sorted : g.members.Pairwise (· < ·)
  seeds_keys : g.seeds.map Prod.fst = g.members
  tolerances_keys : g.absoluteTolerances.map Prod.fst = g.members
  seeds_safe : ∀ s ∈ g.seeds, isSafeId s.2 = true
  relative : Encodable g.relativeTolerance
  absolute : ∀ t ∈ g.absoluteTolerances, Encodable t.2
  iterations : 1 ≤ g.maxIterations ∧ g.maxIterations ≤ CalcEngine.maxIterations

theorem IterationGroup.ok (g : IterationGroup) : GroupOk g.toGroupFields := by
  have h := g.valid
  simp only [GroupFields.postInit, Except.bind_eq_ok_iff, Except.raiseIf_eq_ok_iff,
    Except.forM_eq_ok_iff, requireSafeId_eq_ok_iff, requireTolerance_eq_ok_iff, exists_const,
    ne_eq, not_not] at h
  obtain ⟨-, h1, -, h2, h3, h4, h5, h6, h7, h8⟩ := h
  exact ⟨h1, sorted_of_sort_fromKeys h2, h3, h4, h5, h6.1, fun t ht => (h7 t ht).1.1, h8⟩

/-! ## Encodings -/

/-- A pair of strings as a tuple. -/
def strPair (p : String × String) : PyValue := .tuple [.str p.1, .str p.2]

/-- A string and a decimal as a tuple. -/
def decimalPair (p : String × Decimal) : PyValue := .tuple [.str p.1, .decimal p.2]

def GroupFields.toPy (g : GroupFields) : PyValue :=
  .dataclass .iterationGroup [.str g.groupId, strs g.members, .tuple (g.seeds.map strPair),
    .tuple (g.absoluteTolerances.map decimalPair), .decimal g.relativeTolerance,
    .int g.maxIterations]

def Quantity.toPy (q : Quantity) : PyValue := .dataclass .quantity [.decimal q.value, q.unit.toPy]

/-- `IterationRun`. -/
structure IterationRun where
  runId : String
  policy : GroupFields
  memberDefinitions : List (String × String)
  dependencies : List (String × List String)
  seedResultIds : List (String × String × String)
  externalResultIds : List (String × String)
  cutoff : AwareDatetime
  iterations : ℕ
  values : List (String × Quantity × FiscalPeriod)
  residuals : List (String × Decimal)

/-- `IterationRun.payload`. -/
def IterationRun.payload (r : IterationRun) : PyValue :=
  .dict
    [(.str "schema", .str "fel-calc-iteration/v1"),
      (.str "algorithm", .str iterationAlgorithm),
      (.str "policy", r.policy.toPy),
      (.str "member_definitions", .tuple (r.memberDefinitions.map strPair)),
      (.str "dependencies",
        .tuple (r.dependencies.map (fun d => .tuple [.str d.1, strs d.2]))),
      (.str "seed_result_ids",
        .tuple (r.seedResultIds.map (fun s => .tuple [.str s.1, .str s.2.1, .str s.2.2]))),
      (.str "external_result_ids", .tuple (r.externalResultIds.map strPair)),
      (.str "cutoff", .datetime r.cutoff),
      (.str "iterations", .int r.iterations),
      (.str "values",
        .tuple (r.values.map (fun v => .tuple [.str v.1, v.2.1.toPy, v.2.2.toPy]))),
      (.str "residuals", .tuple (r.residuals.map decimalPair))]

/-! ## What two equal records share -/

end CalcEngine
