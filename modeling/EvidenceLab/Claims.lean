/-
# Claims and their evidence

The data of the retrieval package: numeric tuples, the selected context, citations and claims.  A
tuple and a claim carry what their constructors check.
-/
import EvidenceLab.DecimalArith
import EvidenceLab.Dict
import EvidenceLab.JsonValue

namespace Retrieval

/-- `NUMERIC_SCALE_EXPONENTS`. -/
def scaleExponents : List ℤ := [0, 3, 6, 9]

/-- A financial fact's checkable numbers. -/
structure NumericTuple where
  value : Decimal
  unit : String
  period : String
  scale : ℤ
  legal : scale ∈ scaleExponents

/-- `NumericTuple.sign`. -/
def NumericTuple.sign (t : NumericTuple) : ℤ :=
  if 0 < t.value.value then 1 else if t.value.value < 0 then -1 else 0

structure ContextItem where
  itemId : String
  kind : String
  text : String
  sourceSpanId : String
  documentVersionId : String
  financialFactId : Option String
  numeric : Option NumericTuple

inductive CitationStatus where
  | entailed
  | partial_
  | contradictory
  | irrelevant
  deriving DecidableEq

inductive ClaimStatus where
  | supported
  | partiallySupported
  | contradicted
  | derived
  | unsupported
  deriving DecidableEq

/-- The five booleans of `validate_numeric`. -/
structure NumericChecks where
  value : Bool
  unit : Bool
  period : Bool
  sign : Bool
  scale : Bool
  deriving DecidableEq

/-- One claim-to-evidence edge.  `numericChecks` is `none` for an empty dictionary. -/
structure ClaimCitation where
  itemId : String
  sourceSpanId : String
  status : CitationStatus
  numericChecks : Option NumericChecks
  rationale : Option String
  verifier : Option String
  model : Option String
  version : Option String
  quote : Option String

/-- An atomic claim; a derived one has a calculation behind it. -/
structure GeneratedClaim where
  ord : ℕ
  text : String
  status : ClaimStatus
  citations : List ClaimCitation
  confidence : Option Decimal
  calculationLineage : List (String × JsonValue)
  numeric : Option NumericTuple
  lineage : status = .derived → calculationLineage ≠ []

/-- `{item.item_id: item for item in context}`: a later item takes the place of an earlier one. -/
def acceptedItems (context : List ContextItem) : Dict String ContextItem :=
  Dict.update [] (context.map fun item => (item.itemId, item))

/-- An accepted item is in the context, under its own id. -/
theorem mem_of_acceptedItems {context : List ContextItem} {id : String} {item : ContextItem}
    (h : (acceptedItems context).get? id = some item) : item ∈ context ∧ item.itemId = id := by
  induction context using List.reverseRecOn generalizing id item with
  | nil => cases h
  | append_singleton context last ih =>
      have hstep :
          acceptedItems (context ++ [last]) = (acceptedItems context).set last.itemId last := by
        simp [acceptedItems, Dict.update, List.foldl_append]
      rw [hstep, Dict.get?_set] at h
      split_ifs at h with hid
      · cases h
        exact ⟨by simp, hid⟩
      · obtain ⟨hmem, heq⟩ := ih h
        exact ⟨List.mem_append_left _ hmem, heq⟩

end Retrieval
