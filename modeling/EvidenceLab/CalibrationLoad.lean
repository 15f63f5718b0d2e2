/-
# Loading calibration datasets

`load_dataset`, `canonical_dataset_bytes` and `dataset_digest`: the decoder with its hooks and
bounds in front of `parse`, and the writer behind `Dataset.project`.
-/
import EvidenceLab.CalibrationScan
import EvidenceLab.JsonWriter

namespace CalibrationDataset

open JsonReader (Hooks Style)
open Except (bind_eq_ok_iff raiseIf_eq_ok_iff)

/-! ## Decoding -/

/-- What `decoder.decode` raises. -/
inductive DecodeFailure where
  | duplicateKeys
  | recursionError
  | jsonDecodeError
  | valueError
  deriving DecidableEq

/-- The failure as a code. -/
def DecodeFailure.code : DecodeFailure → ErrorCode
  | .duplicateKeys => .invalidJson
  | .recursionError => .limitExceeded
  | .jsonDecodeError => .invalidJson
  | .valueError => .invalidJson

/-- `_MAX_BYTES`. -/
def maxBytes : ℕ := 64 * 1024 * 1024

/-- `_MAX_DEPTH`. -/
def maxDepth : ℕ := 16

/-- The digits that `int` converts. -/
def maxIntDigits : ℕ := 4300

/-- `int(literal)` of a JSON integer. -/
def intLiteral (literal : List Char) : Except DecodeFailure PyJson :=
  let digits := literal.filter Char.isDigit
  if maxIntDigits < digits.length then .error .valueError
  else .ok (.int (if literal.head? = some '-' then -(Nat.ofDigitChars 10 digits 0 : ℤ)
    else Nat.ofDigitChars 10 digits 0))

/-- `_object_pairs`. -/
def objectPairs (pairs : List (PyStr × PyJson)) : Except DecodeFailure PyJson :=
  if (pairs.map Prod.fst).Nodup then .ok (.obj pairs) else .error .duplicateKeys

/-- The decoder of `_decode`.  The interpreter nests so many containers more than `_MAX_DEPTH`. -/
def decoder (spare : ℕ) : Hooks DecodeFailure where
  int := intLiteral
  float _ := .error .valueError
  constant _ := .error .valueError
  pairs := objectPairs
  malformed := .jsonDecodeError
  tooDeep := .recursionError
  maxDepth := maxDepth + spare

mutual

/-- `_check_depth`. -/
def checkDepth : PyJson → ℕ → Except DatasetError Unit
  | .obj members, depth => do
      Except.raiseIf (maxDepth < depth) (fail .limitExceeded)
      checkMembers members (depth + 1)
  | .arr items, depth => do
      Except.raiseIf (maxDepth < depth) (fail .limitExceeded)
      checkItems items (depth + 1)
  | _, _ => .ok ()

def checkMembers : List (PyStr × PyJson) → ℕ → Except DatasetError Unit
  | [], _ => .ok ()
  | (_, inner) :: members, depth => do
      checkDepth inner depth
      checkMembers members depth

def checkItems : List PyJson → ℕ → Except DatasetError Unit
  | [], _ => .ok ()
  | inner :: items, depth => do
      checkDepth inner depth
      checkItems items depth

end

/-- `_decode`. -/
def decode (spare : ℕ) (raw : ByteArray) : Except DatasetError PyJson := do
  Except.raiseIf (maxBytes < raw.size) (fail .limitExceeded)
  let text ← Except.orRaise raw.utf8Decode? (fail .invalidJson)
  Except.raiseIf (text.toList.head? = some '\uFEFF') (fail .invalidJson)
  let payload ← (JsonReader.decode (decoder spare) text.toList).mapError fun e => fail e.code
  checkDepth payload 1
  return payload

/-! ## The entry points -/

/-- `load_dataset`. -/
def loadDataset (spare : ℕ) (raw : ByteArray) : Except DatasetError PyJson := do
  return (← parse (← decode spare raw)).project

mutual

/-- `_reject_dict_floats`; a decimal stands for any number that is no integer. -/
def rejectFloats : PyJson → Except DatasetError Unit
  | .decimal _ => .error (fail .invalidJson)
  | .obj members => rejectMembers members
  | .arr items => rejectItems items
  | _ => .ok ()

def rejectMembers : List (PyStr × PyJson) → Except DatasetError Unit
  | [] => .ok ()
  | (_, inner) :: members => do
      rejectFloats inner
      rejectMembers members

def rejectItems : List PyJson → Except DatasetError Unit
  | [] => .ok ()
  | inner :: items => do
      rejectFloats inner
      rejectItems items

end

/-- `_validated`. -/
def validated (dataset : PyJson) : Except DatasetError Dataset := do
  checkDepth dataset 1
  rejectFloats dataset
  parse dataset

/-- The separators of `_dump`.  No decimal is ever written. -/
def compact : Style where
  comma := [',']
  colon := [':']
  decimal _ := ['0']
  token _ := .int ['0']
  comma_lexes := JsonReader.lexes_comma
  comma_ends := JsonReader.endsNumber_cons (by decide)
  colon_lexes := JsonReader.lexes_colon
  decimal_lexes _ := JsonReader.lexesValue_int 0

/-- The bytes of a text. -/
def utf8 (text : List Char) : ByteArray := (String.ofList text).toByteArray

/-- `_dump`. -/
def dump (dataset : PyJson) : ByteArray := utf8 (JsonReader.write compact dataset.sortKeys)

/-- `canonical_dataset_bytes`. -/
def canonicalDatasetBytes (dataset : PyJson) : Except DatasetError ByteArray := do
  return dump (← validated dataset).project

/-- `dataset_digest`, over the digest function `sha256Hex`. -/
def datasetDigest (sha256Hex : ByteArray → String) (dataset : PyJson) :
    Except DatasetError String := do
  return sha256Hex (← canonicalDatasetBytes dataset)

/-- What a dataset that loads was parsed from. -/
theorem loadDataset_eq_ok_iff {spare : ℕ} {raw : ByteArray} {d : PyJson} :
    loadDataset spare raw = .ok d ↔
      ∃ payload parsed, decode spare raw = .ok payload ∧ parse payload = .ok parsed ∧
      d = parsed.project := by
  simp only [loadDataset, bind_eq_ok_iff, Except.pure_eq_ok, Except.ok.injEq]
  constructor
  · rintro ⟨payload, hp, parsed, hparsed, heq⟩
    exact ⟨payload, parsed, hp, hparsed, heq.symm⟩
  · rintro ⟨payload, parsed, hp, hparsed, heq⟩
    exact ⟨payload, hp, parsed, hparsed, heq.symm⟩

end CalibrationDataset
