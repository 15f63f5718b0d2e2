/-
# Decoded JSON

The Python objects that `json.loads` builds.  A Python text may hold lone surrogates, which no
Unicode text holds: such a text is kept apart as the list of its code points (`PyStr.lone`).
-/
import EvidenceLab.DecimalArith
import EvidenceLab.Dict

/-- A Python text: Unicode text, or code points of which one is a surrogate. -/
inductive PyStr where
  | text (s : String)
  | lone (points : List ℕ)
  deriving DecidableEq

/-- The code points of a text, by which texts are compared. -/
def PyStr.points : PyStr → List ℕ
  | .text s => s.toList.map Char.toNat
  | .lone points => points

/-- A decoded JSON document.  Fractional literals are decimals; the members of an object stand in
their order. -/
inductive PyJson where
  | null
  | bool (b : Bool)
  | int (i : ℤ)
  | decimal (d : Decimal)
  | str (s : PyStr)
  | arr (items : List PyJson)
  | obj (members : List (PyStr × PyJson))

namespace PyJson

/-- A text without surrogates. -/
abbrev ofText (s : String) : PyJson := .str (.text s)

/-- The member of a key, `None` without one. -/
def member (members : List (PyStr × PyJson)) (key : String) : PyJson :=
  (Dict.get? members (.text key)).getD .null

/-- `set(members) == keys`. -/
def keysAre (members : List (PyStr × PyJson)) (keys : List String) : Bool :=
  (Dict.keys members).all (fun k => k ∈ keys.map PyStr.text)
    && keys.all (fun k => PyStr.text k ∈ Dict.keys members)

mutual

/-- The members of every object in the order of their keys. -/
def sortKeys : PyJson → PyJson
  | .arr items => .arr (sortItems items)
  | .obj members => .obj ((sortMembers members).insertionSort fun a b => a.1.points ≤ b.1.points)
  | v => v

def sortItems : List PyJson → List PyJson
  | [] => []
  | v :: vs => sortKeys v :: sortItems vs

def sortMembers : List (PyStr × PyJson) → List (PyStr × PyJson)
  | [] => []
  | (k, v) :: members => (k, sortKeys v) :: sortMembers members

end

end PyJson
