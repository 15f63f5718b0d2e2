/-
# JSON values

`JsonValue` is a JSON document as Python decodes it, with integers and floating-point numbers apart.
`JsonValue.Within` says that a value stands somewhere inside another, at any depth.
-/
import Mathlib

/-- A decoded JSON document.  The members of an object stand in their order, with distinct keys. -/
inductive JsonValue where
  | null
  | bool (b : Bool)
  | int (i : ℤ)
  | float (bits : BitVec 64)
  | str (s : String)
  | arr (items : List JsonValue)
  | obj (members : List (String × JsonValue))

namespace JsonValue

/-- `x.Within v`: the value `x` is `v` or stands inside it, through any nesting of arrays and
objects. -/
inductive Within (x : JsonValue) : JsonValue → Prop where
  | self : Within x x
  | item {y : JsonValue} {items : List JsonValue} (hy : y ∈ items) (h : Within x y) :
      Within x (.arr items)
  | member {key : String} {y : JsonValue} {members : List (String × JsonValue)}
      (hy : (key, y) ∈ members)
      (h : Within x y) : Within x (.obj members)

theorem within_arr_iff {x : JsonValue} {items : List JsonValue} :
    x.Within (.arr items) ↔ x = .arr items ∨ ∃ y ∈ items, x.Within y := by
  constructor
  · intro h
    cases h with
    | self => exact .inl rfl
    | item hy h => exact .inr ⟨_, hy, h⟩
  · rintro (rfl | ⟨y, hy, h⟩)
    · exact .self
    · exact .item hy h

theorem within_obj_iff {x : JsonValue} {members : List (String × JsonValue)} :
    x.Within (.obj members) ↔ x = .obj members ∨ ∃ m ∈ members, x.Within m.2 := by
  constructor
  · intro h
    cases h with
    | self => exact .inl rfl
    | member hy h => exact .inr ⟨_, hy, h⟩
  · rintro (rfl | ⟨⟨key, y⟩, hy, h⟩)
    · exact .self
    · exact .member hy h

/-- The values without parts. -/
def IsScalar : JsonValue → Prop
  | .arr _ => False
  | .obj _ => False
  | _ => True

/-- Inside a value without parts stands only the value. -/
theorem within_of_isScalar {x v : JsonValue} (hv : v.IsScalar) : x.Within v ↔ x = v := by
  constructor
  · intro h
    cases h with
    | self => rfl
    | item => exact hv.elim
    | member => exact hv.elim
  · rintro rfl
    exact .self

end JsonValue
