/-
# The schema subset and its checker

A schema names the types of a value, the bounds and the pattern of a string, the members of an
object and the items of an array.  `errors` is the checker that lists every violation with its path;
`Conforms` is the relation it decides.

**`errors_eq_nil_iff`**: a value without errors conforms to the schema, and the other way round.
The rules `Conforms.member` and `Conforms.item` then read a conforming value.
-/
import EvidenceLab.Dict
import EvidenceLab.JsonValue

namespace JsonSchema

inductive JsonType where
  | object
  | array
  | string
  | null
  | boolean
  | integer
  | number
  deriving DecidableEq

/-- The name of a type in a schema. -/
def JsonType.name : JsonType → String
  | .object => "object"
  | .array => "array"
  | .string => "string"
  | .null => "null"
  | .boolean => "boolean"
  | .integer => "integer"
  | .number => "number"

/-- A schema.  Every schema names its types; what else it has may be absent. -/
structure Schema where
  types : List JsonType
  minLength : Option ℕ := none
  pattern : Option (List Char → Bool) := none
  required : List String := []
  properties : List (String × Schema) := []
  additionalProperties : Bool := true
  minItems : Option ℕ := none
  items : Option Schema := none

/-- The test of a value against one type. -/
def typeOk : JsonValue → JsonType → Bool
  | .obj _, .object => true
  | .arr _, .array => true
  | .str _, .string => true
  | .null, .null => true
  | .bool _, .boolean => true
  | .int _, .integer => true
  | .int _, .number => true
  | .float _, .number => true
  | _, _ => false

/-- The value has one of the types of the schema. -/
def Schema.Typed (schema : Schema) (v : JsonValue) : Prop := ∃ t ∈ schema.types, typeOk v t = true

instance (schema : Schema) (v : JsonValue) : Decidable (schema.Typed v) :=
  inferInstanceAs (Decidable (∃ t ∈ schema.types, typeOk v t = true))

/-! ## The checker -/

def typeError (schema : Schema) (path : String) : String :=
  path ++ ": expected " ++ "|".intercalate (schema.types.map JsonType.name)

/-- The violations of a string. -/
def stringErrors (schema : Schema) (path s : String) : List String :=
  (match schema.minLength with
    | some n => if s.length < n then [path ++ ": string shorter than minLength " ++ toString n]
        else []
    | none => [])
  ++ match schema.pattern with
    | some p => if p s.toList then [] else [path ++ ": string does not match required pattern"]
    | none => []

/-- The members that are missing, and those that the schema does not have. -/
def keyErrors (schema : Schema) (path : String) (keys : List String) : List String :=
  (schema.required.filter (· ∉ keys)).map (fun key => path ++ ": missing required property '"
    ++ key ++ "'")
  ++ if schema.additionalProperties then []
    else (keys.filter (· ∉ Dict.keys schema.properties)).map fun _ => path
      ++ ": unexpected property"

def lengthErrors (schema : Schema) (path : String) (length : ℕ) : List String :=
  match schema.minItems with
  | some n => if length < n then [path ++ ": array shorter than minItems " ++ toString n] else []
  | none => []

mutual

/-- Every violation of the schema by the value. -/
def errors (schema : Schema) (path : String) : JsonValue → List String
  | .str s => if schema.Typed (.str s) then stringErrors schema path s else [typeError schema path]
  | .obj members =>
      if schema.Typed (.obj members) then
        keyErrors schema path (Dict.keys members) ++ memberErrors schema.properties path members
      else [typeError schema path]
  | .arr items =>
      if schema.Typed (.arr items) then
        lengthErrors schema path items.length
          ++ match schema.items with
            | some itemSchema => itemErrors itemSchema path 0 items
            | none => []
      else [typeError schema path]
  | .null => if schema.Typed .null then [] else [typeError schema path]
  | .bool b => if schema.Typed (.bool b) then [] else [typeError schema path]
  | .int i => if schema.Typed (.int i) then [] else [typeError schema path]
  | .float bits => if schema.Typed (.float bits) then [] else [typeError schema path]

/-- The violations of the members that have a schema. -/
def memberErrors (properties : List (String × Schema)) (path : String) :
    List (String × JsonValue) → List String
  | [] => []
  | (key, child) :: members =>
      (match Dict.get? properties key with
        | some childSchema => errors childSchema (path ++ "." ++ key) child
        | none => [])
      ++ memberErrors properties path members

/-- The violations of the items, from an index on. -/
def itemErrors (itemSchema : Schema) (path : String) (index : ℕ) : List JsonValue → List String
  | [] => []
  | item :: items =>
      errors itemSchema (path ++ "[" ++ toString index ++ "]") item
        ++ itemErrors itemSchema path (index + 1) items

end

/-! ## The relation -/

/-- The value conforms to the schema. -/
inductive Conforms : Schema → JsonValue → Prop where
  | str {schema : Schema} {s : String} (ht : schema.Typed (.str s))
      (hlength : ∀ n ∈ schema.minLength, n ≤ s.length)
      (hpattern : ∀ p ∈ schema.pattern, p s.toList = true) : Conforms schema (.str s)
  | obj {schema : Schema} {members : List (String × JsonValue)} (ht : schema.Typed (.obj members))
      (hrequired : ∀ key ∈ schema.required, key ∈ Dict.keys members)
      (hclosed : schema.additionalProperties = false →
        ∀ key ∈ Dict.keys members, key ∈ Dict.keys schema.properties)
      (hmembers : ∀ m ∈ members, ∀ s, Dict.get? schema.properties m.1 = some s → Conforms s m.2) :
      Conforms schema (.obj members)
  | arr {schema : Schema} {items : List JsonValue} (ht : schema.Typed (.arr items))
      (hlength : ∀ n ∈ schema.minItems, n ≤ items.length)
      (hitems : ∀ s, schema.items = some s → ∀ x ∈ items, Conforms s x) :
      Conforms schema (.arr items)
  | null {schema : Schema} (ht : schema.Typed .null) : Conforms schema .null
  | bool {schema : Schema} {b : Bool} (ht : schema.Typed (.bool b)) : Conforms schema (.bool b)
  | int {schema : Schema} {i : ℤ} (ht : schema.Typed (.int i)) : Conforms schema (.int i)
  | float {schema : Schema} {bits : BitVec 64} (ht : schema.Typed (.float bits)) :
      Conforms schema (.float bits)

/-- A string has no error if it is long enough and matches. -/
theorem stringErrors_eq_nil_iff {schema : Schema} {path s : String} :
    stringErrors schema path s = []
      ↔ (∀ n ∈ schema.minLength, n ≤ s.length) ∧ ∀ p ∈ schema.pattern, p s.toList = true := by
  unfold stringErrors
  rw [List.append_eq_nil_iff]
  apply and_congr
  · cases schema.minLength with
    | none => simp
    | some n => simp
  · cases schema.pattern with
    | none => simp
    | some p => simp

/-- Keys have no error if the required ones are there and no others. -/
theorem keyErrors_eq_nil_iff {schema : Schema} {path : String} {keys : List String} :
    keyErrors schema path keys = []
      ↔ (∀ key ∈ schema.required, key ∈ keys)
        ∧ (schema.additionalProperties = false → ∀ key ∈ keys,
          key ∈ Dict.keys schema.properties) := by
  unfold keyErrors
  rw [List.append_eq_nil_iff]
  apply and_congr
  · simp
  · cases schema.additionalProperties with
    | true => simp
    | false => simp

theorem lengthErrors_eq_nil_iff {schema : Schema} {path : String} {length : ℕ} :
    lengthErrors schema path length = [] ↔ ∀ n ∈ schema.minItems, n ≤ length := by
  unfold lengthErrors
  cases schema.minItems with
  | none => simp
  | some n => simp

/-- The check of the type stands before the others. -/
theorem typed_and_of_ite_eq_nil {schema : Schema} {v : JsonValue} {found : List String}
    {path : String} :
    (if schema.Typed v then found else [typeError schema path]) = [] ↔ schema.Typed v ∧
    found = [] := by
  split_ifs with ht <;> simp [ht]

mutual

/-- **The checker decides conformance.** -/
theorem errors_eq_nil_iff (schema : Schema) (path : String) :
    ∀ v : JsonValue, errors schema path v = [] ↔ Conforms schema v
  | .str s => by
      rw [errors, typed_and_of_ite_eq_nil, stringErrors_eq_nil_iff]
      constructor
      · rintro ⟨ht, hlength, hpattern⟩
        exact .str ht hlength hpattern
      · rintro ⟨⟩
        exact ⟨‹_›, ‹_›, ‹_›⟩
  | .obj members => by
      rw [errors, typed_and_of_ite_eq_nil, List.append_eq_nil_iff, keyErrors_eq_nil_iff,
        memberErrors_eq_nil_iff schema.properties path members]
      constructor
      · rintro ⟨ht, ⟨hrequired, hclosed⟩, hmembers⟩
        exact .obj ht hrequired hclosed hmembers
      · rintro ⟨⟩
        exact ⟨‹_›, ⟨‹_›, ‹_›⟩, ‹_›⟩
  | .arr items => by
      rw [errors, typed_and_of_ite_eq_nil, List.append_eq_nil_iff, lengthErrors_eq_nil_iff]
      have hitems : (match schema.items with
          | some itemSchema => itemErrors itemSchema path 0 items
          | none => []) = [] ↔ ∀ s, schema.items = some s → ∀ x ∈ items, Conforms s x := by
        cases schema.items with
        | none => simp
        | some s => simp [itemErrors_eq_nil_iff s path 0 items]
      rw [hitems]
      constructor
      · rintro ⟨ht, hlength, hitems⟩
        exact .arr ht hlength hitems
      · rintro ⟨⟩
        exact ⟨‹_›, ‹_›, ‹_›⟩
  | .null => by
      rw [errors, typed_and_of_ite_eq_nil]
      exact ⟨fun h => .null h.1, fun h => by cases h; exact ⟨‹_›, rfl⟩⟩
  | .bool b => by
      rw [errors, typed_and_of_ite_eq_nil]
      exact ⟨fun h => .bool h.1, fun h => by cases h; exact ⟨‹_›, rfl⟩⟩
  | .int i => by
      rw [errors, typed_and_of_ite_eq_nil]
      exact ⟨fun h => .int h.1, fun h => by cases h; exact ⟨‹_›, rfl⟩⟩
  | .float bits => by
      rw [errors, typed_and_of_ite_eq_nil]
      exact ⟨fun h => .float h.1, fun h => by cases h; exact ⟨‹_›, rfl⟩⟩

/-- Members have no error if each conforms to its property. -/
theorem memberErrors_eq_nil_iff (properties : List (String × Schema)) (path : String) :
    ∀ members : List (String × JsonValue), memberErrors properties path members = []
      ↔ ∀ m ∈ members, ∀ s, Dict.get? properties m.1 = some s → Conforms s m.2
  | [] => by simp [memberErrors]
  | (key, child) :: members => by
      rw [memberErrors, List.append_eq_nil_iff, memberErrors_eq_nil_iff properties path members,
        List.forall_mem_cons]
      apply and_congr _ Iff.rfl
      cases Dict.get? properties key with
      | none => simp
      | some s => simp [errors_eq_nil_iff s (path ++ "." ++ key) child]

/-- Items have no error if each conforms. -/
theorem itemErrors_eq_nil_iff (itemSchema : Schema) (path : String) (index : ℕ) :
    ∀ items : List JsonValue, itemErrors itemSchema path index items = [] ↔ ∀ x ∈ items,
    Conforms itemSchema x
  | [] => by simp [itemErrors]
  | item :: items => by
      rw [itemErrors, List.append_eq_nil_iff,
        itemErrors_eq_nil_iff itemSchema path (index + 1) items,
        errors_eq_nil_iff itemSchema _ item, List.forall_mem_cons]

end

/-! ## Reading a conforming value -/

/-- `value.get(key)` of an object. -/
def member? : JsonValue → String → Option JsonValue
  | .obj members, key => Dict.get? members key
  | _, _ => none

/-- A value that conforms has the type of the schema. -/
theorem Conforms.typed {schema : Schema} {v : JsonValue} (h : Conforms schema v) :
    schema.Typed v := by
  cases h <;> assumption

/-- A value that conforms to a schema of strings is one that matches. -/
theorem Conforms.isStr {schema : Schema} {v : JsonValue} (h : Conforms schema v)
    (ht : schema.types = [.string]) :
    ∃ s, v = .str s ∧ ∀ p ∈ schema.pattern, p s.toList = true := by
  obtain ⟨t, hmem, hok⟩ := h.typed
  rw [ht, List.mem_singleton] at hmem
  subst hmem
  cases h with
  | str ht hlength hpattern => exact ⟨_, rfl, hpattern⟩
  | _ => cases hok

theorem Conforms.isInt {schema : Schema} {v : JsonValue} (h : Conforms schema v)
    (ht : schema.types = [.integer]) :
    ∃ i, v = .int i := by
  obtain ⟨t, hmem, hok⟩ := h.typed
  rw [ht, List.mem_singleton] at hmem
  subst hmem
  cases h with
  | int ht => exact ⟨_, rfl⟩
  | _ => cases hok

theorem Conforms.isArr {schema : Schema} {v : JsonValue} (h : Conforms schema v)
    (ht : schema.types = [.array]) :
    ∃ items, v = .arr items := by
  obtain ⟨t, hmem, hok⟩ := h.typed
  rw [ht, List.mem_singleton] at hmem
  subst hmem
  cases h with
  | arr ht => exact ⟨_, rfl⟩
  | _ => cases hok

/-- A value that conforms to a schema of objects is one. -/
theorem Conforms.isObj {schema : Schema} {v : JsonValue} (h : Conforms schema v)
    (ht : schema.types = [.object]) :
    ∃ members, v = .obj members := by
  obtain ⟨t, hmem, hok⟩ := h.typed
  rw [ht, List.mem_singleton] at hmem
  subst hmem
  cases h with
  | obj ht => exact ⟨_, rfl⟩
  | _ => cases hok

theorem Conforms.isObj_or_null {schema : Schema} {v : JsonValue} (h : Conforms schema v)
    (ht : schema.types = [.object, .null]) : (∃ members, v = .obj members) ∨ v = .null := by
  obtain ⟨t, hmem, hok⟩ := h.typed
  rw [ht] at hmem
  simp only [List.mem_cons, List.not_mem_nil, or_false] at hmem
  rcases hmem with rfl | rfl
  · cases h with
    | obj ht => exact .inl ⟨_, rfl⟩
    | _ => cases hok
  · cases h with
    | null ht => exact .inr rfl
    | _ => cases hok

/-- A required member of a conforming object is there and conforms to its own schema. -/
theorem Conforms.member {schema s : Schema} {members : List (String × JsonValue)}
    (h : Conforms schema (.obj members)) (key : String) (hkey : key ∈ schema.required)
    (hs : Dict.get? schema.properties key = some s) :
    ∃ x, member? (.obj members) key = some x ∧ Conforms s x := by
  cases h with
  | obj ht hrequired hclosed hmembers =>
      obtain ⟨x, hx⟩ := Option.isSome_iff_exists.mp (Dict.get?_isSome_iff.mpr (hrequired key hkey))
      exact ⟨x, hx, hmembers _ (Dict.mem_of_get? hx) s hs⟩

/-- The items of a conforming array conform to their schema. -/
theorem Conforms.item {schema s : Schema} {items : List JsonValue} {x : JsonValue}
    (h : Conforms schema (.arr items))
    (hs : schema.items = some s) (hx : x ∈ items) : Conforms s x := by
  cases h with
  | arr ht hlength hitems => exact hitems s hs x hx

end JsonSchema
