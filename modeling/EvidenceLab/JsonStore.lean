/-
# JSON documents in a binary store

A binary JSON column keeps the members of an object under its own order: shorter keys first, and
keys of one length by their text.  A document that is written and read back differs from the written
one in the order of its members only, so their sorted forms agree (`Json.sortKeys_stored`).
-/
import EvidenceLab.JsonText

namespace Json

/-- The order of keys in the store. -/
def storeLe (a b : String) : Bool :=
  decide (a.utf8ByteSize < b.utf8ByteSize) || (a.utf8ByteSize == b.utf8ByteSize && decide (a ≤ b))

mutual

/-- The document as it is read back. -/
def stored : Json → Json
  | .null => .null
  | .bool b => .bool b
  | .int i => .int i
  | .str s => .str s
  | .arr xs => .arr (storedItems xs)
  | .obj members => .obj ((storedMembers members).insertionSort fun a b => storeLe a.1 b.1)

/-- `stored` on the elements of an array. -/
def storedItems : List Json → List Json
  | [] => []
  | x :: xs => stored x :: storedItems xs

/-- `stored` on the values of an object. -/
def storedMembers : List (String × Json) → List (String × Json)
  | [] => []
  | (k, x) :: members => (k, stored x) :: storedMembers members

end

mutual

/-- No object of the tree has a key twice. -/
def keysUnique : Json → Bool
  | .arr xs => itemsUnique xs
  | .obj members => decide (members.map Prod.fst).Nodup && membersUnique members
  | _ => true

/-- `keysUnique` for the elements of an array. -/
def itemsUnique : List Json → Bool
  | [] => true
  | x :: xs => keysUnique x && itemsUnique xs

/-- `keysUnique` for the values of an object. -/
def membersUnique : List (String × Json) → Bool
  | [] => true
  | (_, x) :: members => keysUnique x && membersUnique members

end

theorem storedMembers_keys (ms : List (String × Json)) :
    (storedMembers ms).map Prod.fst = ms.map Prod.fst := by
  induction ms with
  | nil => rfl
  | cons m ms ih => rw [storedMembers, List.map_cons, List.map_cons, ih]

mutual

/-- **What is read back has the sorted form of what was written.** -/
theorem sortKeys_stored : ∀ j : Json, j.keysUnique = true → sortKeys (stored j) = sortKeys j
  | .null, _ => rfl
  | .bool _, _ => rfl
  | .int _, _ => rfl
  | .str _, _ => rfl
  | .arr xs, h => by
      rw [stored, sortKeys, sortKeys, sortItems_storedItems xs (by simpa [keysUnique] using h)]
  | .obj members, h => by
      rw [keysUnique, Bool.and_eq_true, decide_eq_true_eq] at h
      have hperm : ((storedMembers members).insertionSort fun a b => storeLe a.1 b.1).Perm
          (storedMembers members) := List.perm_insertionSort _ _
      have hnodup : ((storedMembers members).map Prod.fst).Nodup := by
        rw [storedMembers_keys]
        exact h.1
      have hsorted : sortMembers (storedMembers members) = sortMembers members :=
        sortMembers_storedMembers members h.2
      rw [stored, sortKeys_obj_eq_iff ((hperm.map Prod.fst).nodup_iff.mpr hnodup), ← hsorted,
        sortMembers_eq_map, sortMembers_eq_map]
      exact hperm.map _

theorem sortItems_storedItems : ∀ xs : List Json, itemsUnique xs = true →
    sortItems (storedItems xs) = sortItems xs
  | [], _ => rfl
  | x :: xs, h => by
      rw [itemsUnique, Bool.and_eq_true] at h
      rw [storedItems, sortItems, sortItems, sortKeys_stored x h.1, sortItems_storedItems xs h.2]

theorem sortMembers_storedMembers : ∀ ms : List (String × Json), membersUnique ms = true →
    sortMembers (storedMembers ms) = sortMembers ms
  | [], _ => rfl
  | (k, x) :: ms, h => by
      rw [membersUnique, Bool.and_eq_true] at h
      rw [storedMembers, sortMembers, sortMembers, sortKeys_stored x h.1,
        sortMembers_storedMembers ms h.2]

end

end Json
