/-
# Tabulated functions

A function on texts that is known on finitely many inputs, made total and injective: an input
outside the table is sent to itself behind a mark that no tabulated value has.
-/
import EvidenceLab.Dict

/-- The function of the table, and the marked input elsewhere. -/
def tabulated (table : Dict String String) (text : String) : String :=
  (table.get? text).getD ("?" ++ text)

theorem tabulated_of_get? {table : Dict String String} {text value : String}
    (h : table.get? text = some value) : tabulated table text = value := by
  rw [tabulated, h, Option.getD_some]

theorem head?_marked (text : String) : ("?" ++ text).toList.head? = some '?' := by
  rw [String.toList_append]
  rfl

/-- A table with distinct unmarked values is injective. -/
theorem tabulated_injective {table : Dict String String} (hvalues : (table.map Prod.snd).Nodup)
    (hunmarked : ∀ entry ∈ table, entry.2.toList.head? ≠ some '?') :
    Function.Injective (tabulated table) := by
  intro s t h
  unfold tabulated at h
  cases hs : table.get? s with
  | some v =>
      cases ht : table.get? t with
      | some w =>
          rw [hs, ht, Option.getD_some, Option.getD_some] at h
          exact congrArg Prod.fst
            (List.inj_on_of_nodup_map hvalues (Dict.mem_of_get? hs) (Dict.mem_of_get? ht) h)
      | none =>
          rw [hs, ht, Option.getD_some, Option.getD_none] at h
          exact absurd (h ▸ head?_marked t) (hunmarked (s, v) (Dict.mem_of_get? hs))
  | none =>
      cases ht : table.get? t with
      | some w =>
          rw [hs, ht, Option.getD_some, Option.getD_none] at h
          exact absurd (h ▸ head?_marked s) (hunmarked (t, w) (Dict.mem_of_get? ht))
      | none =>
          rw [hs, ht, Option.getD_none, Option.getD_none] at h
          have := String.toList_inj.mpr h
          rw [String.toList_append, String.toList_append] at this
          exact String.toList_inj.mp (List.append_cancel_left this)
