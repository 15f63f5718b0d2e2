/-
# What a result id determines

The texts whose digests are the result ids of an evaluation.

* `material_inj`: the text of a node's id determines the cutoff, the ids of the inputs and the
  definition.
* `iterativeId_inj`: the text of an iterative id determines the run and the member.
* `IdText.unique`: a text belongs to one node.
-/
import EvidenceLab.Runs

namespace CalcEngine

/-! ## Texts of result ids -/

theorem dumpTexts_append_inj {ids ids' : List String} {rest rest' : List Char}
    (h : dumpTexts ids ++ rest = dumpTexts ids' ++ rest') : ids = ids' ∧ rest = rest' := by
  -- after the first text, the list goes on with a comma or ends with a bracket
  have key : ∀ (l l' : List String) (r r' : List Char),
      l.flatMap (fun t => ',' :: ' ' :: Json.strText t) ++ (']' :: r)
        = l'.flatMap (fun t => ',' :: ' ' :: Json.strText t) ++ (']' :: r') → l = l' ∧ r = r' := by
    intro l
    induction l with
    | nil =>
        intro l' r r' h
        cases l' with
        | nil => simpa using h
        | cons t l' => simp at h
    | cons s l ih =>
        intro l' r r' h
        cases l' with
        | nil => simp at h
        | cons t l' =>
            simp only [List.flatMap_cons, List.cons_append, List.append_assoc, List.cons.injEq,
              true_and] at h
            obtain ⟨rfl, htail⟩ := Json.strText_append_inj h
            obtain ⟨rfl, rfl⟩ := ih l' r r' htail
            exact ⟨rfl, rfl⟩
  cases ids with
  | nil =>
      cases ids' with
      | nil => simpa [dumpTexts] using h
      | cons t l' => simp [dumpTexts, Json.strText] at h
  | cons s l =>
      cases ids' with
      | nil => simp [dumpTexts, Json.strText] at h
      | cons t l' =>
          simp only [dumpTexts, List.cons_append, List.append_assoc, List.cons.injEq, true_and,
            List.nil_append] at h
          obtain ⟨rfl, htail⟩ := Json.strText_append_inj h
          obtain ⟨rfl, rfl⟩ := key l l' _ _ htail
          exact ⟨rfl, rfl⟩

/-- A definition is the text of a JSON tree. -/
theorem definition_dump {n : NodeFields} {d : String} (h : n.definition = .ok d) :
    ∃ j : Json, d.toList = j.dump := by
  obtain ⟨j, -, hj⟩ := canonicalJson_ok (inDomain_of_canonicalJson (formed_node _) h)
  rw [NodeFields.definition] at h
  rw [h, Except.ok.injEq] at hj
  exact ⟨j.sortKeys, by rw [hj, String.toList_ofList]⟩

/-- **The text of a result id determines what went into it.** -/
theorem material_inj {c c' : AwareDatetime} {ids ids' : List String} {n n' : NodeFields}
    {d d' s s' : String} (hd : n.definition = .ok d) (hd' : n'.definition = .ok d')
    (h : material c ids d s = material c' ids' d' s') :
    c.wall = c'.wall ∧ ids = ids' ∧ d = d' := by
  obtain ⟨j, hj⟩ := definition_dump hd
  obtain ⟨j', hj'⟩ := definition_dump hd'
  have hstop : ∀ rest, Json.StopsNumber (",\"schema\":\"".toList ++ rest) := by
    intro rest
    simp [Json.StopsNumber]
  have htext : ∀ t t' : List Char, String.ofList t = String.ofList t' → t = t' := by
    intro t t' ht
    rw [← String.toList_ofList (l := t), ht, String.toList_ofList]
  have h1 := List.append_cancel_left (htext _ _ h)
  obtain ⟨hiso, h2⟩ := Json.strText_append_inj h1
  obtain ⟨hids, h3⟩ := dumpTexts_append_inj (List.append_cancel_left h2)
  have h4 := List.append_cancel_left h3
  rw [hj, hj'] at h4
  obtain ⟨hjj, -⟩ := Json.dump_append_inj j j' _ _ (hstop _) (hstop _) h4
  refine ⟨Calendar.isoDateTimeUtc_inj (htext _ _ hiso), hids, ?_⟩
  exact String.toList_injective (by rw [hj, hj', hjj])

/-- The text of an iterative result id. -/
theorem canonicalJson_iterativeId (runId m : String) :
    canonicalJson (iterativeIdPayload runId m) = .ok (String.ofList (Json.dump
      (.obj [("node_id", .str m), ("run_id", .str runId),
        ("schema", .str "fel-calc-iterative-result/v1")]))) := by
  have henc : encode (iterativeIdPayload runId m) = .ok (.obj
      [("schema", .str "fel-calc-iterative-result/v1"), ("run_id", .str runId),
        ("node_id", .str m)]) := rfl
  have hbelow : Json.intsBelow (10 ^ maxIntDigits) (.obj
      [("schema", .str "fel-calc-iterative-result/v1"), ("run_id", .str runId),
        ("node_id", .str m)]) = true := by
    simp [Json.intsBelow, Json.membersBelow]
  have hsort : Json.sortKeys (.obj [("schema", .str "fel-calc-iterative-result/v1"),
      ("run_id", .str runId), ("node_id", .str m)]) = .obj [("node_id", .str m),
        ("run_id", .str runId), ("schema", .str "fel-calc-iterative-result/v1")] := by
    have h1 : ¬ ("run_id" : String) ≤ "node_id" := by decide
    have h2 : ¬ ("schema" : String) ≤ "node_id" := by decide
    have h3 : ¬ ("schema" : String) ≤ "run_id" := by decide
    simp only [Json.sortKeys, Json.sortMembers, List.insertionSort_cons, List.insertionSort_nil,
      List.orderedInsert, h1, h2, h3, if_false]
  rw [canonicalJson, henc, Except.ok_bind, dumps, if_pos hbelow, hsort]

theorem iterativeId_inj {runId runId' m m' t : String}
    (h : canonicalJson (iterativeIdPayload runId m) = .ok t)
    (h' : canonicalJson (iterativeIdPayload runId' m') = .ok t) : runId = runId' ∧ m = m' := by
  rw [canonicalJson_iterativeId, Except.ok.injEq] at h h'
  rw [← h'] at h
  have hdump := Json.dump_injective (String.ofList_injective h)
  simpa [and_comm] using hdump

/-- No text is both the material of a node and the payload of an iterative result. -/
theorem material_ne_iterativeId {c : AwareDatetime} {ids : List String} {d s runId m : String} :
    canonicalJson (iterativeIdPayload runId m) ≠ .ok (material c ids d s) := by
  intro h
  rw [canonicalJson_iterativeId, Except.ok.injEq] at h
  unfold material at h
  have hcut : "\x7b\"cutoff\":".toList = '\x7b' :: (Json.strText "cutoff" ++ [':']) := by decide
  have hnode : ∀ x ms, Json.dump (.obj (("node_id", x) :: ms))
      = '\x7b' :: (Json.strText "node_id" ++ ':' :: (Json.dump x ++ Json.dumpMembers false ms
        ++ ['\x7d'])) := by
    intro x ms
    simp [Json.dump, Json.dumpMembers]
  have htext := String.ofList_injective h
  rw [hcut, hnode] at htext
  simp only [List.cons_append, List.append_assoc, List.cons.injEq, true_and] at htext
  have hkeys := (Json.strText_append_inj htext).1
  exact absurd hkeys (by decide)

/-- A text belongs to one node. -/
theorem IdText.unique {g g' : ModelGraph} {c c' : AwareDatetime} {i j t : String}
    (h : IdText g c i t) (h' : IdText g' c' j t) : i = j := by
  rcases h with ⟨n, -, rfl, ids, d, hd, rfl⟩ | ⟨runId, h⟩
  · rcases h' with ⟨n', -, rfl, ids', d', hd', heq⟩ | ⟨runId', h'⟩
    · obtain ⟨-, -, rfl⟩ := material_inj hd hd' heq
      exact (equiv_of_definition_eq hd hd').1
    · exact absurd h' material_ne_iterativeId
  · rcases h' with ⟨n', -, rfl, ids', d', hd', rfl⟩ | ⟨runId', h'⟩
    · exact absurd h material_ne_iterativeId
    · exact (iterativeId_inj h h').2

end CalcEngine
