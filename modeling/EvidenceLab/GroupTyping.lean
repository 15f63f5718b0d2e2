/-
# Typing of one iteration group

The sweeps of a cyclic component keep the units of its members, and everything the iteration looks
up is there.

* `Settled`: a value the encoder accepts or refuses with a `CanonicalizationError`; the record of an
  iteration is one.
* `jacobi_yields`: the invariant of the sweeps, by induction on the number left.
* **`iterate_yields`**: soundness of one group.
-/
import EvidenceLab.NodeTyping

namespace CalcEngine

open Decimal (numDigits)

/-! ## Values the encoder accepts or refuses by type -/

/-- A value the encoder accepts or refuses with a `CanonicalizationError`. -/
def Settled (v : PyValue) : Prop :=
  InDomain v ∨ ∃ message, encode v = .error (.canonicalization message)

theorem settled_decimal (d : Decimal) : Settled (.decimal d) := by
  by_cases h : Encodable d
  · exact Or.inl h
  · right
    rw [encode, encodeDecimal]
    have hmax : maxExponent = 250000 := rfl
    split_ifs with h1 h2
    · exact ⟨_, rfl⟩
    · refine absurd ⟨not_lt.mp h1, ?_, ?_⟩ h
      · omega
      · omega
    · exact ⟨_, rfl⟩

/-- Encodings of settled items succeed, or fail by the encoder's own error. -/
theorem settled_items {items : List PyValue} (h : ∀ v ∈ items, Settled v) :
    ItemsInDomain items ∨ ∃ message, encodeItems items = .error (.canonicalization message) := by
  induction items with
  | nil => exact Or.inl trivial
  | cons v items ih =>
      rw [List.forall_mem_cons] at h
      rw [encodeItems, ItemsInDomain]
      rcases h.1 with hv | ⟨message, hv⟩
      · obtain ⟨j, hj, -⟩ := encode_ok v hv
        rw [hj, Except.ok_bind]
        rcases ih h.2 with hs | ⟨message, hs⟩
        · exact Or.inl ⟨hv, hs⟩
        · exact Or.inr ⟨message, by rw [hs]; rfl⟩
      · exact Or.inr ⟨message, by rw [hv]; rfl⟩

theorem settled_seq {b : Bool} {items : List PyValue} (h : ∀ v ∈ items, Settled v) :
    Settled (.seq b items) := by
  rw [Settled, encode, InDomain]
  rcases settled_items h with hs | ⟨message, hs⟩
  · exact Or.inl hs
  · exact Or.inr ⟨message, by rw [hs]; rfl⟩

/-- A class without omittable fields. -/
theorem settled_dataclass {c : EngineClass} {fs : List PyValue} (homit : c.omittableFields = [])
    (hlen : fs.length = c.plainFields.length) (h : ∀ v ∈ fs, Settled v) :
    Settled (.dataclass c fs) := by
  have key : ∀ names : List String, fs.length = names.length →
      FieldsInDomain fs (names.map (fun n => ⟨n, none⟩)) ∨ ∃ message,
        encodeFields fs (names.map (fun n => ⟨n, none⟩)) = .error (.canonicalization message) := by
    clear hlen
    induction fs with
    | nil =>
        intro names hn
        obtain rfl : names = [] := List.length_eq_zero_iff.mp hn.symm
        exact Or.inl trivial
    | cons v fs ih =>
        intro names hn
        rw [List.forall_mem_cons] at h
        cases names with
        | nil => simp at hn
        | cons name names =>
            rw [List.map_cons, FieldsInDomain, encodeFields]
            have homits : FieldSpec.omits ⟨name, none⟩ v = false := rfl
            rw [homits]
            simp only [Bool.false_eq_true, if_false]
            rcases h.1 with hv | ⟨message, hv⟩
            · obtain ⟨j, hj, -⟩ := encode_ok v hv
              rw [hj, Except.ok_bind]
              rcases ih h.2 names (by simpa using hn) with hs | ⟨message, hs⟩
              · exact Or.inl ⟨hv, by simp, hs⟩
              · exact Or.inr ⟨message, by rw [hs]; rfl⟩
            · exact Or.inr ⟨message, by rw [hv]; rfl⟩
  rw [Settled, encode, InDomain, EngineClass.fields, homit, List.map_nil, List.append_nil]
  rcases key _ hlen with hs | ⟨message, hs⟩
  · exact Or.inl hs
  · exact Or.inr ⟨message, by rw [hs]; rfl⟩

/-- A dictionary with distinct keys outside the reserved prefix. -/
theorem settled_dict {items : List (String × PyValue)} (hnodup : (items.map Prod.fst).Nodup)
    (hkeys : ∀ kv ∈ items, reservedKey kv.1 = false) (h : ∀ kv ∈ items, Settled kv.2) :
    Settled (.dict (items.map (fun kv => (.str kv.1, kv.2)))) := by
  have key : MembersInDomain (items.map (fun kv => (DictKey.str kv.1, kv.2))) ∨ ∃ message,
      encodeMembers (items.map (fun kv => (DictKey.str kv.1, kv.2)))
        = .error (.canonicalization message) := by
    clear hnodup
    induction items with
    | nil => exact Or.inl trivial
    | cons kv items ih =>
        rw [List.forall_mem_cons] at h hkeys
        rw [List.map_cons, MembersInDomain, encodeMembers, hkeys.1]
        simp only [Bool.false_eq_true, if_false]
        rcases h.1 with hv | ⟨message, hv⟩
        · obtain ⟨j, hj, -⟩ := encode_ok kv.2 hv
          rw [hj, Except.ok_bind]
          rcases ih hkeys.2 h.2 with hs | ⟨message, hs⟩
          · exact Or.inl ⟨⟨kv.1, rfl, hkeys.1⟩, hv, hs⟩
          · exact Or.inr ⟨message, by rw [hs]; rfl⟩
        · exact Or.inr ⟨message, by rw [hv]; rfl⟩
  rw [Settled, encode, InDomain]
  rcases key with hs | ⟨message, hs⟩
  · refine Or.inl ⟨?_, hs⟩
    rw [List.map_map]
    have hinj : Function.Injective DictKey.str := fun a b hab => by simpa using hab
    simpa [Function.comp_def, List.map_map] using hnodup.map hinj
  · exact Or.inr ⟨message, by rw [hs]; rfl⟩

theorem settled_str (s : String) : Settled (.str s) := Or.inl trivial

theorem settled_strs (l : List String) : Settled (strs l) := by
  apply settled_seq
  intro v hv
  obtain ⟨s, -, rfl⟩ := List.mem_map.mp hv
  exact settled_str s

/-- A tuple of settled values is settled. -/
theorem settled_tuple_map {α : Type} {f : α → PyValue} {l : List α} (h : ∀ a ∈ l, Settled (f a)) :
    Settled (.tuple (l.map f)) := by
  apply settled_seq
  intro v hv
  obtain ⟨a, ha, rfl⟩ := List.mem_map.mp hv
  exact h a ha

theorem settled_strPair (p : String × String) : Settled (strPair p) := by
  apply settled_seq
  intro v hv
  simp only [List.mem_cons, List.not_mem_nil, or_false] at hv
  rcases hv with rfl | rfl <;> exact settled_str _

theorem settled_decimalPair (p : String × Decimal) : Settled (decimalPair p) := by
  apply settled_seq
  intro v hv
  simp only [List.mem_cons, List.not_mem_nil, or_false] at hv
  rcases hv with rfl | rfl
  · exact settled_str _
  · exact settled_decimal _

/-- Units are encoded or refused by the encoder. -/
theorem settled_unit (u : TypedUnit) : Settled u.toPy := Or.inl (inDomain_unit u)

/-- Short integers are encoded. -/
theorem settled_int {i : ℤ} (h : i.natAbs < 10 ^ maxIntDigits) : Settled (.int i) := Or.inl h

/-- Periods are encoded. -/
theorem settled_period (p : FiscalPeriod) : Settled p.toPy := Or.inl (inDomain_period p)

/-- Quantities are encoded or refused by the encoder. -/
theorem settled_quantity (q : Quantity) : Settled q.toPy := by
  apply settled_dataclass rfl rfl
  intro v hv
  simp only [List.mem_cons, List.not_mem_nil, or_false] at hv
  rcases hv with rfl | rfl
  · exact settled_decimal _
  · exact settled_unit _

/-- Groups are encoded or refused by the encoder. -/
theorem settled_group (g : IterationGroup) : Settled g.toPy := by
  have hiter := g.ok.iterations.2
  apply settled_dataclass rfl rfl
  intro v hv
  simp only [List.mem_cons, List.not_mem_nil, or_false] at hv
  rcases hv with rfl | rfl | rfl | rfl | rfl | rfl
  · exact settled_str _
  · exact settled_strs _
  · exact settled_tuple_map (fun p _ => settled_strPair p)
  · exact settled_tuple_map (fun p _ => settled_decimalPair p)
  · exact settled_decimal _
  · exact settled_int (natAbs_lt_of_lt (by rw [maxIterations] at hiter; omega))

/-- The payload of an iteration record. -/
theorem settled_payload {r : IterationRun} {g : IterationGroup}
    (hpolicy : r.policy = g.toGroupFields)
    (hcutoff : r.cutoff.UtcRepresentable) (hiter : r.iterations < 10000) : Settled r.payload := by
  have hitems : r.payload = .dict (([("schema", .str "fel-calc-iteration/v1"),
      ("algorithm", .str iterationAlgorithm),
      ("policy", r.policy.toPy),
      ("member_definitions", .tuple (r.memberDefinitions.map strPair)),
      ("dependencies", .tuple (r.dependencies.map (fun d => .tuple [.str d.1, strs d.2]))),
      ("seed_result_ids",
        .tuple (r.seedResultIds.map (fun s => .tuple [.str s.1, .str s.2.1, .str s.2.2]))),
      ("external_result_ids", .tuple (r.externalResultIds.map strPair)),
      ("cutoff", .datetime r.cutoff),
      ("iterations", .int r.iterations),
      ("values", .tuple (r.values.map (fun v => .tuple [.str v.1, v.2.1.toPy, v.2.2.toPy]))),
      ("residuals", .tuple (r.residuals.map decimalPair))] : List (String × PyValue)).map
        (fun kv => (.str kv.1, kv.2))) := rfl
  rw [hitems]
  apply settled_dict
  · simp only [List.map_cons, List.map_nil]
    decide
  · simp only [List.forall_mem_cons]
    exact ⟨by decide, by decide, by decide, by decide, by decide, by decide, by decide, by decide,
      by decide, by decide, by decide, by simp⟩
  · simp only [List.forall_mem_cons, List.not_mem_nil, false_imp_iff, implies_true, and_true]
    refine ⟨settled_str _, settled_str _, hpolicy ▸ settled_group g,
      settled_tuple_map (fun p _ => settled_strPair p), settled_tuple_map ?_, settled_tuple_map ?_,
      settled_tuple_map (fun p _ => settled_strPair p), Or.inl hcutoff,
      settled_int (natAbs_lt_of_lt hiter), settled_tuple_map ?_,
      settled_tuple_map (fun p _ => settled_decimalPair p)⟩
    · intro d _
      apply settled_seq
      simp only [List.forall_mem_cons, List.not_mem_nil, false_imp_iff, implies_true, and_true]
      exact ⟨settled_str _, settled_strs _⟩
    · intro s _
      apply settled_seq
      simp only [List.forall_mem_cons, List.not_mem_nil, false_imp_iff, implies_true, and_true]
      exact ⟨settled_str _, settled_str _, settled_str _⟩
    · intro v _
      apply settled_seq
      simp only [List.forall_mem_cons, List.not_mem_nil, false_imp_iff, implies_true, and_true]
      exact ⟨settled_str _, settled_quantity _, settled_period _⟩

/-- A tuple is in the domain if its items are. -/
theorem inDomain_tuple_map {α : Type} {f : α → PyValue} {l : List α} :
    InDomain (.tuple (l.map f)) ↔ ∀ a ∈ l, InDomain (f a) := by
  rw [PyValue.tuple, InDomain, itemsInDomain_iff]
  simp

theorem inDomain_strPair (p : String × String) : InDomain (strPair p) := ⟨trivial, trivial, trivial⟩

theorem inDomain_decimalPair (p : String × Decimal) : InDomain (decimalPair p) ↔ Encodable p.2 :=
  ⟨fun h => h.2.1, fun h => ⟨trivial, h, trivial⟩⟩

/-- A quantity is in the domain if its number can be encoded. -/
theorem inDomain_quantity (q : Quantity) : InDomain q.toPy ↔ Encodable q.value := by
  rw [Quantity.toPy, inDomain_dataclass rfl rfl]
  simp [inDomain_unit, InDomain]

/-- Groups are in the domain of the encoder. -/
theorem inDomain_group (g : IterationGroup) : InDomain g.toGroupFields.toPy := by
  have hiter := g.ok.iterations.2
  rw [maxIterations] at hiter
  rw [GroupFields.toPy, inDomain_dataclass rfl rfl]
  simp only [List.forall_mem_cons, List.not_mem_nil, false_imp_iff, implies_true, and_true]
  exact ⟨trivial, inDomain_strs _, inDomain_tuple_map.mpr fun p _ => inDomain_strPair p,
    inDomain_tuple_map.mpr fun t ht => (inDomain_decimalPair t).mpr (g.ok.absolute t ht),
    g.ok.relative,
    natAbs_lt_of_lt (by omega)⟩

/-- The encoder accepts a record exactly when it accepts its numbers. -/
theorem inDomain_payload {r : IterationRun} {g : IterationGroup}
    (hpolicy : r.policy = g.toGroupFields)
    (hcutoff : r.cutoff.UtcRepresentable) (hiter : r.iterations < 10000) :
    InDomain r.payload ↔ (∀ v ∈ r.values, Encodable v.2.1.value) ∧ ∀ t ∈ r.residuals,
    Encodable t.2 := by
  have hkeys : ∀ s : String, (∃ s', DictKey.str s = .str s' ∧ reservedKey s' = false) ↔
      reservedKey s = false := by
    intro s
    simp
  have hvalue : ∀ v : String × Quantity × FiscalPeriod,
      InDomain (.tuple [.str v.1, v.2.1.toPy, v.2.2.toPy]) ↔ Encodable v.2.1.value :=
    fun v => ⟨fun h => (inDomain_quantity _).mp h.2.1,
      fun h => ⟨trivial, (inDomain_quantity _).mpr h, inDomain_period _, trivial⟩⟩
  have hdep : ∀ d : String × List String, InDomain (.tuple [.str d.1, strs d.2]) :=
    fun d => ⟨trivial, inDomain_strs _, trivial⟩
  have hseed :
      ∀ s : String × String × String, InDomain (.tuple [.str s.1, .str s.2.1, .str s.2.2]) :=
    fun s => ⟨trivial, trivial, trivial, trivial⟩
  have hreserved : reservedKey "schema" = false ∧ reservedKey "algorithm" = false ∧
      reservedKey "policy" = false
      ∧ reservedKey "member_definitions" = false ∧ reservedKey "dependencies" = false
      ∧ reservedKey "seed_result_ids" = false ∧ reservedKey "external_result_ids" = false
      ∧ reservedKey "cutoff" = false ∧ reservedKey "iterations" = false
        ∧ reservedKey "values" = false
      ∧ reservedKey "residuals" = false := by decide
  have hpolicy' : InDomain r.policy.toPy := hpolicy ▸ inDomain_group g
  have hiter' : (r.iterations : ℤ).natAbs < 10 ^ maxIntDigits := natAbs_lt_of_lt hiter
  obtain ⟨h1, h2, h3, h4, h5, h6, h7, h8, h9, h10, h11⟩ := hreserved
  have hnodup : ([DictKey.str "schema", .str "algorithm", .str "policy", .str "member_definitions",
      .str "dependencies", .str "seed_result_ids", .str "external_result_ids", .str "cutoff",
      .str "iterations", .str "values", .str "residuals"] : List DictKey).Nodup := by decide
  rw [IterationRun.payload, InDomain]
  simp only [MembersInDomain, List.map_cons, List.map_nil, hkeys, inDomain_tuple_map, hvalue,
    inDomain_decimalPair,
    inDomain_strPair, hdep, hseed, h1, h2, h3, h4, h5, h6, h7, h8, h9, h10, h11, hpolicy', hnodup,
    implies_true, true_and,
    and_true]
  simp only [InDomain, hcutoff, hiter', true_and]

/-! ## References of a group -/

section

variable {g : ModelGraph} {grp : IterationGroup}

/-- The references of a node are found under its identifier. -/
theorem refsOf_node (hg : g.WellFormed) {n : Node} (hn : n ∈ g.nodes) :
    refsOf g.nodes n.nodeId = n.refs := refsOf_of_mem hg.refs.ids_nodup hn

/-- The node of a member. -/
theorem member_node (hg : g.WellFormed) (hgrp : grp ∈ g.iterationGroups) {m : String}
    (hm : m ∈ grp.members) : ∃ n ∈ g.nodes, n.nodeId = m ∧ n.body.isArithmetic = true :=
  hg.conditions.arithmetic grp hgrp m hm

/-- The external references of a group. -/
theorem externalRefs_spec (hg : g.WellFormed) (hgrp : grp ∈ g.iterationGroups) :
    ∃ ids, externalRefs g.byId grp = .ok ids ∧ ids.Nodup
      ∧ ∀ x, x ∈ ids ↔ x ∉ grp.members ∧ ∃ m ∈ grp.members, x ∈ refsOf g.nodes m := by
  obtain ⟨refs, hrefs⟩ : ∃ refs, grp.members.mapM (fun member => do
      let node ← lookup g.byId member
      return node.refs) = .ok refs := by
    apply exists_mapM
    intro m hm
    obtain ⟨n, hn, hid, -⟩ := member_node hg hgrp hm
    exact ⟨n.refs, by rw [lookup_eq_ok_iff.mpr (hg.byId.mpr ⟨hn, hid⟩)]; rfl⟩
  refine ⟨_, by rw [externalRefs, hrefs]; rfl, ?_, ?_⟩
  · exact (List.perm_insertionSort _ _).nodup_iff.mpr (Dict.nodup_fromKeys _)
  · intro x
    rw [(List.perm_insertionSort _ _).mem_iff, Dict.mem_fromKeys, List.mem_filter,
      decide_eq_true_eq, List.mem_flatten, and_comm]
    have hall := Except.mapM_eq_ok_iff.mp hrefs
    have hnode : ∀ {m : String} {l : List String}, m ∈ grp.members →
        (do let node ← lookup g.byId m; return node.refs : Except EngineError _) = .ok l →
        refsOf g.nodes m = l := by
      intro m l _ hml
      obtain ⟨n, hn, rfl⟩ := bind_return_eq_ok_iff.mp hml
      obtain ⟨hmem, rfl⟩ := hg.byId.mp (lookup_eq_ok_iff.mp hn)
      exact refsOf_node hg hmem
    constructor
    · rintro ⟨hx, l, hl, hxl⟩
      obtain ⟨m, hm, hml⟩ := mem_of_forall₂_left hall hl
      exact ⟨hx, m, hm, by rwa [hnode hm hml]⟩
    · rintro ⟨hx, m, hm, hxm⟩
      obtain ⟨l, hl, hml⟩ := mem_of_forall₂_right hall hm
      exact ⟨hx, l, hl, by rwa [hnode hm hml] at hxm⟩

/-- The parents of a group are its external inputs and the nodes of its seeds. -/
theorem mem_parentIds {externalIds : List String} {x : String} :
    x ∈ parentIds externalIds grp ↔ x ∈ externalIds ∨ ∃ s ∈ grp.seeds, s.2 = x := by
  rw [parentIds, (List.perm_insertionSort _ _).mem_iff, Dict.mem_fromKeys, List.mem_append,
    List.mem_map]

theorem seeds_ne_nil : grp.seeds ≠ [] := by
  intro h
  have := grp.ok.seeds_keys
  rw [h, List.map_nil] at this
  exact grp.ok.members_ne this.symm

/-- A seed has the unit of its member and is no member. -/
theorem seed_unit (hg : g.WellFormed) (hgrp : grp ∈ g.iterationGroups) {p : String × String}
    (hp : p ∈ grp.seeds) {n s : Node} (hn : n ∈ g.nodes) (hid : n.nodeId = p.1) (hs : s ∈ g.nodes)
    (hsid : s.nodeId = p.2) : s.unit = n.unit := by
  obtain ⟨-, m, hm, s', hs', hmid, hsid', hunit, -⟩ := hg.conditions.seeds grp hgrp p hp
  rw [hg.node_unique hn hm (hid.trans hmid.symm), hg.node_unique hs hs' (hsid.trans hsid'.symm)]
  exact hunit

end

/-! ## Sweeps -/

/-- An environment with a typed quantity for every node of `S`. -/
structure TypedEnv (g : ModelGraph) (S : List String) (env : Dict String Quantity) : Prop where
  has : ∀ n ∈ g.nodes, n.nodeId ∈ S → ∃ q, env.get? n.nodeId = some q ∧ q.Typed n.unit
  digits : ∀ i q, env.get? i = some q → numDigits q.value.coeff ≤ calcContext.prec

section

variable {g : ModelGraph} {grp : IterationGroup} {env : Dict String Quantity}

/-- The inputs of a node, with the units they were checked with. -/
theorem node_inputs (hg : g.WellFormed) {n : Node} (hn : n ∈ g.nodes) :
    ∃ ms : List Node, ms.map (fun m => m.nodeId) = n.refs ∧ (∀ m ∈ ms, m ∈ g.nodes)
      ∧ UnitsOk n ms := by
  obtain ⟨ms, hms, htypes⟩ := hg.types n hn
  refine ⟨ms, ?_, ?_, unitsOk_of_checkNodeTypes htypes⟩
  · rw [← List.forall₂_eq_eq_eq, List.forall₂_map_left_iff]
    exact hms.flip.imp (fun _ _ h => h.2)
  · intro m hm
    obtain ⟨r, -, hmem, -⟩ := mem_of_forall₂_left hms hm
    exact hmem

/-- The values of nodes that are in the environment are typed. -/
theorem lookups_typed {S : List String} (henv : TypedEnv g S env) {ms : List Node}
    (hms : ∀ m ∈ ms, m ∈ g.nodes ∧ m.nodeId ∈ S) :
    ∃ qs, (ms.map (fun m => m.nodeId)).mapM (lookup env) = .ok qs
      ∧ List.Forall₂ Quantity.Typed (ms.map (fun m => m.unit)) qs := by
  induction ms with
  | nil => exact ⟨[], rfl, .nil⟩
  | cons m ms ih =>
      rw [List.forall_mem_cons] at hms
      obtain ⟨q, hq, htyped⟩ := henv.has m hms.1.1 hms.1.2
      obtain ⟨qs, hqs, hall⟩ := ih hms.2
      refine ⟨q :: qs, ?_, .cons htyped hall⟩
      rw [List.map_cons, List.mapM_cons, lookup_eq_ok_iff.mpr hq, Except.ok_bind, hqs]
      rfl

/-- The loop of a sweep is the fold over the quantities it looks up. -/
theorem foldlM_lookup {op : Operator} {refs : List String} {qs : List Quantity}
    (h : refs.mapM (lookup env) = .ok qs) (q : Quantity) :
    refs.foldlM (fun acc ref => do
      let rhs ← lookup env ref
      acc.combine op rhs) q = qs.foldlM (Quantity.combine op) q := by
  rw [Except.mapM_eq_ok_iff] at h
  induction h generalizing q with
  | nil => rfl
  | cons hr _ ih =>
      rw [List.foldlM_cons, List.foldlM_cons, hr, Except.ok_bind]
      cases Quantity.combine op q _ with
      | error e => rfl
      | ok q' => exact ih q'

/-- A member over the values of the last sweep. -/
theorem sweepMember_yields (hg : g.WellFormed) (hgrp : grp ∈ g.iterationGroups) {n : Node}
    (hn : n ∈ g.nodes) (hm : n.nodeId ∈ grp.members) (henv : TypedEnv g n.refs env) :
    (sweepMember g.byId env n.nodeId).Yields (Quantity.Typed n.unit) EngineError.IsArithmetic := by
  obtain ⟨n', hn', hid, harith⟩ := member_node hg hgrp hm
  obtain rfl := hg.node_unique hn' hn hid
  obtain ⟨ms, hrefs, hmem, hunits⟩ := node_inputs hg hn
  rw [sweepMember, lookup_eq_ok_iff.mpr (hg.byId.mpr ⟨hn, rfl⟩), Except.ok_bind]
  unfold UnitsOk at hunits
  unfold NodeFields.refs at hrefs henv
  cases hb : n'.body with
  | expressionFormula ast version grammar =>
      rw [hb] at hunits henv hrefs
      refine evaluateFormula_yields hunits ?_ henv.digits
      intro i _ v hv
      obtain ⟨m, hm', heq⟩ := List.mem_map.mp (Dict.mem_of_get? hv)
      cases heq
      obtain ⟨q, hq, htyped⟩ := henv.has m (hmem m hm')
        (hrefs ▸ List.mem_map.mpr ⟨m, hm', rfl⟩)
      exact ⟨q, hq, htyped.1⟩
  | formula op operands version =>
      rw [hb] at hunits henv hrefs
      have hops : ms.map (fun m => m.nodeId) = operands := hrefs
      obtain ⟨qs, hqs, hall⟩ := lookups_typed henv
        (fun m hm' => ⟨hmem m hm', hrefs ▸ List.mem_map.mpr ⟨m, hm', rfl⟩⟩)
      obtain ⟨q, rest, rfl, hy⟩ := formulaUnit_fold_yields hall hunits
      rw [hops] at hqs
      cases operands with
      | nil => simp at hqs
      | cons first others =>
          rw [List.mapM_cons] at hqs
          obtain ⟨q', hq', hqs⟩ := Except.bind_eq_ok_iff.mp hqs
          obtain ⟨rest', hrest, hqs⟩ := Except.bind_eq_ok_iff.mp hqs
          rw [Except.pure_eq_ok, Except.ok.injEq, List.cons.injEq] at hqs
          obtain ⟨rfl, rfl⟩ := hqs
          simp only [hq', Except.ok_bind, foldlM_lookup hrest]
          exact hy
  | _ => simp [hb, NodeBody.isArithmetic] at harith

/-- An environment is typed if each of its values is. -/
theorem typedEnv_of_forall₂ {l : List String} {d : Dict String Quantity}
    (hl : l.Nodup)
    (h : List.Forall₂ (fun m (p : String × Quantity) => p.1 = m ∧ ∀ n ∈ g.nodes, n.nodeId = m →
      p.2.Typed n.unit) l d) (hnode : ∀ m ∈ l, ∃ n ∈ g.nodes, n.nodeId = m) :
    d.keys = l ∧ TypedEnv g l d := by
  have hkeys : d.keys = l := by
    clear hl hnode
    induction h with
    | nil => rfl
    | cons hp _ ih => rw [Dict.keys, List.map_cons, hp.1]; exact congrArg _ ih
  refine ⟨hkeys, ?_, ?_⟩
  · intro n hn hmem
    obtain ⟨p, hp, hid, htyped⟩ := mem_of_forall₂_right h hmem
    refine ⟨p.2, ?_, htyped n hn rfl⟩
    rw [← hid]
    exact Dict.get?_of_mem (hkeys ▸ hl) hp
  · intro i q hq
    obtain ⟨m, hm, hid, htyped⟩ := mem_of_forall₂_left h (Dict.mem_of_get? hq)
    obtain ⟨n, hn, hnid⟩ := hnode m hm
    exact (htyped n hn hnid).2

/-- One sweep. -/
theorem sweep_yields (hg : g.WellFormed) (hgrp : grp ∈ g.iterationGroups)
    (henv : ∀ n ∈ g.nodes, n.nodeId ∈ grp.members → TypedEnv g n.refs env) :
    (sweep g.byId grp.members env).Yields
      (fun d => d.keys = grp.members ∧ TypedEnv g grp.members d) EngineError.IsArithmetic := by
  have hstep : (sweep g.byId grp.members env).Yields (List.Forall₂
      (fun m (p : String × Quantity) => p.1 = m ∧ ∀ n ∈ g.nodes, n.nodeId = m → p.2.Typed n.unit)
      grp.members) EngineError.IsArithmetic := by
    refine Except.yields_mapM (fun m hm => ?_)
    obtain ⟨n, hn, rfl, -⟩ := member_node hg hgrp hm
    refine Except.Yields.bind (sweepMember_yields hg hgrp hn hm (henv n hn hm)) (fun q _ hq => ?_)
    exact ⟨rfl, fun n' hn' hid => hg.node_unique hn' hn hid ▸ hq⟩
  refine hstep.mono (fun d _ hd => ?_)
  exact typedEnv_of_forall₂ grp.members_nodup hd (fun m hm =>
    (member_node hg hgrp hm).imp (fun n hn => ⟨hn.1, hn.2.1⟩))

/-- The test of convergence raises arithmetic errors only. -/
theorem convergenceOp_yields (x : Except Decimal.Signal Decimal) :
    (convergenceOp x).Yields (fun _ => True) EngineError.IsArithmetic := by
  cases x <;> trivial

theorem get?_of_mem_keys {α : Type} {d : Dict String α} {k : String} (h : k ∈ d.keys) :
    ∃ a, d.get? k = some a :=
  Option.isSome_iff_exists.mp (Dict.get?_isSome_iff.mpr h)

/-- The convergence test raises nothing but arithmetic errors. -/
theorem test_yields {previous current : Dict String Quantity} {acc : Dict String Decimal × Bool}
    (hprev : previous.keys = grp.members) (hcur : current.keys = grp.members) :
    (grp.members.foldlM (testMember grp previous current) acc).Yields (fun _ => True)
      EngineError.IsArithmetic := by
  refine Except.yields_foldlM (fun _ _ => True) ?_ trivial
  intro done m rest acc hl _
  have hm : m ∈ grp.members := by rw [← hl]; simp
  obtain ⟨old, hold⟩ := get?_of_mem_keys (hprev ▸ hm)
  obtain ⟨new, hnew⟩ := get?_of_mem_keys (hcur ▸ hm)
  obtain ⟨tol, htol⟩ : ∃ t, Dict.get? grp.absoluteTolerances m = some t :=
    get?_of_mem_keys (by rw [Dict.keys, grp.ok.tolerances_keys]; exact hm)
  rw [testMember, lookup_eq_ok_iff.mpr hold, Except.ok_bind, lookup_eq_ok_iff.mpr hnew,
    Except.ok_bind]
  refine Except.Yields.bind (convergenceOp_yields _) (fun d _ _ => ?_)
  rw [lookup_eq_ok_iff.mpr htol, Except.ok_bind]
  refine Except.Yields.bind (convergenceOp_yields _) (fun s _ _ => ?_)
  exact Except.Yields.bind (convergenceOp_yields _) (fun t _ _ => trivial)

/-- The environment of a sweep. -/
theorem typedEnv_update (hg : g.WellFormed) {externalIds : List String}
    (hext : ∀ x, x ∈ externalIds ↔ x ∉ grp.members ∧ ∃ m ∈ grp.members, x ∈ refsOf g.nodes m)
    {external previous : Dict String Quantity} (hxkeys : external.keys = externalIds)
    (hx : TypedEnv g externalIds external) (hpkeys : previous.keys = grp.members)
    (hp : TypedEnv g grp.members previous) {n : Node} (hn : n ∈ g.nodes)
    (hm : n.nodeId ∈ grp.members) : TypedEnv g n.refs (external.update previous) := by
  have hupd : external.update previous = external ++ previous := by
    apply Dict.update_of_disjoint
    · rw [hpkeys]
      exact grp.members_nodup
    · intro k hk hkx
      rw [hpkeys] at hk
      rw [hxkeys, hext] at hkx
      exact hkx.1 hk
  rw [hupd]
  constructor
  · intro m hmn href
    rw [Dict.get?_append]
    by_cases hin : m.nodeId ∈ grp.members
    · have hnone : external.get? m.nodeId = none := by
        rw [Dict.get?_eq_none_iff, hxkeys, hext]
        exact fun h => h.1 hin
      rw [hnone, Option.none_or]
      exact hp.has m hmn hin
    · have hmem : m.nodeId ∈ externalIds :=
        (hext _).mpr ⟨hin, n.nodeId, hm, by rw [refsOf_node hg hn]; exact href⟩
      obtain ⟨q, hq, htyped⟩ := hx.has m hmn hmem
      exact ⟨q, by rw [hq]; rfl, htyped⟩
  · intro i q hq
    rw [Dict.get?_append, Option.or_eq_some_iff] at hq
    rcases hq with hq | ⟨-, hq⟩
    · exact hx.digits i q hq
    · exact hp.digits i q hq

/-- **Soundness of the sweeps**, by induction on the number left. -/
theorem jacobi_yields (hg : g.WellFormed) (hgrp : grp ∈ g.iterationGroups)
    {externalIds : List String}
    (hext : ∀ x, x ∈ externalIds ↔ x ∉ grp.members ∧ ∃ m ∈ grp.members, x ∈ refsOf g.nodes m)
    {external : Dict String Quantity} (hxkeys : external.keys = externalIds)
    (hx : TypedEnv g externalIds external) : ∀ (fuel completed : ℕ)
      (previous : Dict String Quantity) (residuals : Dict String Decimal),
      previous.keys = grp.members → TypedEnv g grp.members previous →
      (jacobi g.byId grp external fuel completed previous residuals).Yields
        (fun c => c.iterations ≤ completed + fuel ∧ c.current.keys = grp.members
          ∧ TypedEnv g grp.members c.current) (SoundError g)
  | 0, completed, previous, residuals, _, _ => trivial
  | fuel + 1, completed, previous, residuals, hpkeys, hp => by
      rw [jacobi]
      have hsweep := sweep_yields hg hgrp (fun n hn hm =>
        typedEnv_update hg hext hxkeys hx hpkeys hp hn hm)
      refine Except.Yields.bind (hsweep.weaken soundError_of_isArithmetic)
        (fun current _ hcur => ?_)
      refine Except.Yields.bind ((test_yields hpkeys hcur.1).weaken soundError_of_isArithmetic)
        (fun acc _ _ => ?_)
      obtain ⟨residuals', converged⟩ := acc
      simp only
      split_ifs
      · exact ⟨by simp only; omega, hcur.1, hcur.2⟩
      · refine (jacobi_yields hg hgrp hext hxkeys hx fuel (completed + 1) current residuals' hcur.1
          hcur.2).mono (fun c _ hc => ⟨?_, hc.2⟩)
        have := hc.1
        omega

end

/-! ## One group -/

section

variable {sha : String → String} {g : ModelGraph} {grp : IterationGroup}
  {R : Dict String CalcResult} {cutoff : AwareDatetime}

/-- Results that have the types of their nodes. -/
def TypedResults (g : ModelGraph) (R : Dict String CalcResult) : Prop :=
  ∀ i r, R.get? i = some r → ∃ n ∈ g.nodes, n.nodeId = i ∧ TypedResult n r

/-- A result in the table is that of a node, with its unit. -/
theorem TypedResults.typed (hg : g.WellFormed) (hR : TypedResults g R) {n : Node} (hn : n ∈ g.nodes)
    {r : CalcResult} (hr : R.get? n.nodeId = some r) : TypedResult n r := by
  obtain ⟨m, hm, hid, htyped⟩ := hR _ r hr
  rwa [hg.node_unique hm hn hid] at htyped

/-- The quantities of results, by node. -/
theorem quantities_typed (hg : g.WellFormed) (hR : TypedResults g R) {ids : List String}
    (hnodup : ids.Nodup) (hkeys : ∀ i ∈ ids, i ∈ R.keys) :
    ∃ d : Dict String Quantity, ids.mapM (fun i => do
      let r ← lookup R i
      return (i, r.quantity)) = .ok d ∧ d.keys = ids ∧ TypedEnv g ids d := by
  have hall : ∀ i ∈ ids, ∃ r, R.get? i = some r := fun i hi => get?_of_mem_keys (hkeys i hi)
  obtain ⟨d, hd⟩ : ∃ d, ids.mapM (fun i => do
      let r ← lookup R i
      return (i, r.quantity)) = .ok d := by
    apply exists_mapM
    intro i hi
    obtain ⟨r, hr⟩ := hall i hi
    exact ⟨(i, r.quantity), by rw [lookup_eq_ok_iff.mpr hr]; rfl⟩
  refine ⟨d, hd, ?_⟩
  apply typedEnv_of_forall₂ hnodup
  · refine (Except.mapM_eq_ok_iff.mp hd).imp ?_
    intro i p hp
    obtain ⟨r, hr, rfl⟩ := bind_return_eq_ok_iff.mp hp
    refine ⟨rfl, ?_⟩
    rintro n hn rfl
    exact (hR.typed hg hn (lookup_eq_ok_iff.mp hr)).typed
  · intro i hi
    obtain ⟨r, hr⟩ := hall i hi
    obtain ⟨n, hn, hid, -⟩ := hR i r hr
    exact ⟨n, hn, hid⟩

/-- The seeds of a group as the first values of its members. -/
theorem seeds_typed (hg : g.WellFormed) (hgrp : grp ∈ g.iterationGroups) (hR : TypedResults g R)
    (hkeys : ∀ s ∈ grp.seeds, s.2 ∈ R.keys) :
    ∃ d : Dict String Quantity, grp.seeds.mapM (fun s => do
      let r ← lookup R s.2
      return (s.1, r.quantity)) = .ok d ∧ d.keys = grp.members ∧ TypedEnv g grp.members d := by
  have hall : ∀ s ∈ grp.seeds, ∃ r, R.get? s.2 = some r := fun s hs => get?_of_mem_keys (hkeys s hs)
  obtain ⟨d, hd⟩ : ∃ d, grp.seeds.mapM (fun s => do
      let r ← lookup R s.2
      return (s.1, r.quantity)) = .ok d := by
    apply exists_mapM
    intro s hs
    obtain ⟨r, hr⟩ := hall s hs
    exact ⟨(s.1, r.quantity), by rw [lookup_eq_ok_iff.mpr hr]; rfl⟩
  refine ⟨d, hd, ?_⟩
  have hkeys' := grp.ok.seeds_keys
  have hforall : List.Forall₂ (fun m (p : String × Quantity) => p.1 = m ∧ ∀ n ∈ g.nodes,
      n.nodeId = m → p.2.Typed n.unit) grp.members d := by
    rw [← hkeys', List.forall₂_map_left_iff]
    have hmem := List.forall₂_iff_zip.mp (Except.mapM_eq_ok_iff.mp hd)
    refine List.forall₂_iff_zip.mpr ⟨hmem.1, ?_⟩
    intro s p hsp
    obtain ⟨r, hr, rfl⟩ := bind_return_eq_ok_iff.mp (hmem.2 hsp)
    refine ⟨rfl, ?_⟩
    intro n hn hid
    obtain ⟨m, hm, hmid, htyped⟩ := hR _ r (lookup_eq_ok_iff.mp hr)
    have hunit := seed_unit hg hgrp (List.of_mem_zip hsp).1 hn hid hm hmid
    exact ⟨htyped.unit.trans hunit, htyped.digits⟩
  exact typedEnv_of_forall₂ grp.members_nodup hforall (fun m hm =>
    (member_node hg hgrp hm).imp (fun n hn => ⟨hn.1, hn.2.1⟩))

/-- The record of a converged group. -/
theorem iterationRecord_ok (hg : g.WellFormed) (hgrp : grp ∈ g.iterationGroups)
    {externalIds : List String} (hseeds : ∀ s ∈ grp.seeds, s.2 ∈ R.keys)
    (hext : ∀ i ∈ externalIds, i ∈ R.keys) {c : Converged} (hcur : c.current.keys = grp.members) :
    ∃ record, iterationRecord g grp R cutoff externalIds c = .ok record
      ∧ record.policy = grp.toGroupFields ∧ record.cutoff = cutoff
      ∧ record.iterations = c.iterations ∧ record.residuals.Perm c.residuals
      ∧ ((∀ v ∈ record.values, Encodable v.2.1.value) ↔
        ∀ m q, c.current.get? m = some q → Encodable q.value) := by
  have hnode : ∀ m ∈ grp.members, ∃ n, lookup g.byId m = .ok n ∧ n ∈ g.nodes ∧ n.nodeId = m := by
    intro m hm
    obtain ⟨n, hn, hid, -⟩ := member_node hg hgrp hm
    exact ⟨n, lookup_eq_ok_iff.mpr (hg.byId.mpr ⟨hn, hid⟩), hn, hid⟩
  obtain ⟨definitions, h1⟩ : ∃ ds, grp.members.mapM (fun member => do
      let definition ← lookup g.definitions member
      return (member, definition)) = .ok ds := by
    apply exists_mapM
    intro m hm
    obtain ⟨n, -, hn, rfl⟩ := hnode m hm
    obtain ⟨d, -, hd⟩ := hg.definitions n hn
    exact ⟨_, by rw [lookup_eq_ok_iff.mpr hd]; rfl⟩
  obtain ⟨dependencies, h2⟩ : ∃ ds, grp.members.mapM (fun member => do
      let node ← lookup g.byId member
      return (member, node.refs)) = .ok ds := by
    apply exists_mapM
    intro m hm
    obtain ⟨n, hn, -⟩ := hnode m hm
    exact ⟨_, by rw [hn]; rfl⟩
  obtain ⟨seedIds, h3⟩ : ∃ ds, grp.seeds.mapM (fun s => do
      let r ← lookup R s.2
      return (s.1, s.2, r.resultId)) = .ok ds := by
    apply exists_mapM
    intro s hs
    obtain ⟨r, hr⟩ := get?_of_mem_keys (hseeds s hs)
    exact ⟨_, by rw [lookup_eq_ok_iff.mpr hr]; rfl⟩
  obtain ⟨externalResultIds, h4⟩ : ∃ ds, externalIds.mapM (fun i => do
      let r ← lookup R i
      return (i, r.resultId)) = .ok ds := by
    apply exists_mapM
    intro i hi
    obtain ⟨r, hr⟩ := get?_of_mem_keys (hext i hi)
    exact ⟨_, by rw [lookup_eq_ok_iff.mpr hr]; rfl⟩
  obtain ⟨values, h5⟩ : ∃ ds, grp.members.mapM (fun member => do
      let quantity ← lookup c.current member
      let node ← lookup g.byId member
      return (member, quantity, node.period)) = .ok ds := by
    apply exists_mapM
    intro m hm
    obtain ⟨q, hq⟩ := get?_of_mem_keys (d := c.current) (hcur ▸ hm)
    obtain ⟨n, hn, -⟩ := hnode m hm
    exact ⟨_, by rw [lookup_eq_ok_iff.mpr hq, Except.ok_bind, hn]; rfl⟩
  refine ⟨⟨"", grp.toGroupFields, definitions, dependencies, seedIds, externalResultIds, cutoff,
    c.iterations, values, c.residuals.insertionSort (fun a b => a.1 ≤ b.1)⟩, ?_, rfl, rfl, rfl,
    List.perm_insertionSort _ _, ?_⟩
  · rw [iterationRecord, h1, Except.ok_bind, h2, Except.ok_bind, h3, Except.ok_bind, h4,
      Except.ok_bind, h5, Except.ok_bind]
    rfl
  · -- the values of the record are those of the vector
    have hvalues := Except.mapM_eq_ok_iff.mp h5
    simp only [Except.bind_eq_ok_iff, lookup_eq_ok_iff, Except.pure_eq_ok, Except.ok.injEq]
      at hvalues
    constructor
    · intro h m q hq
      have hm : m ∈ grp.members := hcur ▸ Dict.mem_keys_of_get? hq
      obtain ⟨v, hv, q', hq', n, -, rfl⟩ := mem_of_forall₂_right hvalues hm
      rw [hq, Option.some.injEq] at hq'
      rw [hq']
      exact h _ hv
    · intro h v hv
      obtain ⟨m, -, q, hq, n, -, rfl⟩ := mem_of_forall₂_left hvalues hv
      exact h m q hq

/-- What an iteration reads: the values of the seeds and of the external references. -/
structure IterationInputs (g : ModelGraph) (grp : IterationGroup) (R : Dict String CalcResult) where
  externalIds : List String
  seeds : Dict String Quantity
  external : Dict String Quantity
  externalIds_eq : externalRefs g.byId grp = .ok externalIds
  mem_externalIds : ∀ x, x ∈ externalIds ↔ x ∉ grp.members ∧ ∃ m ∈ grp.members, x ∈ refsOf g.nodes m
  seeds_eq : grp.seeds.mapM (fun s => do
    let r ← lookup R s.2
    return (s.1, r.quantity)) = .ok seeds
  external_eq : externalIds.mapM (fun i => do
    let r ← lookup R i
    return (i, r.quantity)) = .ok external
  seeds_keys : seeds.keys = grp.members
  seeds_typed : TypedEnv g grp.members seeds
  external_keys : external.keys = externalIds
  external_typed : TypedEnv g externalIds external

/-- The results a group is evaluated over: typed, with its references and its seeds. -/
structure Supplied (g : ModelGraph) (grp : IterationGroup) (R : Dict String CalcResult) : Prop where
  typed : TypedResults g R
  refs : ∀ m ∈ grp.members, ∀ x ∈ refsOf g.nodes m, x ∉ grp.members → x ∈ R.keys
  seeds : ∀ s ∈ grp.seeds, s.2 ∈ R.keys

/-- What a group reads from outside has been computed. -/
theorem Supplied.external (hR : Supplied g grp R) {externalIds : List String}
    (hext : ∀ x, x ∈ externalIds ↔ x ∉ grp.members ∧ ∃ m ∈ grp.members, x ∈ refsOf g.nodes m) :
    ∀ i ∈ externalIds, i ∈ R.keys := by
  intro i hi
  obtain ⟨hout, m, hm, href⟩ := (hext i).mp hi
  exact hR.refs m hm i href hout

/-- A group that is supplied has its inputs. -/
theorem exists_iterationInputs (hg : g.WellFormed) (hgrp : grp ∈ g.iterationGroups)
    (hR : Supplied g grp R) : Nonempty (IterationInputs g grp R) := by
  obtain ⟨externalIds, hids, hnodup, hext⟩ := externalRefs_spec hg hgrp
  obtain ⟨seeds, hseeds, hskeys, hstyped⟩ := seeds_typed hg hgrp hR.typed hR.seeds
  obtain ⟨external, hexternal, hekeys, hetyped⟩ :=
    quantities_typed hg hR.typed hnodup (hR.external hext)
  exact ⟨⟨externalIds, seeds, external, hids, hext, hseeds, hexternal, hskeys, hstyped,
    hekeys, hetyped⟩⟩

/-- The parents of a group, when they were available and their lineage. -/
theorem parents_ok (hR : Supplied g grp R) {externalIds : List String}
    (hxkeys : ∀ i ∈ externalIds, i ∈ R.keys) :
    ∃ parents t, (parentIds externalIds grp).mapM (lookup R) = .ok parents ∧
    maxAvailable parents = .ok t
      ∧ Lineage.make ⟨.derived, none, none, none, Dict.fromKeys (parents.map CalcResult.resultId)⟩
        = .ok ⟨.derived, none, none, none, Dict.fromKeys (parents.map CalcResult.resultId)⟩ := by
  obtain ⟨parents, hparents⟩ : ∃ ps, (parentIds externalIds grp).mapM (lookup R) = .ok ps := by
    apply exists_mapM
    intro x hx
    have hmem : x ∈ R.keys := by
      rcases mem_parentIds.mp hx with hx | ⟨s, hs, rfl⟩
      · exact hxkeys x hx
      · exact hR.seeds s hs
    obtain ⟨r, hr⟩ := get?_of_mem_keys hmem
    exact ⟨r, lookup_eq_ok_iff.mpr hr⟩
  have hpall := Except.mapM_eq_ok_iff.mp hparents
  have hne : parents ≠ [] := by
    rintro rfl
    rw [List.forall₂_nil_right_iff] at hpall
    obtain ⟨s, hs⟩ := List.exists_mem_of_ne_nil _ (@seeds_ne_nil grp)
    have : s.2 ∈ parentIds externalIds grp := mem_parentIds.mpr (Or.inr ⟨s, hs, rfl⟩)
    rw [hpall] at this
    exact absurd this List.not_mem_nil
  obtain ⟨t, ht⟩ : ∃ t, maxAvailable parents = .ok t := by
    cases parents with
    | nil => exact absurd rfl hne
    | cons r rs => exact ⟨_, rfl⟩
  refine ⟨parents, t, hparents, ht, derivedLineage_ok ?_ (Dict.nodup_fromKeys _) ?_⟩
  · rw [ne_eq, NodeFields.fromKeys_eq_nil]
    simpa using hne
  · intro i hi
    rw [Dict.mem_fromKeys] at hi
    obtain ⟨r, hr, rfl⟩ := List.mem_map.mp hi
    obtain ⟨x, -, hx⟩ := mem_of_forall₂_left hpall hr
    obtain ⟨n, -, -, hn⟩ := hR.typed x r (lookup_eq_ok_iff.mp hx)
    exact hn.safe

/-- The numbers of a converged group have exponents the encoder accepts. -/
def Converged.Encodable (c : Converged) : Prop :=
  (∀ m q, c.current.get? m = some q → CalcEngine.Encodable q.value) ∧ ∀ t ∈ c.residuals,
  CalcEngine.Encodable t.2

variable (sha) in
/-- **An iteration fails as its sweeps do**, or with the encoding of its record. -/
theorem iterate_cases (hg : g.WellFormed) (hgrp : grp ∈ g.iterationGroups)
    (hcut : cutoff.UtcRepresentable) (hR : Supplied g grp R) (x : IterationInputs g grp R) :
    (∃ e, jacobi g.byId grp x.external grp.maxIterations 0 x.seeds [] = .error e
        ∧ iterate sha g grp R cutoff = .error e)
      ∨ ∃ c, jacobi g.byId grp x.external grp.maxIterations 0 x.seeds [] = .ok c
        ∧ ((c.Encodable ∧ ∃ out, iterate sha g grp R cutoff = .ok out)
          ∨ ¬ c.Encodable ∧ ∃ message,
          iterate sha g grp R cutoff = .error (.canonicalization message)) := by
  have hxkeys := hR.external x.mem_externalIds
  obtain ⟨parents, t, hparents, ht, hlineage⟩ := parents_ok hR hxkeys
  have hy :=
    jacobi_yields hg hgrp x.mem_externalIds x.external_keys x.external_typed grp.maxIterations 0
    x.seeds [] x.seeds_keys x.seeds_typed
  rw [iterate, x.externalIds_eq, Except.ok_bind, hparents, Except.ok_bind, ht, Except.ok_bind]
  simp only [hlineage, Except.ok_bind, x.seeds_eq, x.external_eq]
  -- the error of the sweeps is that of the iteration
  cases hc : jacobi g.byId grp x.external grp.maxIterations 0 x.seeds [] with
  | error e => exact .inl ⟨e, rfl, rfl⟩
  | ok c =>
      rw [hc] at hy
      refine .inr ⟨c, rfl, ?_⟩
      -- a vector that converged is recorded
      obtain ⟨record, hrecord, hpolicy, hrcut, hriter, hresiduals, hvalues⟩ :=
        iterationRecord_ok hg hgrp hR.seeds hxkeys hy.2.1
      have hiter : record.iterations < 10000 := by
        have h1 := grp.ok.iterations.2
        have h2 := hy.1
        rw [maxIterations] at h1
        rw [hriter]
        omega
      -- the record encodes exactly when the vector does
      have hdomain : InDomain record.payload ↔ c.Encodable := by
        rw [inDomain_payload hpolicy (hrcut ▸ hcut) hiter, hvalues, Converged.Encodable]
        simp only [hresiduals.mem_iff]
      rw [Except.ok_bind, hrecord, Except.ok_bind]
      rcases settled_payload hpolicy (hrcut ▸ hcut) hiter with hin | ⟨message, hencode⟩
      · obtain ⟨j, -, htext⟩ := canonicalJson_ok hin
        generalize String.ofList j.sortKeys.dump = text at htext
        rw [htext, Except.ok_bind]
        obtain ⟨outputs, houtputs⟩ : ∃ os, grp.members.mapM (memberResult sha g.byId (sha text) t
            ⟨.derived, none, none, none, Dict.fromKeys (parents.map CalcResult.resultId)⟩
            (Dict.fromKeys (parents.map CalcResult.resultId)) c.current) = .ok os := by
          apply exists_mapM
          intro m hm
          obtain ⟨n, hn, rfl, -⟩ := member_node hg hgrp hm
          obtain ⟨q, hq, htyped⟩ := hy.2.2.has n hn hm
          rw [memberResult, lookup_eq_ok_iff.mpr (hg.byId.mpr ⟨hn, rfl⟩), Except.ok_bind,
            canonicalJson_iterativeId, Except.ok_bind, lookup_eq_ok_iff.mpr hq, Except.ok_bind,
            CalcResult.make_eq_ok_iff.mpr ⟨htyped.2, rfl⟩]
          exact ⟨_, rfl⟩
        exact .inl ⟨hdomain.mp hin, _, by rw [houtputs, Except.ok_bind]; rfl⟩
      · refine .inr ⟨fun hc => ?_, message, by rw [canonicalJson, hencode]; rfl⟩
        obtain ⟨j, hj, -⟩ := encode_ok _ (hdomain.mpr hc)
        rw [hencode] at hj
        cases hj

/-- **Soundness of one group.** -/
theorem iterate_yields (hg : g.WellFormed) (hgrp : grp ∈ g.iterationGroups)
    (hcut : cutoff.UtcRepresentable) (hR : Supplied g grp R) :
    (iterate sha g grp R cutoff).Yields (fun _ => True) (SoundError g) := by
  obtain ⟨x⟩ := exists_iterationInputs hg hgrp hR
  rcases iterate_cases sha hg hgrp hcut hR x with
    ⟨e, he, hit⟩ | ⟨c, -, ⟨-, out, hit⟩ | ⟨-, message, hit⟩⟩
  · have hy := jacobi_yields hg hgrp x.mem_externalIds x.external_keys x.external_typed
      grp.maxIterations 0 x.seeds [] x.seeds_keys x.seeds_typed
    rw [he] at hy
    rw [hit]
    exact hy
  · rw [hit]
    trivial
  · rw [hit]
    exact List.ne_nil_of_mem hgrp

end

end CalcEngine
