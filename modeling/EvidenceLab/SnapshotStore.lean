/-
# The snapshot store

`InMemorySnapshotStore` (`store.py`): snapshots by id, and the ids of each model.  `put` takes any
snapshot, also one that was not made by `GraphSnapshot.build`: it verifies the id against the
content and asks for the parent to be stored.  `lineage` follows the parents of a stored snapshot.

* `InMemorySnapshotStore.Sound` is what every store reached by `put` has; the order of `byId` is the
  order of the first puts.
* `exists_linked` finds the ancestry of a stored snapshot in that order, which bounds the loop of
  `lineage`.
* `content_eq_of_verify`: the hash pins the model and the version of a parent.
-/
import EvidenceLab.Snapshot
import EvidenceLab.Tabulated

namespace CalcEngine

open Except (bind_eq_ok_iff)

/-! ## Snapshots and their content -/

namespace GraphSnapshot

/-- `GraphSnapshot.payload`. -/
def payload (s : GraphSnapshot) : PyValue :=
  snapshotPayload s.modelId s.version s.parentSnapshotId s.scenarioId s.graph

/-- `GraphSnapshot.verify`. -/
def verify (sha : String → String) (s : GraphSnapshot) : Except EngineError Bool := do
  return (← contentHash sha s.payload) == s.snapshotId

/-- The snapshots of `build`, `derive` and `with_nodes` whose parent has the id of its content. -/
inductive Made (sha : String → String) : GraphSnapshot → Prop
  | build {modelId : String} {nodes : List Node} {parent : Option GraphSnapshot}
      {scenarioId : Option String} {groups : Option (List IterationGroup)} {s : GraphSnapshot}
      (hparent : ∀ p ∈ parent, p.verify sha = .ok true)
      (h : GraphSnapshot.build sha modelId nodes parent scenarioId groups = .ok s) : Made sha s
  | derive {base : GraphSnapshot} {nodes : List Node} {scenarioId : Option String}
      {groups : Option (List IterationGroup)} {s : GraphSnapshot}
      (hbase : base.verify sha = .ok true)
      (h : base.derive sha nodes scenarioId groups = .ok s) : Made sha s
  | withNodes {base : GraphSnapshot} {replacements : List Node} {scenarioId : Option String}
      {groups : Option (List IterationGroup)} {s : GraphSnapshot}
      (hbase : base.verify sha = .ok true)
      (h : base.withNodes sha replacements scenarioId groups = .ok s) : Made sha s

variable {sha : String → String} {s p q : GraphSnapshot}

/-- A snapshot verifies if its identifier is the hash of its payload. -/
theorem verify_eq_true_iff :
    s.verify sha = .ok true ↔ contentHash sha s.payload = .ok s.snapshotId := by
  rw [verify]
  cases contentHash sha s.payload with
  | error e => simp [bind, Except.bind]
  | ok h => simp [bind, Except.bind, pure, Except.pure]

/-- What `build` put into a snapshot. -/
theorem fields_of_build {modelId : String} {nodes : List Node} {parent : Option GraphSnapshot}
    {scenarioId : Option String} {groups : Option (List IterationGroup)}
    (h : build sha modelId nodes parent scenarioId groups = .ok s) :
    (∀ p ∈ parent, p.modelId = modelId) ∧ s.modelId = modelId
      ∧ s.version = parent.elim 1 (fun p => p.version + 1)
      ∧ s.parentSnapshotId = parent.map snapshotId := by
  obtain ⟨_, -, h⟩ := bind_eq_ok_iff.mp h
  obtain ⟨_, -, h⟩ := bind_eq_ok_iff.mp h
  obtain ⟨_, hmodel, h⟩ := bind_eq_ok_iff.mp h
  obtain ⟨graph, -, h⟩ := bind_eq_ok_iff.mp h
  obtain ⟨id, -, h⟩ := bind_eq_ok_iff.mp h
  rw [Except.pure_eq_ok, Except.ok.injEq] at h
  rw [← h]
  have hsame : ¬ ∃ p ∈ parent, p.modelId ≠ modelId := Except.raiseIf_eq_ok_iff.mp hmodel
  refine ⟨by simpa using hsame, rfl, ?_, rfl⟩
  cases parent <;> rfl

/-- A made snapshot is a root of version 1, or one version after a verified parent of its model. -/
theorem Made.cases_parent (h : Made sha s) :
    (s.parentSnapshotId = none ∧ s.version = 1)
      ∨ ∃ p : GraphSnapshot, p.verify sha = .ok true ∧ s.parentSnapshotId = some p.snapshotId
        ∧ s.version = p.version + 1 ∧ s.modelId = p.modelId := by
  cases h with
  | @build modelId nodes parent scenarioId groups _ hparent h =>
      obtain ⟨hmodel, hm, hv, hp⟩ := fields_of_build h
      cases parent with
      | none => exact .inl ⟨hp, hv⟩
      | some p => exact .inr ⟨p, hparent p rfl, hp, hv, by rw [hm, hmodel p rfl]⟩
  | @derive base _ _ _ _ hbase h =>
      obtain ⟨-, hm, hv, hp⟩ := fields_of_build h
      exact .inr ⟨base, hbase, hp, hv, hm⟩
  | @withNodes base _ _ _ _ hbase h =>
      obtain ⟨-, hm, hv, hp⟩ := fields_of_build h
      exact .inr ⟨base, hbase, hp, hv, hm⟩

/-! ## The hash pins the content -/

theorem formed_strPair (p : String × String) : Formed (strPair p) := ⟨trivial, trivial, trivial⟩

theorem formed_decimalPair (p : String × Decimal) : Formed (decimalPair p) :=
  ⟨trivial, trivial, trivial⟩

theorem formed_list_map {α : Type} {l : List α} {f : α → PyValue} (tuple : Bool)
    (h : ∀ a, Formed (f a)) : Formed (.seq tuple (l.map f)) := by
  rw [Formed, itemsFormed_iff]
  intro v hv
  obtain ⟨a, -, rfl⟩ := List.mem_map.mp hv
  exact h a

theorem formed_group (g : GroupFields) : Formed g.toPy := by
  apply formed_dataclass rfl rfl
  intro v hv
  simp only [List.mem_cons, List.not_mem_nil, or_false] at hv
  rcases hv with rfl | rfl | rfl | rfl | rfl | rfl
  · trivial
  · exact formed_strs _
  · exact formed_list_map true formed_strPair
  · exact formed_list_map true formed_decimalPair
  · trivial
  · trivial

/-- Payloads are well-formed values. -/
theorem formed_payload (s : GraphSnapshot) : Formed s.payload := by
  have hnodes : Formed (.list (s.graph.nodes.map (fun n => n.toPy))) :=
    formed_list_map false (fun n => formed_node n.toNodeFields)
  have hgroups : Formed (.list (s.graph.iterationGroups.map (fun g => g.toPy))) :=
    formed_list_map false (fun g => formed_group g.toGroupFields)
  rw [payload, snapshotPayload, Formed]
  split_ifs
  · exact ⟨by simp, trivial, trivial, trivial, formed_optStr _, formed_optStr _, hnodes,
      hgroups, trivial⟩
  · exact ⟨by simp, trivial, trivial, trivial, formed_optStr _, formed_optStr _, hnodes, trivial⟩

/-- The members of a payload, whatever its schema. -/
theorem payload_eq (s : GraphSnapshot) :
    ∃ schema rest,
    s.payload = .dict ((.str "schema", .str schema) :: (.str "model_id", .str s.modelId)
      :: (.str "version", .int s.version) :: rest) :=
  ⟨_, _, rfl⟩

/-- A member of one dictionary is a member of any dictionary that is the same. -/
theorem mem_of_sameInto {items items' : List (DictKey × PyValue)} (h : SameInto items items') :
    ∀ kv ∈ items, ∃ w, (kv.1, w) ∈ items' ∧ Same kv.2 w := by
  induction items with
  | nil => simp
  | cons kv items ih =>
      obtain ⟨hhead, htail⟩ := h
      rw [List.forall_mem_cons]
      exact ⟨hhead, ih htail⟩

/-- **The hash pins the content**: two snapshots that verify and have one id have one model and one
version. -/
theorem content_eq_of_verify (hsha : Function.Injective sha) (hp : p.verify sha = .ok true)
    (hq : q.verify sha = .ok true) (hid : p.snapshotId = q.snapshotId) :
    p.modelId = q.modelId ∧ p.version = q.version := by
  obtain ⟨text, htext, hpid⟩ := bind_eq_ok_iff.mp (verify_eq_true_iff.mp hp)
  obtain ⟨text', htext', hqid⟩ := bind_eq_ok_iff.mp (verify_eq_true_iff.mp hq)
  rw [Except.pure_eq_ok, Except.ok.injEq] at hpid hqid
  obtain rfl : text = text' := hsha (by rw [hpid, hqid, hid])
  have hsame : Same p.payload q.payload :=
    same_of_canonicalJson_eq (inDomain_of_canonicalJson (formed_payload p) htext)
      (inDomain_of_canonicalJson (formed_payload q) htext') htext htext'
  obtain ⟨schema, rest, hpay⟩ := payload_eq p
  obtain ⟨schema', rest', hpay'⟩ := payload_eq q
  have hformed := formed_payload q
  rw [hpay, hpay', Same] at hsame
  rw [hpay'] at hformed
  obtain ⟨items, hitems, -, hinto⟩ := hsame
  obtain rfl := PyValue.dict.inj hitems
  have hmem := mem_of_sameInto hinto
  constructor
  · obtain ⟨w, hw, hs⟩ := hmem (.str "model_id", .str p.modelId) (by simp)
    have := List.inj_on_of_nodup_map hformed.1 hw
      (show (DictKey.str "model_id", PyValue.str q.modelId) ∈ _ by simp) rfl
    rw [Prod.mk.injEq] at this
    rw [this.2] at hs
    exact (PyValue.str.inj hs).symm
  · obtain ⟨w, hw, hs⟩ := hmem (.str "version", .int p.version) (by simp)
    have := List.inj_on_of_nodup_map hformed.1 hw
      (show (DictKey.str "version", PyValue.int q.version) ∈ _ by simp) rfl
    rw [Prod.mk.injEq] at this
    rw [this.2] at hs
    exact (PyValue.int.inj hs).symm

end GraphSnapshot

/-! ## The store -/

structure InMemorySnapshotStore where
  byId : Dict String GraphSnapshot
  byModel : Dict String (List String)

namespace InMemorySnapshotStore

open GraphSnapshot (verify_eq_true_iff content_eq_of_verify)

/-- A store on which nothing was put. -/
def empty : InMemorySnapshotStore := ⟨[], []⟩

/-- The writes of `put`: the snapshot under its id, the id under its model. -/
def add (store : InMemorySnapshotStore) (s : GraphSnapshot) : InMemorySnapshotStore where
  byId := store.byId.set s.snapshotId s
  byModel := store.byModel.set s.modelId ((store.byModel.get? s.modelId).getD [] ++ [s.snapshotId])

/-- `InMemorySnapshotStore.put`: the store after the call, and what the call returned or raised. -/
def put (sha : String → String) (store : InMemorySnapshotStore) (s : GraphSnapshot) :
    InMemorySnapshotStore × Except EngineError String :=
  match s.verify sha with
  | .error e => (store, .error e)
  | .ok false => (store, .error (.snapshot "snapshot content does not match its id"))
  | .ok true =>
    if s.snapshotId ∈ store.byId.keys then (store, .ok s.snapshotId)
    else if ∃ p ∈ s.parentSnapshotId, p ∉ store.byId.keys then
      (store, .error (.snapshot "parent snapshot is not stored"))
    else (store.add s, .ok s.snapshotId)

/-- `InMemorySnapshotStore.get`. -/
def get (store : InMemorySnapshotStore) (snapshotId : String) : Except EngineError GraphSnapshot :=
  match store.byId.get? snapshotId with
  | some s => .ok s
  | none => .error (.snapshot ("unknown snapshot '" ++ snapshotId ++ "'"))

/-- The loop of `lineage`; `none` when the rounds given were not enough. -/
def lineageFrom (store : InMemorySnapshotStore) :
    ℕ → Option String → List GraphSnapshot → Option (Except EngineError (List GraphSnapshot))
  | 0, _, _ => none
  | _ + 1, none, chain => some (.ok chain.reverse)
  | n + 1, some current, chain =>
    match store.get current with
    | .error e => some (.error e)
    | .ok s => lineageFrom store n s.parentSnapshotId (chain ++ [s])

/-- `InMemorySnapshotStore.lineage`, with so many rounds of its loop. -/
def lineage (store : InMemorySnapshotStore) (rounds : ℕ) (snapshotId : String) :
    Option (Except EngineError (List GraphSnapshot)) :=
  store.lineageFrom rounds (some snapshotId) []

/-- The store after some calls of `put`. -/
def puts (sha : String → String) (store : InMemorySnapshotStore) (snapshots : List GraphSnapshot) :
    InMemorySnapshotStore :=
  snapshots.foldl (fun store s => (store.put sha s).1) store

/-! ## The order of the first puts -/

/-- What `put` leaves in `byId`: every snapshot verified, under its own id, after its parent. -/
inductive Stored (sha : String → String) : Dict String GraphSnapshot → Prop
  | nil : Stored sha []
  | snoc {d : Dict String GraphSnapshot} {s : GraphSnapshot} (hd : Stored sha d)
      (hverify : s.verify sha = .ok true) (hnew : s.snapshotId ∉ d.keys)
      (hparent : ∀ p ∈ s.parentSnapshotId, p ∈ d.keys) : Stored sha (d ++ [(s.snapshotId, s)])

/-- Each snapshot follows its parent; the first one follows `parent`. -/
def Linked : Option String → List GraphSnapshot → Prop
  | _, [] => True
  | parent, s :: rest => s.parentSnapshotId = parent ∧ Linked (some s.snapshotId) rest

variable {sha : String → String} {d : Dict String GraphSnapshot} {s t : GraphSnapshot} {i : String}

theorem Stored.nodup (h : Stored sha d) : d.keys.Nodup := by
  induction h with
  | nil => exact List.nodup_nil
  | @snoc d s _ _ hnew _ ih =>
      rw [Dict.keys_append]
      refine ih.append (List.nodup_singleton _) ?_
      intro i hi hi'
      rw [List.mem_singleton.mp hi'] at hi
      exact hnew hi

/-- A new snapshot is found under its identifier. -/
theorem get?_snoc (hnew : s.snapshotId ∉ d.keys) :
    Dict.get? (d ++ [(s.snapshotId, s)]) i = some t ↔
      d.get? i = some t ∨ i = s.snapshotId ∧ t = s := by
  rw [Dict.get?_append, Option.or_eq_some_iff, Dict.get?_cons]
  constructor
  · rintro (h | ⟨-, h⟩)
    · exact .inl h
    · split_ifs at h with hi
      · exact .inr ⟨hi.symm, (Option.some.inj h).symm⟩
      · cases h
  · rintro (h | ⟨rfl, rfl⟩)
    · exact .inl h
    · exact .inr ⟨Dict.get?_eq_none_iff.mpr hnew, if_pos rfl⟩

/-- A stored id is the id of its snapshot, and the hash of its content. -/
theorem Stored.verified (h : Stored sha d) (hs : d.get? i = some s) :
    s.snapshotId = i ∧ s.verify sha = .ok true := by
  induction h with
  | nil => cases hs
  | @snoc d s' _ hverify hnew _ ih =>
      rcases (get?_snoc hnew).mp hs with hs | ⟨rfl, rfl⟩
      · exact ih hs
      · exact ⟨rfl, hverify⟩

/-- A chain ends with a snapshot that follows the one before it. -/
theorem linked_snoc {parent : Option String} {chain : List GraphSnapshot} :
    Linked parent (chain ++ [s]) ↔
      Linked parent chain ∧ s.parentSnapshotId = (chain.getLast?.map (·.snapshotId)).or parent := by
  induction chain generalizing parent with
  | nil => simp [Linked]
  | cons t chain ih =>
      rw [List.cons_append, Linked, Linked, ih, and_assoc]
      rw [List.getLast?_cons]
      cases chain.getLast? <;> rfl

/-- **The ancestry of a stored snapshot**, in the order of the first puts. -/
theorem Stored.exists_linked (h : Stored sha d) (hs : d.get? i = some s) :
    ∃ chain, Linked none chain ∧ chain.getLast? = some s
      ∧ (chain.map (·.snapshotId)).Sublist d.keys ∧ ∀ t ∈ chain, d.get? t.snapshotId = some t := by
  induction h generalizing i s with
  | nil => cases hs
  | @snoc d s' hd hverify hnew hparent ih =>
      have hkeep : ∀ {chain : List GraphSnapshot}, (∀ t ∈ chain, d.get? t.snapshotId = some t) →
          ∀ t ∈ chain, Dict.get? (d ++ [(s'.snapshotId, s')]) t.snapshotId = some t :=
        fun hchain t ht => (get?_snoc hnew).mpr (.inl (hchain t ht))
      rcases (get?_snoc hnew).mp hs with hs | ⟨rfl, rfl⟩
      · obtain ⟨chain, hlinked, hlast, hsub, hchain⟩ := ih hs
        refine ⟨chain, hlinked, hlast, ?_, hkeep hchain⟩
        rw [Dict.keys_append]
        exact hsub.trans (List.sublist_append_left _ _)
      · have hself : Dict.get? (d ++ [(s.snapshotId, s)]) s.snapshotId = some s :=
          (get?_snoc hnew).mpr (.inr ⟨rfl, rfl⟩)
        cases hp : s.parentSnapshotId with
        | none =>
            refine ⟨[s], ⟨hp, trivial⟩, rfl, ?_, by simpa using hself⟩
            rw [Dict.keys_append]
            exact List.sublist_append_right _ _
        | some p =>
            obtain ⟨q, hq⟩ := Option.isSome_iff_exists.mp (Dict.get?_isSome_iff.mpr (hparent p hp))
            obtain ⟨chain, hlinked, hlast, hsub, hchain⟩ := ih hq
            refine ⟨chain ++ [s], ?_, by simp, ?_, ?_⟩
            · rw [linked_snoc, hlast, hp, Option.map_some, (hd.verified hq).1]
              exact ⟨hlinked, rfl⟩
            · rw [List.map_append, Dict.keys_append]
              exact hsub.append (List.Sublist.refl _)
            · intro t ht
              rcases List.mem_append.mp ht with ht | ht
              · exact hkeep hchain t ht
              · rw [List.mem_singleton.mp ht]
                exact hself

/-- Every chain of stored snapshots is what the loop collects from its end. -/
theorem lineageFrom_linked {store : InMemorySnapshotStore} {chain : List GraphSnapshot} :
    ∀ {rounds : ℕ} {rest : List GraphSnapshot}, Linked none chain →
      (∀ t ∈ chain, store.byId.get? t.snapshotId = some t) → chain.length < rounds →
      store.lineageFrom rounds (chain.getLast?.map (·.snapshotId)) rest
        = some (.ok (chain ++ rest.reverse)) := by
  induction chain using List.reverseRecOn with
  | nil =>
      intro rounds rest _ _ hrounds
      obtain ⟨n, rfl⟩ : ∃ n, rounds = n + 1 := ⟨rounds - 1, by omega⟩
      rfl
  | append_singleton chain s ih =>
      intro rounds rest hlinked hstored hrounds
      rw [List.length_append, List.length_singleton] at hrounds
      obtain ⟨n, rfl⟩ : ∃ n, rounds = n + 1 := ⟨rounds - 1, by omega⟩
      obtain ⟨hinit, hparent⟩ := linked_snoc.mp hlinked
      rw [Option.or_none] at hparent
      have hget : store.get s.snapshotId = .ok s := by
        rw [get, hstored s (by simp)]
      rw [List.getLast?_concat, Option.map_some, lineageFrom, hget]
      simp only
      rw [hparent, ih hinit (fun t ht => hstored t (List.mem_append_left _ ht)) (by omega)]
      simp

/-! ## What the calls of `put` do -/

/-- **Everything a call of `put` can do**: nothing, or adding a verified new snapshot whose parent
is stored. -/
theorem put_cases (sha : String → String) (store : InMemorySnapshotStore) (s : GraphSnapshot) :
    ((store.put sha s).1 = store)
      ∨ s.verify sha = .ok true ∧ s.snapshotId ∉ store.byId.keys
        ∧ (∀ p ∈ s.parentSnapshotId, p ∈ store.byId.keys)
        ∧ store.put sha s = (store.add s, .ok s.snapshotId) := by
  unfold put
  cases hv : s.verify sha with
  | error e => exact .inl rfl
  | ok b =>
      cases b with
      | false => exact .inl rfl
      | true =>
          by_cases hid : s.snapshotId ∈ store.byId.keys
          · rw [if_pos hid]
            exact .inl rfl
          · by_cases hp : ∃ p ∈ s.parentSnapshotId, p ∉ store.byId.keys
            · rw [if_neg hid, if_pos hp]
              exact .inl rfl
            · rw [if_neg hid, if_neg hp]
              exact .inr ⟨rfl, hid, by simpa using hp, rfl⟩

/-- A call that raises leaves the store as it was. -/
theorem put_of_error {store : InMemorySnapshotStore} {e : EngineError}
    (h : (store.put sha s).2 = .error e) : (store.put sha s).1 = store := by
  rcases put_cases sha store s with hput | ⟨-, -, -, hput⟩
  · exact hput
  · rw [hput] at h
    cases h

/-- One call keeps what is stored, and a snapshot that is new was put by it after its parent. -/
theorem put_get? {store : InMemorySnapshotStore} (h : (store.put sha s).1.byId.get? i = some t) :
    store.byId.get? i = some t
      ∨ t = s ∧ i ∉ store.byId.keys ∧ ∀ p ∈ s.parentSnapshotId, p ∈ store.byId.keys := by
  rcases put_cases sha store s with hput | ⟨-, hnew, hparent, hput⟩
  · exact .inl (hput ▸ h)
  · rw [hput] at h
    rw [add, Dict.set_of_not_mem hnew, get?_snoc hnew] at h
    rcases h with h | ⟨rfl, rfl⟩
    · exact .inl h
    · exact .inr ⟨rfl, hnew, hparent⟩

/-- What is stored stays stored. -/
theorem get?_put {store : InMemorySnapshotStore} (h : store.byId.get? i = some t) :
    (store.put sha s).1.byId.get? i = some t := by
  rcases put_cases sha store s with hput | ⟨-, hnew, -, hput⟩
  · rw [hput, h]
  · rw [hput, add, Dict.set_of_not_mem hnew, get?_snoc hnew]
    exact .inl h

/-- Storing keeps the store in order. -/
theorem stored_put {store : InMemorySnapshotStore} (h : Stored sha store.byId) :
    Stored sha (store.put sha s).1.byId := by
  rcases put_cases sha store s with hput | ⟨hverify, hnew, hparent, hput⟩
  · rwa [hput]
  · rw [hput, add, Dict.set_of_not_mem hnew]
    exact h.snoc hverify hnew hparent

/-- Snapshots are stored in two parts. -/
theorem puts_append (store : InMemorySnapshotStore) (history later : List GraphSnapshot) :
    store.puts sha (history ++ later) = (store.puts sha history).puts sha later :=
  List.foldl_append

theorem puts_snoc (store : InMemorySnapshotStore) (history : List GraphSnapshot)
    (s : GraphSnapshot) :
    store.puts sha (history ++ [s]) = ((store.puts sha history).put sha s).1 := by
  rw [puts_append]
  rfl

/-- **Every reachable store** is in order. -/
theorem stored_puts (history : List GraphSnapshot) : Stored sha (puts sha empty history).byId := by
  induction history using List.reverseRecOn with
  | nil => exact .nil
  | append_singleton history s ih =>
      rw [puts_snoc]
      exact stored_put ih

/-- What is stored stays stored through later puts. -/
theorem get?_puts {store : InMemorySnapshotStore} (later : List GraphSnapshot)
    (h : store.byId.get? i = some t) : (store.puts sha later).byId.get? i = some t := by
  induction later generalizing store with
  | nil => exact h
  | cons s later ih => exact ih (get?_put h)

/-- A stored snapshot was put when its id was not stored and its parent was. -/
theorem exists_put {history : List GraphSnapshot}
    (h : (puts sha empty history).byId.get? i = some t) :
    ∃ before after, history = before ++ t :: after ∧ i ∉ (puts sha empty before).byId.keys
      ∧ ∀ p ∈ t.parentSnapshotId, p ∈ (puts sha empty before).byId.keys := by
  induction history using List.reverseRecOn with
  | nil => cases h
  | append_singleton history s ih =>
      rw [puts_snoc] at h
      rcases put_get? h with h | ⟨rfl, hnew, hparent⟩
      · obtain ⟨before, after, rfl, hnew, hparent⟩ := ih h
        exact ⟨before, after ++ [s], by simp, hnew, hparent⟩
      · exact ⟨history, [], rfl, hnew, hparent⟩

/-! ## The versions of a model -/

/-! ## Lineages -/

/-- A chain is the lineage of an id: enough rounds of the loop return it, its snapshots are
distinct, it starts at a root, each snapshot follows its parent, and it ends with the snapshot
stored under the id. -/
structure IsLineage (store : InMemorySnapshotStore) (snapshotId : String)
    (chain : List GraphSnapshot) : Prop where
  returned : ∀ rounds, store.byId.length < rounds →
    store.lineage rounds snapshotId = some (.ok chain)
  distinct : (chain.map (·.snapshotId)).Nodup
  linked : Linked none chain
  last : chain.getLast? = store.byId.get? snapshotId
  stored : ∀ t ∈ chain, store.byId.get? t.snapshotId = some t

/-- **Every stored snapshot has a lineage** down to a root. -/
theorem exists_lineage {history : List GraphSnapshot}
    (hi : i ∈ (puts sha empty history).byId.keys) :
    ∃ chain, IsLineage (puts sha empty history) i chain := by
  have hstored : Stored sha (puts sha empty history).byId := stored_puts history
  obtain ⟨s, hs⟩ := Option.isSome_iff_exists.mp (Dict.get?_isSome_iff.mpr hi)
  obtain ⟨chain, hlinked, hlast, hsub, hchain⟩ := hstored.exists_linked hs
  refine ⟨chain, ?_, hstored.nodup.sublist hsub, hlinked, by rw [hlast, hs], hchain⟩
  intro rounds hrounds
  have hlen : chain.length ≤ (puts sha empty history).byId.length := by
    simpa [Dict.keys] using hsub.length_le
  have hfound : (puts sha empty history).lineageFrom rounds (chain.getLast?.map (·.snapshotId)) []
      = some (.ok (chain ++ [].reverse)) :=
        lineageFrom_linked hlinked hchain (lt_of_le_of_lt hlen hrounds)
  rwa [hlast, Option.map_some, (hstored.verified hs).1, List.reverse_nil, List.append_nil] at hfound

/-- The versions of a chain of made snapshots, each pinned by the hash of its parent. -/
theorem versions_of_linked (hsha : Function.Injective sha) {chain : List GraphSnapshot}
    (hlinked : Linked none chain) (hmade : ∀ t ∈ chain, t.Made sha)
    (hverify : ∀ t ∈ chain, t.verify sha = .ok true) :
    (∀ t ∈ chain, ∀ u ∈ chain, t.modelId = u.modelId)
      ∧ chain.map (·.version) = (List.range chain.length).map fun k : ℕ => (k : ℤ) + 1 := by
  induction chain using List.reverseRecOn with
  | nil => exact ⟨by simp, rfl⟩
  | append_singleton chain s ih =>
      obtain ⟨hinit, hparent⟩ := linked_snoc.mp hlinked
      rw [Option.or_none] at hparent
      obtain ⟨hmodel, hversions⟩ := ih hinit (fun t ht => hmade t (List.mem_append_left _ ht))
        (fun t ht => hverify t (List.mem_append_left _ ht))
      have hlen : (chain ++ [s]).length = chain.length + 1 := by simp
      rw [List.map_append, hversions, hlen, List.range_succ, List.map_append]
      rcases (hmade s (by simp)).cases_parent with ⟨hnone, hv⟩ | ⟨p, hp, hsome, hv, hm⟩
      · -- a root is the only snapshot of its chain
        rw [hnone, eq_comm, Option.map_eq_none_iff, List.getLast?_eq_none_iff] at hparent
        subst hparent
        exact ⟨by simp, by simp [hv]⟩
      · rw [hsome, eq_comm, Option.map_eq_some_iff] at hparent
        obtain ⟨q, hq, hid⟩ := hparent
        have hqmem : q ∈ chain := List.mem_of_getLast? hq
        obtain ⟨hmodelq, hversionq⟩ :=
          content_eq_of_verify hsha (hverify q (List.mem_append_left _ hqmem)) hp hid
        have hsq : s.modelId = q.modelId := by rw [hm, hmodelq]
        have hlast : (chain.length : ℤ) = q.version := by
          have h := congrArg List.getLast? hversions
          rw [List.getLast?_map, hq, Option.map_some, List.getLast?_map, List.getLast?_range] at h
          have hpos : chain.length ≠ 0 := by
            rintro h0
            rw [List.length_eq_zero_iff.mp h0] at hqmem
            cases hqmem
          rw [if_neg hpos, Option.map_some, Option.some.injEq] at h
          rw [h]
          omega
        constructor
        · have hall : ∀ t ∈ chain ++ [s], t.modelId = q.modelId := by
            intro t ht
            rcases List.mem_append.mp ht with ht | ht
            · exact hmodel t ht q hqmem
            · rw [List.mem_singleton.mp ht, hsq]
          intro t ht u hu
          rw [hall t ht, hall u hu]
        · rw [List.map_singleton, List.map_singleton, hv, ← hversionq, ← hlast]

/-- **Lineages are rooted version chains.**  Whatever was put: a stored id keeps its snapshot and is
the hash of its content, a snapshot was put when its parent was stored and it was not, a call that
raises leaves the store as it was, and every stored id has its lineage.  When the snapshots put were
made from parents that verify, a lineage has one model and the versions `1, 2, …`. -/
theorem lineage_version_chain (sha : String → String) (hsha : Function.Injective sha)
    (history : List GraphSnapshot) :
    (∀ later i s, (puts sha empty history).byId.get? i = some s →
      (puts sha empty (history ++ later)).byId.get? i = some s
        ∧ s.snapshotId = i ∧ contentHash sha s.payload = .ok i)
    ∧ (∀ i s, (puts sha empty history).byId.get? i = some s →
      ∃ before after, history = before ++ s :: after ∧ i ∉ (puts sha empty before).byId.keys
        ∧ ∀ p ∈ s.parentSnapshotId, p ∈ (puts sha empty before).byId.keys)
    ∧ (∀ s e, ((puts sha empty history).put sha s).2 = .error e →
      ((puts sha empty history).put sha s).1 = puts sha empty history)
    ∧ (∀ i ∈ (puts sha empty history).byId.keys, ∃ chain,
      IsLineage (puts sha empty history) i chain
        ∧ ((∀ s ∈ history, s.Made sha) →
          (∀ t ∈ chain, ∀ u ∈ chain, t.modelId = u.modelId)
            ∧ chain.map (·.version) = (List.range chain.length).map fun k : ℕ => (k : ℤ) + 1)) := by
  refine ⟨?_, fun i s h => exists_put h, fun s e h => put_of_error h, ?_⟩
  · intro later i s h
    obtain ⟨hid, hverify⟩ := (stored_puts history).verified h
    rw [verify_eq_true_iff, hid] at hverify
    rw [puts_append]
    exact ⟨get?_puts later h, hid, hverify⟩
  · intro i hi
    obtain ⟨chain, hchain⟩ := exists_lineage hi
    refine ⟨chain, hchain, fun hmade => versions_of_linked hsha hchain.linked ?_ ?_⟩
    · intro t ht
      obtain ⟨before, after, rfl, -, -⟩ := exists_put (hchain.stored t ht)
      exact hmade t (by simp)
    · intro t ht
      exact ((stored_puts history).verified (hchain.stored t ht)).2

/-! ## A chain of two versions, and a forged parent -/

/-- The graph without nodes. -/
def bareGraph : ModelGraph := ⟨[], [], [], [], [], [], [], [], []⟩

/-- The id of the first version of a model without nodes. -/
def rootId : String := "sha256:745af9780fe37a1f7dafe263e07bf53da11074670ddbee9d44d76c00d45b478b"

/-- The id of its second version. -/
def childId : String := "sha256:64d99a88990dde2cce4a138f614a1d842f77f1e6e5a51db4bb8281cf63f99acb"

/-- The id of a version that follows a version 56. -/
def strayId : String := "sha256:1dd7b70e0777d8706da3f2b75b0bb3facc9217a51cc7f48d10b7c2a65e54e9bc"

def root : GraphSnapshot := ⟨rootId, "m", 1, none, none, bareGraph⟩

def child : GraphSnapshot := ⟨childId, "m", 2, some rootId, none, bareGraph⟩

/-- The root with its version changed, which is no snapshot that verifies. -/
def forged : GraphSnapshot := { root with version := 56 }

/-- What `build` makes from the forged root. -/
def stray : GraphSnapshot := ⟨strayId, "m", 57, some rootId, none, bareGraph⟩

/-- The canonical text of a version of the model without nodes. -/
def bareText (parent version : String) : String :=
  "\x7b\"model_id\":\"m\",\"nodes\":[],\"parent_snapshot_id\":" ++ parent
    ++ ",\"scenario_id\":null,\"schema\":\"fel-calc-snapshot/v1\",\"version\":" ++ version ++ "\x7d"

/-- The hash function, known on the texts of these snapshots. -/
def knownHash : String → String :=
  tabulated
    [(bareText "null" "1", rootId), (bareText ("\"" ++ rootId ++ "\"") "2", childId),
      (bareText ("\"" ++ rootId ++ "\"") "57", strayId)]

theorem knownHash_injective : Function.Injective knownHash :=
  tabulated_injective (by decide) (by decide)

theorem verify_root : root.verify knownHash = .ok true := by decide +kernel

theorem verify_child : child.verify knownHash = .ok true := by decide +kernel

/-- A snapshot that verifies is what `build` returns for its parts. -/
theorem build_of_verify {sha : String → String} {s : GraphSnapshot} {nodes : List Node}
    {parent : Option GraphSnapshot} (hid : isSafeId s.modelId = true)
    (hmodel : ∀ p ∈ parent, p.modelId = s.modelId)
    (hgraph : ModelGraph.build nodes (GraphSnapshot.groupsFor parent none) = .ok s.graph)
    (hversion : s.version = parent.elim 1 (fun p => p.version + 1))
    (hparent : s.parentSnapshotId = parent.map (·.snapshotId)) (hscenario : s.scenarioId = none)
    (hverify : s.verify sha = .ok true) :
    GraphSnapshot.build sha s.modelId nodes parent none none = .ok s := by
  have hsame : ¬ ∃ p ∈ parent, p.modelId ≠ s.modelId := by simpa using hmodel
  have hhash := verify_eq_true_iff.mp hverify
  rw [GraphSnapshot.payload, hscenario] at hhash
  obtain ⟨snapshotId, modelId, version, parentId, scenarioId, graph⟩ := s
  dsimp only at *
  subst hversion hparent hscenario
  unfold GraphSnapshot.build
  rw [(requireSafeId_eq_ok_iff (u := ())).mpr hid, Except.ok_bind,
    Option.toList_none,
    show [].forM (fun i => requireSafeId i "scenario_id" .snapshot) = .ok () from rfl,
    Except.ok_bind,
    (Except.raiseIf_eq_ok_iff (u := ())).mpr hsame, Except.ok_bind, hgraph, Except.ok_bind]
  cases parent with
  | none => exact bind_eq_ok_iff.mpr ⟨snapshotId, hhash, rfl⟩
  | some p => exact bind_eq_ok_iff.mpr ⟨snapshotId, hhash, rfl⟩

theorem verify_stray : stray.verify knownHash = .ok true := by decide +kernel

theorem build_root : GraphSnapshot.build knownHash "m" [] none none none = .ok root :=
  build_of_verify (s := root) (by decide) (by simp) rfl rfl rfl rfl verify_root

theorem build_child : GraphSnapshot.build knownHash "m" [] (some root) none none = .ok child :=
  build_of_verify (s := child) (by decide) (by simp [root, child]) rfl rfl rfl rfl verify_child

theorem build_stray : GraphSnapshot.build knownHash "m" [] (some forged) none none = .ok stray :=
  build_of_verify (s := stray) (by decide) (by simp [root, forged, stray]) rfl rfl rfl
    rfl verify_stray

/-- Two puts of a root and its successor. -/
theorem puts_pair {sha : String → String} {a b : GraphSnapshot} (ha : a.verify sha = .ok true)
    (hb : b.verify sha = .ok true) (hroot : a.parentSnapshotId = none)
    (hparent : b.parentSnapshotId = some a.snapshotId) (hne : b.snapshotId ≠ a.snapshotId) :
    (puts sha empty [a, b]).byId = [(a.snapshotId, a), (b.snapshotId, b)] := by
  have hfirst : empty.put sha a = (empty.add a, .ok a.snapshotId) := by
    rw [put, ha]
    simp [empty, Dict.keys, hroot]
  have hkeys : (empty.add a).byId = [(a.snapshotId, a)] := rfl
  have hnew : b.snapshotId ∉ (empty.add a).byId.keys := by simpa [hkeys, Dict.keys] using hne
  have hstored : ¬ ∃ p ∈ b.parentSnapshotId, p ∉ (empty.add a).byId.keys := by
    simp [hparent, hkeys, Dict.keys]
  rw [puts, List.foldl_cons, List.foldl_cons, List.foldl_nil, hfirst, put, hb]
  simp only
  rw [if_neg hnew, if_neg hstored, add, Dict.set_of_not_mem hnew, hkeys]
  rfl

/-- The lineage of the successor. -/
theorem lineage_pair {store : InMemorySnapshotStore} {a b : GraphSnapshot}
    (hbyId : store.byId = [(a.snapshotId, a), (b.snapshotId, b)])
    (hroot : a.parentSnapshotId = none)
    (hparent : b.parentSnapshotId = some a.snapshotId) (hne : b.snapshotId ≠ a.snapshotId) :
    store.lineage 3 b.snapshotId = some (.ok [a, b]) := by
  have hlinked : Linked none [a, b] := ⟨hroot, hparent, trivial⟩
  have hstored : ∀ t ∈ [a, b], store.byId.get? t.snapshotId = some t := by
    rw [hbyId, List.forall_mem_cons, List.forall_mem_singleton]
    exact ⟨if_pos rfl, by rw [Dict.get?_cons, if_neg hne.symm]; exact if_pos rfl⟩
  exact lineageFrom_linked hlinked hstored (by simp)

/-- A root and its successor: the lineage of the successor is both, versions one and two. -/
theorem lineage_version_chain_two :
    ∃ chain, IsLineage (puts knownHash empty [root, child]) child.snapshotId chain
      ∧ chain.map (·.version) = [1, 2] := by
  have hmade : ∀ s ∈ [root, child], s.Made knownHash := by
    rw [List.forall_mem_cons, List.forall_mem_singleton]
    exact ⟨.build (by simp) build_root, .build (by simpa using verify_root) build_child⟩
  have hbyId := puts_pair (a := root) (b := child) verify_root verify_child rfl rfl (by decide)
  have h := (lineage_version_chain knownHash knownHash_injective [root, child]).2.2.2
  obtain ⟨chain, hchain, hversions⟩ := h child.snapshotId (by rw [hbyId]; decide)
  refine ⟨chain, hchain, ?_⟩
  have hreturned := hchain.returned 3 (by rw [hbyId]; decide)
  have hrun :
      (puts knownHash empty [root, child]).lineage 3 child.snapshotId = some (.ok [root, child]) :=
    lineage_pair (a := root) (b := child) hbyId rfl rfl (by decide)
  have hboth : [root, child] = chain := by simpa [hrun] using hreturned
  rw [(hversions hmade).2, ← hboth]
  rfl

/-- **A forged parent skips versions**: both snapshots put are results of `build`, and the lineage
of the second has the versions one and fifty-seven.  `build` takes the version of the parent it is
given, and no parent is verified. -/
theorem forged_parent_skips_versions :
    GraphSnapshot.build knownHash "m" [] none none none = .ok root
      ∧ GraphSnapshot.build knownHash "m" [] (some forged) none none = .ok stray
      ∧ ∃ chain, (puts knownHash empty [root, stray]).lineage 3 stray.snapshotId = some (.ok chain)
        ∧ chain.map (·.version) = [1, 57] :=
  ⟨build_root, build_stray, [root, stray],
    lineage_pair (a := root) (b := stray) (puts_pair verify_root verify_stray rfl rfl (by decide))
    rfl rfl (by decide), rfl⟩

end InMemorySnapshotStore

end CalcEngine
