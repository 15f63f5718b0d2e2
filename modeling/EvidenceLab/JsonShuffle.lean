/-
# JSON up to order

`PyJson.Shuffled`: two values with the same items in their arrays and the same members in their
objects, in any order and at any depth.  It is an equivalence, the order of keys is one case of it
(`shuffled_sortKeys`), and nesting and size do not see it.
-/
import EvidenceLab.JsonWriter

namespace PyJson

mutual

/-- The values differ in the order of items and members only. -/
inductive Shuffled : PyJson → PyJson → Prop
  | same (v : PyJson) : Shuffled v v
  | arr {xs ys zs : List PyJson} (h : ShuffledItems xs zs) (hp : zs.Perm ys) :
      Shuffled (.arr xs) (.arr ys)
  | obj {xs ys zs : List (PyStr × PyJson)} (h : ShuffledMembers xs zs) (hp : zs.Perm ys) :
      Shuffled (.obj xs) (.obj ys)

/-- Item by item. -/
inductive ShuffledItems : List PyJson → List PyJson → Prop
  | nil : ShuffledItems [] []
  | cons {v w : PyJson} {vs ws : List PyJson} (h : Shuffled v w) (hs : ShuffledItems vs ws) :
      ShuffledItems (v :: vs) (w :: ws)

/-- Member by member. -/
inductive ShuffledMembers : List (PyStr × PyJson) → List (PyStr × PyJson) → Prop
  | nil : ShuffledMembers [] []
  | cons {k : PyStr} {v w : PyJson} {vs ws : List (PyStr × PyJson)} (h : Shuffled v w)
      (hs : ShuffledMembers vs ws) :
      ShuffledMembers ((k, v) :: vs) ((k, w) :: ws)

end

/-- Two members with one key and shuffled values. -/
def ShuffledMember (m n : PyStr × PyJson) : Prop := m.1 = n.1 ∧ Shuffled m.2 n.2

/-- Arrays are shuffled item by item. -/
theorem shuffledItems_iff {xs ys : List PyJson} :
    ShuffledItems xs ys ↔ List.Forall₂ Shuffled xs ys := by
  constructor
  · intro h
    induction xs generalizing ys with
    | nil =>
        cases h
        exact .nil
    | cons v xs ih =>
        cases h with
        | cons h hs => exact .cons h (ih hs)
  · intro h
    induction h with
    | nil => exact .nil
    | cons h _ ih => exact .cons h ih

theorem shuffledMembers_iff {xs ys : List (PyStr × PyJson)} :
    ShuffledMembers xs ys ↔ List.Forall₂ ShuffledMember xs ys := by
  constructor
  · intro h
    induction xs generalizing ys with
    | nil =>
        cases h
        exact .nil
    | cons v xs ih =>
        cases h with
        | cons h hs => exact .cons ⟨rfl, h⟩ (ih hs)
  · intro h
    induction h with
    | nil => exact .nil
    | @cons m n _ _ h _ ih =>
        obtain ⟨k, v⟩ := m
        obtain ⟨k', w⟩ := n
        obtain ⟨rfl, h⟩ := h
        exact .cons h ih

mutual

/-- Shuffling can be undone. -/
theorem Shuffled.symm : ∀ {v w : PyJson}, Shuffled v w → Shuffled w v
  | _, _, .same v => .same v
  | _, _, @Shuffled.arr xs ys zs h hp => by
      obtain ⟨us, hus, hp'⟩ :=
        List.perm_comp_forall₂ hp.symm (shuffledItems_iff.mp (ShuffledItems.symm h))
      exact .arr (shuffledItems_iff.mpr hus) hp'
  | _, _, @Shuffled.obj xs ys zs h hp => by
      obtain ⟨us, hus, hp'⟩ :=
        List.perm_comp_forall₂ hp.symm (shuffledMembers_iff.mp (ShuffledMembers.symm h))
      exact .obj (shuffledMembers_iff.mpr hus) hp'

theorem ShuffledItems.symm : ∀ {xs ys : List PyJson}, ShuffledItems xs ys → ShuffledItems ys xs
  | _, _, .nil => .nil
  | _, _, .cons h hs => .cons h.symm hs.symm

theorem ShuffledMembers.symm : ∀ {xs ys : List (PyStr × PyJson)}, ShuffledMembers xs ys →
    ShuffledMembers ys xs
  | _, _, .nil => .nil
  | _, _, .cons h hs => .cons h.symm hs.symm

end

mutual

/-- Shuffling twice is shuffling. -/
theorem Shuffled.trans : ∀ {u v w : PyJson}, Shuffled u v → Shuffled v w → Shuffled u w
  | _, _, _, .same _, h' => h'
  | _, _, _, @Shuffled.arr xs ys zs h hp, h' => by
      cases h' with
      | same => exact .arr h hp
      | @arr _ us ts h' hp' =>
          obtain ⟨ss, hss, hp''⟩ := List.perm_comp_forall₂ hp (shuffledItems_iff.mp h')
          exact .arr (ShuffledItems.trans h (shuffledItems_iff.mpr hss)) (hp''.trans hp')
  | _, _, _, @Shuffled.obj xs ys zs h hp, h' => by
      cases h' with
      | same => exact .obj h hp
      | @obj _ us ts h' hp' =>
          obtain ⟨ss, hss, hp''⟩ := List.perm_comp_forall₂ hp (shuffledMembers_iff.mp h')
          exact .obj (ShuffledMembers.trans h (shuffledMembers_iff.mpr hss)) (hp''.trans hp')

theorem ShuffledItems.trans : ∀ {us vs ws : List PyJson}, ShuffledItems us vs →
    ShuffledItems vs ws →
    ShuffledItems us ws
  | _, _, _, .nil, h' => h'
  | _, _, _, .cons h hs, h' => by
      cases h' with
      | cons h' hs' => exact .cons (h.trans h') (hs.trans hs')

theorem ShuffledMembers.trans : ∀ {us vs ws : List (PyStr × PyJson)}, ShuffledMembers us vs →
    ShuffledMembers vs ws → ShuffledMembers us ws
  | _, _, _, .nil, h' => h'
  | _, _, _, .cons h hs, h' => by
      cases h' with
      | cons h' hs' => exact .cons (h.trans h') (hs.trans hs')

end

mutual

/-- **The order of keys** is one such difference. -/
theorem shuffled_sortKeys : ∀ v : PyJson, Shuffled v v.sortKeys
  | .null => .same _
  | .bool _ => .same _
  | .int _ => .same _
  | .decimal _ => .same _
  | .str _ => .same _
  | .arr items => by
      rw [sortKeys]
      exact .arr (shuffledItems_sort items) (List.Perm.refl _)
  | .obj members => by
      rw [sortKeys]
      exact .obj (shuffledMembers_sort members) (List.perm_insertionSort _ _).symm

/-- Sorting shuffles the items inside. -/
theorem shuffledItems_sort : ∀ vs : List PyJson, ShuffledItems vs (sortItems vs)
  | [] => .nil
  | v :: vs => .cons (shuffled_sortKeys v) (shuffledItems_sort vs)

theorem shuffledMembers_sort : ∀ ms : List (PyStr × PyJson), ShuffledMembers ms (sortMembers ms)
  | [] => .nil
  | (_, v) :: ms => .cons (shuffled_sortKeys v) (shuffledMembers_sort ms)

end

/-! ## What does not see the order -/

open JsonReader (depth depthItems depthMembers)

theorem depthItems_le_iff {vs : List PyJson} {n : ℕ} :
    depthItems vs ≤ n ↔ ∀ v ∈ vs, depth v ≤ n := by
  induction vs with
  | nil => simp [depthItems]
  | cons v vs ih => rw [depthItems, max_le_iff, ih, List.forall_mem_cons]

theorem depthMembers_le_iff {ms : List (PyStr × PyJson)} {n : ℕ} :
    depthMembers ms ≤ n ↔ ∀ m ∈ ms, depth m.2 ≤ n := by
  induction ms with
  | nil => simp [depthMembers]
  | cons m ms ih => rw [depthMembers, max_le_iff, ih, List.forall_mem_cons]

/-- The depth of an array does not depend on the order of its items. -/
theorem depthItems_perm {vs ws : List PyJson} (h : vs.Perm ws) : depthItems vs = depthItems ws :=
  eq_of_forall_ge_iff fun n => by rw [depthItems_le_iff, depthItems_le_iff]; simp only [h.mem_iff]

theorem depthMembers_perm {ms ns : List (PyStr × PyJson)} (h : ms.Perm ns) :
    depthMembers ms = depthMembers ns :=
  eq_of_forall_ge_iff fun n => by
    rw [depthMembers_le_iff, depthMembers_le_iff]; simp only [h.mem_iff]

mutual

/-- The nesting does not see the order. -/
theorem Shuffled.depth_eq : ∀ {v w : PyJson}, Shuffled v w → depth v = depth w
  | _, _, .same _ => rfl
  | _, _, .arr h hp => by rw [depth, depth, h.depth_eq, depthItems_perm hp]
  | _, _, .obj h hp => by rw [depth, depth, h.depth_eq, depthMembers_perm hp]

/-- Shuffled arrays are nested equally deep. -/
theorem ShuffledItems.depth_eq : ∀ {vs ws : List PyJson}, ShuffledItems vs ws →
    depthItems vs = depthItems ws
  | _, _, .nil => rfl
  | _, _, .cons h hs => by rw [depthItems, depthItems, h.depth_eq, hs.depth_eq]

theorem ShuffledMembers.depth_eq : ∀ {ms ns : List (PyStr × PyJson)}, ShuffledMembers ms ns →
    depthMembers ms = depthMembers ns
  | _, _, .nil => rfl
  | _, _, .cons h hs => by rw [depthMembers, depthMembers, h.depth_eq, hs.depth_eq]

end

/-! ## Distinct keys -/

mutual

/-- Every object has distinct keys, as a dictionary has. -/
def Distinct : PyJson → Prop
  | .arr items => DistinctItems items
  | .obj members => (members.map Prod.fst).Nodup ∧ DistinctMembers members
  | _ => True

def DistinctItems : List PyJson → Prop
  | [] => True
  | v :: vs => Distinct v ∧ DistinctItems vs

def DistinctMembers : List (PyStr × PyJson) → Prop
  | [] => True
  | (_, v) :: ms => Distinct v ∧ DistinctMembers ms

end

theorem distinctItems_iff {vs : List PyJson} : DistinctItems vs ↔ ∀ v ∈ vs, Distinct v := by
  induction vs with
  | nil => simp [DistinctItems]
  | cons v vs ih => rw [DistinctItems, ih, List.forall_mem_cons]

theorem distinctMembers_iff {ms : List (PyStr × PyJson)} :
    DistinctMembers ms ↔ ∀ m ∈ ms, Distinct m.2 := by
  induction ms with
  | nil => simp [DistinctMembers]
  | cons m ms ih => rw [DistinctMembers, ih, List.forall_mem_cons]

/-- Members that are shuffled inside keep their keys. -/
theorem ShuffledMembers.keys_eq {ms ns : List (PyStr × PyJson)} (h : ShuffledMembers ms ns) :
    ms.map Prod.fst = ns.map Prod.fst := by
  rw [shuffledMembers_iff] at h
  induction h with
  | nil => rfl
  | cons h _ ih => rw [List.map_cons, List.map_cons, h.1, ih]

mutual

/-- A shuffled value has distinct keys if the first one has. -/
theorem Shuffled.distinct : ∀ {v w : PyJson}, Shuffled v w → Distinct v → Distinct w
  | _, _, .same _, hv => hv
  | _, _, @Shuffled.arr xs ys zs h hp, hv => by
      have hz := distinctItems_iff.mp (h.distinct hv)
      refine distinctItems_iff.mpr fun v hv => hz v (hp.mem_iff.mpr hv)
  | _, _, @Shuffled.obj xs ys zs h hp, hv => by
      have hz := distinctMembers_iff.mp (h.distinct hv.2)
      refine ⟨?_, distinctMembers_iff.mpr fun m hm => hz m (hp.mem_iff.mpr hm)⟩
      rw [← (hp.map Prod.fst).nodup_iff, ← h.keys_eq]
      exact hv.1

theorem ShuffledItems.distinct : ∀ {vs ws : List PyJson}, ShuffledItems vs ws → DistinctItems vs →
    DistinctItems ws
  | _, _, .nil, hv => hv
  | _, _, .cons h hs, hv => ⟨h.distinct hv.1, hs.distinct hv.2⟩

theorem ShuffledMembers.distinct : ∀ {ms ns : List (PyStr × PyJson)}, ShuffledMembers ms ns →
    DistinctMembers ms →
    DistinctMembers ns
  | _, _, .nil, hv => hv
  | _, _, .cons h hs, hv => ⟨h.distinct hv.1, hs.distinct hv.2⟩

end

/-! ## Leaves -/

section Leaves

variable (P : PyJson → Prop) (K : PyStr → Prop)

mutual

/-- Every value that is no container has a property, and so has every key. -/
def Leaves : PyJson → Prop
  | .arr items => LeavesItems items
  | .obj members => LeavesMembers members
  | v => P v

def LeavesItems : List PyJson → Prop
  | [] => True
  | v :: vs => Leaves v ∧ LeavesItems vs

def LeavesMembers : List (PyStr × PyJson) → Prop
  | [] => True
  | (k, v) :: ms => (K k ∧ Leaves v) ∧ LeavesMembers ms

end

variable {P K}

theorem leavesItems_iff {vs : List PyJson} : LeavesItems P K vs ↔ ∀ v ∈ vs, Leaves P K v := by
  induction vs with
  | nil => simp [LeavesItems]
  | cons v vs ih => rw [LeavesItems, ih, List.forall_mem_cons]

theorem leavesMembers_iff {ms : List (PyStr × PyJson)} :
    LeavesMembers P K ms ↔ ∀ m ∈ ms, K m.1 ∧ Leaves P K m.2 := by
  induction ms with
  | nil => simp [LeavesMembers]
  | cons m ms ih => rw [LeavesMembers, ih, List.forall_mem_cons]

mutual

/-- A shuffled value has the same leaves and keys. -/
theorem Shuffled.leaves : ∀ {v w : PyJson}, Shuffled v w → Leaves P K v → Leaves P K w
  | _, _, .same _, hv => hv
  | _, _, .arr h hp, hv =>
      leavesItems_iff.mpr fun v hmem => leavesItems_iff.mp (h.leaves hv) v (hp.mem_iff.mpr hmem)
  | _, _, .obj h hp, hv =>
      leavesMembers_iff.mpr fun m hmem => leavesMembers_iff.mp (h.leaves hv) m (hp.mem_iff.mpr hmem)

theorem ShuffledItems.leaves : ∀ {vs ws : List PyJson}, ShuffledItems vs ws → LeavesItems P K vs →
    LeavesItems P K ws
  | _, _, .nil, hv => hv
  | _, _, .cons h hs, hv => ⟨h.leaves hv.1, hs.leaves hv.2⟩

theorem ShuffledMembers.leaves : ∀ {ms ns : List (PyStr × PyJson)}, ShuffledMembers ms ns →
    LeavesMembers P K ms →
    LeavesMembers P K ns
  | _, _, .nil, hv => hv
  | _, _, .cons h hs, hv => ⟨⟨hv.1.1, h.leaves hv.1.2⟩, hs.leaves hv.2⟩

end

mutual

/-- Distinct keys and readable leaves are all that a decoder asks of a text. -/
theorem readable_of_leaves {int : ℤ → Prop} (hint : ∀ i, P (.int i) → int i)
    (hlone : ∀ points, ¬ P (.str (.lone points)))
    (hkey : ∀ k, K k → ∃ s, k = .text s) : ∀ {v : PyJson}, Distinct v → Leaves P K v →
    JsonReader.Readable int v
  | .null, _, _ => trivial
  | .bool _, _, _ => trivial
  | .int i, _, h => hint i h
  | .decimal _, _, _ => trivial
  | .str (.text _), _, _ => trivial
  | .str (.lone points), _, h => hlone points h
  | .arr _, hd, h => readableItems_of_leaves hint hlone hkey hd h
  | .obj _, hd, h => ⟨hd.1, readableMembers_of_leaves hint hlone hkey hd.2 h⟩

/-- Items with readable leaves and text keys are readable. -/
theorem readableItems_of_leaves {int : ℤ → Prop} (hint : ∀ i, P (.int i) → int i)
    (hlone : ∀ points, ¬ P (.str (.lone points))) (hkey : ∀ k, K k → ∃ s, k = .text s) :
    ∀ {vs : List PyJson}, DistinctItems vs → LeavesItems P K vs → JsonReader.ReadableItems int vs
  | [], _, _ => trivial
  | _ :: _, hd, h => ⟨readable_of_leaves hint hlone hkey hd.1 h.1,
      readableItems_of_leaves hint hlone hkey hd.2 h.2⟩

theorem readableMembers_of_leaves {int : ℤ → Prop} (hint : ∀ i, P (.int i) → int i)
    (hlone : ∀ points, ¬ P (.str (.lone points))) (hkey : ∀ k, K k → ∃ s, k = .text s) :
    ∀ {ms : List (PyStr × PyJson)}, DistinctMembers ms → LeavesMembers P K ms →
    JsonReader.ReadableMembers int ms
  | [], _, _ => trivial
  | (k, _) :: _, hd, h =>
      ⟨hkey k h.1.1, readable_of_leaves hint hlone hkey hd.1 h.1.2,
        readableMembers_of_leaves hint hlone hkey hd.2 h.2⟩

end

open JsonReader (mapDecimals mapItems mapMembers) in
mutual

/-- Without decimals there is nothing to replace. -/
theorem mapDecimals_of_leaves {num : Decimal → PyJson} (hdec : ∀ d, ¬ P (.decimal d)) :
    ∀ {v : PyJson}, Leaves P K v → mapDecimals num v = v
  | .null, _ => rfl
  | .bool _, _ => rfl
  | .int _, _ => rfl
  | .decimal d, h => absurd h (hdec d)
  | .str _, _ => rfl
  | .arr _, h => congrArg PyJson.arr (mapItems_of_leaves hdec h)
  | .obj _, h => congrArg PyJson.obj (mapMembers_of_leaves hdec h)

/-- Without decimals the map over numbers changes nothing. -/
theorem mapItems_of_leaves {num : Decimal → PyJson} (hdec : ∀ d, ¬ P (.decimal d)) :
    ∀ {vs : List PyJson}, LeavesItems P K vs → mapItems num vs = vs
  | [], _ => rfl
  | _ :: _, h => congrArg₂ List.cons (mapDecimals_of_leaves hdec h.1) (mapItems_of_leaves hdec h.2)

theorem mapMembers_of_leaves {num : Decimal → PyJson} (hdec : ∀ d, ¬ P (.decimal d)) :
    ∀ {ms : List (PyStr × PyJson)}, LeavesMembers P K ms → mapMembers num ms = ms
  | [], _ => rfl
  | (k, _) :: _, h =>
      congrArg₂ List.cons (congrArg (Prod.mk k) (mapDecimals_of_leaves hdec h.1.2))
        (mapMembers_of_leaves hdec h.2)

end

end Leaves

/-- Shuffled objects have the same keys and shuffled members. -/
theorem shuffled_member {ms ns : List (PyStr × PyJson)} (h : Shuffled (.obj ms) (.obj ns))
    (hm : (ms.map Prod.fst).Nodup) :
    (ms.map Prod.fst).Perm (ns.map Prod.fst) ∧ ∀ key, Shuffled (member ms key) (member ns key) := by
  cases h with
  | same => exact ⟨List.Perm.refl _, fun _ => .same _⟩
  | @obj _ _ zs h hp =>
      have hkeys : (ms.map Prod.fst).Perm (ns.map Prod.fst) := h.keys_eq ▸ hp.map Prod.fst
      refine ⟨hkeys, fun key => ?_⟩
      unfold member
      cases hget : Dict.get? ms (.text key) with
      | none =>
          have hnot : PyStr.text key ∉ Dict.keys ns := fun hin =>
            Dict.get?_eq_none_iff.mp hget (hkeys.mem_iff.mpr hin)
          rw [Dict.get?_eq_none_iff.mpr hnot]
          exact .same _
      | some v =>
          obtain ⟨n, hn, hkey, hv⟩ :=
            mem_of_forall₂_right (shuffledMembers_iff.mp h) (Dict.mem_of_get? hget)
          have hget' : Dict.get? ns (.text key) = some n.2 := by
            refine Dict.get?_of_mem (hkeys.nodup_iff.mp hm) (hp.mem_iff.mp ?_)
            rw [show PyStr.text key = n.1 from hkey]
            exact hn
          rw [hget']
          exact hv

/-- An object has exactly the listed keys. -/
theorem keysAre_iff {ms : List (PyStr × PyJson)} {keys : List String} : keysAre ms keys = true ↔
    (∀ k ∈ ms.map Prod.fst, k ∈ keys.map PyStr.text) ∧ ∀ k ∈ keys,
    PyStr.text k ∈ ms.map Prod.fst := by
  rw [keysAre, Bool.and_eq_true, List.all_eq_true, List.all_eq_true]
  exact and_congr (forall₂_congr fun _ _ => decide_eq_true_iff)
    (forall₂_congr fun _ _ => decide_eq_true_iff)

/-- The order of the members does not matter to the check of keys. -/
theorem keysAre_perm {ms ns : List (PyStr × PyJson)} {keys : List String}
    (h : (ms.map Prod.fst).Perm (ns.map Prod.fst)) : keysAre ms keys = keysAre ns keys := by
  rw [Bool.eq_iff_iff, keysAre_iff, keysAre_iff]
  simp only [h.mem_iff]

/-- An object that has exactly the keys of another, and the other's members up to their order. -/
theorem shuffled_object {ms : List (PyStr × PyJson)} {ns : List (String × PyJson)}
    (hm : (ms.map Prod.fst).Nodup)
    (hk : (ns.map Prod.fst).Nodup) (h : keysAre ms (ns.map Prod.fst) = true)
    (hval : ∀ n ∈ ns, Shuffled (member ms n.1) n.2) :
    Shuffled (.obj ms) (.obj (ns.map fun n => (.text n.1, n.2))) := by
  rw [keysAre_iff] at h
  obtain ⟨hin, hall⟩ := h
  have hperm : ms.Perm (ns.map fun n => (PyStr.text n.1, member ms n.1)) := by
    refine (List.perm_ext_iff_of_nodup hm.of_map ?_).mpr fun m => ?_
    · refine List.Nodup.of_map Prod.fst ?_
      rw [List.map_map]
      exact (List.map_map (g := PyStr.text) (f := Prod.fst) ▸ hk.map fun a b hab =>
        PyStr.text.inj hab :)
    · rw [List.mem_map]
      constructor
      · intro hmem
        obtain ⟨key, hkey, heq⟩ := List.mem_map.mp (hin m.1 (List.mem_map_of_mem hmem))
        obtain ⟨n, hn, rfl⟩ := List.mem_map.mp hkey
        have hget : Dict.get? ms (.text n.1) = some m.2 := Dict.get?_of_mem hm (heq ▸ hmem)
        exact ⟨n, hn, by rw [member, hget, heq, Option.getD_some]⟩
      · rintro ⟨n, hn, rfl⟩
        obtain ⟨v, hv⟩ :=
          Option.isSome_iff_exists.mp (Dict.get?_isSome_iff.mpr (hall n.1 (List.mem_map_of_mem hn)))
        rw [member, hv, Option.getD_some]
        exact Dict.mem_of_get? hv
  refine Shuffled.trans
    (.obj (shuffledMembers_iff.mpr (List.forall₂_same.mpr fun m _ => ⟨rfl, .same m.2⟩)) hperm)
    (.obj ?_ (List.Perm.refl _))
  rw [shuffledMembers_iff, List.forall₂_map_left_iff, List.forall₂_map_right_iff]
  exact List.forall₂_same.mpr fun n hn => ⟨rfl, hval n hn⟩

end PyJson
