/-
# JSON up to key order and spelling

`PyJson.Same`: two values that differ in the order of their members and in the spelling of their
numbers only. The normal form of a value sorts its members and spells its numbers as a decoder reads
them from plain decimal texts.

* `normal_eq_iff`: two values are the same exactly when they have one normal form.
-/
import EvidenceLab.DecimalPlain
import EvidenceLab.JsonShuffle
import EvidenceLab.StableSort

/-! ## Texts by their code points -/

/-- A text that is kept as code points has a surrogate among them. -/
def PyStr.WellFormed : PyStr → Prop
  | .text _ => True
  | .lone points => ∃ n ∈ points, ¬ n.isValidChar

/-- Well-formed strings are known by their code points. -/
theorem PyStr.points_inj {s t : PyStr} (hs : s.WellFormed) (ht : t.WellFormed)
    (h : s.points = t.points) : s = t := by
  have hvalid : ∀ (text : String), ∀ n ∈ (PyStr.text text).points, n.isValidChar := by
    intro text n hn
    obtain ⟨c, -, rfl⟩ := List.mem_map.mp hn
    exact c.valid
  cases s with
  | text s =>
      cases t with
      | text t =>
          have hinj : Function.Injective Char.toNat := fun a b hab => Char.toNat_inj.mp hab
          exact congrArg PyStr.text (String.toList_inj.mp (List.map_injective_iff.mpr hinj h))
      | lone points =>
          obtain ⟨n, hn, hbad⟩ := ht
          rw [show (PyStr.lone points).points = points from rfl] at h
          exact absurd (hvalid s n (h ▸ hn)) hbad
  | lone points =>
      cases t with
      | text t =>
          obtain ⟨n, hn, hbad⟩ := hs
          rw [show (PyStr.lone points).points = points from rfl] at h
          exact absurd (hvalid t n (h ▸ hn)) hbad
      | lone points' => exact congrArg PyStr.lone h

namespace PyJson

open JsonReader (mapDecimals mapItems mapMembers)

/-! ## Same values -/

/-- The number that a value is. -/
def number? : PyJson → Option ℚ
  | .int i => some i
  | .decimal d => some d.value
  | _ => none

mutual

/-- The values are equal, with the order of keys ignored and numbers compared as numbers. -/
inductive Same : PyJson → PyJson → Prop
  | null : Same .null .null
  | bool (b : Bool) : Same (.bool b) (.bool b)
  | str (s : PyStr) : Same (.str s) (.str s)
  | number {v w : PyJson} {x : ℚ} (hv : v.number? = some x) (hw : w.number? = some x) : Same v w
  | arr {xs ys : List PyJson} (h : SameItems xs ys) : Same (.arr xs) (.arr ys)
  | obj {xs ys zs : List (PyStr × PyJson)} (h : SameMembers xs zs) (hp : zs.Perm ys) :
      Same (.obj xs) (.obj ys)

/-- Item by item, in order. -/
inductive SameItems : List PyJson → List PyJson → Prop
  | nil : SameItems [] []
  | cons {v w : PyJson} {vs ws : List PyJson} (h : Same v w) (hs : SameItems vs ws) :
      SameItems (v :: vs) (w :: ws)

/-- Member by member. -/
inductive SameMembers : List (PyStr × PyJson) → List (PyStr × PyJson) → Prop
  | nil : SameMembers [] []
  | cons {k : PyStr} {v w : PyJson} {vs ws : List (PyStr × PyJson)} (h : Same v w)
      (hs : SameMembers vs ws) :
      SameMembers ((k, v) :: vs) ((k, w) :: ws)

end

/-- Two members with one key and the same value. -/
def SameMember (m n : PyStr × PyJson) : Prop := m.1 = n.1 ∧ Same m.2 n.2

/-- Members are the same one by one. -/
theorem sameMembers_iff {xs ys : List (PyStr × PyJson)} :
    SameMembers xs ys ↔ List.Forall₂ SameMember xs ys := by
  constructor
  · intro h
    induction xs generalizing ys with
    | nil =>
        cases h
        exact .nil
    | cons v xs ih =>
        cases h with
        | cons h hs => exact .cons ⟨rfl, h⟩ (ih hs)
  · intro h
    induction h with
    | nil => exact .nil
    | @cons m n _ _ h _ ih =>
        obtain ⟨k, v⟩ := m
        obtain ⟨k', w⟩ := n
        obtain ⟨rfl, h⟩ := h
        exact .cons h ih

mutual

/-- Sameness is symmetric. -/
theorem Same.symm : ∀ {v w : PyJson}, Same v w → Same w v
  | _, _, .null => .null
  | _, _, .bool b => .bool b
  | _, _, .str s => .str s
  | _, _, .number hv hw => .number hw hv
  | _, _, .arr h => .arr h.symm
  | _, _, @Same.obj xs ys zs h hp => by
      obtain ⟨us, hus, hp'⟩ :=
        List.perm_comp_forall₂ hp.symm (sameMembers_iff.mp (SameMembers.symm h))
      exact .obj (sameMembers_iff.mpr hus) hp'

theorem SameItems.symm : ∀ {xs ys : List PyJson}, SameItems xs ys → SameItems ys xs
  | _, _, .nil => .nil
  | _, _, .cons h hs => .cons h.symm hs.symm

theorem SameMembers.symm : ∀ {xs ys : List (PyStr × PyJson)}, SameMembers xs ys → SameMembers ys xs
  | _, _, .nil => .nil
  | _, _, .cons h hs => .cons h.symm hs.symm

end

/-- A value that is the same as a number is one. -/
theorem Same.number_left {v w : PyJson} {x : ℚ} (hv : v.number? = some x) (h : Same v w) :
    w.number? = some x := by
  cases h with
  | null => cases hv
  | bool b => cases hv
  | str s => cases hv
  | number hv' hw => rw [hw, ← hv', hv]
  | arr h => cases hv
  | obj h hp => cases hv

mutual

/-- Sameness is transitive. -/
theorem Same.trans : ∀ {u v w : PyJson}, Same u v → Same v w → Same u w
  | _, _, _, .null, h' => h'
  | _, _, _, .bool _, h' => h'
  | _, _, _, .str _, h' => h'
  | _, _, _, .number hu hv, h' => .number hu (h'.number_left hv)
  | _, _, _, @Same.arr xs ys h, h' => by
      generalize hv : PyJson.arr ys = v at h'
      cases h' with
      | number hv' hw =>
          subst hv
          cases hv'
      | @arr _ zs h' =>
          obtain rfl := PyJson.arr.inj hv
          exact .arr (h.trans h')
      | _ => cases hv
  | _, _, _, @Same.obj xs ys zs h hp, h' => by
      generalize hv : PyJson.obj ys = v at h'
      cases h' with
      | number hv' hw =>
          subst hv
          cases hv'
      | @obj _ us ts h' hp' =>
          obtain rfl := PyJson.obj.inj hv
          obtain ⟨ss, hss, hp''⟩ := List.perm_comp_forall₂ hp (sameMembers_iff.mp h')
          exact .obj (SameMembers.trans h (sameMembers_iff.mpr hss)) (hp''.trans hp')
      | _ => cases hv

theorem SameItems.trans : ∀ {us vs ws : List PyJson}, SameItems us vs → SameItems vs ws →
    SameItems us ws
  | _, _, _, .nil, h' => h'
  | _, _, _, .cons h hs, h' => by
      cases h' with
      | cons h' hs' => exact .cons (h.trans h') (hs.trans hs')

theorem SameMembers.trans : ∀ {us vs ws : List (PyStr × PyJson)}, SameMembers us vs →
    SameMembers vs ws →
    SameMembers us ws
  | _, _, _, .nil, h' => h'
  | _, _, _, .cons h hs, h' => by
      cases h' with
      | cons h' hs' => exact .cons (h.trans h') (hs.trans hs')

end

mutual

/-- The order of keys does not count. -/
theorem same_sortKeys : ∀ v : PyJson, Same v v.sortKeys
  | .null => .null
  | .bool b => .bool b
  | .int _ => .number rfl rfl
  | .decimal _ => .number rfl rfl
  | .str s => .str s
  | .arr items => by
      rw [sortKeys]
      exact .arr (sameItems_sort items)
  | .obj members => by
      rw [sortKeys]
      exact .obj (sameMembers_sort members) (List.perm_insertionSort _ _).symm

/-- Sorting the items inside gives the same items. -/
theorem sameItems_sort : ∀ vs : List PyJson, SameItems vs (sortItems vs)
  | [] => .nil
  | v :: vs => .cons (same_sortKeys v) (sameItems_sort vs)

theorem sameMembers_sort : ∀ ms : List (PyStr × PyJson), SameMembers ms (sortMembers ms)
  | [] => .nil
  | (_, v) :: ms => .cons (same_sortKeys v) (sameMembers_sort ms)

end

/-! ## Numbers as their plain texts are read -/

/-- A decimal without places is an integer. -/
def plainNumber (d : Decimal) : PyJson :=
  if d.plainParts.2 = 0 then .int d.plain.signed else .decimal d.plain

/-- A decimal without a fraction is an integer in plain notation. -/
theorem value_of_whole {d : Decimal} (h : d.plainParts.2 = 0) : (d.plain.signed : ℚ) = d.value := by
  rw [← Decimal.plain_value d, Decimal.value_eq_signed, Decimal.plain, h]
  simp

/-- The plain form of a decimal has its value. -/
theorem number?_plainNumber (d : Decimal) : (plainNumber d).number? = some d.value := by
  unfold plainNumber
  split_ifs with h
  · rw [number?, value_of_whole h]
  · rw [number?, Decimal.plain_value]

/-- **Equal numbers are read alike.** -/
theorem plainNumber_congr {a b : Decimal} (h : a.value = b.value) :
    plainNumber a = plainNumber b := by
  have hparts := Decimal.plainParts_eq (congrArg abs h)
  unfold plainNumber
  rw [← hparts]
  split_ifs with hwhole
  · have hab : (a.plain.signed : ℚ) = b.plain.signed := by
      rw [value_of_whole hwhole, value_of_whole (hparts ▸ hwhole), h]
    rw [show a.plain.signed = b.plain.signed from by exact_mod_cast hab]
  · have hzero : a.value ≠ 0 := by
      intro h0
      have hzero : Decimal.plainParts a = Decimal.plainParts ⟨false, 0, 0⟩ :=
        Decimal.plainParts_eq (by rw [h0]; simp [Decimal.value])
      exact hwhole (by rw [hzero]; rfl)
    rw [Decimal.plain_eq_iff.mpr ⟨h, fun h0 => absurd h0 hzero⟩]

/-- The decimal of an integer. -/
def ofInt (i : ℤ) : Decimal := ⟨decide (i < 0), i.natAbs, 0⟩

theorem value_ofInt (i : ℤ) : (ofInt i).value = i := by
  rw [Decimal.value_eq_signed, ofInt, Decimal.signed]
  by_cases h : i < 0
  · simp only [h, decide_true, if_true, zpow_zero, mul_one]
    rw [Int.ofNat_natAbs_of_nonpos h.le]
    simp
  · simp only [h, decide_false, zpow_zero, mul_one]
    rw [if_neg (by simp), Int.natAbs_of_nonneg (by omega)]

theorem plainNumber_ofInt (i : ℤ) : plainNumber (ofInt i) = .int i := by
  have hwhole : (ofInt i).plainParts.2 = 0 := rfl
  have hvalue := value_of_whole hwhole
  rw [value_ofInt] at hvalue
  rw [plainNumber, if_pos hwhole, show (ofInt i).plain.signed = i from by exact_mod_cast hvalue]

/-! ## The normal form -/

/-- The members sorted by their keys and the numbers as they are read. -/
def normal (v : PyJson) : PyJson := mapDecimals plainNumber v.sortKeys

theorem mapItems_eq_map (num : Decimal → PyJson) (vs : List PyJson) :
    mapItems num vs = vs.map (mapDecimals num) := by
  induction vs with
  | nil => rfl
  | cons v vs ih => rw [mapItems, ih, List.map_cons]

theorem mapMembers_eq_map (num : Decimal → PyJson) (ms : List (PyStr × PyJson)) :
    mapMembers num ms = ms.map fun m => (m.1, mapDecimals num m.2) := by
  induction ms with
  | nil => rfl
  | cons m ms ih => rw [mapMembers, ih, List.map_cons]

theorem sortItems_eq_map (vs : List PyJson) : sortItems vs = vs.map sortKeys := by
  induction vs with
  | nil => rfl
  | cons v vs ih => rw [sortItems, ih, List.map_cons]

theorem sortMembers_eq_map (ms : List (PyStr × PyJson)) :
    sortMembers ms = ms.map fun m => (m.1, m.2.sortKeys) := by
  induction ms with
  | nil => rfl
  | cons m ms ih => rw [sortMembers, ih, List.map_cons]

/-- Arrays are normalized item by item. -/
theorem normal_arr (items : List PyJson) : normal (.arr items) = .arr (items.map normal) := by
  rw [normal, sortKeys, mapDecimals, mapItems_eq_map, sortItems_eq_map, List.map_map]
  rfl

/-- Members by the order of their keys. -/
def byKey (ms : List (PyStr × PyJson)) : List (PyStr × PyJson) :=
  StableSort.sortBy (fun m => m.1.points) ms

/-- Objects are normalized and their members ordered. -/
theorem normal_obj (ms : List (PyStr × PyJson)) :
    normal (.obj ms) = .obj (byKey (ms.map fun m => (m.1, normal m.2))) := by
  have hsort := List.map_insertionSort (fun a b : PyStr × PyJson => a.1.points ≤ b.1.points)
    (fun a b : PyStr × PyJson => a.1.points ≤ b.1.points)
    (fun m => (m.1, mapDecimals plainNumber m.2))
    (ms.map fun m => (m.1, m.2.sortKeys)) fun _ _ _ _ => Iff.rfl
  rw [normal, sortKeys, mapDecimals, mapMembers_eq_map, sortMembers_eq_map, hsort, List.map_map]
  rfl

mutual

/-- Plain notation gives the same value. -/
theorem same_mapDecimals : ∀ v : PyJson, Same v (mapDecimals plainNumber v)
  | .null => .null
  | .bool b => .bool b
  | .int _ => .number rfl rfl
  | .decimal d => .number rfl (number?_plainNumber d)
  | .str s => .str s
  | .arr items => by
      rw [mapDecimals]
      exact .arr (sameItems_map items)
  | .obj members => by
      rw [mapDecimals]
      exact .obj (sameMembers_map members) (List.Perm.refl _)

theorem sameItems_map : ∀ vs : List PyJson, SameItems vs (mapItems plainNumber vs)
  | [] => .nil
  | v :: vs => .cons (same_mapDecimals v) (sameItems_map vs)

theorem sameMembers_map : ∀ ms : List (PyStr × PyJson), SameMembers ms (mapMembers plainNumber ms)
  | [] => .nil
  | (_, v) :: ms => .cons (same_mapDecimals v) (sameMembers_map ms)

end

/-- A value is its normal form. -/
theorem same_normal (v : PyJson) : Same v (normal v) := (same_sortKeys v).trans (same_mapDecimals _)

/-! ## One normal form -/

/-- The keys of every object are texts, and they are distinct. -/
def Keyed (v : PyJson) : Prop := Distinct v ∧ Leaves (fun _ => True) PyStr.WellFormed v

/-- The same members have the same keys. -/
theorem SameMembers.keys_eq {ms ns : List (PyStr × PyJson)} (h : SameMembers ms ns) :
    ms.map Prod.fst = ns.map Prod.fst := by
  rw [sameMembers_iff] at h
  induction h with
  | nil => rfl
  | cons h _ ih => rw [List.map_cons, List.map_cons, h.1, ih]

/-- Sorting by distinct keys erases the order. -/
theorem byKey_perm {ms ns : List (PyStr × PyJson)} (hp : ms.Perm ns)
    (hnodup : (ms.map Prod.fst).Nodup)
    (hkeys : ∀ k ∈ ms.map Prod.fst, k.WellFormed) : byKey ms = byKey ns := by
  refine StableSort.sortBy_eq_of_perm hp fun a ha b hb hab => ?_
  have hk :=
    PyStr.points_inj (hkeys _ (List.mem_map_of_mem ha)) (hkeys _ (List.mem_map_of_mem hb)) hab
  exact List.inj_on_of_nodup_map hnodup ha hb hk

mutual

/-- **The same values have one normal form.** -/
theorem Same.normal_eq : ∀ {v w : PyJson}, Same v w → Keyed v → normal v = normal w
  | _, _, .null, _ => rfl
  | _, _, .bool _, _ => rfl
  | _, _, .str _, _ => rfl
  | v, w, @Same.number _ _ x hv hw, _ => by
      have hnormal : ∀ {u : PyJson}, u.number? = some x → ∃ d : Decimal, d.value = x ∧
          normal u = plainNumber d := by
        intro u hu
        cases u with
        | int i => exact ⟨ofInt i, (value_ofInt i).trans (Option.some.inj hu),
            (plainNumber_ofInt i).symm⟩
        | decimal d => exact ⟨d, Option.some.inj hu, rfl⟩
        | _ => cases hu
      obtain ⟨a, ha, hva⟩ := hnormal hv
      obtain ⟨b, hb, hwb⟩ := hnormal hw
      rw [hva, hwb, plainNumber_congr (ha.trans hb.symm)]
  | _, _, .arr h, hv => by
      rw [normal_arr, normal_arr, h.normal_eq hv.1 hv.2]
  | _, _, @Same.obj xs ys zs h hp, hv => by
      have hkeys : (xs.map fun m => (m.1, normal m.2)).map Prod.fst = xs.map Prod.fst := by
        rw [List.map_map]
        rfl
      have hwell : ∀ k ∈ xs.map Prod.fst, k.WellFormed := by
        intro k hk
        obtain ⟨m, hm, rfl⟩ := List.mem_map.mp hk
        exact (leavesMembers_iff.mp hv.2 m hm).1
      have hperm :
          (xs.map fun m => (m.1, normal m.2)).Perm (ys.map fun m => (m.1, normal m.2)) := by
        rw [h.normal_eq hv.1.2 hv.2]
        exact hp.map _
      rw [normal_obj, normal_obj, byKey_perm hperm (hkeys ▸ hv.1.1) (hkeys ▸ hwell)]

theorem SameItems.normal_eq : ∀ {vs ws : List PyJson}, SameItems vs ws → DistinctItems vs →
    LeavesItems (fun _ => True) PyStr.WellFormed vs → vs.map normal = ws.map normal
  | _, _, .nil, _, _ => rfl
  | _, _, .cons h hs, hd, hl => by
      rw [List.map_cons, List.map_cons, h.normal_eq ⟨hd.1, hl.1⟩, hs.normal_eq hd.2 hl.2]

theorem SameMembers.normal_eq : ∀ {ms ns : List (PyStr × PyJson)}, SameMembers ms ns →
    DistinctMembers ms →
    LeavesMembers (fun _ => True) PyStr.WellFormed ms →
    (ms.map fun m => (m.1, normal m.2)) = ns.map fun m => (m.1, normal m.2)
  | _, _, .nil, _, _ => rfl
  | _, _, .cons h hs, hd, hl => by
      rw [List.map_cons, List.map_cons, h.normal_eq ⟨hd.1, hl.1.2⟩, hs.normal_eq hd.2 hl.2]

end

/-- **One normal form, the same value.** -/
theorem normal_eq_iff {v w : PyJson} (hv : Keyed v) : normal v = normal w ↔ Same v w := by
  refine ⟨fun h => ?_, fun h => h.normal_eq hv⟩
  have hw := (same_normal w).symm
  rw [← h] at hw
  exact (same_normal v).trans hw

end PyJson
