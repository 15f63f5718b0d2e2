/-
# The canonical text of a document

`Doc.dump` is the compact ASCII text of a document, as `json.dumps` writes it with the separators
`,` and `:`, and `canonicalJson` that of the document with the members of its objects in the order
of their keys.

`canonicalJson_eq_canonicalJson` says that the text determines the document up to that order, as
long as its numbers are decoded ones.
-/
import EvidenceLab.ConflictGroups
import EvidenceLab.JsonText

namespace Extraction

namespace Doc

/-! ## Numbers -/

/-- The characters of a number, of `NaN` and of `Infinity`. -/
def numeralChars : List Char :=
  ['0', '1', '2', '3', '4', '5', '6', '7', '8', '9', '+', '-', '.', 'e', 'E', 'N', 'a', 'I', 'n',
  'f', 'i', 't', 'y']

/-- The characters that a number starts with. -/
def numeralHeads : List Char := ['0', '1', '2', '3', '4', '5', '6', '7', '8', '9', '-', 'N', 'I']

/-- The text of a number. -/
structure Numeral (literal : String) : Prop where
  chars : ∀ c ∈ literal.toList, c ∈ numeralChars
  head : ∃ c ∈ literal.toList.head?, c ∈ numeralHeads

mutual

/-- A document with numbers in it that are numbers. -/
def Decoded : Doc → Prop
  | .num literal => Numeral literal
  | .arr xs => DecodedItems xs
  | .obj members => DecodedMembers members
  | _ => True

def DecodedItems : List Doc → Prop
  | [] => True
  | x :: xs => x.Decoded ∧ DecodedItems xs

def DecodedMembers : List (String × Doc) → Prop
  | [] => True
  | (_, x) :: members => x.Decoded ∧ DecodedMembers members

end

/-! ## The text -/

mutual

/-- The compact text of a document. -/
def dump : Doc → List Char
  | .null => ['n', 'u', 'l', 'l']
  | .bool true => ['t', 'r', 'u', 'e']
  | .bool false => ['f', 'a', 'l', 's', 'e']
  | .num literal => literal.toList
  | .str s => Json.strText s
  | .arr xs => '[' :: (dumpItems true xs ++ [']'])
  | .obj members => '{' :: (dumpMembers true members ++ ['}'])

def dumpItems : Bool → List Doc → List Char
  | _, [] => []
  | first, x :: xs => (if first then [] else [',']) ++ (x.dump ++ dumpItems false xs)

def dumpMembers : Bool → List (String × Doc) → List Char
  | _, [] => []
  | first, (key, x) :: members =>
      (if first then [] else [','])
      ++ (Json.strText key ++ ':' :: (x.dump ++ dumpMembers false members))

end

/-! ## Texts are self-delimiting -/

/-- What may follow a number without lengthening it. -/
def Stops (rest : List Char) : Prop := ∀ c ∈ rest.head?, c ∉ numeralChars

theorem stops_cons {c : Char} (hc : c ∉ numeralChars) (rest : List Char) : Stops (c :: rest) := by
  simpa [Stops] using hc

/-- A numeral ends where its characters do. -/
theorem takeWhile_numeral {ds rest : List Char} (hds : ∀ c ∈ ds, c ∈ numeralChars)
    (hrest : Stops rest) :
    (ds ++ rest).takeWhile (· ∈ numeralChars) = ds ∧
    (ds ++ rest).dropWhile (· ∈ numeralChars) = rest := by
  have hpos : ∀ c ∈ ds, decide (c ∈ numeralChars) = true := fun c hc => decide_eq_true (hds c hc)
  rw [List.takeWhile_append_of_pos hpos, List.dropWhile_append_of_pos hpos]
  cases rest with
  | nil => simp
  | cons c rest =>
      have hc : ¬ decide (c ∈ numeralChars) = true := by
        rw [decide_eq_true_iff]
        exact hrest c rfl
      rw [List.takeWhile_cons_of_neg (p := fun a => decide (a ∈ numeralChars)) hc,
        List.dropWhile_cons_of_neg (p := fun a => decide (a ∈ numeralChars)) hc, List.append_nil]
      exact ⟨rfl, rfl⟩

/-- The constructor of a document, as a number. -/
def shape : Doc → ℕ
  | .null => 0
  | .bool _ => 1
  | .num _ => 2
  | .str _ => 3
  | .arr _ => 4
  | .obj _ => 5

theorem shapeOfHead_numeral : ∀ c ∈ numeralHeads, Json.shapeOfHead c = 2 := by
  simp [numeralHeads, Json.shapeOfHead]

/-- Every text starts with a character that names its constructor. -/
theorem dump_head {d : Doc} (hd : d.Decoded) :
    ∃ c cs, d.dump = c :: cs ∧ Json.shapeOfHead c = d.shape
    ∧ c ≠ ']' := by
  cases d with
  | null => exact ⟨_, _, rfl, rfl, by decide⟩
  | bool b => cases b <;> exact ⟨_, _, rfl, rfl, by decide⟩
  | num literal =>
      obtain ⟨c, hc, hhead⟩ := Numeral.head hd
      cases hl : literal.toList with
      | nil =>
          rw [hl] at hc
          cases hc
      | cons c' cs =>
          rw [hl, List.head?_cons, Option.mem_some] at hc
          refine ⟨c', cs, by rw [dump, hl], shapeOfHead_numeral c' (hc ▸ hhead), ?_⟩
          rintro rfl
          rw [← hc] at hhead
          revert hhead
          decide
  | str s => exact ⟨_, _, by rw [dump, Json.strText], rfl, by decide⟩
  | arr xs => exact ⟨_, _, by rw [dump], rfl, by decide⟩
  | obj members => exact ⟨_, _, by rw [dump], rfl, by decide⟩

/-- Texts of different shapes differ in their first character. -/
theorem shape_eq_of_dump_append {d e : Doc} (hd : d.Decoded) (he : e.Decoded)
    {rest rest' : List Char}
    (h : d.dump ++ rest = e.dump ++ rest') : d.shape = e.shape := by
  obtain ⟨c, cs, hc, hs, -⟩ := dump_head hd
  obtain ⟨c', cs', hc', hs', -⟩ := dump_head he
  rw [hc, hc', List.cons_append, List.cons_append, List.cons.injEq] at h
  rw [← hs, ← hs', h.1]

/-- The text of a document does not begin with a closing bracket. -/
theorem dump_append_ne_close {d : Doc} (hd : d.Decoded) (rest rest' : List Char) :
    d.dump ++ rest ≠ ']' :: rest' := by
  intro h
  obtain ⟨c, cs, hc, -, hne⟩ := dump_head hd
  rw [hc, List.cons_append, List.cons.injEq] at h
  exact hne h.1

theorem stops_items (xs : List Doc) (rest : List Char) :
    Stops (dumpItems false xs ++ ']' :: rest) := by
  cases xs with
  | nil => exact stops_cons (by decide) _
  | cons x xs => exact stops_cons (c := ',') (by decide) _

theorem stops_members (members : List (String × Doc)) (rest : List Char) :
    Stops (dumpMembers false members ++ '}' :: rest) := by
  cases members with
  | nil => exact stops_cons (by decide) _
  | cons m members => exact stops_cons (c := ',') (by decide) _

mutual

/-- Followed by something that cannot lengthen a number, a text determines its document and its
rest. -/
theorem dump_append_inj : ∀ (d e : Doc) (rest rest' : List Char), d.Decoded → e.Decoded →
    Stops rest → Stops rest' →
    d.dump ++ rest = e.dump ++ rest' → d = e ∧ rest = rest'
  | .null, e, rest, rest', hd, he, _, _, h => by
      have hs := shape_eq_of_dump_append hd he h
      cases e with
      | null => simpa [dump] using h
      | _ => simp [shape] at hs
  | .bool b, e, rest, rest', hd, he, _, _, h => by
      have hs := shape_eq_of_dump_append hd he h
      cases e with
      | bool b' => cases b <;> cases b' <;> simp_all [dump]
      | _ => simp [shape] at hs
  -- what follows a number cannot lengthen it, so both numerals end at the same place
  | .num literal, e, rest, rest', hd, he, hr, hr', h => by
      have hs := shape_eq_of_dump_append hd he h
      cases e with
      | num literal' =>
          rw [dump, dump] at h
          obtain ⟨ht, hrest⟩ := takeWhile_numeral (Numeral.chars hd) hr
          obtain ⟨ht', hrest'⟩ := takeWhile_numeral (Numeral.chars he) hr'
          have hlit : literal.toList = literal'.toList := by rw [← ht, ← ht', h]
          exact ⟨by rw [String.toList_inj.mp hlit], by rw [← hrest, ← hrest', h]⟩
      | _ => simp [shape] at hs
  | .str s, e, rest, rest', hd, he, _, _, h => by
      have hs := shape_eq_of_dump_append hd he h
      cases e with
      | str s' =>
          rw [dump, dump] at h
          obtain ⟨hstr, hrest⟩ := Json.strText_append_inj h
          exact ⟨by rw [hstr], hrest⟩
      | _ => simp [shape] at hs
  | .arr xs, e, rest, rest', hd, he, _, _, h => by
      have hs := shape_eq_of_dump_append hd he h
      cases e with
      | arr ys =>
          simp only [dump, List.cons_append, List.append_assoc, List.nil_append,
            List.cons.injEq, true_and] at h
          obtain ⟨hxs, hrest⟩ := dumpItems_append_inj true xs ys rest rest' hd he h
          exact ⟨by rw [hxs], hrest⟩
      | _ => simp [shape] at hs
  | .obj ms, e, rest, rest', hd, he, _, _, h => by
      have hs := shape_eq_of_dump_append hd he h
      cases e with
      | obj ns =>
          simp only [dump, List.cons_append, List.append_assoc, List.nil_append,
            List.cons.injEq, true_and] at h
          obtain ⟨hms, hrest⟩ := dumpMembers_append_inj true ms ns rest rest' hd he h
          exact ⟨by rw [hms], hrest⟩
      | _ => simp [shape] at hs

theorem dumpItems_append_inj : ∀ (first : Bool) (xs ys : List Doc) (rest rest' : List Char),
    DecodedItems xs →
    DecodedItems ys → dumpItems first xs ++ ']' :: rest = dumpItems first ys ++ ']' :: rest' →
    xs = ys ∧ rest = rest'
  | _, [], [], rest, rest', _, _, h => by simpa [dumpItems] using h
  | first, [], y :: ys, rest, rest', _, hy, h => by
      cases first
      · simp [dumpItems] at h
      · simp only [dumpItems, List.nil_append, if_true, List.append_assoc] at h
        exact absurd h.symm (dump_append_ne_close hy.1 _ _)
  | first, x :: xs, [], rest, rest', hx, _, h => by
      cases first
      · simp [dumpItems] at h
      · simp only [dumpItems, List.nil_append, if_true, List.append_assoc] at h
        exact absurd h (dump_append_ne_close hx.1 _ _)
  | first, x :: xs, y :: ys, rest, rest', hx, hy, h => by
      simp only [dumpItems, List.append_assoc, List.append_cancel_left_eq] at h
      obtain ⟨hxy, hrest⟩ :=
        dump_append_inj x y _ _ hx.1 hy.1 (stops_items xs rest) (stops_items ys rest') h
      obtain ⟨hxs, hr⟩ := dumpItems_append_inj false xs ys rest rest' hx.2 hy.2 hrest
      exact ⟨by rw [hxy, hxs], hr⟩

theorem dumpMembers_append_inj :
    ∀ (first : Bool) (ms ns : List (String × Doc)) (rest rest' : List Char),
    DecodedMembers ms → DecodedMembers ns →
    dumpMembers first ms ++ '}' :: rest = dumpMembers first ns ++ '}' :: rest' →
    ms = ns ∧ rest = rest'
  | _, [], [], rest, rest', _, _, h => by simpa [dumpMembers] using h
  | first, [], (k', x') :: ns, rest, rest', _, _, h => by
      cases first <;> simp [dumpMembers, Json.strText] at h
  | first, (k, x) :: ms, [], rest, rest', _, _, h => by
      cases first <;> simp [dumpMembers, Json.strText] at h
  | first, (k, x) :: ms, (k', y) :: ns, rest, rest', hx, hy, h => by
      simp only [dumpMembers, List.append_assoc, List.append_cancel_left_eq, List.cons_append] at h
      obtain ⟨hk, hxy⟩ := Json.strText_append_inj h
      rw [List.cons.injEq] at hxy
      obtain ⟨hxy, hrest⟩ :=
        dump_append_inj x y _ _ hx.1 hy.1 (stops_members ms rest) (stops_members ns rest') hxy.2
      obtain ⟨hms, hr⟩ := dumpMembers_append_inj false ms ns rest rest' hx.2 hy.2 hrest
      exact ⟨by rw [hk, hxy, hms], hr⟩

end

/-- **The text determines the document.** -/
theorem dump_inj {d e : Doc} (hd : d.Decoded) (he : e.Decoded) (h : d.dump = e.dump) : d = e := by
  have h' : d.dump ++ [] = e.dump ++ [] := by rw [h]
  have hstops : Stops [] := by
    intro c hc
    cases hc
  exact (dump_append_inj d e [] [] hd he hstops hstops h').1

/-! ## Members in the order of their keys -/

/-- Members are decoded one by one. -/
theorem decodedMembers_iff {members : List (String × Doc)} :
    DecodedMembers members ↔ ∀ m ∈ members, m.2.Decoded := by
  induction members with
  | nil => simp [DecodedMembers]
  | cons m members ih => rw [DecodedMembers, ih, List.forall_mem_cons]

mutual

/-- A sorted document is decoded if the document is. -/
theorem Decoded.sorted : ∀ {d : Doc}, d.Decoded → d.sorted.Decoded
  | .null, h | .bool _, h | .num _, h | .str _, h => h
  | .arr xs, h => by
      rw [Doc.sorted, Decoded]
      exact DecodedItems.sorted h
  | .obj members, h => by
      rw [Doc.sorted, Decoded, decodedMembers_iff]
      intro m hm
      rw [List.mem_insertionSort] at hm
      exact decodedMembers_iff.mp (DecodedMembers.sorted h) m hm

theorem DecodedItems.sorted : ∀ {xs : List Doc}, DecodedItems xs → DecodedItems (Doc.sortedItems xs)
  | [], _ => trivial
  | _ :: _, h => ⟨Decoded.sorted h.1, DecodedItems.sorted h.2⟩

theorem DecodedMembers.sorted : ∀ {members : List (String × Doc)}, DecodedMembers members →
    DecodedMembers (Doc.sortedMembers members)
  | [], _ => trivial
  | (_, _) :: _, h => ⟨Decoded.sorted h.1, DecodedMembers.sorted h.2⟩

end

end Doc

/-- The fields of a decoded document are decoded. -/
theorem Doc.Decoded.field {d : Doc} (h : d.Decoded) (key : String) : (d.field key).Decoded := by
  cases d with
  | obj members =>
      rw [Doc.field, Doc.get?]
      cases hf : members.find? fun m => m.1 == key with
      | none => trivial
      | some m => exact Doc.decodedMembers_iff.mp h m (List.mem_of_find?_eq_some hf)
  | _ => trivial

/-- `canonical_json`. -/
def canonicalJson (d : Doc) : String := String.ofList d.sorted.dump

/-- **The canonical text determines the document**, up to the order of the members. -/
theorem canonicalJson_eq_canonicalJson {d e : Doc} (hd : d.Decoded) (he : e.Decoded) :
    canonicalJson d = canonicalJson e ↔ d.sorted = e.sorted := by
  constructor
  · intro h
    exact Doc.dump_inj hd.sorted he.sorted (String.ofList_injective h)
  · intro h
    rw [canonicalJson, h, canonicalJson]

end Extraction
