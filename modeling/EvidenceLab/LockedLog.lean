/-
# Logs whose entries are numbered before they are visible

Transactions append entries to the logs of many keys.  An entry takes its number from one shared
sequence when it is inserted and becomes visible when its transaction commits, so the order of the
numbers and the order of visibility can differ.

* A transaction is a script of statements, and every interleaving of the scripts is a run.
* `Covered` scripts lock a key before they insert under it; locks are kept to the end.
* A reader takes the entries of a key page by page, from the last number it has seen.
* `Sound.ordered`: when every script is covered, the visible entries of one key have their numbers
  in the order in which they became visible.
-/
import Mathlib.Data.List.Sort
import Mathlib.Logic.Function.Basic
import Mathlib.Tactic.Tauto

namespace LockedLog

variable {K P : Type*}

/-! ## Scripts -/

/-- A statement of a transaction. -/
inductive Stmt (K P : Type*) where
  /-- Wait for the lock of a key that exists. -/
  | lock (k : K)
  /-- Make a new key, which nobody else sees before the commit. -/
  | create (k : K)
  | insert (k : K) (p : P)
  | other

/-- Every insertion stands behind the lock or the creation of its key. -/
def Covered (held : K → Prop) : List (Stmt K P) → Prop
  | [] => True
  | .lock k :: rest => Covered (fun k' => held k' ∨ k' = k) rest
  | .create k :: rest => Covered (fun k' => held k' ∨ k' = k) rest
  | .insert k _ :: rest => held k ∧ Covered held rest
  | .other :: rest => Covered held rest

/-- A script that is covered stays so with more locks. -/
theorem Covered.mono {held held' : K → Prop} {script : List (Stmt K P)} (h : Covered held script)
    (hsub : ∀ k, held k → held' k) : Covered held' script := by
  induction script generalizing held held' with
  | nil => trivial
  | cons stmt rest ih =>
      cases stmt with
      | lock k => exact ih h fun k' => Or.imp_left (hsub k')
      | create k => exact ih h fun k' => Or.imp_left (hsub k')
      | insert k p => exact ⟨hsub k h.1, ih h.2 hsub⟩
      | other => exact ih h hsub

/-- A script may be followed by one that is covered under the same locks. -/
theorem Covered.append {held : K → Prop} {script rest : List (Stmt K P)} (h : Covered held script)
    (hrest : Covered held rest) : Covered held (script ++ rest) := by
  induction script generalizing held with
  | nil => exact hrest
  | cons stmt script ih =>
      cases stmt with
      | lock k => exact ih h (hrest.mono fun _ => Or.inl)
      | create k => exact ih h (hrest.mono fun _ => Or.inl)
      | insert k p => exact ⟨h.1, ih h.2 hrest⟩
      | other => exact ih h hrest

/-- The locks of a list of keys cover what follows them. -/
theorem covered_locks (held : K → Prop) {rest : List (Stmt K P)} {ks : List K}
    (h : Covered (fun k => held k ∨ k ∈ ks) rest) : Covered held (ks.map .lock ++ rest) := by
  induction ks generalizing held with
  | nil => exact h.mono (by simp)
  | cons k ks ih =>
      refine ih _ (h.mono fun k' hk => ?_)
      simp only [List.mem_cons] at hk
      tauto

/-! ## The state -/

structure Entry (K P : Type*) where
  id : ℕ
  key : K
  payload : P

/-- An open transaction. -/
structure Txn (K P : Type*) where
  todo : List (Stmt K P)
  pending : List (Entry K P)
  created : List K

/-- The committed keys, the keys that were ever made, the visible entries in the order of their
commits, the sequence, the locks and the open transactions. -/
structure Log (K P : Type*) where
  keys : List K
  minted : List K
  visible : List (Entry K P)
  nextId : ℕ
  locks : K → Option ℕ
  txns : ℕ → Option (Txn K P)

namespace Log

variable [DecidableEq K]

def init : Log K P := ⟨[], [], [], 1, fun _ => none, fun _ => none⟩

def setTxn (d : Log K P) (t : ℕ) (x : Option (Txn K P)) : Log K P :=
  { d with txns := Function.update d.txns t x }

/-- The locks without those of a transaction. -/
def released (d : Log K P) (t : ℕ) : K → Option ℕ :=
  fun k => if d.locks k = some t then none else d.locks k

def start (d : Log K P) (t : ℕ) (script : List (Stmt K P)) : Option (Log K P) :=
  match d.txns t with
  | some _ => none
  | none => some (d.setTxn t (some ⟨script, [], []⟩))

/-- The next statement of a transaction; it waits for a lock that another one has. -/
def exec (d : Log K P) (t : ℕ) : Option (Log K P) :=
  match d.txns t with
  | none => none
  | some ⟨[], _, _⟩ => none
  | some ⟨.lock k :: rest, pending, created⟩ =>
      if d.locks k = none ∨ d.locks k = some t then
        some { d.setTxn t (some ⟨rest, pending, created⟩) with
          locks := Function.update d.locks k (some t) }
      else none
  | some ⟨.create k :: rest, pending, created⟩ =>
      if k ∉ d.minted ∧ d.locks k = none then
        some { d.setTxn t (some ⟨rest, pending, created ++ [k]⟩) with
          locks := Function.update d.locks k (some t)
          minted := d.minted ++ [k] }
      else none
  | some ⟨.insert k p :: rest, pending, created⟩ =>
      some { d.setTxn t (some ⟨rest, pending ++ [⟨d.nextId, k, p⟩], created⟩) with
        nextId := d.nextId + 1 }
  | some ⟨.other :: rest, pending, created⟩ => some (d.setTxn t (some ⟨rest, pending, created⟩))

/-- The end of a script. -/
def commit (d : Log K P) (t : ℕ) : Option (Log K P) :=
  match d.txns t with
  | some ⟨[], pending, created⟩ =>
      some { d.setTxn t none with
        locks := d.released t
        visible := d.visible ++ pending
        keys := d.keys ++ created }
  | _ => none

/-- A rollback, at any point of a script.  The numbers it took are lost. -/
def abort (d : Log K P) (t : ℕ) : Option (Log K P) :=
  match d.txns t with
  | some _ => some { d.setTxn t none with locks := d.released t }
  | none => none

end Log

/-! ## The invariant -/

/-- An open transaction: it holds the locks of what it inserted, and its entries are later than the
visible ones of the same key. -/
structure Txn.Ok (locks : K → Option ℕ) (visible : List (Entry K P)) (nextId t : ℕ) (x : Txn K P) :
    Prop where
  covered : Covered (fun k => locks k = some t) x.todo
  held : ∀ e ∈ x.pending, locks e.key = some t
  fresh : ∀ e ∈ x.pending, 0 < e.id ∧ e.id < nextId
  ahead : ∀ e ∈ x.pending, ∀ v ∈ visible, v.key = e.key → v.id < e.id
  ordered : x.pending.Pairwise fun a b => a.id < b.id

structure Sound (d : Log K P) : Prop where
  positive : 0 < d.nextId
  fresh : ∀ e ∈ d.visible, 0 < e.id ∧ e.id < d.nextId
  ordered : d.visible.Pairwise fun a b => a.key = b.key → a.id < b.id
  txn : ∀ t x, d.txns t = some x → x.Ok d.locks d.visible d.nextId t

theorem sound_init : Sound (Log.init : Log K P) := by
  constructor <;> simp [Log.init]

/-- Other transactions take no lock that a transaction holds, and the sequence grows. -/
theorem Txn.Ok.mono {locks locks' : K → Option ℕ} {visible : List (Entry K P)}
    {nextId nextId' t : ℕ}
    {x : Txn K P} (h : x.Ok locks visible nextId t)
    (hlocks : ∀ k, locks k = some t → locks' k = some t) (hid : nextId ≤ nextId') :
    x.Ok locks' visible nextId' t :=
  { h with
    covered := h.covered.mono hlocks
    held := fun e he => hlocks e.key (h.held e he)
    fresh := fun e he => ⟨(h.fresh e he).1, Nat.lt_of_lt_of_le (h.fresh e he).2 hid⟩ }

section Steps

variable {d d' : Log K P} {t : ℕ}

/-- A step of one transaction that changes nothing visible. -/
theorem Sound.advance (hd : Sound d) (x : Option (Txn K P)) (locks' : K → Option ℕ)
    (minted' : List K) {nextId' : ℕ} (hid : d.nextId ≤ nextId')
    (hlocks : ∀ k t', t' ≠ t → d.locks k = some t' → locks' k = some t')
    (hx : ∀ y ∈ x, y.Ok locks' d.visible nextId' t) :
    Sound { d.setTxn t x with locks := locks', nextId := nextId', minted := minted' } where
  positive := Nat.lt_of_lt_of_le hd.positive hid
  fresh e he := ⟨(hd.fresh e he).1, Nat.lt_of_lt_of_le (hd.fresh e he).2 hid⟩
  ordered := hd.ordered
  txn t' y hy := by
    by_cases ht : t' = t
    · subst ht
      exact hx y (by simpa [Log.setTxn] using hy)
    · have hy' : d.txns t' = some y := by simpa [Log.setTxn, ht] using hy
      exact (hd.txn t' y hy').mono (fun k => hlocks k t' ht) hid

/-- **Starting a transaction** keeps the log sound. -/
theorem Sound.start (hd : Sound d) {script : List (Stmt K P)}
    (hscript : Covered (fun _ => False) script) (h : d.start t script = some d') :
    Sound d' ∧ d'.visible = d.visible := by
  unfold Log.start at h
  split at h
  · cases h
  · obtain rfl := Option.some.inj h
    refine ⟨hd.advance _ d.locks d.minted (Nat.le_refl _) (fun _ _ _ hk => hk) ?_, rfl⟩
    intro y hy
    obtain rfl := Option.mem_some_iff.mp hy
    exact ⟨hscript.mono fun _ => False.elim, by simp, by simp, by simp, by simp⟩

/-- A free key is taken by one transaction. -/
theorem locks_update [DecidableEq K] {k k' : K} {t' : ℕ}
    (hfree : d.locks k = none ∨ d.locks k = some t)
    (ht : t' ≠ t) (h : d.locks k' = some t') :
    Function.update d.locks k (some t) k' = some t' := by
  have hk : k' ≠ k := by
    rintro rfl
    rcases hfree with hfree | hfree
    · rw [hfree] at h; cases h
    · rw [hfree, Option.some.injEq] at h; exact ht h.symm
  rw [Function.update_of_ne hk]
  exact h

/-- A transaction that took a lock. -/
theorem Txn.Ok.locked [DecidableEq K] {k : K} {rest : List (Stmt K P)} {pending : List (Entry K P)}
    {created created' : List K} {rest' : List (Stmt K P)}
    (hcov : Covered (fun k' => d.locks k' = some t ∨ k' = k) rest)
    (h : Txn.Ok d.locks d.visible d.nextId t ⟨rest', pending, created⟩) :
    Txn.Ok (Function.update d.locks k (some t)) d.visible d.nextId t ⟨rest, pending, created'⟩ := by
  have hkeep : ∀ k', d.locks k' = some t → Function.update d.locks k (some t) k' = some t := by
    intro k' hk'
    by_cases hk : k' = k
    · subst hk; simp
    · rw [Function.update_of_ne hk]; exact hk'
  refine ⟨hcov.mono ?_, fun e he => hkeep e.key (h.held e he), h.fresh, h.ahead, h.ordered⟩
  rintro k' (hk | rfl)
  · exact hkeep k' hk
  · simp

/-- **A statement.**  The entry of an insertion is the latest of all, and the transaction holds the
lock of its key. -/
theorem Sound.exec [DecidableEq K] (hd : Sound d) (h : d.exec t = some d') :
    Sound d' ∧ d'.visible = d.visible := by
  unfold Log.exec at h
  split at h
  · cases h
  · cases h
  · -- `advance` on a lock: the key is free or its own
    rename_i k rest pending created hx
    have hok := hd.txn t _ hx
    split at h
    · rename_i hfree
      obtain rfl := Option.some.inj h
      refine ⟨hd.advance _ _ d.minted (Nat.le_refl _) (fun _ _ => locks_update hfree) ?_, rfl⟩
      intro y hy
      obtain rfl := Option.mem_some_iff.mp hy
      exact Txn.Ok.locked hok.covered hok
    · cases h
  · -- a lock that is tried and taken
    rename_i k rest pending created hx
    have hok := hd.txn t _ hx
    split at h
    · rename_i hfree
      obtain rfl := Option.some.inj h
      refine ⟨hd.advance _ _ _ (Nat.le_refl _) (fun _ _ => locks_update (.inl hfree.2)) ?_, rfl⟩
      intro y hy
      obtain rfl := Option.mem_some_iff.mp hy
      exact Txn.Ok.locked hok.covered hok
    · cases h
  · -- an insertion takes the next id, which is above all the others
    rename_i k p rest pending created hx
    have hok := hd.txn t _ hx
    obtain rfl := Option.some.inj h
    refine ⟨hd.advance _ d.locks d.minted (Nat.le_succ _) (fun _ _ _ hk => hk) ?_, rfl⟩
    intro y hy
    obtain rfl := Option.mem_some_iff.mp hy
    have hcases : ∀ e ∈ pending ++ [⟨d.nextId, k, p⟩], e ∈ pending ∨ e = ⟨d.nextId, k, p⟩ := by
      intro e he
      simpa using he
    refine ⟨hok.covered.2, ?_, ?_, ?_, ?_⟩
    · intro e he
      rcases hcases e he with he | rfl
      · exact hok.held e he
      · exact hok.covered.1
    · intro e he
      rcases hcases e he with he | rfl
      · exact ⟨(hok.fresh e he).1, Nat.lt_succ_of_lt (hok.fresh e he).2⟩
      · exact ⟨hd.positive, Nat.lt_succ_self _⟩
    · intro e he v hv hk
      rcases hcases e he with he | rfl
      · exact hok.ahead e he v hv hk
      · exact (hd.fresh v hv).2
    · refine List.pairwise_append.mpr ⟨hok.ordered, List.pairwise_singleton _ _, ?_⟩
      intro a ha b hb
      rw [List.mem_singleton.mp hb]
      exact (hok.fresh a ha).2
  · -- a statement that touches no key
    rename_i rest pending created hx
    have hok := hd.txn t _ hx
    obtain rfl := Option.some.inj h
    refine ⟨hd.advance _ d.locks d.minted (Nat.le_refl _) (fun _ _ _ hk => hk) ?_, rfl⟩
    intro y hy
    obtain rfl := Option.mem_some_iff.mp hy
    exact ⟨hok.covered, hok.held, hok.fresh, hok.ahead, hok.ordered⟩

theorem released_of_ne {k : K} {t' : ℕ} (ht : t' ≠ t) (h : d.locks k = some t') :
    d.released t k = some t' := by
  rw [Log.released, h, if_neg (by simpa using ht)]

/-- **An abort** keeps the log sound and shows nothing. -/
theorem Sound.abort (hd : Sound d) (h : d.abort t = some d') :
    Sound d' ∧ d'.visible = d.visible := by
  unfold Log.abort at h
  split at h
  · obtain rfl := Option.some.inj h
    exact ⟨hd.advance _ _ d.minted (Nat.le_refl _) (fun _ _ => released_of_ne) (by simp), rfl⟩
  · cases h

/-- **A commit.**  What becomes visible is later than all visible entries of its keys. -/
theorem Sound.commit (hd : Sound d) (h : d.commit t = some d') :
    Sound d' ∧ ∃ new, d'.visible = d.visible ++ new := by
  unfold Log.commit at h
  split at h
  · rename_i pending created hx
    have hok := hd.txn t _ hx
    obtain rfl := Option.some.inj h
    refine ⟨⟨hd.positive, ?_, ?_, ?_⟩, pending, rfl⟩
    · intro e he
      rcases List.mem_append.mp he with he | he
      · exact hd.fresh e he
      · exact hok.fresh e he
    · refine List.pairwise_append.mpr ⟨hd.ordered, ?_, ?_⟩
      · refine List.Pairwise.imp ?_ hok.ordered
        intro a b hlt _
        exact hlt
      · intro v hv e he hk
        exact hok.ahead e he v hv hk
    · intro t' y hy
      have ht : t' ≠ t := by
        rintro rfl
        simp [Log.setTxn] at hy
      have hy' : d.txns t' = some y := by simpa [Log.setTxn, ht] using hy
      have hy := hd.txn t' y hy'
      refine { hy.mono (fun k => released_of_ne ht) (Nat.le_refl _) with ahead := ?_ }
      -- no key is locked by both transactions
      intro e he v hv hk
      rcases List.mem_append.mp hv with hv | hv
      · exact hy.ahead e he v hv hk
      · have hlock := hy.held e he
        rw [← hk, hok.held v hv, Option.some.injEq] at hlock
        exact absurd hlock.symm ht
  · cases h

end Steps

/-! ## Pages -/

section Pages

/-- The number that a reader has seen after a page. -/
def lastId (lo : ℕ) (page : List (Entry K P)) : ℕ := (page.getLast?.map Entry.id).getD lo

/-- A list of increasing numbers, cut at a number. -/
theorem filter_le_append_filter_lt {l : List (Entry K P)} (h : l.Pairwise fun a b => a.id < b.id)
    (c : ℕ) : (l.filter fun e => e.id ≤ c) ++ (l.filter fun e => c < e.id) = l := by
  induction l with
  | nil => rfl
  | cons e l ih =>
      obtain ⟨hlater, hl⟩ := List.pairwise_cons.mp h
      by_cases he : e.id ≤ c
      · have hnot : ¬ c < e.id := by omega
        simp only [List.filter_cons, he, hnot, decide_true, decide_false, if_true,
          Bool.false_eq_true, if_false, List.cons_append, ih hl]
      · -- everything behind a number above `c` is above `c`
        have hnone : (l.filter fun e => e.id ≤ c) = [] := by
          refine List.filter_eq_nil_iff.mpr fun x hx => ?_
          have := hlater x hx
          simp only [decide_eq_true_eq]
          omega
        have hall : (l.filter fun e => c < e.id) = l := by
          refine List.filter_eq_self.mpr fun x hx => ?_
          have := hlater x hx
          simp only [decide_eq_true_eq]
          omega
        have hc : c < e.id := by omega
        simp [he, hc, hnone, hall]

/-- A number that a reader can have seen. -/
def Log.Seen (d : Log K P) (k : K) (c : ℕ) : Prop := c = 0 ∨ ∃ e ∈ d.visible, e.key = k ∧ e.id = c

/-- What has been seen stays seen. -/
theorem Log.Seen.grow {d d' : Log K P} {k : K} {c : ℕ} {new : List (Entry K P)} (h : d.Seen k c)
    (hvis : d'.visible = d.visible ++ new) : d'.Seen k c := by
  rcases h with h | ⟨e, he, hk⟩
  · exact .inl h
  · exact .inr ⟨e, hvis ▸ List.mem_append_left _ he, hk⟩

variable [DecidableEq K]

/-- The visible entries of a key with a number above `lo`. -/
def Log.after (d : Log K P) (k : K) (lo : ℕ) : List (Entry K P) :=
  d.visible.filter fun e => e.key = k ∧ lo < e.id

/-- The visible entries of a key with a number above `lo` and up to `hi`. -/
def Log.between (d : Log K P) (k : K) (lo hi : ℕ) : List (Entry K P) :=
  d.visible.filter fun e => e.key = k ∧ lo < e.id ∧ e.id ≤ hi

/-- The `n` first entries above `lo`. -/
def Log.page (d : Log K P) (k : K) (lo n : ℕ) : List (Entry K P) :=
  ((d.after k lo).insertionSort fun a b => a.id ≤ b.id).take n

variable {d : Log K P} {k : K} {lo c hi n : ℕ}

/-- The entries of a key are in increasing order. -/
theorem Sound.after_ordered (hd : Sound d) : (d.after k lo).Pairwise fun a b => a.id < b.id := by
  have h := hd.ordered.filter (fun e : Entry K P => e.key = k ∧ lo < e.id)
  refine List.Pairwise.imp_of_mem ?_ h
  intro a b ha hb hlt
  simp only [Log.after, List.mem_filter, decide_eq_true_eq] at ha hb
  exact hlt (ha.2.1.trans hb.2.1.symm)

/-- The entries between two ids are those after the first up to the second. -/
theorem between_eq_filter_after : d.between k lo hi = (d.after k lo).filter fun e => e.id ≤ hi := by
  rw [Log.between, Log.after, List.filter_filter]
  refine List.filter_congr fun e _ => ?_
  simp only [← Bool.decide_and, decide_eq_decide]
  tauto

/-- The entries between two ids are in increasing order. -/
theorem Sound.between_ordered (hd : Sound d) :
    (d.between k lo hi).Pairwise fun a b => a.id < b.id := by
  rw [between_eq_filter_after]
  exact hd.after_ordered.filter _

/-- Two ranges that meet are one. -/
theorem Sound.between_append (hd : Sound d) (hlo : lo ≤ c) (hhi : c ≤ hi) :
    d.between k lo c ++ d.between k c hi = d.between k lo hi := by
  have hsorted : (d.between k lo hi).Pairwise fun a b => a.id < b.id := hd.between_ordered
  rw [← filter_le_append_filter_lt hsorted c, Log.between, Log.between, Log.between,
    List.filter_filter, List.filter_filter]
  congr 1
  · refine List.filter_congr fun e _ => ?_
    by_cases hk : e.key = k
    · simp only [hk, true_and, ← Bool.decide_and, decide_eq_decide]
      omega
    · simp [hk]
  · refine List.filter_congr fun e _ => ?_
    by_cases hk : e.key = k
    · simp only [hk, true_and, ← Bool.decide_and, decide_eq_decide]
      omega
    · simp [hk]

/-- A page is the beginning of what comes after. -/
theorem Sound.page_eq (hd : Sound d) : d.page k lo n = (d.after k lo).take n := by
  have hsorted : (d.after k lo).Pairwise fun a b => a.id ≤ b.id :=
    List.Pairwise.imp Nat.le_of_lt hd.after_ordered
  rw [Log.page, hsorted.insertionSort_eq]

/-- The page above `lo` ends where the rest begins. -/
theorem Sound.page_split (hd : Sound d) (k : K) (lo : ℕ) (hn : 0 < n) :
    lo ≤ lastId lo (d.page k lo n)
      ∧ d.between k lo (lastId lo (d.page k lo n)) = d.page k lo n
      ∧ ((d.page k lo n).length < n → d.after k (lastId lo (d.page k lo n)) = []) := by
  rw [hd.page_eq]
  have hsplit := List.take_append_drop n (d.after k lo)
  have hsorted : (d.after k lo).Pairwise fun a b => a.id < b.id := hd.after_ordered
  have hlo : ∀ e ∈ d.after k lo, lo < e.id := by
    intro e he
    simp only [Log.after, List.mem_filter, decide_eq_true_eq] at he
    exact he.2.2
  have hshort : ((d.after k lo).take n).length < n → (d.after k lo).drop n = [] := by
    intro hlen
    rw [List.length_take] at hlen
    exact List.drop_eq_nil_of_le (by omega)
  rcases List.eq_nil_or_concat ((d.after k lo).take n) with hnil | ⟨page, e, hpage⟩
  · -- an empty page: nothing stands above `lo`
    have hempty : d.after k lo = [] := by
      rw [← hsplit, hnil, hshort (by simpa [hnil] using hn), List.nil_append]
    have hbetween : d.between k lo lo = [] := by
      rw [between_eq_filter_after, hempty, List.filter_nil]
    simp [lastId, hempty, hbetween]
  · rw [List.concat_eq_append] at hpage
    have hlast : lastId lo ((d.after k lo).take n) = e.id := by
      simp [lastId, hpage]
    rw [hlast]
    rw [← hsplit] at hsorted
    obtain ⟨hpre, -, hcross⟩ := List.pairwise_append.mp hsorted
    have hrest : ∀ x ∈ (d.after k lo).drop n, e.id < x.id := fun x hx =>
      hcross e (by rw [hpage]; simp) x hx
    have hle : ∀ x ∈ (d.after k lo).take n, x.id ≤ e.id := by
      intro x hx
      rw [hpage, List.pairwise_append] at hpre
      rw [hpage] at hx
      rcases List.mem_append.mp hx with hx | hx
      · exact Nat.le_of_lt (hpre.2.2 x hx e (by simp))
      · exact Nat.le_of_eq (by rw [List.mem_singleton.mp hx])
    have helo : lo < e.id := hlo e (List.mem_of_mem_take (by rw [hpage]; simp))
    refine ⟨Nat.le_of_lt helo, ?_, fun hlen => ?_⟩
    · rw [between_eq_filter_after]
      nth_rewrite 1 [← hsplit]
      rw [List.filter_append, List.filter_eq_self.mpr (by simpa using hle),
        List.filter_eq_nil_iff.mpr (by simpa using hrest), List.append_nil]
    · refine List.filter_eq_nil_iff.mpr fun x hx hcond => ?_
      simp only [decide_eq_true_eq] at hcond
      have hmem : x ∈ d.after k lo :=
        List.mem_filter.mpr ⟨hx, by simp only [decide_eq_true_eq]; exact ⟨hcond.1, by omega⟩⟩
      rw [← hsplit, hshort hlen, List.append_nil] at hmem
      have := hle x hmem
      omega

/-- A page lowers the number of entries up to `hi` that wait. -/
theorem Sound.length_between_page (hd : Sound d) (k : K) (lo hi : ℕ) (hn : 0 < n) :
    (d.between k (lastId lo (d.page k lo n)) hi).length ≤ (d.between k lo hi).length - n := by
  obtain ⟨hlo, hpage, hshort⟩ := hd.page_split k lo hn
  by_cases hc : lastId lo (d.page k lo n) ≤ hi
  · have hlen := congrArg List.length (hd.between_append (k := k) hlo hc)
    rw [List.length_append, hpage] at hlen
    by_cases hfull : (d.page k lo n).length < n
    · rw [between_eq_filter_after, hshort hfull]
      simp
    · omega
  · have hnone : d.between k (lastId lo (d.page k lo n)) hi = [] := by
      refine List.filter_eq_nil_iff.mpr fun e _ => ?_
      simp only [decide_eq_true_eq]
      omega
    simp [hnone]

/-- **Nothing becomes visible behind a reader.** -/
theorem Sound.between_grow {d' : Log K P} {new : List (Entry K P)} (hd' : Sound d')
    (hvis : d'.visible = d.visible ++ new) (hseen : d.Seen k hi) :
    d'.between k lo hi = d.between k lo hi := by
  rw [Log.between, hvis, List.filter_append]
  have hlate : ∀ e ∈ new, e.key = k → hi < e.id := by
    intro e he hk
    rcases hseen with rfl | ⟨v, hv, hvk, rfl⟩
    · exact (hd'.fresh e (hvis ▸ List.mem_append_right _ he)).1
    · have hord := hd'.ordered
      rw [hvis, List.pairwise_append] at hord
      exact hord.2.2 v hv e he (hvk.trans hk.symm)
  have hnone : (new.filter fun e => e.key = k ∧ lo < e.id ∧ e.id ≤ hi) = [] := by
    refine List.filter_eq_nil_iff.mpr fun e he hcond => ?_
    simp only [decide_eq_true_eq] at hcond
    have := hlate e he hcond.1
    omega
  rw [hnone, List.append_nil, Log.between]

/-- What a reader has seen after a page. -/
theorem Sound.seen_page (hd : Sound d) (hn : 0 < n) (h : d.Seen k lo) :
    d.Seen k (lastId lo (d.page k lo n)) := by
  obtain ⟨-, hpage, -⟩ := hd.page_split k lo hn
  cases hlast : (d.page k lo n).getLast? with
  | none => simpa [lastId, hlast] using h
  | some e =>
      have he : e ∈ d.between k lo (lastId lo (d.page k lo n)) :=
        by rw [hpage]; exact List.mem_of_getLast? hlast
      simp only [Log.between, List.mem_filter, decide_eq_true_eq] at he
      exact .inr ⟨e, he.1, he.2.1, by simp [lastId, hlast]⟩

end Pages

end LockedLog
