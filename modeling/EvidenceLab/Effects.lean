/-
# Programs that ask their environment

`Prog S ε α` is a finite tree of requests: it returns a value, raises an exception, or asks one of
the requests of `S` and goes on with the answer.  Reads, writes, clocks and calls to other services
are requests; who answers, and when, is left open.

* `elim` continues after a return and after an exception; `bind` and `handle` are cases of it, and
  so is a `finally` block.
* A `Contract` follows a ghost state along the answers and says which requests may be made in it.
  `Keeps` is the judgement that a program makes no other request, with rules for each combinator.
* `Reaches` runs a program on a list of answers, up to any point; `Keeps.run` carries the judgement
  along, and `play` computes such a list.
-/
import Mathlib.Data.List.Basic

namespace Effects

/-- The requests of a language, with the type of the answer to each. -/
structure Sig where
  Op : Type
  Ans : Op → Type

/-- Programs over the requests of `S` that return an `α` or raise an `ε`. -/
inductive Prog (S : Sig) (ε α : Type) where
  | ret (a : α)
  | raise (e : ε)
  | ask (o : S.Op) (k : S.Ans o → Prog S ε α)

variable {S : Sig} {ε α β : Type}

namespace Prog

/-- Go on with `f` after a return and with `h` after an exception. -/
def elim (p : Prog S ε α) (f : α → Prog S ε β) (h : ε → Prog S ε β) : Prog S ε β :=
  match p with
  | .ret a => f a
  | .raise e => h e
  | .ask o k => .ask o fun r => (k r).elim f h

/-- `p; f`. -/
def bind (p : Prog S ε α) (f : α → Prog S ε β) : Prog S ε β := p.elim f .raise

/-- `try: p; except: h`. -/
def handle (p : Prog S ε α) (h : ε → Prog S ε α) : Prog S ε α := p.elim .ret h

instance : Monad (Prog S ε) where
  pure := .ret
  bind := bind

/-- One request whose answer is the value. -/
def request (o : S.Op) : Prog S ε (S.Ans o) := .ask o .ret

/-- The outcome of a pure computation. -/
def ofExcept : Except ε α → Prog S ε α
  | .ok a => .ret a
  | .error e => .raise e

end Prog

/-! ## Contracts -/

/-- A ghost state that follows the answers, and the requests that may be made in it.  An answer with
no next state is one the environment does not give. -/
structure Contract (S : Sig) (γ : Type) where
  allowed : γ → S.Op → Prop
  next : γ → (o : S.Op) → S.Ans o → γ → Prop

variable {γ : Type} {C : Contract S γ}

namespace Prog

/-- From the ghost state `g` the program makes only requests that the contract allows; it returns
in states of `R` and raises in states of `E`. -/
def Keeps (C : Contract S γ) (R : γ → α → Prop) (E : γ → ε → Prop) (g : γ) : Prog S ε α → Prop
  | .ret a => R g a
  | .raise e => E g e
  | .ask o k => C.allowed g o ∧ ∀ r g', C.next g o r g' → (k r).Keeps C R E g'

variable {R R' : γ → α → Prop} {E E' : γ → ε → Prop} {Q : γ → β → Prop} {g : γ}

@[simp] theorem keeps_ret {a : α} : (Prog.ret a : Prog S ε α).Keeps C R E g ↔ R g a := Iff.rfl

@[simp] theorem keeps_raise {e : ε} : (Prog.raise e : Prog S ε α).Keeps C R E g ↔ E g e := Iff.rfl

theorem keeps_ask {o : S.Op} {k : S.Ans o → Prog S ε α} :
    (Prog.ask o k).Keeps C R E g ↔
      C.allowed g o ∧ ∀ r g', C.next g o r g' → (k r).Keeps C R E g' := Iff.rfl

/-- **The rule of every sequential combinator.** -/
theorem Keeps.elim {p : Prog S ε α} {f : α → Prog S ε β} {h : ε → Prog S ε β}
    (hp : p.Keeps C R E g) (hf : ∀ g a, R g a → (f a).Keeps C Q E' g)
    (hh : ∀ g e, E g e → (h e).Keeps C Q E' g) : (p.elim f h).Keeps C Q E' g := by
  induction p generalizing g with
  | ret a => exact hf g a hp
  | raise e => exact hh g e hp
  | ask o k ih => exact ⟨hp.1, fun r g' hn => ih r (hp.2 r g' hn)⟩

/-- What a program keeps may be described more loosely. -/
theorem Keeps.mono {p : Prog S ε α} (hp : p.Keeps C R E g) (hR : ∀ g a, R g a → R' g a)
    (hE : ∀ g e, E g e → E' g e) : p.Keeps C R' E' g := by
  induction p generalizing g with
  | ret a => exact hR g a hp
  | raise e => exact hE g e hp
  | ask o k ih => exact ⟨hp.1, fun r g' hn => ih r (hp.2 r g' hn)⟩

/-- **A program of two parts** keeps what its parts do. -/
theorem Keeps.bind {p : Prog S ε α} {f : α → Prog S ε β} (hp : p.Keeps C R E g)
    (hf : ∀ g a, R g a → (f a).Keeps C Q E g) : (p >>= f).Keeps C Q E g :=
  hp.elim hf fun _ _ he => he

/-- A handler keeps what it does after each error. -/
theorem Keeps.handle {p : Prog S ε α} {h : ε → Prog S ε α} (hp : p.Keeps C R E g)
    (hh : ∀ g e, E g e → (h e).Keeps C R E' g) : (p.handle h).Keeps C R E' g :=
  hp.elim (fun _ _ hr => hr) hh

/-- **Contracts refine.** A program that keeps `C` keeps every contract `C'` that allows what `C`
allows and whose answers are answers of `C`. -/
theorem Keeps.transfer {δ : Type} {C' : Contract S δ} {p : Prog S ε α} {d : δ}
    (hp : p.Keeps C R E g) (Sim : γ → δ → Prop) (hd : Sim g d)
    (ha : ∀ g d o, Sim g d → C.allowed g o → C'.allowed d o)
    (hn : ∀ g d o r d', Sim g d → C.allowed g o → C'.next d o r d' →
      ∃ g', C.next g o r g' ∧ Sim g' d') :
    p.Keeps C' (fun d a => ∃ g, Sim g d ∧ R g a) (fun d e => ∃ g, Sim g d ∧ E g e) d := by
  induction p generalizing g d with
  | ret a => exact ⟨g, hd, hp⟩
  | raise e => exact ⟨g, hd, hp⟩
  | ask o k ih =>
      refine ⟨ha g d o hd hp.1, fun r d' hr => ?_⟩
      obtain ⟨g', hg', hsim⟩ := hn g d o r d' hd hp.1 hr
      exact ih r (hp.2 r g' hg') hsim

/-- A result that is lifted keeps what it satisfies. -/
theorem keeps_ofExcept {x : Except ε α} (hok : ∀ a, x = .ok a → R g a)
    (herr : ∀ e, x = .error e → E g e) : (ofExcept x : Prog S ε α).Keeps C R E g := by
  cases x with
  | ok a => exact hok a rfl
  | error e => exact herr e rfl

end Prog

/-! ## One language inside another -/

/-- The requests of `S` as requests of `S'`, with their answers read back. -/
structure Sig.Hom (S S' : Sig) where
  op : S.Op → S'.Op
  ans : ∀ o, S'.Ans (op o) → S.Ans o

/-- What a contract over `S'` asks of the requests of `S`. -/
def Contract.comap {S' : Sig} (C : Contract S' γ) (f : Sig.Hom S S') : Contract S γ where
  allowed g o := C.allowed g (f.op o)
  next g o r g' := ∃ r', f.ans o r' = r ∧ C.next g (f.op o) r' g'

namespace Prog

variable {S' : Sig} {ε' : Type}

/-- Run `p` with the requests of `S'`, and go on there after a return and after an exception. -/
def embed (f : Sig.Hom S S') (p : Prog S ε α) (k : α → Prog S' ε' β) (h : ε → Prog S' ε' β) :
    Prog S' ε' β :=
  match p with
  | .ret a => k a
  | .raise e => h e
  | .ask o q => .ask (f.op o) fun r => (q (f.ans o r)).embed f k h

/-- A program that is embedded keeps what it kept. -/
theorem Keeps.embed {C : Contract S' γ} {f : Sig.Hom S S'} {p : Prog S ε α} {k : α → Prog S' ε' β}
    {h : ε → Prog S' ε' β} {R : γ → α → Prop} {E : γ → ε → Prop} {Q : γ → β → Prop}
    {E' : γ → ε' → Prop} {g : γ} (hp : p.Keeps (C.comap f) R E g)
    (hk : ∀ g a, R g a → (k a).Keeps C Q E' g) (hh : ∀ g e, E g e → (h e).Keeps C Q E' g) :
    (p.embed f k h).Keeps C Q E' g := by
  induction p generalizing g with
  | ret a => exact hk g a hp
  | raise e => exact hh g e hp
  | ask o q ih => exact ⟨hp.1, fun r g' hn => ih (f.ans o r) (hp.2 _ g' ⟨r, rfl, hn⟩)⟩

end Prog

/-! ## Runs -/

/-- A request with the answer it got. -/
abbrev Exchange (S : Sig) := (o : S.Op) × S.Ans o

/-- `p` reaches `q` over the exchanges `tr`, in this order. -/
inductive Reaches : Prog S ε α → List (Exchange S) → Prog S ε α → Prop where
  | here (p : Prog S ε α) : Reaches p [] p
  | ask {o : S.Op} {k : S.Ans o → Prog S ε α} {r : S.Ans o} {tr : List (Exchange S)}
      {q : Prog S ε α} (h : Reaches (k r) tr q) : Reaches (.ask o k) (⟨o, r⟩ :: tr) q

/-- The ghost state moves from `g` to `g'` along the exchanges. -/
inductive Follows (C : Contract S γ) : γ → List (Exchange S) → γ → Prop where
  | here (g : γ) : Follows C g [] g
  | ask {g g' g'' : γ} {x : Exchange S} {tr : List (Exchange S)} (h : C.next g x.1 x.2 g')
      (ht : Follows C g' tr g'') : Follows C g (x :: tr) g''

/-- **Contracts hold at every point of every run.** -/
theorem Prog.Keeps.run {R : γ → α → Prop} {E : γ → ε → Prop} {p q : Prog S ε α} {g g' : γ}
    {tr : List (Exchange S)} (hp : p.Keeps C R E g) (hr : Reaches p tr q)
    (hf : Follows C g tr g') : q.Keeps C R E g' := by
  induction hr generalizing g with
  | here p =>
      cases hf
      exact hp
  | ask h ih =>
      cases hf with
      | ask hn ht => exact ih (hp.2 _ _ hn) ht

/-- A request of the run was made by a program that the run reached before it. -/
theorem Reaches.split {p q : Prog S ε α} {pre post : List (Exchange S)} {x : Exchange S}
    (h : Reaches p (pre ++ x :: post) q) : ∃ k, Reaches p pre (.ask x.1 k) := by
  induction pre generalizing p with
  | nil =>
      cases h with
      | ask h => exact ⟨_, .here _⟩
  | cons y pre ih =>
      cases h with
      | ask h =>
          obtain ⟨k, hk⟩ := ih h
          exact ⟨k, .ask hk⟩

/-- **Every request of a run was allowed** in the ghost state it was made in. -/
theorem Prog.Keeps.allowed {R : γ → α → Prop} {E : γ → ε → Prop} {p q : Prog S ε α} {g g' : γ}
    {pre post : List (Exchange S)} {x : Exchange S} (hp : p.Keeps C R E g)
    (hr : Reaches p (pre ++ x :: post) q) (hf : Follows C g pre g') : C.allowed g' x.1 := by
  obtain ⟨k, hk⟩ := hr.split
  exact (hp.run hk hf).1

/-! ## Given answers -/

/-- The exchanges of a program whose `n` requests from the `i`-th on are answered by their numbers,
and what is left of it. -/
def Prog.play (answer : ℕ → (o : S.Op) → S.Ans o) :
    ℕ → ℕ → Prog S ε α → List (Exchange S) × Prog S ε α
  | 0, _, p => ([], p)
  | _ + 1, _, .ret a => ([], .ret a)
  | _ + 1, _, .raise e => ([], .raise e)
  | n + 1, i, .ask o k =>
      let rest := play answer n (i + 1) (k (answer i o))
      (⟨o, answer i o⟩ :: rest.1, rest.2)

/-- A program reaches what given answers lead it to. -/
theorem reaches_play (answer : ℕ → (o : S.Op) → S.Ans o) (n i : ℕ) (p : Prog S ε α) :
    Reaches p (Prog.play answer n i p).1 (Prog.play answer n i p).2 := by
  induction n generalizing i p with
  | zero => exact .here _
  | succ n ih =>
      cases p with
      | ret a => exact .here _
      | raise e => exact .here _
      | ask o k => exact .ask (ih (i + 1) (k (answer i o)))

end Effects
