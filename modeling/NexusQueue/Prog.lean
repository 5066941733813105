/-
# Programs of commands

An asynchronous function that talks to a store is a tree: it has returned, it
has thrown, or it awaits the answer to one command and goes on from there.  An
awaited command may reject, so the continuation receives an `Except`.  The tree
is the shallow embedding of `async`/`await` code: every `await` is one `call`.

Nothing here depends on what the commands are:

* `Prog` with its monad and its `try`/`catch`;
* `Prog.perform`, one awaited command, and `Prog.forEach`, a loop over a list;
* `Protocol`, an automaton that says which commands a program may issue next,
  and `Follows`, with one rule for each way of building programs.
-/
import Mathlib.Tactic

/-- A program over commands `C` with answers `R`, throwing `E` and returning
`α`. -/
inductive Prog (C : Type) (R : C → Type) (E α : Type) where
  | ret (a : α)
  | raise (e : E)
  | call (c : C) (k : Except E (R c) → Prog C R E α)

namespace Prog

variable {C : Type} {R : C → Type} {E α β : Type}

/-- Run a program, then another one on its result. -/
def bind : Prog C R E α → (α → Prog C R E β) → Prog C R E β
  | ret a, f => f a
  | raise e, _ => raise e
  | call c k, f => call c fun r => (k r).bind f

/-- `try p catch h`. -/
def handle : Prog C R E α → (E → Prog C R E α) → Prog C R E α
  | ret a, _ => ret a
  | raise e, h => h e
  | call c k, h => call c fun r => (k r).handle h

instance : Monad (Prog C R E) where
  pure := ret
  bind := bind

instance : MonadExcept E (Prog C R E) where
  throw := raise
  tryCatch := handle

/-- Sequencing is associative. -/
theorem bind_assoc {γ : Type} (p : Prog C R E α) (f : α → Prog C R E β) (g : β → Prog C R E γ) :
    p >>= f >>= g = p >>= fun a => f a >>= g := by
  induction p with
  | ret a => rfl
  | raise e => rfl
  | call c k ih =>
      show Prog.call c _ = Prog.call c _
      congr 1
      funext r
      exact ih r

/-- `await c`: the answer of one command, or its rejection. -/
def perform (c : C) : Prog C R E (R c) :=
  call c fun r => match r with
    | .ok a => ret a
    | .error e => raise e

/-- `for (const x of xs) await f(x)`. -/
def forEach : List β → (β → Prog C R E Unit) → Prog C R E Unit
  | [], _ => ret ()
  | x :: xs, f => (f x).bind fun _ => forEach xs f

end Prog

/-! ## Protocols -/

/-- A protocol: the phase a task starts in, the commands it may issue in a
phase, and the phase it enters when such a command is answered. -/
structure Protocol (T C : Type) (R : C → Type) (E L : Type) where
  start : T → L
  permits : T → L → C → Prop
  next : T → L → (c : C) → Except E (R c) → L

section Follows

variable {T C : Type} {R : C → Type} {E L α β : Type}

/-- From phase `l` on, whatever the answers, task `t` running the program only
issues permitted commands, and it ends in an outcome and phase satisfying
`Q`. -/
def Follows (P : Protocol T C R E L) (t : T) :
    L → Prog C R E α → (Except E α → L → Prop) → Prop
  | l, .ret a, Q => Q (.ok a) l
  | l, .raise e, Q => Q (.error e) l
  | l, .call c k, Q => P.permits t l c ∧ ∀ r, Follows P t (P.next t l c r) (k r) Q

variable {P : Protocol T C R E L} {t : T}

theorem follows_pure {l : L} {a : α} {Q : Except E α → L → Prop} (h : Q (.ok a) l) :
    Follows P t l (pure a) Q := h

theorem follows_throw {l : L} {e : E} {Q : Except E α → L → Prop} (h : Q (.error e) l) :
    Follows P t l (throw e) Q := h

/-- Weakening what is known at the end. -/
theorem follows_mono {l : L} {p : Prog C R E α} {Q Q' : Except E α → L → Prop}
    (h : Follows P t l p Q) (hQ : ∀ r l, Q r l → Q' r l) : Follows P t l p Q' := by
  induction p generalizing l with
  | ret a => exact hQ _ _ h
  | raise e => exact hQ _ _ h
  | call c k ih => exact ⟨h.1, fun r => ih r (h.2 r)⟩

/-- Sequencing: the second program starts in the phase the first one left. -/
theorem follows_bind {l : L} {p : Prog C R E α} {f : α → Prog C R E β}
    {Q : Except E β → L → Prop} (Q' : Except E α → L → Prop)
    (h : Follows P t l p Q')
    (hok : ∀ a l, Q' (.ok a) l → Follows P t l (f a) Q)
    (herr : ∀ e l, Q' (.error e) l → Q (.error e) l) :
    Follows P t l (p >>= f) Q := by
  induction p generalizing l with
  | ret a => exact hok a l h
  | raise e => exact herr e l h
  | call c k ih => exact ⟨h.1, fun r => ih r (h.2 r)⟩

/-- `try p catch h`: the handler starts in the phase `p` threw in. -/
theorem follows_handle {l : L} {p : Prog C R E α} {f : E → Prog C R E α}
    {Q : Except E α → L → Prop} (Q' : Except E α → L → Prop)
    (h : Follows P t l p Q')
    (hok : ∀ a l, Q' (.ok a) l → Q (.ok a) l)
    (herr : ∀ e l, Q' (.error e) l → Follows P t l (f e) Q) :
    Follows P t l (tryCatch p f) Q := by
  induction p generalizing l with
  | ret a => exact hok a l h
  | raise e => exact herr e l h
  | call c k ih => exact ⟨h.1, fun r => ih r (h.2 r)⟩

/-- One awaited command. -/
theorem follows_perform {l : L} {c : C} {Q : Except E (R c) → L → Prop}
    (hc : P.permits t l c) (h : ∀ r, Q r (P.next t l c r)) :
    Follows P t l (Prog.perform c) Q := by
  refine ⟨hc, fun r => ?_⟩
  cases r with
  | ok a => exact h (.ok a)
  | error e => exact h (.error e)

/-- One awaited command, then the rest of the program. -/
theorem follows_step {l : L} {c : C} {f : R c → Prog C R E α} {Q : Except E α → L → Prop}
    (hc : P.permits t l c) (hok : ∀ a, Follows P t (P.next t l c (.ok a)) (f a) Q)
    (herr : ∀ e, Q (.error e) (P.next t l c (.error e))) :
    Follows P t l (Prog.perform c >>= f) Q := by
  refine ⟨hc, fun r => ?_⟩
  cases r with
  | ok a => exact hok a
  | error e => exact herr e

/-- A loop keeps a fact about the elements still to come and the phase; it must
be left alone by the body, also when the body throws. -/
theorem follows_forEach {f : β → Prog C R E Unit} {Q : Except E Unit → L → Prop}
    (J : List β → L → Prop)
    (hbody : ∀ x xs l, J (x :: xs) l → Follows P t l (f x) fun r l' =>
      match r with
      | .ok _ => J xs l'
      | .error e => Q (.error e) l')
    (hend : ∀ l, J [] l → Q (.ok ()) l) :
    ∀ xs l, J xs l → Follows P t l (Prog.forEach xs f) Q
  | [], l, hJ => hend l hJ
  | x :: xs, l, hJ =>
      follows_bind _ (hbody x xs l hJ)
        (fun _ l' hl' => follows_forEach J hbody hend xs l' hl')
        (fun _ _ he => he)

end Follows
