/-
# Protocols in layers

A program may follow several protocols at the same time, each of which remembers what
it needs and nothing else.  `Protocol.prod` runs two of them side by side: a program
follows both exactly when it follows each (`follows_prod`), and phases and tallies of
the pair are those of its parts.  So a result about a detail of some tasks adds a small
protocol for them to one that is already there, and keeps what is known about that.

`Prog.Only` is the protocol without phases: all commands of a program, whatever the
answers, are of one kind.
-/
import Mathlib.Algebra.Ring.PUnit
import Mathlib.Algebra.Order.PUnit
import NexusQueue.Tokens

section Layers

variable {T C : Type} {R : C → Type} {E A L L' : Type}

/-- Two protocols side by side. -/
def Protocol.prod (P : Protocol T C R E L) (P' : Protocol T C R E L') :
    Protocol T C R E (L × L') where
  start t := (P.start t, P'.start t)
  permits t l c := P.permits t l.1 c ∧ P'.permits t l.2 c
  next t l c r := (P.next t l.1 c r, P'.next t l.2 c r)

variable {P : Protocol T C R E L} {P' : Protocol T C R E L'} {t : T}

/-- A program that follows two protocols follows them side by side. -/
theorem follows_prod {α : Type} {p : Prog C R E α} {Q : Except E α → L → Prop}
    {Q' : Except E α → L' → Prop} {l : L} {l' : L'} (h : Follows P t l p Q)
    (h' : Follows P' t l' p Q') :
    Follows (P.prod P') t (l, l') p fun r x => Q r x.1 ∧ Q' r x.2 := by
  induction p generalizing l l' with
  | ret a => exact ⟨h, h'⟩
  | raise e => exact ⟨h, h'⟩
  | call c k ih => exact ⟨⟨h.1, h'.1⟩, fun r => ih r (h.2 r) (h'.2 r)⟩

/-- Where everything is permitted, every program follows. -/
theorem follows_of_permits {α : Type} {l : L} {p : Prog C R E α}
    (h : ∀ l c, P.permits t l c) : Follows P t l p fun _ _ => True := by
  induction p generalizing l with
  | ret a => trivial
  | raise e => trivial
  | call c k ih => exact ⟨h l c, fun r => ih r⟩

@[simp] theorem Protocol.prod_phase (h : List (Event C R E)) :
    (P.prod P').phase t h = (P.phase t h, P'.phase t h) := by
  induction h with
  | nil => rfl
  | cons e h ih => rw [Protocol.phase_cons, ih, Protocol.phase_cons, Protocol.phase_cons, prod]

/-- What events count for by their phase in the second protocol. -/
theorem Protocol.prod_tally_snd {G : Type} [AddCommMonoid G]
    (emit : T → L' → (c : C) → Except E (R c) → G) (h : List (Event C R E)) :
    (P.prod P').tally (fun t l => emit t l.2) t h = P'.tally emit t h := by
  induction h with
  | nil => rfl
  | cons e h ih => rw [Protocol.tally, Protocol.tally, ih, Protocol.prod_phase]

/-- What the second protocol counts, the pair counts. -/
theorem counted_prod_snd (counts : T → L' → (c : C) → Except E (R c) → ℕ)
    (pool : List (Proc T C R E A)) :
    counted (P.prod P') (fun t l => counts t l.2) pool = counted P' counts pool := by
  unfold counted
  refine congrArg List.sum (List.map_congr_left fun p _ => ?_)
  exact Protocol.prod_tally_snd counts p.hist

end Layers

/-! ## Programs that issue commands of one kind -/

namespace Prog

variable {C : Type} {R : C → Type} {E α β : Type} {S : C → Prop}

/-- Whatever the answers, the program only issues commands in `S`. -/
def Only (S : C → Prop) : Prog C R E α → Prop
  | ret _ | raise _ => True
  | call c k => S c ∧ ∀ r, Only S (k r)

/-- Commands of one kind are of any wider kind. -/
theorem Only.mono {S' : C → Prop} {p : Prog C R E α} (h : Only S p) (hS : ∀ c, S c → S' c) :
    Only S' p := by
  induction p with
  | ret a => trivial
  | raise e => trivial
  | call c k ih => exact ⟨hS c h.1, fun r => ih r (h.2 r)⟩

theorem only_pure (a : α) : Only S (pure a : Prog C R E α) := trivial

theorem only_throw (e : E) : Only S (throw e : Prog C R E α) := trivial

theorem only_bind {p : Prog C R E α} {f : α → Prog C R E β} (h : Only S p)
    (hf : ∀ a, Only S (f a)) : Only S (p >>= f) := by
  induction p with
  | ret a => exact hf a
  | raise e => trivial
  | call c k ih => exact ⟨h.1, fun r => ih r (h.2 r)⟩

theorem only_handle {p : Prog C R E α} {f : E → Prog C R E α} (h : Only S p)
    (hf : ∀ e, Only S (f e)) : Only S (tryCatch p f) := by
  induction p with
  | ret a => trivial
  | raise e => exact hf e
  | call c k ih => exact ⟨h.1, fun r => ih r (h.2 r)⟩

theorem only_perform {c : C} (h : S c) : Only S (perform c : Prog C R E (R c)) := by
  refine ⟨h, fun r => ?_⟩
  cases r <;> trivial

/-- One awaited command, then the rest of the program. -/
theorem only_step {c : C} {f : R c → Prog C R E α} (h : S c) (hf : ∀ a, Only S (f a)) :
    Only S (perform c >>= f) :=
  only_bind (only_perform h) hf

theorem only_forEach {f : β → Prog C R E Unit} (h : ∀ x, Only S (f x)) :
    ∀ xs, Only S (forEach xs f)
  | [] => trivial
  | x :: xs => only_bind (h x) fun _ => only_forEach h xs

end Prog

/-- A program whose commands are all permitted in a phase and leave it. -/
theorem follows_only {T C : Type} {R : C → Type} {E α L : Type} {P : Protocol T C R E L} {t : T}
    {l : L} {S : C → Prop} {p : Prog C R E α} (hp : p.Only S)
    (h : ∀ c, S c → P.permits t l c ∧ ∀ r, P.next t l c r = l) :
    Follows P t l p fun _ l' => l' = l := by
  induction p with
  | ret a => rfl
  | raise e => rfl
  | call c k ih =>
      refine ⟨(h c hp.1).1, fun r => ?_⟩
      rw [(h c hp.1).2 r]
      exact ih r (hp.2 r)

/-- A program whose commands are permitted in any phase. -/
theorem follows_any {T C : Type} {R : C → Type} {E α L : Type} {P : Protocol T C R E L} {t : T}
    {l : L} {p : Prog C R E α} (hp : p.Only fun c => ∀ l, P.permits t l c) :
    Follows P t l p fun _ _ => True := by
  induction p generalizing l with
  | ret a => trivial
  | raise e => trivial
  | call c k ih => exact ⟨hp.1 l, fun r => ih r (hp.2 r)⟩
