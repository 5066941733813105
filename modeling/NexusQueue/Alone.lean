/-
# Programs that run alone

A program that runs from its first command to its last while nothing else moves.  What
a command does is a relation of the state before, the answer and the state after, so the
store may leave answers open.

* `Prog.Runs`: the program ends with this outcome in this state;
* `Prog.Ends`: whenever the program ends, its outcome and the last state are of this
  kind, with one rule for each way of building programs, and one for programs that follow a
  protocol (`ends_follows`);
* `Prog.Completes`: it does end so, and until then all its commands are answered.
-/
import NexusQueue.Prog

namespace Prog

variable {S C : Type} {R : C → Type} {E α β : Type}

/-- From state `s` the program ends with an outcome and a state. -/
inductive Runs (step : S → (c : C) → Except E (R c) → S → Prop) :
    S → Prog C R E α → Except E α → S → Prop
  | ret {s a} : Runs step s (.ret a) (.ok a) s
  | raise {s e} : Runs step s (.raise e) (.error e) s
  | call {s c k r s' x s''} : step s c r s' → Runs step s' (k r) x s'' →
      Runs step s (.call c k) x s''

/-- Whenever the program ends, the outcome and the last state satisfy `Q`. -/
def Ends (step : S → (c : C) → Except E (R c) → S → Prop) (s : S) (p : Prog C R E α)
    (Q : Except E α → S → Prop) : Prop :=
  ∀ x s', Runs step s p x s' → Q x s'

variable {step : S → (c : C) → Except E (R c) → S → Prop} {s : S}

theorem ends_pure {a : α} {Q : Except E α → S → Prop} (h : Q (.ok a) s) :
    Ends step s (pure a) Q := by
  intro x s' hrun
  cases hrun
  exact h

theorem ends_throw {e : E} {Q : Except E α → S → Prop} (h : Q (.error e) s) :
    Ends step s (throw e : Prog C R E α) Q := by
  intro x s' hrun
  cases hrun
  exact h

/-- Weakening what is known at the end. -/
theorem Ends.mono {p : Prog C R E α} {Q Q' : Except E α → S → Prop} (h : Ends step s p Q)
    (hQ : ∀ x s, Q x s → Q' x s) : Ends step s p Q' :=
  fun x s' hrun => hQ x s' (h x s' hrun)

/-- A program that returns, and then another one. -/
theorem Runs.bind {p : Prog C R E α} {f : α → Prog C R E β} {a : α} {x : Except E β} {s₁ s' : S}
    (h : Runs step s p (.ok a) s₁) (h' : Runs step s₁ (f a) x s') : Runs step s (p >>= f) x s' := by
  induction p generalizing s with
  | ret b =>
      cases h
      exact h'
  | raise e => cases h
  | call c k ih =>
      cases h with
      | call hone hrest => exact .call hone (ih _ hrest)

/-- A run of a sequence is a run of the first program and, if that returns, one of the
second. -/
theorem runs_bind {p : Prog C R E α} {f : α → Prog C R E β} {x : Except E β} {s' : S}
    (h : Runs step s (p >>= f) x s') :
    (∃ a s₁, Runs step s p (.ok a) s₁ ∧ Runs step s₁ (f a) x s') ∨
      ∃ e, Runs step s p (.error e) s' ∧ x = .error e := by
  induction p generalizing s with
  | ret a => exact Or.inl ⟨a, s, .ret, h⟩
  | raise e =>
      cases h
      exact Or.inr ⟨e, .raise, rfl⟩
  | call c k ih =>
      cases h with
      | call hstep hrest =>
          rcases ih _ hrest with ⟨a, s₁, h₁, h₂⟩ | ⟨e, h₁, hx⟩
          · exact Or.inl ⟨a, s₁, .call hstep h₁, h₂⟩
          · exact Or.inr ⟨e, .call hstep h₁, hx⟩

/-- A run of `try p catch f` is a run of `p` and, if that throws, one of the handler. -/
theorem runs_handle {p : Prog C R E α} {f : E → Prog C R E α} {x : Except E α} {s' : S}
    (h : Runs step s (tryCatch p f) x s') :
    (∃ a, Runs step s p (.ok a) s' ∧ x = .ok a) ∨
      ∃ e s₁, Runs step s p (.error e) s₁ ∧ Runs step s₁ (f e) x s' := by
  induction p generalizing s with
  | ret a =>
      cases h
      exact Or.inl ⟨a, .ret, rfl⟩
  | raise e => exact Or.inr ⟨e, s, .raise, h⟩
  | call c k ih =>
      cases h with
      | call hstep hrest =>
          rcases ih _ hrest with ⟨a, h₁, hx⟩ | ⟨e, s₁, h₁, h₂⟩
          · exact Or.inl ⟨a, .call hstep h₁, hx⟩
          · exact Or.inr ⟨e, s₁, .call hstep h₁, h₂⟩

/-- Sequencing. -/
theorem ends_bind {p : Prog C R E α} {f : α → Prog C R E β} {Q : Except E β → S → Prop}
    (Q' : Except E α → S → Prop) (h : Ends step s p Q')
    (hok : ∀ a s, Q' (.ok a) s → Ends step s (f a) Q)
    (herr : ∀ e s, Q' (.error e) s → Q (.error e) s) : Ends step s (p >>= f) Q := by
  intro x s' hrun
  rcases runs_bind hrun with ⟨a, s₁, h₁, h₂⟩ | ⟨e, h₁, rfl⟩
  · exact hok a s₁ (h _ _ h₁) x s' h₂
  · exact herr e s' (h _ _ h₁)

/-- `try p catch f`. -/
theorem ends_handle {p : Prog C R E α} {f : E → Prog C R E α} {Q : Except E α → S → Prop}
    (Q' : Except E α → S → Prop) (h : Ends step s p Q')
    (hok : ∀ a s, Q' (.ok a) s → Q (.ok a) s)
    (herr : ∀ e s, Q' (.error e) s → Ends step s (f e) Q) : Ends step s (tryCatch p f) Q := by
  intro x s' hrun
  rcases runs_handle hrun with ⟨a, h₁, rfl⟩ | ⟨e, s₁, h₁, h₂⟩
  · exact hok a s' (h _ _ h₁)
  · exact herr e s₁ (h _ _ h₁) x s' h₂

/-- One awaited command. -/
theorem ends_perform {c : C} {Q : Except E (R c) → S → Prop}
    (h : ∀ r s', step s c r s' → Q r s') : Ends step s (perform c) Q := by
  intro x s' hrun
  cases hrun with
  | @call _ _ _ r s₁ _ _ hstep hrest =>
      cases r with
      | ok a =>
          cases hrest
          exact h _ _ hstep
      | error e =>
          cases hrest
          exact h _ _ hstep

/-- One awaited command, then the rest of the program. -/
theorem ends_step {c : C} {f : R c → Prog C R E α} {Q : Except E α → S → Prop}
    (hok : ∀ a s', step s c (.ok a) s' → Ends step s' (f a) Q)
    (herr : ∀ e s', step s c (.error e) s' → Q (.error e) s') :
    Ends step s (perform c >>= f) Q := by
  intro x s' hrun
  cases hrun with
  | @call _ _ _ r s₁ _ _ hstep hrest =>
      cases r with
      | ok a => exact hok a s₁ hstep x s' hrest
      | error e =>
          cases hrest
          exact herr e _ hstep

/-- A program that follows a protocol keeps, while it runs alone, what every permitted
command keeps. -/
theorem ends_follows {T L : Type} {P : Protocol T C R E L} {t : T} {l : L} {p : Prog C R E α}
    {Q : Except E α → L → Prop} (I : L → S → Prop)
    (hstep : ∀ l s c r s', I l s → P.permits t l c → step s c r s' → I (P.next t l c r) s')
    (hp : Follows P t l p Q) (hI : I l s) : Ends step s p fun x s' => ∃ l', Q x l' ∧ I l' s' := by
  intro x s' hrun
  induction hrun generalizing l with
  | ret => exact ⟨l, hp, hI⟩
  | raise => exact ⟨l, hp, hI⟩
  | call hone _ ih => exact ih (hp.2 _) (hstep l _ _ _ _ hI hp.1 hone)

/-! ## Programs that are never stuck -/

/-- Every command the program issues is fine and is answered, and whatever the answers, the
outcome and the last state satisfy `Q`. -/
def Completes (step : S → (c : C) → Except E (R c) → S → Prop) (fine : C → Prop) :
    S → Prog C R E α → (Except E α → S → Prop) → Prop
  | s, .ret a, Q => Q (.ok a) s
  | s, .raise e, Q => Q (.error e) s
  | s, .call c k, Q => fine c ∧ (∃ r s', step s c r s') ∧
      ∀ r s', step s c r s' → Completes step fine s' (k r) Q

variable {fine : C → Prop}

theorem completes_pure {a : α} {Q : Except E α → S → Prop} (h : Q (.ok a) s) :
    Completes step fine s (pure a) Q := h

/-- It ends only as it should. -/
theorem Completes.ends {p : Prog C R E α} {Q : Except E α → S → Prop}
    (h : Completes step fine s p Q) : Ends step s p Q := by
  intro x s' hrun
  induction hrun with
  | ret => exact h
  | raise => exact h
  | call hone _ ih => exact ih (h.2.2 _ _ hone)

/-- It does end. -/
theorem Completes.exists_runs {p : Prog C R E α} {Q : Except E α → S → Prop}
    (h : Completes step fine s p Q) : ∃ x s', Runs step s p x s' := by
  induction p generalizing s with
  | ret a => exact ⟨_, _, .ret⟩
  | raise e => exact ⟨_, _, .raise⟩
  | call c k ih =>
      obtain ⟨-, ⟨r, s₁, hone⟩, hrest⟩ := h
      obtain ⟨x, s', hrun⟩ := ih r (hrest r s₁ hone)
      exact ⟨x, s', .call hone hrun⟩

theorem Completes.mono {p : Prog C R E α} {Q Q' : Except E α → S → Prop}
    (h : Completes step fine s p Q) (hQ : ∀ x s, Q x s → Q' x s) :
    Completes step fine s p Q' := by
  induction p generalizing s with
  | ret a => exact hQ _ _ h
  | raise e => exact hQ _ _ h
  | call c k ih => exact ⟨h.1, h.2.1, fun r s' hone => ih r (h.2.2 r s' hone)⟩

/-- Sequencing. -/
theorem completes_bind {p : Prog C R E α} {f : α → Prog C R E β} {Q : Except E β → S → Prop}
    (Q' : Except E α → S → Prop) (h : Completes step fine s p Q')
    (hok : ∀ a s, Q' (.ok a) s → Completes step fine s (f a) Q)
    (herr : ∀ e s, Q' (.error e) s → Q (.error e) s) :
    Completes step fine s (p >>= f) Q := by
  induction p generalizing s with
  | ret a => exact hok a s h
  | raise e => exact herr e s h
  | call c k ih => exact ⟨h.1, h.2.1, fun r s' hone => ih r (h.2.2 r s' hone)⟩

/-- `try p catch f`. -/
theorem completes_handle {p : Prog C R E α} {f : E → Prog C R E α} {Q : Except E α → S → Prop}
    (Q' : Except E α → S → Prop) (h : Completes step fine s p Q')
    (hok : ∀ a s, Q' (.ok a) s → Q (.ok a) s)
    (herr : ∀ e s, Q' (.error e) s → Completes step fine s (f e) Q) :
    Completes step fine s (tryCatch p f) Q := by
  induction p generalizing s with
  | ret a => exact hok a s h
  | raise e => exact herr e s h
  | call c k ih => exact ⟨h.1, h.2.1, fun r s' hone => ih r (h.2.2 r s' hone)⟩

/-- One awaited command. -/
theorem completes_perform {c : C} {Q : Except E (R c) → S → Prop} (hc : fine c)
    (hlive : ∃ r s', step s c r s') (h : ∀ r s', step s c r s' → Q r s') :
    Completes step fine s (perform c) Q := by
  refine ⟨hc, hlive, fun r s' hone => ?_⟩
  cases r with
  | ok a => exact h _ _ hone
  | error e => exact h _ _ hone

/-- One awaited command, then the rest of the program. -/
theorem completes_step {c : C} {f : R c → Prog C R E α} {Q : Except E α → S → Prop}
    (hc : fine c) (hlive : ∃ r s', step s c r s')
    (hok : ∀ a s', step s c (.ok a) s' → Completes step fine s' (f a) Q)
    (herr : ∀ e s', step s c (.error e) s' → Q (.error e) s') :
    Completes step fine s (perform c >>= f) Q := by
  refine ⟨hc, hlive, fun r s' hone => ?_⟩
  cases r with
  | ok a => exact hok a s' hone
  | error e => exact herr e s' hone

/-- A loop keeps a fact about the elements still to come and the state. -/
theorem completes_forEach {f : β → Prog C R E Unit} {Q : Except E Unit → S → Prop}
    (J : List β → S → Prop)
    (hbody : ∀ x xs s, J (x :: xs) s → Completes step fine s (f x) fun r s' =>
      match r with
      | .ok _ => J xs s'
      | .error e => Q (.error e) s')
    (hend : ∀ s, J [] s → Q (.ok ()) s) :
    ∀ xs s, J xs s → Completes step fine s (forEach xs f) Q
  | [], s, hJ => hend s hJ
  | x :: xs, s, hJ =>
      completes_bind _ (hbody x xs s hJ)
        (fun _ s' hs' => completes_forEach J hbody hend xs s' hs') (fun _ _ he => he)

/-- A loop whose body changes the state by a function folds that function over the
elements. -/
theorem completes_forEach_foldl {f : β → Prog C R E Unit} {g : S → β → S}
    (J : List β → S → Prop)
    (hbody : ∀ x xs s, J (x :: xs) s → J xs (g s x) ∧
      Completes step fine s (f x) fun r s' => r = .ok () ∧ s' = g s x) :
    ∀ xs s, J xs s →
      Completes step fine s (forEach xs f) fun r s' => r = .ok () ∧ s' = xs.foldl g s
  | [], s, _ => ⟨rfl, rfl⟩
  | x :: xs, s, hJ => by
      obtain ⟨hnext, hx⟩ := hbody x xs s hJ
      refine completes_bind _ hx ?_ ?_
      · rintro a s' ⟨-, rfl⟩
        exact completes_forEach_foldl J hbody xs _ hnext
      · rintro e s' ⟨he, -⟩
        cases he

end Prog
