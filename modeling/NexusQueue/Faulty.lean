/-
# Programs whose commands may be rejected

A task that runs while no other process moves, when any of its commands may be rejected:
`solo` is one command of it, and a rejected command has no effect.  With `logged` the
answers are kept, newest first, so that it can be said which commands were rejected.
`Stops` is what a program has reached when it is cut off, at any point, and `Withstands` says
that this is always a state of some kind.
-/
import NexusQueue.Sequential

/-! ## Histories, and programs that are cut off -/

namespace Prog

variable {S C : Type} {R : C → Type} {E α β : Type}
  {step : S → (c : C) → Except E (R c) → S → Prop}

/-- A step, and the history with it, newest event first. -/
def logged (step : S → (c : C) → Except E (R c) → S → Prop) (a : S × List (Event C R E)) (c : C)
    (r : Except E (R c)) (b : S × List (Event C R E)) : Prop :=
  step a.1 c r b.1 ∧ b.2 = ⟨c, r⟩ :: a.2

/-- From state `s` the program can be cut off in a state. -/
inductive Stops (step : S → (c : C) → Except E (R c) → S → Prop) :
    S → Prog C R E α → S → Prop
  | here {s p} : Stops step s p s
  | call {s c k r s' s''} : step s c r s' → Stops step s' (k r) s'' → Stops step s (.call c k) s''

/-- Wherever the program is cut off before it returns, the state satisfies `J`; and if it
returns, `Q` holds. -/
def Withstands (step : S → (c : C) → Except E (R c) → S → Prop) (J : S → Prop) :
    S → Prog C R E α → (α → S → Prop) → Prop
  | s, .ret a, Q => Q a s
  | s, .raise _, _ => J s
  | s, .call c k, Q => J s ∧ ∀ r s', step s c r s' → Withstands step J s' (k r) Q

variable {step : S → (c : C) → Except E (R c) → S → Prop} {J : S → Prop} {s : S}

theorem withstands_pure {a : α} {Q : α → S → Prop} (h : Q a s) :
    Withstands step J s (pure a : Prog C R E α) Q := h

theorem withstands_throw {e : E} {Q : α → S → Prop} (h : J s) :
    Withstands step J s (throw e : Prog C R E α) Q := h

/-- A program that withstands being cut off leaves a good state wherever it is. -/
theorem Withstands.stops {p : Prog C R E α} {Q : α → S → Prop} {s' : S}
    (h : Withstands step J s p Q) (hend : ∀ a s, Q a s → J s) (hstop : Stops step s p s') :
    J s' := by
  induction hstop with
  | @here s p =>
      cases p with
      | ret a => exact hend a s h
      | raise e => exact h
      | call c k => exact h.1
  | call hone _ ih => exact ih (h.2 _ _ hone)

/-- Sequencing. -/
theorem withstands_bind {p : Prog C R E α} {f : α → Prog C R E β} {Q : β → S → Prop}
    (Q' : α → S → Prop) (h : Withstands step J s p Q')
    (hok : ∀ a s, Q' a s → Withstands step J s (f a) Q) : Withstands step J s (p >>= f) Q := by
  induction p generalizing s with
  | ret a => exact hok a s h
  | raise e => exact h
  | call c k ih => exact ⟨h.1, fun r s' hone => ih r (h.2 r s' hone)⟩

/-- One awaited command, then the rest of the program. -/
theorem withstands_step {c : C} {f : R c → Prog C R E α} {Q : α → S → Prop} (hJ : J s)
    (hok : ∀ a s', step s c (.ok a) s' → Withstands step J s' (f a) Q)
    (herr : ∀ e s', step s c (.error e) s' → J s') :
    Withstands step J s (perform c >>= f) Q := by
  refine ⟨hJ, fun r s' hone => ?_⟩
  cases r with
  | ok a => exact hok a s' hone
  | error e => exact herr e s' hone

/-- One awaited command. -/
theorem withstands_perform {c : C} {Q : R c → S → Prop} (hJ : J s)
    (hok : ∀ a s', step s c (.ok a) s' → Q a s')
    (herr : ∀ e s', step s c (.error e) s' → J s') : Withstands step J s (perform c) Q := by
  refine ⟨hJ, fun r s' hone => ?_⟩
  cases r with
  | ok a => exact hok a s' hone
  | error e => exact herr e s' hone

/-- A loop keeps a fact about the elements still to come and the state. -/
theorem withstands_forEach {f : β → Prog C R E Unit} {Q : Unit → S → Prop}
    (I : List β → S → Prop)
    (hbody : ∀ x xs s, I (x :: xs) s → Withstands step J s (f x) fun _ s' => I xs s')
    (hend : ∀ s, I [] s → Q () s) : ∀ xs s, I xs s → Withstands step J s (forEach xs f) Q
  | [], s, hI => hend s hI
  | x :: xs, s, hI =>
      withstands_bind _ (hbody x xs s hI) fun _ s' hs' => withstands_forEach I hbody hend xs s' hs'

end Prog

namespace NexusQueue

open Prog (Runs Ends logged Stops Withstands)

variable {env : Env} {t : Task} {s s' : World} {c : Cmd} {r : Except Err c.Resp}

/-- What has been issued and answered, newest event first. -/
abbrev Log := List (Event Cmd Cmd.Resp Err)

/-- One command of a task that runs while no other process moves.  It may be rejected. -/
def solo (env : Env) (t : Task) (s : World) (c : Cmd) (r : Except Err c.Resp) (s' : World) :
    Prop :=
  ∃ o, World.exec env s t c o = some (r, s')

/-- It is rejected, or it is answered. -/
theorem solo_cases (h : solo env t s c r s') :
    (∃ e, r = .error e ∧ s' = s ∧ c.faultable = true) ∨
      ∃ o, World.answer env s o c = some (r, s') := by
  obtain ⟨o, ho⟩ := h
  rcases (exec_cases ho).2 with ⟨e, -, hfault, hs, hr⟩ | ⟨-, ha⟩
  · exact Or.inl ⟨e, hr, hs, hfault⟩
  · exact Or.inr ⟨o, ha⟩

/-- An answer to one awaited command: it is rejected, or the world answers it. -/
theorem ends_solo_of {α : Type} {l : Log} {f : c.Resp → Async α}
    {Q : Except Err α → World × Log → Prop}
    (hok : ∀ o a s', s.answer env o c = some (.ok a, s') →
      Ends (logged (solo env t)) (s', ⟨c, .ok a⟩ :: l) (f a) Q)
    (herr : ∀ o e s', s.answer env o c = some (.error e, s') →
      Q (.error e) (s', ⟨c, .error e⟩ :: l))
    (hreject : c.faultable = true → ∀ e, Q (.error e) (s, ⟨c, .error e⟩ :: l)) :
    Ends (logged (solo env t)) (s, l) (await c >>= f) Q := by
  refine Prog.ends_step ?_ ?_
  · rintro a ⟨s₁, l₁⟩ ⟨hone, hl⟩
    cases hl
    rcases solo_cases hone with ⟨e, hr, -⟩ | ⟨o, ho⟩
    · cases hr
    · exact hok o a s₁ ho
  · rintro e ⟨s₁, l₁⟩ ⟨hone, hl⟩
    cases hl
    rcases solo_cases hone with ⟨e', hr, hs, hfault⟩ | ⟨o, ho⟩
    · cases hr
      cases hs
      exact hreject hfault e
    · exact herr o e s₁ ho

/-- One awaited command that the world answers in one way, if it does not reject it. -/
theorem ends_solo {α : Type} {l : Log} {a : c.Resp} {f : c.Resp → Async α}
    {Q : Except Err α → World × Log → Prop} (hc : ∀ o, s.answer env o c = some (.ok a, s'))
    (hok : Ends (logged (solo env t)) (s', ⟨c, .ok a⟩ :: l) (f a) Q)
    (herr : c.faultable = true → ∀ e, Q (.error e) (s, ⟨c, .error e⟩ :: l)) :
    Ends (logged (solo env t)) (s, l) (await c >>= f) Q := by
  refine ends_solo_of (fun o b s₁ ho => ?_) (fun o e s₁ ho => ?_) herr
  · rw [hc o] at ho
    cases ho
    exact hok
  · rw [hc o] at ho
    cases ho

/-- The same at the end of a program. -/
theorem ends_solo_last {l : Log} {a : c.Resp} {Q : Except Err c.Resp → World × Log → Prop}
    (hc : ∀ o, s.answer env o c = some (.ok a, s')) (hok : Q (.ok a) (s', ⟨c, .ok a⟩ :: l))
    (herr : c.faultable = true → ∀ e, Q (.error e) (s, ⟨c, .error e⟩ :: l)) :
    Ends (logged (solo env t)) (s, l) (await c) Q := by
  refine Prog.ends_perform ?_
  rintro r ⟨s₁, l₁⟩ ⟨hone, hl⟩
  cases hl
  rcases solo_cases hone with ⟨e, rfl, hs, hfault⟩ | ⟨o, ho⟩
  · cases hs
    exact herr hfault e
  · rw [hc o] at ho
    cases ho
    exact hok

/-! ## While time passes -/

/-- One command of a task, with some time before it. -/
def slow (env : Env) (t : Task) (s : World) (c : Cmd) (r : Except Err c.Resp) (s' : World) :
    Prop :=
  ∃ ms, solo env t { s with clock := s.clock + ms } c r s'

/-- One command that is rejected, or is answered at some later time. -/
theorem slow_cases {e : Err} (h : slow env t s c (.error e) s') :
    ∃ n, s.clock ≤ n ∧ s' = { s with clock := n } := by
  obtain ⟨ms, hone⟩ := h
  refine ⟨s.clock + ms, Nat.le_add_right _ _, ?_⟩
  rcases solo_cases hone with ⟨-, -, hs, -⟩ | ⟨o, ho⟩
  · exact hs
  · exact unchanged_of_error ho

theorem answer_of_slow {a : c.Resp} (h : slow env t s c (.ok a) s') :
    ∃ n o, s.clock ≤ n ∧ World.answer env { s with clock := n } o c = some (.ok a, s') := by
  obtain ⟨ms, hone⟩ := h
  rcases solo_cases hone with ⟨e, hr, -⟩ | ⟨o, ho⟩
  · cases hr
  · exact ⟨s.clock + ms, o, Nat.le_add_right _ _, ho⟩

/-- An awaited command of a program that may be cut off. -/
theorem withstands_slow {α : Type} {l : Log} {f : c.Resp → Async α} {J : World × Log → Prop}
    {Q : α → World × Log → Prop} (hJ : J (s, l))
    (hok : ∀ n o a s', s.clock ≤ n →
      World.answer env { s with clock := n } o c = some (.ok a, s') →
      Withstands (logged (slow env t)) J (s', ⟨c, .ok a⟩ :: l) (f a) Q)
    (herr : ∀ n e, s.clock ≤ n → J ({ s with clock := n }, ⟨c, .error e⟩ :: l)) :
    Withstands (logged (slow env t)) J (s, l) (await c >>= f) Q := by
  refine Prog.withstands_step hJ ?_ ?_
  · rintro a ⟨s₁, l₁⟩ ⟨hone, hl⟩
    cases hl
    obtain ⟨n, o, hn, ho⟩ := answer_of_slow hone
    exact hok n o a s₁ hn ho
  · rintro e ⟨s₁, l₁⟩ ⟨hone, hl⟩
    cases hl
    obtain ⟨n, hn, hs⟩ := slow_cases hone
    cases hs
    exact herr n e hn

/-- The same at the end of a program. -/
theorem withstands_slow_last {l : Log} {J : World × Log → Prop}
    {Q : c.Resp → World × Log → Prop} (hJ : J (s, l))
    (hok : ∀ n o a s', s.clock ≤ n →
      World.answer env { s with clock := n } o c = some (.ok a, s') → Q a (s', ⟨c, .ok a⟩ :: l))
    (herr : ∀ n e, s.clock ≤ n → J ({ s with clock := n }, ⟨c, .error e⟩ :: l)) :
    Withstands (logged (slow env t)) J (s, l) (await c) Q := by
  refine Prog.withstands_perform hJ ?_ ?_
  · rintro a ⟨s₁, l₁⟩ ⟨hone, hl⟩
    cases hl
    obtain ⟨n, o, hn, ho⟩ := answer_of_slow hone
    exact hok n o a s₁ hn ho
  · rintro e ⟨s₁, l₁⟩ ⟨hone, hl⟩
    cases hl
    obtain ⟨n, hn, hs⟩ := slow_cases hone
    cases hs
    exact herr n e hn

/-! ## Runs that can be evaluated -/

/-- Run a program with these answers to what the world leaves open. -/
def rehearse {α : Type} (env : Env) (t : Task) :
    List Oracle → World → Log → Async α → Option (Except Err α × World × Log)
  | _, s, l, .ret a => some (.ok a, s, l)
  | _, s, l, .raise e => some (.error e, s, l)
  | [], _, _, .call _ _ => none
  | o :: os, s, l, .call c k =>
      (World.exec env s t c o).bind fun a => rehearse env t os a.2 (⟨c, a.1⟩ :: l) (k a.1)

/-- What has been rehearsed can happen. -/
theorem exists_runs_of_rehearse {α : Type} {p : Async α} {os : List Oracle} {l : Log}
    (test : Except Err α × World × Log → Bool)
    (h : (rehearse env t os s l p).any test = true) :
    ∃ x s' l', Runs (logged (solo env t)) (s, l) p x (s', l') ∧ test (x, s', l') = true := by
  induction p generalizing s l os with
  | ret a => exact ⟨.ok a, s, l, .ret, by cases os <;> exact h⟩
  | raise e => exact ⟨.error e, s, l, .raise, by cases os <;> exact h⟩
  | call c k ih =>
      cases os with
      | nil => cases h
      | cons o os =>
          rw [rehearse] at h
          rcases hex : World.exec env s t c o with _ | ⟨r, s₁⟩
          · rw [hex] at h
            cases h
          · rw [hex] at h
            obtain ⟨x, s', l', hrun, htest⟩ := ih r h
            exact ⟨x, s', l', .call ⟨⟨o, hex⟩, rfl⟩ hrun, htest⟩

/-- Run a program with these answers to what the world leaves open, and halt it after them. -/
def cutOff {α : Type} (env : Env) (t : Task) :
    List Oracle → World → Log → Async α → Option (World × Log)
  | [], s, l, _ => some (s, l)
  | o :: os, s, l, .call c k =>
      (World.exec env s t c o).bind fun a => cutOff env t os a.2 (⟨c, a.1⟩ :: l) (k a.1)
  | _ :: _, _, _, _ => none

/-- There the program can be halted. -/
theorem exists_stops_of_cutOff {α : Type} {p : Async α} {os : List Oracle} {l : Log}
    (test : World × Log → Bool) (h : (cutOff env t os s l p).any test = true) :
    ∃ s' l', Stops (logged (slow env t)) (s, l) p (s', l') ∧ test (s', l') = true := by
  induction os generalizing s l p with
  | nil =>
      refine ⟨s, l, .here, ?_⟩
      cases p <;> exact h
  | cons o os ih =>
      cases p with
      | call c k =>
          rw [cutOff] at h
          rcases hex : World.exec env s t c o with _ | ⟨r, s₁⟩
          · rw [hex] at h
            cases h
          · rw [hex] at h
            obtain ⟨s', l', hstop, htest⟩ := ih h
            exact ⟨s', l', .call ⟨⟨0, o, hex⟩, rfl⟩ hstop, htest⟩
      | _ => cases h

end NexusQueue
