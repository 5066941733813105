/-
# Tasks that run alone

A task that runs from its first command to its last while no other process moves and
nothing fails, and the worlds such tasks lead to one after the other.

`play` runs a task with given answers to what the world leaves open, so that a sequence
of tasks can be evaluated.
-/
import NexusQueue.Effects
import NexusQueue.Alone

namespace NexusQueue

open Prog (Runs Ends)

/-- One command of a task that runs alone, without failures. -/
def alone (env : Env) (t : Task) (s : World) (c : Cmd) (r : Except Err c.Resp) (s' : World) :
    Prop :=
  ∃ o : Oracle, o.works = true ∧ World.exec env s t c o = some (r, s')

variable {env : Env} {t : Task} {s s' : World} {c : Cmd} {r : Except Err c.Resp}

/-- It is answered, if it is no statement that spells no uuid. -/
theorem answer_of_alone (h : alone env t s c r s') (hc : c.unreadable = false) :
    ∃ o : Oracle, World.answer env s o c = some (r, s') := by
  obtain ⟨o, ho, hex⟩ := h
  exact ⟨o, exec_answer hex ho hc⟩

/-- A task whose process is up is answered as the world answers. -/
theorem alone_of_answer {o : Oracle} (hup : t.host.elim false s.down = false)
    (ho : o.works = true) (h : World.answer env s o c = some (r, s'))
    (hc : c.unreadable = false) : alone env t s c r s' := by
  refine ⟨o, ho, ?_⟩
  unfold World.exec
  rw [hup, hc]
  cases o with
  | fault => cases ho
  | _ => exact h

/-- A command that fails has no effect. -/
theorem unchanged_of_error {o : Oracle} {e : Err}
    (ha : World.answer env s o c = some (.error e, s')) : s' = s := by
  cases c with
  | onWorker w op =>
      cases op <;> simp only [World.answer, World.local?] at ha <;> (repeat' split at ha)
      all_goals first | (cases ha; rfl) | cases ha
  | _ =>
      simp only [World.answer] at ha
      repeat' split at ha
      all_goals first | (cases ha; rfl) | cases ha

/-- One awaited command that the world answers in one way. -/
theorem ends_answered {α : Type} {a : c.Resp} {f : c.Resp → Async α} {Q : Except Err α → World → Prop}
    (hread : c.unreadable = false) (hc : ∀ o, s.answer env o c = some (.ok a, s'))
    (h : Ends (alone env t) s' (f a) Q) : Ends (alone env t) s (await c >>= f) Q := by
  refine Prog.ends_step (fun b s₁ hb => ?_) fun e s₁ he => ?_
  · obtain ⟨o, ho⟩ := answer_of_alone hb hread
    rw [hc o] at ho
    cases ho
    exact h
  · obtain ⟨o, ho⟩ := answer_of_alone he hread
    rw [hc o] at ho
    cases ho

/-- One awaited command that the world answers in one way, and the task is up. -/
theorem completes_answered {α : Type} {fine : Cmd → Prop} {a : c.Resp} {f : c.Resp → Async α}
    {Q : Except Err α → World → Prop} (hup : t.host.elim false s.down = false) (hfine : fine c)
    (hread : c.unreadable = false) (hc : ∀ o, s.answer env o c = some (.ok a, s'))
    (h : Prog.Completes (alone env t) fine s' (f a) Q) :
    Prog.Completes (alone env t) fine s (await c >>= f) Q := by
  refine Prog.completes_step hfine ⟨_, _, alone_of_answer hup rfl (hc .plain) hread⟩
    (fun b s₁ hb => ?_) fun e s₁ he => ?_
  · obtain ⟨o, ho⟩ := answer_of_alone hb hread
    rw [hc o] at ho
    cases ho
    exact h
  · obtain ⟨o, ho⟩ := answer_of_alone he hread
    rw [hc o] at ho
    cases ho

/-- The same at the end of a program. -/
theorem completes_last {fine : Cmd → Prop} {a : c.Resp} {Q : Except Err c.Resp → World → Prop}
    (hup : t.host.elim false s.down = false) (hfine : fine c)
    (hread : c.unreadable = false) (hc : ∀ o, s.answer env o c = some (.ok a, s'))
    (h : Q (.ok a) s') :
    Prog.Completes (alone env t) fine s (await c) Q := by
  refine Prog.completes_perform hfine ⟨_, _, alone_of_answer hup rfl (hc .plain) hread⟩ ?_
  intro b s₁ hb
  obtain ⟨o, ho⟩ := answer_of_alone hb hread
  rw [hc o] at ho
  cases ho
  exact h

/-- A statement that spells no uuid is rejected. -/
theorem exec_unreadable {o : Oracle} (hup : t.host.elim false s.down = false)
    (hc : c.unreadable = true) (ho : o.works = true) :
    World.exec env s t c o = some (.error (.invalidValue "id"), s) := by
  unfold World.exec
  rw [hup, hc]
  cases o with
  | fault => cases ho
  | _ => rfl

theorem completes_unreadable {α : Type} {fine : Cmd → Prop} {f : c.Resp → Async α}
    {Q : Except Err α → World → Prop} (hup : t.host.elim false s.down = false) (hfine : fine c)
    (hc : c.unreadable = true) (h : Q (.error (.invalidValue "id")) s) :
    Prog.Completes (alone env t) fine s (await c >>= f) Q := by
  refine Prog.completes_step hfine ⟨_, _, .plain, rfl, exec_unreadable hup hc rfl⟩
    (fun b s₁ hb => ?_) fun e s₁ he => ?_
  · obtain ⟨o, ho, hex⟩ := hb
    rw [exec_unreadable hup hc ho] at hex
    cases hex
  · obtain ⟨o, ho, hex⟩ := he
    rw [exec_unreadable hup hc ho] at hex
    cases hex
    exact h

/-- The members of a set arrive in any order. -/
theorem completes_smembers {α : Type} {fine : Cmd → Prop} {k : Key}
    {f : List String → Async α} {Q : Except Err α → World → Prop}
    (hup : t.host.elim false s.down = false) (hfine : fine (.smembers k))
    (h : ∀ l : List String, l.Nodup → l.toFinset = s.redis.sets k →
      Prog.Completes (alone env t) fine s (f l) Q) :
    Prog.Completes (alone env t) fine s (redis.smembers k >>= f) Q := by
  have hanswer : ∀ {o r s'}, World.answer env s o (.smembers k) = some (r, s') →
      ∃ l : List String, r = .ok l ∧ l.Nodup ∧ l.toFinset = s.redis.sets k ∧ s' = s := by
    intro o r s' ho
    cases o with
    | members l =>
        simp only [World.answer] at ho
        split at ho
        · rename_i hl
          cases ho
          exact ⟨l, rfl, hl.1, hl.2, rfl⟩
        · cases ho
    | _ => cases ho
  have hall : World.answer env s (.members (s.redis.sets k).toList) (.smembers k) =
      some (.ok (s.redis.sets k).toList, s) := by
    simp only [World.answer]
    exact if_pos ⟨Finset.nodup_toList _, Finset.toList_toFinset _⟩
  refine Prog.completes_step hfine ⟨_, _, alone_of_answer hup rfl hall rfl⟩ ?_ ?_
  · intro l s₁ hone
    obtain ⟨o, ho⟩ := answer_of_alone hone rfl
    obtain ⟨l', hl, hnodup, hset, rfl⟩ := hanswer ho
    cases hl
    exact h l hnodup hset
  · intro e s₁ hone
    obtain ⟨o, ho⟩ := answer_of_alone hone rfl
    obtain ⟨l', hl, -⟩ := hanswer ho
    cases hl

/-- One command of a task that runs alone and meets a condition; time may pass before
it. -/
def unhurried (env : Env) (ok : World → Cmd → Prop) (t : Task) (s : World) (c : Cmd)
    (r : Except Err c.Resp) (s' : World) : Prop :=
  ok s c ∧ ∃ ms, alone env t { s with clock := s.clock + ms } c r s'

section Later

variable {ok : World → Cmd → Prop}

/-- One awaited command, some time later. -/
theorem ends_later {α : Type} {c : Cmd} {f : c.Resp → Async α} {Q : Except Err α → World → Prop}
    (hread : c.unreadable = false)
    (hok : ∀ ms o a s', World.answer env { s with clock := s.clock + ms } o c = some (.ok a, s') →
      Ends (unhurried env ok t) s' (f a) Q)
    (herr : ∀ ms o e s',
      World.answer env { s with clock := s.clock + ms } o c = some (.error e, s') →
      Q (.error e) s') :
    Ends (unhurried env ok t) s (await c >>= f) Q := by
  refine Prog.ends_step (fun a s' hstep => ?_) fun e s' hstep => ?_
  · obtain ⟨-, ms, halone⟩ := hstep
    obtain ⟨o, ho⟩ := answer_of_alone halone hread
    exact hok ms o a s' ho
  · obtain ⟨-, ms, halone⟩ := hstep
    obtain ⟨o, ho⟩ := answer_of_alone halone hread
    exact herr ms o e s' ho

/-- The clock does not go back. -/
theorem clock_le_of_runs {α : Type} {p : Async α} {x : Except Err α}
    (h : Runs (unhurried env ok t) s p x s') : s.clock ≤ s'.clock := by
  induction h with
  | ret => exact le_rfl
  | raise => exact le_rfl
  | call hstep _ ih =>
      obtain ⟨-, ms, o, -, hex⟩ := hstep
      have hclock := exec_clock hex
      dsimp only at hclock
      omega

/-- What ends, ends later. -/
theorem ends_clock {α : Type} {p : Async α} {Q : Except Err α → World → Prop}
    (h : Ends (unhurried env ok t) s p Q) :
    Ends (unhurried env ok t) s p fun x s' => Q x s' ∧ s.clock ≤ s'.clock :=
  fun x s' hrun => ⟨h x s' hrun, clock_le_of_runs hrun⟩

end Later

/-- The worlds that tasks, executed one after the other without overlap and without
failures, lead to from empty stores.  Between two tasks time passes, and a worker may die. -/
inductive Sequential (env : Env) (ok : World → Cmd → Prop) : World → Prop
  | blank (now : ℕ) (room : QueueName → Json → Option String → Bool) :
      Sequential env ok { clock := now, pg := .emptyWith room }
  | drift {s m s'} : Sequential env ok s → s.drift m = some s' → Sequential env ok s'
  | run {s t x s'} : Sequential env ok s → Runs (unhurried env ok t) s (body env t) x s' →
      Sequential env ok s'

/-! ## Sequences that can be evaluated -/

section Play

variable (env) (ok : World → Cmd → Prop) [∀ s c, Decidable (ok s c)]

/-- Run a program alone, with these answers to what the world leaves open. -/
def play {α : Type} (t : Task) : List Oracle → World → Async α → Option World
  | _, s, .ret _ => some s
  | _, s, .raise _ => some s
  | [], _, .call _ _ => none
  | o :: os, s, .call c k =>
      if ok s c ∧ o.works = true then
        (World.exec env s t c o).bind fun a => play t os a.2 (k a.1)
      else none

/-- Run tasks one after the other, and move the environment between them. -/
def script : List (Move ⊕ Task × List Oracle) → World → Option World
  | [], s => some s
  | .inl m :: l, s => (s.drift m).bind (script l)
  | .inr (t, os) :: l, s => (play env ok t os s (body env t)).bind (script l)

variable {env ok}

theorem runs_of_play {α : Type} {p : Async α} {os : List Oracle}
    (h : play env ok t os s p = some s') : ∃ x, Runs (unhurried env ok t) s p x s' := by
  induction p generalizing s os with
  | ret a =>
      cases os <;> cases h <;> exact ⟨_, .ret⟩
  | raise e =>
      cases os <;> cases h <;> exact ⟨_, .raise⟩
  | call c k ih =>
      cases os with
      | nil => cases h
      | cons o os =>
          rw [play, Option.ite_none_right_eq_some, Option.bind_eq_some_iff] at h
          obtain ⟨⟨hok, ho⟩, ⟨r, s₁⟩, hex, hrest⟩ := h
          obtain ⟨x, hx⟩ := ih r hrest
          exact ⟨x, .call ⟨hok, 0, o, ho, hex⟩ hx⟩

/-- What a script leads to, a sequence of tasks leads to. -/
theorem Sequential.script {l : List (Move ⊕ Task × List Oracle)} (hs : Sequential env ok s)
    (h : script env ok l s = some s') : Sequential env ok s' := by
  induction l generalizing s with
  | nil =>
      cases h
      exact hs
  | cons a l ih =>
      rcases a with m | ⟨t, os⟩
      · obtain ⟨s₁, hm, hrest⟩ := Option.bind_eq_some_iff.mp h
        exact ih (hs.drift hm) hrest
      · obtain ⟨s₁, hrun, hrest⟩ := Option.bind_eq_some_iff.mp h
        obtain ⟨x, hx⟩ := runs_of_play hrun
        exact ih (hs.run hx) hrest

end Play

end NexusQueue
