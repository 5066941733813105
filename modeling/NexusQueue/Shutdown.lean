/-
# Stopping a worker

`stop` waits for the calls that are in progress when it takes its snapshot, and for
those at most half a minute; then it waits for the pull loop, which may have pulled
another job in the meantime, and takes the worker out of the registry.

Where no call is in progress when `stop` returns, and no call has leaked its entry, the
processing list is empty then.
-/
import NexusQueue.Claims

namespace NexusQueue

namespace Shutdown

open Claims (Mine)

/-! ## Starting and stopping -/

/-- A worker is not started while it is being started or stopped, and not stopped while
it is being started. -/
def clashes (w : WorkerId) : Task → Task → Bool
  | .start w₁, .start w₂ | .start w₁, .stop w₂ | .stop w₁, .start w₂ => w₁ = w ∧ w₂ = w
  | _, _ => false

/-- The last command of `stop`. -/
def Cmd.finishes (w : WorkerId) : Cmd → Bool
  | .onWorker w' .finish => w' = w
  | _ => false

/-- With the next command of the `i`-th process, `stop` returns. -/
def Stops (w : WorkerId) (c : State) (i : ℕ) : Prop :=
  (nextCmd c i).any (Cmd.finishes w) = true

instance (w : WorkerId) (c : State) (i : ℕ) : Decidable (Stops w c i) :=
  inferInstanceAs (Decidable (_ = true))

/-- No call of `w` leaks its entry, none is in progress when `stop` returns, and `start`
has ended before the worker is started or stopped again. -/
def Orderly (w : WorkerId) (c : State) : Action → Prop
  | .start t => t.external ∧ ∀ p ∈ c.pool, clashes w t p.task = true → Ended p
  | .call i o => Claims.KeepsClaims w c (.call i o) ∧
      (Stops w c i → (c.store.workers w).activeJobs = ∅)
  | _ => True

instance (w : WorkerId) (c : State) : (a : Action) → Decidable (Orderly w c a)
  | .start t => inferInstanceAs (Decidable (t.external ∧
      ∀ p ∈ c.pool, clashes w t p.task = true → Ended p))
  | .call i o => inferInstanceAs (Decidable (Claims.KeepsClaims w c (.call i o) ∧
      (Stops w c i → (c.store.workers w).activeJobs = ∅)))
  | .halt _ | .drift _ => .isTrue trivial

theorem Orderly.keeps {w : WorkerId} {c : State} {a : Action} (h : Orderly w c a) :
    Claims.KeepsClaims w c a := by
  cases a with
  | start t => exact h.1
  | call i o => exact h.1
  | _ => trivial

/-- No job is on the processing list. -/
def Clean (w : WorkerId) (s : World) : Prop :=
  ∀ j ≠ "", j ∉ s.redis.lists (redisKeys.processing w)

/-- Every job on the processing list will be found by a janitor. -/
def Recoverable (w : WorkerId) (s : World) : Prop :=
  Clean w s ∨ w ∈ s.redis.sets redisKeys.workerRegistry

/-! ## What is alive of a worker -/

/-- No pull loop is running. -/
def quiet (obj : WorkerObj) : Prop := obj.launched = true → obj.exited = true

/-- A task that is over. -/
def gone : Phase → Bool
  | .ended | .broken => true
  | _ => false

/-- A call that has settled. -/
def done : Course → Bool
  | .over => true
  | _ => false

/-- What is counted: starts, stops and pull loops in progress, and calls by their
number. -/
inductive Life where
  | starting
  | stopping
  | looping
  | call (n : ℕ)
  deriving DecidableEq

/-- What a process of the worker keeps alive. -/
def life (w : WorkerId) : Task → Phase × Course → Option Life
  | .start w', (l, _) => if w' = w ∧ gone l = false then some .starting else none
  | .stop w', (l, _) => if w' = w ∧ gone l = false then some .stopping else none
  | .loop w', (l, _) => if w' = w ∧ gone l = false then some .looping else none
  | .processOne w' n _, (_, d) => if w' = w ∧ done d = false then some (.call n) else none
  | _, _ => none

/-- At most one `start` is in progress, and no `stop` with it; the object knows whether
a pull loop is running; and every call in progress is among its promises. -/
structure Alive (w : WorkerId) (s : World) (g : Life → ℕ) : Prop where
  starting : g .starting ≤ 1
  apart : 0 < g .starting → g .stopping = 0
  looping : quiet (s.workers w) → g .looping = 0
  single : g .looping ≤ 1
  calls : ∀ n, g (.call n) ≤ if n ∈ (s.workers w).activeJobs then 1 else 0
  numbered : ∀ n ∈ (s.workers w).activeJobs, n < (s.workers w).calls
  rest : (s.workers w).running = false → quiet (s.workers w)

/-- What `start` and `stop` know. -/
def knows (w : WorkerId) (t : Task) (l : Phase) (s : World) : Prop :=
  match t, l with
  | .start w', .begun | .start w', .registered | .start w', .beating =>
      w' = w → (s.workers w).running = true ∧ quiet (s.workers w)
  | .stop w', .loopDone | .stop w', .deregistered => w' = w → quiet (s.workers w)
  | _, _ => True

/-- How `start` and `stop` end. -/
def Over : Task → Except Err (Option JobId) → Phase → Prop
  | .start _, _, l | .stop _, _, l => gone l = true
  | _, _, _ => True

/-- Stopping as a discipline over the custody protocol and the course. -/
def shutdown (env : Env) (w : WorkerId) :
    Discipline (machine env) ((custody env).prod course) (Life → ℕ) where
  good _ := True
  val t l := holding (life w t l)
  emit _ _ _ _ := 0
  loc t l s := knows w t l.1 s
  inv := Alive w
  allow _ _ _ _ _ _ := True
  post t r l := Over t r l.1 ∧ True

section Step

variable {env : Env} {s s' : World} {w : WorkerId} {n : ℕ} {j : JobId} {t t₂ : Task}
  {l l' l₂ : Phase} {d d' : Course} {c : Cmd} {o : Oracle} {r : Except Err c.Resp}
  {ts : List Task} {g g' : Life → ℕ}

/-- Every `start` and `stop` is over when it has returned or thrown. -/
theorem over_follows (t : Task) :
    Follows (custody env) t (Phase.start t) (body env t) (Over t) := by
  have ended : ∀ {α : Type} {r : Except Err α} {l : Phase}, OkIn .ended r l → gone l = true := by
    intro α r l hl
    cases r with
    | ok a => rw [show l = .ended from hl]; rfl
    | error e => rw [show l = .broken from hl]; rfl
  cases t with
  | start w =>
      exact follows_bind _ (start_follows w) (fun _ l hl => follows_pure (ended hl))
        fun _ l hl => ended hl
  | stop w =>
      exact follows_bind _ (stop_follows w) (fun _ l hl => follows_pure (ended hl))
        fun _ l hl => ended hl
  | _ => exact follows_mono (custody_follows _) fun _ _ _ => trivial

/-- Less is alive. -/
theorem Alive.fewer (h : Alive w s g) (hle : ∀ x, g' x ≤ g x) : Alive w s g' where
  starting := (hle _).trans h.starting
  apart hs := Nat.le_zero.mp ((hle _).trans (h.apart (hs.trans_le (hle _))).le)
  looping hq := Nat.le_zero.mp ((hle _).trans (h.looping hq).le)
  single := (hle _).trans h.single
  calls n := (hle _).trans (h.calls n)
  numbered := h.numbered
  rest := h.rest

/-- The object of the worker keeps what matters. -/
theorem Alive.object (h : Alive w s g) (hrun : (s'.workers w).running = (s.workers w).running)
    (hlaunch : (s'.workers w).launched = (s.workers w).launched)
    (hexit : (s'.workers w).exited = (s.workers w).exited)
    (hcalls : (s'.workers w).calls = (s.workers w).calls)
    (hjobs : (s'.workers w).activeJobs = (s.workers w).activeJobs) : Alive w s' g := by
  have hquiet : quiet (s'.workers w) ↔ quiet (s.workers w) := by
    rw [quiet, quiet, hlaunch, hexit]
  constructor
  · exact h.starting
  · exact h.apart
  · exact fun hq => h.looping (hquiet.mp hq)
  · exact h.single
  · rw [hjobs]
    exact h.calls
  · rw [hjobs, hcalls]
    exact h.numbered
  · rw [hrun]
    exact fun hr => hquiet.mpr (h.rest hr)

/-- Nothing happens to the object of the worker. -/
theorem Alive.same (h : Alive w s g) (hw : s'.workers w = s.workers w) : Alive w s' g := by
  refine h.object ?_ ?_ ?_ ?_ ?_ <;> rw [hw]

@[simp] theorem setWorker_self (s : World) (w : WorkerId) (obj : WorkerObj) :
    (s.setWorker w obj).workers w = obj := by
  simp [World.setWorker]

/-- Only tasks of a worker change its object. -/
theorem workers_of_effect (he : Effect env s t l c r s' l' ts) (hhost : t.host ≠ some w) :
    s'.workers w = s.workers w := by
  have other : ∀ {w' obj}, t.host = some w' → (s.setWorker w' obj).workers w = s.workers w := by
    intro w' obj hw
    have hne : w ≠ w' := fun h => hhost (by rw [hw, h])
    simp [World.setWorker, Function.update_of_ne hne]
  cases he with
  | still _ _ hw => rw [hw]
  | dispatch | loopExit | settle | begin | launch | finish => exact other rfl
  | inert hw _ _ _ _ _ _ => exact other hw
  | _ => rfl

/-- What the tasks a command starts keep alive. -/
def startsWith (w : WorkerId) (ts : List Task) : Life → ℕ :=
  (ts.map fun t => holding (life w t (Phase.start t, course.start t))).sum

@[simp] theorem startsWith_nil : startsWith w [] = 0 := rfl

@[simp] theorem startsWith_loop : startsWith w [.loop w] = holding (some .looping) := by
  simp [startsWith, life, Phase.start, gone]

@[simp] theorem startsWith_call :
    startsWith w [.processOne w n j] = holding (some (.call n)) := by
  simp [startsWith, life, course, done]

/-- What other processes do keeps nothing of the worker alive. -/
theorem life_other (hhost : t.host ≠ some w) (x : Phase × Course) : life w t x = none := by
  obtain ⟨l, d⟩ := x
  cases t <;> first | rfl | exact if_neg fun h => hhost (congrArg some h.1)

theorem startsWith_other (he : Effect env s t l c r s' l' ts) (hhost : t.host ≠ some w) :
    startsWith w ts = 0 := by
  have other : ∀ {t'}, t'.host = t.host → startsWith w [t'] = 0 := by
    intro t' ht
    simp [startsWith, life_other (ht.trans_ne hhost)]
  cases he with
  | dispatch | loopAgain | launch => exact other rfl
  | _ => rfl

theorem knows_other (hhost : t.host ≠ some w) : knows w t l s := by
  have hne : ∀ {w'}, t.host = some w' → w' ≠ w := fun ht h => hhost (ht.trans (congrArg some h))
  unfold knows
  split
  case h_6 => trivial
  all_goals exact fun hw => absurd hw (hne rfl)

/-- What `start` and `stop` know is about two fields of the object. -/
theorem knows_object (hk : knows w t l s)
    (hrun : (s.workers w).running = true → (s'.workers w).running = true)
    (hquiet : quiet (s.workers w) → quiet (s'.workers w)) : knows w t l s' := by
  revert hk
  unfold knows
  split
  case h_1 | h_2 | h_3 => exact fun hk hw => ⟨hrun (hk hw).1, hquiet (hk hw).2⟩
  case h_4 | h_5 => exact fun hk hw => hquiet (hk hw)
  case h_6 => exact id

/-- A settled call stays settled. -/
theorem done_next (hd : done d = true) : done (course.next (.processOne w n j) d c r) = true := by
  obtain rfl : d = .over := by
    cases d <;> first | rfl | cases hd
  cases r with
  | error e => cases c <;> rfl
  | ok a =>
      change done (Course.onCall .over c a) = true
      unfold Course.onCall
      split <;> first | rfl | contradiction

/-- A call keeps alive what it did, or nothing. -/
theorem life_call_le (x : Life) :
    holding (life w (.processOne w n j) (l', course.next (.processOne w n j) d c r)) x ≤
      holding (life w (.processOne w n j) (l, d)) x := by
  by_cases hd : done d = true
  · simp [life, done_next hd]
  · have hd : done d = false := by simpa using hd
    by_cases hd' : done (course.next (.processOne w n j) d c r) = true
    · simp [life, hd']
    · have hd' : done (course.next (.processOne w n j) d c r) = false := by simpa using hd'
      simp [life, hd, hd']

/-- **Step lemma.**  A `start` of the worker. -/
theorem Alive.start (h : Alive w s (holding (life w (.start w) (l, d)) + g))
    (hk : knows w (.start w) l s) (he : Effect env s (.start w) l c r s' l' ts) :
    Alive w s' (holding (life w (.start w) (l', d')) + (startsWith w ts + g)) ∧
      knows w (.start w) l' s' := by
  -- the object is untouched, and the task lives on or has been gone
  have same : s'.workers w = s.workers w → gone l = gone l' → ts = [] →
      Alive w s' (holding (life w (.start w) (l', d')) + (startsWith w ts + g)) := by
    intro hw hgone hts
    have hlife : life w (.start w) (l', d') = life w (.start w) (l, d) := by
      simp only [life, hgone]
    rw [hts, startsWith_nil, zero_add, hlife]
    exact h.same hw
  cases he with
  | still _ _ hw =>
      exact ⟨same (by rw [hw]) rfl rfl, knows_object hk (by rw [hw]; exact id) (by rw [hw]; exact id)⟩
  | @inert _ _ w' op a obj hhost hop hrun hcalls hjobs hlaunch hexit =>
      cases hhost
      constructor
      · rw [startsWith_nil, zero_add]
        exact h.object (by simpa) (by simpa) (by simpa) (by simpa) (by simpa)
      · exact knows_object hk (by simp [hrun]) (by simp [quiet, hlaunch, hexit])
  -- the object was at rest, so no loop is alive when `running` is set
  | begin hrest =>
      have hquiet := h.rest hrest
      refine ⟨?_, fun _ => ⟨by simp, by simpa [quiet] using hquiet⟩⟩
      rw [startsWith_nil, zero_add]
      change Alive w _ (holding (life w (.start w) (.idle, d)) + g)
      constructor
      · exact h.starting
      · exact h.apart
      · exact fun _ => h.looping hquiet
      · exact h.single
      · simpa using h.calls
      · simpa using h.numbered
      · intro hr
        simp at hr
  | beginFails _ =>
      refine ⟨?_, trivial⟩
      rw [startsWith_nil, zero_add]
      exact h.fewer fun x => by simp [life, gone]
  | register | firstBeat => exact ⟨same rfl rfl rfl, hk⟩
  -- the start hands its place over to the loop
  | launch =>
      obtain ⟨hrun, hquiet⟩ := hk rfl
      refine ⟨?_, trivial⟩
      have hlife : ∀ d, life w (.start w) (.beating, d) = some .starting := fun _ => if_pos ⟨rfl, rfl⟩
      have hlife' : ∀ d, life w (.start w) (.ended, d) = none := fun _ => if_neg (by simp [gone])
      have hloop := h.looping hquiet
      have hone := h.starting
      have hcall := h.calls
      rw [hlife] at hloop hone hcall
      simp only [Pi.add_apply, holding_some, if_true, reduceCtorEq, if_false, zero_add]
        at hloop hone hcall
      rw [hlife', holding_none_add, startsWith_loop]
      constructor
      · simp only [Pi.add_apply, holding_some, reduceCtorEq, if_false]
        omega
      · simp only [Pi.add_apply, holding_some, reduceCtorEq, if_false]
        omega
      · intro hq
        simp [quiet] at hq
      · simp only [Pi.add_apply, holding_some, if_true]
        omega
      · intro n
        simpa using hcall n
      · simpa using h.numbered
      · intro hr
        simp [hrun] at hr
  | draw ht _ _ _ | insert ht _ _ _ _ | insertFails ht _ _ _ | publishReady ht _ _ _
  | publishDelayed ht _ _ | cronFails ht _ | lift ht | readLifted ht | place ht =>
      exact ht.elim

/-- **Step lemma.**  A `stop` of the worker. -/
theorem Alive.stop (h : Alive w s (holding (life w (.stop w) (l, d)) + g))
    (hk : knows w (.stop w) l s) (he : Effect env s (.stop w) l c r s' l' ts) :
    Alive w s' (holding (life w (.stop w) (l', d')) + (startsWith w ts + g)) ∧
      knows w (.stop w) l' s' := by
  have same : s'.workers w = s.workers w → gone l = gone l' → ts = [] →
      Alive w s' (holding (life w (.stop w) (l', d')) + (startsWith w ts + g)) := by
    intro hw hgone hts
    have hlife : life w (.stop w) (l', d') = life w (.stop w) (l, d) := by
      simp only [life, hgone]
    rw [hts, startsWith_nil, zero_add, hlife]
    exact h.same hw
  cases he with
  | still _ _ hw =>
      exact ⟨same (by rw [hw]) rfl rfl, knows_object hk (by rw [hw]; exact id) (by rw [hw]; exact id)⟩
  | @inert _ _ w' op a obj hhost hop hrun hcalls hjobs hlaunch hexit =>
      cases hhost
      constructor
      · rw [startsWith_nil, zero_add]
        exact h.object (by simpa) (by simpa) (by simpa) (by simpa) (by simpa)
      · exact knows_object hk (by simp [hrun]) (by simp [quiet, hlaunch, hexit])
  -- `await this.loopPromise` returns when the loop has exited
  | awaitLoop hquiet => exact ⟨same rfl rfl rfl, fun _ => hquiet⟩
  | deregister => exact ⟨same rfl rfl rfl, hk⟩
  | dropHeartbeat => exact ⟨same rfl rfl rfl, hk⟩
  -- `running` is reset last: from here on the object is at rest
  | finish =>
      have hquiet := hk rfl
      refine ⟨?_, trivial⟩
      rw [startsWith_nil, zero_add]
      refine Alive.fewer (g := holding (life w (.stop w) (.deregistered, d)) + g) ?_
        fun x => by simp [life, gone]
      constructor
      · exact h.starting
      · exact h.apart
      · exact fun _ => h.looping hquiet
      · exact h.single
      · simpa using h.calls
      · simpa using h.numbered
      · intro _
        simpa [quiet] using hquiet
  | draw ht _ _ _ | insert ht _ _ _ _ | insertFails ht _ _ _ | publishReady ht _ _ _
  | publishDelayed ht _ _ | cronFails ht _ | lift ht | readLifted ht | place ht =>
      exact ht.elim

/-- **Step lemma.**  A pull loop of the worker. -/
theorem Alive.loop (h : Alive w s (holding (life w (.loop w) (l, d)) + g))
    (he : Effect env s (.loop w) l c r s' l' ts) :
    Alive w s' (holding (life w (.loop w) (l', d')) + (startsWith w ts + g)) := by
  have same : s'.workers w = s.workers w → gone l = gone l' → ts = [] →
      Alive w s' (holding (life w (.loop w) (l', d')) + (startsWith w ts + g)) := by
    intro hw hgone hts
    have hlife : life w (.loop w) (l', d') = life w (.loop w) (l, d) := by
      simp only [life, hgone]
    rw [hts, startsWith_nil, zero_add, hlife]
    exact h.same hw
  have hidle : ∀ d, life w (.loop w) (.idle, d) = some .looping := fun _ => if_pos ⟨rfl, rfl⟩
  have hended : ∀ d, life w (.loop w) (.ended, d) = none := fun _ => if_neg (by simp [gone])
  cases he with
  | still _ _ hw => exact same (by rw [hw]) rfl rfl
  | @inert _ _ w' op a obj hhost hop hrun hcalls hjobs hlaunch hexit =>
      cases hhost
      rw [startsWith_nil, zero_add]
      exact h.object (by simpa) (by simpa) (by simpa) (by simpa) (by simpa)
  | @pull _ x v =>
      refine same rfl ?_ rfl
      cases truthy (some v) <;> rfl
  | pullNothing _ => exact same rfl rfl rfl
  -- the number of the call is the counter, and so new to the slots
  | @dispatch _ j =>
      have hfresh : g (.call (s.workers w).calls) = 0 := by
        have hle := h.calls (s.workers w).calls
        have hnot : (s.workers w).calls ∉ (s.workers w).activeJobs :=
          fun hmem => lt_irrefl _ (h.numbered _ hmem)
        rw [if_neg hnot, Pi.add_apply] at hle
        omega
      have hpulled : life w (.loop w) (.pulled j, d) = some .looping := if_pos ⟨rfl, rfl⟩
      rw [hpulled] at h
      rw [hidle, startsWith_call]
      have hnone : ∀ x, (∀ n, x ≠ .call n) → (holding (some Life.looping) +
          (holding (some (Life.call (s.workers w).calls)) + g)) x =
            (holding (some Life.looping) + g) x := by
        intro x hx
        simp [(hx _).symm]
      constructor
      · rw [hnone _ (by simp)]
        exact h.starting
      · rw [hnone _ (by simp), hnone _ (by simp)]
        exact h.apart
      · rw [hnone _ (by simp)]
        intro hq
        exact h.looping (by simpa [quiet] using hq)
      · rw [hnone _ (by simp)]
        exact h.single
      · intro n
        have hle := h.calls n
        simp only [Pi.add_apply, holding_some, reduceCtorEq, if_false, zero_add,
          Life.call.injEq, setWorker_self, Finset.mem_insert] at hle ⊢
        by_cases hn : (s.workers w).calls = n
        · subst hn
          simp [hfresh]
        · rw [if_neg hn, zero_add]
          simpa [Ne.symm hn] using hle
      · intro n hn
        simp only [setWorker_self, Finset.mem_insert] at hn ⊢
        rcases hn with rfl | hn
        · exact Nat.lt_succ_self _
        · exact (h.numbered n hn).trans (Nat.lt_succ_self _)
      · intro hr
        have hquiet := h.rest (by simpa using hr)
        simpa [quiet] using hquiet
  -- one round ends as the next begins
  | loopAgain =>
      rw [hidle] at h
      rw [hended, holding_none_add, startsWith_loop]
      exact h
  -- it was the only loop
  | loopExit =>
      have hone := h.single
      rw [hidle] at hone
      simp only [Pi.add_apply, holding_some, if_true] at hone
      rw [hended, holding_none_add, startsWith_nil, zero_add]
      have hless : Alive w s g := h.fewer fun x => by simp
      constructor
      · exact hless.starting
      · exact hless.apart
      · intro _
        omega
      · exact hless.single
      · simpa using hless.calls
      · simpa using hless.numbered
      · intro _ _
        simp
  | draw ht _ _ _ | insert ht _ _ _ _ | insertFails ht _ _ _ | publishReady ht _ _ _
  | publishDelayed ht _ _ | cronFails ht _ | lift ht | readLifted ht | place ht =>
      exact ht.elim

/-- **Step lemma.**  A call of the worker. -/
theorem Alive.call (h : Alive w s (holding (life w (.processOne w n j) (l, d)) + g))
    (hd : d.permits j c) (he : Effect env s (.processOne w n j) l c r s' l' ts) :
    Alive w s' (holding (life w (.processOne w n j)
      (l', course.next (.processOne w n j) d c r)) + (startsWith w ts + g)) := by
  have same : s'.workers w = s.workers w → ts = [] →
      Alive w s' (holding (life w (.processOne w n j)
        (l', course.next (.processOne w n j) d c r)) + (startsWith w ts + g)) := by
    intro hw hts
    rw [hts, startsWith_nil, zero_add]
    refine (h.same hw).fewer fun x => ?_
    exact Nat.add_le_add_right (life_call_le (l := l) x) _
  cases he with
  | still _ _ hw => exact same (by rw [hw]) rfl
  | @inert _ _ w' op a obj hhost hop hrun hcalls hjobs hlaunch hexit =>
      cases hhost
      rw [startsWith_nil, zero_add]
      refine Alive.fewer (g := holding (life w (.processOne w n j) (l, d)) + g) ?_ fun x =>
        Nat.add_le_add_right (life_call_le (l := l) x) _
      exact h.object (by simpa) (by simpa) (by simpa) (by simpa) (by simpa)
  -- the call takes its own number out of `activeJobs`, and is gone
  | settle =>
      have hopen : done d = false := by
        cases d <;> first | rfl | exact hd.elim
      have hlife : life w (.processOne w n j) (l, d) = some (.call n) := if_pos ⟨rfl, hopen⟩
      have hlife' : life w (.processOne w n j) (l.settled,
          course.next (.processOne w n j) d (.onWorker w (.settle n)) (.ok ())) = none := by
        refine if_neg ?_
        cases d <;> simp [course, Course.onCall, done]
      have hle := h.calls
      rw [hlife] at hle
      rw [hlife', holding_none_add, startsWith_nil, zero_add]
      have hless : Alive w s g := h.fewer fun x => by simp
      constructor
      · exact hless.starting
      · exact hless.apart
      · intro hq
        exact hless.looping (by simpa [quiet] using hq)
      · exact hless.single
      · intro m
        have hm := hle m
        simp only [Pi.add_apply, holding_some, Life.call.injEq, setWorker_self,
          Finset.mem_erase] at hm ⊢
        by_cases hnm : n = m
        · subst hnm
          rw [if_pos rfl] at hm
          split at hm <;> omega
        · rw [if_neg hnm, zero_add] at hm
          simpa [Ne.symm hnm] using hm
      · intro m hm
        simp only [setWorker_self] at hm ⊢
        exact hless.numbered m (Finset.mem_of_mem_erase hm)
      · intro hr
        have hquiet := hless.rest (by simpa using hr)
        simpa [quiet] using hquiet
  | draw ht _ _ _ | insert ht _ _ _ _ | insertFails ht _ _ _ | publishReady ht _ _ _
  | publishDelayed ht _ _ | cronFails ht _ | lift ht | readLifted ht | place ht =>
      exact ht.elim
  | _ => exact same rfl rfl

/-- **Step lemma.**  Every effect keeps what is alive, and what the task knows. -/
theorem Alive.effect (h : Alive w s (holding (life w t (l, d)) + g)) (hk : knows w t l s)
    (hd : course.permits t d c) (he : Effect env s t l c r s' l' ts) :
    Alive w s' (holding (life w t (l', course.next t d c r)) + (startsWith w ts + g)) ∧
      knows w t l' s' := by
  by_cases hhost : t.host = some w
  · cases t with
    | start w' =>
        cases hhost
        exact h.start hk he
    | stop w' =>
        cases hhost
        exact h.stop hk he
    | loop w' =>
        cases hhost
        exact ⟨h.loop he, trivial⟩
    | processOne w' n j =>
        cases hhost
        exact ⟨h.call hd he, trivial⟩
    | heartbeat w' =>
        cases hhost
        refine ⟨?_, trivial⟩
        have hts : ts = [] := by
          cases he <;> rfl
        rw [hts, startsWith_nil, zero_add]
        cases he with
        | still _ _ hw => exact h.same (by rw [hw])
        | @inert _ _ w' op a obj hw hop hrun hcalls hjobs hlaunch hexit =>
            cases hw
            exact h.object (by simpa) (by simpa) (by simpa) (by simpa) (by simpa)
        | draw ht _ _ _ | insert ht _ _ _ _ | insertFails ht _ _ _ | publishReady ht _ _ _
        | publishDelayed ht _ _ | cronFails ht _ | lift ht | readLifted ht | place ht =>
            exact ht.elim
        | _ => exact h.same rfl
    | _ => cases hhost
  · refine ⟨?_, knows_other hhost⟩
    rw [life_other hhost, holding_none_add, startsWith_other he hhost, zero_add]
    rw [life_other hhost, holding_none_add] at h
    exact h.same (workers_of_effect he hhost)

/-- **Step lemma.**  A rejected command keeps less alive. -/
theorem Alive.rejected (h : Alive w s (holding (life w t (l, d)) + g)) {e : Err}
    (hp : Permits env t l c) (hd : course.permits t d c) (hf : c.faultable = true) :
    Alive w s (holding (life w t (l.afterError t c, course.next t d c (.error e))) + g) := by
  refine h.fewer fun x => Nat.add_le_add_right ?_ _
  cases t with
  | start w' | stop w' => simp [life, Phase.afterError, gone]
  | loop w' =>
      -- only a pull can be rejected, and the loop goes on
      have hidle : l = .idle := by
        cases hp with
        | pull | pullBlocking => rfl
        | quiet hq => cases c <;> first | exact hq.elim | exact hd.1.elim | cases hf
        | object | dispatch | loopAgain | loopExit => cases hf
        | cronClaim ht | cronSchedule ht | cronDelete ht | cronNext ht _ => exact ht.elim
        | lift ht | readLifted ht | place ht => exact ht.elim
        | insert ht _ _ _ | publishReady ht _ _ _ | publishDelayed ht _ _ => exact ht.elim
      subst hidle
      exact le_rfl
  | processOne w' n j =>
      by_cases hw : w' = w
      · subst hw
        exact life_call_le x
      · rw [life_other (by simpa [Task.host] using hw), holding_none]
        exact Nat.zero_le _
  | _ => exact le_rfl

/-- What the object of the worker keeps of an effect: its tasks start and end one after
the other. -/
theorem object_of_effect (he : Effect env s t l c r s' l' ts) :
    ((s.workers w).running = true → (s'.workers w).running = true ∨
        t = .stop w ∧ l = .deregistered) ∧
      (quiet (s.workers w) → quiet (s'.workers w) ∨ t = .start w ∧ l = .beating) := by
  by_cases hhost : t.host = some w
  · have same : s'.workers w = s.workers w → ((s.workers w).running = true →
        (s'.workers w).running = true ∨ t = .stop w ∧ l = .deregistered) ∧
        (quiet (s.workers w) → quiet (s'.workers w) ∨ t = .start w ∧ l = .beating) := by
      intro hw
      rw [hw]
      exact ⟨Or.inl, Or.inl⟩
    cases he with
    | still _ _ hw => exact same (by rw [hw])
    | inert hw _ hrun _ _ hlaunch hexit =>
        cases hw.symm.trans hhost
        exact ⟨fun hr => Or.inl (by simpa [hrun] using hr),
          fun hq => Or.inl (by simpa [quiet, hlaunch, hexit] using hq)⟩
    | dispatch | settle =>
        cases hhost
        exact ⟨fun hr => Or.inl (by simpa using hr), fun hq => Or.inl (by simpa [quiet] using hq)⟩
    | loopExit =>
        cases hhost
        exact ⟨fun hr => Or.inl (by simpa using hr), fun _ => Or.inl (by simp [quiet])⟩
    | begin =>
        cases hhost
        exact ⟨fun _ => Or.inl (by simp), fun hq => Or.inl (by simpa [quiet] using hq)⟩
    | launch =>
        cases hhost
        exact ⟨fun hr => Or.inl (by simpa using hr), fun _ => Or.inr ⟨rfl, rfl⟩⟩
    | finish =>
        cases hhost
        exact ⟨fun _ => Or.inr ⟨rfl, rfl⟩, fun hq => Or.inl (by simpa [quiet] using hq)⟩
    | _ => exact same rfl
  · rw [workers_of_effect he hhost]
    exact ⟨Or.inl, Or.inl⟩

/-- **Step lemma.**  No process disturbs what another one knows. -/
theorem knows_effect (he : Effect env s t l c r s' l' ts) (h : Alive w s g)
    (hk : knows w t₂ l₂ s)
    (hg : g = holding (life w t (l, d)) + (holding (life w t₂ (l₂, d')) + g')) :
    knows w t₂ l₂ s' := by
  obtain ⟨hrun, hquiet⟩ := object_of_effect (w := w) he
  have hone := h.starting
  have hapart := h.apart
  rw [hg] at hone hapart
  simp only [Pi.add_apply] at hone hapart
  -- else a start and another start, or a stop, would be in progress together
  revert hk
  unfold knows
  split
  case h_1 w' | h_2 w' | h_3 w' =>
      intro hk hw
      subst hw
      have htoken : ∀ l, gone l = false → life w' (.start w') (l, d') = some .starting :=
        fun l hl => if_pos ⟨rfl, hl⟩
      rw [htoken _ rfl] at hone hapart
      simp only [holding_some, if_true, reduceCtorEq, if_false] at hone hapart
      constructor
      · refine (hrun (hk rfl).1).resolve_right ?_
        rintro ⟨rfl, rfl⟩
        have hstop : life w' (.stop w') (.deregistered, d) = some .stopping := if_pos ⟨rfl, rfl⟩
        rw [hstop] at hapart
        simp only [holding_some, if_true, reduceCtorEq, if_false] at hapart
        omega
      · refine (hquiet (hk rfl).2).resolve_right ?_
        rintro ⟨rfl, rfl⟩
        have hstart : life w' (.start w') (.beating, d) = some .starting := if_pos ⟨rfl, rfl⟩
        rw [hstart] at hone
        simp only [holding_some, if_true] at hone
        omega
  case h_4 w' | h_5 w' =>
      intro hk hw
      subst hw
      refine (hquiet (hk rfl)).resolve_right ?_
      rintro ⟨rfl, rfl⟩
      have hstart : life w' (.start w') (.beating, d) = some .starting := if_pos ⟨rfl, rfl⟩
      have htoken : ∀ l, gone l = false → life w' (.stop w') (l, d') = some .stopping :=
        fun l hl => if_pos ⟨rfl, hl⟩
      rw [htoken _ rfl, hstart] at hapart
      simp only [holding_some, if_true, reduceCtorEq, if_false] at hapart
      omega
  case h_6 => exact id

/-- A `start` or `stop` that has ended keeps nothing alive. -/
theorem life_ended {p : Process} (hp : (shutdown env w).ProcOk s p) (hend : Ended p)
    (ht : p.task = .start w ∨ p.task = .stop w) :
    life w p.task (((custody env).prod course).phase p.task p.hist) = none := by
  obtain ⟨-, -, hfol⟩ := hp
  have hover : ∃ r, Over p.task r (((custody env).prod course).phase p.task p.hist).1 := by
    cases hprog : p.prog with
    | ret a =>
        rw [hprog] at hfol
        exact ⟨_, hfol.1⟩
    | raise e =>
        rw [hprog] at hfol
        exact ⟨_, hfol.1⟩
    | call cmd k => exact absurd hprog (hend cmd k)
  obtain ⟨r, hgone⟩ := hover
  rcases ht with ht | ht
  · rw [ht] at hgone ⊢
    exact if_neg fun h => Bool.false_ne_true (h.2.symm.trans hgone)
  · rw [ht] at hgone ⊢
    exact if_neg fun h => Bool.false_ne_true (h.2.symm.trans hgone)

/-- Where every `start` has ended, none is in progress. -/
theorem no_start {c : State} (hc : (shutdown env w).PoolOk c)
    (h : ∀ p ∈ c.pool, p.task = .start w → Ended p) :
    (shutdown env w).total c.pool .starting = 0 := by
  refine (shutdown env w).total_eq_zero (fun p hp => ?_) fun _ _ _ _ => rfl
  change holding (life w p.task (((custody env).prod course).phase p.task p.hist)) _ = 0
  by_cases ht : p.task = .start w
  · rw [life_ended (hc.2 p hp) (h p hp ht) (Or.inl ht)]
    rfl
  · cases hphase : ((custody env).prod course).phase p.task p.hist with
    | mk l d =>
        cases htask : p.task with
        | start w' =>
            have hne : w' ≠ w := fun hw => ht (by rw [htask, hw])
            simp [life, hne]
        | _ => simp [life, apply_ite holding, ite_apply]

/-- Where every `stop` has ended, none is in progress. -/
theorem no_stop {c : State} (hc : (shutdown env w).PoolOk c)
    (h : ∀ p ∈ c.pool, p.task = .stop w → Ended p) :
    (shutdown env w).total c.pool .stopping = 0 := by
  refine (shutdown env w).total_eq_zero (fun p hp => ?_) fun _ _ _ _ => rfl
  change holding (life w p.task (((custody env).prod course).phase p.task p.hist)) _ = 0
  by_cases ht : p.task = .stop w
  · rw [life_ended (hc.2 p hp) (h p hp ht) (Or.inr ht)]
    rfl
  · cases hphase : ((custody env).prod course).phase p.task p.hist with
    | mk l d =>
        cases htask : p.task with
        | stop w' =>
            have hne : w' ≠ w := fun hw => ht (by rw [htask, hw])
            simp [life, hne]
        | _ => simp [life, apply_ite holding, ite_apply]

/-- A task that clashes with none in progress may be started. -/
theorem Alive.begun {c : State} (hc : (shutdown env w).PoolOk c) (hext : t.external)
    (h : ∀ p ∈ c.pool, clashes w t p.task = true → Ended p) :
    Alive w c.store (holding (life w t (Phase.start t, course.start t)) +
      (shutdown env w).total c.pool) := by
  have halive : Alive w c.store ((shutdown env w).total c.pool) := hc.1
  by_cases hhost : t.host = some w
  · cases t with
    | start w' =>
        cases hhost
        have hstart := no_start hc fun p hp ht => h p hp (by simp [clashes, ht])
        have hstop := no_stop hc fun p hp ht => h p hp (by simp [clashes, ht])
        have hlife : life w (.start w) (Phase.start (.start w), course.start (.start w)) =
            some .starting := if_pos ⟨rfl, rfl⟩
        rw [hlife]
        constructor
        · simp [hstart]
        · simp [hstop]
        · simpa using halive.looping
        · simpa using halive.single
        · simpa using halive.calls
        · exact halive.numbered
        · exact halive.rest
    | stop w' =>
        cases hhost
        have hstart := no_start hc fun p hp ht => h p hp (by simp [clashes, ht])
        have hlife : life w (.stop w) (Phase.start (.stop w), course.start (.stop w)) =
            some .stopping := if_pos ⟨rfl, rfl⟩
        rw [hlife]
        constructor
        · simp [hstart]
        · simp [hstart]
        · simpa using halive.looping
        · simpa using halive.single
        · simpa using halive.calls
        · exact halive.numbered
        · exact halive.rest
    | heartbeat w' => exact halive.fewer fun x => by simp [life]
    | loop w' | processOne w' n j => exact hext.elim
    | _ => cases hhost
  · rw [life_other hhost, holding_none_add]
    exact halive

/-- **Stopping is a sound discipline.** -/
theorem shutdown_sound : (shutdown env w).Sound (Orderly w) where
  follows t _ := follows_prod (over_follows t) (course_follows env t)
  call s t l c o r s' F h := by
    obtain ⟨hp, hd⟩ := h.permits
    have hspawn : ∀ t' s, knows w t' (Phase.start t') s := by
      intro t' s
      unfold knows
      split
      case h_6 => trivial
      all_goals
        rename_i hstart
        cases hstart
    rcases (exec_cases h.exec).2 with ⟨err, -, hf, rfl, rfl⟩ | ⟨-, ha⟩
    · refine ⟨?_, ?_, fun t' _ => ⟨trivial, hspawn t' s'⟩⟩
      · have hnone : (shutdown env w).starts ((machine env).forks t c (.error err)) = 0 := by
          change startsWith w (forks t c (.error err)) = 0
          rw [Claims.forks_error, startsWith_nil]
        rw [hnone, add_zero]
        change Alive w s' (holding _ + (0 + F))
        rw [zero_add]
        exact Alive.rejected h.inv hp hd hf
      · change knows w t (l.1.afterError t c) s'
        cases t with
        | start w' | stop w' => exact trivial
        | _ => trivial
    · obtain ⟨halive, hk⟩ := Alive.effect h.inv h.loc hd (effect_of_answer hp ha)
      refine ⟨?_, hk, fun t' _ => ⟨trivial, hspawn t' s'⟩⟩
      change Alive w s' (holding _ + (0 + startsWith w (forks t c r) + F))
      rw [zero_add]
      exact halive
  stable s t l c o r s' F h t₂ l₂ F₂ hF _ hk := by
    obtain ⟨hp, -⟩ := h.permits
    rcases (exec_cases h.exec).2 with ⟨-, -, -, rfl, -⟩ | ⟨-, ha⟩
    · exact hk
    · have hg : holding (life w t l) + F =
          holding (life w t (l.1, l.2)) + (holding (life w t₂ (l₂.1, l₂.2)) + F₂) := by
        rw [hF]
        rfl
      exact knows_effect (effect_of_answer hp ha) h.inv hk hg
  start c t hok hc := by
    refine ⟨trivial, Alive.begun hc hok.1 hok.2, ?_⟩
    change knows w t (Phase.start t) c.store
    cases t <;> trivial
  allows _ _ _ _ _ _ _ _ _ _ := trivial
  drift c m s' _ hc hm := by
    have halive : Alive w c.store ((shutdown env w).total c.pool) := hc.1
    have hworkers : s'.workers = c.store.workers := by
      cases m <;> cases hm <;> rfl
    refine ⟨halive.same (by rw [hworkers]), fun t l _ hk => ?_⟩
    exact knows_object hk (by rw [hworkers]; exact id) (by rw [hworkers]; exact id)

end Step

section Result

variable {env : Env} {c c' : State} {w : WorkerId} {i : ℕ} {o : Oracle}

/-- The worker has not been started, nothing is running and its processing list is
empty. -/
def Unstarted (w : WorkerId) (c : State) : Prop :=
  c.pool = [] ∧ c.store.redis.lists (redisKeys.processing w) = [] ∧ c.store.workers w = {}

/-- Both disciplines hold in every orderly run. -/
theorem poolOk_of_orderly (hc : (machine env).Reach (Orderly w) (Unstarted w) c) :
    (shutdown env w).PoolOk c ∧ (Claims.claims env w).PoolOk c := by
  constructor
  · refine shutdown_sound.reach ?_ hc
    rintro c ⟨hpool, -, hworker⟩
    rw [Discipline.PoolOk, hpool]
    refine ⟨?_, by simp⟩
    change Alive w c.store 0
    constructor <;> simp [hworker, quiet]
  · refine Claims.claims_sound.reach ?_ (hc.mono (fun _ _ h => h.keeps) fun _ h => h)
    rintro c ⟨hpool, hlist, -⟩
    rw [Discipline.PoolOk, hpool]
    exact ⟨fun j => by simp [hlist, Discipline.total], by simp⟩

/-- Where no pull loop and no call is alive, no pull owes its entry. -/
theorem clean_of_still (hs : (shutdown env w).PoolOk c) (hk : (Claims.claims env w).PoolOk c)
    (hquiet : quiet (c.store.workers w)) (hjobs : (c.store.workers w).activeJobs = ∅) :
    Clean w c.store := by
  intro j hj
  have halive : Alive w c.store ((shutdown env w).total c.pool) := hs.1
  have hnone : ∀ x, (shutdown env w).total c.pool x = 0 → ∀ p ∈ c.pool,
      life w p.task (((custody env).prod course).phase p.task p.hist) ≠ some x := by
    intro x hx p hp hlife
    rw [Discipline.total_apply] at hx
    have hle := List.single_le_sum (fun _ _ => Nat.zero_le _) _
      (List.mem_map_of_mem (f := fun p : Process => holding (life w p.task
        (((custody env).prod course).phase p.task p.hist)) x) hp)
    rw [hlife, holding_some, if_pos rfl] at hle
    change 1 ≤ (c.pool.map fun p => (shutdown env w).val p.task _ x).sum at hle
    omega
  have hcalls : ∀ n, (shutdown env w).total c.pool (.call n) = 0 := by
    intro n
    have hle := halive.calls n
    rw [hjobs] at hle
    simpa using hle
  have howing : (Claims.claims env w).total c.pool (.owing j) = 0 := by
    refine (Claims.claims env w).total_eq_zero (fun p hp => ?_) fun t l cmd r => ?_
    · have hloop := hnone .looping (halive.looping hquiet) p hp
      have hcall := fun n => hnone (.call n) (hcalls n) p hp
      change holding (Claims.share w p.task (((custody env).prod course).phase p.task p.hist)) _ = 0
      revert hloop hcall
      generalize ((custody env).prod course).phase p.task p.hist = x
      obtain ⟨l, d⟩ := x
      cases p.task with
      | loop w' =>
          intro hloop _
          cases l <;> simp_all [life, Claims.share, gone]
      | processOne w' n j' =>
          intro _ hcall
          have hover : w' = w → done d = true := by
            intro hw
            by_contra hd
            exact hcall n (if_pos ⟨hw, by simpa using hd⟩)
          by_cases hw : w' = w
          · cases d <;>
              first
                | (simp [Claims.share, Claims.dues]; done)
                | exact absurd (hover hw) Bool.false_ne_true
          · simp [Claims.share, hw]
      | _ => simp [Claims.share]
    · exact if_neg hj
  have hle := (hk.1 j).1
  rw [howing] at hle
  exact List.count_eq_zero.mp (Nat.le_zero.mp hle)

/-- **`stop` leaves no claim behind.**  In every run in which no call of `w` leaks its
entry, no call is in progress when `stop` returns, and `start` is not called together
with `start` or `stop`: when `stop` returns, every job on the processing list is
recoverable. -/
theorem recoverable_when_stopped (hc : (machine env).Reach (Orderly w) (Unstarted w) c)
    (hok : Orderly w c (.call i o)) (hstop : Stops w c i)
    (hstep : (machine env).step c (.call i o) = some c') : Recoverable w c'.store := by
  obtain ⟨hs, hk⟩ := poolOk_of_orderly hc
  obtain ⟨p, cmd, k, r, s, hp, -, hprog, hex, rfl⟩ := Machine.step_call hstep
  obtain ⟨-, hknows, hfol⟩ := hs.2 p (List.mem_of_getElem? hp)
  rw [hprog] at hfol
  have hcmd : cmd = .onWorker w .finish := by
    have hfin : Cmd.finishes w cmd = true := by
      simpa [Stops, nextCmd, hp, hprog] using hstop
    unfold Cmd.finishes at hfin
    split at hfin
    · rw [of_decide_eq_true hfin]
    · cases hfin
  subst hcmd
  have hperm : Permits env p.task (((custody env).prod course).phase p.task p.hist).1
      (.onWorker w .finish) := hfol.1.1
  change knows w p.task (((custody env).prod course).phase p.task p.hist).1 c.store at hknows
  have hquiet : quiet (c.store.workers w) := by
    revert hperm hknows
    generalize (((custody env).prod course).phase p.task p.hist).1 = l
    generalize p.task = t
    intro hperm hknows
    cases hperm with
    | quiet hq => exact hq.elim
    | object _ hop => exact hop.elim
    | finish => exact hknows rfl
  have hclean := clean_of_still hs hk hquiet (hok.2 hstop)
  refine Or.inl fun j hj => ?_
  have hlists : s.redis = c.store.redis := by
    rcases (exec_cases hex).2 with ⟨-, -, hf, -, -⟩ | ⟨-, ha⟩
    · cases hf
    · cases ha
      rfl
  change j ∉ s.redis.lists (redisKeys.processing w)
  rw [hlists]
  exact hclean j hj

/-- Worker `w1` is started and is about to run the handler of the job `j1`. -/
def oneJob : List Action :=
  [.start (.enqueue "echo" (some .null) {}), .call 0 (.fresh j1)] ++ goes 0 5 ++
    [.start (.start "w1")] ++ goes 1 8 ++ goes 2 5 ++ goes 3 6

/-- The theorem on a run in which `stop` waits for a call. -/
theorem recoverable_when_drained :
    ∃ c c', (machine sample).Reach (Orderly "w1") (Unstarted "w1") c ∧
      (machine sample).step c (.call 4 .plain) = some c' ∧ Recoverable "w1" c'.store := by
  obtain ⟨c, hc, ht⟩ := Machine.exists_reach (machine sample) (Orderly "w1") (Unstarted "w1")
    (c := blank) ⟨rfl, rfl, rfl⟩
    (oneJob ++ returns 3 ++ goes 3 7 ++ [.start (.stop "w1")] ++ goes 4 4 ++ goes 3 1 ++ goes 4 1 ++
      goes 2 1 ++ goes 5 2 ++ goes 4 5)
    (fun c => decide (Orderly "w1" c (.call 4 .plain) ∧ Stops "w1" c 4) &&
      ((machine sample).step c (.call 4 .plain)).isSome) (by decide +kernel)
  obtain ⟨hok, hsome⟩ := Bool.and_eq_true_iff.mp ht
  obtain ⟨c', hstep⟩ := Option.isSome_iff_exists.mp hsome
  obtain ⟨hok, hstop⟩ := of_decide_eq_true hok
  exact ⟨c, c', hc, hstep, recoverable_when_stopped hc hok hstop hstep⟩

/-- A job on the list of a worker that is not registered will not be recovered. -/
theorem not_recoverable {s : World} {j : JobId} (hj : j ≠ "")
    (hlist : j ∈ s.redis.lists (redisKeys.processing w))
    (hreg : w ∉ s.redis.sets redisKeys.workerRegistry) : ¬ Recoverable w s := by
  rintro (hclean | hmem)
  · exact hclean j hj hlist
  · exact hreg hmem

/-- Nothing fails, and `stop` strands a job: the handler outlasts the half minute that
`stop` waits for it, or the pull loop pulls the job after `stop` has looked for calls. -/
theorem stop_strands_job :
    (∃ c c', (machine sample).Reach Reliable Blank c ∧ Stops "w1" c 4 ∧
      (machine sample).step c (.call 4 .plain) = some c' ∧ ¬ Recoverable "w1" c'.store) ∧
    ∃ c c', (machine sample).Reach Reliable Blank c ∧ Stops "w1" c 3 ∧
      (machine sample).step c (.call 3 .plain) = some c' ∧ ¬ Recoverable "w1" c'.store := by
  have stranded : ∀ i (chs : List Action), ((machine sample).walk Reliable blank chs).any
      (fun c => decide (Stops "w1" c i) && ((machine sample).step c (.call i .plain)).any fun c' =>
        decide (j1.text ∈ c'.store.redis.lists (redisKeys.processing "w1") ∧
          "w1" ∉ c'.store.redis.sets redisKeys.workerRegistry)) = true →
      ∃ c c', (machine sample).Reach Reliable Blank c ∧ Stops "w1" c i ∧
        (machine sample).step c (.call i .plain) = some c' ∧ ¬ Recoverable "w1" c'.store := by
    intro i chs hrun
    obtain ⟨c, hc, ht⟩ := Machine.exists_reach (machine sample) Reliable Blank blank_blank chs _ hrun
    obtain ⟨hstop, hany⟩ := Bool.and_eq_true_iff.mp ht
    obtain ⟨c', hstep, ht⟩ := (Option.any_eq_true _ _).mp hany
    obtain ⟨hlist, hreg⟩ := of_decide_eq_true ht
    exact ⟨c, c', hc, of_decide_eq_true hstop, hstep, not_recoverable (by decide) hlist hreg⟩
  constructor
  · exact stranded 4 (oneJob ++ [.start (.stop "w1")] ++ goes 4 4 ++ goes 2 1 ++ goes 5 2 ++
      [.drift (.pass 30000), .call 4 .timeout] ++ goes 4 5) (by decide +kernel)
  · exact stranded 3 ([.start (.start "w1")] ++ goes 0 8 ++ goes 1 2 ++
      [.start (.enqueue "echo" (some .null) {}), .call 2 (.fresh j1)] ++ goes 2 5 ++
      [.start (.stop "w1")] ++ goes 3 3 ++ goes 1 4 ++ goes 5 2 ++ goes 3 5) (by decide +kernel)

end Result

end Shutdown

end NexusQueue
