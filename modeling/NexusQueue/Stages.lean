/-
# Starting and stopping a worker (`worker/src/worker.ts`)

The machine has one worker that is started and stopped, its pull loop and its calls; what
leaves the process may be answered in any way.  In every run the calls in progress are the
promises in `activeJobs`, and a round of the loop is under way exactly as long as the loop has
been launched and has not exited (`standstill_reach`).
-/
import NexusQueue.Slots

namespace NexusQueue

namespace Standstill

open Slots (Part Answers Counted)

/-! ## The machine -/

/-- What runs in the worker: `start`, `stop`, the pull loop and the calls. -/
inductive Role where
  | part (t : Part)
  | start
  | stop
  deriving DecidableEq

/-- What a role runs. -/
def run (env : Env) (w : WorkerId) : Role → Async Unit
  | .part t => Slots.run env w t
  | .start => Worker.start env w
  | .stop => Worker.stop w

/-- Commands are answered or rejected, but neither the clock nor `setTimeout` rejects, nor
does the object of the worker. -/
def answerable : (c : Cmd) → Except Err c.Resp → Bool
  | .now, .error _ | .sleep _, .error _ | .onWorker _ _, .error _ => false
  | _, _ => true

/-- The timer of `stop` has fired if the answer says so. -/
def timer : Except Err Bool → Oracle
  | .ok true => .timeout
  | _ => .plain

/-- The code of the worker does what it does; everything else is answered in any way. -/
def exec (env : Env) (s : World) (_ : Role) (c : Cmd) (answers : Answers) :
    Option (Except Err c.Resp × World) :=
  match c with
  | .onWorker w (.drain snapshot deadline) =>
      s.local? env w (timer (answers (.onWorker w (.drain snapshot deadline))))
        (.drain snapshot deadline)
  | .onWorker w op => s.local? env w .plain op
  | c => if answerable c (answers c) then some (answers c, s) else none

/-- What a command starts. -/
def forks : Role → (c : Cmd) → Except Err c.Resp → List Role
  | .part t, c, r => (Slots.forks t c r).map .part
  | .start, .onWorker _ .launch, .ok _ => [.part .loop]
  | _, _, _ => []

/-- The worker with its stores left open; time passes. -/
def worker (env : Env) (w : WorkerId) :
    Machine World Role Cmd Cmd.Resp Err Unit Answers ℕ where
  body := run env w
  exec := exec env
  forks := forks
  drift s ms := some { s with clock := s.clock + ms }

/-- A process of the worker. -/
abbrev Process := Proc Role Cmd Cmd.Resp Err Unit

/-- A state of the worker and what it runs. -/
abbrev Running := Config World Role Cmd Cmd.Resp Err Unit

/-- A process that has returned or thrown. -/
def Over (p : Process) : Bool :=
  match p.prog with
  | .call _ _ => false
  | _ => true

/-- The worker is not started while it is being started or stopped, and not stopped while it
is being started. -/
def Called (c : Running) : Choice Role Answers ℕ → Prop
  | .start .start => ∀ p ∈ c.pool, p.task = .start ∨ p.task = .stop → Over p
  | .start .stop => ∀ p ∈ c.pool, p.task = .start → Over p
  | .start (.part _) => False
  | .halt _ => False
  | _ => True

instance (c : Running) : (a : Choice Role Answers ℕ) → Decidable (Called c a)
  | .start .start => inferInstanceAs (Decidable (∀ p ∈ c.pool,
      p.task = .start ∨ p.task = .stop → Over p))
  | .start .stop => inferInstanceAs (Decidable (∀ p ∈ c.pool, p.task = .start → Over p))
  | .start (.part _) | .halt _ => .isFalse id
  | .call _ _ | .drift _ => .isTrue trivial

/-- A worker that has not been used. -/
def New (w : WorkerId) (c : Running) : Prop := c.pool = [] ∧ c.store.workers w = {}

/-! ## The stages of `start` and `stop` -/

/-- How far a role has come. -/
inductive Stage where
  | part (l : Slots.Phase)
  | fresh
  | begun
  | stopping
  | drained
  | freed
  | finished
  | failed
  | broken
  deriving DecidableEq

/-- `stop` has drained the calls. -/
def Stage.late : Stage → Bool
  | .drained | .freed | .finished | .failed | .broken => true
  | _ => false

/-- What `start` and `stop` may do to the object of the worker. -/
def fits : Role → Stage → Local → Prop
  | .start, .fresh, .begin | .start, .begun, .armTimer | .start, .begun, .launch => True
  | .stop, .fresh, .requestStop | .stop, .stopping, .snapshot => True
  | .stop, .stopping, .drain _ _ | .stop, .stopping, .awaitLoop => True
  | .stop, .drained, .awaitLoop => True
  | .stop, .freed, .clearTimer | .stop, .freed, .finish => True
  | _, _, _ => False

/-- What a role may do at a stage. -/
def permits (w : WorkerId) : Role → Stage → Cmd → Prop
  | .part t, .part l, c => Slots.permits w t l c
  | .part _, _, _ => False
  | _, .broken, _ => True
  | t, l, .onWorker w' op => w' = w ∧ fits t l op
  | _, _, .handler _ _ _ => False
  | _, l, _ => l = .begun ∨ l = .stopping ∨ l = .freed

/-- `start` after an answer. -/
def onStart (l : Stage) : (c : Cmd) → Except Err c.Resp → Stage
  | .onWorker _ .begin, .ok _ => .begun
  | .onWorker _ .begin, .error _ => .failed
  | .onWorker _ .launch, .ok _ => .finished
  | .onWorker _ _, .error _ => .broken
  | _, .error _ => .failed
  | _, _ => l

/-- `stop` after an answer. -/
def onStop (l : Stage) : (c : Cmd) → Except Err c.Resp → Stage
  | .onWorker _ .requestStop, .ok _ => if l.late then l else .stopping
  | .onWorker _ (.drain _ _), .ok _ => if l.late then l else .drained
  | .onWorker _ .awaitLoop, .ok _ => .freed
  | .onWorker _ .finish, .ok _ => .finished
  | .onWorker _ _, .error _ => .broken
  | _, .error _ => .failed
  | _, _ => l

/-- The protocol of the worker. -/
def stages (env : Env) (w : WorkerId) : Protocol Role Cmd Cmd.Resp Err Stage where
  start
    | .part t => .part ((Slots.rounds env w).start t)
    | _ => .fresh
  permits := permits w
  next t l c r := match t, l with
    | .part t, .part l => .part ((Slots.rounds env w).next t l c r)
    | .part _, l => l
    | _, .broken => .broken
    | .start, l => onStart l c r
    | .stop, l => onStop l c r

/-- How a role ends. -/
def Ended : Role → Except Err Unit → Stage → Prop
  | .part t, _, l => ∃ l', l = .part l' ∧ Slots.Ended t l'
  | _, r, l => l = .finished ∧ r = .ok () ∨ l = .failed ∨ l = .broken

section Follows

variable {env : Env} {w : WorkerId}

/-- A part keeps to its rounds. -/
theorem part_follows {α : Type} {t : Part} {l : Slots.Phase} {p : Async α}
    {Q : Except Err α → Slots.Phase → Prop} (h : Follows (Slots.rounds env w) t l p Q) :
    Follows (stages env w) (.part t) (.part l) p fun r l => ∃ l', l = .part l' ∧ Q r l' := by
  induction p generalizing l with
  | ret a => exact ⟨l, rfl, h⟩
  | raise e => exact ⟨l, rfl, h⟩
  | call c k ih => exact ⟨h.1, fun r => ih r (h.2 r)⟩

theorem start_follows :
    Follows (stages env w) .start .fresh (Worker.start env w) (Ended .start) := by
  have hfailed : ∀ e, Ended .start (.error e) .failed := fun _ => Or.inr (Or.inl rfl)
  refine follows_step ⟨rfl, trivial⟩ (fun _ => ?_) hfailed
  refine follows_step (Or.inl rfl) (fun _ => ?_) hfailed
  refine follows_bind (fun r l => l = if r.isOk then .begun else .failed) ?_ ?_ ?_
  · refine follows_step (Or.inl rfl) (fun now => ?_) fun _ => rfl
    refine follows_perform (Or.inl rfl) fun r => ?_
    cases r <;> rfl
  · rintro _ l rfl
    refine follows_step (Or.inl rfl) (fun startedAt => ?_) hfailed
    refine follows_step (Or.inl rfl) (fun _ => ?_) hfailed
    refine follows_step ⟨rfl, trivial⟩ (fun _ => ?_) fun _ => Or.inr (Or.inr rfl)
    refine follows_perform ⟨rfl, trivial⟩ fun r => ?_
    cases r with
    | ok a => exact Or.inl ⟨rfl, rfl⟩
    | error e => exact Or.inr (Or.inr rfl)
  · rintro e l rfl
    exact hfailed e

theorem stop_follows :
    Follows (stages env w) .stop .fresh (Worker.stop w) (Ended .stop) := by
  have hfailed : ∀ e, Ended .stop (.error e) .failed := fun _ => Or.inr (Or.inl rfl)
  have hbroken : ∀ e, Ended .stop (.error e) .broken := fun _ => Or.inr (Or.inr rfl)
  have hfree : ∀ l, l = .stopping ∨ l = .drained →
      Follows (stages env w) .stop l (do
        onWorker w .awaitLoop
        redis.srem redisKeys.workerRegistry w
        redis.del (redisKeys.heartbeat w)
        redis.del (redisKeys.workerMeta w)
        onWorker w .clearTimer
        onWorker w .finish) (Ended .stop) := by
    rintro l (rfl | rfl)
    all_goals
      refine follows_step ⟨rfl, trivial⟩ (fun _ => ?_) hbroken
      refine follows_step (Or.inr (Or.inr rfl)) (fun _ => ?_) hfailed
      refine follows_step (Or.inr (Or.inr rfl)) (fun _ => ?_) hfailed
      refine follows_step (Or.inr (Or.inr rfl)) (fun _ => ?_) hfailed
      refine follows_step ⟨rfl, trivial⟩ (fun _ => ?_) hbroken
      refine follows_perform ⟨rfl, trivial⟩ fun r => ?_
      cases r with
      | ok a => exact Or.inl ⟨rfl, rfl⟩
      | error e => exact hbroken e
  refine follows_step ⟨rfl, trivial⟩ (fun _ => ?_) hbroken
  refine follows_step (Or.inr (Or.inl rfl)) (fun _ => ?_) hfailed
  refine follows_step ⟨rfl, trivial⟩ (fun snapshot => ?_) hbroken
  refine follows_bind (fun r l => if r.isOk then l = .stopping ∨ l = .drained
    else l = .failed ∨ l = .broken) ?_ (fun _ l hl => hfree l hl) fun _ _ hl => Or.inr hl
  unfold Worker.drain
  split
  · refine follows_step (Or.inr (Or.inl rfl)) (fun now => ?_) fun _ => Or.inl rfl
    refine follows_step ⟨rfl, trivial⟩ (fun _ => ?_) fun _ => Or.inr rfl
    exact follows_pure (Or.inr rfl)
  · exact follows_pure (Or.inl rfl)

theorem run_follows (t : Role) :
    Follows (stages env w) t ((stages env w).start t) (run env w t) (Ended t) := by
  cases t with
  | part t => exact part_follows (Slots.run_follows t)
  | start => exact start_follows
  | stop => exact stop_follows

end Follows

/-! ## What is alive -/

/-- No pull loop is running. -/
def quiet (obj : WorkerObj) : Prop := obj.launched = true → obj.exited = true

instance (obj : WorkerObj) : Decidable (quiet obj) := inferInstanceAs (Decidable (_ → _))

/-- What is counted: starts and stops in progress, and what the parts count for. -/
inductive Life where
  | starting
  | stopping
  | part (x : Slots.Life)
  deriving DecidableEq

/-- What a role counts for. -/
def life : Role → Stage → Option Life
  | .part t, .part l => (Slots.life t l).map .part
  | .start, .fresh | .start, .begun => some .starting
  | .stop, .fresh | .stop, .stopping | .stop, .drained | .stop, .freed => some .stopping
  | _, _ => none

/-- The calls in progress are the promises, the loop is running as long as it has not
exited, and no `stop` is in progress with a `start`. -/
structure Alive (env : Env) (w : WorkerId) (s : World) (g : Life → ℕ) : Prop where
  counted : Counted env w s fun x => g (.part x)
  loop : g (.part .busy) + g (.part .cleared) = if quiet (s.workers w) then 0 else 1
  starting : g .starting ≤ 1
  apart : 0 < g .starting → g .stopping = 0
  rest : (s.workers w).running = false → quiet (s.workers w)

/-- What a role knows. -/
def knows (w : WorkerId) : Role → Stage → World → Prop
  | .part t, .part l, s => Slots.knows w t l s
  | _, .broken, _ => False
  | .start, .begun, s => (s.workers w).running = true ∧ quiet (s.workers w)
  | .stop, .stopping, s | .stop, .drained, s => (s.workers w).stopRequested = true
  | .stop, .freed, s => quiet (s.workers w)
  | _, _, _ => True

/-- Stopping as a discipline over its stages. -/
def standstill (env : Env) (w : WorkerId) :
    Discipline (worker env w) (stages env w) (Life → ℕ) where
  good t := t ≠ .part .available
  val t l := holding (life t l)
  emit _ _ _ _ := 0
  loc := knows w
  inv := Alive env w
  allow _ _ _ _ _ _ := True
  post := Ended

section Step

variable {env : Env} {w : WorkerId} {s s' : World} {F g : Life → ℕ} {t : Role} {l : Stage}

/-- What a part counts for, counted among parts. -/
theorem holding_part (x : Option Slots.Life) (F : Life → ℕ) :
    (fun y => (holding (x.map Life.part) + F) (.part y)) =
      holding x + fun y => F (.part y) := by
  funext y
  cases x <;> simp [holding]

/-- The object of the worker keeps all but the loop's exit. -/
structure Keeps (w : WorkerId) (s s' : World) : Prop where
  running : (s'.workers w).running = (s.workers w).running
  stopRequested : (s'.workers w).stopRequested = (s.workers w).stopRequested
  quiet : quiet (s.workers w) → quiet (s'.workers w)

/-- What a role knows stays true. -/
theorem knows_keeps (h : Keeps w s s') (hadv : Slots.Advances w s s') (hk : knows w t l s) :
    knows w t l s' := by
  cases t with
  | part t =>
      cases l with
      | part l => exact Slots.knows_advances hadv hk
      | _ => exact hk
  | start =>
      cases l with
      | begun => exact ⟨h.running.trans hk.1, h.quiet hk.2⟩
      | _ => exact hk
  | stop =>
      cases l with
      | stopping | drained => exact h.stopRequested.trans hk
      | freed => exact h.quiet hk
      | _ => exact hk

/-- How many parts are driving the loop. -/
def driving (g : Slots.Life → ℕ) : ℕ := g .busy + g .cleared

theorem driving_add (g g' : Slots.Life → ℕ) : driving (g + g') = driving g + driving g' := by
  simp only [driving, Pi.add_apply]
  omega

/-- Nothing but a second `start` is refused by the object of a worker. -/
theorem local_ok {o : Oracle} {op : Local} {r : Except Err op.Resp} (hop : op ≠ .begin)
    (h : s.local? env w o op = some (r, s')) : r.isOk = true := by
  cases op with
  | begin => exact absurd rfl hop
  | loopTop =>
      simp only [World.local?] at h
      split at h
      · cases h
        rfl
      · split at h <;> (cases h; rfl)
  | timerFires | race _ | awaitLoop =>
      simp only [World.local?] at h
      split at h
      · cases h
        rfl
      · cases h
  | drain snapshot deadline =>
      simp only [World.local?] at h
      split at h
      all_goals
        split at h
        · cases h
          rfl
        · cases h
  | _ =>
      cases h
      rfl

/-- The step of a part is one of the machine of its rounds. -/
theorem part_exec {t : Part} {l : Slots.Phase} {c : Cmd} {answers : Answers} {r : Except Err c.Resp}
    (hl : l ≠ .broken) (hpermits : Slots.permits w t l c)
    (hexec : exec env s (.part t) c answers = some (r, s')) :
    answerable c r = true ∧ Slots.exec env s t c answers = some (r, s') := by
  by_cases hc : ∃ w' op, c = .onWorker w' op
  · obtain ⟨w', op, rfl⟩ := hc
    have hslots : Slots.exec env s t (.onWorker w' op) answers = some (r, s') := by
      cases op with
      | drain snapshot deadline =>
          cases t <;> cases l <;>
            first | exact absurd rfl hl | exact hpermits.2.elim | cases hpermits.2.2
      | _ => exact hexec
    have hop : op ≠ .begin := by
      rintro rfl
      cases t <;> cases l <;>
        first | exact absurd rfl hl | exact hpermits.2.elim | cases hpermits.2.2
    have hlocal : s.local? env w' .plain op = some (r, s') := hslots
    have hok := local_ok hop hlocal
    refine ⟨?_, hslots⟩
    cases r with
    | ok a => rfl
    | error e => cases hok
  · have hout : ∀ w' op, c ≠ .onWorker w' op := fun w' op hop => hc ⟨w', op, hop⟩
    have hif : (if answerable c (answers c) = true then some (answers c, s) else none) =
        some (r, s') := by
      cases c <;> first | exact hexec | exact absurd rfl (hout _ _)
    split at hif
    · rename_i hans
      cases hif
      refine ⟨hans, ?_⟩
      cases c <;> first | rfl | exact absurd rfl (hout _ _)
    · cases hif

theorem quiet_setWorker (s : World) (w : WorkerId) (obj : WorkerObj)
    (hlaunch : obj.launched = (s.workers w).launched) (hexit : obj.exited = (s.workers w).exited) :
    quiet ((s.setWorker w obj).workers w) ↔ quiet (s.workers w) := by
  have hobj : (s.setWorker w obj).workers w = obj := by simp [World.setWorker]
  rw [hobj, quiet, quiet, hlaunch, hexit]

/-- A part keeps the object of the worker, and the loop is driven until it exits. -/
theorem part_object {t : Part} {l : Slots.Phase} {c : Cmd} {answers : Answers}
    {r : Except Err c.Resp} {F : Slots.Life → ℕ} (ht : t ≠ .available) (hl : l ≠ .broken)
    (hpermits : Slots.permits w t l c) (hans : answerable c r = true)
    (hexec : Slots.exec env s t c answers = some (r, s'))
    (hloop : driving (holding (Slots.life t l) + F) = if quiet (s.workers w) then 0 else 1) :
    Keeps w s s' ∧
      driving (holding (Slots.life t ((Slots.rounds env w).next t l c r)) +
        ((Slots.slots env w).starts (Slots.forks t c r) + F)) =
          if quiet (s'.workers w) then 0 else 1 := by
  have hnil : (Slots.slots env w).starts [] + F = F := zero_add F
  cases t with
  | available => exact absurd rfl ht
  | call n j =>
      have hnone : ∀ l, driving (holding (Slots.life (.call n j) l)) = 0 := by
        intro l
        cases l <;> rfl
      rw [driving_add, hnone, zero_add] at hloop
      rw [driving_add, hnone, zero_add]
      by_cases hc : ∃ w' op, c = .onWorker w' op
      · obtain ⟨w', op, rfl⟩ := hc
        obtain ⟨-, rfl, rfl⟩ : l = .running ∧ w' = w ∧ op = .settle n := by
          cases l <;> first | exact absurd rfl hl | exact hpermits
        cases hexec
        rw [show Slots.forks _ _ _ = [] from rfl, hnil, hloop]
        have hquiet := quiet_setWorker s w' { s.workers w' with
          activeJobs := (s.workers w').activeJobs.erase n } rfl rfl
        refine ⟨⟨?_, ?_, hquiet.mpr⟩, if_congr hquiet.symm rfl rfl⟩
        · simp [World.setWorker]
        · simp [World.setWorker]
      · have hout : ∀ w' op, c ≠ .onWorker w' op := fun w' op hop => hc ⟨w', op, hop⟩
        have hsame : s' = s := by
          cases c <;> first | exact absurd rfl (hout _ _) | (cases hexec; rfl)
        have hforks : Slots.forks (.call n j) c r = [] := by
          cases c <;> first | exact absurd rfl (hout _ _) | rfl
        rw [hforks, hnil, hloop, hsame]
        exact ⟨⟨rfl, rfl, id⟩, rfl⟩
  | loop =>
      -- the driver goes on in the same object
      have stays : ∀ l', driving (holding (Slots.life .loop l)) = 1 →
          driving (holding (Slots.life .loop l')) = 1 →
          driving (holding (Slots.life .loop l') + ((Slots.slots env w).starts [] + F)) =
            if quiet (s.workers w) then 0 else 1 := by
        intro l' hbefore hafter
        rw [hnil, driving_add, hafter, ← hloop, driving_add, hbefore]
      by_cases hc : ∃ w' op, c = .onWorker w' op
      · obtain ⟨w', op, rfl⟩ := hc
        obtain ⟨rfl, hfits⟩ : w' = w ∧ Slots.fits .loop l op := by
          cases l <;> first | exact absurd rfl hl | exact hpermits
        cases op with
        | loopTop =>
            obtain rfl : l = .looking := by
              cases l <;> first | rfl | exact hfits.elim
            have hsame : s' = s := by
              simp only [Slots.exec, World.local?] at hexec
              split at hexec
              · cases hexec
                rfl
              · split at hexec <;> (cases hexec; rfl)
            subst hsame
            refine ⟨⟨rfl, rfl, id⟩, stays _ rfl ?_⟩
            simp only [Slots.exec, World.local?] at hexec
            split at hexec
            · cases hexec
              rfl
            · split at hexec <;> (cases hexec; rfl)
        | race snapshot =>
            obtain rfl : l = .full := by
              cases l <;> first | rfl | exact hfits.elim
            simp only [Slots.exec, World.local?] at hexec
            split at hexec
            · cases hexec
              exact ⟨⟨rfl, rfl, id⟩, stays _ rfl rfl⟩
            · cases hexec
        | loopAgain =>
            cases hexec
            refine ⟨⟨rfl, rfl, id⟩, ?_⟩
            have hbefore : driving (holding (Slots.life .loop l)) = 1 := by
              cases l <;> first | rfl | exact hfits.elim
            have hdone : (Slots.rounds env w').next .loop l (.onWorker w' .loopAgain) (.ok ()) =
                .done := by
              cases l <;> first | rfl | exact hfits.elim
            rw [driving_add, hbefore] at hloop
            rw [hdone, show Slots.forks _ _ _ = [Part.loop] from rfl, Slots.starts_one,
              driving_add, driving_add, ← hloop]
            show 0 + (1 + driving F) = 1 + driving F
            omega
        | loopExit =>
            obtain rfl : l = .leaving := by
              cases l <;> first | rfl | exact hfits.elim
            cases hexec
            have hquiet : quiet ((s.setWorker w' { s.workers w' with exited := true }).workers
                w') := by
              simp [World.setWorker, quiet]
            refine ⟨⟨?_, ?_, fun _ => hquiet⟩, ?_⟩
            · simp [World.setWorker]
            · simp [World.setWorker]
            · rw [driving_add, show driving (holding (Slots.life .loop .leaving)) = 1 from rfl]
                at hloop
              rw [show Slots.forks _ _ _ = [] from rfl, hnil, driving_add, if_pos hquiet]
              show 0 + driving F = 0
              split at hloop <;> omega
        | nextPull =>
            obtain rfl : l = .cleared := by
              cases l <;> first | rfl | exact hfits.elim
            cases hexec
            have hquiet := quiet_setWorker s w' { s.workers w' with
              pullIndex := (s.workers w').pullIndex + 1 } rfl rfl
            refine ⟨⟨?_, ?_, hquiet.mpr⟩, ?_⟩
            · simp [World.setWorker]
            · simp [World.setWorker]
            · exact (stays .cleared rfl rfl).trans (if_congr hquiet.symm rfl rfl)
        | dispatch j =>
            obtain rfl : l = .cleared := by
              cases l <;> first | rfl | exact hfits.elim
            cases hexec
            have hquiet := quiet_setWorker s w' { s.workers w' with
              calls := (s.workers w').calls + 1
              activeJobs := insert (s.workers w').calls (s.workers w').activeJobs } rfl rfl
            refine ⟨⟨?_, ?_, hquiet.mpr⟩, ?_⟩
            · simp [World.setWorker]
            · simp [World.setWorker]
            · refine Eq.trans ?_ (if_congr hquiet.symm rfl rfl)
              rw [driving_add, show driving (holding (Slots.life .loop .cleared)) = 1 from rfl]
                at hloop
              rw [show Slots.forks _ _ _ = [Part.call (s.workers w').calls j] from rfl,
                Slots.starts_one, driving_add, driving_add, ← hloop]
              show 1 + (0 + driving F) = 1 + driving F
              omega
        | _ => cases l <;> exact hfits.elim
      · have hout : ∀ w' op, c ≠ .onWorker w' op := fun w' op hop => hc ⟨w', op, hop⟩
        obtain rfl : l = .cleared := by
          cases l <;> first | exact absurd rfl hl | (cases c <;>
            first | exact hpermits | exact hpermits.elim | exact absurd rfl (hout _ _))
        have hsame : s' = s := by
          cases c <;> first | exact absurd rfl (hout _ _) | (cases hexec; rfl)
        have hforks : Slots.forks .loop c r = [] := by
          cases c <;> first | exact absurd rfl (hout _ _) | rfl
        have hnext : (Slots.rounds env w).next .loop .cleared c r = .cleared := by
          cases c <;> cases r <;> first | exact absurd rfl (hout _ _) | rfl | cases hans
        rw [hforks, hsame, hnext]
        exact ⟨⟨rfl, rfl, id⟩, stays .cleared rfl rfl⟩

/-- What newly started parts count for. -/
theorem starts_part (env : Env) (w : WorkerId) (ts : List Part) :
    (fun y => (standstill env w).starts (ts.map .part) (.part y)) =
        (Slots.slots env w).starts ts ∧
      (standstill env w).starts (ts.map .part) .starting = 0 ∧
      (standstill env w).starts (ts.map .part) .stopping = 0 := by
  induction ts with
  | nil => exact ⟨rfl, rfl, rfl⟩
  | cons t ts ih =>
      have hcons : (standstill env w).starts ((t :: ts).map .part) =
          holding ((Slots.life t ((Slots.rounds env w).start t)).map .part) +
            (standstill env w).starts (ts.map .part) := by
        simp [Discipline.starts, standstill, stages, life]
      have htail : (Slots.slots env w).starts (t :: ts) =
          holding (Slots.life t ((Slots.rounds env w).start t)) +
            (Slots.slots env w).starts ts := by
        simp [Discipline.starts, Slots.slots]
      rw [hcons, htail]
      refine ⟨?_, ?_, ?_⟩
      · rw [holding_part, ih.1]
      · rw [Pi.add_apply, ih.2.1]
        cases Slots.life t _ <;> rfl
      · rw [Pi.add_apply, ih.2.2]
        cases Slots.life t _ <;> rfl

/-- A part moves on. -/
theorem Alive.part {x y : Option Slots.Life} {ts : List Part}
    (h : Alive env w s (holding (x.map Life.part) + F)) (hkeep : Keeps w s s')
    (hcounted : Counted env w s' (holding y + ((Slots.slots env w).starts ts +
      fun z => F (.part z))))
    (hloop : driving (holding y + ((Slots.slots env w).starts ts + fun z => F (.part z))) =
      if quiet (s'.workers w) then 0 else 1) :
    Alive env w s' (holding (y.map Life.part) + ((standstill env w).starts (ts.map .part) + F)) := by
  obtain ⟨hparts, hstarting, hstopping⟩ := starts_part env w ts
  have hfun : (fun z => (holding (y.map Life.part) +
      ((standstill env w).starts (ts.map .part) + F)) (.part z)) =
        holding y + ((Slots.slots env w).starts ts + fun z => F (.part z)) := by
    rw [holding_part, ← hparts]
    rfl
  have hrest : ∀ z, (z = .starting ∨ z = .stopping) → (holding (y.map Life.part) +
      ((standstill env w).starts (ts.map .part) + F)) z = (holding (x.map Life.part) + F) z := by
    rintro z (rfl | rfl)
    · rw [Pi.add_apply, Pi.add_apply, hstarting, Pi.add_apply, zero_add]
      cases x <;> cases y <;> simp [holding]
    · rw [Pi.add_apply, Pi.add_apply, hstopping, Pi.add_apply, zero_add]
      cases x <;> cases y <;> simp [holding]
  constructor
  · rw [hfun]
    exact hcounted
  · rw [← hloop, ← hfun]
    rfl
  · rw [hrest _ (Or.inl rfl)]
    exact h.starting
  · rw [hrest _ (Or.inl rfl), hrest _ (Or.inr rfl)]
    exact h.apart
  · rw [hkeep.running]
    exact fun hrun => hkeep.quiet (h.rest hrun)

/-- `start` or `stop` moves on, or is over. -/
theorem Alive.goes {x y : Option Life} (h : Alive env w s (holding x + F))
    (hx : ∀ z, x ≠ some (.part z)) (hy : y = x ∨ y = none)
    (hjobs : (s'.workers w).activeJobs = (s.workers w).activeJobs)
    (hcalls : (s'.workers w).calls = (s.workers w).calls)
    (hquiet : quiet (s'.workers w) ↔ quiet (s.workers w))
    (hrest : (s'.workers w).running = false → quiet (s'.workers w)) :
    Alive env w s' (holding y + F) := by
  have hle : ∀ z, (holding y + F) z ≤ (holding x + F) z := by
    intro z
    rcases hy with rfl | rfl
    · exact le_rfl
    · simp
  have hfun : (fun z => (holding y + F) (.part z)) = fun z => (holding x + F) (.part z) := by
    funext z
    rcases hy with rfl | rfl
    · rfl
    · simp [holding, hx z]
  obtain ⟨hone, hfit, hrun, hnum⟩ := h.counted
  constructor
  · rw [hfun]
    constructor
    · exact hone
    · rwa [hjobs]
    · rwa [hjobs]
    · rwa [hjobs, hcalls]
  · have hloop := h.loop
    rw [if_congr hquiet rfl rfl, ← hloop, congrFun hfun .busy, congrFun hfun .cleared]
  · exact (hle _).trans h.starting
  · intro hpos
    exact Nat.le_zero.mp ((hle _).trans (h.apart (hpos.trans_le (hle _))).le)
  · exact hrest

/-- `start` launches the loop. -/
theorem Alive.launch (h : Alive env w s (holding (some .starting) + F))
    (hq : quiet (s.workers w)) (hrun : (s.workers w).running = true)
    (hs : s' = s.setWorker w { s.workers w with launched := true, exited := false }) :
    Alive env w s' (holding none + (holding (some (.part .busy)) + F)) := by
  subst hs
  have hobj : (s.setWorker w { s.workers w with launched := true, exited := false }).workers w =
      { s.workers w with launched := true, exited := false } := by simp [World.setWorker]
  obtain ⟨hone, hfit, hcalls, hnum⟩ := h.counted
  have hloop := h.loop
  rw [if_pos hq] at hloop
  have hapart := h.apart
  simp only [Pi.add_apply, holding_some] at hone hfit hcalls hloop hapart
  rw [holding_none_add]
  constructor
  · constructor
    · simp only [Pi.add_apply, holding_some]
      simp at hloop ⊢
      omega
    · rw [hobj]
      simpa [holding] using hfit
    · rw [hobj]
      simpa [holding] using hcalls
    · rw [hobj]
      exact hnum
  · rw [hobj, if_neg (by simp [quiet])]
    simp only [Pi.add_apply, holding_some]
    simp at hloop ⊢
    omega
  · have hstarting := h.starting
    simp only [Pi.add_apply, holding_some] at hstarting ⊢
    simp at hstarting ⊢
    omega
  · simp only [Pi.add_apply, holding_some]
    simp at hapart ⊢
    omega
  · rw [hobj]
    intro hfalse
    rw [hrun] at hfalse
    cases hfalse

/-- What a step of a role leaves. -/
structure Goes (env : Env) (w : WorkerId) (t : Role) (l' : Stage) (ts : List Role)
    (s s' : World) (F : Life → ℕ) : Prop where
  alive : Alive env w s' (holding (life t l') + ((standstill env w).starts ts + F))
  knows : knows w t l' s'
  others : ∀ t₂ l₂ F₂, F = holding (life t₂ l₂) + F₂ → Standstill.knows w t₂ l₂ s →
    Standstill.knows w t₂ l₂ s'

theorem part_goes {t : Part} {l : Slots.Phase} {c : Cmd} {answers : Answers}
    {r : Except Err c.Resp} (ht : t ≠ .available)
    (h : Alive env w s (holding (life (.part t) (.part l)) + F))
    (hknows : Slots.knows w t l s) (hpermits : Slots.permits w t l c)
    (hexec : exec env s (.part t) c answers = some (r, s')) :
    Goes env w (.part t) (.part ((Slots.rounds env w).next t l c r)) (forks (.part t) c r)
      s s' F := by
  have hl : l ≠ .broken := by
    rintro rfl
    cases t <;> exact hknows
  obtain ⟨hans, hslots⟩ := part_exec hl hpermits hexec
  have hcounted : Counted env w s (holding (Slots.life t l) + fun y => F (.part y)) := by
    rw [← holding_part]
    exact h.counted
  have hloop : driving (holding (Slots.life t l) + fun y => F (.part y)) =
      if quiet (s.workers w) then 0 else 1 := by
    rw [← holding_part]
    exact h.loop
  have hfires : (Slots.slots env w).Fires s t l c answers r s' fun y => F (.part y) :=
    ⟨trivial, hcounted, hknows, hpermits, trivial, hslots⟩
  have hmoves := Slots.fires_moves hfires
  obtain ⟨hkeep, hloop'⟩ := part_object ht hl hpermits hans hslots hloop
  exact ⟨h.part hkeep hmoves.counted hloop', hmoves.knows,
    fun _ _ _ _ hk => knows_keeps hkeep hmoves.advances hk⟩

/-- Nothing that a `start` or a `stop` in progress knows concerns other roles. -/
theorem knows_other (hstart : life t l ≠ some .starting) (hstop : life t l ≠ some .stopping)
    (hadv : Slots.Advances w s s') (hk : knows w t l s) : knows w t l s' := by
  cases t with
  | part t =>
      cases l with
      | part l => exact Slots.knows_advances hadv hk
      | _ => exact hk
  | start => cases l <;> first | exact hk | exact absurd rfl hstart
  | stop => cases l <;> first | exact hk | exact absurd rfl hstop

/-- While a worker is being started, nothing else of it is being started or stopped. -/
theorem Alive.alone {t₂ : Role} {l₂ : Stage} {F₂ : Life → ℕ}
    (h : Alive env w s (holding (some .starting) + F)) (hF : F = holding (life t₂ l₂) + F₂) :
    life t₂ l₂ ≠ some .starting ∧ life t₂ l₂ ≠ some .stopping := by
  have hone := h.starting
  have hapart := h.apart
  subst hF
  constructor
  · intro hlife
    rw [hlife] at hone
    simp at hone
  · intro hlife
    rw [hlife] at hapart
    simp at hapart

/-- A command of `start` or `stop` that leaves the process. -/
theorem foreign_goes {c : Cmd} {answers : Answers} {r : Except Err c.Resp}
    (ht : t = .start ∨ t = .stop) (hl : l ≠ .broken)
    (h : Alive env w s (holding (life t l) + F)) (hknows : knows w t l s)
    (hout : ∀ w' op, c ≠ .onWorker w' op)
    (hexec : exec env s t c answers = some (r, s')) :
    Goes env w t ((stages env w).next t l c r) (forks t c r) s s' F := by
  have hsame : s' = s := by
    have hif : (if answerable c (answers c) = true then some (answers c, s) else none) =
        some (r, s') := by
      cases c <;> first | exact hexec | exact absurd rfl (hout _ _)
    split at hif
    · cases hif
      rfl
    · cases hif
  have hforks : forks t c r = [] := by
    rcases ht with rfl | rfl
    · cases c <;> first | rfl | exact absurd rfl (hout _ _)
    · cases c <;> rfl
  have hnext : (stages env w).next t l c r = l ∨ (stages env w).next t l c r = .failed := by
    rcases ht with rfl | rfl
    · cases l <;> first | exact absurd rfl hl | (cases c <;> cases r <;>
        first | exact Or.inl rfl | exact Or.inr rfl | exact absurd rfl (hout _ _))
    · cases l <;> first | exact absurd rfl hl | (cases c <;> cases r <;>
        first | exact Or.inl rfl | exact Or.inr rfl | exact absurd rfl (hout _ _))
  have hnil : (standstill env w).starts [] + F = F := zero_add F
  subst hsame
  rw [hforks]
  refine ⟨?_, ?_, fun _ _ _ _ hk => hk⟩
  · rw [hnil]
    rcases hnext with hnext | hnext
    · rw [hnext]
      exact h
    · rw [hnext, show life t .failed = none by rcases ht with rfl | rfl <;> rfl]
      refine h.goes ?_ (Or.inr rfl) rfl rfl Iff.rfl h.rest
      intro z hz
      rcases ht with rfl | rfl <;> cases l <;> cases hz
  · rcases hnext with hnext | hnext
    · rw [hnext]
      exact hknows
    · rw [hnext]
      rcases ht with rfl | rfl <;> trivial

/-- A command of `start` on the object of the worker. -/
theorem start_goes {op : Local} {answers : Answers} {r : Except Err op.Resp}
    (h : Alive env w s (holding (life .start l) + F)) (hknows : knows w .start l s)
    (hfits : fits .start l op)
    (hexec : exec env s .start (.onWorker w op) answers = some (r, s')) :
    Goes env w .start ((stages env w).next .start l (.onWorker w op) r)
      (forks .start (.onWorker w op) r) s s' F := by
  have hnil : (standstill env w).starts [] + F = F := zero_add F
  cases op with
  -- a `start` of a running worker throws and changes nothing
  | begin =>
      obtain rfl : l = .fresh := by
        cases l <;> first | rfl | exact hfits.elim
      change (if _ then _ else _) = _ at hexec
      split at hexec
      · cases hexec
        refine ⟨?_, trivial, fun _ _ _ _ hk => hk⟩
        rw [show forks _ _ _ = [] from rfl, hnil]
        exact h.goes (by simp [life]) (Or.inr rfl) rfl rfl Iff.rfl h.rest
      · rename_i hrun
        cases hexec
        have hobj : (s.setWorker w { s.workers w with
            running := true, stopRequested := false }).workers w = { s.workers w with
              running := true, stopRequested := false } := by simp [World.setWorker]
        have hquiet : quiet (s.workers w) := h.rest (by simpa using hrun)
        refine ⟨?_, ⟨?_, ?_⟩, ?_⟩
        · rw [show forks _ _ _ = [] from rfl, hnil]
          refine h.goes (by simp [life]) (Or.inl rfl) ?_ ?_ ?_ ?_
          · rw [hobj]
          · rw [hobj]
          · rw [hobj]
            exact Iff.rfl
          · rw [hobj]
            exact fun hfalse => by cases hfalse
        · rw [hobj]
        · rw [hobj]
          exact hquiet
        · intro t₂ l₂ F₂ hF hk
          obtain ⟨hstart, hstop⟩ := h.alone hF
          refine knows_other hstart hstop (Slots.Advances.same ?_ ?_) hk
          · rw [hobj]
          · rw [hobj]
  -- the interval does not concern the loop or the calls
  | armTimer =>
      obtain rfl : l = .begun := by
        cases l <;> first | rfl | exact hfits.elim
      cases hexec
      have hobj : (s.setWorker w { s.workers w with timer := true }).workers w =
          { s.workers w with timer := true } := by simp [World.setWorker]
      refine ⟨?_, ?_, ?_⟩
      · rw [show forks _ _ _ = [] from rfl, hnil]
        refine h.goes (by simp [life]) (Or.inl rfl) ?_ ?_ ?_ ?_
        · rw [hobj]
        · rw [hobj]
        · rw [hobj]
          exact Iff.rfl
        · rw [hobj]
          exact h.rest
      · change ((s.setWorker w _).workers w).running = true ∧ quiet ((s.setWorker w _).workers w)
        rw [hobj]
        exact hknows
      · intro t₂ l₂ F₂ hF hk
        refine knows_keeps ⟨?_, ?_, ?_⟩ (Slots.Advances.same ?_ ?_) hk
        · rw [hobj]
        · rw [hobj]
        · rw [hobj]
          exact id
        · rw [hobj]
        · rw [hobj]
  -- the loop that starts here is the only one: the object has been quiet until now
  | launch =>
      obtain rfl : l = .begun := by
        cases l <;> first | rfl | exact hfits.elim
      cases hexec
      have hobj : (s.setWorker w { s.workers w with launched := true, exited := false }).workers
          w = { s.workers w with launched := true, exited := false } := by simp [World.setWorker]
      refine ⟨?_, trivial, ?_⟩
      · have hstarts : (standstill env w).starts [.part .loop] = holding (some (.part .busy)) := by
          rw [Discipline.starts, List.map_singleton, List.sum_singleton]
          rfl
        rw [show forks _ _ _ = [.part .loop] from rfl, hstarts]
        exact h.launch hknows.2 hknows.1 rfl
      · intro t₂ l₂ F₂ hF hk
        obtain ⟨hstart, hstop⟩ := h.alone hF
        refine knows_other hstart hstop (Slots.Advances.same ?_ ?_) hk
        · rw [hobj]
        · rw [hobj]
  | _ => cases l <;> exact hfits.elim

/-- While a worker is being stopped, it is not being started. -/
theorem Alive.unstarted {t₂ : Role} {l₂ : Stage} {F₂ : Life → ℕ}
    (h : Alive env w s (holding (some .stopping) + F)) (hF : F = holding (life t₂ l₂) + F₂) :
    life t₂ l₂ ≠ some .starting := by
  have hapart := h.apart
  subst hF
  intro hlife
  rw [hlife] at hapart
  simp at hapart

/-- `stop` changes what only `start` is concerned with. -/
theorem knows_stopping (hstart : life t l ≠ some .starting) (hadv : Slots.Advances w s s')
    (hstop : (s.workers w).stopRequested = true → (s'.workers w).stopRequested = true)
    (hquiet : quiet (s.workers w) → quiet (s'.workers w)) (hk : knows w t l s) :
    knows w t l s' := by
  cases t with
  | part t =>
      cases l with
      | part l => exact Slots.knows_advances hadv hk
      | _ => exact hk
  | start => cases l <;> first | exact hk | exact absurd rfl hstart
  | stop =>
      cases l with
      | stopping | drained => exact hstop hk
      | freed => exact hquiet hk
      | _ => exact hk

/-- A command of `stop` that leaves the object of the worker as it is. -/
theorem stop_stays {l' : Stage} (h : Alive env w s (holding (some .stopping) + F))
    (hlife : life .stop l' = some .stopping) (hknows : knows w .stop l' s) :
    Goes env w .stop l' [] s s F := by
  have hnil : (standstill env w).starts [] + F = F := zero_add F
  refine ⟨?_, hknows, fun _ _ _ _ hk => hk⟩
  rw [hlife, hnil]
  exact h

/-- A command of `stop` that changes the object of the worker. -/
theorem stop_sets {l' : Stage} {obj : WorkerObj}
    (h : Alive env w s (holding (some .stopping) + F))
    (hlife : life .stop l' = some .stopping ∨ life .stop l' = none)
    (hjobs : obj.activeJobs = (s.workers w).activeJobs)
    (hcalls : obj.calls = (s.workers w).calls) (hlaunch : obj.launched = (s.workers w).launched)
    (hexit : obj.exited = (s.workers w).exited)
    (hstop : (s.workers w).stopRequested = true → obj.stopRequested = true)
    (hrest : obj.running = false → quiet (s.workers w))
    (hknows : knows w .stop l' (s.setWorker w obj)) :
    Goes env w .stop l' [] s (s.setWorker w obj) F := by
  have hnil : (standstill env w).starts [] + F = F := zero_add F
  have hobj : (s.setWorker w obj).workers w = obj := by simp [World.setWorker]
  have hquiet := quiet_setWorker s w obj hlaunch hexit
  refine ⟨?_, hknows, ?_⟩
  · rw [hnil]
    refine h.goes (by simp) hlife ?_ ?_ hquiet ?_
    · rw [hobj, hjobs]
    · rw [hobj, hcalls]
    · intro hrun
      rw [hobj] at hrun
      exact hquiet.mpr (hrest hrun)
  · intro t₂ l₂ F₂ hF hk
    refine knows_stopping (h.unstarted hF) (Slots.Advances.same ?_ ?_) ?_ hquiet.mpr hk
    · rw [hobj, hjobs]
    · rw [hobj, hcalls]
    · rw [hobj]
      exact hstop

/-- A command of `stop` on the object of the worker. -/
theorem stop_goes {op : Local} {answers : Answers} {r : Except Err op.Resp}
    (h : Alive env w s (holding (life .stop l) + F)) (hknows : knows w .stop l s)
    (hfits : fits .stop l op)
    (hexec : exec env s .stop (.onWorker w op) answers = some (r, s')) :
    Goes env w .stop ((stages env w).next .stop l (.onWorker w op) r)
      (forks .stop (.onWorker w op) r) s s' F := by
  cases op with
  | requestStop =>
      obtain rfl : l = .fresh := by
        cases l <;> first | rfl | exact hfits.elim
      cases hexec
      refine stop_sets h (Or.inl rfl) rfl rfl rfl rfl (fun _ => rfl) h.rest ?_
      show ((s.setWorker w _).workers w).stopRequested = true
      simp [World.setWorker]
  | snapshot =>
      obtain rfl : l = .stopping := by
        cases l <;> first | rfl | exact hfits.elim
      cases hexec
      exact stop_stays h rfl hknows
  -- whether the calls have settled or the 30 s are over, the object is as before
  | drain snapshot deadline =>
      obtain rfl : l = .stopping := by
        cases l <;> first | rfl | exact hfits.elim
      simp only [exec, World.local?] at hexec
      have hsame : s' = s ∧ ∃ b, r = .ok b := by
        split at hexec
        · split at hexec
          · cases hexec
            exact ⟨rfl, _, rfl⟩
          · cases hexec
        · split at hexec
          · cases hexec
            exact ⟨rfl, _, rfl⟩
          · cases hexec
      obtain ⟨rfl, b, rfl⟩ := hsame
      exact stop_stays h rfl hknows
  -- there is an answer only when the loop has exited
  | awaitLoop =>
      have hl : l = .stopping ∨ l = .drained := by
        cases l <;> first | exact Or.inl rfl | exact Or.inr rfl | exact hfits.elim
      change (if quiet (s.workers w) then _ else _) = _ at hexec
      split at hexec
      · rename_i hquiet
        cases hexec
        have hlife : life .stop l = some .stopping := by
          rcases hl with rfl | rfl <;> rfl
        rw [hlife] at h
        rcases hl with rfl | rfl
        · exact stop_stays h rfl hquiet
        · exact stop_stays h rfl hquiet
      · cases hexec
  | clearTimer =>
      obtain rfl : l = .freed := by
        cases l <;> first | rfl | exact hfits.elim
      cases hexec
      refine stop_sets h (Or.inl rfl) rfl rfl rfl rfl id h.rest ?_
      exact (quiet_setWorker s w { s.workers w with timer := false } rfl rfl).mpr hknows
  | finish =>
      obtain rfl : l = .freed := by
        cases l <;> first | rfl | exact hfits.elim
      cases hexec
      exact stop_sets h (Or.inr rfl) rfl rfl rfl rfl id (fun _ => hknows) trivial
  | _ => cases l <;> exact hfits.elim

/-- **Step lemma.** -/
theorem fires_goes {c : Cmd} {answers : Answers} {r : Except Err c.Resp}
    (h : (standstill env w).Fires s t l c answers r s' F) :
    Goes env w t ((stages env w).next t l c r) (forks t c r) s s' F := by
  obtain ⟨hgood, hinv, hloc, hpermits, -, hexec⟩ := h
  change permits w t l c at hpermits
  -- a command of `start` or `stop` is one on the object that fits its stage, or none on it
  have hcmd : (∃ op, c = .onWorker w op ∧ fits t l op) ∨ (∀ w' op, c ≠ .onWorker w' op) ∨
      ∃ t', t = .part t' := by
    cases t with
    | part t => exact Or.inr (Or.inr ⟨t, rfl⟩)
    | _ =>
        by_cases hc : ∃ w' op, c = .onWorker w' op
        · obtain ⟨w', op, rfl⟩ := hc
          cases l <;> first
            | exact hloc.elim
            | exact Or.inl ⟨op, by rw [hpermits.1], hpermits.2⟩
        · exact Or.inr (Or.inl fun w' op hop => hc ⟨w', op, hop⟩)
  cases t with
  | part t =>
      cases l with
      | part l => exact part_goes (fun ht => hgood (by rw [ht])) hinv hloc hpermits hexec
      | _ => exact hpermits.elim
  | start =>
      have hl : l ≠ .broken := by
        rintro rfl
        exact hloc
      rcases hcmd with ⟨op, rfl, hfits⟩ | hout | ⟨t', ht⟩
      · exact start_goes hinv hloc hfits hexec
      · exact foreign_goes (Or.inl rfl) hl hinv hloc hout hexec
      · cases ht
  | stop =>
      have hl : l ≠ .broken := by
        rintro rfl
        exact hloc
      rcases hcmd with ⟨op, rfl, hfits⟩ | hout | ⟨t', ht⟩
      · exact stop_goes hinv hloc hfits hexec
      · exact foreign_goes (Or.inr rfl) hl hinv hloc hout hexec
      · cases ht

end Step

/-! ## Every run -/

section Run

variable {env : Env} {w : WorkerId} {c c' : Running} {i : ℕ}

/-- A process that has returned or thrown has ended as its role does. -/
theorem ended_of_over {p : Process} {s : World} (hp : (standstill env w).ProcOk s p)
    (hover : Over p = true) :
    ∃ r, Ended p.task r ((stages env w).phase p.task p.hist) := by
  obtain ⟨-, -, hfollows⟩ := hp
  unfold Over at hover
  cases hprog : p.prog with
  | call cmd k =>
      rw [hprog] at hover
      cases hover
  | ret a =>
      rw [hprog] at hfollows
      exact ⟨_, hfollows⟩
  | raise e =>
      rw [hprog] at hfollows
      exact ⟨_, hfollows⟩

/-- A `start` or `stop` that has returned or thrown counts for nothing. -/
theorem life_of_over {p : Process} {s : World} (hp : (standstill env w).ProcOk s p)
    (ht : p.task = .start ∨ p.task = .stop) (hover : Over p = true) :
    life p.task ((stages env w).phase p.task p.hist) = none := by
  obtain ⟨r, hend⟩ := ended_of_over hp hover
  rcases ht with ht | ht
  all_goals
    rw [ht] at hend ⊢
    rcases hend with ⟨hend, -⟩ | hend | hend <;> rw [hend] <;> rfl

/-- Parts neither start nor stop the worker. -/
theorem life_part (t : Part) (l : Stage) :
    holding (life (.part t) l) .starting = 0 ∧ holding (life (.part t) l) .stopping = 0 := by
  cases l with
  | part l =>
      rw [show life (.part t) (.part l) = (Slots.life t l).map .part from rfl]
      cases Slots.life t l <;> exact ⟨rfl, rfl⟩
  | _ => exact ⟨rfl, rfl⟩

theorem total_starting (h : (standstill env w).PoolOk c)
    (hover : ∀ p ∈ c.pool, p.task = .start → Over p) :
    (standstill env w).total c.pool .starting = 0 := by
  refine Discipline.total_eq_zero _ (fun p hp => ?_) fun _ _ _ _ => rfl
  show holding (life p.task ((stages env w).phase p.task p.hist)) .starting = 0
  cases ht : p.task with
  | part t => exact (life_part t _).1
  | start =>
      have hnone := life_of_over (h.2 p hp) (Or.inl ht) (hover p hp ht)
      rw [ht] at hnone
      rw [hnone]
      rfl
  | stop => cases (stages env w).phase .stop p.hist <;> simp [life]

theorem total_stopping (h : (standstill env w).PoolOk c)
    (hover : ∀ p ∈ c.pool, p.task = .stop → Over p) :
    (standstill env w).total c.pool .stopping = 0 := by
  refine Discipline.total_eq_zero _ (fun p hp => ?_) fun _ _ _ _ => rfl
  show holding (life p.task ((stages env w).phase p.task p.hist)) .stopping = 0
  cases ht : p.task with
  | part t => exact (life_part t _).2
  | start => cases (stages env w).phase .start p.hist <;> simp [life]
  | stop =>
      have hnone := life_of_over (h.2 p hp) (Or.inr ht) (hover p hp ht)
      rw [ht] at hnone
      rw [hnone]
      rfl

/-- A role that is started: `start` or `stop`. -/
theorem Alive.add {s : World} {g : Life → ℕ} {x : Life} (h : Alive env w s g)
    (hx : x = .starting ∧ g .starting = 0 ∧ g .stopping = 0 ∨ x = .stopping ∧ g .starting = 0) :
    Alive env w s (holding (some x) + g) := by
  obtain ⟨hcounted, hloop, hstarting, hapart, hrest⟩ := h
  have hparts : ∀ y, (holding (some x) + g) (.part y) = g (.part y) := by
    intro y
    rcases hx with ⟨rfl, -⟩ | ⟨rfl, -⟩ <;> simp
  constructor
  · rw [funext hparts]
    exact hcounted
  · rw [hparts, hparts]
    exact hloop
  · rcases hx with ⟨rfl, hs, -⟩ | ⟨rfl, hs⟩ <;> simp [hs]
  · rcases hx with ⟨rfl, -, hs⟩ | ⟨rfl, hs⟩ <;> simp [hs]
  · exact hrest

theorem standstill_sound : (standstill env w).Sound Called where
  follows t _ := run_follows t
  call s t l cmd answers r s' F h := by
    have hgoes := fires_goes h
    refine ⟨?_, hgoes.knows, fun t' ht' => ?_⟩
    · show Alive env w s' (_ + (0 + (standstill env w).starts (forks t cmd r) + F))
      rw [zero_add]
      exact hgoes.alive
    · have hloop : ∀ t' : Role, (∃ n j, t' = .part (.call n j)) ∨ t' = .part .loop →
          (standstill env w).good t' ∧ knows w t' ((stages env w).start t') s' := by
        rintro _ (⟨n, j, rfl⟩ | rfl)
        · exact ⟨by simp [standstill], trivial⟩
        · exact ⟨by simp [standstill], trivial⟩
      refine hloop t' ?_
      cases t with
      -- a loop starts its calls and the next round
      | part t =>
          obtain ⟨t'', ht'', rfl⟩ := List.mem_map.mp ht'
          have hgood := h.good
          unfold Slots.forks at ht''
          split at ht''
          · cases List.mem_singleton.mp ht''
            cases t with
            | loop => exact Or.inr rfl
            | available => exact absurd rfl hgood
            | call n j => exact Or.inl ⟨n, j, rfl⟩
          · cases List.mem_singleton.mp ht''
            exact Or.inl ⟨_, _, rfl⟩
          · cases ht''
      | start =>
          change t' ∈ forks .start cmd r at ht'
          unfold forks at ht'
          split at ht'
          · rename_i heq
            cases heq
          · cases List.mem_singleton.mp ht'
            exact Or.inr rfl
          · cases ht'
      | stop =>
          change t' ∈ forks .stop cmd r at ht'
          unfold forks at ht'
          split at ht'
          · rename_i heq
            cases heq
          · rename_i heq
            cases heq
          · cases ht'
  stable s t l cmd answers r s' F h t₂ l₂ F₂ hF _ hk := (fires_goes h).others t₂ l₂ F₂ hF hk
  start c t h hpool := by
    cases t with
    | part t => exact h.elim
    | start =>
        refine ⟨by simp [standstill], ?_, trivial⟩
        -- no other `start` and no `stop` is in progress when this one begins
        refine hpool.1.add (Or.inl ⟨rfl, ?_, ?_⟩)
        · exact total_starting hpool fun p hp ht => h p hp (Or.inl ht)
        · exact total_stopping hpool fun p hp ht => h p hp (Or.inr ht)
    | stop =>
        refine ⟨by simp [standstill], ?_, trivial⟩
        exact hpool.1.add (Or.inr ⟨rfl, total_starting hpool h⟩)
  allows _ _ _ _ _ _ _ _ _ _ := trivial
  drift c ms s' _ hpool hdrift := by
    cases hdrift
    refine ⟨?_, fun t l _ hk => ?_⟩
    · obtain ⟨⟨hone, hfit, hrun, hnum⟩, hloop, hstarting, hapart, hrest⟩ := hpool.1
      exact ⟨⟨hone, hfit, hrun, hnum⟩, hloop, hstarting, hapart, hrest⟩
    · have hkeep : Keeps w c.store { c.store with clock := c.store.clock + ms } :=
        ⟨rfl, rfl, id⟩
      exact knows_keeps hkeep (Slots.Advances.same rfl rfl) hk

theorem standstill_reach (hc : (worker env w).Reach Called (New w) c) :
    (standstill env w).PoolOk c := by
  refine standstill_sound.reach (fun c₀ hnew => ?_) hc
  obtain ⟨hpool, hobj⟩ := hnew
  rw [Discipline.PoolOk, hpool]
  refine ⟨?_, fun p hp => by cases hp⟩
  show Alive env w c₀.store 0
  have hquiet : quiet (c₀.store.workers w) := by
    rw [hobj]
    exact fun hfalse => by cases hfalse
  constructor
  · constructor <;> simp [hobj]
  · rw [if_pos hquiet]
    rfl
  · exact Nat.zero_le _
  · exact fun _ => rfl
  · exact fun _ => hquiet

end Run

end Standstill

end NexusQueue
