/-
# The system

Any number of producers, workers, schedulers, janitors and operator requests over
one Redis and one Postgres, as a pool of programs: the program of every task, and the machine that
interleaves them command by command.
-/
import NexusQueue.Scheduler
import NexusQueue.Janitor
import NexusQueue.Worker
import NexusQueue.Routes

namespace NexusQueue

/-- The program of a task.  `enqueue` returns the id of its job. -/
def body (env : Env) : Task → Async (Option JobId)
  | .enqueue jobName payload options => do
      let id ← Producer.enqueue jobName payload options
      pure (some id)
  | .tick => do Scheduler.tick; pure none
  | .start w => do Worker.start env w; pure none
  | .loop w => do Worker.loop env w; pure none
  | .processOne w call jobId => do Worker.dispatched env w call jobId; pure none
  | .stop w => do Worker.stop w; pure none
  | .heartbeat w => do Worker.writeHeartbeat w; pure none
  | .janitor => do Janitor.tick; pure none
  | .addJob job => do CronManager.addJob job; pure none
  | .removeJob cronId => do CronManager.removeJob cronId; pure none
  | .retry id => do let _ ← Routes.retry id; pure none
  | .requeue name request => do let _ ← Routes.requeue name request; pure none

/-- The deployment as a machine. -/
def machine (env : Env) :
    Machine World Task Cmd Cmd.Resp Err (Option JobId) Oracle Move where
  body := body env
  exec := World.exec env
  forks := forks
  drift := World.drift

/-- A process of the deployment. -/
abbrev Process := Proc Task Cmd Cmd.Resp Err (Option JobId)

/-- A state of the deployment. -/
abbrev State := Config World Task Cmd Cmd.Resp Err (Option JobId)

/-- One thing that can happen in the deployment. -/
abbrev Action := Choice Task Oracle Move

/-- The command the `i`-th process executes next. -/
def nextCmd (c : State) (i : ℕ) : Option Cmd :=
  c.pool[i]?.bind fun p => match p.prog with
    | .call cmd _ => some cmd
    | _ => none

/-- The sorted-set entry a command removes. -/
def Cmd.removes : Cmd → Option (Key × String)
  | .zrem k m => some (k, m)
  | _ => none

/-- The `i`-th process is about to remove `m` from the sorted set `k`. -/
def AboutToRemove (c : State) (i : ℕ) (k : Key) (m : String) : Prop :=
  (nextCmd c i).bind Cmd.removes = some (k, m)

instance (c : State) (i : ℕ) (k : Key) (m : String) : Decidable (AboutToRemove c i k m) :=
  inferInstanceAs (Decidable (_ = _))

/-- Its next command is that `ZREM`. -/
theorem AboutToRemove.call {c : State} {i : ℕ} {k : Key} {m : String}
    (h : AboutToRemove c i k m) :
    ∃ p q, c.pool[i]? = some p ∧ p.prog = .call (.zrem k m) q := by
  obtain ⟨cmd, hcmd, hrem⟩ := Option.bind_eq_some_iff.mp h
  obtain ⟨p, hp, hprog⟩ := Option.bind_eq_some_iff.mp hcmd
  cases hp' : p.prog with
  | call cmd' q =>
      rw [hp'] at hprog
      cases hprog
      cases cmd <;> cases hrem
      exact ⟨p, q, hp, hp'⟩
  | _ =>
      rw [hp'] at hprog
      cases hprog

/-- A process that has returned or thrown. -/
def Ended (p : Process) : Prop := ∀ cmd k, p.prog ≠ .call cmd k

instance (p : Process) : Decidable (Ended p) :=
  match h : p.prog with
  | .ret _ | .raise _ => .isTrue fun cmd k hk => by
      rw [h] at hk
      cases hk
  | .call cmd k => .isFalse fun hend => hend cmd k h

/-- What a process has ended with. -/
def outcome (p : Process) : Option (Except Err (Option JobId)) :=
  match p.prog with
  | .ret r => some (.ok r)
  | .raise e => some (.error e)
  | .call _ _ => none

theorem outcome_ok {p : Process} {r : Option JobId} :
    outcome p = some (.ok r) ↔ p.prog = .ret r := by
  unfold outcome
  cases p.prog <;> simp

theorem outcome_error {p : Process} {e : Err} :
    outcome p = some (.error e) ↔ p.prog = .raise e := by
  unfold outcome
  cases p.prog <;> simp

/-- The tasks that are started from outside.  Loops and `processOne` calls are
started by the code of a worker. -/
def Task.external : Task → Prop
  | .loop _ | .processOne _ _ _ => False
  | _ => True

instance (t : Task) : Decidable t.external := by
  cases t <;> unfold Task.external <;> infer_instance

/-- The requests of an operator. -/
def Task.operator : Task → Prop
  | .retry _ | .requeue _ _ => True
  | _ => False

instance (t : Task) : Decidable t.operator := by
  cases t <;> unfold Task.operator <;> infer_instance

/-- Commands start pull loops and `processOne` calls. -/
theorem forks_cases {t t' : Task} {c : Cmd} {r : Except Err c.Resp} (h : t' ∈ forks t c r) :
    (∃ w, t' = .loop w) ∨ ∃ w n j, t' = .processOne w n j := by
  unfold forks at h
  split at h
  · exact Or.inl ⟨_, List.mem_singleton.mp h⟩
  · exact Or.inl ⟨_, List.mem_singleton.mp h⟩
  · exact Or.inr ⟨_, _, _, List.mem_singleton.mp h⟩
  · cases h

/-- The tasks a command starts are run by a worker. -/
theorem host_of_forks {t t' : Task} {c : Cmd} {r : Except Err c.Resp} (h : t' ∈ forks t c r) :
    ∃ w, t'.host = some w := by
  rcases forks_cases h with ⟨w, rfl⟩ | ⟨w, n, j, rfl⟩ <;> exact ⟨w, rfl⟩

/-- What a worker runs is no request of an operator. -/
theorem Task.not_operator_of_host {t : Task} {w : WorkerId} (h : t.host = some w) :
    ¬ t.operator := by
  cases t <;> first | exact id | cases h

/-- The heartbeat key of a worker exists. -/
def World.beats (s : World) (w : WorkerId) : Prop :=
  (s.redis.get s.clock (redisKeys.heartbeat w)).isSome

instance (s : World) (w : WorkerId) : Decidable (s.beats w) :=
  inferInstanceAs (Decidable (_ = true))

/-- The worker whose heartbeat a process is about to look for. -/
def Cmd.seeks : Cmd → Option WorkerId
  | .existsKey (.heartbeat w) => some w
  | _ => none

/-- Empty stores, no process. -/
def Blank (c : State) : Prop :=
  ∃ now room, c = { store := { clock := now, pg := .emptyWith room }, pool := [] }

/-- The empty deployment at time zero. -/
def blank : State := { store := {}, pool := [] }

theorem blank_blank : Blank blank := ⟨0, _, rfl⟩

/-- The store does not reject. -/
def Oracle.works : Oracle → Bool
  | .fault => false
  | _ => true

/-- The command is not rejected: the store does not fail, and a statement that looks for a job
spells a uuid. -/
def Oracle.takes (o : Oracle) (c : Cmd) : Bool := o.works && !c.unreadable

theorem Oracle.takes_of_works {o : Oracle} {c : Cmd} (ho : o.works = true)
    (hc : c.unreadable = false) : o.takes c = true := by
  rw [Oracle.takes, ho, hc]
  rfl

theorem Oracle.works_of_takes {o : Oracle} {c : Cmd} (h : o.takes c = true) : o.works = true :=
  (Bool.and_eq_true_iff.mp h).1

/-- Anything may happen: commands reject, processes halt, workers crash, time
passes. -/
def Anything (_ : State) : Action → Prop
  | .start t => t.external
  | _ => True

/-- No command is rejected, no process halts and no worker crashes. -/
def Reliable (_ : State) : Action → Prop
  | .start t => t.external
  | .call _ o => o.works
  | .halt _ => False
  | .drift (.pass _) => True
  | .drift (.crash _) => False

instance (c : State) : (a : Action) → Decidable (Reliable c a)
  | .start t => inferInstanceAs (Decidable t.external)
  | .call _ o => inferInstanceAs (Decidable (o.works = true))
  | .halt _ | .drift (.crash _) => .isFalse id
  | .drift (.pass _) => .isTrue trivial

/-- Nothing fails: no process halts or crashes, no command rejects, every janitor
that looks for a heartbeat finds it, and no operator intervenes. -/
def FaultFree (c : State) : Action → Prop
  | .start t => t.external ∧ ¬ t.operator
  | .call i o => o.works ∧ ∀ w ∈ (nextCmd c i).bind Cmd.seeks, c.store.beats w
  | .halt _ => False
  | .drift (.pass _) => True
  | .drift (.crash _) => False

instance (c : State) : (a : Action) → Decidable (FaultFree c a)
  | .start t => inferInstanceAs (Decidable (t.external ∧ ¬ t.operator))
  | .call i o => inferInstanceAs (Decidable
      (o.works = true ∧ ∀ w ∈ (nextCmd c i).bind Cmd.seeks, c.store.beats w))
  | .halt _ | .drift (.crash _) => .isFalse id
  | .drift (.pass _) => .isTrue trivial

instance (c : State) : (a : Action) → Decidable (Anything c a)
  | .start t => inferInstanceAs (Decidable t.external)
  | .call _ _ | .halt _ | .drift _ => .isTrue trivial

/-- A small deployment for examples: every worker serves the queue `default`, two
jobs at a time, and has a handler for every job. -/
def sample : Env where
  queue _ := "default"
  concurrency _ := 2
  rateLimits _ _ := none
  handlers _ _ := true
  cronNext _ now := some (now + 1000)

/-- Uuids for examples. -/
def j1 : Uuid := .ofByte 1

def j2 : Uuid := .ofByte 2

def j3 : Uuid := .ofByte 3

def j4 : Uuid := .ofByte 4

/-- A uuid with letters among its digits. -/
def lettered : Uuid := .ofByte 171

/-- The same uuid in capitals, which Postgres reads but does not print. -/
def capitals : JobId := "00000000-0000-0000-0000-0000000000AB"

example : Uuid.normal capitals = some lettered.text ∧ capitals ≠ lettered.text := by
  decide +kernel

/-- A call of `enqueue` with an idempotency key. -/
def keyed : Task := .enqueue "send" (some .null) { idempotencyKey := some "k" }

/-- The next `n` commands of the `i`-th process. -/
def goes (i n : ℕ) : List Action := List.replicate n (.call i .plain)

/-- The handler that the `i`-th process runs throws. -/
def throws (i : ℕ) : List Action := [.call i (.outcome (.error "boom"))]

/-- The handler that the `i`-th process runs returns. -/
def returns (i : ℕ) : List Action := [.call i (.outcome (.ok ()))]

end NexusQueue
