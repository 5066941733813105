/-
# What a call reports about its job

The order in which a `processOne` call reads and writes the two records of its job, and
what it writes: it counts the attempt in Postgres and then in Redis, runs the handler,
comes to a verdict, writes the verdict to the row and then to the hash, moves the job and
removes its entry.

* `fresh`, `read`: before and after the hash is read;
* `counted`, `begun`: the attempt is counted in Postgres, and in Redis;
* `succeeded`, `failed`: the handler has returned, or thrown;
* `judging`, `timed`: `handleFailure` has read the hash, and the clock;
* `closing`, `closed`, `moved`: the verdict is in the row, in the hash, and the job is in
  its next place;
* `done`: the entry is removed; `lost`: a store has rejected a command.

A scheduler `owes` the hash of a job it has pushed the status `pending`, and so does a
janitor, which owes it to the row as well.  What the other tasks write to the records does
not depend on what they have done before (`Task.tells`).
-/
import NexusQueue.Course

namespace NexusQueue

open Prog (Only forEach only_pure only_throw only_bind only_handle only_perform only_step
  only_forEach)

/-! ## Verdicts -/

/-- How a call ends: the job is completed, dead, or to be tried again.  What
`handleFailure` has read comes with it. -/
inductive Verdict where
  | completed
  | dead (hash : JobHash) (message : String)
  | again (hash : JobHash) (now : ℕ)

namespace Verdict

/-- The status both records are given. -/
def status : Verdict → JobStatus
  | completed => .completed
  | dead _ _ => .dlq
  | again _ _ => .delayed

/-- The error message the hash is given. -/
def message : Verdict → String
  | dead _ m => m
  | _ => ""

/-- What is written to the row. -/
def patch : Verdict → RowPatch
  | completed => { status := .completed, completedAt := .now, errorMessage := some none }
  | dead _ m => { status := .dlq, completedAt := .now, errorMessage := some (some m) }
  | again _ _ => { status := .delayed, startedAt := .null, completedAt := .null }

@[simp] theorem patch_status (v : Verdict) : v.patch.status = v.status := by
  cases v <;> rfl

@[simp] theorem patch_countAttempt (v : Verdict) : v.patch.countAttempt = false := by
  cases v <;> rfl

end Verdict

/-- What marks an attempt in the row. -/
def activePatch : RowPatch := { status := .active, startedAt := .now, countAttempt := true }

/-- What resets the row of a job that is pushed back. -/
def pendingPatch : RowPatch := { status := .pending, startedAt := .null, completedAt := .null }

/-! ## The protocol -/

/-- What a call has reported, or a scheduler or janitor has to. -/
inductive Report where
  | fresh
  | read (hash : JobHash)
  | counted (hash : JobHash)
  | begun (hash : JobHash)
  | succeeded
  | failed
  | judging (hash : JobHash)
  | timed (hash : JobHash) (now : ℕ)
  | closing (v : Verdict)
  | closed (v : Verdict)
  | moved (v : Verdict)
  | done (v : Option Verdict)
  | owes (jobId : JobId)
  | lost

namespace Report

/-- The verdicts a call may come to. -/
def finds : Report → Verdict → Prop
  | succeeded, .completed => True
  | judging h, .dead h' _ => h' = h ∧ h.exhausted = true
  | timed h now, .again h' now' => h' = h ∧ now' = now ∧ h.exhausted = false
  | _, _ => False

/-- A call may settle. -/
def settles : Report → Prop
  | done _ | lost => True
  | read h => truthy h.jobName = none
  | closed (.again h _) => h.tried = none
  | _ => False

/-- The commands of a call that concern the records and the entry of its job, and where it
may issue them. -/
def permits (j : JobId) : Report → Cmd → Prop
  | lost, _ => True
  | d, .update i p => i = j ∧
      ((∃ h, d = read h) ∧ p = activePatch ∨ ∃ v, d.finds v ∧ p = v.patch)
  | d, .write (.hset k f) => k = redisKeys.job j ∧
      ((∃ h, d = counted h ∧ f.attempts = some (Worker.nextAttempt h.attempts)) ∧
          f.status = some .active ∧ f.errorMessage = none ∨
        ∃ v, d = closing v ∧ f.attempts = none ∧ f.status = some v.status ∧
          f.errorMessage = some v.message)
  | d, .write (.zadd _ score _) => ∃ h now a, d = closed (.again h now) ∧ h.tried = some a ∧
      score = now + Worker.backoff a
  | d, .write (.lpush _ _) => ∃ h m, d = closed (.dead h m)
  | d, .write (.lrem _ _ _) => d = closed .completed ∨ ∃ v, d = moved v
  | d, .multi _ => ∃ h, d = read h
  | d, .handler _ _ a => ∃ h, d = begun h ∧ a = h.tried.map (· + 1)
  | d, .onWorker _ (.settle _) => d.settles
  | _, _ => True

/-- A call after an answer. -/
def onCall : Report → (c : Cmd) → c.Resp → Report
  | fresh, .hgetall _, h => read h
  | read h, .update _ _, _ => counted h
  | read _, .multi _, _ => done none
  | counted h, .write (.hset _ _), _ => begun h
  | begun _, .handler _ _ _, _ => succeeded
  | begun _, .hgetall _, h => judging h
  | failed, .hgetall _, h => judging h
  | judging h, .now, now => timed h now
  | succeeded, .update _ _, _ => closing .completed
  | judging h, .update _ p, _ => closing (.dead h ((p.errorMessage.getD none).getD ""))
  | timed h now, .update _ _, _ => closing (.again h now)
  | closing v, .write (.hset _ _), _ => closed v
  | closed v, .write (.zadd _ _ _), _ | closed v, .write (.lpush _ _), _ => moved v
  | closed v, .write (.lrem _ _ _), _ | moved v, .write (.lrem _ _ _), _ => done (some v)
  | d, _, _ => d

/-- A call after a rejection.  Only a failed publication and a throwing handler are taken
into account. -/
def afterError : Report → Cmd → Report
  | d, .publish _ => d
  | begun _, .handler _ _ _ => failed
  | _, _ => lost

/-! What a call that is not lost may issue. -/

section Permits

variable {d : Report} {j : JobId}

theorem permits_update {i : JobId} {p : RowPatch} (h : d.permits j (.update i p))
    (hd : d ≠ lost) : i = j ∧
      ((∃ h, d = read h) ∧ p = activePatch ∨ ∃ v, d.finds v ∧ p = v.patch) := by
  cases d <;> first | exact absurd rfl hd | exact h

theorem permits_hset {k : Key} {f : JobHash} (h : d.permits j (.write (.hset k f)))
    (hd : d ≠ lost) : k = redisKeys.job j ∧
      ((∃ h, d = counted h ∧ f.attempts = some (Worker.nextAttempt h.attempts)) ∧
          f.status = some .active ∧ f.errorMessage = none ∨
        ∃ v, d = closing v ∧ f.attempts = none ∧ f.status = some v.status ∧
          f.errorMessage = some v.message) := by
  cases d <;> first | exact absurd rfl hd | exact h

theorem permits_zadd {k : Key} {score : ℚ} {m : String}
    (h : d.permits j (.write (.zadd k score m))) (hd : d ≠ lost) :
    ∃ h now a, d = closed (.again h now) ∧ h.tried = some a ∧ score = now + Worker.backoff a := by
  cases d <;> first | exact absurd rfl hd | exact h

theorem permits_lpush {k : Key} {m : String} (h : d.permits j (.write (.lpush k m)))
    (hd : d ≠ lost) : ∃ h m, d = closed (.dead h m) := by
  cases d <;> first | exact absurd rfl hd | exact h

theorem permits_lrem {k : Key} {n : ℕ} {m : String} (h : d.permits j (.write (.lrem k n m)))
    (hd : d ≠ lost) : d = closed .completed ∨ ∃ v, d = moved v := by
  cases d <;> first | exact absurd rfl hd | exact h

theorem permits_multi {ws : List Write} (h : d.permits j (.multi ws)) (hd : d ≠ lost) :
    ∃ h, d = read h := by
  cases d <;> first | exact absurd rfl hd | exact h

theorem permits_handler {n : String} {v : Json} {a : Option ℚ}
    (h : d.permits j (.handler n v a)) (hd : d ≠ lost) :
    ∃ h, d = begun h ∧ a = h.tried.map (· + 1) := by
  cases d <;> first | exact absurd rfl hd | exact h

end Permits

end Report

/-- The `MULTI` that makes a new job visible, in the place its status says. -/
def Registers (ws : List Write) : Prop := ∃ q k f w, ws = [.sadd redisKeys.queueRegistry q,
  .hset k f, w] ∧ f.attempts = some (.of 0) ∧ f.errorMessage = some "" ∧
    ((∃ x j, w = .lpush x j) ∧ f.status = some .pending ∨
      (∃ x score j, w = .zadd x score j) ∧ f.status = some .delayed)

/-- What a task that owes nothing writes to the records of a job. -/
def Task.tells (t : Task) : Cmd → Prop
  | .write (.hsetRate _ _) | .handler _ _ _ => False
  | .update _ p => t.operator ∧ p = pendingPatch
  | .write (.hset _ f) => t.operator ∧ f = Routes.resetFields
  | .multi ws => Registers ws
  | _ => True

/-- What a task that has pushed a job writes to its records. -/
def Task.pays : Task → JobId → Cmd → Prop
  | .tick, j, c => c = .write (.hset (redisKeys.job j) { status := some .pending })
  | .janitor, j, c => c = .update j pendingPatch ∨ c = .write (.hset (redisKeys.job j)
      { status := some .pending, startedAt := some .blank, completedAt := some .blank })
  | _, _, _ => False

/-- The last it writes to them. -/
def Task.settlesDebt : Task → Cmd → Bool
  | .tick, .write (.hset _ _) | .janitor, .update _ _ => true
  | _, _ => false

/-- A task pays what it owes before it does anything else, and stops when it is rejected. -/
def Report.permitsDebt (t : Task) : Report → Cmd → Prop
  | .lost, _ => False
  | .owes j, c => t.pays j c
  | _, c => t.tells c

/-- A scheduler or a janitor after an answer. -/
def Report.onDebt (t : Task) : Report → (c : Cmd) → c.Resp → Report
  | _, .write (.lpush _ j), _ => .owes j
  | .owes j, c, _ => if t.settlesDebt c then .fresh else .owes j
  | _, _, _ => .fresh

/-- The protocol of reports. -/
def report : Protocol Task Cmd Cmd.Resp Err Report where
  start _ := .fresh
  permits t d c := match t with
    | .processOne _ _ j => d.permits j c
    | .tick | .janitor => d.permitsDebt t c
    | _ => t.tells c
  next t d c r := match t, r with
    | .processOne _ _ _, .ok a => d.onCall c a
    | .processOne _ _ _, .error _ => d.afterError c
    | .tick, .ok a => d.onDebt .tick c a
    | .janitor, .ok a => d.onDebt .janitor c a
    | .tick, .error _ | .janitor, .error _ => .lost
    | _, _ => .fresh

/-! ## What the tasks tell -/

namespace Report

/-- Commands that write no record of a job tell nothing. -/
theorem tells_of_plain {c : Cmd} (h : c.plain) (t : Task) : t.tells c := by
  cases c with
  | write w => cases w <;> first | exact h.elim | trivial
  | multi ws => exact h.elim
  | update id p => exact h.elim
  | handler n v a => exact h.elim
  | _ => trivial

/-- The `MULTI` of the immediate path. -/
theorem registers_ready (id : JobId) (q : QueueName) (n : String) (p : Option Json) (m : Numeral)
    (pr : String) (now : ℕ) (x : Key) : Registers [.sadd redisKeys.queueRegistry q,
      .hset (redisKeys.job id) (newJobHash id q n p .pending m pr now), .lpush x id] :=
  ⟨q, _, _, _, rfl, rfl, rfl, Or.inl ⟨⟨x, id, rfl⟩, rfl⟩⟩

/-- The `MULTI` of the delayed path. -/
theorem registers_delayed (id : JobId) (q : QueueName) (n : String) (p : Option Json)
    (m : Numeral) (pr : String) (now : ℕ) (x : Key) (score : ℚ) :
    Registers [.sadd redisKeys.queueRegistry q,
      .hset (redisKeys.job id) (newJobHash id q n p .delayed m pr now), .zadd x score id] :=
  ⟨q, _, _, _, rfl, rfl, rfl, Or.inr ⟨⟨x, score, id, rfl⟩, rfl⟩⟩

theorem enqueue_tells (n : String) (p : Option Json) (o : EnqueueOptions) {t : Task} :
    Only t.tells (Producer.enqueue n p o) := by
  have create : Only t.tells (Producer.create n p o) := by
    refine only_step trivial fun id => only_step trivial fun nowIso => only_bind ?_ fun _ => ?_
    · unfold Producer.store
      cases o.delay.filter (0 < ·) with
      | some delay =>
          exact only_step trivial fun now => only_step trivial fun _ =>
            only_perform (registers_delayed ..)
      | none => exact only_step trivial fun _ => only_perform (registers_ready ..)
    · refine only_bind ?_ fun _ => only_step trivial fun now => only_step trivial fun _ => trivial
      unfold Producer.remember
      cases truthy o.idempotencyKey with
      | some key => exact only_perform trivial
      | none => trivial
  unfold Producer.enqueue
  split
  · exact only_throw _
  · cases truthy o.idempotencyKey with
    | none => exact create
    | some key =>
        refine only_step trivial fun existing => ?_
        cases truthy existing with
        | some j => exact only_pure _
        | none => exact create

theorem pushRetried_tells (q : QueueName) (id : JobId) (f : JobHash → String) {t : Task} :
    Only t.tells (Routes.pushRetried q id f) :=
  only_step trivial fun _ => only_step trivial fun _ => only_step trivial fun _ =>
    only_perform trivial

theorem retry_tells (id : JobId) : Only (Task.tells (.retry id)) (Routes.retry id) := by
  refine only_step trivial fun job => ?_
  cases job with
  | none => exact only_pure _
  | some job =>
      change Only _ (if Routes.retriable job = false then _ else _)
      split
      · exact only_pure _
      · exact only_step ⟨trivial, rfl⟩ fun _ => only_step ⟨trivial, rfl⟩ fun _ =>
          only_step trivial fun _ => only_bind (pushRetried_tells _ _ _) fun _ => only_pure _

theorem requeue_tells (q : QueueName) (b : RequeueBody) :
    Only (Task.tells (.requeue q b)) (Routes.requeue q b) := by
  have jobs : ∀ ids n m, Only (Task.tells (.requeue q b)) (Routes.requeueJobs q n m ids) := by
    intro ids
    induction ids with
    | nil => exact fun _ _ => only_pure _
    | cons id ids ih =>
        intro n m
        refine only_bind (only_handle (only_bind ?_ fun _ => only_pure _) fun _ => only_pure _)
          fun ok => ?_
        · exact only_step ⟨trivial, rfl⟩ fun _ => only_step ⟨trivial, rfl⟩ fun _ =>
            only_step trivial fun _ => pushRetried_tells _ _ _
        · split
          · exact ih _ _
          · exact ih _ _
  unfold Routes.requeue
  split
  · exact only_step trivial fun ids => jobs ids 0 0
  · cases b.jobIds with
    | some ids => exact jobs ids 0 0
    | none => exact only_pure _

/-- The tasks without phases. -/
theorem only_tells (env : Env) {t : Task} (hcall : ∀ w n j, t ≠ .processOne w n j)
    (htick : t ≠ .tick) (hjanitor : t ≠ .janitor) : Only t.tells (body env t) := by
  cases t with
  | enqueue n p o => exact only_bind (enqueue_tells n p o) fun _ => only_pure _
  | tick => exact absurd rfl htick
  | processOne w n j => exact absurd rfl (hcall w n j)
  | janitor => exact absurd rfl hjanitor
  | retry id => exact only_bind (retry_tells id) fun _ => only_pure _
  | requeue q b => exact only_bind (requeue_tells q b) fun _ => only_pure _
  | _ =>
      refine (Repertoire.only_plain env ?_).mono fun c hc => tells_of_plain hc _
      trivial

/-! ## The scheduler and the janitor -/

section Debt

variable {α : Type} {t : Task}

/-- A task that comes to its end owes nothing. -/
def Paid (r : Except Err α) (d : Report) : Prop := ∀ a, r = .ok a → d = .fresh

theorem paid_error {e : Err} {d : Report} : Paid (.error e : Except Err α) d := by
  intro a ha
  cases ha

/-- Commands that push nothing. -/
def pushless (t : Task) : Cmd → Prop
  | .write (.lpush _ _) => False
  | c => t.tells c

/-- A task that owes the jobs it pushes what is due to them. -/
structure Owing (t : Task) : Prop where
  permits : ∀ c, t.tells c → report.permits t .fresh c
  next : ∀ c a, pushless t c → report.next t .fresh c (.ok a) = .fresh

theorem pushless_tells {c : Cmd} (hc : pushless t c) : t.tells c := by
  cases c with
  | write w => cases w <;> first | exact hc | exact hc.elim
  | _ => exact hc

theorem onDebt_fresh {c : Cmd} (hc : pushless t c) (a : c.Resp) :
    Report.onDebt t .fresh c a = .fresh := by
  cases c with
  | write w => cases w <;> first | exact hc.elim | rfl
  | _ => rfl

theorem owing_tick : Owing .tick := ⟨fun _ hc => hc, fun _ a hc => onDebt_fresh hc a⟩

theorem owing_janitor : Owing .janitor := ⟨fun _ hc => hc, fun _ a hc => onDebt_fresh hc a⟩

theorem debt_step (ht : Owing t) {c : Cmd} {f : c.Resp → Async α} (hc : pushless t c)
    (hf : ∀ a, Follows report t .fresh (f a) Paid) :
    Follows report t .fresh (await c >>= f) Paid := by
  refine follows_step (ht.permits c (pushless_tells hc)) (fun a => ?_) fun _ => paid_error
  rw [ht.next c a hc]
  exact hf a

theorem debt_pure (a : α) : Follows report t .fresh (pure a : Async α) Paid := by
  intro b _
  rfl

theorem debt_bind {β : Type} {p : Async α} {f : α → Async β} (h : Follows report t .fresh p Paid)
    (hf : ∀ a, Follows report t .fresh (f a) Paid) : Follows report t .fresh (p >>= f) Paid := by
  refine follows_bind Paid h (fun a d hd => ?_) fun _ _ _ => paid_error
  rw [hd a rfl]
  exact hf a

theorem debt_forEach {β : Type} {f : β → Async Unit} (h : ∀ x, Follows report t .fresh (f x) Paid) :
    ∀ xs, Follows report t .fresh (forEach xs f) Paid
  | [] => debt_pure ()
  | x :: xs => debt_bind (h x) fun _ => debt_forEach h xs

/-- The last command of a task pays its debt. -/
theorem debt_perform {d : Report} {c : Cmd} (hc : report.permits t d c)
    (hnext : ∀ a, report.next t d c (.ok a) = .fresh) :
    Follows report t d (await c) Paid := by
  refine follows_perform hc fun r => ?_
  cases r with
  | ok a =>
      intro b _
      exact hnext a
  | error e => exact paid_error

theorem promoteJob_report (q : QueueName) (j : JobId) :
    Follows report .tick .fresh (Scheduler.promoteJob q j) Paid := by
  refine debt_step owing_tick trivial fun removed => ?_
  split
  · exact debt_pure ()
  · refine debt_step owing_tick trivial fun priority => ?_
    refine follows_step trivial (fun _ => ?_) fun _ => paid_error
    exact debt_perform rfl fun _ => rfl

theorem tick_report : Follows report .tick .fresh Scheduler.tick Paid := by
  refine debt_bind ?_ fun _ => ?_
  · refine debt_step owing_tick trivial fun queues => debt_step owing_tick trivial fun now => ?_
    refine debt_forEach (fun q => ?_) queues
    exact debt_step owing_tick trivial fun due => debt_forEach (promoteJob_report q) due
  · refine debt_step owing_tick trivial fun now =>
      debt_step owing_tick trivial fun dueEntries => ?_
    refine debt_forEach (fun c => ?_) dueEntries
    refine debt_step owing_tick trivial fun removed => ?_
    split
    · exact debt_pure ()
    · refine debt_step owing_tick trivial fun defRaw => ?_
      cases truthy defRaw.cronExpression with
      | none => exact debt_pure ()
      | some e =>
          refine debt_step owing_tick trivial fun nextMs => debt_step owing_tick trivial fun _ => ?_
          unfold Scheduler.enqueueCronJob
          cases parsePayload defRaw.payload with
          | error e => exact paid_error
          | ok payload =>
              refine debt_step owing_tick trivial fun id => debt_step owing_tick trivial fun nowIso =>
                debt_step owing_tick trivial fun _ => ?_
              exact debt_perform (registers_ready ..) fun _ => rfl

theorem janitor_report : Follows report .janitor .fresh Janitor.tick Paid := by
  refine debt_step owing_janitor trivial fun workerIds => debt_forEach (fun w => ?_) workerIds
  refine debt_step owing_janitor trivial fun found => ?_
  split
  · exact debt_pure ()
  · refine debt_step owing_janitor trivial fun orphans =>
      debt_bind (debt_forEach (fun j => ?_) orphans) fun _ =>
        debt_step owing_janitor trivial fun _ => debt_step owing_janitor trivial fun _ =>
          debt_perform trivial fun _ => rfl
    refine debt_step owing_janitor trivial fun hash => ?_
    refine follows_step trivial (fun _ => ?_) fun _ => paid_error
    refine follows_step (Or.inr rfl) (fun _ => ?_) fun _ => paid_error
    exact debt_perform (Or.inl rfl) fun _ => rfl

end Debt

/-! ## Calls -/

section Call

variable {env : Env} {w : WorkerId} {n : ℕ} {j : JobId} {α : Type}

/-- A lost call goes on as it is. -/
theorem lost_call (p : Async α) :
    Follows report (.processOne w n j) .lost p fun _ d => d = .lost := by
  induction p with
  | ret a => rfl
  | raise e => rfl
  | call c k ih =>
      refine ⟨trivial, fun r => ?_⟩
      have hnext : report.next (.processOne w n j) .lost c r = .lost := by
        cases r with
        | ok a => rfl
        | error e => cases c <;> rfl
      rw [hnext]
      exact ih r

/-- A call may settle, whether it has returned or thrown. -/
def Settled (_ : Except Err α) (d : Report) : Prop := d.settles

/-- A publication does not move a call. -/
theorem publishQuietly_report (e : JobEvent) (d : Report) :
    Follows report (.processOne w n j) d (redis.publishQuietly e) fun r d' => r.isOk ∧ d' = d := by
  refine follows_handle (fun _ d' => d' = d) (follows_perform ?_ fun r => ?_) ?_ ?_
  · cases d <;> trivial
  · cases r with
    | ok a => cases d <;> rfl
    | error e => cases d <;> rfl
  · rintro _ d' rfl
    exact ⟨rfl, rfl⟩
  · rintro _ d' rfl
    exact follows_pure ⟨rfl, rfl⟩

/-- A call that has removed its entry ends with a publication. -/
theorem done_publish (e : JobEvent) (v : Option Verdict) :
    Follows report (.processOne w n j) (.done v) (redis.publishQuietly e) Settled := by
  refine follows_mono (publishQuietly_report e (.done v)) ?_
  rintro r d ⟨-, rfl⟩
  trivial

theorem deadLetter_report (message : String) {h : JobHash} (hex : h.exhausted = true) :
    Follows report (.processOne w n j) (.judging h) (Worker.deadLetter w j message h) Settled := by
  refine follows_step ⟨rfl, Or.inr ⟨.dead h message, ⟨rfl, hex⟩, rfl⟩⟩ (fun _ => ?_)
    fun _ => trivial
  refine follows_step trivial (fun completedAt => ?_) fun _ => trivial
  refine follows_step ⟨rfl, Or.inr ⟨.dead h message, rfl, rfl, rfl, rfl⟩⟩ (fun _ => ?_)
    fun _ => trivial
  refine follows_step ⟨h, message, rfl⟩ (fun _ => ?_) fun _ => trivial
  refine follows_step (Or.inr ⟨_, rfl⟩) (fun _ => ?_) fun _ => trivial
  exact follows_step trivial (fun now => done_publish _ _) fun _ => trivial

theorem scheduleRetry_report {h : JobHash} (hex : h.exhausted = false) :
    Follows report (.processOne w n j) (.judging h) (Worker.scheduleRetry w j h.tried h)
      Settled := by
  refine follows_step trivial (fun now => ?_) fun _ => trivial
  refine follows_step ⟨rfl, Or.inr ⟨.again h now, ⟨rfl, rfl, hex⟩, rfl⟩⟩ (fun _ => ?_)
    fun _ => trivial
  refine follows_step ⟨rfl, Or.inr ⟨.again h now, rfl, rfl, rfl, rfl⟩⟩ (fun _ => ?_)
    fun _ => trivial
  cases htried : h.tried with
  | none => exact follows_throw htried
  | some a =>
      refine follows_step ⟨h, now, a, rfl, htried, rfl⟩ (fun _ => ?_) fun _ => trivial
      refine follows_perform (Or.inr ⟨_, rfl⟩) fun r => ?_
      cases r <;> trivial

/-- A call that has made its attempt, or tried to. -/
def attempted (d : Report) : Prop := (∃ h, d = begun h) ∨ d = failed ∨ d = lost

theorem handleFailure_report (message : String) {d : Report} (hd : d.attempted) :
    Follows report (.processOne w n j) d (Worker.handleFailure w j message) Settled := by
  have judge : ∀ h, Follows report (.processOne w n j) (.judging h)
      (if h.exhausted then Worker.deadLetter w j message h
        else Worker.scheduleRetry w j h.tried h) Settled := by
    intro h
    by_cases hex : h.exhausted = true
    · rw [if_pos hex]
      exact deadLetter_report message hex
    · rw [if_neg hex]
      exact scheduleRetry_report (by simpa using hex)
  rcases hd with ⟨h₀, rfl⟩ | rfl | rfl
  · exact follows_step trivial (fun h => judge h) fun _ => trivial
  · exact follows_step trivial (fun h => judge h) fun _ => trivial
  · refine follows_mono (lost_call _) ?_
    rintro r d rfl
    trivial

/-- If `complete` throws, the call may still fail over. -/
def Threw : Except Err Unit → Report → Prop
  | .ok _, d => d = done (some .completed)
  | .error _, d => d.attempted

theorem complete_report :
    Follows report (.processOne w n j) .succeeded (Worker.complete env w j) Threw := by
  have hlost : Report.lost.attempted := Or.inr (Or.inr rfl)
  refine follows_step ⟨rfl, Or.inr ⟨.completed, trivial, rfl⟩⟩ (fun _ => ?_) fun _ => hlost
  refine follows_step trivial (fun completedAt => ?_) fun _ => hlost
  refine follows_step ⟨rfl, Or.inr ⟨.completed, rfl, rfl, rfl, rfl⟩⟩ (fun _ => ?_) fun _ => hlost
  refine follows_step (Or.inl rfl) (fun _ => ?_) fun _ => hlost
  refine follows_step trivial (fun hash => ?_) fun _ => hlost
  refine follows_step trivial (fun now => ?_) fun _ => hlost
  refine follows_mono (publishQuietly_report _ (.done (some .completed))) ?_
  rintro (e | a) d ⟨hr, rfl⟩
  · cases hr
  · rfl

theorem runJob_report (h : JobHash) (jobName : String) (q : QueueName) :
    Follows report (.processOne w n j) (.read h) (Worker.runJob env w j h jobName q) Settled := by
  refine follows_step ⟨rfl, Or.inl ⟨⟨h, rfl⟩, rfl⟩⟩ (fun _ => ?_) fun _ => trivial
  refine follows_step trivial (fun startedAt => ?_) fun _ => trivial
  refine follows_step ⟨rfl, Or.inl ⟨⟨h, rfl, rfl⟩, rfl, rfl⟩⟩ (fun _ => ?_) fun _ => trivial
  refine follows_step trivial (fun now => ?_) fun _ => trivial
  have hbegun : (Report.begun h).attempted := Or.inl ⟨h, rfl⟩
  refine follows_bind _ (publishQuietly_report _ (.begun h)) ?_ ?_
  · rintro _ d ⟨-, rfl⟩
    split
    · exact handleFailure_report _ hbegun
    · split
      · exact handleFailure_report _ hbegun
      · refine follows_handle Threw ?_ ?_ fun e d hd => handleFailure_report _ hd
        · refine follows_step ⟨h, rfl, rfl⟩ (fun _ => complete_report) fun _ => ?_
          exact Or.inr (Or.inl rfl)
        · rintro _ d rfl
          trivial
  · rintro _ d ⟨hr, -⟩
    cases hr

/-- A check of the rate limiter leaves a call where it is, or breaks it off. -/
def Checked (h : JobHash) : Except Err (Bool × ℚ) → Report → Prop
  | .ok _, d => d = read h
  | .error _, d => d = lost

theorem checkLimit_report (h : JobHash) (q : QueueName) (config : RateLimitConfig) :
    Follows report (.processOne w n j) (.read h) (RateLimiter.checkLimitFallback q config)
      (Checked h) := by
  refine follows_step trivial (fun now => ?_) fun _ => rfl
  refine follows_step trivial (fun data => ?_) fun _ => rfl
  dsimp only
  split
  · exact follows_step trivial (fun _ => follows_pure rfl) fun _ => rfl
  · exact follows_step trivial (fun _ => follows_pure rfl) fun _ => rfl

theorem processOne_report :
    Follows report (.processOne w n j) .fresh (Worker.processOne env w j) Settled := by
  refine follows_step trivial (fun h => ?_) fun _ => trivial
  cases hname : truthy h.jobName with
  | none => exact follows_pure hname
  | some jobName =>
      dsimp only
      cases env.rateLimits w (h.queueName.getD (env.queue w)) with
      | none => exact runJob_report h jobName _
      | some config =>
          refine follows_bind _ (checkLimit_report h _ config) ?_ ?_
          · rintro result d rfl
            split
            · exact runJob_report h jobName _
            · refine follows_step ⟨h, rfl⟩ (fun _ => ?_) fun _ => trivial
              refine follows_perform trivial fun r => ?_
              cases r <;> trivial
          · rintro _ d rfl
            trivial

end Call

end Report

/-- How the tasks end: a call may settle, and a scheduler or janitor that has not been
rejected owes nothing. -/
def Reported : Task → Except Err (Option JobId) → Report → Prop
  | .processOne _ _ _, _, d => d.settles
  | .tick, .ok _, d | .janitor, .ok _, d => d = .fresh
  | _, _, _ => True

/-- **Every task reports.** -/
theorem report_follows (env : Env) (t : Task) :
    Follows report t (report.start t) (body env t) (Reported t) := by
  have settled : ∀ {w n j} {d : Report} {r : Except Err Unit}, d.settles →
      (report.next (.processOne w n j) d (.onWorker w (.settle n)) r).settles := by
    intro w n j d r hd
    cases r with
    | ok a => cases d <;> exact hd
    | error e => trivial
  cases t with
  | processOne w n j =>
      refine follows_bind (fun _ d => d.settles) ?_ (fun _ _ hd => hd) fun _ _ hd => hd
      refine follows_bind (fun _ d => d.settles) ?_ (fun _ d hd => ?_) fun _ _ hd => hd
      · exact follows_handle Report.Settled Report.processOne_report (fun _ _ hd => hd)
          fun _ _ hd => follows_pure hd
      · refine follows_perform ?_ fun _ => settled hd
        cases d <;> exact hd
  | tick =>
      refine follows_mono (Report.debt_bind Report.tick_report fun _ => Report.debt_pure none) ?_
      rintro (e | a) d hd
      · trivial
      · exact hd a rfl
  | janitor =>
      refine follows_mono (Report.debt_bind Report.janitor_report fun _ => Report.debt_pure none) ?_
      rintro (e | a) d hd
      · trivial
      · exact hd a rfl
  | _ =>
      refine follows_mono (follows_only (Report.only_tells env (by simp) (by simp) (by simp))
        fun c hc => ?_) fun _ _ _ => trivial
      exact ⟨hc, fun _ => rfl⟩

end NexusQueue
