/-
# Commands and the world they act on

Every `await` of the source is one command: a Redis command, a statement on the
`jobs` table, or an operation of the JavaScript runtime.  A `Worker` object lives
in one process, and the code between two awaits runs without interruption; what
such a stretch of code does to the object is a `Local` operation.

`exec` gives a command its meaning in a `World`.  The oracle decides what the
world leaves open: the order `SMEMBERS` answers in, the next uuid, how a handler
ends, whether the shutdown timer wins, and whether a store command rejects.
-/
import NexusQueue.Pool
import NexusQueue.Redis
import NexusQueue.Postgres

namespace NexusQueue

/-- What is fixed when the processes are deployed: the arguments and registered
handlers of each worker, and `cron-parser`, which gives the next occurrence of
an expression after a time. -/
structure Env where
  queue : WorkerId → QueueName
  concurrency : WorkerId → ℕ
  rateLimits : WorkerId → QueueName → Option RateLimitConfig
  handlers : WorkerId → String → Bool
  cronNext : String → ℕ → Option ℚ

/-- The body of a `POST /queues/:name/dlq/requeue` request. -/
structure RequeueBody where
  jobIds : Option (List JobId) := none
  all : Bool := false

/-- The tasks processes run.  `retry` and `requeue` are requests of an operator. -/
inductive Task where
  | enqueue (jobName : String) (payload : Option Json) (options : EnqueueOptions)
  | tick
  | start (w : WorkerId)
  | loop (w : WorkerId)
  | processOne (w : WorkerId) (call : ℕ) (jobId : JobId)
  | stop (w : WorkerId)
  | heartbeat (w : WorkerId)
  | janitor
  | addJob (job : CronJobDef)
  | removeJob (cronId : CronId)
  | retry (id : JobId)
  | requeue (name : QueueName) (request : RequeueBody)

/-- The worker process a task runs in. -/
def Task.host : Task → Option WorkerId
  | .start w | .loop w | .processOne w _ _ | .stop w | .heartbeat w => some w
  | _ => none

/-- What the head of the pull loop finds: a stop was requested, all slots are
taken by `snapshot`, or a slot is free. -/
inductive LoopTop where
  | exit
  | full (snapshot : Finset ℕ)
  | pull

/-- Synchronous stretches of `Worker` code, and awaits that only concern the
object itself.  The promises in `activeJobs` are named by the number of their
`processOne` call. -/
inductive Local where
  | begin
  | armTimer
  | timerFires
  | launch
  | loopTop
  | loopAgain
  | loopExit
  | nextPull
  | dispatch (jobId : JobId)
  | settle (call : ℕ)
  | race (snapshot : Finset ℕ)
  | requestStop
  | snapshot
  | drain (snapshot : Finset ℕ) (deadline : ℕ)
  | awaitLoop
  | clearTimer
  | finish
  | activeCount

/-- The answer of a local operation. -/
@[reducible] def Local.Resp : Local → Type
  | .loopTop => LoopTop
  | .nextPull => ℕ
  | .dispatch _ => ℕ
  | .snapshot => Finset ℕ
  | .drain _ _ => Bool
  | .activeCount => ℕ
  | _ => Unit

/-- Everything a process can await. -/
inductive Cmd where
  | write (w : Write)
  | multi (ws : List Write)
  | smembers (k : Key)
  | zrangebyscore (k : Key) (max : Option ℚ)
  | zrem (k : Key) (m : String)
  | hgetall (k : Key)
  | hgetPriority (k : Key)
  | hgetallCron (k : Key)
  | hgetallRate (k : Key)
  | get (k : Key)
  | existsKey (k : Key)
  | lrange (k : Key) (start stop : ℤ)
  | rpoplpush (src dst : Key)
  | blmove (src dst : Key)
  | publish (e : JobEvent)
  | insert (row : NewRow)
  | update (id : String) (p : RowPatch)
  | select (id : String)
  | now
  | uuid
  | sleep (ms : ℚ)
  | cronNext (expression : String)
  | handler (jobName : String) (payload : Json) (attempt : Option ℚ)
  | onWorker (w : WorkerId) (op : Local)

/-- The answer of a command. -/
@[reducible] def Cmd.Resp : Cmd → Type
  | .smembers _ => List String
  | .zrangebyscore _ _ => List String
  | .zrem _ _ => ℕ
  | .hgetall _ => JobHash
  | .hgetPriority _ => Option String
  | .hgetallCron _ => CronHash
  | .hgetallRate _ => RateHash
  | .get _ => Option String
  | .existsKey _ => Bool
  | .lrange _ _ _ => List String
  | .rpoplpush _ _ => Option String
  | .blmove _ _ => Option String
  | .select _ => Option JobRow
  | .now => ℕ
  | .uuid => Uuid
  | .cronNext _ => ℚ
  | .onWorker _ op => op.Resp
  | _ => Unit

/-- Asynchronous code of this repository. -/
abbrev Async (α : Type) := Prog Cmd Cmd.Resp Err α

/-- The commands that go to a store and may be rejected by it. -/
def Cmd.faultable : Cmd → Bool
  | .now | .uuid | .sleep _ | .cronNext _ | .handler _ _ _ | .onWorker _ _ => false
  | _ => true

/-- Statements whose `$1` spells no uuid, which the server rejects. -/
def Cmd.unreadable : Cmd → Bool
  | .update id _ | .select id => (Uuid.normal id).isNone
  | _ => false

/-- The state of one `Worker` object.  `calls` numbers its `processOne` calls,
`launched` and `exited` describe the promise `currentLoop`. -/
structure WorkerObj where
  running : Bool := false
  stopRequested : Bool := false
  pullIndex : ℕ := 0
  calls : ℕ := 0
  activeJobs : Finset ℕ := ∅
  launched : Bool := false
  exited : Bool := false
  timer : Bool := false

/-- Both stores, the clock in milliseconds, the uuids drawn so far, the worker
objects, and which worker processes have crashed. -/
structure World where
  redis : Redis := {}
  pg : Postgres := .empty
  clock : ℕ := 0
  ids : Finset JobId := ∅
  workers : WorkerId → WorkerObj := fun _ => {}
  down : WorkerId → Bool := fun _ => false

/-- What the world leaves open. -/
inductive Oracle where
  | plain
  | fault
  | members (l : List String)
  | fresh (id : Uuid)
  | outcome (r : Except String Unit)
  | timeout

namespace World

/-- Change one worker object. -/
def setWorker (s : World) (w : WorkerId) (obj : WorkerObj) : World :=
  { s with workers := Function.update s.workers w obj }

/-- The answer of a local operation of worker `w` and the world after it;
`none` while an awaited promise is pending. -/
def local? (env : Env) (s : World) (w : WorkerId) (o : Oracle) :
    (op : Local) → Option (Except Err op.Resp × World)
  | .begin =>
      if (s.workers w).running then some (.error (.error "worker already started"), s)
      else some (.ok (), s.setWorker w
        { s.workers w with running := true, stopRequested := false })
  | .armTimer => some (.ok (), s.setWorker w { s.workers w with timer := true })
  | .timerFires => if (s.workers w).timer then some (.ok (), s) else none
  | .launch => some (.ok (), s.setWorker w { s.workers w with launched := true, exited := false })
  | .loopTop =>
      if (s.workers w).stopRequested then some (.ok .exit, s)
      else if env.concurrency w ≤ (s.workers w).activeJobs.card then
        some (.ok (.full (s.workers w).activeJobs), s)
      else some (.ok .pull, s)
  | .loopAgain => some (.ok (), s)
  | .loopExit => some (.ok (), s.setWorker w { s.workers w with exited := true })
  | .nextPull =>
      some (.ok ((s.workers w).pullIndex % 10), s.setWorker w
        { s.workers w with pullIndex := (s.workers w).pullIndex + 1 })
  | .dispatch _ =>
      some (.ok (s.workers w).calls, s.setWorker w
        { s.workers w with
          calls := (s.workers w).calls + 1
          activeJobs := insert (s.workers w).calls (s.workers w).activeJobs })
  | .settle n =>
      some (.ok (), s.setWorker w
        { s.workers w with activeJobs := (s.workers w).activeJobs.erase n })
  | .race snapshot =>
      if ∃ n ∈ snapshot, n ∉ (s.workers w).activeJobs then some (.ok (), s) else none
  | .requestStop => some (.ok (), s.setWorker w { s.workers w with stopRequested := true })
  | .snapshot => some (.ok (s.workers w).activeJobs, s)
  | .drain snapshot deadline =>
      match o with
      | .timeout => if deadline ≤ s.clock then some (.ok true, s) else none
      | _ => if ∀ n ∈ snapshot, n ∉ (s.workers w).activeJobs then some (.ok false, s) else none
  | .awaitLoop =>
      if (s.workers w).launched → (s.workers w).exited then some (.ok (), s) else none
  | .clearTimer => some (.ok (), s.setWorker w { s.workers w with timer := false })
  | .finish => some (.ok (), s.setWorker w { s.workers w with running := false })
  | .activeCount => some (.ok (s.workers w).activeJobs.card, s)

/-- The answer of a command and the world after it. -/
def answer (env : Env) (s : World) (o : Oracle) :
    (c : Cmd) → Option (Except Err c.Resp × World)
  | .write w => some (.ok (), { s with redis := w.apply s.clock s.redis })
  | .multi ws => some (.ok (), { s with redis := s.redis.multi s.clock ws })
  | .smembers k =>
      match o with
      | .members l => if l.Nodup ∧ l.toFinset = s.redis.sets k then some (.ok l, s) else none
      | _ => none
  | .zrangebyscore k max => some (.ok ((s.redis.zsets k).rangeByScore max), s)
  | .zrem k m => some (.ok (s.redis.zrem k m).1, { s with redis := (s.redis.zrem k m).2 })
  | .hgetall k => some (.ok (s.redis.jobs k), s)
  | .hgetPriority k => some (.ok (s.redis.jobs k).priority, s)
  | .hgetallCron k => some (.ok (s.redis.crons k), s)
  | .hgetallRate k => some (.ok (s.redis.rates k), s)
  | .get k => some (.ok (s.redis.get s.clock k), s)
  | .existsKey k => some (.ok (s.redis.get s.clock k).isSome, s)
  | .lrange k start stop => some (.ok (s.redis.lrange k start stop), s)
  | .rpoplpush src dst =>
      some (.ok (s.redis.rpoplpush src dst).1, { s with redis := (s.redis.rpoplpush src dst).2 })
  | .blmove src dst =>
      some (.ok (s.redis.rpoplpush src dst).1, { s with redis := (s.redis.rpoplpush src dst).2 })
  | .publish _ => some (.ok (), s)
  | .insert row =>
      match s.pg.insert s.clock row with
      | .ok pg => some (.ok (), { s with pg := pg })
      | .error e => some (.error e, s)
  | .update id p => some (.ok (), { s with pg := s.pg.update s.clock id p })
  | .select id => some (.ok (s.pg.select id), s)
  | .now => some (.ok s.clock, s)
  | .uuid =>
      match o with
      | .fresh id =>
          if id.text ∈ s.ids then none
          else some (.ok id, { s with ids := insert id.text s.ids })
      | _ => none
  | .sleep _ => some (.ok (), s)
  | .cronNext e =>
      match env.cronNext e s.clock with
      | some t => some (.ok t, s)
      | none => some (.error (.error "Invalid cron expression"), s)
  | .handler _ _ _ =>
      match o with
      | .outcome (.ok ()) => some (.ok (), s)
      | .outcome (.error m) => some (.error (.error m), s)
      | _ => none
  | .onWorker w op => s.local? env w o op

/-- A command issued by a task.  A crashed process issues none; a rejected
command has no effect. -/
def exec (env : Env) (s : World) (t : Task) (c : Cmd) (o : Oracle) :
    Option (Except Err c.Resp × World) :=
  if t.host.elim false s.down then none
  else match o with
    | .fault => if c.faultable then some (.error .rejected, s) else none
    | o => if c.unreadable then some (.error (.invalidValue "id"), s) else s.answer env o c

end World

/-- What happens without a process: time passes, or a worker process dies. -/
inductive Move where
  | pass (ms : ℕ)
  | crash (w : WorkerId)

def World.drift (s : World) : Move → Option World
  | .pass ms => some { s with clock := s.clock + ms }
  | .crash w => some { s with down := Function.update s.down w true }

/-- The tasks a command starts: the pull loop, its next iteration, and the
`processOne` call of a pulled job. -/
def forks : Task → (c : Cmd) → Except Err c.Resp → List Task
  | _, .onWorker w .launch, .ok _ => [.loop w]
  | _, .onWorker w .loopAgain, .ok _ => [.loop w]
  | _, .onWorker w (.dispatch j), .ok n => [.processOne w n j]
  | _, _, _ => []

end NexusQueue
