/-
# What a permitted step can do

`Effect` lists, once and for all, everything the permitted commands do when no
store rejects them: the answer, the world afterwards, the phase of the process
afterwards, and the tasks that are started.  `effect_of_answer` is the inversion
lemma.  Every invariant is proved by going through this list; nothing else
unfolds the meaning of a command.

`still` stands for all commands that leave the phase and everything custody is
about as they are.
-/
import NexusQueue.Effects

namespace NexusQueue

/-! ## Changes of the world -/

namespace World

/-- One list is replaced. -/
@[simp] abbrev setList (s : World) (k : Key) (l : List String) : World :=
  { s with redis := { s.redis with lists := Function.update s.redis.lists k l } }

/-- `LPUSH`. -/
@[simp] abbrev push (s : World) (k : Key) (j : String) : World :=
  s.setList k (j :: s.redis.lists k)

/-- One delayed set is replaced. -/
@[simp] abbrev setDelayed (s : World) (q : QueueName) (z : SortedSet String ℚ) : World :=
  { s with redis := { s.redis with zsets := Function.update s.redis.zsets (.delayed q) z } }

/-- One set is replaced. -/
@[simp] abbrev setSet (s : World) (k : Key) (m : Finset String) : World :=
  { s with redis := { s.redis with sets := Function.update s.redis.sets k m } }

/-- `SET k v EX ex`. -/
@[simp] abbrev setString (s : World) (k : Key) (v : String) (ex : ℕ) : World :=
  { s with redis := { s.redis with
    strings := Function.update s.redis.strings k (some (v, some (s.clock + 1000 * ex))) } }

/-- `DEL`. -/
@[simp] abbrev delete (s : World) (k : Key) : World :=
  { s with redis := (Write.del k).apply s.clock s.redis }

/-- One row is updated. -/
@[simp] abbrev updateRow (s : World) (j : JobId) (p : RowPatch) : World :=
  { s with pg := s.pg.update s.clock j p }

/-- The first two commands of the `MULTI` that publishes a job. -/
def register (s : World) (id : JobId) (q : QueueName) (f : JobHash) : World :=
  { s with redis := { s.redis with
    sets := Function.update s.redis.sets redisKeys.queueRegistry
      (insert q (s.redis.sets redisKeys.queueRegistry))
    jobs := Function.update s.redis.jobs (redisKeys.job id)
      ((s.redis.jobs (redisKeys.job id)).merge f) } }

end World

/-- The phase after publishing: a scheduler goes on with its list. -/
def Task.published : Task → JobId → Phase
  | .tick, _ => .idle
  | _, id => .published id

/-- The phase after a call has settled. -/
def Phase.settled : Phase → Phase
  | .released => .ended
  | l => l

/-- What a command takes from the tail of a list. -/
def Cmd.pulled : (c : Cmd) → Except Err c.Resp → Option (Key × JobId)
  | .rpoplpush src _, .ok (some v) => some (src, v)
  | .blmove src _, .ok (some v) => some (src, v)
  | _, _ => none

/-! ## The list of effects -/

/-- Everything the permitted commands do when no store rejects them. -/
inductive Effect (env : Env) (s : World) : (t : Task) → Phase → (c : Cmd) →
    Except Err c.Resp → World → Phase → List Task → Prop
  | still {t l c a s'} : c.neutral → s.Frame s' → s'.workers = s.workers →
      Effect env s t l c (.ok a) s' l []
  | clock {l} : l.free → Effect env s .tick l .now (.ok s.clock) s (.clocked s.clock) []
  -- creating a job
  | lookupMiss {n p o k} : truthy o.idempotencyKey = some k →
      truthy (s.redis.get s.clock (redisKeys.idempotency k)) = none →
      Effect env s (.enqueue n p o) .idle (.get (redisKeys.idempotency k))
        (.ok (s.redis.get s.clock (redisKeys.idempotency k))) s .missed []
  | lookupHit {n p o k v} : truthy o.idempotencyKey = some k →
      truthy (s.redis.get s.clock (redisKeys.idempotency k)) = some v →
      Effect env s (.enqueue n p o) .idle (.get (redisKeys.idempotency k))
        (.ok (s.redis.get s.clock (redisKeys.idempotency k))) s (.known v) []
  | draw {t l} {id : Uuid} : t.creates → Permits env t l .uuid → id.text ∉ s.ids →
      id.text ≠ "" →
      Effect env s t l .uuid (.ok id) { s with ids := insert id.text s.ids } (.drawn id) []
  | insert {t id row pg} : t.creates → row.id = id → row.status.initial →
      row.idempotencyKey = t.rowKey → s.pg.insert s.clock row = .ok pg →
      Effect env s t (.drawn id) (.insert row) (.ok ()) { s with pg := pg } (.rowed id) []
  | insertFails {t id row e} : t.creates → row.id = id → row.idempotencyKey = t.rowKey →
      s.pg.insert s.clock row = .error e →
      Effect env s t (.drawn id) (.insert row) (.error e) s .broken []
  | publishReady {t id q p f} : t.creates → f.id = some id → f.queueName = some q →
      f.priority = some p →
      Effect env s t (.rowed id)
        (.multi [.sadd redisKeys.queueRegistry q, .hset (redisKeys.job id) f,
          .lpush (targetList q p) id]) (.ok ())
        ((s.register id q f).push (targetList q p) id) (t.published id) []
  | publishDelayed {t id q f score} : t.creates → f.id = some id → f.queueName = some q →
      Effect env s t (.rowed id)
        (.multi [.sadd redisKeys.queueRegistry q, .hset (redisKeys.job id) f,
          .zadd (redisKeys.delayed q) score id]) (.ok ())
        ((s.register id q f).setDelayed q ((s.redis.zsets (redisKeys.delayed q)).zadd score id))
        (t.published id) []
  | remember {n p o id k} : truthy o.idempotencyKey = some k →
      Effect env s (.enqueue n p o) (.published id)
        (.write (.set (redisKeys.idempotency k) id (some 86400))) (.ok ())
        (s.setString (redisKeys.idempotency k) id 86400) (.known id) []
  -- the scheduler
  | readDue {now : ℕ} {q l} : l = .clocked now ∨ (∃ q', l = .due now q' []) →
      Effect env s .tick l (.zrangebyscore (redisKeys.delayed q) (some (now : ℚ)))
        (.ok ((s.redis.zsets (redisKeys.delayed q)).rangeByScore (some now))) s
        (.due now q ((s.redis.zsets (redisKeys.delayed q)).rangeByScore (some now))) []
  | claimDue {now q j todo} : j ∈ s.redis.zsets (redisKeys.delayed q) →
      Effect env s .tick (.due now q (j :: todo)) (.zrem (redisKeys.delayed q) j) (.ok 1)
        (s.setDelayed q ((s.redis.zsets (redisKeys.delayed q)).zrem j))
        (.inHand now q j none todo) []
  | missDue {now q j todo} : j ∉ s.redis.zsets (redisKeys.delayed q) →
      Effect env s .tick (.due now q (j :: todo)) (.zrem (redisKeys.delayed q) j) (.ok 0) s
        (.due now q todo) []
  | readPriority {now q j todo} :
      Effect env s .tick (.inHand now q j none todo) (.hgetPriority (redisKeys.job j))
        (.ok (s.redis.jobs (redisKeys.job j)).priority) s
        (.inHand now q j
          (some (targetList q ((s.redis.jobs (redisKeys.job j)).priority.getD "normal"))) todo) []
  | promote {now q j k todo} :
      Effect env s .tick (.inHand now q j (some k) todo) (.write (.lpush k j)) (.ok ())
        (s.push k j) (.due now q todo) []
  | cronFails {t l e err} : t.onCron → l.free →
      Effect env s t l (.cronNext e) (.error err) s .broken []
  -- the pull loop
  | pull {w x v c r} :
      c = .rpoplpush (.queue x) (redisKeys.processing w) ∨
        c = .blmove (.queue x) (redisKeys.processing w) →
      (s.redis.lists (.queue x)).getLast? = some v → c.pulled r = some (.queue x, v) →
      Effect env s (.loop w) .idle c r
        ((s.setList (.queue x) (s.redis.lists (.queue x)).dropLast).push (redisKeys.processing w) v)
        ((truthy (some v)).elim .idle .pulled) []
  | pullNothing {w x c r} :
      c = .rpoplpush (.queue x) (redisKeys.processing w) ∨
        c = .blmove (.queue x) (redisKeys.processing w) →
      Effect env s (.loop w) .idle c r s .idle []
  | dispatch {w j} :
      Effect env s (.loop w) (.pulled j) (.onWorker w (.dispatch j)) (.ok (s.workers w).calls)
        (s.setWorker w
          { s.workers w with
            calls := (s.workers w).calls + 1
            activeJobs := insert (s.workers w).calls (s.workers w).activeJobs })
        .idle [.processOne w (s.workers w).calls j]
  | loopAgain {w} :
      Effect env s (.loop w) .idle (.onWorker w .loopAgain) (.ok ()) s .ended [.loop w]
  | loopExit {w} :
      Effect env s (.loop w) .idle (.onWorker w .loopExit) (.ok ())
        (s.setWorker w { s.workers w with exited := true }) .ended []
  -- one `processOne` call
  | readJob {w n j l} : l = .dispatched ∨ (∃ h, l = .claimed h) →
      Effect env s (.processOne w n j) l (.hgetall (redisKeys.job j))
        (.ok (s.redis.jobs (redisKeys.job j))) s (.claimed (s.redis.jobs (redisKeys.job j))) []
  | pushBack {w n j h} :
      Effect env s (.processOne w n j) (.claimed h)
        (.multi [.lrem (redisKeys.processing w) 1 j,
          .lpush (targetList (h.queueName.getD (env.queue w)) (h.priority.getD "normal")) j])
        (.ok ())
        ((s.setList (redisKeys.processing w)
            ((s.redis.lists (redisKeys.processing w)).erase j)).push
          (targetList (h.queueName.getD (env.queue w)) (h.priority.getD "normal")) j)
        .released []
  | mark {w n j h p} : p.provisional →
      Effect env s (.processOne w n j) (.claimed h) (.update j p) (.ok ())
        (s.updateRow j p) (.claimed h) []
  | complete {w n j h p} : p.status = .completed →
      Effect env s (.processOne w n j) (.claimed h) (.update j p) (.ok ())
        (s.updateRow j p) .handed []
  | retry {w n j h score} :
      Effect env s (.processOne w n j) (.claimed h)
        (.write (.zadd (redisKeys.delayed (h.queueName.getD "default")) score j)) (.ok ())
        (s.setDelayed (h.queueName.getD "default")
          ((s.redis.zsets (redisKeys.delayed (h.queueName.getD "default"))).zadd score j))
        .handed []
  | bury {w n j h} :
      Effect env s (.processOne w n j) (.claimed h)
        (.write (.lpush (redisKeys.dlq (h.queueName.getD "default")) j)) (.ok ())
        (s.push (redisKeys.dlq (h.queueName.getD "default")) j) .handed []
  | ack {w n j} :
      Effect env s (.processOne w n j) .handed (.write (.lrem (redisKeys.processing w) 1 j))
        (.ok ()) (s.setList (redisKeys.processing w)
          ((s.redis.lists (redisKeys.processing w)).erase j)) .released []
  | brokenMark {w n j p} : p.provisional →
      Effect env s (.processOne w n j) .broken (.update j p) (.ok ()) (s.updateRow j p) .broken []
  | brokenRetry {w n j q score} :
      Effect env s (.processOne w n j) .broken (.write (.zadd (redisKeys.delayed q) score j))
        (.ok ()) (s.setDelayed q ((s.redis.zsets (redisKeys.delayed q)).zadd score j)) .broken []
  | brokenBury {w n j q} :
      Effect env s (.processOne w n j) .broken (.write (.lpush (redisKeys.dlq q) j)) (.ok ())
        (s.push (redisKeys.dlq q) j) .broken []
  | brokenAck {w n j} :
      Effect env s (.processOne w n j) .broken (.write (.lrem (redisKeys.processing w) 1 j))
        (.ok ()) (s.setList (redisKeys.processing w)
          ((s.redis.lists (redisKeys.processing w)).erase j)) .broken []
  | handler {w n j l name v a r} :
      Effect env s (.processOne w n j) l (.handler name v a) r s l []
  | settle {w n j l} :
      Effect env s (.processOne w n j) l (.onWorker w (.settle n)) (.ok ())
        (s.setWorker w { s.workers w with activeJobs := (s.workers w).activeJobs.erase n })
        l.settled []
  -- start, heartbeat, stop
  | inert {t l w op a obj} : t.host = some w → op.inert →
      obj.running = (s.workers w).running → obj.calls = (s.workers w).calls →
      obj.activeJobs = (s.workers w).activeJobs → obj.launched = (s.workers w).launched →
      obj.exited = (s.workers w).exited →
      Effect env s t l (.onWorker w op) (.ok a) (s.setWorker w obj) l []
  | timerFires {w} : (s.workers w).timer = true →
      Effect env s (.heartbeat w) .idle (.onWorker w .timerFires) (.ok ()) s .beating []
  | begin {w} : (s.workers w).running = false →
      Effect env s (.start w) .idle (.onWorker w .begin) (.ok ())
        (s.setWorker w { s.workers w with running := true, stopRequested := false }) .begun []
  | beginFails {w e} : (s.workers w).running = true →
      Effect env s (.start w) .idle (.onWorker w .begin) (.error e) s .broken []
  | register {w} :
      Effect env s (.start w) .begun (.write (.sadd redisKeys.workerRegistry w)) (.ok ())
        (s.setSet redisKeys.workerRegistry (insert w (s.redis.sets redisKeys.workerRegistry)))
        .registered []
  | firstBeat {w v} :
      Effect env s (.start w) .registered (.write (.set (redisKeys.heartbeat w) v (some 15)))
        (.ok ()) (s.setString (redisKeys.heartbeat w) v 15) .beating []
  | launch {w} :
      Effect env s (.start w) .beating (.onWorker w .launch) (.ok ())
        (s.setWorker w { s.workers w with launched := true, exited := false }) .ended [.loop w]
  | beat {w v} :
      Effect env s (.heartbeat w) .beating (.write (.set (redisKeys.heartbeat w) v (some 15)))
        (.ok ()) (s.setString (redisKeys.heartbeat w) v 15) .beating []
  | awaitLoop {w} : ((s.workers w).launched = true → (s.workers w).exited = true) →
      Effect env s (.stop w) .idle (.onWorker w .awaitLoop) (.ok ()) s .loopDone []
  | deregister {w} :
      Effect env s (.stop w) .loopDone (.write (.srem redisKeys.workerRegistry w)) (.ok ())
        (s.setSet redisKeys.workerRegistry ((s.redis.sets redisKeys.workerRegistry).erase w))
        .deregistered []
  | dropHeartbeat {w} :
      Effect env s (.stop w) .deregistered (.write (.del (redisKeys.heartbeat w))) (.ok ())
        (s.delete (redisKeys.heartbeat w)) .deregistered []
  | finish {w} :
      Effect env s (.stop w) .deregistered (.onWorker w .finish) (.ok ())
        (s.setWorker w { s.workers w with running := false }) .ended []
  -- the janitor
  | missing {w l} : ¬ s.beats w →
      Effect env s .janitor l (.existsKey (redisKeys.heartbeat w)) (.ok false) s (.found w) []
  | readOrphans {w} :
      Effect env s .janitor (.found w) (.lrange (redisKeys.processing w) 0 (-1))
        (.ok (s.redis.lists (redisKeys.processing w))) s
        (.recovering w (s.redis.lists (redisKeys.processing w))) []
  | readOrphan {w j todo} :
      Effect env s .janitor (.recovering w (j :: todo)) (.hgetall (redisKeys.job j))
        (.ok (s.redis.jobs (redisKeys.job j))) s
        (.routing w (targetList ((s.redis.jobs (redisKeys.job j)).queueName.getD "default")
          ((s.redis.jobs (redisKeys.job j)).priority.getD "normal")) j todo) []
  | pushOrphan {w k j todo} :
      Effect env s .janitor (.routing w k j todo) (.write (.lpush k j)) (.ok ()) (s.push k j)
        (.restored w j todo) []
  | resetRow {w j todo p} : p.status = .pending →
      Effect env s .janitor (.restored w j todo) (.update j p) (.ok ()) (s.updateRow j p)
        (.recovering w todo) []
  | dropList {w} :
      Effect env s .janitor (.recovering w []) (.write (.del (redisKeys.processing w))) (.ok ())
        (s.delete (redisKeys.processing w)) (.deleted w) []
  | unregister {w} :
      Effect env s .janitor (.deleted w) (.write (.srem redisKeys.workerRegistry w)) (.ok ())
        (s.setSet redisKeys.workerRegistry ((s.redis.sets redisKeys.workerRegistry).erase w))
        (.deleted w) []
  -- operator requests
  | selectJob {id row} : s.pg.select id = some row → Routes.retriable row = true →
      Effect env s (.retry id) .idle (.select id) (.ok (some row)) s
        (.resetting id row.queueName []) []
  | resetRetry {id q todo p} : p.status = .pending →
      Effect env s (.retry id) (.resetting id q todo) (.update id p) (.ok ()) (s.updateRow id p)
        (.resetting id q todo) []
  | readDlq {q b} :
      Effect env s (.requeue q b) .idle (.lrange (redisKeys.dlq q) 0 (-1))
        (.ok (s.redis.lists (redisKeys.dlq q))) s (.requeuing (s.redis.lists (redisKeys.dlq q))) []
  | resetRequeue {q b id todo p} : p.status = .pending →
      Effect env s (.requeue q b) (.requeuing (id :: todo)) (.update id p) (.ok ())
        (s.updateRow id p) (.resetting id q todo) []
  | lift {t id q todo n} : t.operator →
      Effect env s t (.resetting id q todo) (.write (.lrem (redisKeys.dlq q) n id)) (.ok ())
        (s.setList (redisKeys.dlq q) (removeFirst id n (s.redis.lists (redisKeys.dlq q))))
        (.lifted id q todo) []
  | readLifted {t id q todo} : t.operator →
      Effect env s t (.lifted id q todo) (.hgetall (redisKeys.job id))
        (.ok (s.redis.jobs (redisKeys.job id))) s
        (.placing id q (targetList q ((s.redis.jobs (redisKeys.job id)).priority.getD "normal"))
          todo) []
  | place {t id q k todo} : t.operator →
      Effect env s t (.placing id q k todo) (.write (.lpush k id)) (.ok ()) (s.push k id)
        (.requeuing todo) []

/-! ## The inversion lemma -/

section Inversion

variable {env : Env} {s s' : World} {t : Task} {l : Phase} {c : Cmd} {o : Oracle}
  {r : Except Err c.Resp}

/-- Work on a worker object that neither starts nor ends anything keeps what
matters of it. -/
theorem inert_object {w : WorkerId} {op : Local} {r : Except Err op.Resp} (h : op.inert)
    (ha : World.local? env s w o op = some (r, s')) :
    ∃ obj, s' = s.setWorker w obj ∧ obj.running = (s.workers w).running ∧
      obj.calls = (s.workers w).calls ∧ obj.activeJobs = (s.workers w).activeJobs ∧
      obj.launched = (s.workers w).launched ∧ obj.exited = (s.workers w).exited := by
  have hself : s = s.setWorker w (s.workers w) := by
    simp [World.setWorker]
  cases op <;> simp only [World.local?] at ha <;> (repeat' split at ha)
  all_goals first | exact h.elim | cases ha
  all_goals
    first
      | exact ⟨_, hself, rfl, rfl, rfl, rfl, rfl⟩
      | exact ⟨_, rfl, rfl, rfl, rfl, rfl, rfl⟩

/-- What `still` needs to know about a command that is not work on a worker
object. -/
theorem answer_workers (hc : ∀ w op, c ≠ .onWorker w op)
    (ha : World.answer env s o c = some (r, s')) : s'.workers = s.workers := by
  cases c with
  | onWorker w op => exact absurd rfl (hc w op)
  | write w =>
      cases ha
      rfl
  | _ =>
      simp only [World.answer] at ha
      repeat' split at ha
      all_goals first | (cases ha; rfl) | cases ha

/-- Pulling from a ready list: it is empty, or its tail moves. -/
theorem rpoplpush_cases (s : World) (x : String) (w : WorkerId) :
    s.redis.rpoplpush (.queue x) (redisKeys.processing w) = (none, s.redis) ∨
      ∃ v, (s.redis.lists (.queue x)).getLast? = some v ∧
        s.redis.rpoplpush (.queue x) (redisKeys.processing w) = (some v,
          ((s.setList (.queue x) (s.redis.lists (.queue x)).dropLast).push
            (redisKeys.processing w) v).redis) := by
  cases hv : (s.redis.lists (.queue x)).getLast? with
  | none => exact Or.inl (by simp [Redis.rpoplpush, hv])
  | some v => exact Or.inr ⟨v, rfl, by simp [Redis.rpoplpush, hv]⟩

/-- **Inversion lemma.**  A permitted command that is answered has one of the
listed effects. -/
theorem effect_of_answer (hp : Permits env t l c) (ha : World.answer env s o c = some (r, s')) :
    Effect env s t l c r s' (Phase.next t l c r) (forks t c r) := by
  -- what changes no state that an effect speaks of, and starts no task
  have still : ∀ a, r = .ok a → c.neutral → (∀ w op, c ≠ .onWorker w op) →
      Phase.next t l c r = l → forks t c r = [] →
      Effect env s t l c r s' (Phase.next t l c r) (forks t c r) := by
    rintro a rfl hn hw hl hf
    rw [hl, hf]
    exact .still hn (frame_answer hn ha) (answer_workers hw ha)
  cases hp with
  | quiet hq =>
      obtain ⟨a, rfl⟩ := hq.answer_ok ha
      have hf : forks t c (.ok a) = [] := by
        cases c <;> first | exact hq.elim | rfl
      have hw : ∀ w op, c ≠ .onWorker w op := by
        rintro w op rfl
        exact hq.elim
      rcases hq.next t l a with hl | ⟨rfl, rfl, hfree⟩
      · exact still a rfl hq.neutral hw hl hf
      · cases ha
        cases l <;> first | exact .clock hfree | exact hfree.elim
  | @lookup n p o' k hkey =>
      cases ha
      have hl : Phase.next (.enqueue n p o') .idle (.get (redisKeys.idempotency k))
          (.ok (s.redis.get s.clock (redisKeys.idempotency k))) =
          (truthy (s.redis.get s.clock (redisKeys.idempotency k))).elim .missed .known := rfl
      rw [hl]
      cases hv : truthy (s.redis.get s.clock (redisKeys.idempotency k)) with
      | none => exact .lookupMiss hkey hv
      | some v => exact .lookupHit hkey hv
  | uuidKeyless hkey =>
      obtain ⟨id, hid, hne, rfl, rfl⟩ := answer_uuid ha
      exact .draw trivial (.uuidKeyless hkey) hid hne
  | uuidMissed =>
      obtain ⟨id, hid, hne, rfl, rfl⟩ := answer_uuid ha
      exact .draw trivial .uuidMissed hid hne
  | uuidCron hfree =>
      obtain ⟨id, hid, hne, rfl, rfl⟩ := answer_uuid ha
      cases l <;> first | exact hfree.elim | exact .draw trivial (.uuidCron hfree) hid hne
  | insert hc hid hst hkey =>
      simp only [World.answer] at ha
      split at ha
      · rename_i pg hins
        cases ha
        cases t with
        | enqueue n p o => exact .insert hc hid hst hkey hins
        | tick => exact .insert hc hid hst hkey hins
        | _ => exact hc.elim
      · rename_i e hins
        cases ha
        cases t with
        | enqueue n p o => exact .insertFails hc hid hkey hins
        | tick => exact .insertFails hc hid hkey hins
        | _ => exact hc.elim
  | publishReady hc hid hq hpr =>
      cases ha
      cases t with
      | enqueue n p o => exact .publishReady hc hid hq hpr
      | tick => exact .publishReady hc hid hq hpr
      | _ => exact hc.elim
  | publishDelayed hc hid hq =>
      cases ha
      cases t with
      | enqueue n p o => exact .publishDelayed hc hid hq
      | tick => exact .publishDelayed hc hid hq
      | _ => exact hc.elim
  | remember hkey =>
      cases ha
      exact .remember hkey
  | readDue hl =>
      cases ha
      rcases hl with rfl | ⟨q', rfl⟩
      · exact .readDue (Or.inl rfl)
      · exact .readDue (Or.inr ⟨q', rfl⟩)
  -- the reply of ZREM tells whether this tick owns the job
  | @claimDue now q j todo =>
      cases ha
      rw [Redis.zrem_fst, Redis.zrem_snd]
      by_cases hj : j ∈ s.redis.zsets (redisKeys.delayed q)
      · rw [if_pos hj]
        exact .claimDue hj
      · rw [if_neg hj, SortedSet.zrem_of_not_mem hj, Function.update_eq_self]
        exact .missDue hj
  | readPriority =>
      cases ha
      exact .readPriority
  | promote =>
      cases ha
      exact .promote
  | cronClaim ht =>
      cases ha
      exact still _ rfl trivial (by simp) (Cmd.onCron.next (c := .zrem _ _) rfl ht l _) rfl
  | cronSchedule ht =>
      cases ha
      exact still _ rfl trivial (by simp)
        (Cmd.onCron.next (c := .write (.zadd _ _ _)) rfl ht l _) rfl
  | cronDelete ht =>
      cases ha
      exact still _ rfl trivial (by simp)
        (Cmd.onCron.next (c := .write (.del (.cronDef _))) trivial ht l _) rfl
  -- cron-parser may throw, in a tick as in `addJob`
  | @cronNext t l e ht hl =>
      simp only [World.answer] at ha
      split at ha
      · cases ha
        exact still _ rfl trivial (by simp) (Cmd.onCron.next (c := .cronNext _) trivial ht l _) rfl
      · cases ha
        cases t with
        | tick => exact .cronFails ht hl
        | addJob _ => exact .cronFails ht hl
        | removeJob _ => exact .cronFails ht hl
        | _ => exact ht.elim
  -- RPOPLPUSH and BLMOVE move the same entry, if there is one
  | @pull w p =>
      obtain ⟨x, hx⟩ := exists_targetList (env.queue w) p
      rw [hx] at ha ⊢
      cases ha
      rcases rpoplpush_cases s x w with hnone | ⟨v, hv, hsome⟩
      · rw [hnone]
        exact .pullNothing (Or.inl rfl)
      · rw [hsome]
        exact .pull (Or.inl rfl) hv rfl
  | @pullBlocking w =>
      cases ha
      rcases rpoplpush_cases s (env.queue w) w with hnone | ⟨v, hv, hsome⟩
      · rw [hnone]
        exact .pullNothing (Or.inr rfl)
      · rw [hsome]
        exact .pull (Or.inr rfl) hv rfl
  | dispatch =>
      cases ha
      exact .dispatch
  | loopAgain =>
      cases ha
      exact .loopAgain
  | loopExit =>
      cases ha
      exact .loopExit
  -- the handler has returned or thrown; the stores are as before
  | handler =>
      simp only [World.answer] at ha
      repeat' split at ha
      all_goals cases ha
      · cases l <;> exact .handler
      · exact .handler
  | readJob =>
      cases ha
      cases l with
      | dispatched => exact .readJob (Or.inl rfl)
      | claimed h => exact .readJob (Or.inr ⟨h, rfl⟩)
      | _ => exact .still trivial (.refl s) rfl
  | pushBack =>
      cases ha
      exact .pushBack
  -- both are updates of the row; only the one that completes ends the claim
  | @mark w n j h p hp =>
      cases ha
      have hl : Phase.next (.processOne w n j) (.claimed h) (.update j p) (.ok ()) = .claimed h :=
        if_neg hp.ne_completed
      rw [hl]
      exact .mark hp
  | @complete w n j h p hp =>
      cases ha
      have hl : Phase.next (.processOne w n j) (.claimed h) (.update j p) (.ok ()) = .handed :=
        if_pos hp
      rw [hl]
      exact .complete hp
  | retry =>
      cases ha
      exact .retry
  | bury =>
      cases ha
      exact .bury
  | ack =>
      cases ha
      exact .ack
  | brokenMark hp =>
      cases ha
      exact .brokenMark hp
  | brokenRetry =>
      cases ha
      exact .brokenRetry
  | brokenBury =>
      cases ha
      exact .brokenBury
  | brokenAck =>
      cases ha
      exact .brokenAck
  | settle =>
      cases ha
      cases l <;> exact .settle
  -- commands on the worker object; the drain timer is the one that moves a phase
  | @object t l w op hw hop =>
      obtain ⟨a, rfl⟩ := hop.answer_ok ha
      rw [hop.forks t (.ok a)]
      rcases hop.next t l a with hl | ⟨w', rfl, rfl, rfl, hl⟩
      · obtain ⟨obj, rfl, h₁, h₂, h₃, h₄, h₅⟩ := inert_object hop ha
        rw [hl]
        exact .inert hw hop h₁ h₂ h₃ h₄ h₅
      · cases hw
        simp only [World.answer, World.local?] at ha
        split at ha
        · rename_i htimer
          cases ha
          exact .timerFires htimer
        · cases ha
  | begin =>
      simp only [World.answer, World.local?] at ha
      split at ha
      · rename_i hrun
        cases ha
        exact .beginFails hrun
      · rename_i hrun
        cases ha
        exact .begin (by simpa using hrun)
  | register =>
      cases ha
      exact .register
  | firstBeat =>
      cases ha
      exact .firstBeat
  | launch =>
      cases ha
      exact .launch
  | beat =>
      cases ha
      exact .beat
  | awaitLoop =>
      simp only [World.answer, World.local?] at ha
      split at ha
      · rename_i hloop
        cases ha
        exact .awaitLoop hloop
      · cases ha
  | deregister =>
      cases ha
      exact .deregister
  | dropHeartbeat =>
      cases ha
      exact .dropHeartbeat
  | dropMeta =>
      cases ha
      exact still _ rfl trivial (by simp) rfl rfl
  | finish =>
      cases ha
      exact .finish
  -- a heartbeat that is there leads to the next worker of the list
  | @checkHeartbeat w l =>
      cases ha
      cases hv : (s.redis.get s.clock (redisKeys.heartbeat w)).isSome with
      | true =>
          have hl : Phase.next .janitor l (.existsKey (redisKeys.heartbeat w)) (.ok true) = l := by
            cases l <;> rfl
          rw [hl]
          exact .still trivial (.refl s) rfl
      | false =>
          have hl : Phase.next .janitor l (.existsKey (redisKeys.heartbeat w)) (.ok false) =
              .found w := by
            cases l <;> rfl
          rw [hl]
          exact .missing (by simp [World.beats, hv])
  | readOrphans =>
      cases ha
      rw [Redis.lrange_all]
      exact .readOrphans
  | readOrphan =>
      cases ha
      exact .readOrphan
  | pushOrphan =>
      cases ha
      exact .pushOrphan
  | resetRow hp =>
      cases ha
      exact .resetRow hp
  | dropList =>
      cases ha
      exact .dropList
  | unregister =>
      cases ha
      exact .unregister
  | dropDeadMeta =>
      cases ha
      exact still _ rfl trivial (by simp) rfl rfl
  -- no row is answered with 404, a row that cannot be retried with 400
  | @selectJob id =>
      cases ha
      cases hrow : s.pg.select id with
      | none => exact .still trivial (.refl s) rfl
      | some row =>
          have hl : Phase.next (.retry id) .idle (.select id) (.ok (some row)) =
              if Routes.retriable row then .resetting id row.queueName [] else .idle := rfl
          rw [hl]
          by_cases hr : Routes.retriable row = true
          · rw [if_pos hr]
            exact .selectJob hrow hr
          · rw [if_neg hr]
            exact .still trivial (.refl s) rfl
  | resetRetry hp =>
      cases ha
      exact .resetRetry hp
  | readDlq =>
      cases ha
      rw [Redis.lrange_all]
      exact .readDlq
  | resetRequeue hp =>
      cases ha
      exact .resetRequeue hp
  -- the retry and the requeue route share their last three commands
  | lift ht =>
      cases ha
      cases t with
      | retry _ => exact .lift ht
      | requeue _ _ => exact .lift ht
      | _ => exact ht.elim
  | readLifted ht =>
      cases ha
      cases t with
      | retry _ => exact .readLifted ht
      | requeue _ _ => exact .readLifted ht
      | _ => exact ht.elim
  | place ht =>
      cases ha
      cases t with
      | retry _ => exact .place ht
      | requeue _ _ => exact .place ht
      | _ => exact ht.elim

end Inversion

/-! ## What no effect does -/

section Frame

variable {env : Env} {s s' : World} {t : Task} {l l' : Phase} {c : Cmd} {r : Except Err c.Resp}
  {ts : List Task}

/-- The identity of a job is written only when its row is there and it is published. -/
theorem identity_of_effect (he : Effect env s t l c r s' l' ts) {j : JobId}
    (hj : l ≠ .rowed j) :
    (s'.redis.jobs (.job j)).SameIdentity (s.redis.jobs (.job j)) := by
  cases he with
  | still hn hf hw => exact hf.identity j
  | publishReady hc hid hq hpr | publishDelayed hc hid hq =>
      have hne : Key.job j ≠ Key.job _ := fun h => hj (by rw [Key.job.inj h])
      simpa [World.register, Function.update_of_ne hne] using JobHash.SameIdentity.refl _
  | dropHeartbeat | dropList => simpa [Write.apply] using JobHash.SameIdentity.refl _
  | _ => exact .refl _

/-- A push keeps what is in the lists. -/
theorem mem_push {k k' : Key} {v j : String} (hj : j ∈ s.redis.lists k') :
    j ∈ (s.push k v).redis.lists k' := by
  by_cases hk : k' = k
  · subst hk
    simpa using Or.inr hj
  · simpa [hk] using hj

/-- What is in a ready list stays there until it is pulled. -/
theorem ready_of_effect (he : Effect env s t l c r s' l' ts) {x : String} {j : JobId}
    (hj : j ∈ s.redis.lists (.queue x)) :
    j ∈ s'.redis.lists (.queue x) ∨ c.pulled r = some (.queue x, j) := by
  cases he with
  | still hn hf hw =>
      rw [hf.ready]
      exact Or.inl hj
  | publishReady hc hid hq hpr => exact Or.inl (mem_push hj)
  | promote => exact Or.inl (mem_push hj)
  | @pull w x' v c r hc hv hpulled =>
      by_cases hx : x = x'
      · subst hx
        by_cases hjv : v = j
        · rw [hpulled, hjv]
          exact Or.inr rfl
        · left
          obtain ⟨l, hl⟩ := List.getLast?_eq_some_iff.mp hv
          rw [hl] at hj
          have hjl : j ∈ l := by simpa [Ne.symm hjv] using hj
          simpa [hl] using hjl
      · left
        simpa [hx] using hj
  | pushBack => exact Or.inl (mem_push (by simpa using hj))
  | bury => exact Or.inl (mem_push hj)
  | ack => exact Or.inl (by simpa using hj)
  | brokenBury => exact Or.inl (mem_push hj)
  | brokenAck => exact Or.inl (by simpa using hj)
  | pushOrphan => exact Or.inl (mem_push hj)
  | lift ht => exact Or.inl (by simpa using hj)
  | place ht => exact Or.inl (mem_push hj)
  | dropHeartbeat | dropList => exact Or.inl (by simpa [Write.apply] using hj)
  | _ => exact Or.inl hj

/-- What a task is about to push goes to a ready list. -/
def Aimed : Task → Phase → Prop
  | .tick, .inHand _ _ _ (some k) _ | .janitor, .routing _ k _ _ => ∃ x, k = .queue x
  | _, .placing _ _ k _ => ∃ x, k = .queue x
  | _, _ => True

theorem aimed_start (t : Task) : Aimed t (Phase.start t) := by
  cases t with
  | requeue q b => rcases Phase.start_requeue q b with h | ⟨_, -, h⟩ <;> rw [h] <;> trivial
  | _ => trivial

theorem aimed_error {t : Task} {l : Phase} (ha : Aimed t l) (c : Cmd) :
    Aimed t (l.afterError t c) := by
  cases t with
  | processOne _ _ _ => cases c <;> first | exact ha | trivial
  | requeue _ _ => cases c <;> first | exact ha | (cases l <;> trivial)
  | _ => trivial

theorem aimed_of_effect (he : Effect env s t l c r s' l' ts) (ha : Aimed t l) : Aimed t l' := by
  cases he with
  | still _ _ _ | handler | inert _ _ => exact ha
  | draw hc _ _ _ | insert hc _ _ _ _ | insertFails hc _ _ _ | publishReady hc _ _ _
  | publishDelayed hc _ _ | cronFails hc _ => cases t <;> trivial
  | readPriority | readOrphan => exact exists_targetList _ _
  | readLifted ht => cases t <;> exact exists_targetList _ _
  | lift ht | place ht => cases t <;> trivial
  | @settle w n j l => cases l <;> exact ha
  | @pull w x v c r hc hv hpulled => cases truthy (some v) <;> trivial
  | _ => trivial

/-- Only the tasks of a worker, and a janitor that deletes it, change its processing
list. -/
theorem processing_of_effect (he : Effect env s t l c r s' l' ts) (ha : Aimed t l) {w : WorkerId}
    (hhost : t.host ≠ some w) (hdrop : c ≠ .write (.del (redisKeys.processing w))) :
    s'.redis.lists (.processing w) = s.redis.lists (.processing w) := by
  have hother : ∀ {w'}, some w' ≠ some w → Key.processing w ≠ Key.processing w' :=
    fun h h' => h (by rw [Key.processing.inj h'])
  cases he with
  | still hn hf hw => exact hf.processing w
  | @publishReady t id q p f hc hid hq hpr =>
      obtain ⟨x, hx⟩ := exists_targetList q p
      simp [World.register, hx]
  | promote | pushOrphan =>
      obtain ⟨x, rfl⟩ := ha
      simp
  | place ht =>
      cases t with
      | retry _ | requeue _ _ =>
          obtain ⟨x, rfl⟩ := ha
          simp
      | _ => exact ht.elim
  | lift ht => simp
  | pull hc hv hpulled => simp [Function.update_of_ne (hother hhost)]
  | ack | brokenAck => simp [Function.update_of_ne (hother hhost)]
  | bury | brokenBury => simp
  | @pushBack w' n j h =>
      obtain ⟨x, hx⟩ := exists_targetList (h.queueName.getD (env.queue w'))
        (h.priority.getD "normal")
      simp [hx, Function.update_of_ne (hother hhost)]
  | dropHeartbeat => simp [Write.apply]
  | @dropList w' =>
      have hne : Key.processing w ≠ Key.processing w' := fun h =>
        hdrop (by rw [Key.processing.inj h])
      simp [Write.apply, Function.update_of_ne hne]
  | _ => rfl

/-- No command takes a worker process down. -/
theorem down_of_effect (he : Effect env s t l c r s' l' ts) : s'.down = s.down := by
  cases he with
  | still hn hf hw => exact hf.down
  | _ => rfl

/-- A worker leaves the registry by `SREM` only. -/
theorem registered_of_effect (he : Effect env s t l c r s' l' ts) {w : WorkerId}
    (hw : w ∈ s.redis.sets .workers) :
    w ∈ s'.redis.sets .workers ∨ c = .write (.srem .workers w) := by
  cases he with
  | still hn hf hw' =>
      rw [hf.workers]
      exact Or.inl hw
  | register => exact Or.inl (by simp [hw])
  | @deregister w' | @unregister w' =>
      by_cases hww : w = w'
      · exact Or.inr (by rw [hww])
      · exact Or.inl (by simp [hww, hw])
  | publishReady _ _ _ _ | publishDelayed _ _ _ => exact Or.inl (by simpa [World.register] using hw)
  | dropHeartbeat | dropList => exact Or.inl (by simpa [Write.apply] using hw)
  | _ => exact Or.inl hw

/-- A heartbeat that is missing comes back by a task of its worker only. -/
theorem beats_of_effect (he : Effect env s t l c r s' l' ts) {w : WorkerId} (hb : s'.beats w) :
    s.beats w ∨ t.host = some w := by
  have other : ∀ {k v ex}, Key.heartbeat w ≠ k → (s.setString k v ex).beats w → s.beats w := by
    intro k v ex hk h
    simpa [World.beats, Redis.get, Function.update_of_ne hk] using h
  have gone : ∀ {k}, (s.delete k).beats w → s.beats w := by
    intro k h
    by_cases hk : Key.heartbeat w = k
    · subst hk
      simp [World.beats, Redis.get, Write.apply] at h
    · simpa [World.beats, Redis.get, Write.apply, Function.update_of_ne hk] using h
  cases he with
  | still hn hf hw =>
      left
      rwa [World.beats, hf.get_heartbeat] at hb
  | remember hkey => exact Or.inl (other (by simp) hb)
  | @firstBeat w' v | @beat w' v =>
      by_cases hww : w' = w
      · exact Or.inr (congrArg some hww)
      · exact Or.inl (other (fun h => hww (Key.heartbeat.inj h).symm) hb)
  | dropHeartbeat | dropList => exact Or.inl (gone hb)
  | _ => exact Or.inl hb

/-- Time brings no heartbeat back. -/
theorem beats_of_drift {d : Move} (hd : s.drift d = some s') {w : WorkerId} (hb : s'.beats w) :
    s.beats w := by
  cases d with
  | crash w' =>
      cases hd
      exact hb
  | pass ms =>
      cases hd
      exact Redis.get_earlier (Nat.le_add_right _ _) hb

/-- A crashed worker stays down. -/
theorem down_of_drift {d : Move} (hd : s.drift d = some s') {w : WorkerId}
    (hdown : s.down w = true) : s'.down w = true := by
  cases d with
  | pass ms =>
      cases hd
      exact hdown
  | crash w' =>
      cases hd
      by_cases hw : w = w'
      · rw [hw]
        exact Function.update_self ..
      · simpa [Function.update_of_ne hw] using hdown

/-- A row that is new has been inserted. -/
theorem row_of_effect (he : Effect env s t l c r s' l' ts) {j : JobId}
    (hj : (s'.pg.row? j).isSome) : (s.pg.row? j).isSome ∨ l = .drawn j := by
  have updated : ∀ {id p}, ((s.updateRow id p).pg.row? j).isSome → (s.pg.row? j).isSome := by
    intro id p h
    rw [Postgres.row?_update] at h
    split at h
    · simpa using h
    · exact h
  cases he with
  | still hn hf hw =>
      rw [hf.pg] at hj
      exact Or.inl hj
  | @insert t id row pg hc hid hst hkey hins =>
      obtain ⟨r, -, -, -, hrow⟩ := Postgres.row?_insert hins
      rw [hrow] at hj
      by_cases hji : j = row.id
      · exact Or.inr (by rw [hji, hid])
      · rw [if_neg hji] at hj
        exact Or.inl hj
  | mark _ | complete _ | brokenMark _ | resetRow _ | resetRetry _ | resetRequeue _ =>
      exact Or.inl (updated hj)
  | _ => exact Or.inl hj

/-- Uuids that have been drawn stay drawn. -/
theorem ids_of_effect (he : Effect env s t l c r s' l' ts) : s.ids ⊆ s'.ids := by
  cases he with
  | still hn hf hw => rw [hf.ids]
  | draw hc hp hid hne => exact Finset.subset_insert _ _
  | _ => exact subset_rfl

end Frame

end NexusQueue
