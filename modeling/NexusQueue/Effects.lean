/-
# What commands do to the world

Two facts about `World.exec` that every result about runs starts from.

* A command that executes is either rejected, and then nothing happens, or it is
  answered (`exec_cases`).
* Most commands leave alone everything that custody is about: `World.Frame`
  lists those parts of the world, `Cmd.neutral` names the commands, and
  `frame_answer` proves it.

What the other commands do is listed in the module `Transition`.
-/
import NexusQueue.Custody

namespace NexusQueue

variable {env : Env} {s s' : World} {t : Task} {c : Cmd} {o : Oracle} {r : Except Err c.Resp}

/-- The process of the task is not down. -/
def Task.up (t : Task) (s : World) : Prop := t.host.elim false s.down = false

/-- A task of a worker is up when its worker is. -/
theorem Task.up.not_down {w : WorkerId} (h : t.up s) (hw : t.host = some w) :
    s.down w = false := by
  simpa [Task.up, hw] using h

/-- An executed command is rejected without effect, or answered. -/
theorem exec_cases (h : World.exec env s t c o = some (r, s')) :
    t.up s ∧ ((∃ e, o.takes c = false ∧ c.faultable = true ∧ s' = s ∧ r = .error e) ∨
      (o.takes c = true ∧ World.answer env s o c = some (r, s'))) := by
  unfold World.exec at h
  split at h
  · cases h
  · rename_i hup
    refine ⟨by simpa [Task.up] using hup, ?_⟩
    -- a statement that spells no uuid goes to the table
    have hfaultable : c.unreadable = true → c.faultable = true := by
      intro hc
      cases c <;> first | rfl | cases hc
    cases o with
    | fault =>
        simp only [Option.ite_none_right_eq_some] at h
        obtain ⟨hf, heq⟩ := h
        cases heq
        exact Or.inl ⟨_, rfl, hf, rfl, rfl⟩
    | _ =>
        dsimp only at h
        split at h
        · rename_i hc
          cases h
          exact Or.inl ⟨_, by simp [Oracle.takes, hc], hfaultable hc, rfl, rfl⟩
        · rename_i hc
          exact Or.inr ⟨Oracle.takes_of_works rfl (by simpa using hc), h⟩

/-- Without a fault a command is answered, unless it spells no uuid. -/
theorem exec_answer (h : World.exec env s t c o = some (r, s')) (ho : o.works = true)
    (hc : c.unreadable = false) : World.answer env s o c = some (r, s') := by
  rcases (exec_cases h).2 with ⟨-, hno, -⟩ | ⟨-, ha⟩
  · rw [Oracle.takes_of_works ho hc] at hno
    cases hno
  · exact ha

/-- Commands take no time. -/
theorem answer_clock (h : World.answer env s o c = some (r, s')) : s'.clock = s.clock := by
  cases c with
  | onWorker w op =>
      cases op <;> simp only [World.answer, World.local?] at h <;> (repeat' split at h)
      all_goals first | (cases h; rfl) | cases h
  | write w =>
      cases h
      rfl
  | _ =>
      simp only [World.answer] at h
      repeat' split at h
      all_goals first | (cases h; rfl) | cases h

theorem exec_clock (h : World.exec env s t c o = some (r, s')) : s'.clock = s.clock := by
  rcases (exec_cases h).2 with ⟨-, -, -, rfl, -⟩ | ⟨-, ha⟩
  · rfl
  · exact answer_clock ha

/-! ## The frame of custody -/

/-- The identity fields of two hashes agree. -/
structure JobHash.SameIdentity (f g : JobHash) : Prop where
  id : f.id = g.id
  queueName : f.queueName = g.queueName
  jobName : f.jobName = g.jobName
  payload : f.payload = g.payload
  maxAttempts : f.maxAttempts = g.maxAttempts
  priority : f.priority = g.priority
  createdAt : f.createdAt = g.createdAt

theorem JobHash.SameIdentity.refl (f : JobHash) : f.SameIdentity f := by
  constructor <;> rfl

theorem JobHash.SameIdentity.symm {f g : JobHash} (h : f.SameIdentity g) : g.SameIdentity f := by
  obtain ⟨h₁, h₂, h₃, h₄, h₅, h₆, h₇⟩ := h
  exact ⟨h₁.symm, h₂.symm, h₃.symm, h₄.symm, h₅.symm, h₆.symm, h₇.symm⟩

theorem JobHash.SameIdentity.trans {f g h : JobHash} (h₁ : f.SameIdentity g)
    (h₂ : g.SameIdentity h) : f.SameIdentity h := by
  constructor
  · exact h₁.id.trans h₂.id
  · exact h₁.queueName.trans h₂.queueName
  · exact h₁.jobName.trans h₂.jobName
  · exact h₁.payload.trans h₂.payload
  · exact h₁.maxAttempts.trans h₂.maxAttempts
  · exact h₁.priority.trans h₂.priority
  · exact h₁.createdAt.trans h₂.createdAt

/-- Writing other fields keeps the identity. -/
theorem JobHash.keepsIdentity.merge {f : JobHash} (h : f.keepsIdentity) (g : JobHash) :
    (g.merge f).SameIdentity g := by
  obtain ⟨h₁, h₂, h₃, h₄, h₅, h₆, h₇⟩ := h
  constructor <;> simp [JobHash.merge, *]

namespace World

/-- Everything about jobs is the same in both worlds: the ready lists, the
processing lists and dead-letter queues, the delayed sets, the identity of every
job, the table and the uuids drawn. -/
structure JobFrame (s s' : World) : Prop where
  ready : ∀ x, s'.redis.lists (.queue x) = s.redis.lists (.queue x)
  processing : ∀ w, s'.redis.lists (.processing w) = s.redis.lists (.processing w)
  dlq : ∀ q, s'.redis.lists (.dlq q) = s.redis.lists (.dlq q)
  delayed : ∀ q, s'.redis.zsets (.delayed q) = s.redis.zsets (.delayed q)
  identity : ∀ j, (s'.redis.jobs (.job j)).SameIdentity (s.redis.jobs (.job j))
  pg : s'.pg = s.pg
  ids : s'.ids = s.ids

/-- Everything custody is about is the same in both worlds: the jobs, the
registries, the heartbeats and idempotency entries, the clock, and who is
down. -/
structure Frame (s s' : World) : Prop extends JobFrame s s' where
  queues : s'.redis.sets .queues = s.redis.sets .queues
  workers : s'.redis.sets .workers = s.redis.sets .workers
  heartbeat : ∀ w, s'.redis.strings (.heartbeat w) = s.redis.strings (.heartbeat w)
  idem : ∀ k, s'.redis.strings (.idem k) = s.redis.strings (.idem k)
  clock : s'.clock = s.clock
  down : s'.down = s.down

theorem JobFrame.refl (s : World) : s.JobFrame s := by
  constructor <;> first | rfl | exact fun _ => rfl | exact fun _ => JobHash.SameIdentity.refl _

theorem Frame.refl (s : World) : s.Frame s :=
  { JobFrame.refl s with
    queues := rfl, workers := rfl, heartbeat := fun _ => rfl, idem := fun _ => rfl, clock := rfl
    down := rfl }

/-- A live string key stays live. -/
theorem Frame.get_heartbeat (h : s.Frame s') (w : WorkerId) :
    s'.redis.get s'.clock (.heartbeat w) = s.redis.get s.clock (.heartbeat w) := by
  simp only [Redis.get, h.heartbeat, h.clock]

end World

/-- Commands that leave custody alone: reads, work on the worker object, writes
that keep the identity of a job, and writes of cron, rate-limit and worker
metadata keys. -/
def Cmd.neutral : Cmd → Prop
  | .write (.hset _ f) => f.keepsIdentity
  | .write (.hsetCron _ _) | .write (.hsetRate _ _) | .write (.hsetMeta _ _) => True
  | .write (.zadd .cronSchedule _ _) | .zrem .cronSchedule _ => True
  | .write (.del (.cronDef _)) | .write (.del (.worker _)) => True
  | .smembers _ | .zrangebyscore _ _ | .hgetall _ | .hgetPriority _ | .hgetallCron _
  | .hgetallRate _ | .get _ | .existsKey _ | .lrange _ _ _ | .publish _ | .select _ | .now
  | .sleep _ | .cronNext _ | .handler _ _ _ | .onWorker _ _ => True
  | _ => False

/-- Quiet commands are neutral. -/
theorem Cmd.quiet.neutral (h : c.quiet) : c.neutral := by
  cases c with
  | write w => cases w <;> first | exact h | cases h
  | _ => trivial

/-- Without a fault a quiet command succeeds. -/
theorem Cmd.quiet.answer_ok (h : c.quiet) (ha : World.answer env s o c = some (r, s')) :
    ∃ a, r = .ok a := by
  cases c with
  | write w =>
      cases ha
      exact ⟨_, rfl⟩
  | smembers k =>
      simp only [World.answer] at ha
      repeat' split at ha
      all_goals cases ha
      exact ⟨_, rfl⟩
  | zrangebyscore _ _ | hgetallCron _ | hgetallRate _ | publish _ | now | sleep _ =>
      cases ha
      exact ⟨_, rfl⟩
  | _ => exact h.elim

/-- A quiet command leaves a task in its phase, unless it is the clock reading of a
scheduler that holds nothing. -/
theorem Cmd.quiet.next (h : c.quiet) (t : Task) (l : Phase) (a : c.Resp) :
    Phase.next t l c (.ok a) = l ∨ c = .now ∧ t = .tick ∧ l.free := by
  cases c with
  | write w =>
      cases w with
      | hset k f => cases t <;> cases l <;> exact Or.inl rfl
      | hsetCron k f => cases t <;> cases l <;> exact Or.inl rfl
      | hsetRate k f => cases t <;> cases l <;> exact Or.inl rfl
      | hsetMeta k f => cases t <;> cases l <;> exact Or.inl rfl
      | _ => exact h.elim
  | zrangebyscore k m =>
      cases h
      cases t <;> cases l <;> exact Or.inl rfl
  | now =>
      cases t with
      | tick => cases l <;> first | exact Or.inl rfl | exact Or.inr ⟨rfl, rfl, trivial⟩
      | _ => cases l <;> exact Or.inl rfl
  | smembers _ | hgetallCron _ | hgetallRate _ | publish _ | sleep _ =>
      cases t <;> cases l <;> exact Or.inl rfl
  | _ => exact h.elim

/-- Inert work on a worker object never throws. -/
theorem Local.inert.answer_ok {w : WorkerId} {op : Local} {r : Except Err op.Resp} (h : op.inert)
    (ha : World.local? env s w o op = some (r, s')) : ∃ a, r = .ok a := by
  cases op <;> simp only [World.local?] at ha <;> (repeat' split at ha)
  all_goals first | exact h.elim | cases ha
  all_goals exact ⟨_, rfl⟩

/-- Inert work leaves a task in its phase, or begins a heartbeat write. -/
theorem Local.inert.next {w : WorkerId} {op : Local} (h : op.inert) (t : Task) (l : Phase)
    (a : op.Resp) :
    Phase.next t l (.onWorker w op) (.ok a) = l ∨ ∃ w', t = .heartbeat w' ∧ l = .idle ∧
      op = .timerFires ∧ Phase.next t l (.onWorker w op) (.ok a) = .beating := by
  cases t <;> cases l
  all_goals
    first
      | exact Or.inl rfl
      | cases op <;>
          first | exact h.elim | exact Or.inl rfl | exact Or.inr ⟨_, rfl, rfl, rfl, rfl⟩

/-- Inert work starts no task. -/
theorem Local.inert.forks {w : WorkerId} {op : Local} (h : op.inert) (t : Task)
    (r : Except Err op.Resp) : NexusQueue.forks t (.onWorker w op) r = [] := by
  cases op <;> first | exact h.elim | rfl

/-- A uuid is new. -/
theorem answer_uuid {r : Except Err Cmd.uuid.Resp}
    (h : World.answer env s o .uuid = some (r, s')) :
    ∃ id : Uuid, id.text ∉ s.ids ∧ id.text ≠ "" ∧ r = .ok id ∧
      s' = { s with ids := insert id.text s.ids } := by
  simp only [World.answer] at h
  split at h
  · rename_i id
    split at h
    · cases h
    · rename_i hid
      cases h
      exact ⟨id, hid, Uuid.text_ne_blank id, rfl, rfl⟩
  · cases h

/-- Work on a worker object changes that object only. -/
theorem local?_spec {w : WorkerId} {op : Local} {r : Except Err op.Resp}
    (h : World.local? env s w o op = some (r, s')) : ∃ obj, s' = s.setWorker w obj := by
  have hself : s = s.setWorker w (s.workers w) := by
    simp [World.setWorker]
  cases op <;> simp only [World.local?] at h <;> (repeat' split at h)
  all_goals cases h
  all_goals first | exact ⟨_, hself⟩ | exact ⟨_, rfl⟩

theorem answer_onWorker {w : WorkerId} {op : Local} {r : Except Err (Cmd.onWorker w op).Resp}
    (h : World.answer env s o (.onWorker w op) = some (r, s')) : ∃ obj, s' = s.setWorker w obj :=
  local?_spec (s := s) (r := r) h

/-- Writes that keep the frame. -/
theorem frame_write {w : Write} (hc : (Cmd.write w).neutral) (s : World) :
    s.Frame { s with redis := w.apply s.clock s.redis } := by
  cases w with
  | hset k f =>
      refine { World.Frame.refl s with identity := fun j => ?_ }
      by_cases hk : Key.job j = k
      · subst hk
        simpa [Write.apply] using JobHash.keepsIdentity.merge hc _
      · simpa [Write.apply, Function.update_of_ne hk] using JobHash.SameIdentity.refl _
  | hsetCron k f => exact { World.Frame.refl s with }
  | hsetRate k f => exact { World.Frame.refl s with }
  | hsetMeta k f => exact { World.Frame.refl s with }
  | zadd k score m =>
      cases k with
      | cronSchedule => exact { World.Frame.refl s with delayed := fun q => by simp [Write.apply] }
      | _ => cases hc
  | del k =>
      cases k with
      | cronDef c =>
          constructor
          · constructor <;> simp [Write.apply, JobHash.SameIdentity.refl]
          all_goals simp [Write.apply]
      | worker w =>
          constructor
          · constructor <;> simp [Write.apply, JobHash.SameIdentity.refl]
          all_goals simp [Write.apply]
      | _ => cases hc
  | _ => cases hc

/-- **Neutral commands keep the frame.** -/
theorem frame_answer (hc : c.neutral) (ha : World.answer env s o c = some (r, s')) :
    s.Frame s' := by
  cases c with
  | write w =>
      cases ha
      exact frame_write hc s
  | zrem k m =>
      cases k with
      | cronSchedule =>
          cases ha
          constructor
          · constructor <;> simp [JobHash.SameIdentity.refl]
          all_goals simp
      | _ => cases hc
  | onWorker w op =>
      obtain ⟨obj, rfl⟩ := local?_spec ha
      exact { World.Frame.refl s with }
  | _ =>
      first
        | exact hc.elim
        | (simp only [World.answer] at ha
           repeat' split at ha
           all_goals first | (cases ha; exact World.Frame.refl _) | cases ha)

/-! ## Definitions of recurring jobs -/

/-- What a permitted command does to the definitions: nothing, store fields of one, or
delete one. -/
inductive World.Defines (s : World) : Cmd → World → Prop
  | keep {cmd s'} : (∀ i, s'.redis.crons (redisKeys.cronDef i) =
      s.redis.crons (redisKeys.cronDef i)) → (∀ k f, cmd ≠ .write (.hsetCron k f)) → s.Defines cmd s'
  | store {k f s'} : s'.redis.crons =
      Function.update s.redis.crons k ((s.redis.crons k).merge f) →
      s.Defines (.write (.hsetCron k f)) s'
  | delete {i s'} : s'.redis.crons = Function.update s.redis.crons (redisKeys.cronDef i) {} →
      s.Defines (.write (.del (redisKeys.cronDef i))) s'

theorem defines_of_answer {l : Phase} (hp : Permits env t l c)
    (ha : World.answer env s o c = some (r, s')) : s.Defines c s' := by
  cases hp with
  | quiet hq =>
      cases c with
      | write w =>
          cases ha
          cases w with
          | hsetCron k f => exact .store rfl
          | hset k f | hsetRate k f | hsetMeta k f => exact .keep (fun _ => rfl) (by simp)
          | _ => exact hq.elim
      | smembers k =>
          simp only [World.answer] at ha
          repeat' split at ha
          all_goals cases ha
          exact .keep (fun _ => rfl) (by simp)
      | zrangebyscore _ _ | hgetallCron _ | hgetallRate _ | publish _ | now | sleep _ =>
          cases ha
          exact .keep (fun _ => rfl) (by simp)
      | _ => exact hq.elim
  | cronDelete ht =>
      cases ha
      exact .delete rfl
  | cronClaim | claimDue =>
      cases ha
      exact .keep (fun i => by rw [Redis.zrem_snd]) (by simp)
  | object | dispatch | loopAgain | loopExit | settle | begin | launch | awaitLoop | finish =>
      obtain ⟨obj, rfl⟩ := answer_onWorker ha
      exact .keep (fun _ => rfl) (by simp)
  | uuidKeyless | uuidMissed | uuidCron =>
      obtain ⟨id, -, -, -, rfl⟩ := answer_uuid ha
      exact .keep (fun _ => rfl) (by simp)
  | insert _ _ _ _ =>
      simp only [World.answer] at ha
      split at ha <;> cases ha <;> exact .keep (fun _ => rfl) (by simp)
  | cronNext =>
      simp only [World.answer] at ha
      split at ha <;> cases ha <;> exact .keep (fun _ => rfl) (by simp)
  | handler =>
      simp only [World.answer] at ha
      repeat' split at ha
      all_goals cases ha
      all_goals exact .keep (fun _ => rfl) (by simp)
  | pull | pullBlocking =>
      cases ha
      refine .keep (fun i => ?_) (by simp)
      unfold Redis.rpoplpush
      split <;> rfl
  | _ =>
      cases ha
      exact .keep (fun i => by simp [Redis.multi, Write.apply]) (by simp)

end NexusQueue
