/-
# Recurring jobs follow their definitions

The definition of a recurring job and its next run are two keys, written by two
components: `addJob` stores the definition and then adds the entry, a scheduler removes
the entry, reads the definition and adds the entry again.  A scheduler that has read a
definition which is then replaced puts back an entry of the old one.

What a process has in hand of a recurring job is an errand.  As long as an entry is only
added while some errand bears the expression that is stored now, the entry of a recurring
job is an occurrence of its stored expression as soon as nobody is at work on it.
-/
import NexusQueue.Firing
import NexusQueue.Repertoire

namespace NexusQueue

namespace Rescheduling

/-! ## Errands -/

/-- What a process has in hand of a recurring job: nothing; the next run of a definition
it has not stored yet; an entry it has removed; the expression it has read after that; an
entry that it will add, from an expression that it has read or stored. -/
inductive Errand where
  | off
  | quoted (cronId : CronId) (expression : String) (score : ℚ)
  | removed (cronId : CronId)
  | read (cronId : CronId) (expression : String)
  | priced (cronId : CronId) (expression : String) (score : ℚ)

namespace Errand

/-- The errand will add an entry for the job, by this expression or by whichever is
stored. -/
def bears : Errand → CronId → String → Bool
  | .removed c, cronId, _ => c = cronId
  | .read c x, cronId, e | .priced c x _, cronId, e => c = cronId ∧ x = e
  | _, _, _ => false

/-- The commands on definitions and schedule and those that may fail, and when a task may
issue them. -/
def permits (t : Task) : Errand → Cmd → Prop
  | l, .write (.hsetCron k f) => ∃ c e score, l = .quoted c e score ∧
      k = redisKeys.cronDef c ∧ f.cronExpression = some e
  | l, .write (.zadd .cronSchedule score c) => ∃ e, l = .priced c e score
  | _, .write (.del (.cronDef _)) => False
  | l, .zrem .cronSchedule _ => l = .off ∧ t = .tick
  | l, .hgetallCron k => ∃ c, l = .removed c ∧ k = redisKeys.cronDef c
  | l, .cronNext e => (∃ c, l = .read c e) ∨
      l = .off ∧ ∃ job, t = .addJob job ∧ job.cronExpression = e
  | l, .insert _ => l = .off
  | _, .handler _ _ _ | _, .onWorker _ _ => False
  | _, _ => True

/-- An errand after an answer. -/
def afterOk (t : Task) : Errand → (c : Cmd) → c.Resp → Errand
  | .off, .cronNext e, score => match t with
      | .addJob job => .quoted job.cronId e score
      | _ => .off
  | .quoted c e score, .write (.hsetCron _ _), _ => .priced c e score
  | .off, .zrem .cronSchedule c, n => if n = 0 then .off else .removed c
  | .removed c, .hgetallCron _, defRaw => (truthy defRaw.cronExpression).elim .off (.read c)
  | .read c e, .cronNext _, score => .priced c e score
  | .priced _ _ _, .write (.zadd .cronSchedule _ _), _ => .off
  | l, _, _ => l

end Errand

/-- The protocol of errands; a rejection ends an errand. -/
def errands : Protocol Task Cmd Cmd.Resp Err Errand where
  start _ := .off
  permits t l c := l.permits t c
  next t l c
    | .ok a => l.afterOk t c a
    | .error _ => .off

/-- The tasks on recurring jobs: a scheduler, and `addJob` with an expression. -/
def Recurs : Task → Prop
  | .tick => True
  | .addJob job => job.cronExpression ≠ ""
  | _ => False

instance : (t : Task) → Decidable (Recurs t)
  | .tick => .isTrue trivial
  | .addJob job => inferInstanceAs (Decidable (job.cronExpression ≠ ""))
  | .enqueue _ _ _ | .start _ | .loop _ | .processOne _ _ _ | .stop _ | .heartbeat _
  | .janitor | .removeJob _ | .retry _ | .requeue _ _ => .isFalse id

section Conduct

/-- A command that concerns no recurring job. -/
def Apart (t : Task) (c : Cmd) : Prop :=
  errands.permits t .off c ∧ ∀ r, errands.next t .off c r = .off

/-- A program of such commands runs no errand. -/
theorem follows_apart {t : Task} {α : Type} {p : Async α} (hp : p.Only (Apart t)) :
    Follows errands t .off p fun _ l => l = .off :=
  follows_only hp fun _ hc => hc

/-- A command that is permitted anywhere and read by no errand. -/
theorem apart_of {t : Task} {c : Cmd} (hp : Errand.permits t .off c)
    (hn : ∀ a, Errand.afterOk t .off c a = .off) : Apart t c := by
  refine ⟨hp, fun r => ?_⟩
  cases r with
  | ok a => exact hn a
  | error e => rfl

/-- Promotion is no errand. -/
theorem promoteDelayedJobs_apart : Scheduler.promoteDelayedJobs.Only (Apart .tick) := by
  refine Repertoire.promoteDelayedJobs_only.mono fun c hc => ?_
  cases c with
  | write w => cases w <;> first | exact hc.elim | exact apart_of trivial fun _ => rfl
  | zrangebyscore k max =>
      obtain ⟨q, rfl⟩ := hc
      exact apart_of trivial fun _ => rfl
  | zrem k m =>
      obtain ⟨q, rfl⟩ := hc
      exact apart_of trivial fun _ => rfl
  | smembers _ | now | hgetPriority _ => exact apart_of trivial fun _ => rfl
  | _ => exact hc.elim

/-- Nor is the job of an entry that has been added again. -/
theorem enqueueCronJob_apart (c : CronId) (d : CronHash) :
    (Scheduler.enqueueCronJob c d).Only (Apart .tick) := by
  unfold Scheduler.enqueueCronJob
  cases parsePayload d.payload with
  | error e => exact Prog.only_throw _
  | ok payload =>
      exact Prog.only_step (apart_of trivial fun _ => rfl) fun id =>
        Prog.only_step (apart_of trivial fun _ => rfl) fun nowIso =>
          Prog.only_step (apart_of rfl fun _ => rfl) fun _ =>
            Prog.only_perform (apart_of trivial fun _ => rfl)

/-- A scheduler removes an entry, reads the definition, and adds the entry again. -/
theorem fireCron_errands (c : CronId) :
    Follows errands .tick .off (Scheduler.fireCron c) fun _ l => l = .off := by
  refine follows_step ⟨rfl, rfl⟩ (fun removed => ?_) (fun _ => rfl)
  by_cases h : removed = 0
  · simp only [h, if_true]
    exact follows_pure rfl
  · have hnext : errands.next .tick .off (.zrem redisKeys.cronSchedule c) (.ok removed) =
        .removed c := if_neg h
    simp only [h, if_false, hnext]
    refine follows_step ⟨c, rfl, rfl⟩ (fun defRaw => ?_) (fun _ => rfl)
    change Follows errands .tick ((truthy defRaw.cronExpression).elim .off (.read c)) _ _
    cases truthy defRaw.cronExpression with
    | none => exact follows_pure rfl
    | some e =>
        refine follows_step (Or.inl ⟨c, rfl⟩) (fun nextMs => ?_) (fun _ => rfl)
        refine follows_step ⟨e, rfl⟩ (fun _ => ?_) (fun _ => rfl)
        exact follows_apart (enqueueCronJob_apart c defRaw)

/-- **Every scheduler and every registration keeps to its errands**, and has none left in
the end. -/
theorem errands_follows {env : Env} {t : Task} (ht : Recurs t) :
    Follows errands t (errands.start t) (body env t) fun _ l => l = .off := by
  cases t with
  | tick =>
      refine follows_bind (fun _ l => l = .off) ?_ (fun _ _ hl => follows_pure hl) (fun _ _ hl => hl)
      refine follows_bind _ (follows_apart promoteDelayedJobs_apart) ?_ (fun _ _ hl => hl)
      rintro _ _ rfl
      refine follows_step trivial (fun now => ?_) (fun _ => rfl)
      refine follows_step trivial (fun dueEntries => ?_) (fun _ => rfl)
      refine follows_forEach (fun _ l => l = .off) ?_ (fun _ hl => hl) dueEntries _ rfl
      rintro c todo _ rfl
      refine follows_mono (fireCron_errands c) ?_
      rintro (_ | _) l hl <;> exact hl
  | addJob job =>
      refine follows_bind (fun _ l => l = .off) ?_ (fun _ _ hl => follows_pure hl) (fun _ _ hl => hl)
      refine follows_step (Or.inr ⟨rfl, job, rfl, rfl⟩) (fun nextMs => ?_) (fun _ => rfl)
      refine follows_step ⟨_, _, _, rfl, rfl, rfl⟩ (fun _ => ?_) (fun _ => rfl)
      refine follows_perform ⟨_, rfl⟩ fun r => ?_
      cases r <;> rfl
  | _ => exact ht.elim

end Conduct

/-! ## Definitions and schedule -/

/-- The expression stored in the definition of a recurring job. -/
def expression? (s : World) (cronId : CronId) : Option String :=
  (s.redis.crons (redisKeys.cronDef cronId)).cronExpression

/-- What a permitted command does to the definitions: nothing, store fields of one, or
delete one. -/
inductive Definition (s : World) : Cmd → World → Prop
  | keep {c s'} : expression? s' = expression? s → (∀ k f, c ≠ .write (.hsetCron k f)) →
      Definition s c s'
  | store {k f s'} : s'.redis.crons =
      Function.update s.redis.crons k ((s.redis.crons k).merge f) →
      Definition s (.write (.hsetCron k f)) s'
  | delete {cronId s'} : Definition s (.write (.del (redisKeys.cronDef cronId))) s'

/-- The score is an occurrence of the expression. -/
def Occurrence (env : Env) (e : String) (score : ℚ) : Prop :=
  ∃ now, env.cronNext e now = some score

/-- Whether `cron-parser` accepts an expression does not depend on the time. -/
def Perennial (env : Env) : Prop :=
  ∀ e now now', (env.cronNext e now).isSome → (env.cronNext e now').isSome

/-- The entry of a recurring job is an occurrence of the expression. -/
def OnSchedule (env : Env) (s : World) (cronId : CronId) (e : String) : Prop :=
  ∃ score, (s.redis.zsets redisKeys.cronSchedule).score? cronId = some score ∧
    Occurrence env e score

/-- The tasks that concern one recurring job. -/
def Concerns (t : Task) (cronId : CronId) : Prop :=
  t = .tick ∨ ∃ job, t = .addJob job ∧ job.cronId = cronId

/-- What a process knows of its errand: it concerns the job, the expression can be
scheduled, and the score is an occurrence of it. -/
def Known (env : Env) (t : Task) : Errand → Prop
  | .off => True
  | .removed c => Concerns t c
  | .read c e => Concerns t c ∧ e ≠ "" ∧ ∃ score, Occurrence env e score
  | .quoted c e score | .priced c e score => Concerns t c ∧ e ≠ "" ∧ Occurrence env e score

/-- What errands count for: the job and the expression they will add an entry of. -/
def bearing (l : Errand) (x : CronId × String) : ℕ := (l.bears x.1 x.2).toNat

/-- Every stored expression can be scheduled, and either the entry is an occurrence of it
or some errand will add one. -/
def Attended (env : Env) (s : World) (g : CronId × String → ℕ) : Prop :=
  ∀ cronId e, expression? s cronId = some e → e ≠ "" ∧ (∃ score, Occurrence env e score) ∧
    (OnSchedule env s cronId e ∨ 0 < g (cronId, e))

/-- Rescheduling as a discipline over the custody protocol and the errands. -/
def rescheduling (env : Env) :
    Discipline (machine env) ((custody env).prod errands) (CronId × String → ℕ) where
  good t := Recurs t
  val _ l := bearing l.2
  emit _ _ _ _ := 0
  loc t l _ := Known env t l.2
  inv := Attended env
  allow s g _ _ cmd o := o.works ∧ ∀ x ∈ Firing.adds cmd, ∀ e, expression? s x.2 = some e →
    0 < g (x.2, e)
  post t r l := Concluded t r l.1 ∧ l.2 = .off

/-- The errand of a process. -/
abbrev errandOf (p : Process) : Errand := errands.phase p.task p.hist

/-- Recurring jobs are registered and fired, and no command is rejected. -/
def Registering (_ : State) : Action → Prop
  | .start t => Recurs t
  | .call _ o => o.works
  | _ => True

/-- Moreover an entry is only added while some errand bears the expression that is stored:
the one that adds it, or another one, which will add the entry again. -/
def KeptUp (c : State) : Action → Prop
  | .start t => Recurs t
  | .call i o => o.works ∧ ∀ x ∈ Firing.nextAdds c i, ∀ e ∈ expression? c.store x.2,
      ∃ p ∈ c.pool, (errandOf p).bears x.2 e
  | _ => True

instance (c : State) : (a : Action) → Decidable (Registering c a)
  | .start t => inferInstanceAs (Decidable (Recurs t))
  | .call _ o => inferInstanceAs (Decidable (o.works = true))
  | .halt _ | .drift _ => .isTrue trivial

instance (c : State) : (a : Action) → Decidable (KeptUp c a)
  | .start t => inferInstanceAs (Decidable (Recurs t))
  | .call i o => inferInstanceAs (Decidable (o.works = true ∧ ∀ x ∈ Firing.nextAdds c i,
      ∀ e ∈ expression? c.store x.2, ∃ p ∈ c.pool, (errandOf p).bears x.2 e = true))
  | .halt _ | .drift _ => .isTrue trivial

section Step

variable {env : Env} {s s' : World} {t : Task} {l : Phase} {d : Errand} {cmd : Cmd} {o : Oracle}
  {r : Except Err cmd.Resp}

theorem definition_of_answer (hp : Permits env t l cmd)
    (ha : World.answer env s o cmd = some (r, s')) : Definition s cmd s' := by
  cases defines_of_answer hp ha with
  | keep hold hset =>
      refine .keep (funext fun cronId => ?_) hset
      show (s'.redis.crons _).cronExpression = (s.redis.crons _).cronExpression
      rw [hold]
  | store h => exact .store h
  | delete h => exact .delete

/-- A store that works only rejects what it cannot use: an expression, or a row. -/
theorem answer_error {e : Err} (ha : World.answer env s o cmd = some (.error e, s')) :
    (∃ x, cmd = .cronNext x ∧ env.cronNext x s.clock = none) ∨ (∃ row, cmd = .insert row) ∨
      (∃ name v a, cmd = .handler name v a) ∨ ∃ w op, cmd = .onWorker w op := by
  cases cmd with
  | cronNext x =>
      simp only [World.answer] at ha
      split at ha
      · cases ha
      · rename_i hnone
        exact Or.inl ⟨x, rfl, hnone⟩
  | insert row => exact Or.inr (Or.inl ⟨row, rfl⟩)
  | handler name v a => exact Or.inr (Or.inr (Or.inl ⟨name, v, a, rfl⟩))
  | onWorker w op => exact Or.inr (Or.inr (Or.inr ⟨w, op, rfl⟩))
  | smembers k | uuid =>
      simp only [World.answer] at ha
      repeat' split at ha
      all_goals cases ha
  | _ => cases ha

/-- No errand is lost to a rejection. -/
theorem off_of_error (hvalid : Perennial env) {e : Err} (hk : Known env t d)
    (hp : d.permits t cmd) (ha : World.answer env s o cmd = some (.error e, s')) : d = .off := by
  rcases answer_error ha with ⟨x, rfl, hnone⟩ | ⟨row, rfl⟩ | ⟨_, _, _, rfl⟩ | ⟨_, _, rfl⟩
  · rcases hp with ⟨c, rfl⟩ | ⟨hoff, -⟩
    · obtain ⟨-, -, score, now, hnow⟩ := hk
      have hsome := hvalid x now s.clock (by rw [hnow]; rfl)
      rw [hnone] at hsome
      cases hsome
    · exact hoff
  · exact hp
  · exact hp.elim
  · exact hp.elim

/-- **Step lemma.**  What a process knows of its errand is true. -/
theorem Known.answer (ht : Recurs t) {F : CronId × String → ℕ}
    (hinv : Attended env s F) (hk : Known env t d) (hp : d.permits t cmd)
    (ha : World.answer env s o cmd = some (r, s')) : Known env t (errands.next t d cmd r) := by
  cases r with
  | error e => trivial
  | ok a =>
      change Known env t (d.afterOk t cmd a)
      unfold Errand.afterOk
      split
      · -- `addJob` has computed the next run
        rename_i e score
        split
        · rename_i job
          rcases hp with ⟨c, hc⟩ | ⟨-, job', hjob, rfl⟩
          · cases hc
          · cases hjob
            refine ⟨Or.inr ⟨job, rfl, rfl⟩, ht, s.clock, ?_⟩
            simp only [World.answer] at ha
            split at ha
            · rename_i hnow
              cases ha
              exact hnow
            · cases ha
        · trivial
      · exact hk
      · split
        · trivial
        · exact Or.inl hp.2
      · -- a scheduler has read the definition
        rename_i c k defRaw
        obtain ⟨c', hc', rfl⟩ := hp
        cases hc'
        cases ha
        change Known env t ((truthy (expression? s c)).elim .off (.read c))
        cases he : truthy (expression? s c) with
        | none => trivial
        | some e =>
            obtain ⟨hstored, -⟩ := Option.filter_eq_some_iff.mp he
            obtain ⟨hne, hocc, -⟩ := hinv c e hstored
            exact ⟨hk, hne, hocc⟩
      · rename_i c e x score
        rcases hp with ⟨c', hc'⟩ | ⟨hoff, -⟩
        · cases hc'
          refine ⟨hk.1, hk.2.1, s.clock, ?_⟩
          simp only [World.answer] at ha
          split at ha
          · rename_i hnow
            cases ha
            exact hnow
          · cases ha
        · cases hoff
      · trivial
      · exact hk

variable {g g' F : CronId × String → ℕ}

/-- An errand that bears an entry counts for it. -/
theorem bearing_pos {cronId : CronId} {e : String} (h : d.bears cronId e = true) :
    0 < bearing d (cronId, e) := by
  simp [bearing, h]

/-- While definition and entry of a job stay as they are, it is enough that nothing is
lost that bears it. -/
theorem Attended.same (h : Attended env s g) {cronId : CronId} {e : String}
    (hdef : expression? s' cronId = some e) (hold : expression? s' cronId = expression? s cronId)
    (hz : (s'.redis.zsets redisKeys.cronSchedule).score? cronId =
      (s.redis.zsets redisKeys.cronSchedule).score? cronId)
    (hg : 0 < g (cronId, e) → 0 < g' (cronId, e)) :
    e ≠ "" ∧ (∃ score, Occurrence env e score) ∧
      (OnSchedule env s' cronId e ∨ 0 < g' (cronId, e)) := by
  obtain ⟨hne, hocc, hatt⟩ := h cronId e (hold ▸ hdef)
  refine ⟨hne, hocc, hatt.imp (fun hs => ?_) hg⟩
  obtain ⟨score, hscore, ho⟩ := hs
  exact ⟨score, hz ▸ hscore, ho⟩

/-- A command that leaves definitions and schedule alone takes nothing away from an errand
that bears the stored expression. -/
theorem bears_of_keep (h : Attended env s g) {a : cmd.Resp} (hp : d.permits t cmd)
    (ha : World.answer env s o cmd = some (.ok a, s'))
    (hset : ∀ k f, cmd ≠ .write (.hsetCron k f))
    (hadd : ∀ score m, cmd ≠ .write (.zadd redisKeys.cronSchedule score m))
    {cronId : CronId} {e : String} (hdef : expression? s cronId = some e)
    (hb : d.bears cronId e = true) : (d.afterOk t cmd a).bears cronId e = true := by
  unfold Errand.afterOk
  split
  · cases hb
  · exact absurd rfl (hset _ _)
  · cases hb
  · -- the definition that a scheduler reads is the stored one
    rename_i c k defRaw
    obtain ⟨c', hc', rfl⟩ := hp
    cases hc'
    cases ha
    obtain rfl : c = cronId := of_decide_eq_true hb
    have htruthy : truthy (s.redis.crons (redisKeys.cronDef c)).cronExpression = some e := by
      change truthy (expression? s c) = some e
      rw [hdef, truthy_some (h c e hdef).1]
    rw [htruthy]
    simp [Errand.bears]
  · exact hb
  · exact absurd rfl (hadd _ _)
  · exact hb

/-- **Step lemma.**  Every recurring job stays attended to. -/
theorem Attended.answer (hvalid : Perennial env) (h : Attended env s (bearing d + F))
    (hk : Known env t d) (hp : errands.permits t d cmd)
    (hallow : ∀ x ∈ Firing.adds cmd, ∀ e, expression? s x.2 = some e →
      0 < (bearing d + F) (x.2, e))
    (hd : Definition s cmd s') (hs : Firing.Schedule s cmd r s')
    (ha : World.answer env s o cmd = some (r, s')) :
    Attended env s' (bearing (errands.next t d cmd r) + F) := by
  intro cronId e hdef
  cases r with
  | error err =>
      -- a rejection changes nothing and ends no errand
      obtain rfl := off_of_error hvalid hk hp ha
      cases hs with
      | keep hz hadd hrem =>
          cases hd with
          | keep hx hset => exact h.same hdef (by rw [hx]) (by rw [hz]) id
          | store hx => cases ha
          | delete => exact hp.elim
  | ok a =>
      cases hd with
      | delete => exact hp.elim
      | @store k f _ hx =>
          obtain ⟨c, x, score, rfl, rfl, hf⟩ := hp
          obtain ⟨-, hne, hocc⟩ := hk
          have hstored : ∀ c', expression? s' c' =
              if c' = c then some x else expression? s c' := by
            intro c'
            unfold expression?
            rw [hx, Function.update_apply]
            by_cases hc : c' = c
            · subst hc
              simp [CronHash.merge, hf]
            · simp [hc, redisKeys.cronDef]
          by_cases hc : cronId = c
          · subst hc
            rw [hstored, if_pos rfl] at hdef
            cases hdef
            refine ⟨hne, ⟨score, hocc⟩, Or.inr ?_⟩
            change 0 < bearing (.priced cronId e score) (cronId, e) + _
            have hpos : 0 < bearing (.priced cronId e score) (cronId, e) :=
              bearing_pos (by simp [Errand.bears])
            omega
          · refine h.same hdef (by rw [hstored, if_neg hc]) ?_ fun hpos => ?_
            · cases hs with
              | keep hz hadd hrem => rw [show redisKeys.cronSchedule = Key.cronSchedule from rfl, hz]
            · change 0 < 0 + F (cronId, e) at hpos
              change 0 < bearing (.priced c x score) (cronId, e) + F (cronId, e)
              omega
      | keep hx hset =>
          have hdef' : expression? s cronId = some e := by rw [← hx, hdef]
          cases hs with
          | keep hz hadd hrem =>
              refine h.same hdef (by rw [hx]) (by rw [hz]) fun hpos => ?_
              change 0 < bearing d (cronId, e) + F (cronId, e) at hpos
              change 0 < bearing (d.afterOk t cmd a) (cronId, e) + F (cronId, e)
              by_cases hb : d.bears cronId e = true
              · have hpos' := bearing_pos (bears_of_keep h hp ha hset hadd hdef' hb)
                omega
              · have hzero : bearing d (cronId, e) = 0 := by simp [bearing, hb]
                omega
          | @add score m _ hz =>
              obtain ⟨x, rfl⟩ := hp
              obtain ⟨-, -, hocc⟩ := hk
              by_cases hm : cronId = m
              · subst hm
                obtain ⟨hne, hsome, -⟩ := h cronId e hdef'
                refine ⟨hne, hsome, ?_⟩
                by_cases hxe : x = e
                · -- the entry is computed from the stored expression
                  subst hxe
                  refine Or.inl ⟨score, ?_, hocc⟩
                  rw [show redisKeys.cronSchedule = Key.cronSchedule from rfl, hz,
                    SortedSet.score?_zadd, if_pos rfl]
                · -- another errand bears the stored expression
                  have hpos := hallow (score, cronId) (List.mem_singleton_self _) e hdef'
                  have hzero : bearing (.priced cronId x score) (cronId, e) = 0 := by
                    simp [bearing, Errand.bears, hxe]
                  change 0 < bearing (.priced cronId x score) (cronId, e) + F (cronId, e) at hpos
                  right
                  change 0 < 0 + F (cronId, e)
                  omega
              · refine h.same hdef (by rw [hx]) ?_ fun hpos => ?_
                · rw [show redisKeys.cronSchedule = Key.cronSchedule from rfl, hz,
                    SortedSet.score?_zadd, if_neg hm]
                · have hzero : bearing (.priced m x score) (cronId, e) = 0 := by
                    simp [bearing, Errand.bears, Ne.symm hm]
                  change 0 < bearing (.priced m x score) (cronId, e) + F (cronId, e) at hpos
                  change 0 < 0 + F (cronId, e)
                  omega
          | @remove m _ hz =>
              obtain ⟨rfl, rfl⟩ := hp
              change e ≠ "" ∧ _ ∧ (OnSchedule env s' cronId e ∨
                0 < (bearing (if (if m ∈ s.redis.zsets .cronSchedule then 1 else 0) = 0 then
                  Errand.off else .removed m) + F) (cronId, e))
              by_cases hm : cronId = m
              · subst hm
                obtain ⟨hne, hsome, hatt⟩ := h cronId e hdef'
                refine ⟨hne, hsome, Or.inr ?_⟩
                by_cases hmem : cronId ∈ s.redis.zsets .cronSchedule
                · rw [if_pos hmem, if_neg one_ne_zero]
                  have hpos : 0 < bearing (.removed cronId) (cronId, e) :=
                    bearing_pos (by simp [Errand.bears])
                  exact Nat.add_pos_left hpos _
                · rw [if_neg hmem, if_pos rfl]
                  rcases hatt with ⟨score, hscore, -⟩ | hpos
                  · exact absurd ⟨score, hscore⟩ hmem
                  · exact hpos
              · refine h.same hdef (by rw [hx]) ?_ fun hpos => ?_
                · rw [show redisKeys.cronSchedule = Key.cronSchedule from rfl, hz,
                    SortedSet.score?_zrem, if_neg hm]
                · change 0 < 0 + F (cronId, e) at hpos
                  exact Nat.add_pos_right _ (by omega)

/-- The tasks on recurring jobs send no statement about a row by its id. -/
theorem readable_of_recurs {l : Phase} (ht : Recurs t) (hp : Permits env t l cmd) :
    cmd.unreadable = false := by
  cases cmd with
  | update id p => cases hp <;> contradiction
  | select id => cases hp <;> contradiction
  | _ => rfl

/-- **Rescheduling is a sound discipline** as long as the stored expression is borne. -/
theorem rescheduling_sound (hvalid : Perennial env) : (rescheduling env).Sound KeptUp where
  follows t ht := follows_prod (custody_follows t) (errands_follows ht)
  call s t l cmd o r s' F h := by
    -- neither a scheduler nor an operator starts a task
    have hnofork : (machine env).forks t cmd r = [] := by
      obtain ⟨-, hperm⟩ := h.permits
      have ht : Recurs t := h.good
      change forks t cmd r = []
      unfold forks
      split <;> first | exact hperm.elim | rfl
    obtain ⟨hp, hd⟩ := h.permits
    obtain ⟨ho, hallow⟩ := h.allow
    have ha : World.answer env s o cmd = some (r, s') :=
      exec_answer h.exec ho (readable_of_recurs h.good hp)
    have hinv := h.inv
    rw [hnofork]
    refine ⟨?_, ?_, fun t' ht' => by cases ht'⟩
    · change Attended env s' (bearing (errands.next t l.2 cmd r) + (0 + 0 + F))
      rw [zero_add, zero_add]
      exact Attended.answer hvalid hinv h.loc hd hallow (definition_of_answer hp ha)
        (Firing.schedule_of_answer hp ha) ha
    · exact Known.answer h.good hinv h.loc hd ha
  stable _ _ _ _ _ _ _ _ _ _ _ _ _ _ hk := hk
  start c t ht hc := by
    refine ⟨ht, ?_, trivial⟩
    have hnone : (rescheduling env).val t (((custody env).prod errands).start t) = 0 := by
      funext x
      rfl
    rw [hnone, zero_add]
    exact hc.1
  allows c i o p cmd k hok hc hp hprog := by
    refine ⟨hok.1, fun x hx e he => ?_⟩
    obtain ⟨q, hq, hb⟩ := hok.2 x (by simpa [Firing.nextAdds, nextCmd, hp, hprog]) e he
    rw [Discipline.total_apply]
    have hmem : (rescheduling env).val q.task (((custody env).prod errands).phase q.task q.hist)
        (x.2, e) ∈ c.pool.map fun p => (rescheduling env).val p.task
          (((custody env).prod errands).phase p.task p.hist) (x.2, e) :=
      List.mem_map_of_mem hq
    -- the process that bears the entry is one of the summands
    have hle := List.single_le_sum (by simp) _ hmem
    have hpos : 0 < (rescheduling env).val q.task
        (((custody env).prod errands).phase q.task q.hist) (x.2, e) := by
      rw [Protocol.prod_phase]
      exact bearing_pos hb
    omega
  drift c m s' _ hc hm := by
    -- time and crashes leave Redis alone
    have hkeep : s'.redis = c.store.redis := by
      cases m <;> cases hm <;> rfl
    refine ⟨fun cronId e hdef => ?_, fun t l _ hk => hk⟩
    have hold : expression? s' cronId = expression? c.store cronId := by
      unfold expression?
      rw [hkeep]
    exact hc.1.same hdef hold (by rw [hkeep]) id

end Step

section Result

variable {env : Env} {c : State}

/-- A process that bears an entry of a job is at work on that job. -/
theorem at_work_of_bears (hok : (rescheduling env).PoolOk c) {p : Process} (hp : p ∈ c.pool)
    {cronId : CronId} {e : String} (hb : (errandOf p).bears cronId e = true) :
    Concerns p.task cronId ∧ ¬ Ended p := by
  obtain ⟨-, hk, hfol⟩ := hok.2 p hp
  rw [Protocol.prod_phase] at hk hfol
  have hknown : Known env p.task (errandOf p) := hk
  constructor
  · cases hl : errandOf p with
    | removed c' =>
        rw [hl] at hknown hb
        obtain rfl : c' = cronId := of_decide_eq_true hb
        exact hknown
    | read c' x | priced c' x score =>
        rw [hl] at hknown hb
        obtain ⟨rfl, -⟩ : c' = cronId ∧ x = e := of_decide_eq_true hb
        exact hknown.1
    | _ =>
        rw [hl] at hb
        cases hb
  · intro hend
    have hoff : errandOf p = .off := by
      cases hprog : p.prog with
      | call cmd k => exact absurd hprog (hend cmd k)
      | ret a | raise x =>
          rw [hprog] at hfol
          exact hfol.2
    rw [hoff] at hb
    cases hb

/-- **Recurring jobs follow their definitions.**  In every run in which an entry is only
added while some errand bears the stored expression: a registered job that no scheduler and
no `addJob` is at work on has an entry, and its score is an occurrence of the expression
that is stored. -/
theorem on_schedule_of_kept_up (hvalid : Perennial env) (hc : (machine env).Reach KeptUp Blank c)
    (cronId : CronId) (hquiet : ∀ p ∈ c.pool, Concerns p.task cronId → Ended p) (e : String)
    (hdef : expression? c.store cronId = some e) : OnSchedule env c.store cronId e := by
  have hblank : ∀ c, Blank c → (rescheduling env).PoolOk c := by
    rintro c ⟨now, room, rfl⟩
    exact ⟨fun cronId e hdef => (by cases hdef), by simp⟩
  have hok := (rescheduling_sound hvalid).reach hblank hc
  obtain ⟨-, -, hs | hpos⟩ := hok.1 cronId e hdef
  · exact hs
  · exfalso
    rw [Discipline.total_apply] at hpos
    have hsum : (c.pool.map fun p => (rescheduling env).val p.task
        (((custody env).prod errands).phase p.task p.hist) (cronId, e)).sum = 0 := by
      refine List.sum_eq_zero fun n hn => ?_
      obtain ⟨p, hp, rfl⟩ := List.mem_map.mp hn
      rw [Protocol.prod_phase]
      change bearing (errandOf p) (cronId, e) = 0
      by_contra hne
      have hb : (errandOf p).bears cronId e = true := by
        by_contra hb
        exact hne (by simp [bearing, hb])
      obtain ⟨hconcerns, hend⟩ := at_work_of_bears hok hp hb
      exact hend (hquiet p hp hconcerns)
    have hcount : counted ((custody env).prod errands)
        (fun t l cmd r => (rescheduling env).emit t l cmd r (cronId, e)) c.pool = 0 := by
      change counted ((custody env).prod errands) (fun _ _ _ _ => 0) c.pool = 0
      simp [counted, Protocol.tally_zero]
    omega

/-- The next time thirty seconds past the minute, or the next full minute. -/
def nextMinute (e : String) (now : ℕ) : ℕ :=
  if e = "30 * * * * *" then (now + 30000) / 60000 * 60000 + 30000
  else (now / 60000 + 1) * 60000

/-- A deployment with these two expressions. -/
def minutes : Env := { sample with cronNext e now := some (nextMinute e now) }

theorem perennial_minutes : Perennial minutes := fun _ _ _ _ => rfl

/-- A registration that fires at every full minute. -/
def fullMinutes : Task :=
  .addJob { cronId := "c", jobName := "report", cronExpression := "0 * * * * *" }

/-- The same job, at thirty seconds past the minute. -/
def halfMinutes : Task :=
  .addJob { cronId := "c", jobName := "report", cronExpression := "30 * * * * *" }

/-- The theorem on a run in which a job is registered again with another expression while a
scheduler fires it: the scheduler has removed the entry and reads the new definition before
its entry is added. -/
theorem on_schedule_after_update :
    ∃ c, (machine minutes).Reach KeptUp Blank c ∧ (∀ p ∈ c.pool, Ended p) ∧
      expression? c.store "c" = some "30 * * * * *" ∧
      OnSchedule minutes c.store "c" "30 * * * * *" := by
  obtain ⟨c, hc, ht⟩ := Machine.exists_reach (machine minutes) KeptUp Blank blank_blank
    ([.start fullMinutes] ++ goes 0 3 ++ [.drift (.pass 60000), .start .tick,
      .call 1 (.members [])] ++ goes 1 4 ++ [.start halfMinutes] ++ goes 2 2 ++ goes 1 1 ++
      goes 2 1 ++ goes 1 2 ++ [.call 1 (.fresh j1)] ++ goes 1 3)
    (fun c => decide ((∀ p ∈ c.pool, Ended p) ∧ expression? c.store "c" = some "30 * * * * *"))
    (by decide +kernel)
  obtain ⟨hend, hdef⟩ := of_decide_eq_true ht
  exact ⟨c, hc, hend, hdef,
    on_schedule_of_kept_up perennial_minutes hc "c" (fun p hp _ => hend p hp) _ hdef⟩

/-- A scheduler has read the definition of a job when it is registered again; the
scheduler then puts the next run of the old expression in the place of the new one. -/
theorem update_lost :
    ∃ c, (machine minutes).Reach Registering Blank c ∧ (∀ p ∈ c.pool, Ended p) ∧
      expression? c.store "c" = some "30 * * * * *" ∧
      ¬ OnSchedule minutes c.store "c" "30 * * * * *" := by
  obtain ⟨c, hc, ht⟩ := Machine.exists_reach (machine minutes) Registering Blank blank_blank
    ([.start fullMinutes] ++ goes 0 3 ++ [.drift (.pass 60000), .start .tick,
      .call 1 (.members [])] ++ goes 1 5 ++ [.start halfMinutes] ++ goes 2 3 ++ goes 1 2 ++
      [.call 1 (.fresh j1)] ++ goes 1 3)
    (fun c => decide ((∀ p ∈ c.pool, Ended p) ∧ expression? c.store "c" = some "30 * * * * *" ∧
      (c.store.redis.zsets redisKeys.cronSchedule).score? "c" = some 120000))
    (by decide +kernel)
  obtain ⟨hend, hdef, hscore⟩ := of_decide_eq_true ht
  refine ⟨c, hc, hend, hdef, ?_⟩
  rintro ⟨score, hs, now, hnow⟩
  rw [hscore] at hs
  cases hs
  have hcast : ((nextMinute "30 * * * * *" now : ℕ) : ℚ) = ((120000 : ℕ) : ℚ) := by
    simpa [minutes] using hnow
  have hnat : (now + 30000) / 60000 * 60000 + 30000 = 120000 := by exact_mod_cast hcast
  omega

end Result

end Rescheduling

end NexusQueue
