/-
# Recurring jobs fire when they are due

A scheduler reads the due entries of the cron schedule once and then works the list
off: it removes an entry, adds it again for the next occurrence and enqueues a job.  In
between, another scheduler may have removed and added the same entry.

As long as no entry is put off in this way while a scheduler still has it on its list,
every entry a scheduler removes is due at its own clock reading, and the jobs enqueued
for a definition are at most its occurrences that have come due.

What a scheduler does with the cron schedule is a protocol of its own, the rota, beside
the custody protocol.
-/
import NexusQueue.Layers
import NexusQueue.Conduct
import NexusQueue.Transition

namespace NexusQueue

namespace Firing

/-! ## The rota -/

/-- Where a scheduler is in its work on the cron schedule: nowhere, with a clock
reading, working off a list of due entries, between the removal of an entry and the row
of its job, and between that row and its `MULTI`. -/
inductive Duty where
  | off
  | clocked (now : ℕ)
  | due (now : ℕ) (todo : List CronId)
  | fired (now : ℕ) (cronId : CronId) (todo : List CronId)
  | rowed (now : ℕ) (cronId : CronId) (todo : List CronId)
  deriving DecidableEq

namespace Duty

/-- The clock reading of a scheduler and what is left of its due list. -/
def list : Duty → Option (ℕ × List CronId)
  | .due now todo | .fired now _ todo | .rowed now _ todo => some (now, todo)
  | _ => none

/-- The commands of a scheduler that concern the cron schedule or create jobs, and
where it may issue them. -/
def permits : Duty → Cmd → Prop
  | l, .zrangebyscore .cronSchedule max => ∃ now : ℕ, l = .clocked now ∧ max = some (now : ℚ)
  | l, .zrem .cronSchedule c => ∃ now todo,
      l = .due now (c :: todo) ∨ ∃ c', l = .fired now c' (c :: todo)
  | l, .insert _ => ∃ now c todo, l = .fired now c todo
  | l, .multi _ => ∃ now c todo, l = .rowed now c todo
  | _, _ => True

/-- The reply to a `ZREM` decides who fires the entry. -/
def claim (now : ℕ) (c : CronId) (todo : List CronId) (removed : ℕ) : Duty :=
  if removed = 0 then .due now todo else .fired now c todo

/-- A scheduler after an answer. -/
def onTick : Duty → (c : Cmd) → c.Resp → Duty
  | .off, .now, now => .clocked now
  | .clocked _, .now, now => .clocked now
  | .clocked now, .zrangebyscore .cronSchedule _, todo => .due now todo
  | .due now todo, .zrem .cronSchedule c, removed => claim now c todo.tail removed
  | .fired now _ todo, .zrem .cronSchedule c, removed => claim now c todo.tail removed
  | .fired now c todo, .insert _, _ => .rowed now c todo
  | .rowed now _ todo, .multi _, _ => .due now todo
  | l, _, _ => l

end Duty

/-- The rota: a protocol of schedulers, which leaves all other tasks free. -/
def rota : Protocol Task Cmd Cmd.Resp Err Duty where
  start _ := .off
  permits t l c := match t with
    | .tick => l.permits c
    | _ => True
  next t l c r := match t, r with
    | .tick, .ok a => l.onTick c a
    | _, _ => .off

section Conduct

variable {env : Env} {l : Duty}

/-- Nothing of the cron schedule is on its way. -/
def Resting {α : Type} (_ : Except Err α) (l : Duty) : Prop :=
  l = .off ∨ ∃ now, l = .clocked now

/-- A due list is worked off up to `todo`, unless the scheduler has thrown. -/
def Left (now : ℕ) (todo : List CronId) {α : Type} : Except Err α → Duty → Prop
  | .ok _, l => l = .due now todo ∨ ∃ c, l = .fired now c todo
  | .error _, _ => True

/-- Promotion does not concern the rota. -/
theorem promoteDelayedJobs_rota :
    Follows rota .tick .off Scheduler.promoteDelayedJobs fun r l => r.isOk → Resting r l := by
  refine follows_step trivial (fun queues => ?_) (fun _ h => by cases h)
  refine follows_step trivial (fun now => ?_) (fun _ h => by cases h)
  refine follows_forEach (fun _ l => ∃ now, l = .clocked now) ?_ ?_ queues _ ⟨now, rfl⟩
  · rintro q queues _ ⟨now', rfl⟩
    refine follows_step trivial (fun dueJobs => ?_) (fun _ h => by cases h)
    refine follows_forEach (fun _ l => ∃ now, l = .clocked now) ?_ ?_ dueJobs _ ⟨now', rfl⟩
    · rintro j todo _ ⟨now', rfl⟩
      refine follows_step trivial (fun removed => ?_) (fun _ h => by cases h)
      by_cases h : removed = 0
      · simp only [h, if_true]
        exact follows_pure ⟨now', rfl⟩
      · simp only [h, if_false]
        refine follows_step trivial (fun priority => ?_) (fun _ h => by cases h)
        obtain ⟨x, hx⟩ := exists_targetList q (priority.getD "normal")
        refine follows_step trivial (fun _ => ?_) (fun _ h => by cases h)
        refine follows_perform trivial fun r => ?_
        cases r with
        | ok _ => exact ⟨now', rfl⟩
        | error _ => exact fun h => by cases h
    · rintro _ ⟨now', rfl⟩
      exact ⟨now', rfl⟩
  · rintro _ ⟨now', rfl⟩ -
    exact Or.inr ⟨now', rfl⟩

/-- The job of an entry that has been removed. -/
theorem enqueueCronJob_rota (now : ℕ) (c : CronId) (todo : List CronId) (d : CronHash) :
    Follows rota .tick (.fired now c todo) (Scheduler.enqueueCronJob c d) (Left now todo) := by
  unfold Scheduler.enqueueCronJob
  cases parsePayload d.payload with
  | error e => exact follows_throw trivial
  | ok payload =>
      refine follows_step trivial (fun id => ?_) (fun _ => trivial)
      refine follows_step trivial (fun nowIso => ?_) (fun _ => trivial)
      refine follows_step ⟨now, c, todo, rfl⟩ (fun _ => ?_) (fun _ => trivial)
      refine follows_perform ⟨now, c, todo, rfl⟩ fun r => ?_
      cases r with
      | ok _ => exact Or.inl rfl
      | error _ => trivial

/-- One entry of the due list. -/
theorem fireCron_rota (now : ℕ) (c : CronId) (todo : List CronId)
    (hl : l = .due now (c :: todo) ∨ ∃ c', l = .fired now c' (c :: todo)) :
    Follows rota .tick l (Scheduler.fireCron c) (Left now todo) := by
  refine follows_step ⟨now, todo, hl⟩ (fun removed => ?_) (fun _ => trivial)
  have hnext : rota.next .tick l (.zrem redisKeys.cronSchedule c) (.ok removed) =
      Duty.claim now c todo removed := by
    rcases hl with rfl | ⟨c', rfl⟩ <;> rfl
  rw [hnext]
  by_cases h : removed = 0
  · simp only [h, if_true]
    exact follows_pure (Or.inl rfl)
  · simp only [h, if_false]
    rw [Duty.claim, if_neg h]
    refine follows_step trivial (fun defRaw => ?_) (fun _ => trivial)
    cases truthy defRaw.cronExpression with
    | none => exact follows_pure (Or.inr ⟨c, rfl⟩)
    | some cronExpression =>
        refine follows_step trivial (fun nextMs => ?_) (fun _ => trivial)
        refine follows_step trivial (fun _ => ?_) (fun _ => trivial)
        exact enqueueCronJob_rota now c todo defRaw

/-- **Every task follows the rota.** -/
theorem rota_follows (t : Task) : Follows rota t (rota.start t) (body env t) fun _ _ => True := by
  cases t with
  | tick =>
      refine follows_bind (fun _ _ => True) ?_ (fun _ _ _ => follows_pure trivial)
        (fun _ _ _ => trivial)
      refine follows_bind _ promoteDelayedJobs_rota (fun _ l hl => ?_) (fun _ _ _ => trivial)
      have hnow : ∀ now, rota.next .tick l .now (.ok now) = .clocked now := by
        intro now
        rcases hl rfl with rfl | ⟨now', rfl⟩ <;> rfl
      refine follows_step trivial (fun now => ?_) (fun _ => trivial)
      rw [hnow]
      refine follows_step ⟨now, rfl, rfl⟩ (fun dueEntries => ?_) (fun _ => trivial)
      refine follows_mono (follows_forEach (Q := fun _ _ => True)
        (fun todo l => l = .due now todo ∨ ∃ c, l = .fired now c todo) ?_ (fun _ _ => trivial)
        dueEntries _ (Or.inl rfl)) (fun _ _ _ => trivial)
      intro c todo l hl
      refine follows_mono (fireCron_rota now c todo hl) ?_
      rintro (_ | _) l' hl' <;> exact hl'
  | _ => exact follows_of_permits fun _ _ => trivial

end Conduct

/-! ## The cron schedule -/

/-- What a permitted command does to the cron schedule: nothing, add an entry, or remove
one. -/
inductive Schedule (s : World) : (c : Cmd) → Except Err c.Resp → World → Prop
  | keep {c r s'} : s'.redis.zsets .cronSchedule = s.redis.zsets .cronSchedule →
      (∀ score m, c ≠ .write (.zadd redisKeys.cronSchedule score m)) →
      (∀ m, c ≠ .zrem redisKeys.cronSchedule m) → Schedule s c r s'
  | add {score m s'} :
      s'.redis.zsets .cronSchedule = (s.redis.zsets .cronSchedule).zadd score m →
      Schedule s (.write (.zadd redisKeys.cronSchedule score m)) (.ok ()) s'
  | remove {m s'} : s'.redis.zsets .cronSchedule = (s.redis.zsets .cronSchedule).zrem m →
      Schedule s (.zrem redisKeys.cronSchedule m)
        (.ok (if m ∈ s.redis.zsets .cronSchedule then 1 else 0)) s'

/-! ## Occurrences and firings -/

/-- The entries a command adds to the cron schedule. -/
def adds : Cmd → List (ℚ × CronId)
  | .write (.zadd .cronSchedule score c) => [(score, c)]
  | _ => []

/-- The entries the next command of the `i`-th process adds to the cron schedule. -/
def nextAdds (c : State) (i : ℕ) : List (ℚ × CronId) := (nextCmd c i).elim [] adds

/-- The duty of a process. -/
abbrev dutyOf (p : Process) : Duty := rota.phase p.task p.hist

/-- A scheduler still has `c` on a due list that it has read before `score`. -/
def Duty.awaits (c : CronId) (score : ℚ) (d : Duty) : Bool :=
  d.list.any fun x => c ∈ x.2 ∧ (x.1 : ℚ) < score

/-- No entry is put off while a scheduler has it on its due list: an entry that is
added with a score after a scheduler's clock reading is not on the list of that
scheduler. -/
def NeverPutOff (c : State) : Action → Prop
  | .start t => t.external
  | .call i o => o.works → ∀ e ∈ nextAdds c i, ∀ p ∈ c.pool, (dutyOf p).awaits e.2 e.1 = false
  | _ => True

instance (c : State) : (a : Action) → Decidable (NeverPutOff c a)
  | .start t => inferInstanceAs (Decidable t.external)
  | .call i o => inferInstanceAs (Decidable (o.works = true → ∀ e ∈ nextAdds c i, ∀ p ∈ c.pool,
      (dutyOf p).awaits e.2 e.1 = false))
  | .halt _ | .drift _ => .isTrue trivial

/-- A command enqueues a job of `c`: the `MULTI` of a scheduler that has removed the
entry of `c`. -/
def fires (c : CronId) (d : Duty) (cmd : Cmd) (r : Except Err cmd.Resp) : ℕ :=
  match d, cmd, r with
  | .rowed _ c' _, .multi _, .ok _ => if c' = c then 1 else 0
  | _, _, _ => 0

/-- A command schedules an occurrence of `c` for a time up to `τ`. -/
def schedules (c : CronId) (τ : ℕ) (cmd : Cmd) (r : Except Err cmd.Resp) : ℕ :=
  match cmd, r with
  | .write (.zadd .cronSchedule score c'), .ok _ => if c' = c ∧ score ≤ τ then 1 else 0
  | _, _ => 0

/-- The number of jobs enqueued for `c`. -/
def firings (c : State) (cronId : CronId) : ℕ :=
  counted rota (fun _ d cmd r => fires cronId d cmd r) c.pool

/-- The number of times that `c` has been scheduled for a time which has come since: executed
`ZADD`s are counted, also one that overwrites the entry of the same id. -/
def occurrences (c : State) (cronId : CronId) : ℕ :=
  counted rota (fun _ _ cmd r => schedules cronId c.store.clock cmd r) c.pool

/-- What is counted: schedulers between the removal of an entry and the job, jobs
enqueued, schedulers with an entry on a due list, and occurrences by due time. -/
inductive Shot where
  | held (cronId : CronId)
  | fired (cronId : CronId)
  | waiting (cronId : CronId) (now : ℕ)
  | occurs (cronId : CronId) (τ : ℕ)

/-- The entry a scheduler has removed and not enqueued a job for. -/
def Duty.cargo : Duty → Option CronId
  | .fired _ c _ | .rowed _ c _ => some c
  | _ => none

/-- How often a scheduler with clock reading `now` will still come across `c`. -/
def Duty.waiting (c : CronId) (now : ℕ) (d : Duty) : ℕ :=
  d.list.elim 0 fun x => if x.1 = now then x.2.count c else 0

/-- What a duty counts for. -/
def weight (d : Duty) : Shot → ℕ
  | .held c => holding d.cargo c
  | .waiting c now => d.waiting c now
  | _ => 0

/-- What a command counts for. -/
def counts (d : Duty) (cmd : Cmd) (r : Except Err cmd.Resp) : Shot → ℕ
  | .fired c => fires c d cmd r
  | .occurs c τ => schedules c τ cmd r
  | _ => 0

/-- The entry of `c` is due at `τ`. -/
def dueBy (s : World) (c : CronId) (τ : ℕ) : ℕ :=
  (((s.redis.zsets .cronSchedule).score? c).any (· ≤ (τ : ℚ))).toNat

/-- Jobs enqueued, jobs on their way and the entry, if it is due, are covered by
occurrences. -/
def Covered (s : World) (g : Shot → ℕ) : Prop :=
  ∀ c τ, s.clock ≤ τ → g (.fired c) + g (.held c) + dueBy s c τ ≤ g (.occurs c τ)

/-- A scheduler's clock reading is past, and what is on its due list and still in the
schedule was due then.  Other tasks have no duty. -/
structure Timely (t : Task) (d : Duty) (s : World) : Prop where
  off : t ≠ .tick → d = .off
  clocked : ∀ now, d = .clocked now → now ≤ s.clock
  past : ∀ now todo, d.list = some (now, todo) → now ≤ s.clock
  due : ∀ now todo, d.list = some (now, todo) → ∀ c ∈ todo, ∀ score,
    (s.redis.zsets .cronSchedule).score? c = some score → score ≤ now

/-- Firing as a discipline over the custody protocol and the rota. -/
def firing (env : Env) : Discipline (machine env) ((custody env).prod rota) (Shot → ℕ) where
  good _ := True
  val _ l := weight l.2
  emit _ l cmd r := counts l.2 cmd r
  loc t l := Timely t l.2
  inv := Covered
  allow _ g _ _ cmd o := o.works → ∀ e ∈ adds cmd, ∀ now : ℕ, (now : ℚ) < e.1 →
    g (.waiting e.2 now) = 0
  post t r l := Concluded t r l.1 ∧ True

section Step

variable {env : Env} {s s' : World} {t : Task} {l : Phase} {d d' : Duty} {cmd : Cmd} {o : Oracle}
  {r : Except Err cmd.Resp}

theorem schedule_of_answer (hp : Permits env t l cmd)
    (ha : World.answer env s o cmd = some (r, s')) : Schedule s cmd r s' := by
  cases hp with
  | quiet hq =>
      cases cmd with
      | write w =>
          cases ha
          cases w <;> first | exact hq.elim | exact .keep rfl (by simp) (by simp)
      | smembers k =>
          simp only [World.answer] at ha
          repeat' split at ha
          all_goals cases ha
          exact .keep rfl (by simp) (by simp)
      | zrangebyscore _ _ | hgetallCron _ | hgetallRate _ | publish _ | now | sleep _ =>
          cases ha
          exact .keep rfl (by simp) (by simp)
      | _ => exact hq.elim
  | cronClaim ht =>
      cases ha
      rw [Redis.zrem_fst, Redis.zrem_snd]
      exact .remove (by simp)
  | cronSchedule ht =>
      cases ha
      exact .add (by simp [Write.apply])
  | claimDue =>
      cases ha
      exact .keep (by simp) (by simp) (by simp)
  | object hhost hop =>
      obtain ⟨obj, rfl⟩ := answer_onWorker ha
      exact .keep rfl (by simp) (by simp)
  | dispatch | loopAgain | loopExit | settle | begin | launch | awaitLoop | finish =>
      obtain ⟨obj, rfl⟩ := answer_onWorker ha
      exact .keep rfl (by simp) (by simp)
  | uuidKeyless | uuidMissed | uuidCron =>
      obtain ⟨id, -, -, -, rfl⟩ := answer_uuid ha
      exact .keep rfl (by simp) (by simp)
  | insert _ _ _ _ =>
      simp only [World.answer] at ha
      split at ha <;> cases ha <;> exact .keep rfl (by simp) (by simp)
  | cronNext =>
      simp only [World.answer] at ha
      split at ha <;> cases ha <;> exact .keep rfl (by simp) (by simp)
  | handler =>
      simp only [World.answer] at ha
      repeat' split at ha
      all_goals cases ha
      all_goals exact .keep rfl (by simp) (by simp)
  | pull | pullBlocking =>
      cases ha
      refine .keep ?_ (by simp) (by simp)
      unfold Redis.rpoplpush
      split <;> rfl
  | _ =>
      cases ha
      exact .keep (by simp [Redis.multi, Write.apply]) (by simp) (by simp)

variable {g F : Shot → ℕ}

/-- An entry that is added is due from its score on. -/
theorem dueBy_zadd {score : ℚ} {m : CronId}
    (hz : s'.redis.zsets .cronSchedule = (s.redis.zsets .cronSchedule).zadd score m) (c : CronId)
    (τ : ℕ) : dueBy s' c τ = if c = m then (decide (score ≤ τ)).toNat else dueBy s c τ := by
  unfold dueBy
  rw [hz, SortedSet.score?_zadd]
  split <;> rfl

/-- An entry that is removed is not due. -/
theorem dueBy_zrem {m : CronId}
    (hz : s'.redis.zsets .cronSchedule = (s.redis.zsets .cronSchedule).zrem m) (c : CronId)
    (τ : ℕ) : dueBy s' c τ = if c = m then 0 else dueBy s c τ := by
  unfold dueBy
  rw [hz, SortedSet.score?_zrem]
  split <;> rfl

/-- A scheduler that does not remove an entry keeps its cargo, or fires it. -/
theorem fires_of_onTick {a : cmd.Resp} (c : CronId)
    (hz : ∀ m, cmd ≠ .zrem redisKeys.cronSchedule m) :
    holding (d.onTick cmd a).cargo c + fires c d cmd (.ok a) = holding d.cargo c := by
  unfold Duty.onTick
  split
  case h_4 | h_5 => exact absurd rfl (hz _)
  case h_7 => simp [Duty.cargo, fires]
  case h_8 hrest =>
      have hzero : fires c d cmd (.ok a) = 0 := by
        unfold fires
        split
        · exact (hrest _ _ _ _ _ rfl rfl HEq.rfl).elim
        · rfl
      rw [hzero, add_zero]
  all_goals rfl

/-- What a step must do to cargo, firings, entry and occurrences. -/
theorem Covered.step (h : Covered s (weight d + F)) (hclock : s'.clock = s.clock)
    (hstep : ∀ c τ, s.clock ≤ τ →
      holding d'.cargo c + fires c d cmd r + dueBy s' c τ ≤
        holding d.cargo c + dueBy s c τ + schedules c τ cmd r) :
    Covered s' (weight d' + (counts d cmd r + F)) := by
  intro c τ hτ
  rw [hclock] at hτ
  have hcov := h c τ hτ
  have hs := hstep c τ hτ
  simp only [Pi.add_apply, weight, counts, zero_add] at hcov ⊢
  omega

/-- A command that adds nothing schedules nothing. -/
theorem schedules_eq_zero (c : CronId) (τ : ℕ)
    (hadd : ∀ score m, cmd ≠ .write (.zadd redisKeys.cronSchedule score m)) :
    schedules c τ cmd r = 0 := by
  unfold schedules
  split
  · exact absurd rfl (hadd _ _)
  · rfl

/-- Other tasks have no duty. -/
theorem next_of_ne (ht : t ≠ .tick) : rota.next t d cmd r = .off := by
  cases t <;> first | rfl | exact absurd rfl ht

theorem next_error (e : Err) : rota.next t d cmd (.error e) = .off := by
  cases t <;> rfl

theorem fires_error (c : CronId) (e : Err) : fires c d cmd (.error e) = 0 := by
  unfold fires
  split
  · rename_i h
    cases h
  · rfl

/-- A step that does not remove an entry fires no more than the cargo. -/
theorem cargo_of_next (ht : t ≠ .tick → d = .off) (hz : ∀ m, cmd ≠ .zrem redisKeys.cronSchedule m)
    (c : CronId) :
    holding (rota.next t d cmd r).cargo c + fires c d cmd r ≤ holding d.cargo c := by
  by_cases htick : t = .tick
  · subst htick
    cases r with
    | ok a => exact (fires_of_onTick c hz).le
    | error e =>
        rw [next_error, fires_error]
        exact Nat.zero_le _
  · rw [next_of_ne htick, ht htick]
    exact le_refl 0

/-- The reply to a `ZREM` decides about the cargo. -/
theorem cargo_claim (now : ℕ) (m c : CronId) (todo : List CronId) (n : ℕ) :
    holding (Duty.claim now m todo n).cargo c = if n = 0 then 0 else if m = c then 1 else 0 := by
  unfold Duty.claim
  split
  · rfl
  · exact holding_some m c

/-- **Step lemma.**  Jobs stay covered by occurrences. -/
theorem Covered.answer (h : Covered s (weight d + F)) (ht : Timely t d s)
    (hp : rota.permits t d cmd) (hclock : s'.clock = s.clock) (hs : Schedule s cmd r s') :
    Covered s' (weight (rota.next t d cmd r) + (counts d cmd r + F)) := by
  cases hs with
  -- the schedule is the same, and the command neither adds nor removes
  | keep hz hadd hrem =>
      refine h.step hclock fun c τ _ => ?_
      have hcargo := cargo_of_next (r := r) ht.off hrem c
      have hdue : dueBy s' c τ = dueBy s c τ := by
        unfold dueBy
        rw [hz]
      rw [hdue, schedules_eq_zero c τ hadd]
      omega
  -- one occurrence more, and one entry that may be due
  | @add score m s' hz =>
      refine h.step hclock fun c τ _ => ?_
      have hnot : ∀ m', Cmd.write (.zadd redisKeys.cronSchedule score m) ≠
          .zrem redisKeys.cronSchedule m' := by simp
      have hcargo := cargo_of_next (r := .ok ()) ht.off hnot c
      rw [dueBy_zadd hz]
      by_cases hc : c = m
      · subst hc
        have hsch : schedules c τ (.write (.zadd redisKeys.cronSchedule score c)) (.ok ()) =
            (decide (score ≤ τ)).toNat := by
          by_cases hle : score ≤ τ <;> simp [schedules, hle]
        rw [if_pos rfl, hsch]
        omega
      · rw [if_neg hc]
        omega
  -- only a tick fires what it removes; its reply says whether the entry was there
  | @remove m s' hz =>
      refine h.step hclock fun c τ hτ => ?_
      have hfires : ∀ r, fires c d (.zrem redisKeys.cronSchedule m) r = 0 := by
        intro r
        cases d <;> rfl
      rw [hfires, dueBy_zrem hz]
      by_cases htick : t = .tick
      · subst htick
        obtain ⟨now, todo, hd⟩ := hp
        have hnext : ∀ n, rota.next .tick d (.zrem redisKeys.cronSchedule m) (.ok n) =
            Duty.claim now m todo n := by
          intro n
          rcases hd with rfl | ⟨c', rfl⟩ <;> rfl
        rw [hnext, cargo_claim]
        by_cases hmem : m ∈ s.redis.zsets .cronSchedule
        · rw [if_pos hmem, if_neg one_ne_zero]
          by_cases hc : c = m
          · -- the entry was due at the reading of the scheduler
            subst hc
            obtain ⟨score, hscore⟩ := hmem
            have hlist : d.list = some (now, c :: todo) := by
              rcases hd with rfl | ⟨c', rfl⟩ <;> rfl
            have hle : score ≤ τ := by
              have hnow := ht.past now _ hlist
              have hdue := ht.due now _ hlist c (List.mem_cons_self ..) score hscore
              have hcast : (now : ℚ) ≤ (τ : ℚ) := by exact_mod_cast hnow.trans hτ
              exact hdue.trans hcast
            have hone : dueBy s c τ = 1 := by simp [dueBy, hscore, hle]
            rw [hone, if_pos rfl, if_pos rfl]
            omega
          · rw [if_neg (Ne.symm hc), if_neg hc]
            omega
        · rw [if_neg hmem, if_pos rfl]
          split <;> omega
      · rw [next_of_ne htick]
        change 0 + 0 + _ ≤ _
        split <;> omega

/-- A scheduler on whose list no entry is put off stays timely. -/
theorem Timely.later (h : Timely t d s) (hclock : s.clock ≤ s'.clock)
    (hz : ∀ now todo, d.list = some (now, todo) → ∀ c ∈ todo, ∀ score,
      (s'.redis.zsets .cronSchedule).score? c = some score →
      (s.redis.zsets .cronSchedule).score? c = some score ∨ score ≤ now) : Timely t d s' where
  off := h.off
  clocked now hd := (h.clocked now hd).trans hclock
  past now todo hd := (h.past now todo hd).trans hclock
  due now todo hd c hc score hscore := by
    rcases hz now todo hd c hc score hscore with hold | hnew
    · exact h.due now todo hd c hc score hold
    · exact hnew

/-- What a command adds to the schedule is among its additions. -/
theorem Schedule.score? (hs : Schedule s cmd r s') {c : CronId} {score : ℚ}
    (h : (s'.redis.zsets .cronSchedule).score? c = some score) :
    (s.redis.zsets .cronSchedule).score? c = some score ∨ (score, c) ∈ adds cmd := by
  cases hs with
  | keep hz hadd hrem =>
      rw [hz] at h
      exact Or.inl h
  | @add score' m s' hz =>
      rw [hz, SortedSet.score?_zadd] at h
      split at h
      · rename_i hc
        cases h
        rw [hc]
        exact Or.inr (List.mem_singleton_self _)
      · exact Or.inl h
  | remove hz =>
      rw [hz, SortedSet.score?_zrem] at h
      split at h
      · cases h
      · exact Or.inl h

/-- What waits on a list is counted. -/
theorem waiting_pos_iff {now : ℕ} {c : CronId} :
    0 < d.waiting c now ↔ ∃ todo, d.list = some (now, todo) ∧ c ∈ todo := by
  unfold Duty.waiting
  cases hd : d.list with
  | none => simp
  | some x =>
      obtain ⟨now', todo⟩ := x
      by_cases hnow : now' = now <;> simp [hnow, List.count_pos_iff]

theorem waiting_pos {now : ℕ} {todo : List CronId} (hd : d.list = some (now, todo)) {c : CronId}
    (hc : c ∈ todo) : 0 < d.waiting c now :=
  waiting_pos_iff.mpr ⟨todo, hd, hc⟩

/-- A task without a duty is timely. -/
theorem timely_off : Timely t .off s where
  off _ := rfl
  clocked now hd := by cases hd
  past now todo hd := by cases hd
  due now todo hd := by cases hd

/-- A scheduler whose list gets shorter stays timely. -/
theorem Timely.shrink (h : Timely t d s) (ht : t = .tick) (hc : ∀ now, d' ≠ .clocked now)
    (hl : ∀ now todo, d'.list = some (now, todo) →
      ∃ todo', d.list = some (now, todo') ∧ todo ⊆ todo') : Timely t d' s where
  off hne := absurd ht hne
  clocked now hd := absurd hd (hc now)
  past now todo hd := by
    obtain ⟨todo', hd', -⟩ := hl now todo hd
    exact h.past now todo' hd'
  due now todo hd c hmem := by
    obtain ⟨todo', hd', hsub⟩ := hl now todo hd
    exact h.due now todo' hd' c (hsub hmem)

/-- What is left after a claim. -/
theorem list_claim (now : ℕ) (c : CronId) (todo : List CronId) (n : ℕ) :
    (Duty.claim now c todo n).list = some (now, todo) := by
  unfold Duty.claim
  split <;> rfl

theorem claim_ne_clocked (now now' : ℕ) (c : CronId) (todo : List CronId) (n : ℕ) :
    Duty.claim now c todo n ≠ .clocked now' := by
  unfold Duty.claim
  split <;> simp

/-- **Step lemma.**  A scheduler stays timely. -/
theorem Timely.answer (h : Timely t d s) (hp : rota.permits t d cmd)
    (ha : World.answer env s o cmd = some (r, s')) (hstay : Timely t d s') :
    Timely t (rota.next t d cmd r) s' := by
  by_cases ht : t = .tick
  · subst ht
    cases r with
    | error e =>
        rw [next_error]
        exact timely_off
    | ok a =>
        change Timely .tick (d.onTick cmd a) s'
        -- after a reading of the clock no list has been read yet
        have clock : ∀ {now : ℕ}, now ≤ s'.clock → Timely .tick (.clocked now) s' := by
          intro now hnow
          constructor
          · intro hne
            exact absurd rfl hne
          · rintro _ ⟨⟩
            exact hnow
          · intro now todo hd
            cases hd
          · intro now todo hd
            cases hd
        unfold Duty.onTick
        split
        · cases ha
          exact clock le_rfl
        · cases ha
          exact clock le_rfl
        · -- the list has just been read
          cases ha
          obtain ⟨now, hd, rfl⟩ := hp
          cases hd
          refine ⟨fun hne => absurd rfl hne, fun _ hd => (by cases hd), fun _ _ hd => ?_,
            fun _ _ hd c hc score hscore => ?_⟩
          · cases hd
            exact h.clocked _ rfl
          · cases hd
            obtain ⟨score', hscore', hle⟩ := (SortedSet.mem_rangeByScore _ _ _).mp hc
            rw [hscore] at hscore'
            cases hscore'
            exact hle _ rfl
        · refine hstay.shrink rfl (fun _ => claim_ne_clocked _ _ _ _ _) fun now todo hd => ?_
          rw [list_claim] at hd
          cases hd
          exact ⟨_, rfl, List.tail_subset _⟩
        · refine hstay.shrink rfl (fun _ => claim_ne_clocked _ _ _ _ _) fun now todo hd => ?_
          rw [list_claim] at hd
          cases hd
          exact ⟨_, rfl, List.tail_subset _⟩
        · exact hstay.shrink rfl (by simp) fun now todo hd => ⟨todo, hd, List.Subset.refl _⟩
        · exact hstay.shrink rfl (by simp) fun now todo hd => ⟨todo, hd, List.Subset.refl _⟩
        · exact hstay
  · rw [next_of_ne ht]
    exact timely_off

/-- **Firing is a sound discipline while nothing is put off.** -/
theorem firing_sound : (firing env).Sound NeverPutOff where
  follows t _ := follows_prod (custody_follows t) (rota_follows t)
  call s t l cmd o r s' F h := by
    have hforks : (firing env).starts ((machine env).forks t cmd r) = 0 :=
      (firing env).starts_eq_zero _ fun t' _ => by
        funext x
        cases x <;> rfl
    rw [hforks, add_zero]
    obtain ⟨hp, hd⟩ := h.permits
    have hspawn : ∀ t', Timely t' .off s' := fun t' => timely_off
    rcases (exec_cases h.exec).2 with ⟨err, -, -, rfl, rfl⟩ | ⟨ho, ha⟩
    · refine ⟨?_, ?_, fun t' _ => ⟨trivial, hspawn t'⟩⟩
      · refine Covered.step h.inv rfl fun c τ _ => ?_
        change holding (rota.next t l.2 cmd (.error err)).cargo c + _ + _ ≤ _
        rw [next_error, fires_error]
        change 0 + 0 + dueBy s' c τ ≤ _
        omega
      · change Timely t (rota.next t l.2 cmd (.error err)) s'
        rw [next_error]
        exact timely_off
    -- a new score is not later than what a scheduler has read, since nothing is put off
    · have hs := schedule_of_answer hp ha
      refine ⟨Covered.answer h.inv h.loc hd (answer_clock ha) hs, ?_, fun t' _ => ⟨trivial, hspawn t'⟩⟩
      refine Timely.answer h.loc hd ha (h.loc.later (answer_clock ha).ge ?_)
      intro now todo hl c hc score hscore
      rcases hs.score? hscore with hold | hnew
      · exact Or.inl hold
      · right
        by_contra hlt
        have hzero := h.allow (Oracle.works_of_takes ho) _ hnew now (lt_of_not_ge hlt)
        have hpos := waiting_pos hl hc
        change l.2.waiting c now + F (.waiting c now) = 0 at hzero
        omega
  stable s t l cmd o r s' F h t₂ l₂ F₂ hF _ hk := by
    rcases (exec_cases h.exec).2 with ⟨err, -, -, rfl, rfl⟩ | ⟨ho, ha⟩
    · exact hk
    · refine hk.later (answer_clock ha).ge fun now todo hl c hc score hscore => ?_
      rcases (schedule_of_answer h.permits.1 ha).score? hscore with hold | hnew
      · exact Or.inl hold
      · right
        by_contra hlt
        have hzero := h.allow (Oracle.works_of_takes ho) _ hnew now (lt_of_not_ge hlt)
        have hpos := waiting_pos hl hc
        rw [hF] at hzero
        change _ + (l₂.2.waiting c now + F₂ (.waiting c now)) = 0 at hzero
        omega
  start c t _ hc := by
    refine ⟨trivial, ?_, timely_off⟩
    have hnone : (firing env).val t (((custody env).prod rota).start t) = 0 := by
      funext x
      cases x <;> rfl
    rw [hnone, zero_add]
    exact hc.1
  allows c i o p cmd k hok hc hp hprog ho e he now hlt := by
    have hno := hok ho e (by simpa [nextAdds, nextCmd, hp, hprog])
    -- the condition speaks of the schedulers in the pool, the invariant of their sum
    have hval : ∀ q ∈ c.pool, (dutyOf q).waiting e.2 now = 0 := by
      intro q hq
      by_contra hne
      have hpos := waiting_pos_iff.mp (Nat.pos_of_ne_zero hne)
      obtain ⟨todo, hl, hmem⟩ := hpos
      have hawaits : (dutyOf q).awaits e.2 e.1 = true := by
        simp [Duty.awaits, hl, hmem, hlt]
      rw [hno q hq] at hawaits
      cases hawaits
    refine (firing env).total_eq_zero (k := .waiting e.2 now) (fun q hq => ?_) fun _ _ _ _ => rfl
    rw [Protocol.prod_phase]
    exact hval q hq
  drift c m s' _ hc hm := by
    have hclock : c.store.clock ≤ s'.clock ∧ s'.redis = c.store.redis := by
      cases m <;> cases hm
      · exact ⟨Nat.le_add_right _ _, rfl⟩
      · exact ⟨le_rfl, rfl⟩
    refine ⟨fun i τ hτ => ?_, fun t l _ hk => hk.later hclock.1 fun now todo hl i hi score hs => ?_⟩
    · have hcov := hc.1 i τ (hclock.1.trans hτ)
      unfold dueBy at hcov ⊢
      rwa [hclock.2]
    · rw [hclock.2] at hs
      exact Or.inl hs

end Step

section Result

variable {env : Env} {c : State}

/-- **Recurring jobs fire when they are due.**  In every run in which no entry is put off
while a scheduler has it on its due list: an entry a scheduler is about to remove is due
at its clock reading, and the jobs enqueued for a definition are at most its occurrences
that have come due. -/
theorem fired_when_due (hc : (machine env).Reach NeverPutOff Blank c) (cronId : CronId) :
    (∀ i p, c.pool[i]? = some p → p.task = .tick →
      AboutToRemove c i redisKeys.cronSchedule cronId →
      ∃ now todo, (dutyOf p).list = some (now, cronId :: todo) ∧ now ≤ c.store.clock ∧
        ∀ score, (c.store.redis.zsets redisKeys.cronSchedule).score? cronId = some score →
          score ≤ now) ∧
      firings c cronId ≤ occurrences c cronId := by
  have hblank : ∀ c, Blank c → (firing env).PoolOk c := by
    rintro c ⟨now, room, rfl⟩
    exact ⟨fun i τ _ => by simp [dueBy, Discipline.total], by simp⟩
  have hok := firing_sound.reach hblank hc
  constructor
  · intro i p hp htick hrem
    obtain ⟨q, k, hq, hprog⟩ := hrem.call
    rw [hp] at hq
    cases hq
    obtain ⟨-, hloc, hfol⟩ := hok.2 p (List.mem_of_getElem? hp)
    rw [hprog, Protocol.prod_phase] at hfol
    rw [Protocol.prod_phase] at hloc
    have hperm : rota.permits p.task (dutyOf p) (.zrem redisKeys.cronSchedule cronId) := hfol.1.2
    rw [htick] at hperm
    obtain ⟨now, todo, hd⟩ := hperm
    have hlist : (dutyOf p).list = some (now, cronId :: todo) := by
      rw [dutyOf, htick] at hd ⊢
      rcases hd with hd | ⟨c', hd⟩ <;> rw [hd] <;> rfl
    exact ⟨now, todo, hlist, hloc.past now _ hlist,
      hloc.due now _ hlist cronId (List.mem_cons_self ..)⟩
  · have hcov := hok.1 cronId c.store.clock le_rfl
    have hfired : (firing env).total c.pool (.fired cronId) = firings c cronId := by
      rw [(firing env).total_eq_counted (fun t l cmd r => fires cronId l.2 cmd r)
        (fun _ _ => rfl) (fun _ _ _ _ => rfl)]
      exact counted_prod_snd (fun _ d cmd r => fires cronId d cmd r) c.pool
    have hoccurs : (firing env).total c.pool (.occurs cronId c.store.clock) =
        occurrences c cronId := by
      rw [(firing env).total_eq_counted (fun t l cmd r => schedules cronId c.store.clock cmd r)
        (fun _ _ => rfl) (fun _ _ _ _ => rfl)]
      exact counted_prod_snd (fun _ _ cmd r => schedules cronId c.store.clock cmd r) c.pool
    rw [hfired, hoccurs] at hcov
    omega

/-- A definition that fires every second. -/
def everySecond : Task :=
  .addJob { cronId := "c", jobName := "report", cronExpression := "* * * * * *" }

/-- The theorem on a run in which a scheduler has removed the due entry and enqueued its
job. -/
theorem fired_when_due_once :
    ∃ c, (machine sample).Reach NeverPutOff Blank c ∧ firings c "c" = 1 ∧
      (∀ i p, c.pool[i]? = some p → p.task = .tick →
        AboutToRemove c i redisKeys.cronSchedule "c" →
        ∃ now todo, (dutyOf p).list = some (now, "c" :: todo) ∧ now ≤ c.store.clock ∧
          ∀ score, (c.store.redis.zsets redisKeys.cronSchedule).score? "c" = some score →
            score ≤ now) ∧
        firings c "c" ≤ occurrences c "c" := by
  obtain ⟨c, hc, ht⟩ := Machine.exists_reach (machine sample) NeverPutOff Blank blank_blank
    ([.start everySecond] ++ goes 0 3 ++ [.drift (.pass 1000), .start .tick,
      .call 1 (.members [])] ++ goes 1 7 ++ [.call 1 (.fresh j1)] ++ goes 1 3)
    (fun c => decide (firings c "c" = 1)) (by decide +kernel)
  exact ⟨c, hc, of_decide_eq_true ht, fired_when_due hc "c"⟩

/-- Two schedulers have read the same due entry.  One of them fires it; the other one
removes the next occurrence, a second early, and fires it as well. -/
theorem fired_too_early :
    ∃ c, (machine sample).Reach Reliable Blank c ∧ c.store.clock = 1000 ∧
      firings c "c" = 2 ∧ occurrences c "c" = 1 := by
  obtain ⟨c, hc, ht⟩ := Machine.exists_reach (machine sample) Reliable Blank blank_blank
    ([.start everySecond] ++ goes 0 3 ++ [.drift (.pass 1000), .start .tick, .start .tick,
      .call 1 (.members []), .call 2 (.members [])] ++ goes 1 3 ++ goes 2 3 ++ goes 1 4 ++
      [.call 1 (.fresh j1)] ++ goes 1 3 ++ goes 2 4 ++ [.call 2 (.fresh j2)] ++ goes 2 3)
    (fun c => decide (c.store.clock = 1000 ∧ firings c "c" = 2 ∧ occurrences c "c" = 1))
    (by decide +kernel)
  exact ⟨c, hc, of_decide_eq_true ht⟩

end Result

end Firing

end NexusQueue
