/-
# Recurring jobs stay removed

`removeJob` deletes the definition of a recurring job and then its entry in the cron
schedule.  A scheduler that has read the definition before that puts the entry back and
enqueues one more job, and the entry it leaves is found by later schedulers.

The work of a scheduler on one entry is a fire.  Once the definition is gone and nobody
writes it again, no fire gets as far as reading it.  So what a process has enqueued or put
back, together with what it still carries, never grows (`removed_for_good`).
-/
import NexusQueue.Repertoire
import NexusQueue.Conduct
import NexusQueue.Effects
import NexusQueue.Alone

namespace NexusQueue

open Prog (Ends ends_pure ends_throw ends_bind ends_step)

namespace Removal

/-! ## Fires -/

/-- Where a scheduler is in its work on the cron schedule: between two fires; it has removed
an entry; it has read the definition of that entry; it has put the entry back. -/
inductive Fire where
  | off
  | claimed (cronId : CronId)
  | read (cronId : CronId)
  | restored (cronId : CronId)
  deriving DecidableEq

namespace Fire

/-- The fire has read the definition of the job, and its own job is not enqueued yet. -/
def carries (cronId : CronId) : Fire → Bool
  | .read i | .restored i => i = cronId
  | _ => false

/-- The fire has read the definition of the job, and its entry is not put back yet. -/
def owes (cronId : CronId) : Fire → Bool
  | .read i => i = cronId
  | _ => false

/-- The commands of a fire, and where a scheduler may issue them. -/
def permits : Fire → Cmd → Prop
  | l, .zrem .cronSchedule _ => l = .off
  | l, .hgetallCron k => ∃ i, l = .claimed i ∧ k = redisKeys.cronDef i
  | l, .write (.zadd .cronSchedule _ i) => l = .read i
  | l, .multi _ => ∃ i, l = .restored i
  | _, c => c.wellNamed

/-- A scheduler after an answer. -/
def onTick : Fire → (c : Cmd) → c.Resp → Fire
  | .off, .zrem .cronSchedule i, n => if n = 0 then .off else .claimed i
  | .claimed i, .hgetallCron _, d => (truthy d.cronExpression).elim .off fun _ => .read i
  | .read i, .write (.zadd .cronSchedule _ _), _ => .restored i
  | .restored _, .multi _, _ => .off
  | l, _, _ => l

/-- The jobs an answered command enqueues for a recurring job. -/
def enqueues (cronId : CronId) : Fire → (c : Cmd) → Except Err c.Resp → ℕ
  | .restored i, .multi _, .ok _ => if i = cronId then 1 else 0
  | _, _, _ => 0

/-- The entries it puts back. -/
def restores (cronId : CronId) : Fire → (c : Cmd) → Except Err c.Resp → ℕ
  | .read i, .write (.zadd .cronSchedule _ _), .ok _ => if i = cronId then 1 else 0
  | _, _, _ => 0

end Fire

/-- The protocol of fires, which only concerns schedulers; a rejection ends a fire. -/
def fires : Protocol Task Cmd Cmd.Resp Err Fire where
  start _ := .off
  permits t l c := match t with
    | .tick => l.permits c
    | _ => c.wellNamed
  next t l c r := match t, r with
    | .tick, .ok a => l.onTick c a
    | _, _ => .off

section Conduct

/-- A command that concerns no fire. -/
def Apart (c : Cmd) : Prop := Fire.permits .off c ∧ ∀ a, Fire.onTick .off c a = .off

theorem follows_apart {α : Type} {p : Async α} (hp : p.Only Apart) :
    Follows fires .tick .off p fun _ l => l = .off := by
  refine follows_only hp fun c hc => ⟨hc.1, fun r => ?_⟩
  cases r with
  | ok a => exact hc.2 a
  | error e => rfl

/-- Promotion is apart. -/
theorem promoteDelayedJobs_apart : Scheduler.promoteDelayedJobs.Only Apart := by
  refine Repertoire.promoteDelayedJobs_only.mono fun c hc => ?_
  cases c with
  | write w => cases w <;> first | exact hc.elim | exact ⟨trivial, fun _ => rfl⟩
  | zrangebyscore k max => exact ⟨trivial, fun _ => rfl⟩
  | zrem k m =>
      obtain ⟨q, rfl⟩ := hc
      exact ⟨trivial, fun _ => rfl⟩
  | smembers _ | now | hgetPriority _ => exact ⟨trivial, fun _ => rfl⟩
  | _ => exact hc.elim

/-- A loop over the due entries goes on between two fires. -/
def Between {α : Type} (r : Except Err α) (l : Fire) : Prop := r.isOk → l = .off

/-- The job of an entry that has been put back. -/
theorem enqueueCronJob_fires (i : CronId) (d : CronHash) :
    Follows fires .tick (.restored i) (Scheduler.enqueueCronJob i d) Between := by
  unfold Scheduler.enqueueCronJob
  cases parsePayload d.payload with
  | error e => exact follows_throw fun h => by cases h
  | ok payload =>
      refine follows_step trivial (fun id => ?_) (fun _ _ => rfl)
      refine follows_step trivial (fun nowIso => ?_) (fun _ _ => rfl)
      refine follows_step trivial (fun _ => ?_) (fun _ _ => rfl)
      refine follows_perform ⟨i, rfl⟩ fun r _ => ?_
      cases r <;> rfl

/-- A scheduler removes an entry, reads its definition, puts it back and enqueues its job. -/
theorem fireCron_fires (i : CronId) :
    Follows fires .tick .off (Scheduler.fireCron i) Between := by
  refine follows_step rfl (fun removed => ?_) (fun _ _ => rfl)
  by_cases h : removed = 0
  · simp only [h, if_true]
    exact follows_pure fun _ => rfl
  · have hnext : fires.next .tick .off (.zrem redisKeys.cronSchedule i) (.ok removed) =
        .claimed i := if_neg h
    simp only [h, if_false, hnext]
    refine follows_step ⟨i, rfl, rfl⟩ (fun d => ?_) (fun _ _ => rfl)
    show Follows fires .tick ((truthy d.cronExpression).elim .off fun _ => .read i) _ _
    cases truthy d.cronExpression with
    | none => exact follows_pure fun _ => rfl
    | some e =>
        refine follows_step trivial (fun nextMs => ?_) (fun _ _ => rfl)
        refine follows_step rfl (fun _ => ?_) (fun _ _ => rfl)
        exact enqueueCronJob_fires i d

/-- **Every task keeps to its fires.** -/
theorem fires_follows (env : Env) (t : Task) :
    Follows fires t (fires.start t) (body env t) fun _ _ => True := by
  cases t with
  | tick =>
      refine follows_bind (fun _ _ => True) ?_ (fun _ _ _ => follows_pure trivial)
        (fun _ _ _ => trivial)
      refine follows_bind _ (follows_apart promoteDelayedJobs_apart) ?_ (fun _ _ _ => trivial)
      rintro _ _ rfl
      refine follows_step trivial (fun now => ?_) (fun _ => trivial)
      refine follows_step trivial (fun dueEntries => ?_) (fun _ => trivial)
      refine follows_forEach (fun _ l => l = .off) ?_ (fun _ _ => trivial) dueEntries _ rfl
      rintro i todo _ rfl
      refine follows_mono (fireCron_fires i) ?_
      rintro (_ | _) l hl
      · trivial
      · exact hl rfl
  | _ => exact follows_any ((Repertoire.only_named env _).mono fun c hc _ => hc)

end Conduct

/-! ## What a process has done and still carries -/

/-- The place of a process in its fire. -/
abbrev fireOf (p : Process) : Fire := fires.phase p.task p.hist

/-- What a process that runs still holds. -/
def pending (holds : Fire → Bool) (p : Process) : ℕ :=
  if p.halted = false ∧ ¬ Ended p then (holds (fireOf p)).toNat else 0

/-- The jobs the `i`-th process has enqueued for a recurring job. -/
def enqueued (cronId : CronId) (c : State) (i : ℕ) : ℕ :=
  (c.pool[i]?).elim 0 fun p => fires.tally (fun _ l => l.enqueues cronId) p.task p.hist

/-- Whether it has read the definition for one more. -/
def carrying (cronId : CronId) (c : State) (i : ℕ) : ℕ :=
  (c.pool[i]?).elim 0 (pending (Fire.carries cronId))

/-- How often it has put the entry of a recurring job back. -/
def restored (cronId : CronId) (c : State) (i : ℕ) : ℕ :=
  (c.pool[i]?).elim 0 fun p => fires.tally (fun _ l => l.restores cronId) p.task p.hist

/-- Whether it has read the definition and will put it back once more. -/
def owing (cronId : CronId) (c : State) (i : ℕ) : ℕ :=
  (c.pool[i]?).elim 0 (pending (Fire.owes cronId))

/-! ## Removal -/

/-- The definition a command writes. -/
def defines : Cmd → Option Key
  | .write (.hsetCron k _) => some k
  | _ => none

/-- The key a command deletes. -/
def deletes : Cmd → Option Key
  | .write (.del k) => some k
  | _ => none

/-- The definition of a recurring job is deleted. -/
def Removes (env : Env) (cronId : CronId) (c c' : State) : Prop :=
  ∃ i o, o.works = true ∧ (nextCmd c i).bind deletes = some (redisKeys.cronDef cronId) ∧
    (machine env).step c (.call i o) = some c'

/-- Anything may happen, except that the definition of the recurring job is written. -/
def NoAdd (cronId : CronId) (c : State) : Action → Prop
  | .start t => t.external
  | .call i o => o.works = true →
      (nextCmd c i).bind defines ≠ some (redisKeys.cronDef cronId)
  | _ => True

instance (cronId : CronId) (c : State) : (a : Action) → Decidable (NoAdd cronId c a)
  | .start t => inferInstanceAs (Decidable t.external)
  | .call i o => inferInstanceAs (Decidable (o.works = true →
      (nextCmd c i).bind defines ≠ some (redisKeys.cronDef cronId)))
  | .halt _ | .drift _ => .isTrue trivial

/-- Definitions are stored under their own keys, and the one that has been removed is
gone. -/
structure Retired (gone : Option CronId) (s : World) : Prop where
  named : ∀ i, ∀ x ∈ (s.redis.crons (redisKeys.cronDef i)).cronId, x = i
  gone : ∀ i ∈ gone, s.redis.crons (redisKeys.cronDef i) = {}

/-- Retirement as a discipline over the custody protocol and the fires. -/
def retiring (env : Env) (gone : Option CronId) :
    Discipline (machine env) ((custody env).prod fires) Unit where
  good _ := True
  val _ _ := 0
  emit _ _ _ _ := 0
  loc _ _ _ := True
  inv s _ := Retired gone s
  allow _ _ _ _ cmd o := o.works = true → ∀ i ∈ gone, defines cmd ≠ some (redisKeys.cronDef i)
  post t r l := Concluded t r l.1 ∧ True

section Step

variable {env : Env} {s s' : World} {t : Task} {l : Phase} {d : Fire} {cmd : Cmd} {o : Oracle}
  {r : Except Err cmd.Resp} {gone : Option CronId} {cronId : CronId}

/-- A fire issues well-named commands. -/
theorem wellNamed_of_permits (hp : fires.permits t d cmd) : cmd.wellNamed := by
  cases t with
  | tick =>
      cases cmd with
      | write w => cases w <;> first | exact hp | trivial
      | _ => trivial
  | _ => exact hp

/-- **Step lemma.**  What is gone stays gone while nobody writes it. -/
theorem Retired.answer (h : Retired gone s) (hnamed : cmd.wellNamed) (hd : s.Defines cmd s')
    (hallow : ∀ i ∈ gone, defines cmd ≠ some (redisKeys.cronDef i)) : Retired gone s' := by
  cases hd with
  | keep hold _ =>
      constructor
      · intro i x hx
        rw [hold] at hx
        exact h.named i x hx
      · intro i hi
        rw [hold]
        exact h.gone i hi
  | @store k f _ hstore =>
      obtain ⟨-, j, rfl, hf⟩ := hnamed
      constructor
      · intro i x hx
        rw [hstore, Function.update_apply] at hx
        split at hx
        · rename_i hij
          rw [show (CronHash.merge _ f).cronId = some j by simp [CronHash.merge, hf]] at hx
          cases hx
          exact (Key.cronDef.inj hij).symm
        · exact h.named i x hx
      · intro i hi
        have hne : redisKeys.cronDef i ≠ redisKeys.cronDef j :=
          fun hij => hallow i hi (congrArg some hij.symm)
        rw [hstore, Function.update_of_ne hne]
        exact h.gone i hi
  | @delete j _ hdel =>
      constructor
      · intro i x hx
        rw [hdel, Function.update_apply] at hx
        split at hx
        · cases hx
        · exact h.named i x hx
      · intro i hi
        rw [hdel, Function.update_apply]
        split
        · rfl
        · exact h.gone i hi

/-- **Retirement is sound as long as nobody writes what is gone.** -/
theorem retiring_sound {ok : State → Action → Prop}
    (hcall : ∀ c i o, ok c (.call i o) → o.works = true → ∀ j ∈ gone,
      (nextCmd c i).bind defines ≠ some (redisKeys.cronDef j)) :
    (retiring env gone).Sound ok where
  follows t _ := follows_prod (custody_follows t) (fires_follows env t)
  call s t l cmd o r s' F h := by
    refine ⟨?_, trivial, fun _ _ => ⟨trivial, trivial⟩⟩
    rcases (exec_cases h.exec).2 with ⟨err, -, -, rfl, rfl⟩ | ⟨ho, ha⟩
    · exact h.inv
    · exact h.inv.answer (wellNamed_of_permits h.permits.2) (defines_of_answer h.permits.1 ha)
        (h.allow (Oracle.works_of_takes ho))
  stable s t l cmd o r s' F h t₂ l₂ F₂ hF _ hk := trivial
  start c t hok hc := ⟨trivial, hc.1, trivial⟩
  allows c i o p cmd k hok hc hp hprog ho j hj := by
    have hnext : nextCmd c i = some cmd := by
      unfold nextCmd
      rw [hp]
      simp [hprog]
    have hne := hcall c i o hok ho j hj
    rwa [hnext] at hne
  drift c m s' _ hc hm := by
    refine ⟨?_, fun _ _ _ _ => trivial⟩
    cases m <;> cases hm <;> exact ⟨hc.1.named, hc.1.gone⟩

/-- **Step lemma.**  A fire only reads a definition that is there, puts its entry back once
and ends with its job. -/
theorem fire_next {a : cmd.Resp} (hgone : s.redis.crons (redisKeys.cronDef cronId) = {})
    (hp : d.permits cmd) (ha : World.answer env s o cmd = some (.ok a, s')) :
    d.enqueues cronId cmd (.ok a) + ((d.onTick cmd a).carries cronId).toNat ≤
        (d.carries cronId).toNat ∧
      d.restores cronId cmd (.ok a) + ((d.onTick cmd a).owes cronId).toNat ≤
        (d.owes cronId).toNat := by
  unfold Fire.onTick
  split
  · split <;> exact ⟨le_rfl, le_rfl⟩
  · rename_i i k _
    obtain ⟨j, hj, rfl⟩ := hp
    cases hj
    cases ha
    by_cases hi : i = cronId
    · subst hi
      rw [hgone]
      exact ⟨le_rfl, le_rfl⟩
    · cases truthy (s.redis.crons (redisKeys.cronDef i)).cronExpression with
      | none => exact ⟨le_rfl, le_rfl⟩
      | some e => simp [Fire.enqueues, Fire.carries, Fire.restores, Fire.owes, hi]
  · rename_i i _ _ _
    refine ⟨(Nat.zero_add _).le, ?_⟩
    by_cases hi : i = cronId <;> simp [Fire.restores, Fire.owes, hi]
  · rename_i i _ _
    refine ⟨?_, le_rfl⟩
    by_cases hi : i = cronId <;> simp [Fire.enqueues, Fire.carries, hi]
  · rename_i hread hadd hmulti
    have hjobs : d.enqueues cronId cmd (.ok a) = 0 := by
      unfold Fire.enqueues
      split
      · exact (hmulti _ _ _ rfl rfl HEq.rfl).elim
      · rfl
    have hentries : d.restores cronId cmd (.ok a) = 0 := by
      unfold Fire.restores
      split
      · exact (hadd _ _ _ _ rfl rfl HEq.rfl).elim
      · rfl
    rw [hjobs, hentries, Nat.zero_add, Nat.zero_add]
    exact ⟨le_rfl, le_rfl⟩

/-- Other tasks fire nothing. -/
theorem phase_off (ht : t ≠ .tick) (h : List (Event Cmd Cmd.Resp Err)) :
    fires.phase t h = .off := by
  cases h with
  | nil => rfl
  | cons e h => cases t <;> first | exact absurd rfl ht | rfl

/-- A command of any task, answered or rejected. -/
theorem fires_next (hgone : s.redis.crons (redisKeys.cronDef cronId) = {})
    (hoff : t ≠ .tick → d = .off) (hp : fires.permits t d cmd)
    (hex : World.exec env s t cmd o = some (r, s')) :
    d.enqueues cronId cmd r + ((fires.next t d cmd r).carries cronId).toNat ≤
        (d.carries cronId).toNat ∧
      d.restores cronId cmd r + ((fires.next t d cmd r).owes cronId).toNat ≤
        (d.owes cronId).toNat := by
  by_cases ht : t = .tick
  · subst ht
    cases r with
    | ok a =>
        have ha : World.answer env s o cmd = some (.ok a, s') := by
          rcases (exec_cases hex).2 with ⟨err, -, -, -, hr⟩ | ⟨-, ha⟩
          · cases hr
          · exact ha
        exact fire_next hgone hp ha
    | error e =>
        have hjobs : d.enqueues cronId cmd (.error e) = 0 := by
          unfold Fire.enqueues
          split
          · rename_i heq
            cases heq
          · rfl
        have hentries : d.restores cronId cmd (.error e) = 0 := by
          unfold Fire.restores
          split
          · rename_i heq
            cases heq
          · rfl
        rw [hjobs, hentries]
        exact ⟨Nat.zero_le _, Nat.zero_le _⟩
  · obtain rfl := hoff ht
    have hnext : fires.next t .off cmd r = .off := by
      cases t <;> first | exact absurd rfl ht | rfl
    rw [hnext]
    exact ⟨le_rfl, le_rfl⟩

end Step

section Result

variable {env : Env} {c c' c₀ c₁ : State} {cronId : CronId}

/-- A process that runs holds what its fire does. -/
theorem pending_running {holds : Fire → Bool} {p : Process} {cmd : Cmd}
    {k : Except Err cmd.Resp → Async (Option JobId)} (hrun : p.halted = false)
    (hprog : p.prog = .call cmd k) : pending holds p = (holds (fireOf p)).toNat := by
  unfold pending
  rw [if_pos ⟨hrun, fun hend => hend cmd k hprog⟩]

theorem pending_le {holds : Fire → Bool} (p : Process) :
    pending holds p ≤ (holds (fireOf p)).toNat := by
  unfold pending
  split
  · exact le_rfl
  · exact Nat.zero_le _

/-- Two counts of one process, added. -/
theorem elim_add (μ ν : Process → ℕ) (x : Option Process) :
    x.elim 0 μ + x.elim 0 ν = x.elim 0 fun p => μ p + ν p := by
  cases x <;> rfl

/-- While the definition of the recurring job is gone, a count only grows by what is given
up. -/
def Backed (env : Env) (cronId : CronId) (holds : Fire → Bool)
    (counts : Fire → (cmd : Cmd) → Except Err cmd.Resp → ℕ) : Prop :=
  ∀ s t d cmd o r s', s.redis.crons (redisKeys.cronDef cronId) = {} → (t ≠ .tick → d = .off) →
    fires.permits t d cmd → World.exec env s t cmd o = some (r, s') →
    counts d cmd r + (holds (fires.next t d cmd r)).toNat ≤ (holds d).toNat

/-- What a process has counted and still holds. -/
def weight (holds : Fire → Bool) (counts : Fire → (cmd : Cmd) → Except Err cmd.Resp → ℕ)
    (p : Process) : ℕ :=
  fires.tally (fun _ => counts) p.task p.hist + pending holds p

/-- **Step lemma.**  After the removal no process gains weight. -/
theorem weight_step {holds : Fire → Bool} {counts : Fire → (cmd : Cmd) → Except Err cmd.Resp → ℕ}
    (hoff : holds .off = false) (hback : Backed env cronId holds counts)
    (hc : (retiring env (some cronId)).PoolOk c) {a : Action}
    (hs : (machine env).step c a = some c') (i : ℕ) :
    (c'.pool[i]?).elim 0 (weight holds counts) ≤ (c.pool[i]?).elim 0 (weight holds counts) := by
  refine Machine.step_le hs (fun t => ?_) (fun p => ?_)
    (fun i o p cmd k r s _ hp hrun hprog hex => ?_) i
  · have hle : pending holds ((machine env).spawn t) ≤ (holds .off).toNat := pending_le _
    rw [hoff] at hle
    show 0 + pending holds ((machine env).spawn t) = 0
    rw [Nat.zero_add]
    exact Nat.le_zero.mp hle
  · exact Nat.add_le_add_left (by simp [pending]) _
  · obtain ⟨-, -, hfol⟩ := hc.2 p (List.mem_of_getElem? hp)
    rw [hprog, Protocol.prod_phase] at hfol
    have hone : counts (fireOf p) cmd r + (holds (fires.next p.task (fireOf p) cmd r)).toNat ≤
        (holds (fireOf p)).toNat :=
      hback _ _ _ _ _ _ _ (hc.1.gone cronId rfl) (fun ht => phase_off ht p.hist) hfol.1.2 hex
    have hpend : pending holds (p.resume cmd r (k r)) ≤
        (holds (fires.next p.task (fireOf p) cmd r)).toNat := pending_le _
    show counts (fireOf p) cmd r + fires.tally _ p.task p.hist + pending holds _ ≤
      fires.tally _ p.task p.hist + pending holds p
    rw [pending_running hrun hprog]
    omega

/-- What has been enqueued and put back, with what is carried, does not grow. -/
structure Dwindles (cronId : CronId) (c c' : State) (i : ℕ) : Prop where
  jobs : enqueued cronId c' i + carrying cronId c' i ≤ enqueued cronId c i + carrying cronId c i
  entries : restored cronId c' i + owing cronId c' i ≤ restored cronId c i + owing cronId c i

theorem Dwindles.refl (i : ℕ) : Dwindles cronId c c i := ⟨le_rfl, le_rfl⟩

theorem Dwindles.trans {i : ℕ} (h : Dwindles cronId c₀ c i) (h' : Dwindles cronId c c' i) :
    Dwindles cronId c₀ c' i :=
  ⟨h'.jobs.trans h.jobs, h'.entries.trans h.entries⟩

theorem backed_jobs : Backed env cronId (Fire.carries cronId) fun d => d.enqueues cronId :=
  fun _ _ _ _ _ _ _ hgone hoff hp hex => (fires_next hgone hoff hp hex).1

theorem backed_entries : Backed env cronId (Fire.owes cronId) fun d => d.restores cronId :=
  fun _ _ _ _ _ _ _ hgone hoff hp hex => (fires_next hgone hoff hp hex).2

theorem dwindles_step (hc : (retiring env (some cronId)).PoolOk c) {a : Action}
    (hs : (machine env).step c a = some c') (i : ℕ) : Dwindles cronId c c' i := by
  constructor
  · rw [enqueued, carrying, elim_add, enqueued, carrying, elim_add]
    exact weight_step rfl backed_jobs hc hs i
  · rw [restored, owing, elim_add, restored, owing, elim_add]
    exact weight_step rfl backed_entries hc hs i

/-- The pool is in order before the removal. -/
theorem poolOk_of_reach (hc : (machine env).Reach Anything Blank c) :
    (retiring env none).PoolOk c := by
  have hsound : (retiring env none).Sound Anything :=
    retiring_sound fun _ _ _ _ _ j hj => by cases hj
  refine hsound.reach ?_ hc
  rintro c ⟨now, room, rfl⟩
  refine ⟨⟨fun i x hx => ?_, fun i hi => ?_⟩, by simp⟩
  · cases hx
  · cases hi

/-- It is in order right after the removal, and the definition is gone. -/
theorem poolOk_removed (hc : (retiring env none).PoolOk c₀) (hrem : Removes env cronId c₀ c₁) :
    (retiring env (some cronId)).PoolOk c₁ := by
  obtain ⟨i, o, ho, hdel, hs⟩ := hrem
  have hsound : (retiring env none).Sound fun _ _ => True :=
    retiring_sound fun _ _ _ _ _ j hj => by cases hj
  have hok := hsound.step hc trivial hs
  refine ⟨⟨hok.1.named, ?_⟩, hok.2⟩
  rintro j ⟨⟩
  obtain ⟨p, cmd, k, r, s', hp, -, hprog, hex, rfl⟩ := Machine.step_call hs
  have hcmd : nextCmd c₀ i = some cmd := by
    unfold nextCmd
    rw [hp]
    simp [hprog]
  rw [hcmd] at hdel
  cases cmd with
  | write w =>
      cases w with
      | del k =>
          cases hdel
          have ha := exec_answer hex ho rfl
          cases ha
          show Function.update _ _ _ _ = _
          rw [Function.update_self]
      | _ => cases hdel
  | _ => cases hdel

/-- **Run lemma.**  It stays so as long as nobody writes the definition. -/
theorem poolOk_since (hok : (retiring env (some cronId)).PoolOk c₁)
    (hc : (machine env).Reach (NoAdd cronId) (· = c₁) c) :
    (retiring env (some cronId)).PoolOk c := by
  have hsound : (retiring env (some cronId)).Sound (NoAdd cronId) :=
    retiring_sound fun c i o hno ho j hj => by
      cases hj
      exact hno ho
  refine hsound.reach ?_ hc
  rintro _ rfl
  exact hok

/-- **Run lemma.**  From then on everything dwindles. -/
theorem dwindles_run (hok : (retiring env (some cronId)).PoolOk c)
    (hc : (machine env).Reach (NoAdd cronId) (· = c) c') (i : ℕ) : Dwindles cronId c c' i := by
  induction hc with
  | init hi =>
      rw [hi]
      exact Dwindles.refl i
  | step a hprev _ hs ih => exact ih.trans (dwindles_step (poolOk_since hok hprev) hs i)

/-! ## Listing -/

/-- A command of a request while the deployment goes on: it is executed, or rejected, in some
later state. -/
def meanwhile (env : Env) (ok : State → Action → Prop) (c : State) (cmd : Cmd)
    (r : Except Err cmd.Resp) (c' : State) : Prop :=
  ∃ c₁ o s, (machine env).Reach ok (· = c) c₁ ∧ c' = { c₁ with store := s } ∧
    (World.answer env c₁.store o cmd = some (r, s) ∨ r = .error .rejected ∧ s = c₁.store)

/-- A read finds the definition gone, and leaves everything as it is. -/
theorem poolOk_meanwhile (hok : (retiring env (some cronId)).PoolOk c) {cmd : Cmd}
    {r : Except Err cmd.Resp} (h : meanwhile env (NoAdd cronId) c cmd r c')
    (hread : ∀ s o s', World.answer env s o cmd = some (r, s') → s' = s) :
    (retiring env (some cronId)).PoolOk c' := by
  obtain ⟨c₁, o, s, hc₁, rfl, ha⟩ := h
  have hs : s = c₁.store := by
    rcases ha with ha | ⟨-, hs⟩
    · exact hread _ _ _ ha
    · exact hs
  rw [hs]
  exact poolOk_since hok hc₁

/-- No entry of `listJobs` is the job. -/
def Unlisted (cronId : CronId) (r : Except Err (List CronManager.ListedJob)) (_ : State) : Prop :=
  ∀ jobs, r = .ok jobs → ∀ job ∈ jobs, job.cronId ≠ cronId

/-- The id of a listed job is the one that is stored. -/
theorem cronId_of_listed {data : CronHash} {job : CronManager.ListedJob}
    (h : CronManager.listed data = .ok (some job)) : data.cronId = some job.cronId := by
  unfold CronManager.listed at h
  split at h
  · cases h
  · rename_i i hi
    cases hp : parsePayload data.payload with
    | error e =>
        rw [hp] at h
        cases h
    | ok payload =>
        rw [hp] at h
        cases h
        exact (Option.filter_eq_some_iff.mp hi).1

theorem listFrom_unlisted (hok : (retiring env (some cronId)).PoolOk c) (cronIds : List CronId) :
    Ends (meanwhile env (NoAdd cronId)) c (CronManager.listFrom cronIds) (Unlisted cronId) := by
  induction cronIds generalizing c with
  | nil =>
      refine ends_pure fun jobs h => ?_
      cases h
      exact fun job hjob => by cases hjob
  | cons i cronIds ih =>
      refine ends_step (fun data c' hstep => ?_) (fun e c' _ jobs h => by cases h)
      have hok' : (retiring env (some cronId)).PoolOk c' :=
        poolOk_meanwhile hok hstep fun s o s' ha => by
          cases ha
          rfl
      obtain ⟨c₁, o, s, hc₁, -, ha | ⟨hr, -⟩⟩ := hstep
      · -- what is stored under another id is not the job, and the job itself is gone
        have hold := (poolOk_since hok hc₁).1
        cases ha
        cases hl : CronManager.listed (c₁.store.redis.crons (redisKeys.cronDef i)) with
        | error e =>
            dsimp only
            exact ends_throw fun jobs h => by cases h
        | ok job =>
            dsimp only
            refine ends_bind (Unlisted cronId) (ih hok') (fun jobs c₂ hjobs => ?_)
              fun e c₂ _ jobs h => by cases h
            refine ends_pure fun all h => ?_
            cases h
            intro x hx
            rcases List.mem_append.mp hx with hx | hx
            · have hjob : job = some x := by simpa using hx
              have hid := cronId_of_listed (hjob ▸ hl)
              have hi : x.cronId = i := hold.named i x.cronId hid
              rintro rfl
              rw [← hi, hold.gone x.cronId rfl] at hid
              cases hid
            · exact hjobs jobs rfl x hx
      · cases hr

/-- **A removed job is not listed.** -/
theorem listJobs_unlisted (hok : (retiring env (some cronId)).PoolOk c) :
    Ends (meanwhile env (NoAdd cronId)) c CronManager.listJobs (Unlisted cronId) := by
  refine ends_step (fun cronIds c' hstep => ?_) (fun e c' _ jobs h => by cases h)
  refine listFrom_unlisted (poolOk_meanwhile hok hstep fun s o s' ha => ?_) cronIds
  cases ha
  rfl

/-- **A removed job stays removed.**  When the definition of a recurring job has been deleted,
whatever happens then, as long as nobody writes it again: a process enqueues at most one more
job for it and puts its entry back at most once more, and only if it has read the definition
before the deletion; a process that has none to enqueue never gets one; and a list requested
from then on does not show the job. -/
theorem removed_for_good (h₀ : (machine env).Reach Anything Blank c₀)
    (hrem : Removes env cronId c₀ c₁) (hc : (machine env).Reach (NoAdd cronId) (· = c₁) c) :
    (∀ c', (machine env).Reach (NoAdd cronId) (· = c) c' → ∀ i, Dwindles cronId c c' i) ∧
      Ends (meanwhile env (NoAdd cronId)) c CronManager.listJobs (Unlisted cronId) := by
  have hok := poolOk_since (poolOk_removed (poolOk_of_reach h₀) hrem) hc
  exact ⟨fun c' hc' i => dwindles_run hok hc' i, listJobs_unlisted hok⟩

/-- A recurring job that is removed. -/
def recurring : Task :=
  .addJob { cronId := "c", jobName := "report", cronExpression := "* * * * * *" }

/-- The theorem on a run in which a scheduler has read the definition when it is deleted.  It
puts the entry back and enqueues the job; a second scheduler finds the entry, removes it, and
that is all. -/
theorem removed_for_good_restored :
    ∃ c₀ c₁ c, (machine sample).Reach Anything Blank c₀ ∧ Removes sample "c" c₀ c₁ ∧
      (machine sample).Reach (NoAdd "c") (· = c₁) c ∧ carrying "c" c₁ 1 = 1 ∧
      enqueued "c" c 1 = 1 ∧ restored "c" c 1 = 1 ∧
      "c" ∉ c.store.redis.zsets redisKeys.cronSchedule ∧
      (∀ c', (machine sample).Reach (NoAdd "c") (· = c) c' → ∀ i, Dwindles "c" c c' i) ∧
      Ends (meanwhile sample (NoAdd "c")) c CronManager.listJobs (Unlisted "c") := by
  have hrun : ((machine sample).walk Anything blank ([.start recurring] ++ goes 0 3 ++
      [.drift (.pass 1000), .start .tick, .call 1 (.members [])] ++ goes 1 5 ++
      [.start (.removeJob "c")])).any (fun c₀ =>
        decide ((nextCmd c₀ 2).bind deletes = some (redisKeys.cronDef "c")) &&
        ((machine sample).step c₀ (.call 2 .plain)).any fun c₁ =>
          decide (carrying "c" c₁ 1 = 1) &&
          ((machine sample).walk (NoAdd "c") c₁ (goes 2 1 ++ goes 1 2 ++ [.call 1 (.fresh j1)] ++
            goes 1 3 ++ [.drift (.pass 1000), .start .tick, .call 3 (.members ["default"])] ++
            goes 3 6)).any fun c =>
              decide (enqueued "c" c 1 = 1 ∧ restored "c" c 1 = 1 ∧
                "c" ∉ c.store.redis.zsets redisKeys.cronSchedule)) = true := by
    decide +kernel
  obtain ⟨c₀, hc₀, h₀⟩ := (Option.any_eq_true _ _).mp hrun
  rw [Bool.and_eq_true] at h₀
  obtain ⟨c₁, hs, h₁⟩ := (Option.any_eq_true _ _).mp h₀.2
  rw [Bool.and_eq_true] at h₁
  obtain ⟨c, hc, h⟩ := (Option.any_eq_true _ _).mp h₁.2
  have hreach₀ := (Machine.Reach.init blank_blank).walk hc₀
  have hrem : Removes sample "c" c₀ c₁ := ⟨2, .plain, rfl, of_decide_eq_true h₀.1, hs⟩
  have hinit : (machine sample).Reach (NoAdd "c") (· = c₁) c₁ := .init rfl
  have hreach := hinit.walk hc
  obtain ⟨hjobs, hentries, hnone⟩ := of_decide_eq_true h
  exact ⟨c₀, c₁, c, hreach₀, hrem, hreach, of_decide_eq_true h₁.1, hjobs, hentries, hnone,
    removed_for_good hreach₀ hrem hreach⟩

end Result

end Removal

end NexusQueue
