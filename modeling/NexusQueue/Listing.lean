/-
# Listing recurring jobs (`worker/src/cron.ts`)

`addJob` flattens a definition to strings in one key and schedules it in another;
`removeJob` deletes both; `listJobs` walks through the schedule and decodes the definitions.
Calls that are made one after the other keep a registry this way (`Represents`).  What is
listed is the registry, unless the last definition of an id has a text the decoder takes for
a missing one, or a payload the encoder takes for one (`reads_back_iff`).
-/
import NexusQueue.Cron
import NexusQueue.Sequential

namespace NexusQueue

open Prog (Runs Ends ends_bind ends_pure ends_throw)

namespace Listing

/-! ## Calls -/

/-- A call of the manager that changes the registry. -/
inductive Call where
  | add (job : CronJobDef)
  | remove (cronId : CronId)

/-- The task that makes the call. -/
def Call.task : Call → Task
  | .add job => .addJob job
  | .remove cronId => .removeJob cronId

/-- What the call runs. -/
def Call.body : Call → Async Unit
  | .add job => CronManager.addJob job
  | .remove cronId => CronManager.removeJob cronId

/-- A call with the times of its first and its last world. -/
abbrev Entry := Call × ℕ × ℕ

/-- The calls that have been made one after the other from `s₀` on, the last one first, and
the world they lead to.  Time may pass before every command. -/
inductive Registered (env : Env) (s₀ : World) : List Entry → World → Prop
  | start : Registered env s₀ [] s₀
  | call {l s a s'} : Registered env s₀ l s →
      Runs (unhurried env (fun _ _ => True) a.task) s a.body (.ok ()) s' →
      Registered env s₀ ((a, s.clock, s'.clock) :: l) s'

/-- The last definition of an id, and when it was given, if the last call about that id gave
one. -/
def last? : List Entry → CronId → Option (CronJobDef × ℕ × ℕ)
  | [], _ => none
  | (.add job, start, finish) :: l, cronId =>
      if cronId = job.cronId then some (job, start, finish) else last? l cronId
  | (.remove removed, _) :: l, cronId => if cronId = removed then none else last? l cronId

/-! ## What the stores hold -/

/-- The hash of a definition. -/
def hashOf (job : CronJobDef) : CronHash where
  cronId := some job.cronId
  jobName := some job.jobName
  payload := some (.of (CronManager.payloadOrEmpty job.payload))
  cronExpression := some job.cronExpression
  queue := some (job.queue.getD "default")
  maxAttempts := some (.of (job.maxAttempts.getD 3))
  priority := some (job.priority.getD "normal")

/-- The next run of a definition, as it was computed between two times. -/
def Next (env : Env) (job : CronJobDef) (start finish : ℕ) (next : ℚ) : Prop :=
  ∃ now, start ≤ now ∧ now ≤ finish ∧ env.cronNext job.cronExpression now = some next

/-- The stores hold the registry: the hash and the next run of every id whose last call was
an `addJob`, and no schedule entry for the others. -/
structure Represents (env : Env) (l : List Entry) (s : World) : Prop where
  defined : ∀ cronId job start finish, last? l cronId = some (job, start, finish) →
    s.redis.crons (redisKeys.cronDef cronId) = hashOf job
  scheduled : ∀ cronId job start finish, last? l cronId = some (job, start, finish) →
    ∃ next, (s.redis.zsets redisKeys.cronSchedule).score? cronId = some next ∧
      Next env job start finish next
  gone : ∀ cronId, last? l cronId = none →
    (s.redis.zsets redisKeys.cronSchedule).score? cronId = none

variable {env : Env} {ok : World → Cmd → Prop} {t : Task} {s₀ s s' : World} {l : List Entry}

/-- The last definition of an id has that id. -/
theorem cronId_of_last? {cronId : CronId} {job : CronJobDef} {start finish : ℕ}
    (h : last? l cronId = some (job, start, finish)) : job.cronId = cronId := by
  induction l with
  | nil => cases h
  | cons e l ih =>
      rcases e with ⟨job' | removed, from', upto⟩
      · by_cases hid : cronId = job'.cronId
        · rw [last?, if_pos hid] at h
          cases h
          exact hid.symm
        · rw [last?, if_neg hid] at h
          exact ih h
      · by_cases hid : cronId = removed
        · rw [last?, if_pos hid] at h
          cases h
        · rw [last?, if_neg hid] at h
          exact ih h

/-- A last definition has been given by a call. -/
theorem mem_of_last? {cronId : CronId} {job : CronJobDef} {start finish : ℕ}
    (h : last? l cronId = some (job, start, finish)) : .add job ∈ l.map Prod.fst := by
  induction l with
  | nil => cases h
  | cons e l ih =>
      rcases e with ⟨job' | removed, from', upto⟩
      · by_cases hid : cronId = job'.cronId
        · rw [last?, if_pos hid] at h
          cases h
          exact List.mem_cons_self ..
        · rw [last?, if_neg hid] at h
          exact List.mem_cons_of_mem _ (ih h)
      · by_cases hid : cronId = removed
        · rw [last?, if_pos hid] at h
          cases h
        · rw [last?, if_neg hid] at h
          exact List.mem_cons_of_mem _ (ih h)

/-- Every field of a hash is replaced. -/
theorem merge_hashOf (old : CronHash) (job : CronJobDef) : old.merge (hashOf job) = hashOf job :=
  rfl

/-- **A definition is stored and scheduled.** -/
theorem addJob_ends (job : CronJobDef) :
    Ends (unhurried env ok t) s (CronManager.addJob job) fun x s' => x = .ok () →
      ∃ next, Next env job s.clock s'.clock next ∧
        s'.redis.crons = Function.update s.redis.crons (redisKeys.cronDef job.cronId)
          (hashOf job) ∧
        s'.redis.zsets = Function.update s.redis.zsets redisKeys.cronSchedule
          ((s.redis.zsets redisKeys.cronSchedule).zadd next job.cronId) := by
  unfold CronManager.addJob
  refine ends_later rfl (fun ms o next s₁ hnext => ?_) fun ms o e s₁ hnext h => by cases h
  simp only [World.answer] at hnext
  split at hnext
  · rename_i next' hcron
    cases hnext
    refine ends_later rfl (fun ms₁ o₁ _ s₂ hdef => ?_) fun ms₁ o₁ e s₂ hdef h => by cases h
    cases hdef
    refine Prog.ends_perform fun r s₃ hstep _ => ?_
    obtain ⟨-, ms₂, halone⟩ := hstep
    obtain ⟨o₂, ho₂⟩ := answer_of_alone halone rfl
    cases ho₂
    refine ⟨next, ⟨s.clock + ms, Nat.le_add_right _ _, ?_, hcron⟩, ?_, rfl⟩
    · dsimp only
      omega
    · exact congrArg (Function.update s.redis.crons (redisKeys.cronDef job.cronId))
        (merge_hashOf (s.redis.crons (redisKeys.cronDef job.cronId)) job)
  · cases hnext

/-- **A removal unschedules.** -/
theorem removeJob_ends (cronId : CronId) :
    Ends (unhurried env ok t) s (CronManager.removeJob cronId) fun _ s' =>
      s'.redis.crons = Function.update s.redis.crons (redisKeys.cronDef cronId) {} ∧
      s'.redis.zsets redisKeys.cronSchedule =
        (s.redis.zsets redisKeys.cronSchedule).zrem cronId := by
  unfold CronManager.removeJob
  refine ends_later rfl (fun ms o _ s₁ hdel => ?_) fun ms o e s₁ hdel => by cases hdel
  cases hdel
  refine ends_later rfl (fun ms₁ o₁ n s₂ hrem => ?_) fun ms₁ o₁ e s₂ hrem => by cases hrem
  cases hrem
  refine ends_pure ⟨?_, ?_⟩
  · rw [Redis.zrem_snd]
    rfl
  · rw [Redis.zrem_snd]
    simp [Write.apply]

/-- Two ids have two hashes. -/
theorem cronDef_ne {c c' : CronId} (h : c ≠ c') : redisKeys.cronDef c ≠ redisKeys.cronDef c' :=
  fun heq => h (Key.cronDef.inj heq)

/-- **The stores hold the registry.** -/
theorem represents (hempty : s₀.redis.zsets redisKeys.cronSchedule = ∅)
    (h : Registered env s₀ l s) : Represents env l s := by
  induction h with
  | start =>
      refine ⟨?_, ?_, fun cronId _ => by rw [hempty]; rfl⟩
      · intro cronId job start finish hlast
        cases hlast
      · intro cronId job start finish hlast
        cases hlast
  | @call l s a s' _ hrun ih =>
      cases a with
      -- the id of the call has a new definition and a new score, the others keep theirs
      | add job =>
          obtain ⟨next, hnext, hcrons, hzsets⟩ := addJob_ends job _ _ hrun rfl
          refine ⟨?_, ?_, ?_⟩
          · intro cronId job' start finish hlast
            rw [hcrons]
            by_cases hid : cronId = job.cronId
            · rw [last?, if_pos hid] at hlast
              cases hlast
              rw [hid, Function.update_self]
            · rw [last?, if_neg hid] at hlast
              rw [Function.update_of_ne (cronDef_ne hid)]
              exact ih.defined cronId job' start finish hlast
          · intro cronId job' start finish hlast
            rw [hzsets, Function.update_self, SortedSet.score?_zadd]
            by_cases hid : cronId = job.cronId
            · rw [last?, if_pos hid] at hlast
              cases hlast
              exact ⟨next, if_pos hid, hnext⟩
            · rw [last?, if_neg hid] at hlast
              rw [if_neg hid]
              exact ih.scheduled cronId job' start finish hlast
          · intro cronId hlast
            rw [hzsets, Function.update_self, SortedSet.score?_zadd]
            by_cases hid : cronId = job.cronId
            · rw [last?, if_pos hid] at hlast
              cases hlast
            · rw [last?, if_neg hid] at hlast
              rw [if_neg hid]
              exact ih.gone cronId hlast
      -- the definition and the score of the id go, the others keep theirs
      | remove removed =>
          obtain ⟨hcrons, hzsets⟩ := removeJob_ends removed _ _ hrun
          refine ⟨?_, ?_, ?_⟩
          · intro cronId job' start finish hlast
            by_cases hid : cronId = removed
            · rw [last?, if_pos hid] at hlast
              cases hlast
            · rw [last?, if_neg hid] at hlast
              rw [hcrons, Function.update_of_ne (cronDef_ne hid)]
              exact ih.defined cronId job' start finish hlast
          · intro cronId job' start finish hlast
            by_cases hid : cronId = removed
            · rw [last?, if_pos hid] at hlast
              cases hlast
            · rw [last?, if_neg hid] at hlast
              rw [hzsets, SortedSet.score?_zrem, if_neg hid]
              exact ih.scheduled cronId job' start finish hlast
          · intro cronId hlast
            rw [hzsets, SortedSet.score?_zrem]
            by_cases hid : cronId = removed
            · exact if_pos hid
            · rw [last?, if_neg hid] at hlast
              rw [if_neg hid]
              exact ih.gone cronId hlast

/-! ## What is listed -/

/-- The entry a definition should have: what is missing is replaced by the defaults. -/
def entryOf (job : CronJobDef) : CronManager.ListedJob where
  cronId := job.cronId
  jobName := job.jobName
  payload := job.payload.getD (.obj [])
  cronExpression := job.cronExpression
  queue := some (job.queue.getD "default")
  options := some (some (job.maxAttempts.getD 3), job.priority.getD "normal")

/-- The entry a definition does have, if it has one. -/
def decoded (job : CronJobDef) : Option CronManager.ListedJob :=
  if job.cronId = "" then none
  else some
    { entryOf job with
      payload := CronManager.payloadOrEmpty job.payload
      queue := truthy (some (job.queue.getD "default")) }

/-- The decoder on the hash of a definition. -/
theorem listed_hashOf (job : CronJobDef) :
    CronManager.listed (hashOf job) = .ok (decoded job) := by
  unfold CronManager.listed decoded hashOf
  dsimp only
  by_cases hid : job.cronId = ""
  · rw [if_pos hid, hid, truthy_blank]
  · rw [if_neg hid, truthy_some hid]
    rfl

/-- The loop reads one definition after the other. -/
theorem listFrom_ends {e : CronId → Option CronManager.ListedJob} (cronIds : List CronId)
    (h : ∀ cronId ∈ cronIds,
      CronManager.listed (s.redis.crons (redisKeys.cronDef cronId)) = .ok (e cronId)) :
    Ends (unhurried env ok t) s (CronManager.listFrom cronIds) fun x _ =>
      x = .ok (cronIds.filterMap e) := by
  induction cronIds generalizing s with
  | nil => exact ends_pure rfl
  | cons cronId cronIds ih =>
      unfold CronManager.listFrom
      refine ends_later rfl (fun ms o data s₁ hdata => ?_) fun ms o e s₁ hdata => by cases hdata
      cases hdata
      dsimp only
      rw [h cronId (.head _)]
      refine ends_bind _ (ih fun cronId' hmem => h cronId' (.tail _ hmem))
        (fun jobs s₂ hjobs => ?_) fun e s₂ he => by cases he
      cases hjobs
      refine ends_pure ?_
      rw [List.filterMap_cons]
      cases hentry : e cronId with
      | none => simp
      | some job => simp

/-- The hash of a scheduled id is decoded as its last definition. -/
theorem listed_of_represents (h : Represents env l s) {cronId : CronId}
    (hmem : cronId ∈ (s.redis.zsets redisKeys.cronSchedule).rangeByScore none) :
    CronManager.listed (s.redis.crons (redisKeys.cronDef cronId)) =
      .ok ((last? l cronId).bind fun d => decoded d.1) := by
  obtain ⟨score, hscore, -⟩ := (SortedSet.mem_rangeByScore _ _ _).mp hmem
  cases hlast : last? l cronId with
  | none =>
      rw [h.gone cronId hlast] at hscore
      cases hscore
  | some d =>
      obtain ⟨job, start, finish⟩ := d
      rw [h.defined cronId job start finish hlast, listed_hashOf]
      rfl

/-- **What is listed.**  The definitions in the order of the schedule, as they are decoded. -/
theorem listJobs_ends (h : Represents env l s) :
    Ends (unhurried env ok t) s CronManager.listJobs fun x _ =>
      x = .ok (((s.redis.zsets redisKeys.cronSchedule).rangeByScore none).filterMap
        fun cronId => (last? l cronId).bind fun d => decoded d.1) := by
  unfold CronManager.listJobs
  refine ends_later rfl (fun ms o cronIds s₁ hids => ?_) fun ms o e s₁ hids => by cases hids
  cases hids
  exact listFrom_ends _ fun cronId hmem => listed_of_represents h hmem

/-- The list reads the registry back: one entry for each id whose last call was an `addJob`
and none for any other, in order of the next runs, each with the values of that call. -/
def ReadsBack (env : Env) (l : List Entry) (x : Except Err (List CronManager.ListedJob)) : Prop :=
  ∃ (cronIds : List CronId) (next : CronId → ℚ), cronIds.Nodup ∧
    (∀ cronId, cronId ∈ cronIds ↔ (last? l cronId).isSome) ∧
    (∀ cronId job start finish, last? l cronId = some (job, start, finish) →
      Next env job start finish (next cronId)) ∧
    cronIds.Pairwise (fun c c' => next c ≤ next c') ∧
    x = .ok (cronIds.filterMap fun cronId => (last? l cronId).map fun d => entryOf d.1)

/-- The last definitions have no text that is taken for a missing one, and no payload
`null`. -/
def Readable (l : List Entry) : Prop :=
  ∀ cronId job start finish, last? l cronId = some (job, start, finish) →
    cronId ≠ "" ∧ job.queue ≠ some "" ∧ job.payload ≠ some .null

/-- A definition without such texts is decoded to the entry it should have. -/
theorem decoded_eq {job : CronJobDef} (hid : job.cronId ≠ "") (hqueue : job.queue ≠ some "")
    (hpayload : job.payload ≠ some .null) : decoded job = some (entryOf job) := by
  have htruthy : truthy (some (job.queue.getD "default")) = some (job.queue.getD "default") := by
    refine truthy_some ?_
    cases hq : job.queue with
    | none => decide
    | some q =>
        rintro rfl
        exact hqueue hq
  have horEmpty : CronManager.payloadOrEmpty job.payload = job.payload.getD (.obj []) := by
    cases hp : job.payload with
    | none => rfl
    | some v =>
        cases v with
        | null => exact absurd hp hpayload
        | _ => rfl
  rw [decoded, if_neg hid, htruthy, horEmpty]
  rfl

/-- An entry that is decoded to what it should be comes from a definition without such
texts. -/
theorem of_decoded_eq {job job' : CronJobDef} (h : decoded job' = some (entryOf job))
    (hsame : job'.cronId = job.cronId → job' = job) :
    job.cronId ≠ "" ∧ job.queue ≠ some "" ∧ job.payload ≠ some .null := by
  unfold decoded at h
  by_cases hid : job'.cronId = ""
  · rw [if_pos hid] at h
    cases h
  · rw [if_neg hid] at h
    have hentry := Option.some.inj h
    have hids : job'.cronId = job.cronId := congrArg CronManager.ListedJob.cronId hentry
    obtain rfl := hsame hids
    refine ⟨hid, fun hqueue => ?_, fun hpayload => ?_⟩
    · have := congrArg CronManager.ListedJob.queue hentry
      simp [entryOf, hqueue] at this
    · have := congrArg CronManager.ListedJob.payload hentry
      simp [entryOf, hpayload, CronManager.payloadOrEmpty] at this

/-- **What is listed is the registry, if it is readable.** -/
theorem readsBack_of_readable (h : Represents env l s) (hread : Readable l) :
    Ends (unhurried env ok t) s CronManager.listJobs fun x _ => ReadsBack env l x := by
  refine (listJobs_ends h).mono fun x s' hx => ?_
  have hscore : ∀ cronId ∈ (s.redis.zsets redisKeys.cronSchedule).rangeByScore none,
      (last? l cronId).isSome := by
    intro cronId hmem
    obtain ⟨score, hscore, -⟩ := (SortedSet.mem_rangeByScore _ _ _).mp hmem
    rw [← Option.ne_none_iff_isSome]
    intro hlast
    rw [h.gone cronId hlast] at hscore
    cases hscore
  refine ⟨(s.redis.zsets redisKeys.cronSchedule).rangeByScore none,
    fun cronId => ((s.redis.zsets redisKeys.cronSchedule).score? cronId).getD 0,
    SortedSet.nodup_rangeByScore _ _, fun cronId => ⟨hscore cronId, fun hsome => ?_⟩, ?_, ?_, ?_⟩
  · obtain ⟨⟨job, start, finish⟩, hlast⟩ := Option.isSome_iff_exists.mp hsome
    obtain ⟨next, hnext, -⟩ := h.scheduled cronId job start finish hlast
    exact (SortedSet.mem_rangeByScore _ _ _).mpr ⟨next, hnext, fun b hb => by cases hb⟩
  · intro cronId job start finish hlast
    obtain ⟨next, hnext, hrun⟩ := h.scheduled cronId job start finish hlast
    dsimp only
    rw [hnext]
    exact hrun
  · refine (SortedSet.pairwise_rangeByScore _ _).imp_of_mem fun hmem hmem' hle => ?_
    obtain ⟨score, hs, -⟩ := (SortedSet.mem_rangeByScore _ _ _).mp hmem
    obtain ⟨score', hs', -⟩ := (SortedSet.mem_rangeByScore _ _ _).mp hmem'
    dsimp only
    rw [hs, hs']
    exact hle score score' hs hs'
  · rw [hx]
    refine congrArg Except.ok (List.filterMap_congr fun cronId _ => ?_)
    cases hlast : last? l cronId with
    | none => rfl
    | some d =>
        obtain ⟨job, start, finish⟩ := d
        obtain ⟨hid, hqueue, hpayload⟩ := hread cronId job start finish hlast
        exact decoded_eq (cronId_of_last? hlast ▸ hid) hqueue hpayload

/-- **What is listed as the registry is readable.** -/
theorem readable_of_readsBack (h : Represents env l s) :
    Ends (unhurried env ok t) s CronManager.listJobs fun x _ => ReadsBack env l x → Readable l := by
  refine (listJobs_ends h).mono fun x s' hx => ?_
  rintro ⟨cronIds, next, -, hmem, -, -, hlist⟩ cronId job start finish hlast
  -- the entry of the id has been listed, and decoded from a definition with the same id
  have hentry : entryOf job ∈ cronIds.filterMap
      fun cronId => (last? l cronId).map fun d => entryOf d.1 :=
    List.mem_filterMap.mpr ⟨cronId, (hmem cronId).mpr (by rw [hlast]; rfl), by rw [hlast]; rfl⟩
  rw [hx] at hlist
  rw [← Except.ok.inj hlist] at hentry
  obtain ⟨cronId', -, hdecoded⟩ := List.mem_filterMap.mp hentry
  obtain ⟨⟨job', start', finish'⟩, hlast', hjob'⟩ := Option.bind_eq_some_iff.mp hdecoded
  have hid := cronId_of_last? hlast
  have hid' := cronId_of_last? hlast'
  have hfacts := of_decoded_eq hjob' fun hsame => by
    have heq : cronId' = cronId := by rw [← hid, ← hid', hsame]
    rw [heq, hlast] at hlast'
    cases hlast'
    rfl
  rw [hid] at hfacts
  exact hfacts

/-- **`listJobs` reads back what was written, if that is readable.**  After any calls of
`addJob` and `removeJob`, one after the other: the list is the registry if and only if no last
definition has an empty id, an empty queue, or the payload `null`. -/
theorem reads_back_iff (hempty : s₀.redis.zsets redisKeys.cronSchedule = ∅)
    (h : Registered env s₀ l s) {x : Except Err (List CronManager.ListedJob)}
    (hrun : Runs (unhurried env (fun _ _ => True) t) s CronManager.listJobs x s') :
    ReadsBack env l x ↔ Readable l := by
  have hrep := represents hempty h
  constructor
  · exact readable_of_readsBack hrep x s' hrun
  · intro hread
    exact readsBack_of_readable hrep hread x s' hrun

/-- A definition with defaults only. -/
def echo : CronJobDef := { cronId := "c1", jobName := "echo", cronExpression := "* * * * *" }

/-- The same with the payload `null`. -/
def echoNull : CronJobDef := { echo with payload := some .null }

/-- Definitions that can be decoded are listed. -/
theorem exists_listFrom {e : CronId → Option CronManager.ListedJob} (cronIds : List CronId)
    (h : ∀ cronId ∈ cronIds,
      CronManager.listed (s.redis.crons (redisKeys.cronDef cronId)) = .ok (e cronId)) :
    ∃ x s', Runs (unhurried env (fun _ _ => True) .janitor) s (CronManager.listFrom cronIds) x s' := by
  induction cronIds with
  | nil => exact ⟨_, s, .ret⟩
  | cons cronId cronIds ih =>
      obtain ⟨x, s', hrest⟩ := ih fun cronId' hmem => h cronId' (.tail _ hmem)
      have hone : unhurried env (fun _ _ => True) .janitor s
          (.hgetallCron (redisKeys.cronDef cronId))
          (.ok (s.redis.crons (redisKeys.cronDef cronId))) s :=
        ⟨trivial, 0, .plain, rfl, rfl⟩
      cases x with
      | ok jobs =>
          refine ⟨.ok ((e cronId).toList ++ jobs), s', .call hone ?_⟩
          dsimp only [Prog.bind]
          rw [h cronId (.head _)]
          exact hrest.bind .ret
      | error err =>
          have hends : Ends (unhurried env (fun _ _ => True) .janitor) s
              (CronManager.listFrom cronIds) fun x _ => x = .ok (cronIds.filterMap e) :=
            listFrom_ends cronIds fun cronId' hmem => h cronId' (.tail _ hmem)
          cases hends _ _ hrest

/-- From empty stores any calls can be made, the last one first, and the registry listed. -/
theorem exists_listed (calls : List Call) : ∃ l s x s', l.map Prod.fst = calls ∧
    Registered sample {} l s ∧
      Runs (unhurried sample (fun _ _ => True) .janitor) s CronManager.listJobs x s' := by
  have made : ∀ (s : World) (a : Call), ∃ s',
      Runs (unhurried sample (fun _ _ => True) a.task) s a.body (.ok ()) s' := by
    rintro s (job | cronId)
    · exact ⟨_, .call ⟨trivial, 0, .plain, rfl, rfl⟩ (.call ⟨trivial, 0, .plain, rfl, rfl⟩
        (.call ⟨trivial, 0, .plain, rfl, rfl⟩ .ret))⟩
    · exact ⟨_, .call ⟨trivial, 0, .plain, rfl, rfl⟩ (.call ⟨trivial, 0, .plain, rfl, rfl⟩ .ret)⟩
  have hreg : ∃ l s, l.map Prod.fst = calls ∧ Registered sample {} l s := by
    induction calls with
    | nil => exact ⟨[], {}, rfl, .start⟩
    | cons a calls ih =>
        obtain ⟨l, s, hcalls, hreg⟩ := ih
        obtain ⟨s', hrun⟩ := made s a
        refine ⟨_, s', ?_, .call hreg hrun⟩
        rw [List.map_cons, hcalls]
  obtain ⟨l, s, hcalls, hreg⟩ := hreg
  have hrep := represents rfl hreg
  have hfrom : ∃ x s', Runs (unhurried sample (fun _ _ => True) .janitor) s
      (CronManager.listFrom ((s.redis.zsets redisKeys.cronSchedule).rangeByScore none)) x s' :=
    exists_listFrom _ fun cronId hmem => listed_of_represents hrep hmem
  obtain ⟨x, s', hlist⟩ := hfrom
  exact ⟨l, s, x, s', hcalls, hreg, .call ⟨trivial, 0, .plain, rfl, rfl⟩ hlist⟩

/-- A definition that leaves nothing out. -/
def report : CronJobDef where
  cronId := "c2"
  jobName := "report"
  payload := some (.str "daily")
  cronExpression := "0 0 * * *"
  queue := some "mail"
  maxAttempts := some 5
  priority := some "high"

/-- Two definitions are added, one of them is removed, and the other one is overwritten. -/
def edits : List Call :=
  [.add { report with payload := some (.str "weekly") }, .remove "c1", .add report, .add echo]

/-- The theorem on a registry that has been edited. -/
theorem reads_back_echo : ∃ l s x s', l.map Prod.fst = edits ∧ Registered sample {} l s ∧
    Runs (unhurried sample (fun _ _ => True) .janitor) s CronManager.listJobs x s' ∧
    ReadsBack sample l x := by
  obtain ⟨l, s, x, s', hcalls, hreg, hrun⟩ := exists_listed edits
  refine ⟨l, s, x, s', hcalls, hreg, hrun, (reads_back_iff rfl hreg hrun).mpr ?_⟩
  intro cronId job start finish hlast
  -- what is left are the entries of the calls that have added something
  have hmem := mem_of_last? hlast
  rw [hcalls] at hmem
  simp only [edits, List.mem_cons, Call.add.injEq, reduceCtorEq, List.not_mem_nil, or_false,
    false_or] at hmem
  rw [← cronId_of_last? hlast]
  rcases hmem with rfl | rfl | rfl
  · exact ⟨by decide, by decide, by simp⟩
  · exact ⟨by decide, by decide, by simp [report]⟩
  · exact ⟨by decide, by decide, by simp [echo]⟩

/-- The payload `null` is listed as `{}`. -/
theorem null_not_read_back : ∃ l s x s', l.map Prod.fst = [.add echoNull] ∧
    Registered sample {} l s ∧
    Runs (unhurried sample (fun _ _ => True) .janitor) s CronManager.listJobs x s' ∧
    ¬ ReadsBack sample l x := by
  obtain ⟨l, s, x, s', hcalls, hreg, hrun⟩ := exists_listed [.add echoNull]
  refine ⟨l, s, x, s', hcalls, hreg, hrun, fun hback => ?_⟩
  have hread := readable_of_readsBack (represents rfl hreg) x s' hrun hback
  obtain ⟨⟨a, start, finish⟩, rfl, rfl⟩ := List.map_eq_singleton_iff.mp hcalls
  exact (hread "c1" echoNull start finish (if_pos rfl)).2.2 rfl

end Listing

end NexusQueue
