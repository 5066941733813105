/-
# Enqueueing when a command is rejected

`Producer.enqueue` writes the row first and makes the job visible in one `MULTI`, so that a
call that throws has left nothing for a worker to run, and its caller may repeat it.  But
two commands come after the `MULTI`: the idempotency key is stored, and the event is
published.  If one of these is rejected the call throws as well, and the job is there
(`safe_iff`).
-/
import NexusQueue.Faulty

namespace NexusQueue

open Prog (Runs Ends logged ends_pure ends_throw ends_bind)

namespace Submission

/-! ## With and without an event bus -/

/-- Publish the event if `deps.eventBus` is there. -/
def publishCreated (eventBus : Bool) (id : JobId) (jobName : String) (queueName : QueueName) :
    Async Unit :=
  if eventBus then do
    let now ← dateNow
    await (.publish
      { type := "job.created", jobId := id, jobName := jobName, queueName := queueName
        timestamp := now })
  else pure ()

/-- The part of `enqueue` after the idempotency lookup. -/
def create (eventBus : Bool) (jobName : String) (payload : Option Json)
    (options : EnqueueOptions) : Async JobId := do
  let id ← uuidv4
  let queueName := options.queue.getD DEFAULT_QUEUE
  let nowIso ← dateNow
  Producer.store id jobName payload options queueName nowIso
  Producer.remember options.idempotencyKey id
  publishCreated eventBus id jobName queueName
  pure id

/-- `Producer.enqueue`, with an event bus or without. -/
def enqueue (eventBus : Bool) (jobName : String) (payload : Option Json)
    (options : EnqueueOptions) : Async JobId := do
  if jobName = "" then
    throw (.error "enqueue: jobName must be a non-empty string")
  else
    match truthy options.idempotencyKey with
    | none => create eventBus jobName payload options
    | some key =>
        let existing ← redis.get (redisKeys.idempotency key)
        match truthy existing with
        | some jobId => pure jobId
        | none => create eventBus jobName payload options

/-- The processes of the deployment have one. -/
theorem enqueue_eq (jobName : String) (payload : Option Json) (options : EnqueueOptions) :
    Producer.enqueue jobName payload options = enqueue true jobName payload options := by
  have hcreate : Producer.create jobName payload options = create true jobName payload options := by
    simp only [Producer.create, create, publishCreated, if_true, Prog.bind_assoc]
  unfold Producer.enqueue enqueue
  split
  · rfl
  · cases truthy options.idempotencyKey with
    | none => exact hcreate
    | some key =>
        refine congrArg (redis.get (redisKeys.idempotency key) >>= ·) (funext fun existing => ?_)
        cases truthy existing with
        | none => exact hcreate
        | some jobId => rfl

/-! ## Where a job is -/

/-- The places a worker or a scheduler takes jobs from. -/
inductive Place where
  | ready (suffix : String)
  | delayed (queueName : QueueName)
  deriving DecidableEq

/-- How often a job is in a place. -/
def entries (s : World) (j : JobId) : Place → ℕ
  | .ready x => (s.redis.lists (.queue x)).count j
  | .delayed q => if j ∈ s.redis.zsets (redisKeys.delayed q) then 1 else 0

/-- The job is in no place. -/
def Absent (s : World) (j : JobId) : Prop := ∀ p, entries s j p = 0

/-- The job is in one place, once. -/
def Once (s : World) (j : JobId) : Prop := ∃ p, entries s j p = 1 ∧ ∀ p', p' ≠ p → entries s j p' = 0

/-- The job has its row, its hash, and one entry. -/
def Stored (s : World) (j : JobId) : Prop :=
  (s.pg.row? j).isSome ∧ (s.redis.jobs (redisKeys.job j)).id = some j ∧ Once s j

/-- A uuid that has not been drawn is nowhere in use. -/
structure Unused (s : World) : Prop where
  absent : ∀ j ∉ s.ids, Absent s j
  row : ∀ j ∉ s.ids, s.pg.row? j = none
  remembered : ∀ k v e, s.redis.strings (redisKeys.idempotency k) = some (v, e) → v ∈ s.ids

/-- What the caller of `enqueue` relies on, for the new job if there is one: if the call
throws, no entry is there; if it returns the id, the job is stored. -/
structure Safe (s : World) (x : Except Err JobId) (s' : World) : Prop where
  thrown : x.isOk = false → ∀ j ∈ s'.ids, j ∉ s.ids → Absent s' j
  returned : ∀ j, x = .ok j → j ∉ s.ids → Stored s' j

/-- A command that comes after the `MULTI` has been rejected. -/
def late : Event Cmd Cmd.Resp Err → Bool
  | ⟨.write (.set _ _ _), .error _⟩ => true
  | ⟨.publish _, .error _⟩ => true
  | _ => false

/-- None has. -/
def InTime (l : Log) : Prop := ∀ e ∈ l, late e = false

instance (l : Log) : Decidable (InTime l) := inferInstanceAs (Decidable (∀ e ∈ l, _))

variable {env : Env} {t : Task} {s s' : World} {j : JobId} {l : Log}

theorem InTime.cons {e : Event Cmd Cmd.Resp Err} (he : late e = false) (hl : InTime l) :
    InTime (e :: l) :=
  List.forall_mem_cons.mpr ⟨he, hl⟩

/-! ## The effect of the `MULTI` -/

/-- The job has just been drawn, and is nowhere yet. -/
structure Drawn (s : World) (j : JobId) (s₁ : World) : Prop where
  fresh : j ∉ s.ids
  ids : s₁.ids = insert j s.ids
  absent : Absent s₁ j

/-- The job is stored, and is the only new one. -/
structure Created (s : World) (j : JobId) (s₁ : World) : Prop where
  fresh : j ∉ s.ids
  ids : s₁.ids = insert j s.ids
  stored : Stored s₁ j

theorem once_ready (habsent : Absent s j) {s' : World} {x : String}
    (hlists : s'.redis.lists = Function.update s.redis.lists (.queue x)
      (j :: s.redis.lists (.queue x)))
    (hzsets : s'.redis.zsets = s.redis.zsets) : Once s' j := by
  refine ⟨.ready x, ?_, fun p hp => ?_⟩
  · have hnone : (s.redis.lists (.queue x)).count j = 0 := habsent (.ready x)
    show (s'.redis.lists (.queue x)).count j = 1
    rw [hlists, Function.update_self, List.count_cons_self, hnone]
  · cases p with
    | ready y =>
        have hne : Key.queue y ≠ .queue x := fun hkey => hp (by rw [Key.queue.inj hkey])
        show (s'.redis.lists (.queue y)).count j = 0
        rw [hlists, Function.update_of_ne hne]
        exact habsent (.ready y)
    | delayed q =>
        show (if j ∈ s'.redis.zsets (redisKeys.delayed q) then 1 else 0) = 0
        rw [hzsets]
        exact habsent (.delayed q)

theorem once_delayed (habsent : Absent s j) {s' : World} {q : QueueName} {score : ℚ}
    (hlists : s'.redis.lists = s.redis.lists)
    (hzsets : s'.redis.zsets = Function.update s.redis.zsets (redisKeys.delayed q)
      ((s.redis.zsets (redisKeys.delayed q)).zadd score j)) : Once s' j := by
  refine ⟨.delayed q, ?_, fun p hp => ?_⟩
  · show (if j ∈ s'.redis.zsets (redisKeys.delayed q) then 1 else 0) = 1
    rw [hzsets, Function.update_self, if_pos (by simp)]
  · cases p with
    | ready y =>
        show (s'.redis.lists (.queue y)).count j = 0
        rw [hlists]
        exact habsent (.ready y)
    | delayed q' =>
        have hne : redisKeys.delayed q' ≠ redisKeys.delayed q := fun hkey =>
          hp (by rw [Key.delayed.inj hkey])
        show (if j ∈ s'.redis.zsets (redisKeys.delayed q') then 1 else 0) = 0
        rw [hzsets, Function.update_of_ne hne]
        exact habsent (.delayed q')

/-- `store` ends in time: either it throws and the job is nowhere, or the job is stored. -/
def Settled (s : World) (j : JobId) (x : Except Err Unit) (b : World × Log) : Prop :=
  InTime b.2 ∧ if x.isOk then Created s j b.1 else Drawn s j b.1

/-- A row, and then a `MULTI` that makes the job visible. -/
theorem insert_multi_ends {row : NewRow} {ws : List Write} {s₁ : World} (hrow : row.id = j)
    (hdrawn : Drawn s j s₁) (hl : InTime l)
    (hvisible : ∀ s₂ : World, s₂.redis = s₁.redis.multi s₁.clock ws →
      (s₂.redis.jobs (redisKeys.job j)).id = some j ∧ Once s₂ j) :
    Ends (logged (solo env t)) (s₁, l) (do
      await (.insert row)
      redis.multi ws) (Settled s j) := by
  refine ends_solo_of (fun o a s₂ ho => ?_) (fun o e s₂ ho => ?_) fun _ _ => ⟨hl.cons rfl, hdrawn⟩
  · -- the row is there; only the `MULTI` is left
    have hins : ∃ pg, s₁.pg.insert s₁.clock row = .ok pg ∧ s₂ = { s₁ with pg := pg } := by
      simp only [World.answer] at ho
      split at ho
      · rename_i pg hpg
        cases ho
        exact ⟨pg, hpg, rfl⟩
      · cases ho
    obtain ⟨pg, hpg, rfl⟩ := hins
    refine ends_solo_last (fun _ => rfl) ?_ fun _ _ =>
      ⟨(hl.cons rfl).cons rfl, hdrawn.fresh, hdrawn.ids, hdrawn.absent⟩
    obtain ⟨hid, honce⟩ := hvisible { s₁ with pg := pg, redis := s₁.redis.multi s₁.clock ws } rfl
    obtain ⟨r, hr, -⟩ := Postgres.inserted hpg
    rw [hrow] at hr
    refine ⟨(hl.cons rfl).cons rfl, hdrawn.fresh, hdrawn.ids, ?_, hid, honce⟩
    show (pg.row? j).isSome = true
    rw [hr]
    rfl
  · have hsame : s₂ = s₁ := by
      simp only [World.answer] at ho
      split at ho <;> cases ho
      rfl
    rw [hsame]
    exact ⟨hl.cons rfl, hdrawn⟩

/-- The row and the `MULTI` of a new job, whichever place it goes to. -/
theorem store_ends {j : Uuid} (jobName : String) (payload : Option Json)
    (options : EnqueueOptions) (queueName : QueueName) (nowIso : ℕ) {s₁ : World}
    (hdrawn : Drawn s j s₁) (hl : InTime l) :
    Ends (logged (solo env t)) (s₁, l)
      (Producer.store j jobName payload options queueName nowIso) (Settled s j) := by
  unfold Producer.store
  split
  · unfold Producer.enqueueDelayed
    refine ends_solo (a := s₁.clock) (fun _ => rfl) ?_ (by simp [Cmd.faultable])
    refine insert_multi_ends rfl hdrawn (hl.cons rfl) fun s₂ hs₂ => ?_
    refine ⟨by simp [hs₂, Redis.multi, Write.apply, newJobHash, JobHash.merge], ?_⟩
    exact once_delayed hdrawn.absent (by rw [hs₂]; rfl) (by rw [hs₂]; rfl)
  · unfold Producer.enqueueImmediate
    obtain ⟨x, hx⟩ := exists_targetList queueName (options.priority.getD .normal).name
    dsimp only
    rw [hx]
    refine insert_multi_ends rfl hdrawn hl fun s₂ hs₂ => ?_
    refine ⟨by simp [hs₂, Redis.multi, Write.apply, newJobHash, JobHash.merge], ?_⟩
    exact once_ready hdrawn.absent (by rw [hs₂]; rfl) (by rw [hs₂]; rfl)

/-! ## After the `MULTI` -/

/-- Commands after the `MULTI` do not touch the job; if one of them is rejected, it is too
late. -/
def Kept (s : World) (j : JobId) (x : Except Err Unit) (b : World × Log) : Prop :=
  Created s j b.1 ∧ (InTime b.2 ↔ x.isOk)

/-- Storing the idempotency key touches no place, no hash and no row. -/
theorem Created.set {s₁ : World} {k : Key} {v : String} {ex : Option ℕ} (h : Created s j s₁) :
    Created s j { s₁ with redis := (Write.set k v ex).apply s₁.clock s₁.redis } :=
  ⟨h.fresh, h.ids, h.stored⟩

theorem not_inTime {e : Event Cmd Cmd.Resp Err} (he : late e = true) : ¬ InTime (e :: l) := by
  intro hl
  have hfalse : late e = false := hl e (List.mem_cons_self ..)
  rw [he] at hfalse
  cases hfalse

theorem remember_ends (key : Option String) {s₁ : World} (h : Created s j s₁) (hl : InTime l) :
    Ends (logged (solo env t)) (s₁, l) (Producer.remember key j) (Kept s j) := by
  unfold Producer.remember
  split
  · refine ends_solo_last (fun _ => rfl) ⟨h.set, iff_of_true (hl.cons rfl) rfl⟩ fun _ _ => ?_
    exact ⟨h, iff_of_false (not_inTime rfl) (by simp [Except.isOk, Except.toBool])⟩
  · exact ends_pure ⟨h, iff_of_true hl rfl⟩

theorem publishCreated_ends (bus : Bool) (jobName : String) (queueName : QueueName) {s₁ : World}
    (h : Created s j s₁) (hl : InTime l) :
    Ends (logged (solo env t)) (s₁, l) (publishCreated bus j jobName queueName) (Kept s j) := by
  unfold publishCreated
  split
  · refine ends_solo (a := s₁.clock) (fun _ => rfl) ?_ (by simp [Cmd.faultable])
    refine ends_solo_last (fun _ => rfl)
      ⟨h, iff_of_true ((hl.cons rfl).cons rfl) rfl⟩ fun _ _ => ?_
    exact ⟨h, iff_of_false (not_inTime rfl) (by simp [Except.isOk, Except.toBool])⟩
  · exact ends_pure ⟨h, iff_of_true hl rfl⟩

/-! ## The whole call -/

/-- The call is safe if and only if no command after the `MULTI` was rejected. -/
def Judged (s : World) (x : Except Err JobId) (b : World × Log) : Prop :=
  Safe s x b.1 ↔ InTime b.2

/-- A call that throws before the `MULTI` is safe. -/
theorem Drawn.judged {s₁ : World} {e : Err} (h : Drawn s j s₁) (hl : InTime l) :
    Judged s (.error e) (s₁, l) := by
  refine iff_of_true ⟨fun _ i hi hnew => ?_, fun i hi => by cases hi⟩ hl
  rw [h.ids, Finset.mem_insert] at hi
  rcases hi with rfl | hold
  · exact h.absent
  · exact absurd hold hnew

/-- A call that throws after the `MULTI` is not. -/
theorem Created.judged_error {s₁ : World} {e : Err} (h : Created s j s₁) (hl : ¬ InTime l) :
    Judged s (.error e) (s₁, l) := by
  refine iff_of_false (fun hsafe => ?_) hl
  obtain ⟨-, -, p, hp, -⟩ := h.stored
  have hnone : entries s₁ j p = 0 :=
    hsafe.thrown rfl j (by rw [h.ids]; exact Finset.mem_insert_self ..) h.fresh p
  rw [hp] at hnone
  cases hnone

/-- A call that returns the new id is safe. -/
theorem Created.judged_ok {s₁ : World} (h : Created s j s₁) (hl : InTime l) :
    Judged s (.ok j) (s₁, l) := by
  refine iff_of_true ⟨fun hx => ?_, fun i hi _ => ?_⟩ hl
  · cases hx
  · cases hi
    exact h.stored

/-- A call that creates nothing is safe. -/
theorem judged_same {x : Except Err JobId} (hx : ∀ i, x = .ok i → i ∈ s.ids) (hl : InTime l) :
    Judged s x (s, l) :=
  iff_of_true ⟨fun _ _ hi hnew => absurd hi hnew, fun i hi hnew => absurd (hx i hi) hnew⟩ hl

theorem create_ends (bus : Bool) (jobName : String) (payload : Option Json)
    (options : EnqueueOptions) (hunused : Unused s) (hl : InTime l) :
    Ends (logged (solo env t)) (s, l) (create bus jobName payload options) (Judged s) := by
  unfold create
  refine ends_solo_of (fun o j s₁ ho => ?_) (fun o e s₁ ho => ?_) (by simp [Cmd.faultable])
  · -- a fresh id
    have hdraw : Drawn s j s₁ := by
      simp only [World.answer] at ho
      split at ho
      · split at ho
        · cases ho
        · rename_i hid
          cases ho
          exact ⟨hid, rfl, hunused.absent _ hid⟩
      · cases ho
    refine ends_solo (a := s₁.clock) (fun _ => rfl) ?_ (by simp [Cmd.faultable])
    refine ends_bind (Settled s j)
      (store_ends jobName payload options _ _ hdraw ((hl.cons rfl).cons rfl)) ?_ ?_
    · rintro _ ⟨s₂, l₂⟩ ⟨hl₂, hcreated⟩
      refine ends_bind (Kept s j) (remember_ends _ hcreated hl₂) ?_ ?_
      · rintro _ ⟨s₃, l₃⟩ ⟨hkept, hl₃⟩
        refine ends_bind (Kept s j) (publishCreated_ends bus _ _ hkept (hl₃.mpr rfl)) ?_ ?_
        · rintro _ ⟨s₄, l₄⟩ ⟨hkept, hl₄⟩
          exact ends_pure (hkept.judged_ok (hl₄.mpr rfl))
        · rintro e ⟨s₄, l₄⟩ ⟨hkept, hl₄⟩
          exact hkept.judged_error fun h => by cases hl₄.mp h
      · rintro e ⟨s₃, l₃⟩ ⟨hkept, hl₃⟩
        exact hkept.judged_error fun h => by cases hl₃.mp h
    · rintro e ⟨s₂, l₂⟩ ⟨hl₂, hdrawn⟩
      exact Drawn.judged hdrawn hl₂
  · simp only [World.answer] at ho
    split at ho
    · split at ho <;> cases ho
    · cases ho

/-- **A rejected enqueue is safe to repeat, unless it was rejected after the `MULTI`.**  From
stores in which an id that was not drawn is not in use, whichever commands are rejected: the
call does what its caller relies on if and only if neither the `SET` of the idempotency key
nor the publication is rejected. -/
theorem safe_iff (bus : Bool) (jobName : String) (payload : Option Json)
    (options : EnqueueOptions) (hunused : Unused s) {x : Except Err JobId}
    (hrun : Runs (logged (solo env t)) (s, []) (enqueue bus jobName payload options) x (s', l)) :
    Safe s x s' ↔ InTime l := by
  have hnil : InTime [] := by simp [InTime]
  have hends : Ends (logged (solo env t)) (s, []) (enqueue bus jobName payload options)
      (Judged s) := by
    unfold enqueue
    split
    · exact ends_throw (judged_same (by simp) hnil)
    · split
      · exact create_ends bus jobName payload options hunused hnil
      · refine ends_solo (a := s.redis.get s.clock _) (fun _ => rfl) ?_ fun _ _ => ?_
        · split
          · rename_i hfound
            refine ends_pure (judged_same (fun i hi => ?_) (hnil.cons rfl))
            cases hi
            obtain ⟨e, he⟩ := Redis.get_of_truthy hfound
            exact hunused.remembered _ _ e he
          · exact create_ends bus jobName payload options hunused (hnil.cons rfl)
        · exact judged_same (by simp) (hnil.cons rfl)
  exact hends x (s', l) hrun

/-- Nothing is in use in empty stores. -/
theorem unused_blank : Unused {} where
  absent j _ p := by cases p <;> rfl
  row _ _ := rfl
  remembered _ _ _ h := by cases h

/-- A call of `enqueue`. -/
def echo : Task := .enqueue "echo" (some .null) {}

/-- The theorem on a call whose `MULTI` is rejected: nothing is there, and the caller may
repeat it. -/
theorem safe_multi_rejected :
    ∃ x s' l, Runs (logged (solo sample echo)) ({}, []) (enqueue true "echo" (some .null) {}) x
      (s', l) ∧ x.isOk = false ∧ Safe {} x s' := by
  have hplay : (rehearse sample echo [.fresh j1, .plain, .plain, .fault] {} []
      (enqueue true "echo" (some .null) {})).any
        (fun a => decide (a.1.isOk = false ∧ InTime a.2.2)) = true := by
    decide +kernel
  obtain ⟨x, s', l, hrun, htest⟩ := exists_runs_of_rehearse _ hplay
  obtain ⟨hx, hl⟩ := of_decide_eq_true htest
  exact ⟨x, s', l, hrun, hx, (safe_iff true "echo" _ _ unused_blank hrun).mpr hl⟩

/-- The publication is rejected: the call throws, and its job is in the ready list. -/
theorem rejected_publication :
    Unused {} ∧ ∃ x s' l, Runs (logged (solo sample echo)) ({}, [])
      (enqueue true "echo" (some .null) {}) x (s', l) ∧ x.isOk = false ∧
      s'.redis.lists (redisKeys.queue "default") = [j1.text] ∧ ¬ Safe {} x s' := by
  have hplay : (rehearse sample echo [.fresh j1, .plain, .plain, .plain, .plain, .fault] {} []
      (enqueue true "echo" (some .null) {})).any
        (fun a => decide (a.1.isOk = false ∧ a.2.1.ids = {j1.text} ∧
          a.2.1.redis.lists (redisKeys.queue "default") = [j1.text])) = true := by
    decide +kernel
  obtain ⟨x, s', l, hrun, htest⟩ := exists_runs_of_rehearse _ hplay
  obtain ⟨hx, hids, hlist⟩ := of_decide_eq_true htest
  refine ⟨unused_blank, x, s', l, hrun, hx, hlist, fun hsafe => ?_⟩
  have hnone : (s'.redis.lists (redisKeys.queue "default")).count j1.text = 0 :=
    hsafe.thrown hx j1.text (by rw [hids]; decide) (by decide) (.ready "default")
  rw [hlist] at hnone
  cases hnone

end Submission

end NexusQueue
