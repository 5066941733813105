/-
# The course of a call

What a `processOne` call does with the attempts of its job and with its entry on the
processing list, in more detail than custody needs: which hash it has read and when,
when the attempt is counted in Postgres and in Redis, what the handler did, and whether
the entry has been removed.

* `fetching`, `claimed`, `marked`, `active`: before the hash is read, and before the
  attempt is counted in Postgres, in Redis, and made;
* `running`, `thrown`: the handler has returned, or it or `complete` has thrown;
* `failing`, `clocked`: `handleFailure` has read the hash, and the clock;
* `released`, `spent`: the entry has been removed, and then something was rejected;
* `leaked`: the call ends without removing its entry; `over`: the call has settled, or
  the task is none.

A pull loop that has pulled a job is `holding` it until it has dispatched it.
-/
import NexusQueue.Repertoire
import NexusQueue.Conduct

namespace NexusQueue

open Prog (Only only_pure only_throw only_bind only_handle only_perform only_step)

/-- Where a call is, or a pull loop. -/
inductive Course where
  | holding
  | fetching
  | claimed (hash : JobHash)
  | marked (hash : JobHash)
  | active (hash : JobHash)
  | running
  | thrown
  | failing (hash : JobHash)
  | clocked (hash : JobHash) (now : ℕ)
  | released
  | spent
  | leaked
  | over

/-- The number of attempts, and whether there are no more, as `handleFailure` reads
them. -/
def JobHash.tried (h : JobHash) : Option ℚ := Worker.numberOr h.attempts 0

/-- No attempts are left. -/
def JobHash.exhausted (h : JobHash) : Bool :=
  Worker.geNumber h.tried (Worker.numberOr h.maxAttempts 3)

namespace Course

/-- The hash `handleFailure` has read. -/
def failure : Course → Option JobHash
  | .failing h | .clocked h _ => some h
  | _ => none

/-- A call may settle: its entry has been removed, or it never will be. -/
def settles : Course → Prop
  | .released | .spent | .leaked => True
  | .clocked h _ => h.tried = none
  | _ => False

/-- The commands of a call that concern the attempts and the entry, and where it may
issue them. -/
def permits (j : JobId) : Course → Cmd → Prop
  | l, .handler _ _ a => ∃ h, l = .active h ∧ a = h.tried.map (· + 1)
  | l, .update _ p => p.countAttempt = true ↔ ∃ h, l = .claimed h
  | l, .write (.hset k f) => (f.attempts = none ∧ ∀ h, l ≠ .marked h) ∨
      ∃ h, l = .marked h ∧ k = redisKeys.job j ∧ f.attempts = some (Worker.nextAttempt h.attempts)
  | l, .write (.lpush _ _) => l = .spent ∨ ∃ h ∈ l.failure, h.exhausted = true
  | l, .write (.zadd _ score _) => l = .spent ∨ ∃ h now a, l = .clocked h now ∧
      h.exhausted = false ∧ h.tried = some a ∧ score = now + Worker.backoff a
  | l, .multi _ => ∃ h, l = .claimed h
  | l, .onWorker _ (.settle _) => l.settles
  | _, _ => True

/-- A call after an answer. -/
def onCall : Course → (c : Cmd) → c.Resp → Course
  | .fetching, .hgetall _, h => if (truthy h.jobName).isSome then .claimed h else .leaked
  | .claimed h, .update _ _, _ => .marked h
  | .claimed _, .multi _, _ => .released
  | .marked h, .write (.hset _ _), _ => .active h
  | .active _, .handler _ _ _, _ => .running
  | .active _, .hgetall _, h => .failing h
  | .thrown, .hgetall _, h => .failing h
  | .failing h, .now, now => .clocked h now
  | .running, .write (.lrem _ _ _), _ => .released
  | .failing _, .write (.lrem _ _ _), _ => .released
  | .clocked _ _, .write (.lrem _ _ _), _ => .released
  | _, .onWorker _ (.settle _), _ => .over
  | l, _, _ => l

/-- A call after a rejection.  `complete` runs inside the `try` of the handler, a
failed publication is ignored, and nothing else is caught. -/
def afterError : Course → Cmd → Course
  | l, .publish _ => l
  | .active _, .handler _ _ _ => .thrown
  | .running, _ => .thrown
  | .released, _ => .spent
  | .spent, _ => .spent
  | .over, _ | .holding, _ => .over
  | _, _ => .leaked

end Course

/-- A pull loop after an answer. -/
def Course.onLoop : (c : Cmd) → c.Resp → Course
  | .rpoplpush _ _, r => (truthy r).elim .over fun _ => .holding
  | .blmove _ _, r => (truthy r).elim .over fun _ => .holding
  | _, _ => .over

/-- The commands of a pull loop. -/
def Cmd.looping : Cmd → Prop
  | .rpoplpush _ _ | .blmove _ _ | .sleep _ | .onWorker _ _ => True
  | _ => False

/-- The course: a protocol of `processOne` calls and pull loops.  Other tasks count no
attempts. -/
def course : Protocol Task Cmd Cmd.Resp Err Course where
  start
    | .processOne _ _ _ => .fetching
    | _ => .over
  permits t l c := match t with
    | .processOne _ _ j => l.permits j c
    | .loop w => c.looping ∧ (l = .holding → ∃ j, c = .onWorker w (.dispatch j))
    | _ => t.may c
  next t l c r := match t, r with
    | .processOne _ _ _, .ok a => l.onCall c a
    | .processOne _ _ _, .error _ => l.afterError c
    | .loop _, .ok a => .onLoop c a
    | _, _ => .over

namespace Course

variable {env : Env} {w : WorkerId} {n : ℕ} {j : JobId}

/-- A call that has removed its entry and was broken off goes on as it is. -/
theorem concludes_spent (c : Cmd) (hc : c.concludes) :
    course.permits (.processOne w n j) .spent c ∧
      ∀ r, course.next (.processOne w n j) .spent c r = .spent := by
  constructor
  · cases c with
    | write x =>
        cases x with
        | hset k f => exact Or.inl ⟨hc, by simp⟩
        | lpush _ _ | zadd _ _ _ => exact Or.inl rfl
        | lrem _ _ _ => trivial
        | _ => exact hc.elim
    | update id p =>
        have hp : p.countAttempt = false := hc
        change p.countAttempt = true ↔ _
        simp [hp]
    | hgetall _ | now | publish _ => trivial
    | _ => exact hc.elim
  · rintro (e | a)
    · cases c <;> rfl
    · cases c <;> first | rfl | exact hc.elim

/-- A call may settle, whether it has returned or thrown. -/
def Settled {α : Type} (_ : Except Err α) (l : Course) : Prop := l.settles

/-- A publication does not move a call. -/
theorem publishQuietly_course (e : JobEvent) (l : Course) :
    Follows course (.processOne w n j) l (redis.publishQuietly e) fun r l' => r.isOk ∧ l' = l := by
  refine follows_handle (fun _ l' => l' = l) (follows_perform trivial fun r => ?_) ?_ ?_
  · cases r with
    | ok a => cases l <;> rfl
    | error e => cases l <;> rfl
  · rintro _ l' rfl
    exact ⟨rfl, rfl⟩
  · rintro _ l' rfl
    exact follows_pure ⟨rfl, rfl⟩

/-- A call that has removed its entry ends with a publication. -/
theorem released_publish (e : JobEvent) :
    Follows course (.processOne w n j) .released (redis.publishQuietly e) Settled := by
  refine follows_mono (publishQuietly_course e .released) ?_
  rintro r l ⟨-, rfl⟩
  trivial

theorem deadLetter_course (message : String) {h : JobHash} (hex : h.exhausted = true) :
    Follows course (.processOne w n j) (.failing h) (Worker.deadLetter w j message h) Settled := by
  refine follows_step (by simp [course, permits]) (fun _ => ?_) (fun _ => trivial)
  refine follows_step trivial (fun completedAt => ?_) (fun _ => trivial)
  refine follows_step (Or.inl ⟨rfl, by simp [course, onCall]⟩) (fun _ => ?_) (fun _ => trivial)
  refine follows_step (Or.inr ⟨h, rfl, hex⟩) (fun _ => ?_) (fun _ => trivial)
  refine follows_step trivial (fun _ => ?_) (fun _ => trivial)
  exact follows_step trivial (fun now => released_publish _) (fun _ => trivial)

theorem scheduleRetry_course {h : JobHash} (hex : h.exhausted = false) :
    Follows course (.processOne w n j) (.failing h) (Worker.scheduleRetry w j h.tried h)
      Settled := by
  refine follows_step trivial (fun now => ?_) (fun _ => trivial)
  refine follows_step (by simp [course, permits, onCall]) (fun _ => ?_) (fun _ => trivial)
  refine follows_step (Or.inl ⟨rfl, by simp [course, onCall]⟩) (fun _ => ?_) (fun _ => trivial)
  cases htried : h.tried with
  | none => exact follows_throw htried
  | some a =>
      refine follows_step (Or.inr ⟨h, now, a, rfl, hex, htried, rfl⟩) (fun _ => ?_)
        (fun _ => trivial)
      refine follows_perform trivial fun r => ?_
      cases r <;> trivial

/-- A call that has made its attempt, or tried to. -/
def attempted (l : Course) : Prop := (∃ h, l = .active h) ∨ l = .thrown ∨ l = .spent

theorem handleFailure_course (message : String) {l : Course} (hl : l.attempted) :
    Follows course (.processOne w n j) l (Worker.handleFailure w j message) Settled := by
  have failing : ∀ h, Follows course (.processOne w n j) (.failing h)
      (if h.exhausted then Worker.deadLetter w j message h
        else Worker.scheduleRetry w j h.tried h) Settled := by
    intro h
    by_cases hex : h.exhausted = true
    · rw [if_pos hex]
      exact deadLetter_course message hex
    · rw [if_neg hex]
      exact scheduleRetry_course (by simpa using hex)
  rcases hl with ⟨h₀, rfl⟩ | rfl | rfl
  · exact follows_step trivial (fun h => failing h) (fun _ => trivial)
  · exact follows_step trivial (fun h => failing h) (fun _ => trivial)
  · refine follows_mono (follows_only (Repertoire.handleFailure_concludes w j message) concludes_spent) ?_
    rintro r l rfl
    trivial

/-- If `complete` throws, the call may still fail over. -/
def Threw : Except Err Unit → Course → Prop
  | .ok _, l => l = .released
  | .error _, l => l.attempted

theorem complete_course :
    Follows course (.processOne w n j) .running (Worker.complete env w j) Threw := by
  have hthrown : Course.thrown.attempted := Or.inr (Or.inl rfl)
  have hspent : Course.spent.attempted := Or.inr (Or.inr rfl)
  refine follows_step (by simp [course, permits]) (fun _ => ?_) (fun _ => hthrown)
  refine follows_step trivial (fun completedAt => ?_) (fun _ => hthrown)
  refine follows_step (Or.inl ⟨rfl, by simp [course, onCall]⟩) (fun _ => ?_) (fun _ => hthrown)
  refine follows_step trivial (fun _ => ?_) (fun _ => hthrown)
  refine follows_step trivial (fun hash => ?_) (fun _ => hspent)
  refine follows_step trivial (fun now => ?_) (fun _ => hspent)
  refine follows_mono (publishQuietly_course _ .released) ?_
  rintro (e | a) l ⟨hr, rfl⟩
  · cases hr
  · rfl

theorem runJob_course (h : JobHash) (jobName : String) (q : QueueName) :
    Follows course (.processOne w n j) (.claimed h) (Worker.runJob env w j h jobName q)
      Settled := by
  refine follows_step (by simp [course, permits]) (fun _ => ?_) (fun _ => trivial)
  refine follows_step trivial (fun startedAt => ?_) (fun _ => trivial)
  refine follows_step (Or.inr ⟨h, rfl, rfl, rfl⟩) (fun _ => ?_) (fun _ => trivial)
  refine follows_step trivial (fun now => ?_) (fun _ => trivial)
  have hactive : (Course.active h).attempted := Or.inl ⟨h, rfl⟩
  refine follows_bind _ (publishQuietly_course _ (.active h)) ?_ ?_
  · rintro _ l ⟨-, rfl⟩
    split
    · exact handleFailure_course _ hactive
    · split
      · exact handleFailure_course _ hactive
      · refine follows_handle Threw ?_ ?_ fun e l hl => handleFailure_course _ hl
        · refine follows_step ⟨h, rfl, rfl⟩ (fun _ => complete_course) (fun _ => ?_)
          exact Or.inr (Or.inl rfl)
        · rintro _ l rfl
          trivial
  · rintro _ l ⟨hr, -⟩
    cases hr

/-- A check of the rate limiter leaves a call where it is, or breaks it off. -/
def Checked (h : JobHash) : Except Err (Bool × ℚ) → Course → Prop
  | .ok _, l => l = .claimed h
  | .error _, l => l = .leaked

theorem checkLimit_course (h : JobHash) (q : QueueName) (config : RateLimitConfig) :
    Follows course (.processOne w n j) (.claimed h) (RateLimiter.checkLimitFallback q config)
      (Checked h) := by
  refine follows_step trivial (fun now => ?_) (fun _ => rfl)
  refine follows_step trivial (fun data => ?_) (fun _ => rfl)
  dsimp only
  split
  · exact follows_step trivial (fun _ => follows_pure rfl) (fun _ => rfl)
  · exact follows_step trivial (fun _ => follows_pure rfl) (fun _ => rfl)

theorem processOne_course :
    Follows course (.processOne w n j) .fetching (Worker.processOne env w j) Settled := by
  refine follows_step trivial (fun h => ?_) (fun _ => trivial)
  have hnext : course.next (.processOne w n j) .fetching (.hgetall (redisKeys.job j)) (.ok h) =
      if (truthy h.jobName).isSome then .claimed h else .leaked := rfl
  rw [hnext]
  cases truthy h.jobName with
  | none => exact follows_pure trivial
  | some jobName =>
      dsimp only
      cases env.rateLimits w (h.queueName.getD (env.queue w)) with
      | none => exact runJob_course h jobName _
      | some config =>
          refine follows_bind _ (checkLimit_course h _ config) ?_ ?_
          · rintro result l rfl
            split
            · exact runJob_course h jobName _
            · refine follows_step ⟨h, rfl⟩ (fun _ => ?_) (fun _ => trivial)
              refine follows_perform trivial fun r => ?_
              cases r <;> trivial
          · rintro _ l rfl
            trivial

end Course

/-- A pull loop holds a job if it has one. -/
def Course.Carries : Except Err (Option JobId) → Course → Prop
  | .ok r, l => l = (truthy r).elim .over fun _ => .holding
  | .error _, l => l = .over

theorem Course.pullFrom_course (w : WorkerId) (q : QueueName) (ps : List Priority) :
    Follows course (.loop w) .over (Worker.pullFrom q (redisKeys.processing w) ps)
      Carries := by
  induction ps with
  | nil => exact follows_pure rfl
  | cons p ps ih =>
      refine follows_step ⟨trivial, by simp⟩ (fun r => ?_) (fun _ => rfl)
      have hnext : course.next (.loop w) .over
          (.rpoplpush (targetList q p.name) (redisKeys.processing w)) (.ok r) =
          (truthy r).elim .over fun _ => .holding := rfl
      rw [hnext]
      cases h : truthy r with
      | some id =>
          have hid : truthy (some id) = some id := by
            rw [truthy, Option.filter_eq_some_iff] at h
            exact truthy_some (by simpa using h.2)
          exact follows_pure (by simp [Carries, hid])
      | none => exact ih

theorem Course.loop_course (env : Env) (w : WorkerId) :
    Follows course (.loop w) .over (Worker.loop env w) fun _ _ => True := by
  refine follows_step ⟨trivial, by simp⟩ (fun top => ?_) (fun _ => trivial)
  cases top with
  | exit => exact follows_perform ⟨trivial, by simp [course, onLoop]⟩ fun _ => trivial
  | full snapshot =>
      refine follows_step ⟨trivial, by simp [course, onLoop]⟩ (fun _ => ?_) (fun _ => trivial)
      exact follows_perform ⟨trivial, by simp [course, onLoop]⟩ fun _ => trivial
  | pull =>
      refine follows_bind (fun _ l => l = .over) ?_ ?_ (fun _ _ _ => trivial)
      · refine follows_handle (fun _ l => l = .over) ?_ (fun _ _ hl => hl) ?_
        · refine follows_bind Carries ?_ (fun r l hl => ?_) (fun _ _ he => he)
          · refine follows_step ⟨trivial, by simp [course, onLoop]⟩ (fun idx => ?_) (fun _ => rfl)
            refine follows_bind _ (pullFrom_course w _ _) (fun r l hl => ?_) (fun _ _ he => he)
            cases r with
            | some id => exact follows_pure hl
            | none =>
                cases hl
                refine follows_perform ⟨trivial, by simp⟩ fun r => ?_
                cases r <;> rfl
          · cases h : truthy r with
            | none => exact follows_pure (by rw [hl, h]; rfl)
            | some id =>
                exact follows_step ⟨trivial, fun _ => ⟨id, rfl⟩⟩ (fun _ => rfl) (fun _ => rfl)
        · rintro _ l rfl
          refine follows_perform ⟨trivial, by simp⟩ fun r => ?_
          cases r <;> rfl
      · rintro _ l rfl
        exact follows_perform ⟨trivial, by simp⟩ fun _ => trivial

/-- **Every task keeps its course.** -/
theorem course_follows (env : Env) (t : Task) :
    Follows course t (course.start t) (body env t) fun _ _ => True := by
  by_cases ht : (∃ w n j, t = .processOne w n j) ∨ ∃ w, t = .loop w
  · rcases ht with ⟨w, n, j, rfl⟩ | ⟨w, rfl⟩
    · refine follows_bind (fun _ _ => True) ?_ (fun _ _ _ => follows_pure trivial)
        (fun _ _ _ => trivial)
      refine follows_bind (fun _ l => l.settles) ?_ (fun _ l hl => ?_) (fun _ _ _ => trivial)
      · exact follows_handle Course.Settled Course.processOne_course (fun _ _ hl => hl)
          (fun _ _ hl => follows_pure hl)
      · exact follows_perform hl fun _ => trivial
    · exact follows_bind (fun _ _ => True) (Course.loop_course env w)
        (fun _ _ _ => follows_pure trivial) (fun _ _ _ => trivial)
  · have hother : ∀ w n j, t ≠ .processOne w n j := fun w n j h => ht (Or.inl ⟨w, n, j, h⟩)
    have hloop : ∀ w, t ≠ .loop w := fun w h => ht (Or.inr ⟨w, h⟩)
    have hstart : course.start t = .over := by
      cases t <;> first | rfl | exact absurd rfl (hother _ _ _)
    rw [hstart]
    refine follows_mono (follows_only (Repertoire.only_may env hother) fun c hc => ?_)
      fun _ _ _ => trivial
    cases t <;>
      first
        | exact absurd rfl (hother _ _ _)
        | exact absurd rfl (hloop _)
        | exact ⟨hc, fun _ => rfl⟩

end NexusQueue
