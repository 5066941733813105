/-
# The rate limit holds

A `processOne` call of a queue with a rate limit reads the clock and the bucket, and
then writes the bucket back.  As long as every call finds the bucket as it has read it
when it writes it back, the jobs let through to `markJobActive`, each one at the clock
reading of its check, are in every window at most the capacity and what is refilled in
the window.

What a call does with the bucket is a protocol of its own, the gate, beside the custody
protocol; the arithmetic is that of `TokenBucket`.
-/
import NexusQueue.TokenBucket
import NexusQueue.Repertoire
import NexusQueue.Conduct
import NexusQueue.Effects

namespace NexusQueue

open Prog (only_step only_perform only_bind only_handle only_pure only_throw)

namespace Throttle

/-! ## The gate -/

/-- Where a call is in its check: before it has read its job, with a job of a queue,
with a clock reading, with the bucket, let through, or past all that. -/
inductive Gate where
  | closed
  | fetched (queue : QueueName)
  | clocked (queue : QueueName) (now : ℕ)
  | metered (queue : QueueName) (now : ℕ) (data : RateHash)
  | passed (queue : QueueName) (now : ℕ)
  | over

/-- The check of a queue with a configuration grants a token. -/
def grants (config : Option RateLimitConfig) (now : ℕ) (data : RateHash) : Bool :=
  config.any fun config => 1 ≤ RateLimiter.refilled config now data

/-- The bucket a check writes back. -/
def written (config : RateLimitConfig) (now : ℕ) (data : RateHash) : RateHash where
  tokens := some (if 1 ≤ RateLimiter.refilled config now data then
    RateLimiter.refilled config now data - 1 else RateLimiter.refilled config now data)
  lastRefill := some (now : ℚ)

namespace Gate

/-- The commands of a call that concern the bucket, and where it may issue them. -/
def permits (env : Env) (w : WorkerId) : Gate → Cmd → Prop
  | l, .write (.hsetRate k f) => ∃ q now data config, l = .metered q now data ∧
      k = redisKeys.rateLimit q ∧ env.rateLimits w q = some config ∧ f = written config now data
  | l, .hgetallRate k => ∃ q now, l = .clocked q now ∧ k = redisKeys.rateLimit q
  | l, .update _ p => p.countAttempt = true →
      (∃ q now, l = .passed q now) ∨ ∃ q, l = .fetched q ∧ env.rateLimits w q = none
  | _, _ => True

/-- A call after an answer. -/
def onCall (env : Env) (w : WorkerId) : Gate → (c : Cmd) → c.Resp → Gate
  | .closed, .hgetall _, h => .fetched (h.queueName.getD (env.queue w))
  | .fetched q, .now, now => .clocked q now
  | .clocked q now, .hgetallRate _, data => .metered q now data
  | .metered q now data, .write (.hsetRate _ _), _ =>
      if grants (env.rateLimits w q) now data then .passed q now else .over
  | .fetched _, .update _ _, _ => .over
  | .passed _ _, .update _ _, _ => .over
  | l, _, _ => l

end Gate

/-- The gate: a protocol of `processOne` calls; other tasks have nothing to do with the
bucket. -/
def gate (env : Env) : Protocol Task Cmd Cmd.Resp Err Gate where
  start
    | .processOne _ _ _ => .closed
    | _ => .over
  permits t l c := match t with
    | .processOne w _ _ => l.permits env w c
    | _ => t.may c
  next t l c r := match t, r with
    | .processOne w _ _, .ok a => l.onCall env w c a
    | _, _ => .over

section Conduct

variable {env : Env} {w : WorkerId} {n : ℕ} {j : JobId}

/-- The commands of a call past the gate. -/
def past : Cmd → Prop
  | .write (.hsetRate _ _) | .hgetallRate _ => False
  | .update _ p => p.countAttempt = false
  | _ => True

/-- A call past the gate stays there. -/
theorem past_over (c : Cmd) (hc : past c) :
    (gate env).permits (.processOne w n j) .over c ∧
      ∀ r, (gate env).next (.processOne w n j) .over c r = .over := by
  constructor
  · cases c with
    | write x => cases x <;> trivial
    | update id p =>
        intro hp
        rw [show p.countAttempt = false from hc] at hp
        cases hp
    | hgetallRate k => exact hc.elim
    | _ => trivial
  · intro r
    cases r <;> rfl

/-- What ends a call is past the gate. -/
theorem past_of {p : Async Unit} (hp : p.Only Cmd.concludes) : p.Only past := by
  refine hp.mono fun c hc => ?_
  cases c with
  | update id patch => exact hc
  | write x => cases x <;> trivial
  | hgetallRate k => exact hc.elim
  | _ => trivial

theorem handleFailure_past (message : String) : (Worker.handleFailure w j message).Only past :=
  past_of (Repertoire.handleFailure_concludes w j message)

/-- After `markJobActive`. -/
theorem ran_past (h : JobHash) (jobName : String) (q : QueueName) :
    Prog.Only past (do
      let startedAt ← dateNow
      redis.hset (redisKeys.job j)
        { status := some .active, startedAt := some (.at startedAt)
          attempts := some (Worker.nextAttempt h.attempts) }
      let now ← dateNow
      redis.publishQuietly
        { type := "job.started", jobId := j, jobName := jobName, queueName := q
          timestamp := now }
      if env.handlers w jobName = false then
        Worker.handleFailure w j ("no handler registered for jobName=\"" ++ jobName ++ "\"")
      else
        match parsePayload h.payload with
        | .error _ => Worker.handleFailure w j "payload JSON parse error"
        | .ok payload =>
            tryCatch
              (do
                await (.handler jobName payload ((Worker.numberOr h.attempts 0).map (· + 1)))
                Worker.complete env w j)
              fun err => Worker.handleFailure w j err.message) := by
  refine only_step trivial fun _ => only_step trivial fun _ => only_step trivial fun _ =>
    only_bind (past_of (Repertoire.publishQuietly_concludes _)) fun _ => ?_
  split
  · exact handleFailure_past _
  · cases parsePayload h.payload with
    | error e => exact handleFailure_past _
    | ok payload =>
        refine only_handle (only_step trivial fun _ => ?_) fun _ => handleFailure_past _
        exact past_of (Repertoire.complete_concludes env w j)

/-- A call past the gate follows it. -/
theorem follows_past {p : Async Unit} (hp : p.Only past) :
    Follows (gate env) (.processOne w n j) .over p fun _ _ => True :=
  follows_mono (follows_only hp past_over) fun _ _ _ => trivial

/-- A call is let through, or it has no limit. -/
theorem runJob_gate (h : JobHash) (jobName : String) (q : QueueName) {l : Gate}
    (hl : (∃ q now, l = .passed q now) ∨ ∃ q, l = .fetched q ∧ env.rateLimits w q = none) :
    Follows (gate env) (.processOne w n j) l (Worker.runJob env w j h jobName q)
      fun _ _ => True := by
  refine follows_step (fun _ => hl) (fun _ => ?_) (fun _ => trivial)
  have hnext : (gate env).next (.processOne w n j) l
      (.update j { status := .active, startedAt := .now, countAttempt := true }) (.ok ()) =
      .over := by
    rcases hl with ⟨q, now, rfl⟩ | ⟨q, rfl, -⟩ <;> rfl
  rw [hnext]
  exact follows_past (ran_past h jobName q)

/-- How a check ends: its call is let through or it is over. -/
def Checked (q : QueueName) : Except Err (Bool × ℚ) → Gate → Prop
  | .ok (true, _), l => ∃ now, l = .passed q now
  | .ok (false, _), l => l = .over
  | .error _, _ => True

/-- The check reads the clock and the bucket and writes back what it must. -/
theorem checkLimit_gate (q : QueueName) {config : RateLimitConfig}
    (hconfig : env.rateLimits w q = some config) :
    Follows (gate env) (.processOne w n j) (.fetched q)
      (RateLimiter.checkLimitFallback q config) (Checked q) := by
  refine follows_step trivial (fun now => ?_) (fun _ => trivial)
  refine follows_step ⟨q, now, rfl, rfl⟩ (fun data => ?_) (fun _ => trivial)
  change Follows (gate env) _ (Gate.metered q now data) (if _ then _ else _) _
  by_cases hone : 1 ≤ RateLimiter.refilled config now data
  · rw [if_pos hone]
    refine follows_step ⟨q, now, data, config, rfl, rfl, hconfig, ?_⟩ (fun _ => ?_)
      (fun _ => trivial)
    · simp [written, hone]
    · refine follows_pure ⟨now, ?_⟩
      change (if grants (env.rateLimits w q) now data then Gate.passed q now else .over) = _
      simp [grants, hconfig, hone]
  · rw [if_neg hone]
    refine follows_step ⟨q, now, data, config, rfl, rfl, hconfig, ?_⟩ (fun _ => ?_)
      (fun _ => trivial)
    · simp [written, hone]
    · refine follows_pure ?_
      change (if grants (env.rateLimits w q) now data then Gate.passed q now else .over) = _
      simp [grants, hconfig, hone]

theorem processOne_gate :
    Follows (gate env) (.processOne w n j) .closed (Worker.processOne env w j)
      fun _ _ => True := by
  refine follows_step trivial (fun h => ?_) (fun _ => trivial)
  change Follows (gate env) _ (Gate.fetched (h.queueName.getD (env.queue w))) _ _
  cases truthy h.jobName with
  | none => exact follows_pure trivial
  | some jobName =>
      dsimp only
      cases hconfig : env.rateLimits w (h.queueName.getD (env.queue w)) with
      | none => exact runJob_gate h jobName _ (Or.inr ⟨_, rfl, hconfig⟩)
      | some config =>
          refine follows_bind _ (checkLimit_gate _ hconfig) (fun result l hl => ?_)
            (fun _ _ _ => trivial)
          obtain ⟨_ | _, wait⟩ := result
          · cases hl
            exact follows_past (only_step trivial fun _ => only_perform trivial)
          · obtain ⟨now, rfl⟩ := hl
            exact runJob_gate h jobName _ (Or.inl ⟨_, now, rfl⟩)

/-- **Every task passes the gate.** -/
theorem gate_follows (t : Task) :
    Follows (gate env) t ((gate env).start t) (body env t) fun _ _ => True := by
  by_cases ht : ∃ w n j, t = .processOne w n j
  · obtain ⟨w, n, j, rfl⟩ := ht
    refine follows_bind (fun _ _ => True) ?_ (fun _ _ _ => follows_pure trivial)
      (fun _ _ _ => trivial)
    refine follows_bind (fun _ _ => True) ?_ (fun _ l _ => ?_) (fun _ _ _ => trivial)
    · exact follows_handle (fun _ _ => True) processOne_gate (fun _ _ _ => trivial)
        (fun _ _ _ => follows_pure trivial)
    · refine follows_perform ?_ fun _ => trivial
      cases l <;> trivial
  · have hother : ∀ w n j, t ≠ .processOne w n j := fun w n j h => ht ⟨w, n, j, h⟩
    have hstart : (gate env).start t = .over := by
      cases t <;> first | rfl | exact absurd rfl (hother _ _ _)
    rw [hstart]
    refine follows_mono (follows_only (Repertoire.only_may env hother) fun c hc => ?_)
      fun _ _ _ => trivial
    cases t <;> first | exact absurd rfl (hother _ _ _) | exact ⟨hc, fun _ => rfl⟩

end Conduct

/-! ## The bucket -/

/-- The bucket a hash stands for; it takes both fields. -/
def bucketOf (data : RateHash) : Option (TokenBucket.Bucket ℚ) :=
  match data.tokens, data.lastRefill with
  | some tokens, some last => some ⟨tokens, last⟩
  | _, _ => none

/-- The tokens a check finds are those of a bucket refilled at the rate per
millisecond. -/
theorem refilled_eq (config : RateLimitConfig) (now : ℕ) (data : RateHash) :
    RateLimiter.refilled config now data =
      TokenBucket.refill config.maxTokens (config.refillRate / 1000) (bucketOf data) now := by
  have hline : ∀ x y : ℚ, x + (now - y) / 1000 * config.refillRate =
      x + (now - y) * (config.refillRate / 1000) := by
    intro x y
    ring
  obtain ⟨_ | tokens, _ | last⟩ := data
  case some.some =>
    change min _ (tokens + (now - last) / 1000 * config.refillRate) = _
    rw [hline]
    rfl
  all_goals
    change min config.maxTokens (config.maxTokens + (now - now) / 1000 * config.refillRate) = _
    simp [bucketOf, TokenBucket.refill]

/-- A check leaves nothing of the old bucket. -/
theorem merge_written (config : RateLimitConfig) (now : ℕ) (data old : RateHash) :
    old.merge (written config now data) = written config now data := rfl

section Rates

variable {env : Env} {s s' : World} {t : Task} {l : Phase} {cmd : Cmd} {o : Oracle}
  {r : Except Err cmd.Resp}

/-- Only a check writes a bucket. -/
theorem rates_of_answer (hp : Permits env t l cmd) (ha : World.answer env s o cmd = some (r, s'))
    (hne : ∀ k f, cmd ≠ .write (.hsetRate k f)) (q : QueueName) :
    s'.redis.rates (.ratelimit q) = s.redis.rates (.ratelimit q) := by
  cases hp with
  | quiet hq =>
      cases cmd with
      | write w =>
          cases ha
          cases w <;> first | exact hq.elim | rfl | exact absurd rfl (hne _ _)
      | smembers k =>
          simp only [World.answer] at ha
          repeat' split at ha
          all_goals cases ha
          rfl
      | zrangebyscore _ _ | hgetallCron _ | hgetallRate _ | publish _ | now | sleep _ =>
          cases ha
          rfl
      | _ => exact hq.elim
  | cronClaim ht | claimDue =>
      cases ha
      simp
  | object hhost hop =>
      obtain ⟨obj, rfl⟩ := answer_onWorker ha
      rfl
  | dispatch | loopAgain | loopExit | settle | begin | launch | awaitLoop | finish =>
      obtain ⟨obj, rfl⟩ := answer_onWorker ha
      rfl
  | uuidKeyless | uuidMissed | uuidCron =>
      obtain ⟨id, -, -, -, rfl⟩ := answer_uuid ha
      rfl
  | insert _ _ _ _ =>
      simp only [World.answer] at ha
      split at ha <;> cases ha <;> rfl
  | cronNext =>
      simp only [World.answer] at ha
      split at ha <;> cases ha <;> rfl
  | handler =>
      simp only [World.answer] at ha
      repeat' split at ha
      all_goals cases ha
      all_goals rfl
  | pull | pullBlocking =>
      cases ha
      unfold Redis.rpoplpush
      split <;> rfl
  | _ =>
      cases ha
      simp [Redis.multi, Write.apply]

end Rates

/-! ## Jobs let through -/

/-- The command is a `markJobActive`. -/
def marks : Cmd → Bool
  | .update _ p => p.countAttempt
  | _ => false

/-- A call that has been let through, with the clock reading of its check, counts for
the windows that reading is in. -/
def slot (q : QueueName) : Gate → ℚ × ℚ → ℕ
  | .passed q' now, (a, z) => if q' = q ∧ a ≤ now ∧ now ≤ z then 1 else 0
  | _, _ => 0

/-- A `markJobActive` of a call that has been let through counts. -/
def admits (q : QueueName) (l : Gate) (cmd : Cmd) : ℚ × ℚ → ℕ :=
  if marks cmd then slot q l else 0

/-- The number of jobs of a queue let through to `markJobActive` by checks whose clock
reading is in the window from `a` to `z`. -/
def letThrough (env : Env) (c : State) (q : QueueName) (a z : ℚ) : ℕ :=
  counted (gate env) (fun _ l cmd _ => admits q l cmd (a, z)) c.pool

/-- Where a process is in its check. -/
abbrev gateOf (env : Env) (p : Process) : Gate := (gate env).phase p.task p.hist

/-- The bucket a check has read and not written back yet. -/
def Gate.read : Gate → Option (QueueName × RateHash)
  | .metered q _ data => some (q, data)
  | _ => none

/-- A check that writes a bucket back finds it as it has read it. -/
def AsRead (env : Env) (c : State) : Action → Prop
  | .start t => t.external
  | .call i o => o.works → ∀ p ∈ c.pool[i]?, ∀ x ∈ (gateOf env p).read,
      c.store.redis.rates (redisKeys.rateLimit x.1) = x.2
  | _ => True

instance (env : Env) (c : State) : (a : Action) → Decidable (AsRead env c a)
  | .start t => inferInstanceAs (Decidable t.external)
  | .call i o => inferInstanceAs (Decidable (o.works = true → ∀ p ∈ c.pool[i]?,
      ∀ x ∈ (gateOf env p).read, c.store.redis.rates (redisKeys.rateLimit x.1) = x.2))
  | .halt _ | .drift _ => .isTrue trivial

/-- The jobs let through, and those on their way to `markJobActive`, are bounded in
every window. -/
def Limited (config : RateLimitConfig) (q : QueueName) (s : World) (g : ℚ × ℚ → ℕ) : Prop :=
  TokenBucket.Bounded config.maxTokens (config.refillRate / 1000)
    (bucketOf (s.redis.rates (.ratelimit q))) fun a z => g (a, z)

/-- The rate limit as a discipline over the custody protocol and the gate. -/
def throttle (env : Env) (config : RateLimitConfig) (q : QueueName) :
    Discipline (machine env) ((custody env).prod (gate env)) (ℚ × ℚ → ℕ) where
  good _ := True
  val _ l := slot q l.2
  emit _ l cmd _ := admits q l.2 cmd
  loc _ _ _ := True
  inv := Limited config q
  allow s _ _ l _ o := o.works → ∀ x ∈ l.2.read,
    s.redis.rates (redisKeys.rateLimit x.1) = x.2
  post t r l := Concluded t r l.1 ∧ True

section Step

variable {env : Env} {s s' : World} {t : Task} {l l' : Gate} {cmd : Cmd} {o : Oracle}
  {r : Except Err cmd.Resp} {q : QueueName} {config : RateLimitConfig} {F : ℚ × ℚ → ℕ}

/-- What counts has been let through before. -/
theorem admits_le (x : ℚ × ℚ) : admits q l cmd x ≤ slot q l x := by
  unfold admits
  split
  · exact le_rfl
  · exact Nat.zero_le _

/-- A call that is past the gate counts at most as before. -/
theorem slot_over (x : ℚ × ℚ) : slot q .over x + admits q l cmd x ≤ slot q l x := by
  have hadmits := @admits_le l cmd q x
  have hzero : slot q .over x = 0 := rfl
  omega

/-- A rejection breaks off the check. -/
theorem next_error (e : Err) : (gate env).next t l cmd (.error e) = .over := by
  cases t <;> rfl

/-- Only the write of a check lets a call through, and `markJobActive` ends that. -/
theorem slot_next (hne : ∀ k f, cmd ≠ .write (.hsetRate k f)) (x : ℚ × ℚ) :
    slot q ((gate env).next t l cmd r) x + admits q l cmd x ≤ slot q l x := by
  cases t with
  | processOne w n j =>
      cases r with
      | error e => exact slot_over x
      | ok a =>
          cases l with
          | passed q' now =>
              cases cmd with
              | update id p => exact slot_over x
              | _ => exact le_rfl
          | metered q' now data =>
              cases cmd with
              | write c => cases c <;> first | exact slot_over x | exact absurd rfl (hne _ _)
              | _ => exact slot_over x
          | _ => cases cmd <;> exact slot_over x
  | _ => exact slot_over x

/-- A step that writes no bucket and lets no call through. -/
theorem Limited.still (h : Limited config q s (slot q l + F))
    (hrate : s'.redis.rates (.ratelimit q) = s.redis.rates (.ratelimit q))
    (hslot : ∀ x, slot q l' x + admits q l cmd x ≤ slot q l x) :
    Limited config q s' (slot q l' + (admits q l cmd + F)) := by
  unfold Limited at h ⊢
  rw [hrate]
  refine h.fewer fun a z => ?_
  have hx := hslot (a, z)
  simp only [Pi.add_apply]
  omega

/-- **Step lemma.**  A check that finds its bucket as it has read it keeps the limit. -/
theorem Limited.check (h : Limited config q s F) (hrate : 0 < config.refillRate) {now : ℕ}
    {data : RateHash} (hread : s.redis.rates (.ratelimit q) = data)
    (hwrite : s'.redis.rates (.ratelimit q) = written config now data) :
    Limited config q s'
      (slot q (if grants (some config) now data then .passed q now else .over) + F) := by
  have hnonneg : 0 ≤ config.refillRate / 1000 := by positivity
  unfold Limited at h ⊢
  rw [hread] at h
  rw [hwrite]
  by_cases hone : 1 ≤ RateLimiter.refilled config now data
  · have hgrant := h.grant hnonneg (by rwa [← refilled_eq])
    rw [← refilled_eq] at hgrant
    have hbucket : bucketOf (written config now data) =
        some ⟨RateLimiter.refilled config now data - 1, now⟩ := by
      simp [bucketOf, written, hone]
    rw [hbucket]
    refine hgrant.fewer fun a z => ?_
    simp [grants, hone, slot, add_comm]
  · have hdeny := h.deny (now : ℚ)
    rw [← refilled_eq] at hdeny
    have hbucket : bucketOf (written config now data) =
        some ⟨RateLimiter.refilled config now data, now⟩ := by
      simp [bucketOf, written, hone]
    rw [hbucket]
    refine hdeny.fewer fun a z => ?_
    simp [grants, hone, slot]

/-- **Step lemma.**  The write of a check. -/
theorem Limited.metered (h : Limited config q s (slot q l + F)) (hrate : 0 < config.refillRate)
    (hconfig : ∀ w config', env.rateLimits w q = some config' → config' = config) {k : Key}
    {f : RateHash} {r : Except Err Unit} (hp : (gate env).permits t l (.write (.hsetRate k f)))
    (hread : ∀ x ∈ l.read, s.redis.rates (redisKeys.rateLimit x.1) = x.2)
    (ha : World.answer env s o (.write (.hsetRate k f)) = some (r, s')) :
    Limited config q s' (slot q ((gate env).next t l (.write (.hsetRate k f)) r) +
      (admits q l (.write (.hsetRate k f)) + F)) := by
  cases t with
  | processOne w n j =>
      obtain ⟨q', now, data, config', rfl, rfl, hw, rfl⟩ := hp
      cases ha
      have hnext : (gate env).next (.processOne w n j) (.metered q' now data)
          (.write (.hsetRate (redisKeys.rateLimit q') (written config' now data))) (.ok ()) =
          if grants (some config') now data then .passed q' now else .over := by
        change (if grants (env.rateLimits w q') now data then Gate.passed q' now else .over) = _
        rw [hw]
      rw [hnext]
      have hF : Limited config q s F := by
        unfold Limited at h ⊢
        refine h.fewer fun a z => Nat.le_add_left _ _
      have hzero : admits q (.metered q' now data)
          (.write (.hsetRate (redisKeys.rateLimit q') (written config' now data))) = 0 := rfl
      rw [hzero, zero_add]
      by_cases hq : q' = q
      · subst hq
        cases hconfig w config' hw
        exact hF.check hrate (hread _ rfl) (by simp [Write.apply, merge_written])
      · have hslot : ∀ x, slot q (if grants (some config') now data then .passed q' now else .over)
            x = 0 := by
          intro x
          split
          · simp [slot, hq]
          · rfl
        unfold Limited at hF ⊢
        have hkeep : (Write.apply s.clock s.redis (.hsetRate (redisKeys.rateLimit q')
            (written config' now data))).rates (.ratelimit q) =
            s.redis.rates (.ratelimit q) := by
          simp [Write.apply, Ne.symm hq]
        rw [hkeep]
        refine hF.fewer fun a z => ?_
        rw [Pi.add_apply, hslot, zero_add]
  | _ => exact hp.elim

/-- **The rate limit is a sound discipline while checks find what they have read.** -/
theorem throttle_sound (hrate : 0 < config.refillRate)
    (hconfig : ∀ w config', env.rateLimits w q = some config' → config' = config) :
    (throttle env config q).Sound (AsRead env) where
  follows t _ := follows_prod (custody_follows t) (gate_follows t)
  call s t l cmd o r s' F h := by
    have hforks : (throttle env config q).starts ((machine env).forks t cmd r) = 0 :=
      (throttle env config q).starts_eq_zero _ fun t' _ => by
        change slot q ((gate env).start t') = 0
        cases t' <;> rfl
    rw [hforks, add_zero]
    refine ⟨?_, trivial, fun _ _ => ⟨trivial, trivial⟩⟩
    obtain ⟨hp, hg⟩ := h.permits
    have hinv : Limited config q s (slot q l.2 + F) := h.inv
    change Limited config q s' (slot q ((gate env).next t l.2 cmd r) + (admits q l.2 cmd + F))
    rcases (exec_cases h.exec).2 with ⟨err, -, -, rfl, rfl⟩ | ⟨ho, ha⟩
    · refine hinv.still rfl fun x => ?_
      rw [next_error]
      exact slot_over x
    · by_cases hset : ∃ k f, cmd = .write (.hsetRate k f)
      · obtain ⟨k, f, rfl⟩ := hset
        exact hinv.metered hrate hconfig hg (h.allow (Oracle.works_of_takes ho)) ha
      · have hne : ∀ k f, cmd ≠ .write (.hsetRate k f) := fun k f hf => hset ⟨k, f, hf⟩
        exact hinv.still (rates_of_answer hp ha hne q) (slot_next hne)
  stable _ _ _ _ _ _ _ _ _ _ _ _ _ _ _ := trivial
  start c t _ hc := by
    refine ⟨trivial, ?_, trivial⟩
    have hnone : (throttle env config q).val t (((custody env).prod (gate env)).start t) = 0 := by
      change slot q ((gate env).start t) = 0
      cases t <;> rfl
    rw [hnone, zero_add]
    exact hc.1
  allows c i o p cmd k hok hc hp hprog ho x hx := by
    refine hok ho p hp x ?_
    rw [Protocol.prod_phase] at hx
    exact hx
  drift c m s' _ hc hm := by
    refine ⟨?_, fun _ _ _ _ => trivial⟩
    have hredis : s'.redis = c.store.redis := by
      cases m <;> cases hm <;> rfl
    have hinv : Limited config q c.store ((throttle env config q).total c.pool) := hc.1
    unfold Limited at hinv
    change Limited config q s' _
    unfold Limited
    rwa [hredis]

end Step

section Result

variable {env : Env} {c : State}

/-- **The rate limit holds where checks find what they have read.**  For a queue with one
configuration, from any stores, in every run in which a check that writes the bucket back
finds it as it has read it: in every window, the jobs let through to `markJobActive` are
at most the capacity and what is refilled in the window.  A job counts at the reading of the
clock by which it was checked; its row is marked some time later. -/
theorem let_through_at_most (config : RateLimitConfig) (q : QueueName)
    (hmax : 1 ≤ config.maxTokens) (hrate : 0 < config.refillRate)
    (hconfig : ∀ w config', env.rateLimits w q = some config' → config' = config)
    (hc : (machine env).Reach (AsRead env) (fun c => c.pool = []) c) (a d : ℚ) (hd : 0 ≤ d) :
    (letThrough env c q a (a + d) : ℚ) ≤ config.maxTokens + config.refillRate * d / 1000 := by
  have hinit : ∀ c : State, c.pool = [] → (throttle env config q).PoolOk c := by
    intro c hpool
    rw [Discipline.PoolOk, hpool]
    refine ⟨?_, by simp⟩
    have hcap : 0 ≤ config.maxTokens := zero_le_one.trans hmax
    have hnonneg : 0 ≤ config.refillRate / 1000 := by positivity
    exact TokenBucket.bounded_zero hcap hnonneg _
  obtain ⟨hlimit, -⟩ := (throttle_sound hrate hconfig).reach hinit hc
  have hwindow := hlimit.window a (a + d) (by linarith)
  have hcounted : letThrough env c q a (a + d) ≤
      (throttle env config q).total c.pool (a, a + d) := by
    rw [Discipline.total_apply]
    refine le_trans (le_of_eq ?_) (Nat.le_add_left _ _)
    exact (counted_prod_snd (P := custody env)
      (fun _ l cmd _ => admits q l cmd (a, a + d)) c.pool).symm
  have hcast : (letThrough env c q a (a + d) : ℚ) ≤
      ((throttle env config q).total c.pool (a, a + d) : ℚ) := by
    exact_mod_cast hcounted
  calc (letThrough env c q a (a + d) : ℚ)
      ≤ ((throttle env config q).total c.pool (a, a + d) : ℚ) := hcast
    _ ≤ config.maxTokens + config.refillRate / 1000 * (a + d - a) := hwindow
    _ = config.maxTokens + config.refillRate * d / 1000 := by ring

/-- The sample deployment with a limit of one job per second. -/
def limited : Env := { sample with rateLimits := fun _ _ => some ⟨1, 1⟩ }

/-- Two jobs are enqueued, and a worker pulls both of them. -/
def dispatchTwo : List Action :=
  [.start (.enqueue "echo" (some .null) {}), .start (.enqueue "echo" (some .null) {}),
    .call 0 (.fresh j1), .call 1 (.fresh j2)] ++ goes 0 5 ++ goes 1 5 ++
    [.start (.start "w1")] ++ goes 2 8 ++ goes 3 6 ++ goes 5 5

/-- The theorem on a run in which the second check comes after the first one. -/
theorem let_through_one :
    ∃ c, (machine limited).Reach (AsRead limited) (fun c => c.pool = []) c ∧
      letThrough limited c "default" 0 (0 + 0) = 1 ∧
      (letThrough limited c "default" 0 (0 + 0) : ℚ) ≤ 1 + 1 * 0 / 1000 := by
  obtain ⟨c, hc, ht⟩ := Machine.exists_reach (machine limited) (AsRead limited)
    (fun c => c.pool = []) (c := blank) rfl (dispatchTwo ++ goes 4 5 ++ goes 6 5)
    (fun c => decide (letThrough limited c "default" 0 (0 + 0) = 1)) (by decide +kernel)
  have hone := of_decide_eq_true ht
  refine ⟨c, hc, hone, let_through_at_most ⟨1, 1⟩ "default" (by norm_num) (by norm_num) ?_ hc
    0 0 le_rfl⟩
  rintro w config' ⟨⟩
  rfl

/-- Two checks of a bucket with one token have both read it before one of them writes
it back, and both jobs are let through at the same time. -/
theorem let_through_two :
    ∃ c, (machine limited).Reach Reliable Blank c ∧ c.store.clock = 0 ∧
      letThrough limited c "default" 0 (0 + 0) = 2 ∧
      ¬ (letThrough limited c "default" 0 (0 + 0) : ℚ) ≤ 1 + 1 * 0 / 1000 := by
  obtain ⟨c, hc, ht⟩ := Machine.exists_reach (machine limited) Reliable Blank blank_blank
    (dispatchTwo ++ goes 4 3 ++ goes 6 3 ++ goes 4 2 ++ goes 6 2)
    (fun c => decide (c.store.clock = 0 ∧ letThrough limited c "default" 0 (0 + 0) = 2))
    (by decide +kernel)
  obtain ⟨hclock, htwo⟩ := of_decide_eq_true ht
  refine ⟨c, hc, hclock, htwo, ?_⟩
  rw [htwo]
  norm_num

end Result

end Throttle

end NexusQueue
