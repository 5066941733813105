/-
# After the handler has returned

`complete` is awaited inside the `try` block of the handler, so when one of its commands is
rejected the call goes on as if the handler had thrown.  What a call has issued is its
history, newest event first, with any answers, so this covers every state of the stores and
every interleaving: after a handler has returned, the call leaves the job alone if and only
if `complete` was not interrupted (`kept_iff`).
-/
import NexusQueue.Alone
import NexusQueue.Repertoire

/-! ## What a program adds to its history -/

namespace Prog

variable {C : Type} {R : C → Type} {E α β : Type}

/-- A command and any answer to it, as the newest event of a history. -/
def recorded (h : List (Event C R E)) (c : C) (r : Except E (R c)) (h' : List (Event C R E)) :
    Prop := h' = ⟨c, r⟩ :: h

variable {h : List (Event C R E)}

/-- One awaited command, then the rest of the program. -/
theorem ends_recorded {c : C} {f : R c → Prog C R E α}
    {Q : Except E α → List (Event C R E) → Prop}
    (hok : ∀ a, Ends recorded (⟨c, .ok a⟩ :: h) (f a) Q)
    (herr : ∀ e, Q (.error e) (⟨c, .error e⟩ :: h)) :
    Ends recorded h (perform c >>= f) Q := by
  refine ends_step ?_ ?_
  · rintro a _ rfl
    exact hok a
  · rintro e _ rfl
    exact herr e

/-- A program that issues commands of one kind adds commands of that kind. -/
theorem ends_only {S : C → Prop} {p : Prog C R E α} (hp : p.Only S) :
    Ends recorded h p fun _ h' => ∃ l, h' = l ++ h ∧ ∀ e ∈ l, S e.cmd := by
  intro x h' hrun
  induction hrun with
  | ret | raise => exact ⟨[], rfl, by simp⟩
  | @call h₀ c k r h₁ x h₂ hone _ ih =>
      cases hone
      obtain ⟨l, rfl, hl⟩ := ih (hp.2 r)
      refine ⟨l ++ [⟨c, r⟩], by simp, fun e he => ?_⟩
      rcases List.mem_append.mp he with he | he
      · exact hl e he
      · cases List.mem_singleton.mp he
        exact hp.1

end Prog

namespace NexusQueue

open Prog (Runs Ends recorded ends_recorded ends_only Only only_pure only_throw only_bind only_handle
  only_perform only_step)

namespace Success

variable {env : Env} {w : WorkerId} {j : JobId}

/-- What a call has issued and been answered, newest event first. -/
abbrev History := List (Event Cmd Cmd.Resp Err)

/-- A handler has returned. -/
def handled : Event Cmd Cmd.Resp Err → Bool
  | ⟨.handler _ _ _, .ok _⟩ => true
  | _ => false

/-- A command has been rejected; a rejected publication is ignored by the code. -/
def refused : Event Cmd Cmd.Resp Err → Bool
  | ⟨.publish _, _⟩ => false
  | ⟨_, .error _⟩ => true
  | _ => false

/-- The job has been marked delayed or dead in one of the stores, or has been added to a
delayed set or a dead-letter queue. -/
def failed : Event Cmd Cmd.Resp Err → Bool
  | ⟨.update _ p, .ok _⟩ => p.status = .delayed ∨ p.status = .dlq
  | ⟨.write (.hset _ f), .ok _⟩ => f.status = some .delayed ∨ f.status = some .dlq
  | ⟨.write (.zadd (.delayed _) _ _), .ok _⟩ => true
  | ⟨.write (.lpush (.dlq _) _), .ok _⟩ => true
  | _ => false

/-- Commands other than running a handler. -/
def Unhandled (c : Cmd) : Prop := ∀ name v a, c ≠ .handler name v a

theorem handled_of_unhandled {e : Event Cmd Cmd.Resp Err} (he : Unhandled e.cmd) :
    handled e = false := by
  obtain ⟨c, r⟩ := e
  cases c with
  | handler name v a => exact absurd rfl (he name v a)
  | _ => rfl

/-! ## The parts of a call -/

theorem unhandled_of {p : Async Unit} (hp : p.Only Cmd.concludes) : p.Only Unhandled := by
  refine hp.mono fun c hc => ?_
  rintro name v a rfl
  exact hc

theorem publishQuietly_unhandled (e : JobEvent) : (redis.publishQuietly e).Only Unhandled :=
  unhandled_of (Repertoire.publishQuietly_concludes e)

/-- A publication is never refused. -/
theorem publishQuietly_ends (e : JobEvent) (h : History) :
    Ends recorded h (redis.publishQuietly e) fun x h' =>
      x = .ok () ∧ ∃ r, h' = ⟨.publish e, r⟩ :: h := by
  refine Prog.ends_handle (fun _ h' => ∃ r, h' = ⟨.publish e, r⟩ :: h) ?_ ?_ ?_
  · refine Prog.ends_perform fun r h' hone => ?_
    exact ⟨r, hone⟩
  · exact fun a h' hr => ⟨rfl, hr⟩
  · exact fun e h' hr => Prog.ends_pure ⟨rfl, hr⟩

theorem refused_ok (c : Cmd) (a : c.Resp) : refused ⟨c, .ok a⟩ = false := by
  cases c <;> rfl

theorem refused_error {c : Cmd} (hc : ∀ e, c ≠ .publish e) (e : Err) :
    refused ⟨c, .error e⟩ = true := by
  cases c with
  | publish e => exact absurd rfl (hc e)
  | _ => rfl

/-- Commands that mark nothing as failed, and run no handler. -/
def Harmless (c : Cmd) : Prop := ∀ r, handled ⟨c, r⟩ = false ∧ failed ⟨c, r⟩ = false

/-- What is added to a history by harmless commands, with the number of refusals. -/
def Adds (h : History) (n : ℕ) (h' : History) : Prop :=
  ∃ l, h' = l ++ h ∧ (∀ e ∈ l, handled e = false ∧ failed e = false) ∧ l.countP refused = n

theorem Adds.refl (h : History) : Adds h 0 h := ⟨[], rfl, by simp, rfl⟩

theorem Adds.cons {h h' : History} {n : ℕ} {e : Event Cmd Cmd.Resp Err} (hadds : Adds h n h')
    (he : Harmless e.cmd) : Adds h (n + if refused e then 1 else 0) (e :: h') := by
  obtain ⟨l, rfl, hl, hcount⟩ := hadds
  refine ⟨e :: l, rfl, List.forall_mem_cons.mpr ⟨he e.answer, hl⟩, ?_⟩
  rw [List.countP_cons, hcount]

/-- So far nothing was refused, or the program has thrown at the only refusal. -/
def Smooth (h : History) (x : Except Err Unit) (h' : History) : Prop :=
  Adds h (if x.isOk then 0 else 1) h'

theorem smooth_step {c : Cmd} {f : c.Resp → Async Unit} {h h' : History} (hc : Harmless c)
    (hpublish : ∀ e, c ≠ .publish e) (hadds : Adds h 0 h')
    (hf : ∀ a h', Adds h 0 h' → Ends recorded h' (f a) (Smooth h)) :
    Ends recorded h' (await c >>= f) (Smooth h) := by
  refine ends_recorded (fun a => hf a _ ?_) fun e => ?_
  · have hok := hadds.cons (e := ⟨c, .ok a⟩) hc
    rwa [refused_ok] at hok
  · have herror := hadds.cons (e := ⟨c, .error e⟩) hc
    rwa [refused_error hpublish] at herror

/-- `complete` marks nothing as failed, and throws if and only if one of its commands is
refused. -/
theorem complete_ends (h : History) :
    Ends recorded h (Worker.complete env w j) (Smooth h) := by
  refine smooth_step ?_ (by simp) (Adds.refl h) fun _ _ h₁ => ?_
  · rintro (e | a) <;> exact ⟨rfl, rfl⟩
  refine smooth_step (by simp [Harmless, handled, failed]) (by simp) h₁ fun now _ h₂ => ?_
  refine smooth_step ?_ (by simp) h₂ fun _ _ h₃ => ?_
  · rintro (e | a) <;> exact ⟨rfl, rfl⟩
  refine smooth_step (by simp [Harmless, handled, failed]) (by simp) h₃ fun _ _ h₄ => ?_
  refine smooth_step (by simp [Harmless, handled, failed]) (by simp) h₄ fun hash _ h₅ => ?_
  refine smooth_step (by simp [Harmless, handled, failed]) (by simp) h₅ fun now' _ h₆ => ?_
  refine (publishQuietly_ends _ _).mono ?_
  rintro x _ ⟨rfl, r, rfl⟩
  have hpublished := h₆.cons (e := ⟨.publish _, r⟩) (by simp [Harmless, handled, failed])
  exact hpublished

/-- The job is marked as failed, unless something was refused. -/
def Marks (h h' : History) : Prop :=
  ∃ l, h' = l ++ h ∧ (∀ e ∈ l, handled e = false) ∧
    ((∀ e ∈ l, refused e = false) → ∃ e ∈ l, failed e = true)

/-- Once it is marked, it does not matter what else happens. -/
theorem marked_ends {p : Async Unit} (hp : p.Only Unhandled) {h l : History}
    (hl : ∀ e ∈ l, handled e = false) (hfailed : ∃ e ∈ l, failed e = true) :
    Ends recorded (l ++ h) p fun _ h' => Marks h h' := by
  refine (ends_only hp).mono ?_
  rintro x _ ⟨l', rfl, hl'⟩
  refine ⟨l' ++ l, (List.append_assoc _ _ _).symm, fun e he => ?_, fun _ => ?_⟩
  · rcases List.mem_append.mp he with he | he
    · exact handled_of_unhandled (hl' e he)
    · exact hl e he
  · obtain ⟨e, he, hmark⟩ := hfailed
    exact ⟨e, List.mem_append_right _ he, hmark⟩

/-- `handleFailure` marks the job, unless it is refused something. -/
theorem handleFailure_ends (message : String) (h : History) :
    Ends recorded h (Worker.handleFailure w j message) fun _ h' => Marks h h' := by
  refine ends_recorded (fun hash => ?_) fun e => ?_
  · change Ends _ _ (if _ then _ else _) _
    split
    · refine ends_recorded (fun _ => ?_) fun e => ?_
      · refine marked_ends (l := [⟨.update j _, .ok ()⟩, ⟨.hgetall _, .ok hash⟩]) ?_
          (by simp [handled]) ⟨_, List.mem_cons_self, rfl⟩
        refine only_step (by simp [Unhandled]) fun _ => only_step (by simp [Unhandled]) fun _ =>
          only_step (by simp [Unhandled]) fun _ => only_step (by simp [Unhandled]) fun _ =>
          only_step (by simp [Unhandled]) fun _ => ?_
        exact publishQuietly_unhandled _
      · exact ⟨[⟨.update j _, .error e⟩, ⟨.hgetall _, .ok hash⟩], rfl, by simp [handled],
          by simp [refused]⟩
    · refine ends_recorded (fun now => ?_) fun e => ?_
      · refine ends_recorded (fun _ => ?_) fun e => ?_
        · refine marked_ends (l := [⟨.update j _, .ok ()⟩, ⟨.now, .ok now⟩,
            ⟨.hgetall _, .ok hash⟩]) ?_ (by simp [handled]) ⟨_, List.mem_cons_self, rfl⟩
          refine only_step (by simp [Unhandled]) fun _ => ?_
          cases Option.map (fun a => (now : ℚ) + Worker.backoff a)
            (Worker.numberOr hash.attempts 0) with
          | none => exact only_throw _
          | some score =>
              exact only_step (by simp [Unhandled]) fun _ => only_perform (by simp [Unhandled])
        · exact ⟨[⟨.update j _, .error e⟩, ⟨.now, .ok now⟩, ⟨.hgetall _, .ok hash⟩], rfl,
            by simp [handled], by simp [refused]⟩
      · exact ⟨[⟨.now, .error e⟩, ⟨.hgetall _, .ok hash⟩], rfl, by simp [handled],
          by simp [refused]⟩
  · exact ⟨[⟨.hgetall _, .error e⟩], rfl, by simp [handled], by simp [refused]⟩

/-! ## The call -/

/-- No handler has returned yet. -/
def Fresh (h : History) : Prop := ∀ e ∈ h, handled e = false

/-- If a handler has returned, and at most one command was refused since, the job was marked as
failed if and only if there was a refusal. -/
def Kept (h : History) : Prop :=
  ∀ after e before, h = after ++ e :: before → handled e = true → after.countP refused ≤ 1 →
    ((∀ a ∈ after, failed a = false) ↔ ∀ a ∈ after, refused a = false)

theorem Fresh.kept {h : History} (hfresh : Fresh h) : Kept h := by
  rintro after e before rfl he
  rw [hfresh e (by simp)] at he
  cases he

/-- A handler returns once in a call, so the history splits in one way. -/
theorem kept_of_split {l : History} {e : Event Cmd Cmd.Resp Err} {h : History}
    (hfresh : Fresh h) (hl : ∀ e ∈ l, handled e = false)
    (hkept : l.countP refused ≤ 1 →
      ((∀ a ∈ l, failed a = false) ↔ ∀ a ∈ l, refused a = false)) : Kept (l ++ e :: h) := by
  intro after e' before hsplit he'
  have hout : ∀ {h' : History}, (∀ b ∈ h', handled b = false) → e' ∉ h' := by
    intro h' hnone hmem
    rw [hnone e' hmem] at he'
    cases he'
  obtain ⟨rfl, -, -⟩ := (List.append_cons_inj_of_notMem (hout hl) (hout hfresh)).mp hsplit
  exact hkept

/-- A program that runs no handler keeps a history fresh. -/
theorem fresh_ends {α : Type} {p : Async α} (hp : p.Only Unhandled) {h : History}
    (hfresh : Fresh h) : Ends recorded h p fun _ h' => Fresh h' := by
  refine (ends_only hp).mono ?_
  rintro x _ ⟨l, rfl, hl⟩ e he
  rcases List.mem_append.mp he with he | he
  · exact handled_of_unhandled (hl e he)
  · exact hfresh e he

theorem handleFailure_unhandled (message : String) :
    (Worker.handleFailure w j message).Only Unhandled :=
  unhandled_of (Repertoire.handleFailure_concludes w j message)

/-- The `try` block of the handler, and what is in it. -/
theorem handler_ends (name : String) (v : Json) (a : Option ℚ) {h : History} (hfresh : Fresh h) :
    Ends recorded h (tryCatch
      (do
        await (.handler name v a)
        Worker.complete env w j)
      fun err => Worker.handleFailure w j err.message) fun _ h' => Kept h' := by
  -- the block throws before the handler has returned, or at a refusal of `complete`
  refine Prog.ends_handle (fun x h' => Fresh h' ∧ x.isOk = false ∨
    ∃ e h₁, handled e = true ∧ h₁ = e :: h ∧ Smooth h₁ x h') ?_ ?_ ?_
  · refine ends_recorded (fun r => ?_) fun e => ?_
    · refine (complete_ends _).mono fun x h' hsmooth => ?_
      exact Or.inr ⟨⟨.handler name v a, .ok r⟩, _, rfl, rfl, hsmooth⟩
    · exact Or.inl ⟨List.forall_mem_cons.mpr ⟨rfl, hfresh⟩, rfl⟩
  · rintro u h' (⟨-, hx⟩ | ⟨e, h₁, he, rfl, l, rfl, hl, hcount⟩)
    · cases hx
    · refine kept_of_split hfresh (fun b hb => (hl b hb).1) fun _ => ?_
      have hzero : l.countP refused = 0 := hcount
      have hnone : ∀ b ∈ l, refused b = false := by
        simpa [List.countP_eq_zero] using hzero
      exact ⟨fun _ => hnone, fun _ b hb => (hl b hb).2⟩
  · rintro err h' (⟨hfresh', -⟩ | ⟨e, h₁, he, rfl, l, rfl, hl, hcount⟩)
    · exact (fresh_ends (handleFailure_unhandled _) hfresh').mono fun _ _ => Fresh.kept
    · refine (handleFailure_ends _ _).mono ?_
      rintro _ _ ⟨l', rfl, hl', hmark⟩
      rw [← List.append_assoc]
      refine kept_of_split hfresh ?_ fun hle => ?_
      · intro b hb
        rcases List.mem_append.mp hb with hb | hb
        · exact hl' b hb
        · exact (hl b hb).1
      · -- the one refusal was in `complete`, so `handleFailure` was refused nothing
        have hone : l.countP refused = 1 := hcount
        rw [List.countP_append, hone] at hle
        have hnone : ∀ b ∈ l', refused b = false := by
          have hzero : l'.countP refused = 0 := by omega
          simpa [List.countP_eq_zero] using hzero
        obtain ⟨b, hb, hfailed⟩ := hmark hnone
        obtain ⟨b', hb', hrefused⟩ := List.countP_pos_iff.mp (show 0 < l.countP refused by omega)
        constructor
        · intro hall
          rw [hall b (List.mem_append_left _ hb)] at hfailed
          cases hfailed
        · intro hall
          rw [hall b' (List.mem_append_right _ hb')] at hrefused
          cases hrefused

/-- The parts of a call before the handler. -/
theorem runJob_ends (hash : JobHash) (jobName : String) (q : QueueName) {h : History}
    (hfresh : Fresh h) :
    Ends recorded h (Worker.runJob env w j hash jobName q) fun _ h' => Kept h' := by
  have step : ∀ {c : Cmd} {f : c.Resp → Async Unit} {h : History}, Unhandled c → Fresh h →
      (∀ a h', Fresh h' → Ends recorded h' (f a) fun _ h' => Kept h') →
      Ends recorded h (await c >>= f) fun _ h' => Kept h' := by
    intro c f h hc hfresh hf
    have hnext : ∀ r, Fresh (⟨c, r⟩ :: h) := fun r =>
      List.forall_mem_cons.mpr ⟨handled_of_unhandled hc, hfresh⟩
    exact ends_recorded (fun a => hf a _ (hnext _)) fun e => (hnext _).kept
  refine step (by simp [Unhandled]) hfresh fun _ _ h₁ => ?_
  refine step (by simp [Unhandled]) h₁ fun startedAt _ h₂ => ?_
  refine step (by simp [Unhandled]) h₂ fun _ _ h₃ => ?_
  refine step (by simp [Unhandled]) h₃ fun now _ h₄ => ?_
  refine Prog.ends_bind _ (fresh_ends (publishQuietly_unhandled _) h₄) ?_ fun _ _ => Fresh.kept
  intro _ h' h₅
  split
  · exact (fresh_ends (handleFailure_unhandled _) h₅).mono fun _ _ => Fresh.kept
  · split
    · exact (fresh_ends (handleFailure_unhandled _) h₅).mono fun _ _ => Fresh.kept
    · exact handler_ends _ _ _ h₅

theorem checkLimit_unhandled (q : QueueName) (config : RateLimitConfig) :
    (RateLimiter.checkLimitFallback q config).Only Unhandled := by
  refine only_step (by simp [Unhandled]) fun now => only_step (by simp [Unhandled]) fun data => ?_
  dsimp only
  split
  · exact only_step (by simp [Unhandled]) fun _ => only_pure _
  · exact only_step (by simp [Unhandled]) fun _ => only_pure _

theorem processOne_ends : Ends recorded [] (Worker.processOne env w j) fun _ h' => Kept h' := by
  have hread : ∀ r, Fresh [⟨.hgetall (redisKeys.job j), r⟩] := fun r => by simp [Fresh, handled]
  refine ends_recorded (fun hash => ?_) fun e => (hread _).kept
  cases truthy hash.jobName with
  | none => exact Prog.ends_pure (hread _).kept
  | some jobName =>
      dsimp only
      cases env.rateLimits w (hash.queueName.getD (env.queue w)) with
      | none => exact runJob_ends _ _ _ (hread _)
      | some config =>
          refine Prog.ends_bind _ (fresh_ends (checkLimit_unhandled _ config) (hread _)) ?_
            fun _ _ => Fresh.kept
          intro result h' hfresh
          split
          · exact runJob_ends _ _ _ hfresh
          · have hpush : (Worker.pushBack w j (hash.queueName.getD (env.queue w))
                (hash.priority.getD "normal") result.2).Only Unhandled :=
              only_step (by simp [Unhandled]) fun _ => only_perform (by simp [Unhandled])
            exact (fresh_ends hpush hfresh).mono fun _ _ => Fresh.kept

/-- **A job whose handler has returned is left alone if and only if `complete` was not
interrupted.**  The history is one of a call that has ended, with any answers; at most one
command was refused after the handler had returned, so that none of `handleFailure` was. -/
theorem kept_iff {x : Except Err Unit} {after before : History} {e : Event Cmd Cmd.Resp Err}
    (hrun : Runs recorded [] (Worker.processOne env w j) x (after ++ e :: before))
    (he : handled e = true) (hone : after.countP refused ≤ 1) :
    (∀ a ∈ after, failed a = false) ↔ ∀ a ∈ after, refused a = false :=
  processOne_ends _ _ hrun after e before rfl he hone

/-- What follows the handler when nothing is refused. -/
def acknowledged : History :=
  [⟨.publish { type := "job.completed", jobId := "a", jobName := "", queueName := "default"
               timestamp := 0 }, .ok ()⟩,
    ⟨.now, .ok 0⟩, ⟨.hgetall (redisKeys.job "a"), .ok {}⟩,
    ⟨.write (.lrem (redisKeys.processing "w1") 1 "a"), .ok ()⟩,
    ⟨.write (.hset (redisKeys.job "a")
      { status := some .completed, completedAt := some (.at 0), errorMessage := some "" }), .ok ()⟩,
    ⟨.now, .ok 0⟩,
    ⟨.update "a" { status := .completed, completedAt := .now, errorMessage := some none }, .ok ()⟩]

theorem kept_acknowledged : ∃ before e,
    Runs recorded [] (Worker.processOne sample "w1" "a") (.ok ()) (acknowledged ++ e :: before) ∧
      handled e = true ∧ ∀ b ∈ acknowledged, failed b = false := by
  have hrun : Runs recorded [] (Worker.processOne sample "w1" "a") (.ok ())
      (acknowledged ++ _ :: _) :=
    .call (r := .ok { jobName := some "send" }) rfl <| .call (r := .ok ()) rfl <|
      .call (r := .ok (0 : ℕ)) rfl <| .call (r := .ok ()) rfl <| .call (r := .ok (0 : ℕ)) rfl <|
      .call (r := .ok ()) rfl <| .call (r := .ok ()) rfl <| .call (r := .ok ()) rfl <|
      .call (r := .ok (0 : ℕ)) rfl <| .call (r := .ok ()) rfl <| .call (r := .ok ()) rfl <|
      .call (r := .ok {}) rfl <| .call (r := .ok (0 : ℕ)) rfl <| .call (r := .ok ()) rfl (by exact .ret)
  refine ⟨_, _, hrun, rfl, (kept_iff hrun rfl (by decide)).mpr ?_⟩
  decide

/-- The acknowledgement of a job that is done is rejected: the job is delayed, to be run once
more. -/
theorem failed_after_success : ∃ c, (machine sample).Reach Anything Blank c ∧
    c.pool[3]?.any (fun p => p.hist.any handled) = true ∧
    (c.store.pg.row? j1.text).map JobRow.status = some .delayed ∧
    (c.store.redis.jobs (redisKeys.job j1.text)).status = some .delayed ∧
    j1.text ∈ c.store.redis.zsets (redisKeys.delayed "default") := by
  obtain ⟨c, hc, ht⟩ := Machine.exists_reach (machine sample) Anything Blank blank_blank
    ([.start (.enqueue "echo" (some .null) {}), .call 0 (.fresh j1)] ++ goes 0 5 ++
      [.start (.start "w1")] ++ goes 1 8 ++ goes 2 5 ++ goes 3 6 ++ returns 3 ++ goes 3 3 ++
      [.call 3 .fault] ++ goes 3 6)
    (fun c => decide (c.pool[3]?.any (fun p => p.hist.any handled) = true ∧
      (c.store.pg.row? j1.text).map JobRow.status = some .delayed ∧
      (c.store.redis.jobs (redisKeys.job j1.text)).status = some .delayed ∧
      j1.text ∈ c.store.redis.zsets (redisKeys.delayed "default")))
    (by decide +kernel)
  exact ⟨c, hc, of_decide_eq_true ht⟩

end Success

end NexusQueue
