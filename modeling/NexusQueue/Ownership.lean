/-
# Every job has one owner

In a run in which nothing fails, every effect keeps the account of `Account` in
order.  So in every reachable state a published job has exactly one owner.
-/
import NexusQueue.Account

namespace NexusQueue

namespace Ownership

/-- No janitor has found a dead worker, and no call has been broken off. -/
def calm : Task → Phase → Prop
  | .janitor, l => l = .idle
  | .processOne _ _ _, .broken => False
  | _, _ => True

/-- Ownership as a discipline over the custody protocol. -/
def ownership (env : Env) : Discipline (machine env) (custody env) (Token → ℕ) where
  good t := ¬ t.operator
  val t l := holding (token t l)
  emit _ _ _ _ := 0
  loc t l _ := calm t l
  inv := Balanced
  allow s _ t l c o := o.works ∧ (∀ w ∈ c.seeks, s.beats w) ∧ Identity.Fit AsPrinted s t l
  post := Concluded

section Step

variable {env : Env} {s s' : World} {t : Task} {l l' : Phase} {c : Cmd} {o : Oracle}
  {r : Except Err c.Resp} {ts : List Task} {g : Token → ℕ}

/-- What the tasks a command starts will hold. -/
def startsWith (ts : List Task) : Token → ℕ :=
  (ts.map fun t => holding (token t (Phase.start t))).sum

@[simp] theorem startsWith_nil : startsWith [] = 0 := rfl

@[simp] theorem startsWith_loop (w : WorkerId) : startsWith [.loop w] = 0 := by
  simp [startsWith, token, Phase.start]

@[simp] theorem startsWith_call (w : WorkerId) (n : ℕ) (j : JobId) :
    startsWith [.processOne w n j] = holding (some (.claim w j)) := by
  simp [startsWith, token, Phase.start]

/-- A producer holds no token. -/
theorem token_enqueue {n : String} {p : Option Json} {o : EnqueueOptions} :
    token (.enqueue n p o) l = none := by
  cases l <;> rfl

/-- A scheduler that holds nothing holds no token. -/
theorem token_free (h : l.free) : token .tick l = none := by
  cases l <;> first | rfl | exact h.elim

/-- **Step lemma.**  Every effect keeps the account in order, and the run calm. -/
theorem Balanced.effect (hop : ¬ t.operator) (hb : Balanced s (holding (token t l) + g))
    (hk : calm t l)
    (hfit : Identity.Fit AsPrinted s t l) (hbeat : ∀ w ∈ c.seeks, s.beats w)
    (he : Effect env s t l c r s' l' ts) :
    Balanced s' (holding (token t l') + (startsWith ts + g)) ∧ calm t l' := by
  -- nothing that the account counts changes
  have keep : s.JobFrame s' → holding (token t l') + startsWith ts = holding (token t l) →
      calm t l' → Balanced s' (holding (token t l') + (startsWith ts + g)) ∧ calm t l' := by
    intro hf hg hn
    rw [← add_assoc, hg]
    exact ⟨hb.frame hf, hn⟩
  -- no task is started, and the token of the process accounts for the change
  have become : startsWith ts = 0 → Balanced s' (holding (token t l') + g) → calm t l' →
      Balanced s' (holding (token t l') + (startsWith ts + g)) ∧ calm t l' := by
    intro hts hg hn
    rw [hts, zero_add]
    exact ⟨hg, hn⟩
  have same : s.JobFrame s := .refl s
  have object : ∀ w obj, s.JobFrame (s.setWorker w obj) := fun w obj =>
    { World.JobFrame.refl s with }
  obtain ⟨⟨d, hco⟩, hkn⟩ := hfit
  cases he with
  | still hn hf hw => exact keep hf.toJobFrame rfl hk
  | clock hfree => exact keep same (by rw [token_free hfree]; rfl) trivial
  | lookupMiss hkey hv => exact keep same rfl trivial
  | lookupHit hkey hv => exact keep same rfl trivial
  | draw hc hp hid hne =>
      have hnone : token t l = none := by
        cases hp with
        | quiet hq => exact hq.elim
        | uuidKeyless _ | uuidMissed => exact token_enqueue
        | uuidCron hfree => exact token_free hfree
      rw [hnone, Balanced.nothing_iff] at hb
      cases t with
      | enqueue n p o => exact become rfl (Balanced.nothing_iff.mpr ⟨hb.placed, hb.covered⟩) trivial
      | tick => exact become rfl (Balanced.nothing_iff.mpr ⟨hb.placed, hb.covered⟩) trivial
      | _ => exact hc.elim
  -- the id is still a draft: there is no hash under it
  | @insert t id row pg hc hid hst hkey hins =>
      have hnew : ¬ s.enqueued row.id := by
        rw [hid]
        cases t with
        | enqueue n p o => exact (hco.draft_new id (by simp [Identity.token])).2
        | tick => exact (hco.draft_new id (by simp [Identity.token])).2
        | _ => exact hc.elim
      cases t with
      | enqueue n p o => exact become rfl (hb.insertRow hnew hst.ne_completed hins) trivial
      | tick => exact become rfl (hb.insertRow hnew hst.ne_completed hins) trivial
      | _ => exact hc.elim
  | insertFails hc hid hkey hins =>
      cases t with
      | enqueue n p o => exact keep same rfl trivial
      | tick => exact keep same rfl trivial
      | _ => exact hc.elim
  | @publishReady t id q p f hc hid hq hpr =>
      cases t with
      | enqueue n p' o =>
          have hnew := (hco.draft_new id (by simp [Identity.token])).2
          exact become rfl (hb.publishReady hnew hid) trivial
      | tick =>
          have hnew := (hco.draft_new id (by simp [Identity.token])).2
          exact become rfl (hb.publishReady hnew hid) trivial
      | _ => exact hc.elim
  | @publishDelayed t id q f score hc hid hq =>
      cases t with
      | enqueue n p' o =>
          have hnew := (hco.draft_new id (by simp [Identity.token])).2
          exact become rfl (hb.publishDelayed hnew hid) trivial
      | tick =>
          have hnew := (hco.draft_new id (by simp [Identity.token])).2
          exact become rfl (hb.publishDelayed hnew hid) trivial
      | _ => exact hc.elim
  | remember hkey => exact keep { World.JobFrame.refl s with } rfl trivial
  | readDue hl => exact keep same (by rcases hl with rfl | ⟨q', rfl⟩ <;> rfl) trivial
  | claimDue hj => exact become rfl ((Balanced.nothing_iff.mp hb).claimDue hj) trivial
  | missDue hj => exact keep same rfl trivial
  | readPriority => exact keep same rfl trivial
  -- the ready list was computed from the priority in the hash
  | @promote now q j k todo =>
      obtain ⟨x, hx⟩ := exists_targetList q ((s.redis.jobs (redisKeys.job j)).priority.getD "normal")
      obtain rfl : k = .queue x := (hkn.2 k rfl).trans hx
      exact become rfl (Balanced.nothing_iff.mpr hb.promote) trivial
  | cronFails ht hl =>
      cases t with
      | tick => exact keep same (by rw [token_free hl]; rfl) trivial
      | addJob _ | removeJob _ => exact keep same (by cases l <;> rfl) trivial
      | _ => exact ht.elim
  -- from the list into the hands of the loop
  | @pull w x v c r hc hv hpulled =>
      have hk' : token (.loop w) ((truthy (some v)).elim .idle .pulled) = none ∨
          token (.loop w) ((truthy (some v)).elim .idle .pulled) = some (.claim w v) := by
        by_cases hempty : v = ""
        · subst hempty
          exact .inl rfl
        · rw [truthy_some hempty]
          exact .inr rfl
      exact become rfl ((Balanced.nothing_iff.mp hb).pull hv hk') trivial
  | pullNothing hc => exact keep same rfl trivial
  -- from the hands of the loop into those of the call it starts
  | @dispatch w j =>
      refine keep (object w _) ?_ trivial
      rw [startsWith_call]
      exact holding_none_add
  | loopAgain => exact keep same (by rw [startsWith_loop, add_zero]; rfl) trivial
  | loopExit => exact keep (object _ _) rfl trivial
  | readJob hl => exact keep same (by rcases hl with rfl | ⟨h, rfl⟩ <;> rfl) trivial
  -- the call gives its job back
  | @pushBack w n j h =>
      obtain ⟨x, hx⟩ := exists_targetList (h.queueName.getD (env.queue w)) (h.priority.getD "normal")
      rw [hx] at become ⊢
      exact become rfl (Balanced.nothing_iff.mpr hb.pushBack) trivial
  | mark hp =>
      have hprinted := hco.printed hkn.1.enqueued
      exact become rfl (hb.mark hprinted hp.ne_completed) trivial
  | complete hp => exact become rfl (hb.complete (hco.row _ hkn.1.enqueued) hp) trivial
  | retry => exact become rfl hb.retry trivial
  | bury => exact become rfl hb.bury trivial
  | ack => exact become rfl (Balanced.nothing_iff.mpr hb.ack) trivial
  -- nothing fails, so no call is broken off
  | brokenMark _ | brokenRetry | brokenBury | brokenAck => exact hk.elim
  | handler => exact keep same rfl hk
  | settle =>
      refine keep (object _ _) ?_ ?_
      · cases l <;> rfl
      · cases l <;> trivial
  | inert hw hop => exact keep (object _ _) rfl hk
  | timerFires ht => exact keep same rfl trivial
  | begin hrun => exact keep (object _ _) rfl trivial
  | beginFails hrun => exact keep same rfl trivial
  | register => exact keep { World.JobFrame.refl s with } rfl trivial
  | firstBeat => exact keep { World.JobFrame.refl s with } rfl trivial
  | launch =>
      exact keep (object _ _) (by rw [startsWith_loop, add_zero]; rfl) trivial
  | beat => exact keep { World.JobFrame.refl s with } rfl trivial
  | awaitLoop hloop => exact keep same rfl trivial
  | deregister => exact keep { World.JobFrame.refl s with } rfl trivial
  | dropHeartbeat =>
      refine keep ?_ rfl trivial
      constructor <;> simp [Write.apply, JobHash.SameIdentity.refl]
  | finish => exact keep (object _ _) rfl trivial
  -- no heartbeat that is looked for is missing, so the janitor finds nobody
  | @missing w l hno => exact absurd (hbeat w rfl) hno
  | readOrphans | readOrphan | pushOrphan | resetRow _ | dropList | unregister => cases hk
  | selectJob _ _ | resetRetry _ | readDlq | resetRequeue _ => exact absurd trivial hop
  | lift ht | readLifted ht | place ht => exact absurd ht hop

/-- A task that is started from outside holds nothing. -/
theorem token_external (h : t.external) (hop : ¬ t.operator) :
    token t (Phase.start t) = none := by
  cases t with
  | processOne _ _ _ => exact h.elim
  | requeue _ _ => exact absurd trivial hop
  | _ => rfl

/-- A task starts calm. -/
theorem calm_start (t : Task) : calm t (Phase.start t) := by
  cases t <;> trivial

/-- **Ownership is a sound discipline for runs in which nothing fails.** -/
theorem ownership_sound : (ownership env).Sound
    fun c a => FaultFree c a ∧ (Identity.identity env AsPrinted).PoolOk c where
  follows t _ := custody_follows t
  call s t l c o r s' F h := by
    obtain ⟨ho, hbeat, hfit⟩ := h.allow
    obtain ⟨hb, hk⟩ := Balanced.effect h.good h.inv h.loc hfit hbeat
      (effect_of_answer h.permits (Identity.answer_of_exec h.exec ho hfit.2 h.permits h.good))
    rw [← zero_add (startsWith _)] at hb
    refine ⟨hb, hk, fun t' ht' => ⟨?_, calm_start t'⟩⟩
    exact Task.not_operator_of_host (host_of_forks ht').choose_spec
  stable _ _ _ _ _ _ _ _ _ _ _ _ _ _ hk := hk
  start c t hok hc := by
    refine ⟨hok.1.2, ?_, calm_start t⟩
    have hnone : (ownership env).val t ((custody env).start t) = 0 := by
      change holding (token t (Phase.start t)) = 0
      rw [token_external hok.1.1 hok.1.2, holding_none]
    rw [hnone, zero_add]
    exact hc.1
  allows c i o p cmd k hok hc hp hprog := by
    refine ⟨hok.1.1, fun w hw => hok.1.2 w ?_, Identity.fit_of_mem hok.2 (List.mem_of_getElem? hp)⟩
    simpa [nextCmd, hp, hprog] using hw
  drift c d s' hok hc hd := by
    refine ⟨Balanced.frame hc.1 ?_, fun _ _ _ hk => hk⟩
    cases d <;> cases hd <;> exact { World.JobFrame.refl c.store with }

/-- The account of an empty deployment is in order. -/
theorem ownership_blank (c : State) (hc : Blank c) : (ownership env).PoolOk c := by
  obtain ⟨now, room, rfl⟩ := hc
  refine ⟨⟨fun j => ⟨fun hj => ?_, fun _ => ?_⟩, by simp [Discipline.total]⟩, by simp⟩
  · simp [World.enqueued] at hj
  · funext o
    cases o <;> simp [owned, completed, Postgres.row?, Discipline.total]

/-- In every reachable state the account is in order. -/
theorem balanced_of_reach {c : State} (hc : (machine env).Reach FaultFree Blank c) :
    Balanced c.store (holders (custody env) token c.pool) := by
  have hid : ∀ c, (machine env).Reach FaultFree Blank c →
      (Identity.identity env AsPrinted).PoolOk c :=
    fun _ hc => Identity.poolOk_of_faultFree hc
  have hok : (ownership env).PoolOk c :=
    ownership_sound.reach ownership_blank (hc.with_invariant hid)
  rw [← Discipline.total_holding (ownership env) token (fun _ _ => rfl) rfl]
  exact hok.1

end Step

section Result

variable {env : Env}

/-- **Single ownership.**  In every reachable state of a run in which nothing
fails, every job that has been published has exactly one owner, and no worker has
handed over more entries of its processing list than there are. -/
theorem single_owner {c : State} (hc : (machine env).Reach FaultFree Blank c) (j : JobId)
    (hj : c.store.enqueued j) :
    (∃ o, owners env c j = Pi.single o 1) ∧
      ∀ w, holders (custody env) token c.pool (.handed w j) ≤
        (c.store.redis.lists (redisKeys.processing w)).count j := by
  have hb := balanced_of_reach hc
  refine ⟨(hb.placed j).one hj, fun w => ?_⟩
  exact (Nat.le_add_left _ _).trans (hb.covered w j)

/-- The theorem on a run in which a handler has thrown: the job is in the delayed
set, and its entry in the processing list is handed over but still there. -/
theorem single_owner_between_retry_and_ack :
    ∃ c, (machine sample).Reach FaultFree Blank c ∧
      (j1.text ∈ c.store.redis.zsets (redisKeys.delayed "default") ∧
        c.store.redis.lists (redisKeys.processing "w1") = [j1.text]) ∧
      (∃ o, owners sample c j1.text = Pi.single o 1) ∧
      ∀ w, holders (custody sample) token c.pool (.handed w j1.text) ≤
        (c.store.redis.lists (redisKeys.processing w)).count j1.text := by
  obtain ⟨c, hc, ht⟩ := Machine.exists_reach (machine sample) FaultFree Blank blank_blank
    ([.start (.enqueue "echo" (some .null) {}), .call 0 (.fresh j1)] ++ goes 0 5 ++
      [.start (.start "w1")] ++ goes 1 8 ++ goes 2 5 ++ goes 3 6 ++ throws 3 ++ goes 3 5)
    (fun c => decide (c.store.enqueued j1.text) &&
      (decide (j1.text ∈ c.store.redis.zsets (redisKeys.delayed "default")) &&
        decide (c.store.redis.lists (redisKeys.processing "w1") = [j1.text])))
    (by decide +kernel)
  simp only [Bool.and_eq_true, decide_eq_true_eq] at ht
  exact ⟨c, hc, ht.2, single_owner hc j1.text ht.1⟩

end Result

end Ownership

end NexusQueue
