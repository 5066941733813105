/-
# Denied by the rate limit

A pulled job that its queue's limiter denies goes back: `processOne` takes it off the
processing list and pushes it on the ready list its hash names.  A pull takes the tail of a
list and the push is at the head, so the lists are as before only where head and tail are
the same place, in a list that holds nothing but this job (`undone_iff`).
-/
import NexusQueue.Fairness
import NexusQueue.Limiter

namespace NexusQueue

open Prog (Runs Ends Completes completes_pure completes_bind)

namespace Denial

open Fairness

variable {env : Env} {w : WorkerId} {t : Task} {s s' : World} {j : JobId}

/-- The queue a job belongs to; the worker's own queue if its hash does not say. -/
def queueOf (env : Env) (w : WorkerId) (s : World) (j : JobId) : QueueName :=
  (s.redis.jobs (redisKeys.job j)).queueName.getD (env.queue w)

/-- The ready list the hash of a job names. -/
def homeList (env : Env) (w : WorkerId) (s : World) (j : JobId) : Key :=
  targetList (queueOf env w s j) ((s.redis.jobs (redisKeys.job j)).priority.getD "normal")

/-- The job can be processed, its queue has a rate limit, and there is no token left. -/
def Denied (env : Env) (w : WorkerId) (s : World) (j : JobId) : Prop :=
  (truthy (s.redis.jobs (redisKeys.job j)).jobName).isSome ∧
    ∃ config ∈ env.rateLimits w (queueOf env w s j),
      (Limiter.fallback config s.clock
        (s.redis.rates (redisKeys.rateLimit (queueOf env w s j)))).1.1 = false

/-- Nothing has happened to the queue and to the job. -/
structure Undone (w : WorkerId) (j : JobId) (s s' : World) : Prop where
  ready : ∀ x, s'.redis.lists (.queue x) = s.redis.lists (.queue x)
  processing : s'.redis.lists (redisKeys.processing w) = s.redis.lists (redisKeys.processing w)
  hash : s'.redis.jobs (redisKeys.job j) = s.redis.jobs (redisKeys.job j)
  row : s'.pg.row? j = s.pg.row? j

/-- The first list of the pull order that has a job is the list the job's hash names, and it
holds nothing but this job. -/
def OnlyJob (env : Env) (w : WorkerId) (s : World) (j : JobId) : Prop :=
  ∃ p, firstReady env w s (Worker.getPriorityOrder (indexOf w s % 10)) = some p ∧
    homeList env w s j = targetList (env.queue w) p.name ∧ ∀ j' ∈ listOf env w s p, j' = j

/-! ## The denial -/

/-- A check that runs alone answers as `fallback` says, and touches its bucket only. -/
theorem checkLimit_completes (hup : t.host.elim false s.down = false) (q : QueueName)
    (config : RateLimitConfig) :
    Completes (alone env t) (fun _ => True) s (RateLimiter.checkLimitFallback q config)
      fun x s' =>
        x = .ok (Limiter.fallback config s.clock (s.redis.rates (redisKeys.rateLimit q))).1 ∧
          ∃ rates, s' = { s with redis := { s.redis with rates := rates } } := by
  refine completes_answered hup trivial rfl (fun _ => rfl) ?_
  refine completes_answered hup trivial rfl (fun _ => rfl) ?_
  unfold Limiter.fallback
  by_cases htoken : 1 ≤ RateLimiter.refilled config s.clock
      (s.redis.rates (redisKeys.rateLimit q))
  · simp only [if_pos htoken]
    refine completes_answered hup trivial rfl (fun _ => rfl) ?_
    exact completes_pure ⟨rfl, _, rfl⟩
  · simp only [if_neg htoken]
    refine completes_answered hup trivial rfl (fun _ => rfl) ?_
    exact completes_pure ⟨rfl, _, rfl⟩

/-- The lists after a denial: the first entry of the job in the processing list is gone, and
the job is at the head of its ready list. -/
def pushedBack (env : Env) (w : WorkerId) (s : World) (j : JobId) (k : Key) : List JobId :=
  if k = homeList env w s j then j :: s.redis.lists k
  else if k = redisKeys.processing w then (s.redis.lists k).erase j
  else s.redis.lists k

/-- What the `MULTI` of `pushBack` does to the lists. -/
theorem lists_pushBack (env : Env) (w : WorkerId) (s : World) (j : JobId) :
    (s.redis.multi s.clock
      [.lrem (redisKeys.processing w) 1 j, .lpush (homeList env w s j) j]).lists =
      pushedBack env w s j := by
  obtain ⟨x, hx⟩ := exists_targetList (queueOf env w s j)
    ((s.redis.jobs (redisKeys.job j)).priority.getD "normal")
  have hhome : homeList env w s j = .queue x := hx
  have hne : homeList env w s j ≠ redisKeys.processing w := by
    rw [hhome]
    simp
  funext k
  unfold pushedBack
  show Function.update (Function.update s.redis.lists (redisKeys.processing w)
    (removeFirst j 1 (s.redis.lists (redisKeys.processing w)))) (homeList env w s j)
    (j :: Function.update s.redis.lists _ _ (homeList env w s j)) k = _
  by_cases hk : k = homeList env w s j
  · rw [if_pos hk, hk, Function.update_self, Function.update_of_ne hne]
  · rw [if_neg hk, Function.update_of_ne hk]
    by_cases hproc : k = redisKeys.processing w
    · rw [if_pos hproc, hproc, Function.update_self]
      rfl
    · rw [if_neg hproc, Function.update_of_ne hproc]

/-- A denial changes the bucket and the two lists, and nothing else. -/
theorem denial_completes (hup : t.host.elim false s.down = false) (hdenied : Denied env w s j) :
    Completes (alone env t) (fun _ => True) s (Worker.processOne env w j) fun y s' =>
      y = .ok () ∧ s'.redis.lists = pushedBack env w s j ∧ s'.redis.jobs = s.redis.jobs ∧
        s'.pg = s.pg := by
  obtain ⟨hname, config, hconfig, htokens⟩ := hdenied
  obtain ⟨jobName, hname⟩ := Option.isSome_iff_exists.mp hname
  unfold Worker.processOne
  refine completes_answered hup trivial rfl (fun _ => rfl) ?_
  simp only [hname]
  have hlimit : env.rateLimits w ((s.redis.jobs (redisKeys.job j)).queueName.getD
      (env.queue w)) = some config := hconfig
  simp only [hlimit]
  refine completes_bind _ (checkLimit_completes hup _ config) ?_ ?_
  · rintro result s₁ ⟨hresult, rates, rfl⟩
    cases hresult
    change Completes _ _ _ (if (Limiter.fallback config s.clock
      (s.redis.rates (redisKeys.rateLimit (queueOf env w s j)))).1.1 = true then _ else _) _
    rw [htokens, if_neg (by decide)]
    refine completes_answered hup trivial rfl (fun _ => rfl) ?_
    exact completes_last hup trivial rfl (fun _ => rfl) ⟨rfl, lists_pushBack env w s j, rfl, rfl⟩
  · rintro e s₁ ⟨hresult, -⟩
    cases hresult

/-! ## Pull and denial -/

/-- Of a list and its tail, only equal entries come back to their place when the tail is
pushed at the head. -/
theorem cons_eq_concat {l : List JobId} : j :: l = l ++ [j] ↔ ∀ j' ∈ l, j' = j := by
  induction l with
  | nil => simp
  | cons a l ih =>
      rw [List.cons_append, List.cons.injEq, List.forall_mem_cons]
      constructor
      · rintro ⟨rfl, hrest⟩
        exact ⟨rfl, ih.mp hrest⟩
      · rintro ⟨rfl, hrest⟩
        exact ⟨rfl, ih.mpr hrest⟩

/-- A pull gives a job only if some list has one. -/
theorem exists_firstReady {x : Round} (hx : Pulls env w x) (hids : Proper env w x.before)
    (hj : x.result = some j) : ∃ p, firstReady env w x.before
      (Worker.getPriorityOrder (indexOf w x.before % 10)) = some p := by
  cases hfirst : firstReady env w x.before
      (Worker.getPriorityOrder (indexOf w x.before % 10)) with
  | some p => exact ⟨p, rfl⟩
  | none =>
      exfalso
      have hsearch := search_ends hids
      rw [hfirst] at hsearch
      rcases hx with hrun | hrun
      · obtain ⟨-, hnone, -⟩ := hsearch _ _ hrun
        rw [hj] at hnone
        cases hnone
      · rw [pullJob_eq] at hrun
        rcases Prog.runs_bind hrun with ⟨pulled, s₁, hpulled, hrest⟩ | ⟨e, -, he⟩
        · obtain ⟨-, hnone, hsame⟩ := hsearch _ _ hpulled
          cases hnone
          -- the normal list is as empty as the others
          have hempty : listOf env w s₁ .normal = [] := by
            have hall := List.find?_eq_none.mp hfirst .normal (mem_order _ _)
            have hbefore : listOf env w x.before .normal = [] := by simpa using hall
            rw [hsame]
            exact hbefore
          have hwait : Ends (alone env (.loop w)) s₁
              (redis.blmove (redisKeys.queue (env.queue w)) (redisKeys.processing w))
              fun y _ => y = .ok none := by
            refine Prog.ends_perform fun y s' hstep => ?_
            obtain ⟨o, ho⟩ := answer_of_alone hstep rfl
            have hpop : (s₁.redis.rpoplpush (redisKeys.queue (env.queue w))
                (redisKeys.processing w)).1 = none :=
              congrArg Prod.fst (rpoplpush_of_empty hempty)
            cases ho
            exact congrArg _ hpop
          have hnone := hwait _ _ hrest
          rw [hj] at hnone
          cases hnone
        · cases he

/-- The lists after a pull: the job has left the tail of its list for the head of the
processing list. -/
def pulledFrom (w : WorkerId) (s : World) (j : JobId) (source : Key) (l : List JobId) (k : Key) :
    List JobId :=
  if k = source then l
  else if k = redisKeys.processing w then j :: s.redis.lists k
  else s.redis.lists k

/-- What a pull that gives a job has done. -/
theorem pulled_of_result {x : Round} (hx : Pulls env w x) (hids : Proper env w x.before)
    (hj : x.result = some j) :
    ∃ p l, firstReady env w x.before (Worker.getPriorityOrder (indexOf w x.before % 10)) = some p ∧
      listOf env w x.before p = l ++ [j] ∧
      x.after.redis.lists = pulledFrom w x.before j (targetList (env.queue w) p.name) l ∧
      x.after.redis.jobs = x.before.redis.jobs ∧ x.after.pg = x.before.pg ∧
      x.after.down = x.before.down := by
  obtain ⟨p, hp⟩ := exists_firstReady hx hids hj
  obtain ⟨⟨j', hlast, hresult⟩, hafter⟩ := (pull_ends hx hids).2 p hp
  rw [hj] at hresult
  cases hresult
  obtain ⟨q, hq⟩ := exists_targetList (env.queue w) p.name
  have hne : redisKeys.processing w ≠ targetList (env.queue w) p.name := by
    rw [hq]
    simp
  have hpop : (x.before.redis.lists (targetList (env.queue w) p.name)).getLast? = some j := hlast
  have hredis : x.after.redis = (x.before.redis.rpoplpush (targetList (env.queue w) p.name)
      (redisKeys.processing w)).2 := by
    rw [hafter]
    rfl
  refine ⟨p, _, hp, (List.dropLast_append_getLast? j hlast).symm, ?_, ?_, ?_⟩
  · funext k
    unfold pulledFrom
    simp only [hredis, Redis.rpoplpush, hpop]
    by_cases hk : k = targetList (env.queue w) p.name
    · rw [if_pos hk, hk, Function.update_of_ne hne.symm, Function.update_self]
      rfl
    · rw [if_neg hk]
      by_cases hproc : k = redisKeys.processing w
      · rw [if_pos hproc, hproc, Function.update_self, Function.update_of_ne hne]
      · rw [if_neg hproc, Function.update_of_ne hproc, Function.update_of_ne hk]
  · simp only [hredis, Redis.rpoplpush, hpop]
  · rw [hafter]
    exact ⟨rfl, rfl⟩

/-- A worker that pulls is up. -/
theorem up_of_pull {x : Round} (hx : Pulls env w x) : x.before.down w = false := by
  have hfirst : ∀ {p : Async (Option JobId)} {k r s'}, p = .call (.onWorker w .nextPull) k →
      Runs (alone env (.loop w)) x.before p r s' → x.before.down w = false := by
    rintro p k r s' rfl hrun
    cases hrun with
    | call hone _ =>
        obtain ⟨o, -, hexec⟩ := hone
        unfold World.exec at hexec
        split at hexec
        · cases hexec
        · rename_i hdown
          exact Bool.eq_false_iff.mpr hdown
  rcases hx with hrun | hrun
  · exact hfirst rfl hrun
  · exact hfirst rfl hrun

/-- **A denial undoes the pull if and only if the job is alone in its list.**  The worker
pulls a job while nothing else moves, time passes, and `processOne` denies it. -/
theorem undone_iff {x : Round} {ms n : ℕ} (hx : Pulls env w x) (hids : Proper env w x.before)
    (hj : x.result = some j)
    (hdenied : Denied env w { x.after with clock := x.after.clock + ms } j) :
    Completes (alone env (.processOne w n j)) (fun _ => True)
      { x.after with clock := x.after.clock + ms } (Worker.processOne env w j) fun _ s' =>
        (Undone w j x.before s' ↔ OnlyJob env w x.before j) ∧
          s'.redis.lists (redisKeys.processing w) =
            x.before.redis.lists (redisKeys.processing w) ∧
          s'.redis.jobs = x.before.redis.jobs ∧ s'.pg = x.before.pg := by
  obtain ⟨p, l, hp, hl, hpulled, hjobs, hpg, hdown⟩ := pulled_of_result hx hids hj
  have hup : x.after.down w = false := by rw [hdown, up_of_pull hx]
  have hhost : (Task.processOne w n j).host.elim false
      { x.after with clock := x.after.clock + ms }.down = false := hup
  refine (denial_completes hhost hdenied).mono fun _ s' hend => ?_
  obtain ⟨-, hlists, hjobs', hpg'⟩ := hend
  set source := targetList (env.queue w) p.name with hsource
  -- the home list is read off the hash, which neither the pull nor the denial touches
  have hhome : homeList env w { x.after with clock := x.after.clock + ms } j =
      homeList env w x.before j := by
    simp only [homeList, queueOf, hjobs]
  obtain ⟨q, hq⟩ : ∃ q, source = .queue q := exists_targetList (env.queue w) p.name
  obtain ⟨q', hq'⟩ : ∃ q', homeList env w x.before j = .queue q' :=
    exists_targetList (queueOf env w x.before j) _
  have hprocessing : s'.redis.lists (redisKeys.processing w) =
      x.before.redis.lists (redisKeys.processing w) := by
    rw [hlists, pushedBack, hhome, hq', if_neg (by simp), if_pos rfl, hpulled, pulledFrom, hq,
      if_neg (by simp), if_pos rfl, List.erase_cons_head]
  -- one push at the head of the home list, one entry less at the tail of the source
  have hready : ∀ k, k ≠ redisKeys.processing w → s'.redis.lists k =
      if k = homeList env w x.before j then j :: (if k = source then l else x.before.redis.lists k)
      else if k = source then l else x.before.redis.lists k := by
    intro k hk
    rw [hlists, pushedBack, hhome, hpulled, pulledFrom, if_neg hk, if_neg hk]
  refine ⟨⟨fun hundone => ⟨p, hp, ?_⟩, ?_⟩, hprocessing, hjobs'.trans hjobs, hpg'.trans hpg⟩
  · -- the list of the pull is as long as before only if the job went back there
    have hback : s'.redis.lists source = l ++ [j] := by
      rw [hq, hundone.ready q, ← hq]
      exact hl
    rw [hready source (by rw [hq]; simp)] at hback
    by_cases hsame : source = homeList env w x.before j
    · rw [if_pos hsame, if_pos rfl] at hback
      refine ⟨hsame.symm, fun j' hj' => ?_⟩
      rw [hl] at hj'
      rcases List.mem_append.mp hj' with hj' | hj'
      · exact cons_eq_concat.mp hback j' hj'
      · exact List.mem_singleton.mp hj'
    · rw [if_neg hsame, if_pos rfl] at hback
      have hlength := congrArg List.length hback
      simp at hlength
  · rintro ⟨p', hp', hhome', honly⟩
    rw [hp] at hp'
    cases hp'
    refine ⟨fun z => ?_, hprocessing, congrFun (hjobs'.trans hjobs) _, ?_⟩
    · rw [hready (.queue z) (by simp), hhome']
      by_cases hz : Key.queue z = source
      · rw [if_pos hz, if_pos hz, hz]
        show j :: l = listOf env w x.before p
        rw [hl]
        refine cons_eq_concat.mpr fun j' hj' => honly j' ?_
        rw [hl]
        exact List.mem_append_left _ hj'
      · rw [if_neg hz, if_neg hz]
    · rw [hpg'.trans hpg]

/-! ## A list with one job and a list with two -/

/-- A queue with a rate limit, and no token left. -/
def limited : Env := { sample with rateLimits := fun _ _ => some Limiter.slow }

/-- These jobs wait, tail last. -/
def waiting (l : List JobId) : World where
  redis :=
    { lists := fun k => if k = .queue "default" then l else []
      jobs := fun _ => { jobName := some "send" }
      rates := fun _ => { tokens := some 0, lastRefill := some 0 } }

/-- The first pull. -/
def firstPull (l : List JobId) : Round where
  before := waiting l
  result := l.getLast?
  after := moved limited "w" (advanced "w" (waiting l)) .normal

/-- The first pull finds the `high` list empty and takes the tail of the `normal` one. -/
theorem firstPull_pulls : Pulls limited "w" (firstPull ["a"]) ∧
    Pulls limited "w" (firstPull ["b", "a"]) := by
  constructor <;>
    exact Or.inl (.call ⟨.plain, rfl, rfl⟩
      (.call ⟨.plain, rfl, rfl⟩ (.call ⟨.plain, rfl, rfl⟩ .ret)))

/-- There is no token. -/
theorem firstPull_denied : Denied limited "w" (firstPull ["a"]).after "a" ∧
    Denied limited "w" (firstPull ["b", "a"]).after "a" := by
  constructor <;>
    exact ⟨rfl, Limiter.slow, rfl, by decide +kernel⟩

/-- The job is alone in its list, and back in its place after the call that denies it. -/
theorem undone_single : ∃ y s',
    Runs (alone limited (.processOne "w" 0 "a")) (firstPull ["a"]).after
      (Worker.processOne limited "w" "a") y s' ∧
    Undone "w" "a" (waiting ["a"]) s' := by
  have hids : Proper limited "w" (waiting ["a"]) := by
    intro p
    cases p <;> decide
  have honly : OnlyJob limited "w" (waiting ["a"]) "a" := by
    refine ⟨.normal, by decide, rfl, fun j' hj' => ?_⟩
    exact List.mem_singleton.mp hj'
  have hdenied : Denied limited "w" { (firstPull ["a"]).after with clock := 0 + 0 } "a" :=
    firstPull_denied.1
  have hend := undone_iff (j := "a") (x := firstPull ["a"]) (n := 0) firstPull_pulls.1 hids rfl
    hdenied
  obtain ⟨y, s', hrun⟩ := hend.exists_runs
  exact ⟨y, s', hrun, (hend.ends _ _ hrun).1.mpr honly⟩

/-- With another job in the list the denied one is behind it afterwards. -/
theorem not_undone : Pulls limited "w" (firstPull ["b", "a"]) ∧
    (firstPull ["b", "a"]).result = some "a" ∧
    Denied limited "w" (firstPull ["b", "a"]).after "a" ∧ ∃ y s',
    Runs (alone limited (.processOne "w" 0 "a")) (firstPull ["b", "a"]).after
      (Worker.processOne limited "w" "a") y s' ∧
    (waiting ["b", "a"]).redis.lists (.queue "default") = ["b", "a"] ∧
    s'.redis.lists (.queue "default") = ["a", "b"] ∧
    ¬ Undone "w" "a" (waiting ["b", "a"]) s' := by
  have hend := denial_completes (t := .processOne "w" 0 "a") rfl firstPull_denied.2
  obtain ⟨y, s', hrun⟩ := hend.exists_runs
  obtain ⟨-, hlists, -, -⟩ := hend.ends _ _ hrun
  have hback : s'.redis.lists (.queue "default") = ["a", "b"] := by
    rw [hlists]
    rfl
  refine ⟨firstPull_pulls.2, rfl, firstPull_denied.2, y, s', hrun, rfl, hback, fun hundone => ?_⟩
  have hsame := hundone.ready "default"
  rw [hback] at hsame
  exact absurd hsame (by decide)

end Denial

end NexusQueue
