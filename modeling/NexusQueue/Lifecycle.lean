/-
# The life of a job

What the deployment is for, in terms of single jobs.  A job is submitted to a ready list or
scheduled for later.  When it is due a scheduler takes it and puts it into a ready list.  A
worker pulls it to its processing list and puts it back, completes it, schedules a retry or
buries it.  That is all: `Leg` lists the legs of the way of a job, and the life cycle moves
one job along one leg at a time.

In a run in which nothing fails the deployment refines the life cycle.  So no job skips a
place, and a job that is completed or buried stays so, whatever the others do.
-/
import NexusQueue.Ownership
import NexusQueue.Simulation

namespace NexusQueue

namespace Lifecycle

open Ownership

/-! ## The life cycle -/

/-- The legs of the way of a job. -/
inductive Leg : Option Owner → Owner → Prop
  | submit (x : String) : Leg none (.ready x)
  | schedule (q : QueueName) : Leg none (.delayed q)
  | due (q : QueueName) : Leg (some (.delayed q)) .scheduler
  | promote (x : String) : Leg (some .scheduler) (.ready x)
  | pull (x : String) (w : WorkerId) : Leg (some (.ready x)) (.processing w)
  | pushBack (w : WorkerId) (x : String) : Leg (some (.processing w)) (.ready x)
  | complete (w : WorkerId) : Leg (some (.processing w)) .completed
  | retry (w : WorkerId) (q : QueueName) : Leg (some (.processing w)) (.delayed q)
  | bury (w : WorkerId) (q : QueueName) : Leg (some (.processing w)) (.dlq q)

/-- Where every job is; nowhere if it has not been published. -/
abbrev Whereabouts := JobId → Option Owner

/-- One job moves along one leg. -/
abbrev Step : Whereabouts → Whereabouts → Prop := Board.Step Leg

/-- No leg leads on from completion. -/
theorem completed_final (o : Owner) : ¬ Leg (some .completed) o := by
  intro h
  cases h

/-- No leg leads out of a dead-letter queue. -/
theorem dlq_final (q : QueueName) (o : Owner) : ¬ Leg (some (.dlq q)) o := by
  intro h
  cases h

/-- A state of the deployment shows these whereabouts. -/
def Shows (env : Env) (c : State) (a : Whereabouts) : Prop :=
  ∀ j, owners env c j = (a j).elim 0 fun o => Pi.single o 1

section Step

variable {env : Env} {s s' : World} {t : Task} {l l' : Phase} {c : Cmd}
  {r : Except Err c.Resp} {ts : List Task} {g g' : Token → ℕ} {j : JobId}

/-- Nothing happens to the job. -/
structure Stays (s s' : World) (g g' : Token → ℕ) (j : JobId) : Prop where
  enqueued : s'.enqueued j ↔ s.enqueued j
  owned : owned s' g' j = owned s g j

/-- A job stays if every place has it as often as before. -/
theorem Stays.of (henq : s'.enqueued j ↔ s.enqueued j)
    (hready : ∀ x, (s'.redis.lists (.queue x)).count j = (s.redis.lists (.queue x)).count j)
    (hdelayed : ∀ q, j ∈ s'.redis.zsets (.delayed q) ↔ j ∈ s.redis.zsets (.delayed q))
    (hprocessing : ∀ w, (s'.redis.lists (.processing w)).count j - g' (.handed w j) =
      (s.redis.lists (.processing w)).count j - g (.handed w j))
    (hdlq : ∀ q, (s'.redis.lists (.dlq q)).count j = (s.redis.lists (.dlq q)).count j)
    (hhand : g' (.hand j) = g (.hand j)) (hcompleted : completed s' j = completed s j) :
    Stays s s' g g' j := by
  refine ⟨henq, ?_⟩
  funext o
  cases o with
  | ready x => exact hready x
  | delayed q => simp only [Ownership.owned, hdelayed q]
  | processing w => exact hprocessing w
  | dlq q => exact hdlq q
  | scheduler => exact hhand
  | completed => simp only [Ownership.owned, hcompleted]

/-- What an effect does to the jobs: nothing, or one of them moves along a leg. -/
def Shifts (s s' : World) (g g' : Token → ℕ) : Prop :=
  (∀ j, Stays s s' g g' j) ∨ ∃ j a b, Leg a b ∧ (a = none → ¬ s.enqueued j) ∧
    (∀ o, a = some o → 0 < Ownership.owned s g j o) ∧ 0 < Ownership.owned s' g' j b ∧
    ∀ j', j' ≠ j → Stays s s' g g' j'

/-- The job moves from one place to another. -/
theorem Shifts.move {a b : Owner} (hleg : Leg (some a) b) (ha : 0 < Ownership.owned s g j a)
    (hb : 0 < Ownership.owned s' g' j b) (hrest : ∀ j', j' ≠ j → Stays s s' g g' j') :
    Shifts s s' g g' := by
  refine Or.inr ⟨j, some a, b, hleg, by simp, ?_, hb, hrest⟩
  intro o ho
  cases ho
  exact ha

/-- Nothing about jobs changes. -/
theorem stays_frame (hf : s.JobFrame s') (hg : g' = g) (j : JobId) : Stays s s' g g' j := by
  subst hg
  have henq : s'.enqueued j ↔ s.enqueued j := by
    rw [World.enqueued, World.enqueued, (hf.identity j).id]
  refine Stays.of henq (fun x => ?_) (fun q => ?_) (fun w => ?_) (fun q => ?_) rfl ?_
  · rw [hf.ready]
  · rw [hf.delayed]
  · rw [hf.processing]
  · rw [hf.dlq]
  · rw [completed, completed, hf.pg]

/-- A row is inserted for a job that is not published yet. -/
theorem shifts_insert {now : ℕ} {pg : Postgres} {row : NewRow} (h : Balanced s g)
    (hnew : ¬ s.enqueued row.id) (hst : row.status ≠ .completed)
    (hins : s.pg.insert now row = .ok pg) : Shifts s { s with pg := pg } g g := by
  obtain ⟨r, -, hrst, -, hrow⟩ := Postgres.row?_insert hins
  refine Or.inl fun j => Stays.of Iff.rfl (fun _ => rfl) (fun _ => Iff.rfl) (fun _ => rfl)
    (fun _ => rfl) rfl ?_
  by_cases hj : j = row.id
  · subst hj
    have hzero : completed s row.id = false := by
      have hnone := congrFun ((h.placed row.id).none hnew) .completed
      simpa [Ownership.owned] using hnone
    rw [hzero]
    simp [completed, hrow row.id, hrst, hst]
  · rw [completed, completed, hrow j, if_neg hj]

/-- The `MULTI` of the immediate path. -/
theorem shifts_publishReady {id : JobId} {q : QueueName} {p : String} {f : JobHash}
    (hnew : ¬ s.enqueued id) (hid : f.id = some id) :
    Shifts s ((s.register id q f).push (targetList q p) id) g g := by
  obtain ⟨x, hx⟩ := exists_targetList q p
  have henq := enqueued_register (s := s) (q := q) hid
  rw [hx]
  refine Or.inr ⟨id, none, .ready x, .submit x, fun _ => hnew, by simp, ?_, fun j' hj' => ?_⟩
  · simp [Ownership.owned]
  · refine Stays.of ((henq j').trans (or_iff_right hj')) (fun x' => ?_) (fun _ => Iff.rfl)
      (fun w => ?_) (fun q' => ?_) rfl rfl
    · by_cases hxx : x' = x
      · subst hxx
        simp [World.register, Ne.symm hj']
      · simp [World.register, hxx]
    · simp [World.register]
    · simp [World.register]

/-- The `MULTI` of the delayed path. -/
theorem shifts_publishDelayed {id : JobId} {q : QueueName} {score : ℚ} {f : JobHash}
    (hnew : ¬ s.enqueued id) (hid : f.id = some id) :
    Shifts s ((s.register id q f).setDelayed q
      ((s.redis.zsets (redisKeys.delayed q)).zadd score id)) g g := by
  have henq := enqueued_register (s := s) (q := q) hid
  refine Or.inr ⟨id, none, .delayed q, .schedule q, fun _ => hnew, by simp, ?_, fun j' hj' => ?_⟩
  · simp [Ownership.owned]
  · refine Stays.of ((henq j').trans (or_iff_right hj')) (fun _ => rfl) (fun q' => ?_)
      (fun _ => rfl) (fun _ => rfl) rfl rfl
    by_cases hq : q' = q
    · subst hq
      simp [hj']
    · simp [World.register, hq]

/-- A scheduler claims a due job. -/
theorem shifts_claimDue {q : QueueName} (hj : j ∈ s.redis.zsets (.delayed q)) :
    Shifts s (s.setDelayed q ((s.redis.zsets (.delayed q)).zrem j)) g
      (holding (some (.hand j)) + g) := by
  refine .move (.due q) (j := j) ?_ ?_ fun j' hj' => ?_
  · simp [Ownership.owned, hj]
  · simp [Ownership.owned]
  · refine Stays.of Iff.rfl (fun _ => rfl) (fun q' => ?_) (fun w => ?_) (fun _ => rfl) ?_ rfl
    · by_cases hq : q' = q
      · subst hq
        simp [hj']
      · simp [hq]
    · simp
    · simp [Ne.symm hj']

/-- A scheduler pushes a job in its hands to a ready list. -/
theorem shifts_promote {x : String} :
    Shifts s (s.push (.queue x) j) (holding (some (.hand j)) + g) g := by
  refine .move (.promote x) (j := j) ?_ ?_ fun j' hj' => ?_
  · simp [Ownership.owned]
  · simp [Ownership.owned]
  · refine Stays.of Iff.rfl (fun x' => ?_) (fun _ => Iff.rfl) (fun w => ?_) (fun q => ?_) ?_ rfl
    · by_cases hx : x' = x
      · subst hx
        simp [Ne.symm hj']
      · simp [hx]
    · simp
    · simp
    · simp [Ne.symm hj']

/-- A pull loop moves the tail of a ready list to the processing list. -/
theorem shifts_pull {x v : String} {w : WorkerId} {k : Option Token} (h : Balanced s g)
    (hv : (s.redis.lists (.queue x)).getLast? = some v) (hk : k = none ∨ k = some (.claim w v)) :
    Shifts s ((s.setList (.queue x) (s.redis.lists (.queue x)).dropLast).push (.processing w) v) g
      (holding k + g) := by
  have hcount := Redis.count_dropLast hv
  have hhold : ∀ y : Token, y ≠ .claim w v → holding k y = 0 := by
    intro y hy
    rcases hk with rfl | rfl <;> simp [Ne.symm hy]
  have hle := h.covered w v
  refine .move (.pull x w) (j := v) ?_ ?_ fun j' hj' => ?_
  · have hv' := hcount v
    simp only [Ownership.owned]
    rw [if_pos rfl] at hv'
    omega
  · simp [Ownership.owned, hhold]
    omega
  · refine Stays.of Iff.rfl (fun x' => ?_) (fun _ => Iff.rfl) (fun w' => ?_) (fun q => ?_) ?_ rfl
    · by_cases hx : x' = x
      · subst hx
        have hc := hcount j'
        rw [if_neg (Ne.symm hj')] at hc
        simpa using hc
      · simp [hx]
    · by_cases hw : w' = w
      · subst hw
        simp [hhold, Ne.symm hj']
      · simp [hhold, hw]
    · simp
    · simp [hhold]

/-- A rate-limited job goes back to its ready list. -/
theorem shifts_pushBack {x : String} {w : WorkerId}
    (h : Balanced s (holding (some (.claim w j)) + g)) :
    Shifts s ((s.setList (.processing w) ((s.redis.lists (.processing w)).erase j)).push
      (.queue x) j) (holding (some (.claim w j)) + g) g := by
  refine .move (.pushBack w x) h.claimed_pos ?_ fun j' hj' => ?_
  · simp [Ownership.owned]
  · refine Stays.of Iff.rfl (fun x' => ?_) (fun _ => Iff.rfl) (fun w' => ?_) (fun q => ?_) ?_ rfl
    · by_cases hx : x' = x
      · subst hx
        simp [Ne.symm hj']
      · simp [hx]
    · by_cases hw : w' = w
      · subst hw
        simp [List.count_erase_of_ne hj']
      · simp [hw]
    · simp
    · simp

/-- A call marks its job as still on the way. -/
theorem shifts_mark {w : WorkerId} {p : RowPatch}
    (h : Balanced s (holding (some (.claim w j)) + g)) (hprinted : Uuid.Printed j)
    (hp : p.status ≠ .completed) : Shifts s (s.updateRow j p) (holding (some (.claim w j)) + g)
      (holding (some (.claim w j)) + g) := by
  refine Or.inl fun j' => Stays.of Iff.rfl (fun _ => rfl) (fun _ => Iff.rfl) (fun _ => rfl)
    (fun _ => rfl) rfl ?_
  rw [completed_update hprinted]
  by_cases hj : j' = j
  · subst hj
    simp [hp, h.not_completed]
  · rw [if_neg hj]

/-- A call hands its job over. -/
theorem shifts_handOver {w : WorkerId} {b : Owner}
    (h : Balanced s (holding (some (.claim w j)) + g)) (hleg : Leg (some (.processing w)) b)
    (hb : 0 < Ownership.owned s' (holding (some (.handed w j)) + g) j b)
    (hrest : ∀ j', j' ≠ j → Stays s s' g g j') :
    Shifts s s' (holding (some (.claim w j)) + g) (holding (some (.handed w j)) + g) := by
  refine .move hleg h.claimed_pos hb fun j' hj' => ⟨(hrest j' hj').enqueued, ?_⟩
  have hsame := (hrest j' hj').owned
  have hfree : ∀ (s : World) (k : Token), (k = .claim w j ∨ k = .handed w j) →
      Ownership.owned s (holding (some k) + g) j' = Ownership.owned s g j' := by
    intro s k hk
    funext o
    cases o <;> rcases hk with rfl | rfl <;> simp [Ownership.owned, Ne.symm hj']
  rw [hfree s' _ (Or.inr rfl), hfree s _ (Or.inl rfl), hsame]

/-- The entry of a job that is already elsewhere is removed. -/
theorem shifts_ack {w : WorkerId} (h : Balanced s (holding (some (.handed w j)) + g)) :
    Shifts s (s.setList (.processing w) ((s.redis.lists (.processing w)).erase j))
      (holding (some (.handed w j)) + g) g := by
  have hle := h.covered w j
  simp at hle
  refine Or.inl fun j' => Stays.of Iff.rfl (fun x => ?_) (fun _ => Iff.rfl) (fun w' => ?_)
    (fun q => ?_) ?_ rfl
  · simp
  · by_cases hw : w' = w
    · subst hw
      by_cases hj : j' = j
      · subst hj
        simp
        omega
      · simp [List.count_erase_of_ne hj, Ne.symm hj]
    · simp [hw, Ne.symm hw]
  · simp
  · simp

/-- **Step lemma.**  Every effect leaves all jobs where they are, or moves one of them
along a leg. -/
theorem shifts_of_effect (hop : ¬ t.operator) (hb : Balanced s (holding (token t l) + g))
    (hk : calm t l) (hfit : Identity.Fit AsPrinted s t l) (hbeat : ∀ w ∈ c.seeks, s.beats w)
    (he : Effect env s t l c r s' l' ts) :
    Shifts s s' (holding (token t l) + g) (holding (token t l') + (startsWith ts + g)) := by
  have keep : s.JobFrame s' → holding (token t l') + startsWith ts = holding (token t l) →
      Shifts s s' (holding (token t l) + g) (holding (token t l') + (startsWith ts + g)) := by
    intro hf hg
    refine Or.inl fun j => stays_frame hf ?_ j
    rw [← add_assoc, hg]
  have become : startsWith ts = 0 →
      Shifts s s' (holding (token t l) + g) (holding (token t l') + g) →
      Shifts s s' (holding (token t l) + g) (holding (token t l') + (startsWith ts + g)) := by
    intro hts h
    rwa [hts, zero_add]
  -- what a task without a token does
  have free : token t l = none → token t l' = none → startsWith ts = 0 → Shifts s s' g g →
      Shifts s s' (holding (token t l) + g) (holding (token t l') + (startsWith ts + g)) := by
    intro hl hl' hts h
    rwa [hl, hl', hts, holding_none, zero_add, zero_add]
  have same : s.JobFrame s := .refl s
  have object : ∀ w obj, s.JobFrame (s.setWorker w obj) := fun w obj =>
    { World.JobFrame.refl s with }
  obtain ⟨⟨d, hco⟩, hkn⟩ := hfit
  cases he with
  | still hn hf hw => exact keep hf.toJobFrame rfl
  | clock hfree => exact keep same (by rw [token_free hfree]; rfl)
  | lookupMiss hkey hv => exact keep same rfl
  | lookupHit hkey hv => exact keep same rfl
  | draw hc hp hid hne =>
      have hnone : token t l = none := by
        cases hp with
        | quiet hq => exact hq.elim
        | uuidKeyless _ | uuidMissed => exact token_enqueue
        | uuidCron hfree => exact token_free hfree
      have hdraft : ∀ id, token t (.drawn id) = none := by
        intro id
        cases t <;> rfl
      exact free hnone (hdraft _) rfl (Or.inl fun j => Stays.of Iff.rfl (fun _ => rfl)
        (fun _ => Iff.rfl) (fun _ => rfl) (fun _ => rfl) rfl rfl)
  | @insert t id row pg hc hid hst hkey hins =>
      have hnew : ¬ s.enqueued row.id := by
        rw [hid]
        cases t with
        | enqueue n p o => exact (hco.draft_new id (by simp [Identity.token])).2
        | tick => exact (hco.draft_new id (by simp [Identity.token])).2
        | _ => exact hc.elim
      cases t with
      | enqueue _ _ _ | tick =>
          refine free rfl rfl rfl ?_
          exact shifts_insert (Balanced.nothing_iff.mp hb) hnew hst.ne_completed hins
      | _ => exact hc.elim
  | insertFails hc hid hkey hins =>
      cases t with
      | enqueue _ _ _ | tick => exact keep same rfl
      | _ => exact hc.elim
  | @publishReady t id q p f hc hid hq hpr =>
      cases t with
      | enqueue _ _ _ | tick =>
          have hnew := (hco.draft_new id (by simp [Identity.token])).2
          exact free rfl rfl rfl (shifts_publishReady hnew hid)
      | _ => exact hc.elim
  | @publishDelayed t id q f score hc hid hq =>
      cases t with
      | enqueue _ _ _ | tick =>
          have hnew := (hco.draft_new id (by simp [Identity.token])).2
          exact free rfl rfl rfl (shifts_publishDelayed hnew hid)
      | _ => exact hc.elim
  | remember hkey => exact keep { World.JobFrame.refl s with } rfl
  | readDue hl => exact keep same (by rcases hl with rfl | ⟨q', rfl⟩ <;> rfl)
  | @claimDue now q j todo hj =>
      have hnone : token .tick (.due now q (j :: todo)) = none := rfl
      refine become rfl ?_
      rw [hnone, holding_none, zero_add]
      exact shifts_claimDue hj
  | missDue hj => exact keep same rfl
  | readPriority => exact keep same rfl
  | @promote now q j k todo =>
      obtain ⟨x, hx⟩ := exists_targetList q
        ((s.redis.jobs (redisKeys.job j)).priority.getD "normal")
      obtain rfl : k = .queue x := (hkn.2 k rfl).trans hx
      have hnone : token .tick (.due now q todo) = none := rfl
      refine become rfl ?_
      rw [hnone, holding_none, zero_add]
      exact shifts_promote
  | cronFails ht hl =>
      cases t with
      | tick => exact keep same (by rw [token_free hl]; rfl)
      | addJob _ | removeJob _ => exact keep same (by cases l <;> rfl)
      | _ => exact ht.elim
  | @pull w x v c r hc hv hpulled =>
      have hk' : token (.loop w) ((truthy (some v)).elim .idle .pulled) = none ∨
          token (.loop w) ((truthy (some v)).elim .idle .pulled) = some (.claim w v) := by
        by_cases hempty : v = ""
        · subst hempty
          exact .inl rfl
        · rw [truthy_some hempty]
          exact .inr rfl
      have hnone : token (.loop w) .idle = none := rfl
      rw [hnone, Balanced.nothing_iff] at hb
      refine become rfl ?_
      rw [hnone, holding_none, zero_add]
      exact shifts_pull hb hv hk'
  | pullNothing hc => exact keep same rfl
  | @dispatch w j =>
      refine keep (object w _) ?_
      rw [startsWith_call]
      exact holding_none_add
  | loopAgain => exact keep same (by rw [startsWith_loop, add_zero]; rfl)
  | loopExit => exact keep (object _ _) rfl
  | readJob hl => exact keep same (by rcases hl with rfl | ⟨h, rfl⟩ <;> rfl)
  | @pushBack w n j h =>
      obtain ⟨x, hx⟩ := exists_targetList (h.queueName.getD (env.queue w))
        (h.priority.getD "normal")
      have hnone : token (.processOne w n j) .released = none := rfl
      rw [hx] at become ⊢
      refine become rfl ?_
      rw [hnone, holding_none, zero_add]
      exact shifts_pushBack hb
  | mark hp =>
      have hprinted := hco.printed hkn.1.enqueued
      exact become rfl (shifts_mark hb hprinted hp.ne_completed)
  | @complete w n j h p hp =>
      have hrow := hco.row _ hkn.1.enqueued
      have hprinted := Postgres.printed_of_row? hrow
      refine become rfl (shifts_handOver hb (.complete w) ?_ fun j' hj' => ?_)
      · simp [Ownership.owned, completed_update hprinted, hrow, hp]
      · refine Stays.of Iff.rfl (fun _ => rfl) (fun _ => Iff.rfl) (fun _ => rfl) (fun _ => rfl)
          rfl ?_
        rw [completed_update hprinted, if_neg hj']
  | @retry w n j h score =>
      have hleg := Leg.retry w (h.queueName.getD "default")
      refine become rfl (shifts_handOver hb hleg ?_ fun j' hj' => ?_)
      · simp [Ownership.owned]
      · refine Stays.of Iff.rfl (fun _ => rfl) (fun q' => ?_) (fun _ => rfl) (fun _ => rfl) rfl rfl
        by_cases hq : q' = h.queueName.getD "default"
        · rw [hq]
          simp [hj']
        · simp [hq]
  | @bury w n j h =>
      have hleg := Leg.bury w (h.queueName.getD "default")
      refine become rfl (shifts_handOver hb hleg ?_ fun j' hj' => ?_)
      · simp [Ownership.owned]
      · refine Stays.of Iff.rfl (fun _ => by simp) (fun _ => Iff.rfl) (fun _ => by simp)
          (fun q' => ?_) rfl rfl
        by_cases hq : q' = h.queueName.getD "default"
        · rw [hq]
          simp [Ne.symm hj']
        · simp [hq]
  | @ack w n j =>
      have hnone : token (.processOne w n j) .released = none := rfl
      refine become rfl ?_
      rw [hnone, holding_none, zero_add]
      exact shifts_ack hb
  | brokenMark _ | brokenRetry | brokenBury | brokenAck => exact hk.elim
  | handler => exact keep same rfl
  | settle =>
      refine keep (object _ _) ?_
      cases l <;> rfl
  | inert hw hop => exact keep (object _ _) rfl
  | timerFires ht => exact keep same rfl
  | begin hrun => exact keep (object _ _) rfl
  | beginFails hrun => exact keep same rfl
  | register => exact keep { World.JobFrame.refl s with } rfl
  | firstBeat => exact keep { World.JobFrame.refl s with } rfl
  | launch => exact keep (object _ _) (by rw [startsWith_loop, add_zero]; rfl)
  | beat => exact keep { World.JobFrame.refl s with } rfl
  | awaitLoop hloop => exact keep same rfl
  | deregister => exact keep { World.JobFrame.refl s with } rfl
  | dropHeartbeat =>
      refine keep ?_ rfl
      constructor <;> simp [Write.apply, JobHash.SameIdentity.refl]
  | finish => exact keep (object _ _) rfl
  | @missing w l hno => exact absurd (hbeat w rfl) hno
  | readOrphans | readOrphan | pushOrphan | resetRow _ | dropList | unregister => cases hk
  | selectJob _ _ | resetRetry _ | readDlq | resetRequeue _ => exact absurd trivial hop
  | lift ht | readLifted ht | place ht => exact absurd ht hop

end Step

/-! ## The refinement -/

section Run

variable {env : Env} {c c' : State}

/-- The discipline of ownership holds in every reachable state. -/
theorem poolOk_of_reach (hc : (machine env).Reach FaultFree Blank c) :
    (ownership env).PoolOk c := by
  have hid : ∀ c, (machine env).Reach FaultFree Blank c →
      (Identity.identity env AsPrinted).PoolOk c :=
    fun c hc => Identity.poolOk_of_faultFree hc
  exact ownership_sound.reach ownership_blank (hc.with_invariant hid)

/-- What the account counts is what the owners are. -/
theorem owners_eq (c : State) (j : JobId) :
    owners env c j = owned c.store ((ownership env).total c.pool) j := by
  rw [owners, Discipline.total_holding (ownership env) token (fun _ _ => rfl) rfl]

/-- Whereabouts that show the owners before the step can be moved to show them after it. -/
theorem exists_shows {a : Whereabouts} (ha : Shows env c a)
    (hb : Balanced c.store ((ownership env).total c.pool))
    (hb' : Balanced c'.store ((ownership env).total c'.pool))
    (hs : Shifts c.store c'.store ((ownership env).total c.pool)
      ((ownership env).total c'.pool)) :
    ∃ a', Relation.ReflGen Step a a' ∧ Shows env c' a' := by
  have stays : ∀ {j}, Stays c.store c'.store ((ownership env).total c.pool)
      ((ownership env).total c'.pool) j → owners env c' j = owners env c j := by
    intro j hj
    rw [owners_eq, owners_eq, hj.owned]
  rcases hs with hall | ⟨j, o, b, hleg, hnone, hsome, hpos, hrest⟩
  · exact ⟨a, .refl, fun j => (stays (hall j)).trans (ha j)⟩
  · have hj : a j = o := by
      have howners := ha j
      rw [owners_eq] at howners
      cases o with
      | none =>
          rw [(hb.placed j).none (hnone rfl)] at howners
          cases haj : a j with
          | none => rfl
          | some o =>
              rw [haj] at howners
              have hone := congrFun howners o
              simp at hone
      | some o =>
          rw [((hb.placed j).eq_single (hsome o rfl)).2] at howners
          have hone := congrFun howners o
          cases haj : a j with
          | none => simp [haj] at hone
          | some o' =>
              by_cases ho : o' = o
              · rw [ho]
              · simp [haj, Ne.symm ho] at hone
    subst hj
    refine ⟨_, .single (.move a j b hleg), fun j' => ?_⟩
    by_cases hj' : j' = j
    · subst hj'
      rw [Function.update_self, owners_eq]
      exact ((hb'.placed j').eq_single hpos).2
    · rw [Function.update_of_ne hj']
      exact (stays (hrest j' hj')).trans (ha j')

/-- **The deployment refines the life cycle.** -/
theorem refines_lifecycle : (machine env).Refines FaultFree Blank (Shows env) Step := by
  intro c ch c' a hc hok hs ha
  have hpool := poolOk_of_reach hc
  have hpool' := poolOk_of_reach (hc.step ch hok hs)
  refine exists_shows ha hpool.1 hpool'.1 ?_
  cases ch with
  | start t =>
      cases hs
      have hzero : (ownership env).total [(machine env).spawn t] = 0 := by
        have hspawn := (ownership env).gauge_spawn t
        have hval : (ownership env).val t ((custody env).start t) = 0 := by
          show holding (token t (Phase.start t)) = 0
          rw [token_external hok.1 hok.2, holding_none]
        simp [Discipline.total, hspawn, hval]
      refine Or.inl fun j => stays_frame (.refl _) ?_ j
      rw [Discipline.total_append, hzero, add_zero]
  | call i o =>
      have hid := Identity.poolOk_of_faultFree hc
      obtain ⟨t, l, cmd, r, F, hfires, htotal, htotal'⟩ :=
        ownership_sound.fires hpool ⟨hok, hid⟩ hs
      obtain ⟨ho, hbeat, hfit⟩ := hfires.allow
      have hshifts := shifts_of_effect hfires.good hfires.inv hfires.loc hfit hbeat
        (effect_of_answer hfires.permits
          (Identity.answer_of_exec hfires.exec ho hfit.2 hfires.permits hfires.good))
      rw [← zero_add (startsWith _)] at hshifts
      rw [htotal, htotal']
      exact hshifts
  | halt i => exact hok.elim
  | drift d =>
      obtain ⟨s, hd, rfl⟩ := Machine.step_drift hs
      refine Or.inl fun j => stays_frame ?_ rfl j
      cases d with
      | pass ms =>
          cases hd
          exact { World.JobFrame.refl c.store with }
      | crash w => exact hok.elim

/-- An empty deployment shows that nothing has been published. -/
theorem shows_blank (hc : Blank c) : Shows env c fun _ => none := by
  intro j
  have hb : (ownership env).PoolOk c := ownership_blank c hc
  have hnew : ¬ c.store.enqueued j := by
    obtain ⟨now, room, rfl⟩ := hc
    simp [World.enqueued]
  rw [owners_eq, (hb.1.placed j).none hnew]
  rfl

/-- Every reachable state shows whereabouts that the life cycle leads to. -/
theorem exists_shown (hc : (machine env).Reach FaultFree Blank c) :
    ∃ a, Relation.ReflTransGen Step (fun _ => none) a ∧ Shows env c a := by
  induction hc with
  | init hi => exact ⟨_, .refl, shows_blank hi⟩
  | step ch hprev hok hs ih =>
      obtain ⟨b, hreach, hb⟩ := ih
      obtain ⟨a, hba, ha⟩ := refines_lifecycle _ ch _ b hprev hok hs hb
      exact ⟨a, hreach.trans hba.to_reflTransGen, ha⟩

/-- What a run goes on to is shown by whereabouts that the life cycle leads to. -/
theorem shown_of_run (hc : (machine env).Reach FaultFree Blank c)
    (hc' : (machine env).Reach FaultFree (· = c) c') :
    ∃ a a', Relation.ReflTransGen Step (fun _ => none) a ∧ Shows env c a ∧
      Relation.ReflTransGen Step a a' ∧ Shows env c' a' := by
  obtain ⟨a, hreach, ha⟩ := exists_shown hc
  obtain ⟨a', hstep, ha'⟩ := refines_lifecycle.run hc ha hc'
  exact ⟨a, a', hreach, ha, hstep, ha'⟩

/-- **Every run of the deployment is a run of the life cycle.**  In a run in which nothing
fails, the owners of all jobs are shown by whereabouts that the life cycle leads to, and
however the run goes on, they are shown by whereabouts that it leads to from there.  From
every state on the way, whatever step comes next, at most one job moves, and along one leg. -/
theorem run_of_lifecycle (hc : (machine env).Reach FaultFree Blank c)
    (hc' : (machine env).Reach FaultFree (· = c) c') :
    ∃ a a', Relation.ReflTransGen Step (fun _ => none) a ∧ Shows env c a ∧
      Relation.ReflTransGen Step a a' ∧ Shows env c' a' ∧
      ∀ ch c'', FaultFree c' ch → (machine env).step c' ch = some c'' →
        ∃ a'', Relation.ReflGen Step a' a'' ∧ Shows env c'' a'' := by
  obtain ⟨a, a', hreach, ha, hstep, ha'⟩ := shown_of_run hc hc'
  refine ⟨a, a', hreach, ha, hstep, ha', fun ch c'' hok hs => ?_⟩
  exact refines_lifecycle c' ch c'' a' (hc.trans hc') hok hs ha'

/-- A job that shows to be in a place that no leg leaves stays there. -/
theorem stays_in {o : Owner} (hfinal : ∀ o', ¬ Leg (some o) o')
    (hc : (machine env).Reach FaultFree Blank c) (hc' : (machine env).Reach FaultFree (· = c) c')
    {j : JobId} (hj : 0 < owners env c j o) : owners env c' j = Pi.single o 1 := by
  obtain ⟨a, a', -, ha, hstep, ha'⟩ := shown_of_run hc hc'
  have haj : a j = some o := by
    have hone := ha j
    cases h : a j with
    | none =>
        rw [h] at hone
        rw [hone] at hj
        simp at hj
    | some o' =>
        rw [h] at hone
        by_cases ho : o = o'
        · rw [ho]
        · rw [hone] at hj
          simp [ho] at hj
  rw [ha' j, Board.final hfinal hstep haj]
  rfl

/-- **What is completed or buried stays so.**  However a run in which nothing fails goes on
after a job has been completed or put into a dead-letter queue, the job stays there, once,
and it is in no ready list, in no delayed set, in no hands and on no processing list but for
entries that are handed over. -/
theorem finished_for_good (hc : (machine env).Reach FaultFree Blank c)
    (hc' : (machine env).Reach FaultFree (· = c) c') (j : JobId) :
    (completed c.store j = true → owners env c' j = Pi.single .completed 1) ∧
      ∀ q, j ∈ c.store.redis.lists (redisKeys.dlq q) → owners env c' j = Pi.single (.dlq q) 1 := by
  refine ⟨fun hj => ?_, fun q hj => ?_⟩
  · refine stays_in completed_final hc hc' ?_
    simp [owners, owned, hj]
  · refine stays_in (dlq_final q) hc hc' ?_
    exact List.count_pos_iff.mpr hj

/-- The theorem on a run that goes on with a retry after a handler has thrown; the next step
takes the entry off the processing list. -/
theorem run_of_lifecycle_retry :
    ∃ c c', (machine sample).Reach FaultFree Blank c ∧
      (machine sample).Reach FaultFree (· = c) c' ∧
      j1.text ∈ c.store.redis.lists (redisKeys.queue "default") ∧
      j1.text ∈ c'.store.redis.zsets (redisKeys.delayed "default") ∧
      ∃ a a', Relation.ReflTransGen Step (fun _ => none) a ∧ Shows sample c a ∧
        Relation.ReflTransGen Step a a' ∧ Shows sample c' a' ∧
        ∃ c'' a'', (machine sample).step c' (.call 3 .plain) = some c'' ∧
          Relation.ReflGen Step a' a'' ∧ Shows sample c'' a'' := by
  obtain ⟨c, hc, ht⟩ := Machine.exists_reach (machine sample) FaultFree Blank blank_blank
    ([.start (.enqueue "echo" (some .null) {}), .call 0 (.fresh j1)] ++ goes 0 5)
    (fun c : State => decide (j1.text ∈ c.store.redis.lists (redisKeys.queue "default")) &&
      ((machine sample).walk FaultFree c ([Choice.start (.start "w1")] ++ goes 1 8 ++ goes 2 5 ++
        goes 3 6 ++ throws 3 ++ goes 3 5)).any fun c' : State =>
          decide (j1.text ∈ c'.store.redis.zsets (redisKeys.delayed "default")) &&
            decide (FaultFree c' (.call 3 .plain)) &&
            ((machine sample).step c' (.call 3 .plain)).isSome)
    (by decide +kernel)
  simp only [Bool.and_eq_true, decide_eq_true_eq, Option.any_eq_true] at ht
  obtain ⟨hready, c', hwalk, ⟨hdelayed, hok⟩, hstep⟩ := ht
  have hc' : (machine sample).Reach FaultFree (· = c) c' := Machine.Reach.walk (.init rfl) hwalk
  obtain ⟨c'', hs⟩ := Option.isSome_iff_exists.mp hstep
  obtain ⟨a, a', hreach, ha, hrun, ha', hnext⟩ := run_of_lifecycle hc hc'
  obtain ⟨a'', hmove, ha''⟩ := hnext _ _ hok hs
  exact ⟨c, c', hc, hc', hready, hdelayed, a, a', hreach, ha, hrun, ha', c'', a'', hs, hmove, ha''⟩

/-- The theorem on a run that goes on with another job after the first one has been
completed. -/
theorem finished_for_good_echo :
    ∃ c c', (machine sample).Reach FaultFree Blank c ∧
      (machine sample).Reach FaultFree (· = c) c' ∧ completed c.store j1.text = true ∧
      j2.text ∈ c'.store.redis.lists (redisKeys.queue "default") ∧
      owners sample c' j1.text = Pi.single .completed 1 := by
  obtain ⟨c, hc, ht⟩ := Machine.exists_reach (machine sample) FaultFree Blank blank_blank
    ([.start (.enqueue "echo" (some .null) {}), .call 0 (.fresh j1)] ++ goes 0 5 ++
      [.start (.start "w1")] ++ goes 1 8 ++ goes 2 5 ++ goes 3 6 ++ returns 3 ++ goes 3 2)
    (fun c : State => decide (completed c.store j1.text = true) &&
      ((machine sample).walk FaultFree c ([Choice.start (.enqueue "echo" (some .null) {}),
        Choice.call 4 (.fresh j2)] ++ goes 4 5)).any fun c' : State =>
          decide (j2.text ∈ c'.store.redis.lists (redisKeys.queue "default")))
    (by decide +kernel)
  simp only [Bool.and_eq_true, decide_eq_true_eq, Option.any_eq_true] at ht
  obtain ⟨hdone, c', hwalk, hready⟩ := ht
  have hc' : (machine sample).Reach FaultFree (· = c) c' := Machine.Reach.walk (.init rfl) hwalk
  exact ⟨c, c', hc, hc', hdone, hready, (finished_for_good hc hc' j1.text).1 hdone⟩

end Run

end Lifecycle

end NexusQueue
