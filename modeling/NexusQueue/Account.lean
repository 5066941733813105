/-
# The account of who owns what

A job that has been published is in one of these places: a ready list, a delayed
set, a processing list, a dead-letter queue, the hands of a scheduler, or
completed.  An entry of a processing list whose own worker has already put the
job into its next place does not count.

The account keeps who holds what: a scheduler what it has claimed, a pull loop
and a `processOne` call the entry they are responsible for.  `Balanced` says that
it is in order, and there is one lemma for every way a job moves.
-/
import NexusQueue.Identity

namespace NexusQueue

namespace Ownership

/-- The places a job can be in. -/
inductive Owner where
  | ready (suffix : String)
  | delayed (queueName : QueueName)
  | processing (w : WorkerId)
  | dlq (queueName : QueueName)
  | scheduler
  | completed
  deriving DecidableEq

/-- What a process can hold: a job claimed from a delayed set, a processing-list
entry, and an entry whose job is already elsewhere. -/
inductive Token where
  | hand (jobId : JobId)
  | claim (w : WorkerId) (jobId : JobId)
  | handed (w : WorkerId) (jobId : JobId)
  deriving DecidableEq

/-- What a task holds in a phase. -/
def token : Task → Phase → Option Token
  | .tick, .inHand _ _ j _ _ => some (.hand j)
  | .loop w, .pulled j => some (.claim w j)
  | .processOne w _ j, .dispatched => some (.claim w j)
  | .processOne w _ j, .claimed _ => some (.claim w j)
  | .processOne w _ j, .handed => some (.handed w j)
  | _, _ => none

/-- The job is completed in Postgres. -/
def completed (s : World) (j : JobId) : Bool :=
  (s.pg.row? j).any fun r => decide (r.status = .completed)

/-- How often a job is in each place, given who holds what. -/
def owned (s : World) (g : Token → ℕ) (j : JobId) : Owner → ℕ
  | .ready x => (s.redis.lists (.queue x)).count j
  | .delayed q => if j ∈ s.redis.zsets (.delayed q) then 1 else 0
  | .processing w => (s.redis.lists (.processing w)).count j - g (.handed w j)
  | .dlq q => (s.redis.lists (.dlq q)).count j
  | .scheduler => g (.hand j)
  | .completed => (completed s j).toNat

/-- The owners of a job in a state of the deployment. -/
def owners (env : Env) (c : State) (j : JobId) : Owner → ℕ :=
  owned c.store (holders (custody env) token c.pool) j

/-- The account is in order. -/
structure Balanced (s : World) (g : Token → ℕ) : Prop where
  placed : ∀ j, Placed (s.enqueued j) (owned s g j)
  covered : ∀ w j, g (.claim w j) + g (.handed w j) ≤ (s.redis.lists (.processing w)).count j

/-! ## Moving a job -/

section Moves

variable {s s' : World} {g g' : Token → ℕ}

/-- Holding nothing is nothing. -/
theorem Balanced.nothing_iff : Balanced s (holding none + g) ↔ Balanced s g := by
  rw [holding_none, zero_add]

/-- Nothing moves. -/
theorem Balanced.frame (h : Balanced s g) (hf : s.JobFrame s') : Balanced s' g := by
  have henq : ∀ j, s'.enqueued j ↔ s.enqueued j := fun j => by
    rw [World.enqueued, World.enqueued, (hf.identity j).id]
  have howned : ∀ j, owned s' g j = owned s g j := fun j => by
    funext o
    cases o <;>
      simp only [owned, hf.ready, hf.delayed, hf.processing, hf.dlq, completed, hf.pg]
  refine ⟨fun j => ?_, fun w j => ?_⟩
  · rw [howned, henq]
    exact h.placed j
  · rw [hf.processing]
    exact h.covered w j

/-- A job that is counted somewhere is nowhere else. -/
theorem Balanced.unique (h : Balanced s g) {j : JobId} {a : Owner} (ha : 0 < owned s g j a)
    (o : Owner) (ho : o ≠ a) : owned s g j o = 0 := by
  rw [(h.placed j).le_one ha o, if_neg ho]

/-- One job moves from place `a` to place `b`, all others stay. -/
theorem Balanced.move (h : Balanced s g) {j : JobId} {a b : Owner}
    (hjobs : s'.redis.jobs = s.redis.jobs)
    (hout : owned s' g' j a + 1 = owned s g j a) (hin : owned s' g' j b = owned s g j b + 1)
    (hrest : ∀ o, o ≠ a → o ≠ b → owned s' g' j o = owned s g j o)
    (hother : ∀ j', j' ≠ j → ∀ o, owned s' g' j' o = owned s g j' o)
    (hcov : ∀ w j, g' (.claim w j) + g' (.handed w j) ≤ (s'.redis.lists (.processing w)).count j) :
    Balanced s' g' := by
  refine ⟨fun j' => ?_, hcov⟩
  have henq : s'.enqueued j' ↔ s.enqueued j' := by
    rw [World.enqueued, World.enqueued, hjobs]
  rw [henq]
  by_cases hj : j' = j
  · subst hj
    exact (h.placed j').move hout hin hrest
  · rw [funext (hother j' hj)]
    exact h.placed j'

/-- The row of a job that is not published yet is inserted. -/
theorem Balanced.insertRow {now : ℕ} {pg : Postgres} {row : NewRow} (h : Balanced s g)
    (hnew : ¬ s.enqueued row.id) (hst : row.status ≠ .completed)
    (hins : s.pg.insert now row = .ok pg) : Balanced { s with pg := pg } g := by
  obtain ⟨r, -, hrst, -, hrow⟩ := Postgres.row?_insert hins
  have hcomp : ∀ j, completed { s with pg := pg } j = completed s j := fun j => by
    simp only [completed, hrow j]
    by_cases hj : j = row.id
    · have hz : completed s row.id = false := by
        have hzero := congrFun ((h.placed row.id).none hnew) .completed
        simpa [owned] using hzero
      rw [completed] at hz
      rw [if_pos hj, hj, hz]
      simp [hrst, hst]
    · rw [if_neg hj]
  have howned : ∀ j, owned { s with pg := pg } g j = owned s g j := fun j => by
    funext o
    cases o <;> simp [owned, hcomp]
  exact ⟨fun j => (howned j).symm ▸ h.placed j, h.covered⟩

/-- A draft becomes a job: it is published to one place. -/
theorem Balanced.publish {id : JobId} {b : Owner} (h : Balanced s g) (hnone : ¬ s.enqueued id)
    (hnew : s'.enqueued id) (hjobs : ∀ j, j ≠ id → (s'.enqueued j ↔ s.enqueued j))
    (hin : owned s' g id b = owned s g id b + 1)
    (hrest : ∀ o, o ≠ b → owned s' g id o = owned s g id o)
    (hother : ∀ j, j ≠ id → ∀ o, owned s' g j o = owned s g j o)
    (hproc : ∀ w, s'.redis.lists (.processing w) = s.redis.lists (.processing w)) :
    Balanced s' g := by
  refine ⟨fun j => ?_, fun w j => ?_⟩
  · by_cases hij : j = id
    · subst hij
      exact (h.placed j).arrive hnone hnew hin hrest
    · rw [hjobs j hij, funext (hother j hij)]
      exact h.placed j
  · rw [hproc]
    exact h.covered w j

/-- Publishing makes that job visible and no other. -/
theorem enqueued_register {id : JobId} {q : QueueName} {f : JobHash} (hid : f.id = some id)
    (j : JobId) : (s.register id q f).enqueued j ↔ j = id ∨ s.enqueued j := by
  by_cases hj : j = id
  · subst hj
    simp [World.enqueued, World.register, JobHash.merge, hid]
  · simp [World.enqueued, World.register, hj]

/-- The `MULTI` of the immediate path. -/
theorem Balanced.publishReady {id : JobId} {q : QueueName} {p : String} {f : JobHash}
    (h : Balanced s g) (hnone : ¬ s.enqueued id) (hid : f.id = some id) :
    Balanced ((s.register id q f).push (targetList q p) id) g := by
  obtain ⟨x, hx⟩ := exists_targetList q p
  have henq := enqueued_register (s := s) (q := q) hid
  refine h.publish (b := .ready x) hnone ((henq id).mpr (Or.inl rfl)) ?_ ?_ ?_ ?_ ?_
  · exact fun j hj => (henq j).trans (or_iff_right hj)
  · simp [owned, World.register, hx]
  · rintro (x' | q' | w | q' | _ | _) hb
    case delayed => rfl
    all_goals simp_all [owned, completed, World.register]
  · rintro j hj (x' | q' | w | q' | _ | _)
    case ready =>
      by_cases hxx : x' = x
      · subst hxx
        simp [owned, World.register, hx, Ne.symm hj]
      · simp [owned, World.register, hx, hxx]
    case delayed => rfl
    all_goals simp [owned, completed, World.register, hx]
  · simp [World.register, hx]

/-- The `MULTI` of the delayed path. -/
theorem Balanced.publishDelayed {id : JobId} {q : QueueName} {score : ℚ} {f : JobHash}
    (h : Balanced s g) (hnone : ¬ s.enqueued id) (hid : f.id = some id) :
    Balanced ((s.register id q f).setDelayed q
      ((s.redis.zsets (redisKeys.delayed q)).zadd score id)) g := by
  have hzero : id ∉ s.redis.zsets (.delayed q) := by
    simpa [owned] using congrFun ((h.placed id).none hnone) (.delayed q)
  have henq := enqueued_register (s := s) (q := q) hid
  refine h.publish (b := .delayed q) hnone ((henq id).mpr (Or.inl rfl)) ?_ ?_ ?_ ?_ ?_
  · exact fun j hj => (henq j).trans (or_iff_right hj)
  · simp [owned, hzero]
  · rintro (x' | q' | w | q' | _ | _) hb <;>
      simp_all [owned, completed, World.register]
  · rintro j hj (x' | q' | w | q' | _ | _)
    case delayed =>
      by_cases hq : q' = q
      · subst hq
        simp [owned, hj]
      · simp [owned, World.register, hq]
    all_goals simp [owned, completed, World.register]
  · simp [World.register]

/-- A scheduler claims a due job. -/
theorem Balanced.claimDue {q : QueueName} {j : JobId} (h : Balanced s g)
    (hj : j ∈ s.redis.zsets (.delayed q)) :
    Balanced (s.setDelayed q ((s.redis.zsets (.delayed q)).zrem j))
      (holding (some (.hand j)) + g) := by
  refine h.move (j := j) (a := .delayed q) (b := .scheduler) rfl ?_ ?_ ?_ ?_ ?_
  · simp [owned, hj]
  · simp [owned, add_comm]
  · rintro (x | q' | w | q' | _ | _) ha hb <;>
      simp_all [owned, completed]
  · rintro j' hj' (x | q' | w | q' | _ | _)
    · simp [owned]
    · by_cases hq : q' = q
      · subst hq
        simp [owned, hj']
      · simp [owned, hq]
    · simp [owned]
    · simp [owned]
    · simp [owned, Ne.symm hj']
    · rfl
  · simpa using h.covered

/-- A scheduler pushes a job in its hands to a ready list. -/
theorem Balanced.promote {x : String} {j : JobId} (h : Balanced s (holding (some (.hand j)) + g)) :
    Balanced (s.push (.queue x) j) g := by
  refine h.move (j := j) (a := .scheduler) (b := .ready x) rfl ?_ ?_ ?_ ?_ ?_
  · simp [owned, add_comm]
  · simp [owned]
  · rintro (x | q' | w | q' | _ | _) ha hb <;>
      simp_all [owned, completed]
  · rintro j' hj' (x' | q' | w | q' | _ | _)
    · by_cases hx : x' = x
      · subst hx
        simp [owned, Ne.symm hj']
      · simp [owned, hx]
    all_goals simp [owned, Ne.symm hj', completed]
  · simpa using h.covered

/-- A pull loop moves the tail of a ready list to the processing list, and holds
it or, if it is not truthy, forgets it. -/
theorem Balanced.pull {x v : String} {w : WorkerId} {k : Option Token} (h : Balanced s g)
    (hv : (s.redis.lists (.queue x)).getLast? = some v) (hk : k = none ∨ k = some (.claim w v)) :
    Balanced ((s.setList (.queue x) (s.redis.lists (.queue x)).dropLast).push (.processing w) v)
      (holding k + g) := by
  have hcount := Redis.count_dropLast hv
  have hhold : ∀ y : Token, y ≠ .claim w v → holding k y = 0 := by
    intro y hy
    rcases hk with rfl | rfl <;> simp [Ne.symm hy]
  have hle := h.covered w v
  refine h.move (j := v) (a := .ready x) (b := .processing w) rfl ?_ ?_ ?_ ?_ ?_
  · simpa [owned] using hcount v
  · simp [owned, hhold]
    omega
  · rintro (x | q' | w | q' | _ | _) ha hb <;>
      simp_all [owned, completed]
  · rintro j' hj' (x' | q' | w' | q' | _ | _)
    · by_cases hx : x' = x
      · subst hx
        simpa [owned, Ne.symm hj'] using hcount j'
      · simp [owned, hx]
    · simp [owned]
    · by_cases hw : w' = w
      · subst hw
        simp [owned, hhold, Ne.symm hj']
      · simp [owned, hhold, hw]
    all_goals simp [owned, hhold, completed]
  · intro w' j'
    have hcov := h.covered w' j'
    by_cases hw : w' = w
    · subst hw
      by_cases hj : j' = v
      · subst hj
        rcases hk with rfl | rfl <;> simp <;> omega
      · simpa [hhold, hj, Ne.symm hj] using hcov
    · simpa [hhold, hw] using hcov

/-- A rate-limited job goes back to its ready list. -/
theorem Balanced.pushBack {x : String} {j : JobId} {w : WorkerId}
    (h : Balanced s (holding (some (.claim w j)) + g)) :
    Balanced ((s.setList (.processing w) ((s.redis.lists (.processing w)).erase j)).push
      (.queue x) j) g := by
  have hle := h.covered w j
  simp at hle
  refine h.move (j := j) (a := .processing w) (b := .ready x) rfl ?_ ?_ ?_ ?_ ?_
  · simp [owned]
    omega
  · simp [owned]
  · rintro (x | q' | w | q' | _ | _) ha hb <;>
      simp_all [owned, completed]
  · rintro j' hj' (x' | q' | w' | q' | _ | _)
    · by_cases hx : x' = x
      · subst hx
        simp [owned, Ne.symm hj']
      · simp [owned, hx]
    · simp [owned]
    · by_cases hw : w' = w
      · subst hw
        simp [owned, List.count_erase_of_ne hj']
      · simp [owned, hw]
    all_goals simp [owned, completed]
  · intro w' j'
    have hcov := h.covered w' j'
    by_cases hw : w' = w
    · subst hw
      by_cases hj : j' = j
      · subst hj
        simp
        omega
      · simpa [List.count_erase_of_ne hj, Ne.symm hj] using hcov
    · simpa [hw, Ne.symm hw] using hcov

/-- A claimed job is in the processing list of its worker. -/
theorem Balanced.claimed_pos {j : JobId} {w : WorkerId}
    (h : Balanced s (holding (some (.claim w j)) + g)) :
    0 < owned s (holding (some (.claim w j)) + g) j (.processing w) := by
  have hle := h.covered w j
  simp at hle
  simp [owned]
  omega

/-- A claimed job is not completed. -/
theorem Balanced.not_completed {j : JobId} {w : WorkerId}
    (h : Balanced s (holding (some (.claim w j)) + g)) : completed s j = false := by
  simpa [owned] using h.unique h.claimed_pos .completed (by simp)

/-- After an update the row has the new status. -/
theorem completed_update {j : JobId} (hprinted : Uuid.Printed j) (s : World) (j' : JobId)
    (p : RowPatch) : completed (s.updateRow j p) j' =
      if j' = j then (s.pg.row? j').isSome && decide (p.status = .completed)
      else completed s j' := by
  simp only [completed, Postgres.row?_update_printed hprinted]
  by_cases hj : j' = j
  · rw [if_pos hj, if_pos hj]
    cases s.pg.row? j' <;> rfl
  · simp [hj]

/-- A call marks its job as still on the way. -/
theorem Balanced.mark {j : JobId} {w : WorkerId} {p : RowPatch}
    (h : Balanced s (holding (some (.claim w j)) + g)) (hprinted : Uuid.Printed j)
    (hp : p.status ≠ .completed) :
    Balanced (s.updateRow j p) (holding (some (.claim w j)) + g) := by
  have hnot := h.not_completed
  refine ⟨fun j' => ?_, h.covered⟩
  have heq : owned (s.updateRow j p) (holding (some (.claim w j)) + g) j' =
      owned s (holding (some (.claim w j)) + g) j' := by
    funext o
    cases o with
    | completed =>
        simp only [owned, completed_update hprinted]
        by_cases hj : j' = j
        · simp [hj, hp, hnot]
        · simp [hj]
    | _ => rfl
  rw [heq]
  exact h.placed j'

/-- A call hands its job over: from now on the entry does not count. -/
theorem Balanced.handOver {j : JobId} {w : WorkerId} {b : Owner}
    (h : Balanced s (holding (some (.claim w j)) + g)) (hjobs : s'.redis.jobs = s.redis.jobs)
    (hproc : ∀ w, s'.redis.lists (.processing w) = s.redis.lists (.processing w))
    (hb : ∀ w, b ≠ .processing w) (hin : owned s' g j b = owned s g j b + 1)
    (hrest : ∀ o, (∀ w, o ≠ .processing w) → o ≠ b → owned s' g j o = owned s g j o)
    (hother : ∀ j', j' ≠ j → ∀ o, owned s' g j' o = owned s g j' o) :
    Balanced s' (holding (some (.handed w j)) + g) := by
  have hle := h.covered w j
  simp at hle
  have hsame : ∀ (s : World) (k : Token) (j' : JobId) (o : Owner), (k = .claim w j ∨
      k = .handed w j) → (∀ w, o ≠ .processing w) →
      owned s (holding (some k) + g) j' o = owned s g j' o := by
    rintro s k j' (x | q | w | q | _ | _) hk ho
    all_goals first | exact absurd rfl (ho w) | rcases hk with rfl | rfl <;> simp [owned]
  refine h.move (j := j) (a := .processing w) (b := b) hjobs ?_ ?_ ?_ ?_ ?_
  · simp [owned, hproc]
    omega
  · rw [hsame _ _ _ _ (Or.inr rfl) hb, hsame _ _ _ _ (Or.inl rfl) hb, hin]
  · intro o ho hob
    by_cases hp : ∃ w', o = .processing w'
    · obtain ⟨w', rfl⟩ := hp
      have hw : w' ≠ w := fun hw => ho (by rw [hw])
      simp [owned, hproc, Ne.symm hw]
    · have hp' : ∀ w, o ≠ .processing w := fun w hw => hp ⟨w, hw⟩
      rw [hsame _ _ _ _ (Or.inr rfl) hp', hsame _ _ _ _ (Or.inl rfl) hp', hrest o hp' hob]
  · intro j' hj' o
    by_cases hp : ∃ w', o = .processing w'
    · obtain ⟨w', rfl⟩ := hp
      simp [owned, hproc, Ne.symm hj']
    · have hp' : ∀ w, o ≠ .processing w := fun w hw => hp ⟨w, hw⟩
      rw [hsame _ _ _ _ (Or.inr rfl) hp', hsame _ _ _ _ (Or.inl rfl) hp', hother j' hj' o]
  · intro w' j'
    have hcov := h.covered w' j'
    rw [hproc]
    by_cases hwj : w' = w ∧ j' = j
    · obtain ⟨rfl, rfl⟩ := hwj
      simp at hcov ⊢
      omega
    · have hne : ¬ (w = w' ∧ j = j') := fun hh => hwj ⟨hh.1.symm, hh.2.symm⟩
      simpa [hne] using hcov

/-- The row is marked completed. -/
theorem Balanced.complete {j : JobId} {w : WorkerId} {p : RowPatch}
    (h : Balanced s (holding (some (.claim w j)) + g)) (hrow : (s.pg.row? j).isSome)
    (hp : p.status = .completed) :
    Balanced (s.updateRow j p) (holding (some (.handed w j)) + g) := by
  have hnot := h.not_completed
  have hprinted := Postgres.printed_of_row? hrow
  refine h.handOver (b := .completed) rfl (fun _ => rfl) (by simp) ?_ ?_ ?_
  · simp only [owned, completed_update hprinted]
    simp [hrow, hp, hnot]
  · rintro (x | q' | w | q' | _ | _) ha hb <;> first | rfl | exact absurd rfl hb
  · rintro j' hj' (x | q' | w | q' | _ | _)
    case completed =>
      simp only [owned, completed_update hprinted]
      simp [hj']
    all_goals rfl

/-- A failed job is scheduled for a retry. -/
theorem Balanced.retry {q : QueueName} {j : JobId} {w : WorkerId} {score : ℚ}
    (h : Balanced s (holding (some (.claim w j)) + g)) :
    Balanced (s.setDelayed q ((s.redis.zsets (.delayed q)).zadd score j))
      (holding (some (.handed w j)) + g) := by
  have hnot : j ∉ s.redis.zsets (.delayed q) := by
    simpa [owned] using h.unique h.claimed_pos (.delayed q) (by simp)
  refine h.handOver (b := .delayed q) rfl (fun _ => rfl) (by simp) ?_ ?_ ?_
  · simp [owned, hnot]
  · rintro (x | q' | w | q' | _ | _) ha hb <;> simp_all [owned, completed]
  · rintro j' hj' (x | q' | w | q' | _ | _)
    · simp [owned]
    · by_cases hq : q' = q
      · subst hq
        simp [owned, hj']
      · simp [owned, hq]
    all_goals simp [owned, completed]

/-- A failed job is buried in the dead-letter queue. -/
theorem Balanced.bury {q : QueueName} {j : JobId} {w : WorkerId}
    (h : Balanced s (holding (some (.claim w j)) + g)) :
    Balanced (s.push (.dlq q) j) (holding (some (.handed w j)) + g) := by
  refine h.handOver (b := .dlq q) rfl (fun _ => by simp) (by simp) ?_ ?_ ?_
  · simp [owned]
  · rintro (x | q' | w | q' | _ | _) ha hb <;> simp_all [owned, completed]
  · rintro j' hj' (x | q' | w | q' | _ | _)
    case dlq =>
      by_cases hq : q' = q
      · subst hq
        simp [owned, Ne.symm hj']
      · simp [owned, hq]
    all_goals simp [owned, completed]

/-- The entry of a job that is already elsewhere is removed. -/
theorem Balanced.ack {j : JobId} {w : WorkerId}
    (h : Balanced s (holding (some (.handed w j)) + g)) :
    Balanced (s.setList (.processing w) ((s.redis.lists (.processing w)).erase j)) g := by
  have hle := h.covered w j
  simp at hle
  refine ⟨fun j' => ?_, fun w' j' => ?_⟩
  · have heq : owned (s.setList (.processing w) ((s.redis.lists (.processing w)).erase j)) g j' =
        owned s (holding (some (.handed w j)) + g) j' := by
      funext o
      cases o with
      | processing w' =>
          by_cases hw : w' = w
          · subst hw
            by_cases hj : j' = j
            · subst hj
              simp [owned]
              omega
            · simp [owned, List.count_erase_of_ne hj, Ne.symm hj]
          · simp [owned, hw, Ne.symm hw]
      | _ => simp [owned, completed]
    rw [heq]
    exact h.placed j'
  · have hcov := h.covered w' j'
    by_cases hw : w' = w
    · subst hw
      by_cases hj : j' = j
      · subst hj
        simp at hcov ⊢
        omega
      · simpa [List.count_erase_of_ne hj, Ne.symm hj] using hcov
    · simpa [hw, Ne.symm hw] using hcov

end Moves

end Ownership

end NexusQueue
