/-
# The account of published jobs under crashes

Workers may crash between any two commands, and janitors recover their processing
lists, each possibly cut off at any point.  `Delivered` says that every published job is in
some place all the same, and there is one lemma for every way a job moves.

Every step that takes a job out of a place has put it into the next one before, but for
the schedulers and the requests of operators, which have it in hand in between.  A
`processOne` call removes its entry after it has handed the job over, so of the entries
of a worker that is up, those that are handed over do not count.  A janitor deletes the
list of a worker that is down after it has pushed all entries, so an entry does not count
either once some janitor that has read the list is past it.
-/
import NexusQueue.Ownership
import NexusQueue.Recovery
import NexusQueue.Requeue

namespace NexusQueue

namespace Delivery

open Recovery (remaining)

/-! ## Runs with crashes -/

/-- The task stops a worker. -/
def stops : Task → Bool
  | .stop _ => true
  | _ => false

/-- The task is a tick of a scheduler. -/
def ticks : Task → Bool
  | .tick => true
  | _ => false

/-- Workers crash, and everything but schedulers halts at any point; no command is
rejected, a heartbeat is missing only if its worker is down, no worker is stopped and no
operator intervenes. -/
def CrashProne (c : State) : Action → Prop
  | .start t => t.external ∧ ¬ t.operator ∧ stops t = false
  | .call i o => o.works ∧
      ∀ w ∈ (nextCmd c i).bind Cmd.seeks, c.store.beats w ∨ c.store.down w = true
  | .halt i => ∀ p ∈ c.pool[i]?, ticks p.task = false
  | .drift _ => True

instance (c : State) : (a : Action) → Decidable (CrashProne c a)
  | .start t => inferInstanceAs (Decidable (t.external ∧ ¬ t.operator ∧ stops t = false))
  | .call i o => inferInstanceAs (Decidable (o.works = true ∧
      ∀ w ∈ (nextCmd c i).bind Cmd.seeks, c.store.beats w ∨ c.store.down w = true))
  | .halt i => inferInstanceAs (Decidable (∀ p ∈ c.pool[i]?, ticks p.task = false))
  | .drift _ => .isTrue trivial

/-! ## Places that count -/

/-- What is counted: processes with a job in hand, entries that a pull loop or a call is
responsible for, entries whose job is already elsewhere, janitors that are past a job of a
worker, and completions. -/
inductive Stake where
  | hand (jobId : JobId)
  | claim (w : WorkerId) (jobId : JobId)
  | handed (w : WorkerId) (jobId : JobId)
  | past (w : WorkerId) (jobId : JobId)
  | completed (jobId : JobId)
  deriving DecidableEq

/-- What a task holds in a phase. -/
def holds : Task → Phase → Option Stake
  | .tick, .inHand _ _ j _ _ => some (.hand j)
  | .retry _, .lifted j _ _ | .retry _, .placing j _ _ _
  | .requeue _ _, .lifted j _ _ | .requeue _ _, .placing j _ _ _ => some (.hand j)
  | .loop w, .pulled j => some (.claim w j)
  | .processOne w _ j, .dispatched | .processOne w _ j, .claimed _ => some (.claim w j)
  | .processOne w _ j, .handed => some (.handed w j)
  | _, _ => none

/-- The job a task has taken out of one place and not put into the next one yet. -/
def inHand (t : Task) (l : Phase) : Option JobId :=
  match holds t l with
  | some (.hand j) => some j
  | _ => none

/-- A rejection of the command breaks a call off. -/
def breaksOff : Task → Cmd → Bool
  | .processOne _ _ _, .publish _ => false
  | .processOne _ _ _, _ => true
  | _, _ => false

/-- A rejection of the command loses nothing: the task has no job in hand, and it is no
call that the rejection breaks off. -/
def Spare (t : Task) (l : Phase) (c : Cmd) : Prop := inHand t l = none ∧ breaksOff t c = false

instance (t : Task) (l : Phase) (c : Cmd) : Decidable (Spare t l c) :=
  inferInstanceAs (Decidable (_ ∧ _))

/-- Whether a janitor with these orphans still to push is past a job. -/
def past (j : JobId) : Option (List JobId) → ℕ
  | some todo => if j ∈ todo then 0 else 1
  | none => 0

/-- What a process has at stake. -/
def stake (t : Task) (l : Phase) : Stake → ℕ
  | .past w j => past j (remaining w t l)
  | .completed _ => 0
  | k => holding (holds t l) k

/-- A command of a call completes the job. -/
def completes (t : Task) (c : Cmd) (r : Except Err c.Resp) (j : JobId) : ℕ :=
  match t, c, r with
  | .processOne _ _ _, .update j' p, .ok _ => if j' = j ∧ p.status = .completed then 1 else 0
  | _, _, _ => 0

/-- The number of times a call has completed the job. -/
def completions (env : Env) (c : State) (j : JobId) : ℕ :=
  counted (custody env) (fun t _ cmd r => completes t cmd r j) c.pool

/-- What an event counts for. -/
def counts (t : Task) (c : Cmd) (r : Except Err c.Resp) : Stake → ℕ
  | .completed j => completes t c r j
  | _ => 0

/-- The places a job can be in. -/
inductive Place where
  | ready (suffix : String)
  | delayed (queueName : QueueName)
  | processing (w : WorkerId)
  | dlq (queueName : QueueName)
  | hands
  | completed

/-- The job is in this place, and will not leave it before it is in another one.  An entry
of a worker that is up counts unless a call has handed it over, an entry of a worker that
is down unless some janitor is past it. -/
def At (s : World) (g : Stake → ℕ) (j : JobId) : Place → Prop
  | .ready x => j ∈ s.redis.lists (.queue x)
  | .delayed q => q ∈ s.redis.sets .queues ∧ j ∈ s.redis.zsets (.delayed q)
  | .processing w =>
      if s.down w then j ∈ s.redis.lists (.processing w) ∧ g (.past w j) = 0
      else g (.handed w j) < (s.redis.lists (.processing w)).count j
  | .dlq q => j ∈ s.redis.lists (.dlq q)
  | .hands => 0 < g (.hand j)
  | .completed => 0 < g (.completed j)

/-- Every published job is in some place; a worker that is up has an entry for every call
it is not done with; entries are on lists of registered workers; and janitors are at work
on workers that are down. -/
structure Delivered (s : World) (g : Stake → ℕ) : Prop where
  kept : ∀ j, s.enqueued j → ∃ o, At s g j o
  covered : ∀ w j, s.down w = false → g (.claim w j) + g (.handed w j) ≤
    (s.redis.lists (.processing w)).count j
  registered : ∀ w, s.redis.lists (.processing w) ≠ [] → w ∈ s.redis.sets .workers
  dead : ∀ w j, 0 < g (.past w j) → s.down w = true

/-- What a process knows: a loop that its worker is registered, a janitor that the worker
it is at work on is down. -/
def knows (t : Task) (l : Phase) (s : World) : Prop :=
  match t, l with
  | .processOne _ _ _, .broken => False
  | .start w, .registered | .start w, .beating => s.down w = false → w ∈ s.redis.sets .workers
  | .loop w, _ => s.down w = false → w ∈ s.redis.sets .workers
  | .janitor, .found w | .janitor, .recovering w _ | .janitor, .routing w _ _ _
  | .janitor, .restored w _ _ => s.down w = true
  | .janitor, .deleted w => s.down w = true ∧ s.redis.lists (.processing w) = []
  | _, _ => True

/-- Delivery as a discipline over the custody protocol. -/
def delivery (env : Env) : Discipline (machine env) (custody env) (Stake → ℕ) where
  good t := stops t = false
  val := stake
  emit t _ c r := counts t c r
  loc t l s := Aimed t l ∧ knows t l s
  inv := Delivered
  allow s _ t l c o := (o.works ∨ Spare t l c) ∧ (∀ w ∈ c.seeks, s.beats w ∨ s.down w = true) ∧
    Identity.Fit (fun _ => True) s t l
  post t _ l := inHand t l = none

/-! ## Moving a job -/

section Moves

variable {s s' : World} {g g' : Stake → ℕ} {j : JobId} {w : WorkerId}

/-- Only janitors have more at stake than what they hold. -/
theorem stake_of_ne {t : Task} (ht : t ≠ .janitor) (l : Phase) : stake t l = holding (holds t l) := by
  have hpast : ∀ w j, holds t l ≠ some (.past w j) := by
    intro w j
    cases t <;> cases l <;> simp [holds]
  have hcompleted : ∀ j, holds t l ≠ some (.completed j) := by
    intro j
    cases t <;> cases l <;> simp [holds]
  funext k
  cases k with
  | past w j =>
      have hnone : remaining w t l = none := by
        cases t <;> first | rfl | exact absurd rfl ht
      show past j (remaining w t l) = holding (holds t l) (.past w j)
      rw [hnone, holding, if_neg (hpast w j)]
      rfl
  | completed j =>
      show 0 = holding (holds t l) (.completed j)
      rw [holding, if_neg (hcompleted j)]
  | _ => rfl

/-- The job stays in every place it is in. -/
structure Stays (s s' : World) (g g' : Stake → ℕ) (j : JobId) : Prop where
  ready : ∀ x, j ∈ s.redis.lists (.queue x) → j ∈ s'.redis.lists (.queue x)
  delayed : ∀ q, j ∈ s.redis.zsets (.delayed q) → j ∈ s'.redis.zsets (.delayed q)
  queues : s.redis.sets .queues ⊆ s'.redis.sets .queues
  processing : ∀ w, (s'.redis.lists (.processing w)).count j =
    (s.redis.lists (.processing w)).count j
  dlq : ∀ q, j ∈ s.redis.lists (.dlq q) → j ∈ s'.redis.lists (.dlq q)
  down : s'.down = s.down
  hand : g (.hand j) ≤ g' (.hand j)
  handed : ∀ w, g' (.handed w j) ≤ g (.handed w j)
  past : ∀ w, j ∈ s.redis.lists (.processing w) → g' (.past w j) ≤ g (.past w j)
  completed : g (.completed j) ≤ g' (.completed j)

theorem At.stays (hs : Stays s s' g g' j) {o : Place} (h : At s g j o) : At s' g' j o := by
  cases o with
  | ready x => exact hs.ready x h
  | delayed q => exact ⟨hs.queues h.1, hs.delayed q h.2⟩
  | processing w =>
      have hcount := hs.processing w
      have hhanded := hs.handed w
      simp only [At, hs.down] at h ⊢
      by_cases hdown : s.down w = true
      · rw [if_pos hdown] at h ⊢
        have hpast := hs.past w h.1
        have hpos := List.count_pos_iff.mpr h.1
        refine ⟨?_, by omega⟩
        apply List.count_pos_iff.mp
        omega
      · rw [if_neg hdown] at h ⊢
        omega
  | dlq q => exact hs.dlq q h
  | hands => exact lt_of_lt_of_le h hs.hand
  | completed => exact lt_of_lt_of_le h hs.completed

/-- One job is in a place afterwards, all others stay. -/
theorem Delivered.move (h : Delivered s g) (j : JobId)
    (hplace : s'.enqueued j → ∃ o, At s' g' j o)
    (hstay : ∀ j', j' ≠ j → Stays s s' g g' j')
    (hnew : ∀ j', j' ≠ j → s'.enqueued j' → s.enqueued j')
    (hcov : ∀ w j, s'.down w = false → g' (.claim w j) + g' (.handed w j) ≤
      (s'.redis.lists (.processing w)).count j)
    (hreg : ∀ w, s'.redis.lists (.processing w) ≠ [] → w ∈ s'.redis.sets .workers)
    (hdead : ∀ w j, 0 < g' (.past w j) → s'.down w = true) : Delivered s' g' where
  kept j' hj' := by
    by_cases hj : j' = j
    · subst hj
      exact hplace hj'
    · obtain ⟨o, ho⟩ := h.kept j' (hnew j' hj hj')
      exact ⟨o, ho.stays (hstay j' hj)⟩
  covered := hcov
  registered := hreg
  dead := hdead

/-- What matters of the world stays, and nothing that counts gets less. -/
structure Same (s s' : World) : Prop where
  ready : ∀ x, s'.redis.lists (.queue x) = s.redis.lists (.queue x)
  processing : ∀ w, s'.redis.lists (.processing w) = s.redis.lists (.processing w)
  dlq : ∀ q, s'.redis.lists (.dlq q) = s.redis.lists (.dlq q)
  delayed : ∀ q, s'.redis.zsets (.delayed q) = s.redis.zsets (.delayed q)
  queues : s'.redis.sets .queues = s.redis.sets .queues
  workers : s.redis.sets .workers ⊆ s'.redis.sets .workers
  down : s'.down = s.down
  enqueued : ∀ j, s'.enqueued j ↔ s.enqueued j

theorem Same.refl (s : World) : Same s s := by
  constructor <;> simp

/-- The frame of custody is more than what matters here. -/
theorem Same.of_frame (h : s.Frame s') : Same s s' where
  ready := h.ready
  processing := h.processing
  dlq := h.dlq
  delayed := h.delayed
  queues := h.queues
  workers := h.workers.symm.subset
  down := h.down
  enqueued j := by rw [World.enqueued, World.enqueued, (h.identity j).id]

/-- No job moves. -/
theorem Same.stays (h : Same s s') (g : Stake → ℕ) (j : JobId) : Stays s s' g g j where
  ready x hj := h.ready x ▸ hj
  delayed q hj := h.delayed q ▸ hj
  queues := h.queues.symm.subset
  processing w := by rw [h.processing]
  dlq q hj := h.dlq q ▸ hj
  down := h.down
  hand := le_refl _
  handed _ := le_refl _
  past _ _ := le_refl _
  completed := le_refl _

/-- Nothing that matters happens. -/
theorem Delivered.same (h : Delivered s g) (hs : Same s s') : Delivered s' g where
  kept j hj := by
    obtain ⟨o, ho⟩ := h.kept j ((hs.enqueued j).mp hj)
    exact ⟨o, ho.stays (hs.stays g j)⟩
  covered w j hw := by
    rw [hs.processing]
    exact h.covered w j (hs.down ▸ hw)
  registered w hw := hs.workers (h.registered w (hs.processing w ▸ hw))
  dead w j hj := by
    rw [hs.down]
    exact h.dead w j hj

/-- The `MULTI` of the immediate path. -/
theorem Delivered.publishReady {id : JobId} {q : QueueName} {p : String} {f : JobHash}
    (h : Delivered s g) (hid : f.id = some id) :
    Delivered ((s.register id q f).push (targetList q p) id) g := by
  obtain ⟨x, hx⟩ := exists_targetList q p
  have henq := Ownership.enqueued_register (s := s) (q := q) hid
  rw [hx]
  refine h.move id (fun _ => ⟨.ready x, ?_⟩) (fun j' hj' => ?_) (fun j' hj' hnew => ?_) ?_ ?_ ?_
  · simp [At]
  · constructor <;> intros <;> first | exact mem_push ‹_› | simp_all [World.register]
  · exact ((henq j').mp hnew).resolve_left hj'
  · simpa [World.register] using h.covered
  · simpa [World.register] using h.registered
  · exact h.dead

/-- The `MULTI` of the delayed path. -/
theorem Delivered.publishDelayed {id : JobId} {q : QueueName} {score : ℚ} {f : JobHash}
    (h : Delivered s g) (hid : f.id = some id) :
    Delivered ((s.register id q f).setDelayed q
      ((s.redis.zsets (redisKeys.delayed q)).zadd score id)) g := by
  have henq := Ownership.enqueued_register (s := s) (q := q) hid
  refine h.move id (fun _ => ⟨.delayed q, ?_⟩) (fun j' hj' => ?_) (fun j' hj' hnew => ?_) ?_ ?_ ?_
  · simp [At, World.register]
  · constructor
    case delayed =>
      intro q' hq'
      by_cases hq : q' = q
      · subst hq
        simpa using Or.inr hq'
      · simpa [World.register, hq] using hq'
    all_goals simp [World.register]
  · exact ((henq j').mp hnew).resolve_left hj'
  · simpa [World.register] using h.covered
  · simpa [World.register] using h.registered
  · exact h.dead

/-- A scheduler claims a due job. -/
theorem Delivered.claimDue {q : QueueName} (h : Delivered s g) :
    Delivered (s.setDelayed q ((s.redis.zsets (.delayed q)).zrem j))
      (holding (some (.hand j)) + g) := by
  refine h.move j (fun _ => ⟨.hands, ?_⟩) (fun j' hj' => ?_) (fun _ _ hnew => hnew) ?_ ?_ ?_
  · simp [At]
  · constructor
    case delayed =>
      intro q' hq'
      by_cases hq : q' = q
      · subst hq
        simpa using ⟨hj', hq'⟩
      · simpa [hq] using hq'
    all_goals simp
  · simpa using h.covered
  · simpa using h.registered
  · simpa using h.dead

/-- A scheduler pushes a job in its hands to a ready list. -/
theorem Delivered.promote {x : String} (h : Delivered s (holding (some (.hand j)) + g)) :
    Delivered (s.push (.queue x) j) g := by
  refine h.move j (fun _ => ⟨.ready x, ?_⟩) (fun j' hj' => ?_) (fun _ _ hnew => hnew) ?_ ?_ ?_
  · simp [At]
  · constructor
    case ready => exact fun x' hx' => mem_push hx'
    all_goals simp [Ne.symm hj']
  · simpa using h.covered
  · simpa using h.registered
  · simpa using h.dead

/-- A pull loop moves the tail of a ready list to the processing list, and holds it or, if
it is not truthy, forgets it. -/
theorem Delivered.pull {x v : String} {k : Option Stake} (h : Delivered s g)
    (hv : (s.redis.lists (.queue x)).getLast? = some v) (hk : k = none ∨ k = some (.claim w v))
    (hup : s.down w = false) (hw : w ∈ s.redis.sets .workers) :
    Delivered ((s.setList (.queue x) (s.redis.lists (.queue x)).dropLast).push (.processing w) v)
      (holding k + g) := by
  have hcount := Redis.count_dropLast hv
  have hhold : ∀ y : Stake, y ≠ .claim w v → holding k y = 0 := by
    intro y hy
    rcases hk with rfl | rfl <;> simp [Ne.symm hy]
  have hle := h.covered w v hup
  refine h.move v (fun _ => ⟨.processing w, ?_⟩) (fun j' hj' => ?_) (fun _ _ hnew => hnew) ?_ ?_ ?_
  · simp [At, hup, hhold]
    omega
  · constructor
    case ready =>
      intro x' hx'
      by_cases hx : x' = x
      · subst hx
        have hpos := List.count_pos_iff.mpr hx'
        have hc := hcount j'
        rw [if_neg (Ne.symm hj')] at hc
        have hmem : j' ∈ (s.redis.lists (.queue x')).dropLast := by
          apply List.count_pos_iff.mp
          omega
        simpa using hmem
      · simpa [hx] using hx'
    case processing =>
      intro w'
      by_cases hw : w' = w
      · subst hw
        simp [Ne.symm hj']
      · simp [hw]
    all_goals simp [hhold]
  · intro w' j' hup'
    have hcov := h.covered w' j' hup'
    by_cases hw : w' = w
    · subst hw
      by_cases hj : j' = v
      · subst hj
        rcases hk with rfl | rfl <;> simp <;> omega
      · simpa [hhold, hj, Ne.symm hj] using hcov
    · simpa [hhold, hw] using hcov
  · intro w' hw'
    by_cases hww : w' = w
    · exact hww ▸ hw
    · exact h.registered w' (by simpa [hww] using hw')
  · simpa [hhold] using h.dead

/-- A rate-limited job goes back to its ready list. -/
theorem Delivered.pushBack {x : String} (h : Delivered s (holding (some (.claim w j)) + g)) :
    Delivered ((s.setList (.processing w) ((s.redis.lists (.processing w)).erase j)).push
      (.queue x) j) g := by
  refine h.move j (fun _ => ⟨.ready x, ?_⟩) (fun j' hj' => ?_) (fun _ _ hnew => hnew) ?_ ?_ ?_
  · simp [At]
  · constructor
    case ready => exact fun x' hx' => mem_push (by simpa using hx')
    case processing =>
      intro w'
      by_cases hw : w' = w
      · subst hw
        simp [List.count_erase_of_ne hj']
      · simp [hw]
    all_goals simp
  · intro w' j' hup'
    have hcov := h.covered w' j' hup'
    by_cases hw : w' = w
    · subst hw
      by_cases hj : j' = j
      · subst hj
        simp at hcov ⊢
        omega
      · simpa [List.count_erase_of_ne hj, Ne.symm hj] using hcov
    · simpa [hw, Ne.symm hw] using hcov
  · intro w' hw'
    apply h.registered w'
    intro hnil
    by_cases hw : w' = w
    · subst hw
      simp [hnil] at hw'
    · simp [hw, hnil] at hw'
  · simpa using h.dead

/-- A call hands its job over: from now on the entry does not count. -/
theorem Delivered.handOver (h : Delivered s (holding (some (.claim w j)) + g))
    (hplace : s'.enqueued j → ∃ o, At s' (holding (some (.handed w j)) + g') j o)
    (hstay : ∀ j', j' ≠ j → Stays s s' g g' j')
    (hnew : ∀ j, s'.enqueued j → s.enqueued j)
    (hproc : ∀ w, s'.redis.lists (.processing w) = s.redis.lists (.processing w))
    (hworkers : s'.redis.sets .workers = s.redis.sets .workers) (hdown : s'.down = s.down)
    (hg : ∀ k, (∀ j, k ≠ .completed j) → g' k = g k) :
    Delivered s' (holding (some (.handed w j)) + g') := by
  refine h.move j hplace (fun j' hj' => ?_) (fun j' _ => hnew j') ?_ ?_ ?_
  · have hs := hstay j' hj'
    refine ⟨hs.ready, hs.delayed, hs.queues, hs.processing, hs.dlq, hs.down, ?_, ?_, ?_, ?_⟩
    · simpa using hs.hand
    · simpa [Ne.symm hj'] using hs.handed
    · simpa using hs.past
    · simpa using hs.completed
  · intro w' j' hup
    have hcov := h.covered w' j' (hdown ▸ hup)
    rw [hproc]
    rw [Pi.add_apply, Pi.add_apply, hg _ (by simp), hg _ (by simp)]
    by_cases hwj : w' = w ∧ j' = j
    · obtain ⟨rfl, rfl⟩ := hwj
      simp at hcov ⊢
      omega
    · have hne : ¬ (w = w' ∧ j = j') := fun hh => hwj ⟨hh.1.symm, hh.2.symm⟩
      simpa [hne] using hcov
  · intro w' hw'
    rw [hproc] at hw'
    rw [hworkers]
    exact h.registered w' hw'
  · intro w' j' hpos
    rw [hdown]
    exact h.dead w' j' (by simpa [hg] using hpos)

/-- A failed job is scheduled for a retry. -/
theorem Delivered.retry {q : QueueName} {score : ℚ}
    (h : Delivered s (holding (some (.claim w j)) + g))
    (hq : s.enqueued j → q ∈ s.redis.sets .queues) :
    Delivered (s.setDelayed q ((s.redis.zsets (.delayed q)).zadd score j))
      (holding (some (.handed w j)) + g) := by
  refine h.handOver (fun hj => ⟨.delayed q, ?_⟩)
    (fun j' hj' => ?_) (fun _ => id) (fun _ => rfl) rfl rfl (fun _ _ => rfl)
  · simpa [At] using hq hj
  · constructor
    case delayed =>
      intro q' hq'
      by_cases hqq : q' = q
      · subst hqq
        simpa using Or.inr hq'
      · simpa [hqq] using hq'
    all_goals simp

/-- A failed job is buried in the dead-letter queue. -/
theorem Delivered.bury {q : QueueName} (h : Delivered s (holding (some (.claim w j)) + g)) :
    Delivered (s.push (.dlq q) j) (holding (some (.handed w j)) + g) := by
  refine h.handOver (fun _ => ⟨.dlq q, ?_⟩)
    (fun j' hj' => ?_) (fun _ => id) (fun _ => by simp) rfl rfl (fun _ _ => rfl)
  · simp [At]
  · constructor
    case dlq => exact fun q' hq' => mem_push hq'
    all_goals simp

/-- A job is completed. -/
theorem Delivered.complete {p : RowPatch} {d : Stake → ℕ}
    (h : Delivered s (holding (some (.claim w j)) + g)) (hd : 0 < d (.completed j))
    (hzero : ∀ k, (∀ j, k ≠ .completed j) → d k = 0) :
    Delivered (s.updateRow j p) (holding (some (.handed w j)) + (d + g)) := by
  refine h.handOver (fun _ => ⟨.completed, ?_⟩)
    (fun j' hj' => ?_) (fun _ => id) (fun _ => rfl) rfl rfl (fun k hk => ?_)
  · simp only [At, Pi.add_apply]
    omega
  · constructor <;> simp [hzero]
  · simp [hzero k hk]

/-- The entry of a job that is already elsewhere is removed. -/
theorem Delivered.ack (h : Delivered s (holding (some (.handed w j)) + g))
    (hup : s.down w = false) :
    Delivered (s.setList (.processing w) ((s.redis.lists (.processing w)).erase j)) g := by
  have hle := h.covered w j hup
  simp at hle
  have hstays : ∀ j' o, At s (holding (some (.handed w j)) + g) j' o →
      At (s.setList (.processing w) ((s.redis.lists (.processing w)).erase j)) g j' o := by
    intro j' o ho
    cases o with
    | processing w' =>
        by_cases hw : w' = w
        · subst hw
          simp only [At, hup] at ho ⊢
          by_cases hj : j' = j
          · subst hj
            simp at ho ⊢
            omega
          · simpa [List.count_erase_of_ne hj, Ne.symm hj] using ho
        · simpa [At, hw, Ne.symm hw] using ho
    | _ => simpa [At] using ho
  constructor
  · intro j' hj'
    obtain ⟨o, ho⟩ := h.kept j' hj'
    exact ⟨o, hstays j' o ho⟩
  · intro w' j' hup'
    have hcov := h.covered w' j' hup'
    by_cases hw : w' = w
    · subst hw
      by_cases hj : j' = j
      · subst hj
        simp at hcov ⊢
        omega
      · simpa [List.count_erase_of_ne hj, Ne.symm hj] using hcov
    · simpa [hw, Ne.symm hw] using hcov
  · intro w' hw'
    apply h.registered w'
    intro hnil
    by_cases hw : w' = w
    · subst hw
      simp [hnil] at hw'
    · simp [hw, hnil] at hw'
  · simpa using h.dead

/-! ## Recovering a worker -/

/-- Only what janitors are past changes. -/
theorem Delivered.books (h : Delivered s g) (hg : ∀ k, (∀ w j, k ≠ .past w j) → g' k = g k)
    (hpast : ∀ w, ∀ j ∈ s.redis.lists (.processing w), g' (.past w j) ≤ g (.past w j))
    (hdead : ∀ w j, 0 < g' (.past w j) → s.down w = true) : Delivered s g' where
  kept j hj := by
    obtain ⟨o, ho⟩ := h.kept j hj
    have hsame := (Same.refl s).stays g j
    refine ⟨o, ho.stays { hsame with hand := ?_, handed := ?_, past := ?_, completed := ?_ }⟩
    · rw [hg _ (by simp)]
    · intro w
      rw [hg _ (by simp)]
    · exact fun w hw => hpast w j hw
    · rw [hg _ (by simp)]
  covered w j hw := by
    rw [hg _ (by simp), hg _ (by simp)]
    exact h.covered w j hw
  registered := h.registered
  dead := hdead

/-- Besides the orphans to push a janitor has nothing at stake. -/
theorem stake_janitor {l : Phase} {k : Stake} (hk : ∀ w j, k ≠ .past w j) :
    stake .janitor l k = 0 := by
  cases k <;> first | rfl | exact absurd rfl (hk _ _)

/-- A janitor is given up. -/
theorem Delivered.drop {l : Phase} (h : Delivered s (stake .janitor l + g)) : Delivered s g := by
  apply h.books
  · intro k hk
    rw [Pi.add_apply, stake_janitor hk, zero_add]
  · intro w j _
    simp
  · intro w j hpos
    apply h.dead w j
    rw [Pi.add_apply]
    omega

/-- A janitor has read the list of a worker that is down: it has all entries to push. -/
theorem Delivered.readOrphans (h : Delivered s g) (hdown : s.down w = true) :
    Delivered s (stake .janitor (.recovering w (s.redis.lists (.processing w))) + g) := by
  apply h.books
  · intro k hk
    rw [Pi.add_apply, stake_janitor hk, zero_add]
  · intro w' j hj
    have hzero : stake .janitor (.recovering w (s.redis.lists (.processing w))) (.past w' j) = 0 := by
      by_cases hw : w = w'
      · subst hw
        simp [stake, remaining, past, hj]
      · simp [stake, remaining, past, hw]
    rw [Pi.add_apply, hzero, zero_add]
  · intro w' j hpos
    by_cases hw : w = w'
    · exact hw ▸ hdown
    · apply h.dead w' j
      simpa [stake, remaining, past, hw] using hpos

/-- A janitor pushes the next orphan. -/
theorem Delivered.pushOrphan {x : String} {todo : List JobId}
    (h : Delivered s (stake .janitor (.routing w (.queue x) j todo) + g))
    (hdown : s.down w = true) :
    Delivered (s.push (.queue x) j) (stake .janitor (.restored w j todo) + g) := by
  refine h.move j (fun _ => ⟨.ready x, ?_⟩) (fun j' hj' => ?_) (fun _ _ hnew => hnew) ?_ ?_ ?_
  · simp [At]
  · have hsame : ∀ w', stake .janitor (.restored w j todo) (.past w' j') =
        stake .janitor (.routing w (.queue x) j todo) (.past w' j') := by
      intro w'
      by_cases hw : w = w'
      · simp [stake, remaining, past, hw, hj']
      · simp [stake, remaining, past, hw]
    constructor
    case ready => exact fun x' hx' => mem_push hx'
    case past =>
      intro w' _
      rw [Pi.add_apply, Pi.add_apply, hsame]
    all_goals simp [stake_janitor]
  · simpa [stake_janitor] using h.covered
  · simpa using h.registered
  · intro w' j' hpos
    by_cases hw : w = w'
    · exact hw ▸ hdown
    · apply h.dead w' j'
      simpa [stake, remaining, past, hw] using hpos

/-- A janitor that has pushed all orphans deletes the list. -/
theorem Delivered.dropList (h : Delivered s (stake .janitor (.recovering w []) + g))
    (hdown : s.down w = true) : Delivered (s.delete (.processing w)) g := by
  have hpast : ∀ j, stake .janitor (.recovering w []) (.past w j) = 1 := by
    intro j
    simp [stake, remaining, past]
  have hstays : ∀ j o, At s (stake .janitor (.recovering w []) + g) j o →
      At (s.delete (.processing w)) g j o := by
    intro j o ho
    cases o with
    | processing w' =>
        by_cases hw : w' = w
        · subst hw
          -- the janitor itself is past every entry
          simp only [At, if_pos hdown, Pi.add_apply, hpast] at ho
          omega
        · have hw' : w ≠ w' := fun h => hw h.symm
          simpa [At, Write.apply, hw, hw', stake, holds, remaining, past] using ho
    | _ => simpa [At, Write.apply, stake_janitor] using ho
  constructor
  · intro j hj
    obtain ⟨o, ho⟩ := h.kept j hj
    exact ⟨o, hstays j o ho⟩
  · intro w' j hup
    have hw : w' ≠ w := by
      rintro rfl
      rw [hdown] at hup
      cases hup
    have hcov := h.covered w' j hup
    simpa [Write.apply, hw, stake_janitor] using hcov
  · intro w' hw'
    by_cases hw : w' = w
    · subst hw
      simp [Write.apply] at hw'
    · have hlist := h.registered w' (by simpa [Write.apply, hw] using hw')
      simpa [Write.apply] using hlist
  · exact h.drop.dead

/-- A worker without entries leaves the registry. -/
theorem Delivered.unregister (h : Delivered s g) (hlist : s.redis.lists (.processing w) = []) :
    Delivered (s.setSet .workers ((s.redis.sets .workers).erase w)) g := by
  constructor
  · intro j hj
    obtain ⟨o, ho⟩ := h.kept j hj
    refine ⟨o, ?_⟩
    cases o <;> simpa [At] using ho
  · exact h.covered
  · intro w' hw'
    have hne : w' ≠ w := by
      rintro rfl
      exact hw' hlist
    simpa [hne] using h.registered w' hw'
  · exact h.dead

/-- A worker crashes: all entries of its list count, since no janitor has read it yet. -/
theorem Delivered.crash (h : Delivered s g) (w : WorkerId) :
    Delivered { s with down := Function.update s.down w true } g := by
  have hstays : ∀ j o, At s g j o → At { s with down := Function.update s.down w true } g j o := by
    intro j o ho
    cases o with
    | processing w' =>
        by_cases hw : w' = w
        · subst hw
          simp only [At, Function.update_self, if_true] at ho ⊢
          by_cases hdown : s.down w' = true
          · rwa [if_pos hdown] at ho
          · rw [if_neg hdown] at ho
            have hmem : j ∈ s.redis.lists (.processing w') := by
              apply List.count_pos_iff.mp
              omega
            refine ⟨hmem, ?_⟩
            by_contra hpast
            exact hdown (h.dead w' j (by omega))
        · simpa [At, hw] using ho
    | _ => exact ho
  constructor
  · intro j hj
    obtain ⟨o, ho⟩ := h.kept j hj
    exact ⟨o, hstays j o ho⟩
  · intro w' j hup
    by_cases hw : w' = w
    · subst hw
      simp at hup
    · exact h.covered w' j (by simpa [hw] using hup)
  · exact h.registered
  · intro w' j hpos
    have hdown := h.dead w' j hpos
    by_cases hw : w' = w
    · subst hw
      simp
    · simpa [hw] using hdown

/-! ## Requests of an operator -/

/-- A request takes a job out of its dead-letter queue. -/
theorem Delivered.lift {q : QueueName} {n : ℕ} (h : Delivered s g) :
    Delivered (s.setList (.dlq q) (removeFirst j n (s.redis.lists (.dlq q))))
      (holding (some (.hand j)) + g) := by
  refine h.move j (fun _ => ⟨.hands, ?_⟩) (fun j' hj' => ?_) (fun _ _ hnew => hnew) ?_ ?_ ?_
  · simp [At]
  · constructor
    case dlq =>
      intro q' hq'
      by_cases hqq : q' = q
      · subst hqq
        have hcount := Requeue.count_removeFirst_ne hj' n (s.redis.lists (.dlq q'))
        have hpos := List.count_pos_iff.mpr hq'
        have hmem : j' ∈ removeFirst j n (s.redis.lists (.dlq q')) := by
          apply List.count_pos_iff.mp
          omega
        simpa using hmem
      · simpa [hqq] using hq'
    all_goals simp
  · simpa using h.covered
  · simpa using h.registered
  · simpa using h.dead

/-- A loop gives up the entry it is responsible for. -/
theorem Delivered.forget (h : Delivered s (holding (some (.claim w j)) + g)) : Delivered s g where
  kept j' hj' := by
    obtain ⟨o, ho⟩ := h.kept j' hj'
    refine ⟨o, ?_⟩
    cases o <;> simpa [At] using ho
  covered w' j' hw' := by
    have hcov := h.covered w' j' hw'
    rw [Pi.add_apply, Pi.add_apply] at hcov
    omega
  registered := h.registered
  dead := by simpa using h.dead

end Moves

end Delivery

end NexusQueue
