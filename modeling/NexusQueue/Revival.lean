/-
# Requeueing dead jobs

`POST /queues/:name/dlq/requeue`, running alone, for any stores and any ids in the request.
The code acts on every id of the request that spells a uuid, as often as it is named and
wherever the job is, and does not look at the reply of its `LREM`; any other text is rejected
by the table, and passed over.  It does what the request is for if and only if every uuid is
named once, is in the dead-letter queue once, and belongs to the queue, and nothing else is
there (`requeued_iff`).
-/
import NexusQueue.Sequential

namespace NexusQueue

open Prog (Completes)

namespace Revival

variable {env : Env} {t : Task} {s s' : World} {name : QueueName} {ids : List JobId} {i j : JobId}

/-! ## What is done to one job -/

/-- The ready list of a queue that a job is pushed to. -/
def target (name : QueueName) (s : World) (j : JobId) : Key :=
  targetList name ((s.redis.jobs (redisKeys.job j)).priority.getD "normal")

/-- The update of the row. -/
def reset : RowPatch := { status := .pending, startedAt := .null, completedAt := .null }

/-- The texts that spell a uuid. -/
def spelled (ids : List JobId) : List JobId := ids.filter fun j => (Uuid.normal j).isSome

/-- The world after one id of a request. -/
def revive (name : QueueName) (s : World) (j : JobId) : World :=
  let lifted := Function.update s.redis.lists (redisKeys.dlq name)
    (removeFirst j 1 (s.redis.lists (redisKeys.dlq name)))
  { s with
    redis :=
      { s.redis with
        lists := Function.update lifted (target name s j) (j :: lifted (target name s j))
        jobs := Function.update s.redis.jobs (redisKeys.job j)
          ((s.redis.jobs (redisKeys.job j)).merge Routes.resetFields) }
    pg := s.pg.update s.clock j reset }

theorem requeueJob_completes (hj : (Uuid.normal j).isSome = true)
    (hup : t.host.elim false s.down = false) :
    Completes (alone env t) (fun _ => True) s (Routes.requeueJob name j)
      fun x s' => x = .ok () ∧ s' = revive name s j := by
  have hpriority : (((s.redis.jobs (redisKeys.job j)).merge Routes.resetFields).priority.getD
      "normal") = (s.redis.jobs (redisKeys.job j)).priority.getD "normal" := rfl
  have hread : (Cmd.update j reset).unreadable = false := by
    show (Uuid.normal j).isNone = false
    rw [← Option.not_isSome, hj]
    rfl
  refine completes_answered hup trivial hread (fun _ => rfl) ?_
  refine completes_answered hup trivial rfl (fun _ => rfl) ?_
  refine completes_answered hup trivial rfl (fun _ => rfl) ?_
  refine completes_answered hup trivial rfl (fun _ => rfl) ?_
  refine completes_answered hup trivial rfl (fun _ => rfl) ?_
  refine completes_answered hup trivial rfl (fun _ => rfl) ?_
  refine completes_last hup trivial rfl (fun _ => rfl) ⟨rfl, ?_⟩
  simp [revive, target, reset, Write.apply, hpriority]

/-- A text that spells no uuid changes nothing. -/
theorem requeueJob_rejected (hj : ¬ (Uuid.normal j).isSome = true)
    (hup : t.host.elim false s.down = false) :
    Completes (alone env t) (fun _ => True) s (Routes.requeueJob name j)
      fun x s' => (∃ e, x = .error e) ∧ s' = s := by
  refine completes_unreadable hup trivial ?_ ⟨⟨_, rfl⟩, rfl⟩
  show (Uuid.normal j).isNone = true
  rwa [← Option.not_isSome, Bool.not_eq_true', ← Bool.not_eq_true]

/-- The loop does the same for every uuid, and counts them all. -/
theorem requeueJobs_completes (requeued failed : ℕ) (ids : List JobId)
    (hup : t.host.elim false s.down = false) :
    Completes (alone env t) (fun _ => True) s (Routes.requeueJobs name requeued failed ids)
      fun x s' => (∃ failed', x = .ok (.requeued (requeued + (spelled ids).length) failed')) ∧
        s' = (spelled ids).foldl (revive name) s := by
  induction ids generalizing s requeued failed with
  | nil => exact ⟨⟨failed, rfl⟩, rfl⟩
  | cons j ids ih =>
      by_cases hj : (Uuid.normal j).isSome = true
      · have hspelled : spelled (j :: ids) = j :: spelled ids := List.filter_cons_of_pos hj
        rw [hspelled]
        refine Prog.completes_bind (fun x s' => x = .ok true ∧ s' = revive name s j) ?_ ?_ ?_
        · refine Prog.completes_handle (fun x s' => x = .ok true ∧ s' = revive name s j) ?_
            (fun _ _ h => h) ?_
          · refine Prog.completes_bind _ (requeueJob_completes hj hup) ?_ ?_
            · rintro a s' ⟨-, hs'⟩
              exact Prog.completes_pure ⟨rfl, hs'⟩
            · rintro e s' ⟨he, -⟩
              cases he
          · rintro e s' ⟨he, -⟩
            cases he
        · rintro ok s' ⟨hok, rfl⟩
          cases hok
          rw [if_pos rfl]
          refine (ih (s := revive name s j) (requeued + 1) failed hup).mono ?_
          rintro x s' ⟨⟨failed', hx⟩, hs'⟩
          refine ⟨⟨failed', ?_⟩, hs'⟩
          rw [hx, List.length_cons, add_right_comm, add_assoc]
        · rintro e s' ⟨he, -⟩
          cases he
      · have hspelled : spelled (j :: ids) = spelled ids := List.filter_cons_of_neg hj
        rw [hspelled]
        refine Prog.completes_bind (fun x s' => x = .ok false ∧ s' = s) ?_ ?_ ?_
        · refine Prog.completes_handle (fun x s' => (∃ e, x = .error e) ∧ s' = s) ?_ ?_ ?_
          · refine Prog.completes_bind _ (requeueJob_rejected hj hup) ?_ ?_
            · rintro a s' ⟨⟨e, he⟩, -⟩
              cases he
            · rintro e s' ⟨-, hs'⟩
              exact ⟨⟨e, rfl⟩, hs'⟩
          · rintro a s' ⟨⟨e, he⟩, -⟩
            cases he
          · rintro e s' ⟨-, hs'⟩
            exact Prog.completes_pure ⟨rfl, hs'⟩
        · rintro ok s' ⟨hok, rfl⟩
          cases hok
          exact ih requeued (failed + 1) hup
        · rintro e s' ⟨he, -⟩
          cases he

/-- The ids a request names, if it is valid. -/
def named (s : World) (name : QueueName) (request : RequeueBody) : Option (List JobId) :=
  if request.all then some (s.redis.lists (redisKeys.dlq name)) else request.jobIds

theorem requeue_completes {request : RequeueBody} (hids : named s name request = some ids) :
    Completes (alone env (.requeue name request)) (fun _ => True) s (Routes.requeue name request)
      fun x s' => (∃ failed, x = .ok (.requeued (spelled ids).length failed)) ∧
        s' = (spelled ids).foldl (revive name) s := by
  unfold Routes.requeue
  unfold named at hids
  split at hids
  · rename_i hall
    cases hids
    rw [if_pos hall]
    refine completes_answered rfl trivial rfl (fun _ => rfl) ?_
    rw [Redis.lrange_all]
    simpa using requeueJobs_completes 0 0 (s.redis.lists (redisKeys.dlq name)) rfl
  · rename_i hall
    rw [if_neg hall, hids]
    simpa using requeueJobs_completes 0 0 ids rfl

/-! ## The stores after the loop -/

/-- Resetting a job does not change where jobs are pushed to. -/
theorem target_reset {s₁ : World} (name : QueueName) (i : JobId)
    (hjobs : s₁.redis.jobs = Function.update s.redis.jobs (redisKeys.job j)
      ((s.redis.jobs (redisKeys.job j)).merge Routes.resetFields)) :
    target name s₁ i = target name s i := by
  have hkeep : (s₁.redis.jobs (redisKeys.job i)).priority =
      (s.redis.jobs (redisKeys.job i)).priority := by
    rw [hjobs]
    by_cases hi : i = j
    · subst hi
      simp [JobHash.merge, Routes.resetFields]
    · simp [Function.update_of_ne fun hkey => hi (Key.job.inj hkey)]
  rw [target, target, hkeep]

theorem target_revive (name : QueueName) (s : World) (j i : JobId) :
    target name (revive name s j) i = target name s i :=
  target_reset name i rfl

/-- One id: the job is removed from the dead-letter queue once, if it is there, and pushed
once. -/
theorem count_revive (name : QueueName) (s : World) (j i : JobId) (k : Key) :
    ((revive name s j).redis.lists k).count i =
      if k = redisKeys.dlq name then (s.redis.lists k).count i - [j].count i
      else if target name s i = k then (s.redis.lists k).count i + [j].count i
      else (s.redis.lists k).count i := by
  obtain ⟨x, hx⟩ : ∃ x, target name s j = .queue x := exists_targetList _ _
  have hlists : (revive name s j).redis.lists =
      Function.update (Function.update s.redis.lists (redisKeys.dlq name)
        ((s.redis.lists (redisKeys.dlq name)).erase j)) (target name s j)
        (j :: s.redis.lists (target name s j)) := by
    simp [revive, hx, removeFirst]
  rw [hlists]
  by_cases hdlq : k = redisKeys.dlq name
  · subst hdlq
    rw [if_pos rfl, Function.update_of_ne (by rw [hx]; simp), Function.update_self]
    by_cases hi : i = j
    · subst hi
      simp
    · simp [List.count_erase_of_ne hi, Ne.symm hi]
  · rw [if_neg hdlq]
    by_cases hk : k = target name s j
    · subst hk
      rw [Function.update_self]
      by_cases hi : i = j
      · subst hi
        simp
      · simp [List.count_cons_of_ne (Ne.symm hi)]
    · rw [Function.update_of_ne hk, Function.update_of_ne hdlq]
      by_cases hi : i = j
      · subst hi
        rw [if_neg fun h => hk h.symm]
      · simp [Ne.symm hi]

/-- All ids. -/
theorem count_foldl (name : QueueName) (ids : List JobId) (s : World) (i : JobId) (k : Key) :
    ((ids.foldl (revive name) s).redis.lists k).count i =
      if k = redisKeys.dlq name then (s.redis.lists k).count i - ids.count i
      else if target name s i = k then (s.redis.lists k).count i + ids.count i
      else (s.redis.lists k).count i := by
  induction ids generalizing s with
  | nil => simp
  | cons j ids ih =>
      rw [List.foldl_cons, ih, count_revive, target_revive]
      have hcons : (j :: ids).count i = [j].count i + ids.count i := by
        rw [← List.count_append, List.singleton_append]
      rw [hcons]
      split
      · omega
      · split
        · omega
        · rfl

/-- The hashes: those of the ids named are reset. -/
theorem jobs_foldl (name : QueueName) (ids : List JobId) (s : World) (i : JobId) :
    (ids.foldl (revive name) s).redis.jobs (redisKeys.job i) =
      if i ∈ ids then (s.redis.jobs (redisKeys.job i)).merge Routes.resetFields
      else s.redis.jobs (redisKeys.job i) := by
  induction ids generalizing s with
  | nil => rfl
  | cons j ids ih =>
      rw [List.foldl_cons, ih]
      by_cases hi : i = j
      · subst hi
        have hwrite : (revive name s i).redis.jobs (redisKeys.job i) =
            (s.redis.jobs (redisKeys.job i)).merge Routes.resetFields := Function.update_self ..
        rw [hwrite, if_pos (show i ∈ i :: ids from List.mem_cons_self)]
        split
        · rfl
        · rfl
      · have hkeep : (revive name s j).redis.jobs (redisKeys.job i) =
            s.redis.jobs (redisKeys.job i) :=
          Function.update_of_ne (fun hkey => hi (Key.job.inj hkey)) _ _
        rw [hkeep]
        simp only [List.mem_cons, hi, false_or]

/-- The rows: those whose ids are spelled are reset. -/
theorem row?_foldl (name : QueueName) (ids : List JobId) (s : World) (i : JobId) :
    (ids.foldl (revive name) s).pg.row? i =
      if ∃ j ∈ ids, Uuid.normal j = some i then (s.pg.row? i).map (JobRow.patch s.clock reset)
      else s.pg.row? i := by
  have hpg : (ids.foldl (revive name) s).pg =
      ids.foldl (fun db j => db.update s.clock j reset) s.pg := by
    induction ids generalizing s with
    | nil => rfl
    | cons j ids ih => exact ih (revive name s j)
  rw [hpg, Postgres.row?_foldl_update fun _ => rfl]

/-- The sorted sets. -/
theorem zsets_foldl (name : QueueName) (ids : List JobId) (s : World) :
    (ids.foldl (revive name) s).redis.zsets = s.redis.zsets := by
  induction ids generalizing s with
  | nil => rfl
  | cons j ids ih =>
      rw [List.foldl_cons, ih]
      rfl

/-! ## What the request is for -/

/-- The ids of the request that are in the dead-letter queue. -/
def dead (s : World) (name : QueueName) (ids : List JobId) : Finset JobId :=
  ids.toFinset.filter (· ∈ s.redis.lists (redisKeys.dlq name))

/-- The queue a job belongs to.  A hash that names none leaves it where it is dead. -/
def own (s : World) (name : QueueName) (j : JobId) : QueueName :=
  (s.redis.jobs (redisKeys.job j)).queueName.getD name

/-- The ready list a job belongs to. -/
def home (s : World) (name : QueueName) (j : JobId) : Key :=
  target (own s name j) s j

/-- Only dead jobs of the queue are touched, once each. -/
structure Requeued (s : World) (name : QueueName) (ids : List JobId) (x : Except Err Response)
    (s' : World) : Prop where
  counted : ∃ failed, x = .ok (.requeued (dead s name ids).card failed)
  /-- Each of them has left the dead-letter queue and is in its own ready list once more. -/
  moved : ∀ j ∈ dead s name ids, ∀ k, (s'.redis.lists k).count j =
    if k = redisKeys.dlq name then 0
    else if k = home s name j then (s.redis.lists k).count j + 1
    else (s.redis.lists k).count j
  attempts : ∀ j ∈ dead s name ids, (s'.redis.jobs (redisKeys.job j)).attempts = some (.of 0)
  /-- No other job has changed. -/
  lists : ∀ j ∉ dead s name ids, ∀ k, (s'.redis.lists k).count j = (s.redis.lists k).count j
  hash : ∀ j ∉ dead s name ids, s'.redis.jobs (redisKeys.job j) = s.redis.jobs (redisKeys.job j)
  row : ∀ j ∉ dead s name ids, s'.pg.row? j = s.pg.row? j
  delayed : s'.redis.zsets = s.redis.zsets

/-- Every uuid is named once, is in the dead-letter queue once, and belongs to the queue; what
spells no uuid is not there; and a uuid that is spelled in another way than it is printed has
no row, or one with nothing to reset, unless the request names it as it is printed too. -/
structure Requeueable (s : World) (name : QueueName) (ids : List JobId) : Prop where
  distinct : (spelled ids).Nodup
  buried : ∀ j ∈ spelled ids, (s.redis.lists (redisKeys.dlq name)).count j = 1
  belongs : ∀ j ∈ spelled ids, own s name j = name
  rejected : ∀ j ∈ ids, j ∉ spelled ids → j ∉ s.redis.lists (redisKeys.dlq name)
  rows : ∀ j ∈ ids, ∀ i, Uuid.normal j = some i → i ∉ ids →
    ∀ r, s.pg.row? i = some r → r.patch s.clock reset = r

/-- Different queues have different lists for a priority. -/
theorem targetList_left_injective {q q' : QueueName} {p : String}
    (h : targetList q p = targetList q' p) : q = q' := by
  unfold targetList at h
  split at h
  · exact Key.queue.inj h
  · have happend : q ++ ":" ++ p = q' ++ ":" ++ p := Key.queue.inj h
    rw [String.append_left_inj, String.append_left_inj] at happend
    exact happend

theorem mem_dead : j ∈ dead s name ids ↔ j ∈ ids ∧ j ∈ s.redis.lists (redisKeys.dlq name) := by
  rw [dead, Finset.mem_filter, List.mem_toFinset]

theorem mem_spelled : j ∈ spelled ids ↔ j ∈ ids ∧ (Uuid.normal j).isSome = true := List.mem_filter

/-- What is printed for a text of the request spells a uuid itself. -/
theorem mem_spelled_of_normal (hj : Uuid.normal j = some i) (hi : i ∈ ids) : i ∈ spelled ids := by
  refine mem_spelled.mpr ⟨hi, ?_⟩
  rw [show Uuid.normal i = some i from Uuid.printed_of_normal hj]
  rfl

theorem Requeueable.dead_eq (h : Requeueable s name ids) :
    dead s name ids = (spelled ids).toFinset := by
  ext j
  rw [mem_dead, List.mem_toFinset]
  constructor
  · rintro ⟨hj, hdead⟩
    by_contra hnot
    exact h.rejected j hj hnot hdead
  · intro hj
    refine ⟨(mem_spelled.mp hj).1, ?_⟩
    rw [← List.count_pos_iff, h.buried j hj]
    exact Nat.one_pos

/-- A list with as many different elements as positions repeats none. -/
theorem nodup_of_length_le {l : List JobId} (h : l.length ≤ l.toFinset.card) : l.Nodup :=
  List.dedup_eq_self.mp ((List.dedup_sublist l).eq_of_length_le h)

/-- A list that is as long as a set of its elements is large has each of them once, and no
other. -/
theorem nodup_of_card {l : List JobId} {D : Finset JobId} (hsub : D ⊆ l.toFinset)
    (h : l.length = D.card) : l.Nodup ∧ ∀ j ∈ l, j ∈ D := by
  refine ⟨nodup_of_length_le (h ▸ Finset.card_le_card hsub), fun j hj => ?_⟩
  have hall : D = l.toFinset :=
    Finset.eq_of_subset_of_card_le hsub (h ▸ List.toFinset_card_le l)
  exact hall ▸ List.mem_toFinset.mpr hj

theorem requeued_of_requeueable (h : Requeueable s name ids) (failed : ℕ) :
    Requeued s name ids (.ok (.requeued (spelled ids).length failed))
      ((spelled ids).foldl (revive name) s) := by
  have hone : ∀ {j}, j ∈ spelled ids → (spelled ids).count j = 1 := fun hj =>
    List.count_eq_one_of_mem h.distinct hj
  have hdead : ∀ {j}, j ∈ dead s name ids → j ∈ spelled ids := by
    intro j hj
    rwa [h.dead_eq, List.mem_toFinset] at hj
  have hnone : ∀ {j}, j ∉ dead s name ids → j ∉ spelled ids := by
    intro j hj
    rwa [h.dead_eq, List.mem_toFinset] at hj
  refine ⟨⟨failed, ?_⟩, fun j hj k => ?_, fun j hj => ?_, fun j hj k => ?_, fun j hj => ?_,
    fun i hi => ?_, zsets_foldl name _ s⟩
  · rw [h.dead_eq, List.toFinset_card_of_nodup h.distinct]
  · have hmem : j ∈ spelled ids := hdead hj
    rw [count_foldl, hone hmem, home, h.belongs j hmem]
    split
    · rename_i hk
      rw [hk, h.buried j hmem]
    · simp only [eq_comm]
  · rw [jobs_foldl, if_pos (hdead hj)]
    rfl
  · rw [count_foldl, List.count_eq_zero_of_not_mem (hnone hj)]
    simp
  · rw [jobs_foldl, if_neg (hnone hj)]
  · rw [row?_foldl]
    split
    · rename_i hex
      obtain ⟨j, hj, hi'⟩ := hex
      have hout : i ∉ ids := fun hmem => hnone hi (mem_spelled_of_normal hi' hmem)
      cases hr : s.pg.row? i with
      | none => rfl
      | some r => exact congrArg some (h.rows j (mem_spelled.mp hj).1 i hi' hout r hr)
    · rfl

theorem requeueable_of_requeued {failed : ℕ}
    (h : Requeued s name ids (.ok (.requeued (spelled ids).length failed))
      ((spelled ids).foldl (revive name) s)) : Requeueable s name ids := by
  obtain ⟨failed', hcounted⟩ := h.counted
  have hlength : (spelled ids).length = (dead s name ids).card :=
    (Response.requeued.inj (Except.ok.inj hcounted)).1
  -- a dead job that is passed over stays where it is
  have hspelled : dead s name ids ⊆ (spelled ids).toFinset := by
    intro j hj
    by_contra hnot
    have hmoved := h.moved j hj (redisKeys.dlq name)
    have hpos : 0 < (s.redis.lists (redisKeys.dlq name)).count j :=
      List.count_pos_iff.mpr (mem_dead.mp hj).2
    rw [count_foldl, if_pos rfl, if_pos rfl,
      List.count_eq_zero_of_not_mem (mt List.mem_toFinset.mpr hnot)] at hmoved
    omega
  obtain ⟨hnodup, hdead⟩ := nodup_of_card hspelled hlength
  refine ⟨hnodup, fun j hj => ?_, fun j hj => ?_, fun j hj hnot hmem => ?_,
    fun j hj i hi hout r hr => ?_⟩
  · have hmoved := h.moved j (hdead j hj) (redisKeys.dlq name)
    rw [count_foldl, if_pos rfl, if_pos rfl, List.count_eq_one_of_mem hnodup hj] at hmoved
    have hpos : 0 < (s.redis.lists (redisKeys.dlq name)).count j :=
      List.count_pos_iff.mpr (mem_dead.mp (hdead j hj)).2
    omega
  · -- the list it was pushed to is its own
    have hmoved := h.moved j (hdead j hj) (target name s j)
    obtain ⟨x, hx⟩ : ∃ x, target name s j = .queue x := exists_targetList _ _
    have hne : target name s j ≠ redisKeys.dlq name := by simp [hx]
    rw [count_foldl, if_neg hne, if_neg hne, if_pos rfl, List.count_eq_one_of_mem hnodup hj]
      at hmoved
    by_contra hown
    have hhome : target name s j ≠ home s name j := fun heq =>
      hown (targetList_left_injective heq).symm
    rw [if_neg hhome] at hmoved
    omega
  · exact hnot (List.mem_toFinset.mp (hspelled (mem_dead.mpr ⟨hj, hmem⟩)))
  · have hkept := h.row i fun hmem => hout (mem_dead.mp hmem).1
    have hmem : j ∈ spelled ids := mem_spelled.mpr ⟨hj, by rw [hi]; rfl⟩
    rw [row?_foldl, if_pos ⟨j, hmem, hi⟩, hr] at hkept
    exact Option.some_inj.mp hkept

/-- **Requeue touches only dead jobs of the queue, once each, if that is what it is asked.**
For any stores and any valid request, running alone: it ends, and it has done what it is for if
and only if every uuid is named once, is in the dead-letter queue once and belongs to the
queue, what spells no uuid is not there, and no other row is reset. -/
theorem requeued_iff (s : World) (name : QueueName) (request : RequeueBody)
    (hids : named s name request = some ids) :
    Completes (alone env (.requeue name request)) (fun _ => True) s (Routes.requeue name request)
      fun x s' => Requeued s name ids x s' ↔ Requeueable s name ids := by
  refine (requeue_completes hids).mono ?_
  rintro x s' ⟨⟨failed, rfl⟩, rfl⟩
  exact ⟨requeueable_of_requeued, fun h => requeued_of_requeueable h failed⟩

/-- One dead job, with its row. -/
def grave : World where
  redis :=
    { lists := Function.update (fun _ => []) (.dlq "default") [j1.text]
      jobs := Function.update (fun _ => {}) (.job j1)
        (newJobHash j1 "default" "echo" (some .null) .dlq (.of 1) "normal" 0) }
  pg := (Postgres.empty.insert 0
    { id := j1, queueName := "default", jobName := "echo", payload := some .null, status := .dlq
      maxAttempts := some 1 }).toOption.getD .empty
  ids := {j1.text}

/-- A request that names a dead job, and a text that is no uuid. -/
def revived : RequeueBody := { jobIds := some ["nope", j1.text] }

/-- The theorem on that request. -/
theorem requeued_revived :
    ∃ x s', Prog.Runs (alone sample (.requeue "default" revived)) grave
      (Routes.requeue "default" revived) x s' ∧ Requeued grave "default" ["nope", j1] x s' := by
  have hrequeueable : Requeueable grave "default" ["nope", j1] := by
    refine ⟨by decide +kernel, by decide +kernel, by decide +kernel, by decide +kernel, ?_⟩
    intro j hj i hi hout
    rcases List.mem_cons.mp hj with rfl | hj
    · cases (show Uuid.normal "nope" = none by decide +kernel).symm.trans hi
    · rw [List.mem_singleton.mp hj, Uuid.normal_text] at hi
      cases hi
      exact absurd (List.mem_cons_of_mem _ List.mem_cons_self) hout
  have hids : named grave "default" revived = some ["nope", j1.text] := rfl
  have hcompletes : Completes (alone sample (.requeue "default" revived)) (fun _ => True)
      grave (Routes.requeue "default" revived) fun x s' =>
        Requeued grave "default" ["nope", j1] x s' ↔ Requeueable grave "default" ["nope", j1] :=
    requeued_iff grave "default" _ hids
  obtain ⟨x, s', hrun⟩ := hcompletes.exists_runs
  exact ⟨x, s', hrun, (hcompletes.ends x s' hrun).mpr hrequeueable⟩

/-- A request that names a job twice. -/
def twice : RequeueBody := { jobIds := some [j1.text, j1.text] }

/-- It pushes the dead job twice, and counts it twice. -/
theorem requeued_repeated :
    ∃ s' failed, Prog.Runs (alone sample (.requeue "default" twice)) grave
      (Routes.requeue "default" twice) (.ok (.requeued 2 failed)) s' ∧
      s'.redis.lists (redisKeys.queue "default") = [j1.text, j1.text] ∧
      ¬ Requeued grave "default" [j1, j1] (.ok (.requeued 2 failed)) s' := by
  have hids : named grave "default" twice = some [j1.text, j1.text] := rfl
  have hcompletes := @requeue_completes sample _ _ _ _ hids
  obtain ⟨x, s', hrun⟩ := hcompletes.exists_runs
  obtain ⟨⟨failed, rfl⟩, rfl⟩ := hcompletes.ends x s' hrun
  have hspelled : spelled [j1.text, j1.text] = [j1.text, j1.text] := by decide +kernel
  rw [hspelled] at hrun
  refine ⟨_, failed, hrun, by decide +kernel, fun h => ?_⟩
  obtain ⟨failed', hcounted⟩ := h.counted
  have hcard : (dead grave "default" [j1.text, j1.text]).card = 1 := by decide +kernel
  rw [hcard] at hcounted
  cases hcounted

end Revival

end NexusQueue
