/-
# Queue statistics (`server/src/routes.ts`)

`GET /queues` puts together numbers of both stores: the jobs that are pending are counted in
the three ready lists of a queue, all others in the rows of the table.  The two stores are
written by different commands, so a job might be counted twice or not at all.

In a run in which nothing fails it is not (`stats_add_up`), as long as the three lists are
those of the jobs of the queue: the list of the queue `q:high` is one of the lists of `q`, and
a job of another priority waits in none of them.
-/
import NexusQueue.Standing
import NexusQueue.Alone

namespace NexusQueue

namespace Statistics

open Prog (Runs Ends)
open Ownership (Balanced Owner owned owners completed)
open Routing (queueOf priorityOf)

/-! ## The request -/

/-- The numbers of a queue, as the response shows them. -/
@[ext]
structure QueueStats where
  name : QueueName
  pending : ℕ
  active : ℕ
  completed : ℕ
  failed : ℕ
  dlq : ℕ

/-- The commands and statements of the request. -/
inductive Query where
  | smembers (k : Key)
  | llen (k : Key)
  | countActive (name : QueueName)
  | countByStatus (name : QueueName)

/-- What they are answered with: `GROUP BY` gives one row for each status there is. -/
abbrev Query.Reply : Query → Type
  | .smembers _ => List QueueName
  | .llen _ => ℕ
  | .countActive _ => ℕ
  | .countByStatus _ => List (JobStatus × ℕ)

/-- One turn of the loop over the rows of the last statement. -/
def note (stats : QueueStats) (row : JobStatus × ℕ) : QueueStats :=
  match row.1 with
  | .completed => { stats with completed := row.2 }
  | .failed => { stats with failed := row.2 }
  | .dlq => { stats with dlq := row.2 }
  | _ => stats

/-- The numbers of one queue. -/
def statsOf (name : QueueName) : Prog Query Query.Reply Err QueueStats := do
  let normalLen ← Prog.perform (Query.llen (redisKeys.queue name))
  let highLen ← Prog.perform (Query.llen (redisKeys.queuePriority name "high"))
  let lowLen ← Prog.perform (Query.llen (redisKeys.queuePriority name "low"))
  let active ← Prog.perform (Query.countActive name)
  let rows ← Prog.perform (Query.countByStatus name)
  pure (List.foldl note
    { name, pending := normalLen + highLen + lowLen, active, completed := 0, failed := 0, dlq := 0 }
    rows)

/-- The numbers of some queues. -/
def statsOfAll : List QueueName → Prog Query Query.Reply Err (List QueueStats)
  | [] => pure []
  | name :: names => do
      let stats ← statsOf name
      let rest ← statsOfAll names
      pure (stats :: rest)

/-- `GET /queues`. -/
def get : Prog Query Query.Reply Err (List QueueStats) := do
  let queueNames ← Prog.perform (Query.smembers redisKeys.queueRegistry)
  statsOfAll queueNames

/-- The rows of a queue. -/
def jobsOf (s : World) (q : QueueName) : List JobRow := s.pg.rows.filter (·.queueName = q)

/-- The rows of a queue with a status. -/
def withStatus (s : World) (q : QueueName) (st : JobStatus) : List JobRow :=
  (jobsOf s q).filter (·.status = st)

/-- The statuses that the last statement selects. -/
def selects (st : JobStatus) : Prop := st = .completed ∨ st = .failed ∨ st = .dlq

/-- What the stores answer. -/
def Serves (s : World) : (q : Query) → Except Err q.Reply → Prop
  | _, .error _ => True
  | .smembers k, .ok names =>
      List.Nodup names ∧ ∀ q, q ∈ (names : List QueueName) ↔ q ∈ s.redis.sets k
  | .llen k, .ok n => n = (s.redis.lists k).length
  | .countActive name, .ok n => n = (withStatus s name .active).length
  | .countByStatus name, .ok groups => (List.map Prod.fst groups).Nodup ∧ ∀ st n,
      (st, n) ∈ (groups : List (JobStatus × ℕ)) ↔
        selects st ∧ 0 < n ∧ n = (withStatus s name st).length

/-- A command that is answered while nothing moves. -/
def served (s : World) (q : Query) (x : Except Err q.Reply) (s' : World) : Prop :=
  s' = s ∧ Serves s q x

/-! ## What the response says -/

/-- The ready lists of a queue. -/
def readyKeys (q : QueueName) : List Key :=
  [redisKeys.queue q, redisKeys.queuePriority q "high", redisKeys.queuePriority q "low"]

/-- The jobs in the ready lists of a queue. -/
def readyOf (s : World) (q : QueueName) : List JobId := (readyKeys q).flatMap s.redis.lists

/-- The numbers that a state has for a queue. -/
def shown (s : World) (q : QueueName) : QueueStats where
  name := q
  pending := (readyOf s q).length
  active := (withStatus s q .active).length
  completed := (withStatus s q .completed).length
  failed := (withStatus s q .failed).length
  dlq := (withStatus s q .dlq).length

section Response

variable {s : World} {q : QueueName}

/-- The number that the response has for a status. -/
def QueueStats.of (stats : QueueStats) : JobStatus → ℕ
  | .completed => stats.completed
  | .failed => stats.failed
  | .dlq => stats.dlq
  | _ => 0

/-- A turn of the loop sets one number. -/
theorem of_note (stats : QueueStats) (row : JobStatus × ℕ) {st : JobStatus} (h : selects st) :
    (note stats row).of st = if st = row.1 then row.2 else stats.of st := by
  obtain ⟨st', n⟩ := row
  rcases h with rfl | rfl | rfl <;> cases st' <;> rfl

/-- The loop sets the numbers of the groups. -/
theorem of_foldl (groups : List (JobStatus × ℕ)) (stats : QueueStats) {st : JobStatus}
    (hnodup : (groups.map Prod.fst).Nodup) (h : selects st) :
    (∀ n, (st, n) ∈ groups → (groups.foldl note stats).of st = n) ∧
      (st ∉ groups.map Prod.fst → (groups.foldl note stats).of st = stats.of st) := by
  induction groups generalizing stats with
  | nil => exact ⟨fun n hn => absurd hn (List.not_mem_nil), fun _ => rfl⟩
  | cons row groups ih =>
      rw [List.map_cons, List.nodup_cons] at hnodup
      obtain ⟨hset, hkeep⟩ := ih (note stats row) hnodup.2
      refine ⟨fun n hn => ?_, fun hst => ?_⟩
      · rcases List.mem_cons.mp hn with heq | hn
        · subst heq
          rw [List.foldl_cons, hkeep hnodup.1, of_note _ _ h, if_pos rfl]
        · exact hset n hn
      · rw [List.map_cons, List.mem_cons, not_or] at hst
        rw [List.foldl_cons, hkeep hst.2, of_note _ _ h, if_neg hst.1]

theorem foldl_note (groups : List (JobStatus × ℕ)) (stats : QueueStats) :
    (groups.foldl note stats).name = stats.name ∧
      (groups.foldl note stats).pending = stats.pending ∧
      (groups.foldl note stats).active = stats.active := by
  induction groups generalizing stats with
  | nil => exact ⟨rfl, rfl, rfl⟩
  | cons row groups ih =>
      obtain ⟨hname, hpending, hactive⟩ := ih (note stats row)
      obtain ⟨st, n⟩ := row
      rw [List.foldl_cons, hname, hpending, hactive]
      cases st <;> exact ⟨rfl, rfl, rfl⟩

/-- A status without rows has no group, and its number stays zero. -/
theorem of_groups {groups : List (JobStatus × ℕ)} {stats : QueueStats}
    (hgroups : Serves s (.countByStatus q) (.ok groups)) (st : JobStatus) (h : selects st)
    (hzero : stats.of st = 0) :
    (groups.foldl note stats).of st = (withStatus s q st).length := by
  obtain ⟨hnodup, hmem⟩ := hgroups
  obtain ⟨hset, hkeep⟩ := of_foldl groups stats hnodup h
  by_cases hpos : 0 < (withStatus s q st).length
  · exact hset _ ((hmem st _).mpr ⟨h, hpos, rfl⟩)
  · have hnone : st ∉ groups.map Prod.fst := by
      intro hst
      obtain ⟨⟨st', n⟩, hgroup, heq⟩ := List.mem_map.mp hst
      subst heq
      obtain ⟨-, hn, rfl⟩ := (hmem _ n).mp hgroup
      exact hpos hn
    rw [hkeep hnone, hzero]
    omega

/-- The numbers of one queue are those of the state. -/
theorem statsOf_ends : Ends served s (statsOf q) fun x s' =>
    s' = s ∧ ∀ e, x = .ok e → e = shown s q := by
  unfold statsOf
  refine Prog.ends_step ?_ fun e s' h => ⟨h.1, fun _ hx => by cases hx⟩
  rintro normalLen s' ⟨rfl, hnormal⟩
  refine Prog.ends_step ?_ fun e s' h => ⟨h.1, fun _ hx => by cases hx⟩
  rintro highLen s' ⟨rfl, hhigh⟩
  refine Prog.ends_step ?_ fun e s' h => ⟨h.1, fun _ hx => by cases hx⟩
  rintro lowLen s' ⟨rfl, hlow⟩
  refine Prog.ends_step ?_ fun e s' h => ⟨h.1, fun _ hx => by cases hx⟩
  rintro active s' ⟨rfl, hactive⟩
  refine Prog.ends_step ?_ fun e s' h => ⟨h.1, fun _ hx => by cases hx⟩
  rintro groups s' ⟨rfl, hgroups⟩
  refine Prog.ends_pure ⟨rfl, fun e he => ?_⟩
  cases he
  obtain ⟨hname, hpending, hsame⟩ := foldl_note groups
    { name := q, pending := normalLen + highLen + lowLen, active, completed := 0, failed := 0,
      dlq := 0 }
  ext1
  · exact hname
  · rw [hpending, hnormal, hhigh, hlow]
    simp [shown, readyOf, readyKeys, Nat.add_assoc]
  · rw [hsame]
    exact hactive
  · exact of_groups hgroups .completed (Or.inl rfl) rfl
  · exact of_groups hgroups .failed (Or.inr (Or.inl rfl)) rfl
  · exact of_groups hgroups .dlq (Or.inr (Or.inr rfl)) rfl

/-- The numbers of some queues are those of the state. -/
theorem statsOfAll_ends (names : List QueueName) : Ends served s (statsOfAll names) fun x s' =>
    s' = s ∧ ∀ l, x = .ok l → l = names.map (shown s) := by
  induction names with
  | nil =>
      refine Prog.ends_pure ⟨rfl, fun l hl => ?_⟩
      cases hl
      rfl
  | cons name names ih =>
      refine Prog.ends_bind _ statsOf_ends ?_ fun e s' h => ⟨h.1, fun _ hx => by cases hx⟩
      rintro stats s' ⟨rfl, hstats⟩
      refine Prog.ends_bind _ ih ?_ fun e s' h => ⟨h.1, fun _ hx => by cases hx⟩
      rintro rest s' ⟨rfl, hrest⟩
      refine Prog.ends_pure ⟨rfl, fun l hl => ?_⟩
      cases hl
      rw [hstats stats rfl, hrest rest rfl, List.map_cons]

/-- **The response.**  It has the numbers of the state, for each registered queue once. -/
theorem get_ends : Ends served s get fun x s' => s' = s ∧ ∀ l, x = .ok l →
    ∃ names : List QueueName, names.Nodup ∧
      (∀ q, q ∈ names ↔ q ∈ s.redis.sets redisKeys.queueRegistry) ∧ l = names.map (shown s) := by
  refine Prog.ends_step ?_ fun e s' h => ⟨h.1, fun _ hx => by cases hx⟩
  rintro names s' ⟨rfl, hnodup, hmem⟩
  refine (statsOfAll_ends names).mono fun x s' h => ⟨h.1, fun l hl => ?_⟩
  exact ⟨names, hnodup, hmem, h.2 l hl⟩

end Response

/-! ## Every job is counted once -/

/-- The three ready lists of the queue are those of its jobs: a job belongs in one of them
exactly if it is a job of the queue.  This excludes a queue `q:high` beside `q`, and jobs of
`q` with a priority of their own, such as `urgent`, which wait in `queue:q:urgent`. -/
def OwnLists (s : World) (q : QueueName) : Prop :=
  ∀ r ∈ s.pg.rows, targetList r.queueName (priorityOf s r.id) ∈ readyKeys q ↔ r.queueName = q

instance (s : World) (q : QueueName) : Decidable (OwnLists s q) :=
  inferInstanceAs (Decidable (∀ r ∈ s.pg.rows, _ ↔ _))

/-- The jobs that wait in the delayed set of a queue. -/
def delayedOf (s : World) (q : QueueName) : List JobId :=
  (s.redis.zsets (redisKeys.delayed q)).rangeByScore none

/-- The jobs of a queue that are in one of its lists, or completed. -/
def settled (s : World) (q : QueueName) : List JobId :=
  readyOf s q ++ (delayedOf s q ++ ((withStatus s q .completed).map JobRow.id ++
    s.redis.lists (redisKeys.dlq q)))

/-- Where they are. -/
def placesOf (q : QueueName) : List Owner :=
  [.ready q, .ready (q ++ ":" ++ "high"), .ready (q ++ ":" ++ "low"), .delayed q, .completed,
    .dlq q]

section Counts

variable {s : World} {g : Ownership.Token → ℕ} {q : QueueName} {j : JobId} {r : JobRow}

theorem nodup_placesOf (q : QueueName) : (placesOf q).Nodup := by
  have hlen : ∀ p : String, q ++ ":" ++ p = q → False := by
    intro p hp
    have hlength := congrArg String.length hp
    rw [String.length_append, String.length_append] at hlength
    have hcolon : ":".length = 1 := rfl
    omega
  have hhigh : q ≠ q ++ ":" ++ "high" := fun h => hlen _ h.symm
  have hlow : q ≠ q ++ ":" ++ "low" := fun h => hlen _ h.symm
  have hne : q ++ ":" ++ "high" ≠ q ++ ":" ++ "low" := by
    intro h
    have hlength := congrArg String.length h
    rw [String.length_append, String.length_append (q ++ ":")] at hlength
    have hhigh : "high".length = 4 := rfl
    have hlow : "low".length = 3 := rfl
    omega
  simp only [placesOf, List.nodup_cons, List.mem_cons, Owner.ready.injEq, reduceCtorEq,
    List.not_mem_nil, or_false, not_or, List.nodup_nil, not_false_eq_true, and_true]
  exact ⟨⟨hhigh, hlow⟩, hne⟩

/-- A row is found by its id. -/
theorem row?_of_mem (h : r ∈ s.pg.rows) : s.pg.row? r.id = some r := by
  have hsome : (s.pg.row? r.id).isSome := by
    rw [← Option.ne_none_iff_isSome, ne_eq, Postgres.row?_eq_none_iff, not_not]
    exact List.mem_map_of_mem h
  obtain ⟨r', hr'⟩ := Option.isSome_iff_exists.mp hsome
  have hmem : r' ∈ s.pg.rows := List.mem_of_find?_eq_some hr'
  have heq : r' = r :=
    List.inj_on_of_nodup_map s.pg.primaryKey hmem h (Postgres.id_of_row? hr')
  rw [hr', heq]

theorem nodup_ids (s : World) (q : QueueName) (p : JobRow → Bool) :
    (((jobsOf s q).filter p).map JobRow.id).Nodup :=
  s.pg.primaryKey.sublist ((List.filter_sublist.trans List.filter_sublist).map JobRow.id)

theorem mem_withStatus {st : JobStatus} :
    r ∈ withStatus s q st ↔ r ∈ s.pg.rows ∧ r.queueName = q ∧ r.status = st := by
  rw [withStatus, jobsOf, List.mem_filter, List.mem_filter, decide_eq_true_eq,
    decide_eq_true_eq, and_assoc]

theorem mem_delayedOf : j ∈ delayedOf s q ↔ j ∈ s.redis.zsets (redisKeys.delayed q) := by
  rw [delayedOf, SortedSet.mem_rangeByScore]
  simp [Membership.mem]

/-- In a place of its own every job is counted once. -/
theorem nodup_settled (h : Balanced s g) (q : QueueName) : (settled s q).Nodup := by
  refine List.nodup_iff_count_le_one.mpr fun j => ?_
  have hone := (h.placed j).sum_le_one (nodup_placesOf q)
  have hready : (readyOf s q).count j = owned s g j (.ready q) +
      owned s g j (.ready (q ++ ":" ++ "high")) + owned s g j (.ready (q ++ ":" ++ "low")) := by
    simp [readyOf, readyKeys, owned, Nat.add_assoc]
  have hdelayed : (delayedOf s q).count j = owned s g j (.delayed q) := by
    have hnodup : (delayedOf s q).Nodup := SortedSet.nodup_rangeByScore _ _
    rw [hnodup.count]
    simp only [owned, mem_delayedOf]
  have hcompleted : ((withStatus s q .completed).map JobRow.id).count j ≤
      owned s g j .completed := by
    have hnodup : ((withStatus s q .completed).map JobRow.id).Nodup := nodup_ids s q _
    rw [hnodup.count]
    split
    · rename_i hmem
      obtain ⟨r, hr, rfl⟩ := List.mem_map.mp hmem
      obtain ⟨hr, -, hst⟩ := mem_withStatus.mp hr
      simp [owned, completed, row?_of_mem hr, hst]
    · exact Nat.zero_le _
  have hdlq : (s.redis.lists (redisKeys.dlq q)).count j = owned s g j (.dlq q) := rfl
  rw [settled, List.count_append, List.count_append, List.count_append, hready, hdelayed, hdlq]
  simp only [placesOf, List.map_cons, List.map_nil, List.sum_cons, List.sum_nil] at hone
  omega

/-- The rows whose status is not that of a job that waits. -/
def busyOf (s : World) (q : QueueName) : List JobRow :=
  (jobsOf s q).filter fun r => r.status ≠ .pending ∧ r.status ≠ .delayed

theorem length_busyOf (s : World) (q : QueueName) : (busyOf s q).length =
    (withStatus s q .active).length + (withStatus s q .completed).length +
      (withStatus s q .failed).length + (withStatus s q .dlq).length := by
  unfold busyOf withStatus
  induction jobsOf s q with
  | nil => rfl
  | cons r l ih =>
      simp only [List.filter_cons]
      cases hst : r.status <;> simp_all <;> omega

theorem mem_busyOf : r ∈ busyOf s q ↔
    r ∈ s.pg.rows ∧ r.queueName = q ∧ ¬ r.status.initial := by
  rw [busyOf, jobsOf, List.mem_filter, List.mem_filter, decide_eq_true_eq, decide_eq_true_eq,
    and_assoc, JobStatus.initial, not_or]

end Counts

section Run

variable {env : Env} {c : State} {q : QueueName} {j : JobId} {r : JobRow} {e : QueueStats}
  {l : List QueueStats} {s' : World}

/-- Operators aside, no request names jobs. -/
theorem dlqBound {a : Action} (h : FaultFree c a) : DlqBound c a := by
  cases a with
  | start t =>
      refine ⟨h.1, ?_⟩
      cases t <;> first | trivial | exact absurd trivial h.2
  | _ => trivial

/-- No job is requeued or retried under another spelling either. -/
theorem bound_of_reach (hc : (machine env).Reach FaultFree Blank c) :
    (machine env).Reach (DlqBoundBy AsPrinted) Blank c :=
  (Machine.Reach.spelled (fun _ _ h => h.2) hc).mono (fun _ _ h => ⟨dlqBound h.1, h.2⟩) fun _ => id

/-- What is in a list is a published job. -/
theorem enqueued_of_listed (hc : (machine env).Reach FaultFree Blank c)
    (hj : Identity.Listed c.store j) : c.store.enqueued j :=
  ((Identity.poolOk_of_faultFree hc).1.listed j hj).enqueued

/-- What holds of a published job. -/
theorem record (hc : (machine env).Reach FaultFree Blank c) (hj : c.store.enqueued j) :
    ∃ r ∈ c.store.pg.rows, r.id = j ∧ c.store.pg.row? j = some r ∧
      queueOf c.store j = some r.queueName := by
  have hnamed := Identity.named_of_dlqBound asPrinted_of_printed (bound_of_reach hc)
  have hrecorded := (Audit.audited asPrinted_of_printed hnamed).1
  obtain ⟨r, hr, hagrees⟩ := hrecorded.row j hj
  exact ⟨r, List.mem_of_find?_eq_some hr, Postgres.id_of_row? hr, hr, hagrees.queueName⟩

/-- A job in a list of the queue is a job of the queue. -/
theorem row_of_settled (hc : (machine env).Reach FaultFree Blank c) (hown : OwnLists c.store q)
    (hj : j ∈ settled c.store q) : ∃ r ∈ jobsOf c.store q, r.id = j := by
  have hbound := bound_of_reach hc
  have row : Identity.Listed c.store j → queueOf c.store j = some q →
      ∃ r ∈ jobsOf c.store q, r.id = j := by
    intro hlisted hq
    obtain ⟨r, hr, hid, -, hqueue⟩ := record hc (enqueued_of_listed hc hlisted)
    rw [hqueue, Option.some_inj] at hq
    exact ⟨r, List.mem_filter.mpr ⟨hr, by simpa using hq⟩, hid⟩
  rcases List.mem_append.mp hj with hready | hj
  · obtain ⟨k, hk, hmem⟩ := List.mem_flatMap.mp hready
    obtain ⟨x, rfl⟩ : ∃ x, k = .queue x := by
      simp only [readyKeys, List.mem_cons, List.not_mem_nil, or_false] at hk
      rcases hk with rfl | rfl | rfl <;> exact ⟨_, rfl⟩
    have hlisted : Identity.Listed c.store j := Or.inl ⟨x, hmem⟩
    obtain ⟨q', hq', hhome⟩ := Routing.home_of_ready hbound hmem
    refine row hlisted ?_
    obtain ⟨r, hr, hid, -, hqueue⟩ := record hc (enqueued_of_listed hc hlisted)
    rw [hq', Option.some_inj] at hqueue
    have heq := (hown r hr).mp (by rwa [hid, ← hqueue, ← hhome])
    rw [hq', hqueue, heq]
  · rcases List.mem_append.mp hj with hdelayed | hj
    · rw [mem_delayedOf] at hdelayed
      exact row (Or.inr (Or.inr (Or.inr ⟨q, hdelayed⟩)))
        (Routing.queueOf_of_delayed hbound hdelayed)
    · rcases List.mem_append.mp hj with hdone | hdead
      · obtain ⟨r, hr, rfl⟩ := List.mem_map.mp hdone
        exact ⟨r, List.mem_of_mem_filter hr, rfl⟩
      · exact row (Or.inr (Or.inr (Or.inl ⟨q, hdead⟩))) (Routing.queueOf_of_dlq hbound hdead)

/-- A job in a ready list of a queue is visible and has its first status, or that of a retry. -/
theorem initial_of_ready (hc : (machine env).Reach FaultFree Blank c)
    (hj : j ∈ readyOf c.store q) (hr : c.store.pg.row? j = some r) : r.status.initial := by
  obtain ⟨k, hk, hmem⟩ := List.mem_flatMap.mp hj
  obtain ⟨x, rfl⟩ : ∃ x, k = .queue x := by
    simp only [readyKeys, List.mem_cons, List.not_mem_nil, or_false] at hk
    rcases hk with rfl | rfl | rfl <;> exact ⟨_, rfl⟩
  have henqueued : c.store.enqueued j := enqueued_of_listed hc (Or.inl ⟨x, hmem⟩)
  exact Attempts.row_of_waiting hc henqueued (Or.inl ⟨x, hmem⟩) hr

/-- No job is counted twice. -/
theorem ready_add_busy_le (hc : (machine env).Reach FaultFree Blank c)
    (hown : OwnLists c.store q) :
    (readyOf c.store q).length + (busyOf c.store q).length ≤ (jobsOf c.store q).length := by
  have hsettled := nodup_settled (Attempts.poolOk_of_reach hc).1.balanced q
  have hdisjoint : (readyOf c.store q).Disjoint ((busyOf c.store q).map JobRow.id) := by
    intro j hready hbusy
    obtain ⟨r, hr, rfl⟩ := List.mem_map.mp hbusy
    obtain ⟨hmem, -, hst⟩ := mem_busyOf.mp hr
    exact hst (initial_of_ready hc hready (row?_of_mem hmem))
  have hnodup : (readyOf c.store q ++ (busyOf c.store q).map JobRow.id).Nodup :=
    List.Nodup.append hsettled.of_append_left (nodup_ids _ _ _) hdisjoint
  have hsub : readyOf c.store q ++ (busyOf c.store q).map JobRow.id ⊆
      (jobsOf c.store q).map JobRow.id := by
    intro j hj
    rw [List.mem_map]
    rcases List.mem_append.mp hj with hready | hbusy
    · exact row_of_settled hc hown (List.mem_append_left _ hready)
    · obtain ⟨r, hr, rfl⟩ := List.mem_map.mp hbusy
      exact ⟨r, List.mem_of_mem_filter hr, rfl⟩
  have hle := (List.subperm_of_subset hnodup hsub).length_le
  rwa [List.length_append, List.length_map, List.length_map] at hle

/-- A worker has pulled the job and not moved it on, or a scheduler has it in its hands. -/
def Held (env : Env) (c : State) (j : JobId) : Prop :=
  (∃ w, 0 < owners env c j (.processing w)) ∨ 0 < owners env c j .scheduler

/-- The published jobs of a queue that no process holds. -/
def resting (env : Env) (c : State) (q : QueueName) : Set JobRow :=
  {r | r ∈ jobsOf c.store q ∧ c.store.enqueued r.id ∧ ¬ Held env c r.id}

/-- The places of a queue hold what is counted. -/
theorem exists_place (env : Env) (hj : j ∈ settled c.store q) :
    ∃ o ∈ placesOf q, 0 < owners env c j o := by
  rcases List.mem_append.mp hj with hready | hj
  · obtain ⟨k, hk, hmem⟩ := List.mem_flatMap.mp hready
    simp only [readyKeys, List.mem_cons, List.not_mem_nil, or_false] at hk
    rcases hk with rfl | rfl | rfl
    · exact ⟨.ready q, by simp [placesOf], List.count_pos_iff.mpr hmem⟩
    · exact ⟨.ready (q ++ ":" ++ "high"), by simp [placesOf], List.count_pos_iff.mpr hmem⟩
    · exact ⟨.ready (q ++ ":" ++ "low"), by simp [placesOf], List.count_pos_iff.mpr hmem⟩
  · rcases List.mem_append.mp hj with hdelayed | hj
    · refine ⟨.delayed q, by simp [placesOf], ?_⟩
      simp [owners, owned, mem_delayedOf.mp hdelayed]
    · rcases List.mem_append.mp hj with hdone | hdead
      · obtain ⟨r, hr, rfl⟩ := List.mem_map.mp hdone
        obtain ⟨hr, -, hst⟩ := mem_withStatus.mp hr
        refine ⟨.completed, by simp [placesOf], ?_⟩
        simp [owners, owned, completed, row?_of_mem hr, hst]
      · exact ⟨.dlq q, by simp [placesOf], List.count_pos_iff.mpr hdead⟩

/-- What is counted is held by no process. -/
theorem not_held (hb : Balanced c.store (holders (custody env) Ownership.token c.pool))
    (hj : j ∈ settled c.store q) : c.store.enqueued j ∧ ¬ Held env c j := by
  obtain ⟨o, ho, hpos⟩ := exists_place env hj
  refine ⟨((hb.placed j).eq_single hpos).1, ?_⟩
  rintro (⟨w, hw⟩ | hhand)
  · have hzero := hb.unique hpos (.processing w) (by rintro rfl; simp [placesOf] at ho)
    exact absurd hzero hw.ne'
  · have hzero := hb.unique hpos .scheduler (by rintro rfl; simp [placesOf] at ho)
    exact absurd hzero hhand.ne'

/-- A job that no process holds is counted. -/
theorem settled_of_resting (hc : (machine env).Reach FaultFree Blank c)
    (hown : OwnLists c.store q) (hr : r ∈ resting env c q) : r.id ∈ settled c.store q := by
  obtain ⟨hrow, hj, hfree⟩ := hr
  have hbound := bound_of_reach hc
  obtain ⟨hmem, hq⟩ := List.mem_filter.mp hrow
  rw [decide_eq_true_eq] at hq
  have hqueue : queueOf c.store r.id = some q := by
    obtain ⟨r', -, -, hr', hqueue⟩ := record hc hj
    rw [row?_of_mem hmem, Option.some_inj] at hr'
    rw [hqueue, ← hr', hq]
  obtain ⟨o, ho⟩ := ((Ownership.balanced_of_reach hc).placed r.id).one hj
  have hpos : 0 < owners env c r.id o := by
    rw [owners, ho, Pi.single_eq_same]
    exact Nat.one_pos
  cases o with
  | ready x =>
      have hx : r.id ∈ c.store.redis.lists (.queue x) := List.count_pos_iff.mp hpos
      obtain ⟨q', hq', hhome⟩ := Routing.home_of_ready hbound hx
      rw [hqueue, Option.some_inj] at hq'
      subst hq'
      -- the list belongs to the queue, since the job does
      have hkey : Key.queue x ∈ readyKeys q := by
        rw [hhome, ← hq]
        have hlists := (hown r hmem).mpr hq
        rwa [← hq] at hlists
      exact List.mem_append_left _ (List.mem_flatMap.mpr ⟨_, hkey, hx⟩)
  | delayed q' =>
      have hx : r.id ∈ c.store.redis.zsets (redisKeys.delayed q') := by
        by_contra hnone
        simp [owners, owned, hnone] at hpos
      have hq' := Routing.queueOf_of_delayed hbound hx
      rw [hqueue, Option.some_inj] at hq'
      subst hq'
      exact List.mem_append_right _ (List.mem_append_left _ (mem_delayedOf.mpr hx))
  | processing w => exact absurd (Or.inl ⟨w, hpos⟩) hfree
  | scheduler => exact absurd (Or.inr hpos) hfree
  | dlq q' =>
      have hx : r.id ∈ c.store.redis.lists (redisKeys.dlq q') := List.count_pos_iff.mp hpos
      have hq' := Routing.queueOf_of_dlq hbound hx
      rw [hqueue, Option.some_inj] at hq'
      subst hq'
      exact List.mem_append_right _ (List.mem_append_right _ (List.mem_append_right _ hx))
  | completed =>
      have hdone : r.status = .completed := by
        by_contra hne
        simp [owners, owned, completed, row?_of_mem hmem, hne] at hpos
      refine List.mem_append_right _ (List.mem_append_right _ (List.mem_append_left _ ?_))
      exact List.mem_map_of_mem (mem_withStatus.mpr ⟨hmem, hq, hdone⟩)

/-- What is counted are the published jobs that no process holds. -/
theorem length_settled (hc : (machine env).Reach FaultFree Blank c)
    (hown : OwnLists c.store q) : (settled c.store q).length = (resting env c q).ncard := by
  have hb := Ownership.balanced_of_reach hc
  have himage : JobRow.id '' resting env c q = ((settled c.store q).toFinset : Set JobId) := by
    ext j
    rw [List.coe_toFinset, Set.mem_ofPred_eq]
    constructor
    · rintro ⟨r, hr, rfl⟩
      exact settled_of_resting hc hown hr
    · intro hj
      obtain ⟨r, hr, rfl⟩ := row_of_settled hc hown hj
      exact ⟨r, ⟨hr, not_held hb hj⟩, rfl⟩
  have hinj : Set.InjOn JobRow.id (resting env c q) := fun r hr r' hr' heq =>
    List.inj_on_of_nodup_map c.store.pg.primaryKey (List.mem_of_mem_filter hr.1)
      (List.mem_of_mem_filter hr'.1) heq
  rw [← hinj.ncard_image, himage, Set.ncard_coe_finset,
    List.toFinset_card_of_nodup (nodup_settled hb q)]

/-- When all calls have ended, the rows that are not those of jobs that wait are completed or
dead, and the dead ones are those of the dead-letter queue. -/
theorem busy_of_ended (hc : (machine env).Reach FaultFree Blank c)
    (hend : ∀ p ∈ c.pool, (∃ w i j, p.task = .processOne w i j) → Ended p) :
    (∀ r ∈ busyOf c.store q, r.status = .completed ∨ r.status = .dlq) ∧
      ((withStatus c.store q .dlq).map JobRow.id).Perm
        (c.store.redis.lists (redisKeys.dlq q)) := by
  have hco := (Identity.poolOk_of_faultFree hc).1
  have hbound := bound_of_reach hc
  have hbal := (Attempts.poolOk_of_reach hc).1.balanced
  have ended : ∀ r ∈ c.store.pg.rows, ¬ r.status.initial → r.status = .completed ∨
      r.status = .dlq ∧ ∃ q, r.id ∈ c.store.redis.lists (redisKeys.dlq q) := by
    intro r hr hst
    have hrow := row?_of_mem hr
    refine (Attempts.row_of_ended hc (hco.worked r.id r hrow hst) ?_ hrow).resolve_left hst
    rintro p hp ⟨w, i, ht⟩
    exact hend p hp ⟨w, i, _, ht⟩
  refine ⟨fun r hr => ?_, ?_⟩
  · obtain ⟨hmem, -, hst⟩ := mem_busyOf.mp hr
    exact (ended r hmem hst).imp_right And.left
  · have hnodup : (c.store.redis.lists (redisKeys.dlq q)).Nodup := by
      refine List.nodup_iff_count_le_one.mpr fun j => ?_
      simpa [owned] using (hbal.placed j).sum_le_one (l := [.dlq q]) (by simp)
    refine (List.perm_ext_iff_of_nodup (nodup_ids _ _ _) hnodup).mpr fun j => ?_
    rw [List.mem_map]
    constructor
    · rintro ⟨r, hr, rfl⟩
      obtain ⟨hmem, hq, hst⟩ := mem_withStatus.mp hr
      rcases ended r hmem (by rw [hst]; simp [JobStatus.initial]) with hdone | ⟨-, q', hq'⟩
      · rw [hst] at hdone
        cases hdone
      · -- it is in the dead-letter queue of its own queue
        have hlisted : Identity.Listed c.store r.id := Or.inr (Or.inr (Or.inl ⟨q', hq'⟩))
        obtain ⟨r', -, -, hr', hqueue⟩ := record hc (enqueued_of_listed hc hlisted)
        rw [row?_of_mem hmem, Option.some_inj] at hr'
        rw [Routing.queueOf_of_dlq hbound hq', Option.some_inj, ← hr', hq] at hqueue
        exact hqueue ▸ hq'
    · intro hj
      have hlisted : Identity.Listed c.store j := Or.inr (Or.inr (Or.inl ⟨q, hj⟩))
      obtain ⟨r, hr, hid, hrow, hqueue⟩ := record hc (enqueued_of_listed hc hlisted)
      rw [Routing.queueOf_of_dlq hbound hj, Option.some_inj] at hqueue
      refine ⟨r, mem_withStatus.mpr ⟨hr, hqueue.symm, ?_⟩, hid⟩
      exact (Attempts.told_of_reach hc (enqueued_of_listed hc hlisted)).dead q hj r hrow

/-- The numbers of a queue fit its jobs: none is counted twice; those that wait, are completed
or are dead are all the published ones that no process holds; and once all calls have ended
none is shown as active or failed, and as dead those in the dead-letter queue. -/
structure AddsUp (env : Env) (c : State) (e : QueueStats) : Prop where
  once : e.pending + e.active + e.completed + e.failed + e.dlq ≤ (jobsOf c.store e.name).length
  all : e.pending + (delayedOf c.store e.name).length + e.completed +
      (c.store.redis.lists (redisKeys.dlq e.name)).length = (resting env c e.name).ncard
  ended : (∀ p ∈ c.pool, (∃ w i j, p.task = .processOne w i j) → Ended p) →
    e.active = 0 ∧ e.failed = 0 ∧ e.dlq = (c.store.redis.lists (redisKeys.dlq e.name)).length

/-- **The statistics add up.**  In a reachable state of a run in which nothing fails, let a
request be served while nothing moves.  It lists each registered queue once, and the numbers
of a queue whose ready lists are those of its jobs fit them. -/
theorem stats_add_up (hc : (machine env).Reach FaultFree Blank c)
    (hget : Runs served c.store get (.ok l) s') :
    (l.map QueueStats.name).Nodup ∧
      (∀ q, q ∈ l.map QueueStats.name ↔ q ∈ c.store.redis.sets redisKeys.queueRegistry) ∧
      ∀ e ∈ l, OwnLists c.store e.name → AddsUp env c e := by
  obtain ⟨names, hnodup, hmem, rfl⟩ := (get_ends _ _ hget).2 l rfl
  have hnames : (names.map (shown c.store)).map QueueStats.name = names := by
    rw [List.map_map]
    exact List.map_id' names
  rw [hnames]
  refine ⟨hnodup, hmem, fun e he hown => ?_⟩
  obtain ⟨q, -, rfl⟩ := List.mem_map.mp he
  replace hown : OwnLists c.store q := hown
  refine ⟨?_, ?_, fun hend => ?_⟩
  · have hle := ready_add_busy_le hc hown
    rw [length_busyOf] at hle
    show (readyOf c.store q).length + (withStatus c.store q .active).length +
      (withStatus c.store q .completed).length + (withStatus c.store q .failed).length +
        (withStatus c.store q .dlq).length ≤ (jobsOf c.store q).length
    omega
  · have hlength : (settled c.store q).length = (readyOf c.store q).length +
        ((delayedOf c.store q).length + ((withStatus c.store q .completed).length +
          (c.store.redis.lists (redisKeys.dlq q)).length)) := by
      rw [settled, List.length_append, List.length_append, List.length_append, List.length_map]
    refine Eq.trans ?_ (length_settled hc hown)
    show (readyOf c.store q).length + (delayedOf c.store q).length +
      (withStatus c.store q .completed).length + (c.store.redis.lists (redisKeys.dlq q)).length =
        (settled c.store q).length
    omega
  · obtain ⟨hbusy, hperm⟩ := busy_of_ended (q := q) hc hend
    have hnone : ∀ st, ¬ st.initial → st ≠ .completed → st ≠ .dlq →
        (withStatus c.store q st).length = 0 := by
      intro st hst hcompleted hdlq
      refine List.length_eq_zero_iff.mpr (List.eq_nil_iff_forall_not_mem.mpr fun r hr => ?_)
      obtain ⟨hmem, hq, rfl⟩ := mem_withStatus.mp hr
      rcases hbusy r (mem_busyOf.mpr ⟨hmem, hq, hst⟩) with h | h
      · exact hcompleted h
      · exact hdlq h
    refine ⟨hnone .active ?_ (by simp) (by simp), hnone .failed ?_ (by simp) (by simp), ?_⟩
    · simp [JobStatus.initial]
    · simp [JobStatus.initial]
    · have hlength := hperm.length_eq
      rwa [List.length_map] at hlength

/-- The groups that Postgres finds. -/
theorem serves_groups (s : World) (q : QueueName) : Serves s (.countByStatus q)
    (.ok (([.completed, .failed, .dlq].map fun st => (st, (withStatus s q st).length)).filter
      fun g => 0 < g.2)) := by
  refine ⟨?_, fun st n => ?_⟩
  · refine List.Nodup.sublist (List.filter_sublist.map Prod.fst) ?_
    simp
  · simp only [List.mem_filter, List.mem_map, selects, List.mem_cons, List.not_mem_nil, or_false,
      decide_eq_true_eq, Prod.mk.injEq]
    constructor
    · rintro ⟨⟨st', hst, rfl, rfl⟩, hn⟩
      exact ⟨hst, hn, rfl⟩
    · rintro ⟨hst, hn, rfl⟩
      exact ⟨⟨st, hst, rfl, rfl⟩, hn⟩

/-- The request can always be served. -/
theorem exists_runs (s : World) : ∃ l, Runs served s get (.ok l) s := by
  have hlen : ∀ k, served s (.llen k) (.ok (s.redis.lists k).length) s := fun k => ⟨rfl, rfl⟩
  have hactive : ∀ q, served s (.countActive q) (.ok (withStatus s q .active).length) s :=
    fun q => ⟨rfl, rfl⟩
  have one : ∀ q, ∃ e, Runs served s (statsOf q) (.ok e) s := fun q =>
    ⟨_, .call (hlen _) (.call (hlen _) (.call (hlen _) (.call (hactive q)
      (.call ⟨rfl, serves_groups s q⟩ .ret))))⟩
  have all : ∀ names, ∃ l, Runs served s (statsOfAll names) (.ok l) s := by
    intro names
    induction names with
    | nil => exact ⟨[], .ret⟩
    | cons q names ih =>
        obtain ⟨e, he⟩ := one q
        obtain ⟨l, hl⟩ := ih
        exact ⟨e :: l, he.bind (hl.bind .ret)⟩
  have hnames : served s (.smembers redisKeys.queueRegistry)
      (.ok (s.redis.sets redisKeys.queueRegistry).toList) s :=
    ⟨rfl, Finset.nodup_toList _, fun q => Finset.mem_toList⟩
  obtain ⟨l, hl⟩ := all (s.redis.sets redisKeys.queueRegistry).toList
  exact ⟨l, .call hnames hl⟩

/-- The theorem on a run with a dead, a delayed and a waiting job, and one that a worker has
just pulled. -/
theorem stats_add_up_echo :
    ∃ c l, (machine sample).Reach FaultFree Blank c ∧ Runs served c.store get (.ok l) c.store ∧
      (jobsOf c.store "default").length = 4 ∧ OwnLists c.store "default" ∧
      Held sample c j3.text ∧
      (∀ p ∈ c.pool, (∃ w i j, p.task = .processOne w i j) → Ended p) ∧
      ∃ e ∈ l, e.name = "default" ∧ AddsUp sample c e := by
  obtain ⟨c, hc, ht⟩ := Machine.exists_reach (machine sample) FaultFree Blank blank_blank
    ([.start (.enqueue "echo" (some .null) { maxAttempts := some 1 }), .call 0 (.fresh j1)] ++
      goes 0 5 ++ [.start (.start "w1")] ++ goes 1 8 ++ goes 2 5 ++ goes 3 6 ++ throws 3 ++
      goes 3 9 ++
      [.start (.enqueue "echo" (some .null) { delay := some 1000 }), .call 4 (.fresh j2)] ++
      goes 4 6 ++
      [.start (.enqueue "echo" (some .null) { priority := some .high }), .call 5 (.fresh j3)] ++
      goes 5 5 ++ goes 2 1 ++ goes 6 3 ++
      [.start (.enqueue "echo" (some .null) {}), .call 7 (.fresh j4)] ++ goes 7 5)
    (fun c : State => decide ((jobsOf c.store "default").length = 4 ∧
      OwnLists c.store "default" ∧ 0 < owners sample c j3.text (.processing "w1") ∧
      "default" ∈ c.store.redis.sets redisKeys.queueRegistry) &&
      c.pool.all fun p => Attempts.called p.task = none || decide (Ended p))
    (by decide +kernel)
  rw [Bool.and_eq_true, decide_eq_true_eq] at ht
  obtain ⟨⟨hjobs, hown, hheld, hregistered⟩, hended⟩ := ht
  obtain ⟨l, hl⟩ := exists_runs c.store
  obtain ⟨-, hnames, hadds⟩ := stats_add_up hc hl
  obtain ⟨e, he, hname⟩ := List.mem_map.mp ((hnames "default").mpr hregistered)
  refine ⟨c, l, hc, hl, hjobs, hown, Or.inl ⟨"w1", hheld⟩, ?_, e, he, hname,
    hadds e he (hname ▸ hown)⟩
  rintro p hp ⟨w, i, j, ht⟩
  simpa [ht, Attempts.called] using List.all_eq_true.mp hended p hp

end Run

end Statistics

end NexusQueue
