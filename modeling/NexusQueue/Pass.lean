/-
# A promotion pass

`promoteDelayedJobs`, running alone, for any number of queues and jobs.  One promotion is a
function of the world (`promoted`), so a pass folds it over the jobs that are due, queue by
queue.  What the pass does to the delayed sets, the ready lists and the hashes is read off
that fold, and together it is exactly what was due (`promotes_due`).
-/
import NexusQueue.Sequential

namespace NexusQueue

open Prog (Completes)

namespace Pass

variable {env : Env} {t : Task} {s s' : World} {q : QueueName} {j : JobId}

/-- The jobs of a queue that are due, in order of their scores. -/
def due (s : World) (q : QueueName) : List JobId :=
  (s.redis.zsets (redisKeys.delayed q)).rangeByScore (some (s.clock : ℚ))

/-- The ready list for a queue and the priority in a job's hash. -/
def home (s : World) (q : QueueName) (j : JobId) : Key :=
  targetList q ((s.redis.jobs (redisKeys.job j)).priority.getD "normal")

/-- A job has been taken from its delayed set and pushed to its ready list. -/
def promoted (q : QueueName) (s : World) (j : JobId) : World :=
  { s with redis :=
      { s.redis with
        zsets := Function.update s.redis.zsets (redisKeys.delayed q)
          ((s.redis.zsets (redisKeys.delayed q)).zrem j)
        lists := Function.update s.redis.lists (home s q j) (j :: s.redis.lists (home s q j))
        jobs := Function.update s.redis.jobs (redisKeys.job j)
          ((s.redis.jobs (redisKeys.job j)).merge { status := some .pending }) } }

/-- One promotion, of a queue and a job. -/
def step (s : World) (a : QueueName × JobId) : World := promoted a.1 s a.2

/-- Nothing else changes. -/
theorem frame_foldl (l : List (QueueName × JobId)) (s : World) :
    l.foldl step s = { s with redis :=
      { s.redis with
        zsets := (l.foldl step s).redis.zsets
        lists := (l.foldl step s).redis.lists
        jobs := (l.foldl step s).redis.jobs } } := by
  induction l generalizing s with
  | nil => rfl
  | cons a l ih =>
      rw [List.foldl_cons]
      exact ih (step s a)

/-! ## The loops -/

/-- A job that is in its delayed set is promoted. -/
theorem promoteJob_completes (hup : t.host.elim false s.down = false)
    (hj : j ∈ s.redis.zsets (redisKeys.delayed q)) :
    Completes (alone env t) (fun _ => True) s (Scheduler.promoteJob q j)
      fun x s' => x = .ok () ∧ s' = promoted q s j := by
  refine completes_answered hup trivial rfl (fun _ => rfl) ?_
  rw [show (s.redis.zrem (redisKeys.delayed q) j).1 = 1 by rw [Redis.zrem_fst, if_pos hj],
    if_neg (by decide), Redis.zrem_snd]
  refine completes_answered hup trivial rfl (fun _ => rfl) ?_
  refine completes_answered hup trivial rfl (fun _ => rfl) ?_
  exact completes_last hup trivial rfl (fun _ => rfl) ⟨rfl, rfl⟩

/-- The due jobs of one queue are promoted one after the other. -/
def promotedAll (s : World) (q : QueueName) : World := (due s q).foldl (promoted q) s

theorem promotedAll_eq (s : World) (q : QueueName) :
    promotedAll s q = ((due s q).map (Prod.mk q)).foldl step s := by
  rw [List.foldl_map]
  rfl

theorem clock_promotedAll (s : World) (q : QueueName) : (promotedAll s q).clock = s.clock := by
  rw [promotedAll_eq, frame_foldl]

theorem down_promotedAll (s : World) (q : QueueName) : (promotedAll s q).down = s.down := by
  rw [promotedAll_eq, frame_foldl]

theorem promoteQueue_completes (hup : t.host.elim false s.down = false) {now : ℕ}
    (hnow : s.clock = now) :
    Completes (alone env t) (fun _ => True) s (Scheduler.promoteQueue now q)
      fun x s' => x = .ok () ∧ s' = promotedAll s q := by
  subst hnow
  refine completes_answered hup trivial rfl (fun _ => rfl) ?_
  -- a job is in the set until it is its turn, and it has one turn only
  refine Prog.completes_forEach_foldl (fun rest s₁ => rest.Nodup ∧ s₁.down = s.down ∧
    ∀ j ∈ rest, j ∈ s₁.redis.zsets (redisKeys.delayed q)) ?_ _ _ ⟨?_, rfl, ?_⟩
  · rintro j rest s₁ ⟨hnodup, hdown, hmem⟩
    obtain ⟨hj, hrest⟩ := List.nodup_cons.mp hnodup
    refine ⟨⟨hrest, hdown, fun j' hj' => ?_⟩, ?_⟩
    · have hne : j' ≠ j := by
        rintro rfl
        exact hj hj'
      simpa [promoted, hne] using hmem j' (List.mem_cons_of_mem _ hj')
    · exact promoteJob_completes (by rwa [hdown]) (hmem j List.mem_cons_self)
  · exact SortedSet.nodup_rangeByScore _ _
  · intro j hj
    obtain ⟨score, hscore, -⟩ := (SortedSet.mem_rangeByScore _ _ _).mp hj
    exact ⟨score, hscore⟩

/-- The queues are promoted one after the other. -/
theorem promoteDelayedJobs_completes (hup : t.host.elim false s.down = false) :
    Completes (alone env t) (fun _ => True) s Scheduler.promoteDelayedJobs fun x s' =>
      x = .ok () ∧ ∃ queues : List QueueName, queues.Nodup ∧
        queues.toFinset = s.redis.sets redisKeys.queueRegistry ∧ s' = queues.foldl promotedAll s := by
  refine completes_smembers hup trivial fun queues hnodup hset => ?_
  refine completes_answered hup trivial rfl (fun _ => rfl) ?_
  refine (Prog.completes_forEach_foldl (g := promotedAll)
    (fun _ s' => s'.down = s.down ∧ s'.clock = s.clock) ?_ queues s ⟨rfl, rfl⟩).mono ?_
  · rintro q rest s' ⟨hdown, hclock⟩
    refine ⟨?_, promoteQueue_completes (by rwa [hdown]) hclock⟩
    exact ⟨(down_promotedAll s' q).trans hdown, (clock_promotedAll s' q).trans hclock⟩
  · rintro x s' ⟨hx, hs'⟩
    exact ⟨hx, queues, hnodup, hset, hs'⟩

/-! ## One list of promotions -/

/-- All promotions of a pass. -/
def batch (s : World) (queues : List QueueName) : List (QueueName × JobId) :=
  queues.flatMap fun q => (due s q).map (Prod.mk q)

/-- A promotion in one queue leaves the delayed sets of the others alone. -/
theorem zsets_step_of_ne {a : QueueName × JobId} {k : Key} (hk : k ≠ redisKeys.delayed a.1) :
    (step s a).redis.zsets k = s.redis.zsets k :=
  Function.update_of_ne hk _ _

theorem zsets_foldl_of_ne {k : Key} (l : List (QueueName × JobId)) (s : World)
    (hk : ∀ a ∈ l, k ≠ redisKeys.delayed a.1) :
    (l.foldl step s).redis.zsets k = s.redis.zsets k := by
  induction l generalizing s with
  | nil => rfl
  | cons a l ih =>
      rw [List.foldl_cons, ih _ fun b hb => hk b (List.mem_cons_of_mem _ hb)]
      exact zsets_step_of_ne (hk a List.mem_cons_self)

/-- What is due in the queues still to come is not touched, so all promotions can be listed
in advance. -/
theorem foldl_batch (s₀ : World) (queues : List QueueName) (hnodup : queues.Nodup) (s : World)
    (hdue : ∀ q ∈ queues, due s q = due s₀ q) :
    queues.foldl promotedAll s = (batch s₀ queues).foldl step s := by
  induction queues generalizing s with
  | nil => rfl
  | cons q queues ih =>
      obtain ⟨hq, hrest⟩ := List.nodup_cons.mp hnodup
      have hfirst : promotedAll s q = ((due s₀ q).map (Prod.mk q)).foldl step s := by
        rw [promotedAll_eq, hdue q List.mem_cons_self]
      have hbatch : batch s₀ (q :: queues) =
          (due s₀ q).map (Prod.mk q) ++ batch s₀ queues := List.flatMap_cons
      rw [List.foldl_cons, hbatch, List.foldl_append, ← hfirst]
      refine ih hrest _ fun q' hq' => ?_
      have hkeep : (promotedAll s q).redis.zsets (redisKeys.delayed q') =
          s.redis.zsets (redisKeys.delayed q') := by
        rw [hfirst]
        refine zsets_foldl_of_ne _ _ fun a ha hkey => hq ?_
        obtain ⟨j, -, rfl⟩ := List.mem_map.mp ha
        rwa [Key.delayed.inj hkey] at hq'
      rw [← hdue q' (List.mem_cons_of_mem _ hq'), due, due, hkeep, clock_promotedAll]

/-- The delayed sets afterwards. -/
theorem score?_foldl (l : List (QueueName × JobId)) (s : World) (q : QueueName) (j : JobId) :
    ((l.foldl step s).redis.zsets (redisKeys.delayed q)).score? j =
      if (q, j) ∈ l then none else (s.redis.zsets (redisKeys.delayed q)).score? j := by
  induction l generalizing s with
  | nil => simp
  | cons a l ih =>
      obtain ⟨q', j'⟩ := a
      rw [List.foldl_cons, ih]
      by_cases hl : (q, j) ∈ l
      · rw [if_pos hl, if_pos (List.mem_cons_of_mem _ hl)]
      · rw [if_neg hl]
        by_cases hq : q = q'
        · subst hq
          show (Function.update s.redis.zsets _ _ (redisKeys.delayed q)).score? j = _
          rw [Function.update_self, SortedSet.score?_zrem]
          by_cases hj : j = j'
          · rw [if_pos hj, if_pos (by rw [hj]; exact List.mem_cons_self)]
          · rw [if_neg hj, if_neg (by simp [hj, hl])]
        · rw [zsets_step_of_ne fun hkey => hq (Key.delayed.inj hkey), if_neg (by simp [hq, hl])]

/-- A promotion does not change where a job belongs. -/
theorem home_step (s : World) (a : QueueName × JobId) (q : QueueName) (j : JobId) :
    home (step s a) q j = home s q j := by
  have hpriority : ((step s a).redis.jobs (redisKeys.job j)).priority =
      (s.redis.jobs (redisKeys.job j)).priority := by
    show (Function.update s.redis.jobs (redisKeys.job a.2) _ (redisKeys.job j)).priority = _
    by_cases hj : j = a.2
    · subst hj
      rw [Function.update_self]
      rfl
    · rw [Function.update_of_ne fun hkey => hj (Key.job.inj hkey)]
  rw [home, home, hpriority]

/-- The ready lists afterwards: the last promotion is at the head. -/
theorem lists_foldl (l : List (QueueName × JobId)) (s : World) (k : Key) :
    (l.foldl step s).redis.lists k =
      ((l.filter fun a => home s a.1 a.2 = k).map Prod.snd).reverse ++ s.redis.lists k := by
  induction l generalizing s with
  | nil => rfl
  | cons a l ih =>
      rw [List.foldl_cons, ih]
      simp only [home_step]
      by_cases hk : home s a.1 a.2 = k
      · have hpush : (step s a).redis.lists k = a.2 :: s.redis.lists k := by
          rw [← hk]
          exact Function.update_self ..
        rw [hpush, List.filter_cons_of_pos (by simpa using hk), List.map_cons, List.reverse_cons,
          List.append_assoc]
        rfl
      · have hkeep : (step s a).redis.lists k = s.redis.lists k :=
          Function.update_of_ne (fun hkey => hk hkey.symm) _ _
        rw [hkeep, List.filter_cons_of_neg (by simpa using hk)]

/-- The hashes afterwards. -/
theorem jobs_foldl (l : List (QueueName × JobId)) (s : World) (k : Key) :
    (l.foldl step s).redis.jobs k =
      if ∃ a ∈ l, k = redisKeys.job a.2 then
        (s.redis.jobs k).merge { status := some .pending }
      else s.redis.jobs k := by
  induction l generalizing s with
  | nil => simp
  | cons a l ih =>
      rw [List.foldl_cons, ih]
      by_cases hk : k = redisKeys.job a.2
      · have hwrite : (step s a).redis.jobs k =
            (s.redis.jobs k).merge { status := some .pending } := by
          rw [hk]
          exact Function.update_self ..
        rw [hwrite, if_pos (show ∃ b ∈ a :: l, k = redisKeys.job b.2 from
          ⟨a, List.mem_cons_self, hk⟩)]
        split
        · rfl
        · rfl
      · have hkeep : (step s a).redis.jobs k = s.redis.jobs k := Function.update_of_ne hk _ _
        rw [hkeep]
        simp only [List.mem_cons, exists_eq_or_imp, hk, false_or]

/-! ## The pass -/

/-- The jobs a pass pushes to a list, first one first. -/
def pushes (s : World) (queues : List QueueName) (k : Key) : List JobId :=
  queues.flatMap fun q => (due s q).filter fun j => home s q j = k

theorem pushes_eq (s : World) (queues : List QueueName) (k : Key) :
    ((batch s queues).filter fun a => home s a.1 a.2 = k).map Prod.snd = pushes s queues k := by
  unfold batch pushes
  rw [List.filter_flatMap, List.map_flatMap]
  congr 1
  funext q
  rw [List.filter_map, List.map_map]
  exact List.map_id' _

theorem mem_batch {s : World} {queues : List QueueName} :
    (q, j) ∈ batch s queues ↔ q ∈ queues ∧ j ∈ due s q := by
  simp [batch]

/-- A job is due if its score is not after the clock. -/
theorem mem_due : j ∈ due s q ↔
    ∃ x, (s.redis.zsets (redisKeys.delayed q)).score? j = some x ∧ x ≤ s.clock := by
  simp [due, SortedSet.mem_rangeByScore]

/-- A job is pushed to a list as often as it is due in a queue for which that is its list. -/
theorem count_pushes {queues : List QueueName} (hnodup : queues.Nodup) (k : Key) (j : JobId) :
    (pushes s queues k).count j =
      (queues.toFinset.filter fun q => j ∈ due s q ∧ home s q j = k).card := by
  have hone : ∀ q, ((due s q).filter fun j => home s q j = k).count j =
      if j ∈ due s q ∧ home s q j = k then 1 else 0 := by
    intro q
    have hdue : ((due s q).filter fun j => home s q j = k).Nodup :=
      (SortedSet.nodup_rangeByScore _ _).filter _
    rw [hdue.count]
    simp only [List.mem_filter, decide_eq_true_eq]
  rw [pushes, List.count_flatMap, Finset.card_filter, List.sum_toFinset _ hnodup]
  congr 1
  refine List.map_congr_left fun q _ => ?_
  exact hone q

/-- What a promotion pass has done: exactly what was due, and in order. -/
structure PromotedDue (s s' : World) : Prop where
  /-- In the queues that are registered, the members that were due are gone. -/
  removed : ∀ q ∈ s.redis.sets redisKeys.queueRegistry, ∀ j,
    (s'.redis.zsets (redisKeys.delayed q)).score? j =
      ((s.redis.zsets (redisKeys.delayed q)).score? j).filter fun x => (s.clock : ℚ) < x
  /-- The other sorted sets are as before. -/
  kept : ∀ k, (∀ q ∈ s.redis.sets redisKeys.queueRegistry, k ≠ redisKeys.delayed q) →
    s'.redis.zsets k = s.redis.zsets k
  /-- Each of them has been pushed once to its list, and behind what was there. -/
  pushed : ∀ k, ∃ new, s'.redis.lists k = new ++ s.redis.lists k ∧
    (∀ j, new.count j = ((s.redis.sets redisKeys.queueRegistry).filter fun q =>
      j ∈ due s q ∧ home s q j = k).card) ∧
    ∀ q ∈ s.redis.sets redisKeys.queueRegistry,
      ((due s q).filter fun j => home s q j = k).reverse.Sublist new
  /-- The jobs of a queue come in order of their scores. -/
  ordered : ∀ q, (due s q).Pairwise fun j j' => ∀ x x',
    (s.redis.zsets (redisKeys.delayed q)).score? j = some x →
      (s.redis.zsets (redisKeys.delayed q)).score? j' = some x' → x ≤ x'
  /-- The status in the hash of each is `pending`, and nothing else in it has changed. -/
  hash : ∀ j, s'.redis.jobs (redisKeys.job j) =
    if ∃ q ∈ s.redis.sets redisKeys.queueRegistry, j ∈ due s q then
      { s.redis.jobs (redisKeys.job j) with status := some .pending }
    else s.redis.jobs (redisKeys.job j)
  otherHashes : ∀ k, (∀ j, k ≠ redisKeys.job j) → s'.redis.jobs k = s.redis.jobs k
  /-- Everything else is as before. -/
  frame : s' = { s with redis :=
    { s.redis with
      zsets := s'.redis.zsets
      lists := s'.redis.lists
      jobs := s'.redis.jobs } }

theorem promotedDue_foldl {queues : List QueueName} (hnodup : queues.Nodup)
    (hset : queues.toFinset = s.redis.sets redisKeys.queueRegistry) :
    PromotedDue s (queues.foldl promotedAll s) := by
  have hmem : ∀ q, q ∈ s.redis.sets redisKeys.queueRegistry ↔ q ∈ queues := by
    intro q
    rw [← hset, List.mem_toFinset]
  rw [foldl_batch s queues hnodup s fun _ _ => rfl]
  refine ⟨fun q hq j => ?_, fun k hk => ?_, fun k => ?_, fun q => ?_, fun j => ?_, fun k hk => ?_,
    frame_foldl _ _⟩
  · rw [score?_foldl]
    cases hscore : (s.redis.zsets (redisKeys.delayed q)).score? j with
    | none => simp
    | some x =>
        by_cases hx : x ≤ s.clock
        · rw [if_pos (mem_batch.mpr ⟨(hmem q).mp hq, mem_due.mpr ⟨x, hscore, hx⟩⟩),
            Option.filter_some, if_neg (by simpa using hx)]
        · have hlate : (q, j) ∉ batch s queues := by
            intro hdue
            obtain ⟨x', hx', hle⟩ := mem_due.mp (mem_batch.mp hdue).2
            rw [hscore] at hx'
            cases hx'
            exact hx hle
          rw [if_neg hlate, Option.filter_some, if_pos (by simpa using hx)]
  · refine zsets_foldl_of_ne _ _ fun a ha hkey => hk a.1 ?_ hkey
    exact (hmem _).mpr (mem_batch.mp ha).1
  · refine ⟨(pushes s queues k).reverse, ?_, fun j => ?_, fun q hq => ?_⟩
    · rw [lists_foldl, pushes_eq]
    · rw [List.count_reverse, count_pushes hnodup, hset]
    · refine List.Sublist.reverse (List.sublist_flatten_of_mem ?_)
      exact List.mem_map.mpr ⟨q, (hmem q).mp hq, rfl⟩
  · exact SortedSet.pairwise_rangeByScore _ _
  · rw [jobs_foldl]
    have hiff : (∃ a ∈ batch s queues, redisKeys.job j = redisKeys.job a.2) ↔
        ∃ q ∈ s.redis.sets redisKeys.queueRegistry, j ∈ due s q := by
      constructor
      · rintro ⟨⟨q, j'⟩, ha, hkey⟩
        cases Key.job.inj hkey
        exact ⟨q, (hmem q).mpr (mem_batch.mp ha).1, (mem_batch.mp ha).2⟩
      · rintro ⟨q, hq, hj⟩
        exact ⟨(q, j), mem_batch.mpr ⟨(hmem q).mp hq, hj⟩, rfl⟩
    by_cases hdue : ∃ q ∈ s.redis.sets redisKeys.queueRegistry, j ∈ due s q
    · rw [if_pos hdue, if_pos (hiff.mpr hdue)]
      rfl
    · rw [if_neg hdue, if_neg fun h => hdue (hiff.mp h)]
  · rw [jobs_foldl, if_neg]
    rintro ⟨a, -, hkey⟩
    exact hk a.2 hkey

/-- **A promotion pass that runs alone ends, and has promoted exactly what was due.** -/
theorem promotes_due (s : World) :
    Completes (alone env .tick) (fun _ => True) s Scheduler.promoteDelayedJobs fun x s' =>
      x = .ok () ∧ PromotedDue s s' := by
  refine (promoteDelayedJobs_completes rfl).mono ?_
  rintro x s' ⟨hx, queues, hnodup, hset, rfl⟩
  exact ⟨hx, promotedDue_foldl hnodup hset⟩

end Pass

end NexusQueue
