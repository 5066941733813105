/-
# A sweep of the janitor

`Janitor.tick`, running alone, for any workers and any content of their processing lists.
What it does is a list of repairs, made before the first of them is carried out: for every
dead worker one push for each entry of its processing list, and then its removal.  The
stores afterwards are read off that list, entry by entry and with multiplicities
(`recovers_dead`).  All entries must spell uuids: at one that does not the `UPDATE` throws, and
the sweep ends (`broken_off`).
-/
import NexusQueue.Sequential

namespace NexusQueue

open Prog (Completes)

namespace Sweep

variable {env : Env} {t : Task} {s s' : World} {w : WorkerId} {j : JobId}

/-- The ready list that a job's hash gives. -/
def home (s : World) (j : JobId) : Key :=
  targetList ((s.redis.jobs (redisKeys.job j)).queueName.getD "default")
    ((s.redis.jobs (redisKeys.job j)).priority.getD "normal")

/-- What the sweep does, one job or one worker at a time. -/
inductive Repair where
  | push (j : JobId)
  | remove (w : WorkerId)
  deriving DecidableEq

/-- The hash of a job that is pending again. -/
def reset (h : JobHash) : JobHash :=
  { h with status := some .pending, startedAt := some .blank, completedAt := some .blank }

/-- The row of a job that is pending again. -/
def resetRow (r : JobRow) : JobRow :=
  { r with status := .pending, startedAt := none, completedAt := none }

/-- What is deleted of a dead worker. -/
def removal (w : WorkerId) : List Write :=
  [.del (redisKeys.processing w), .srem redisKeys.workerRegistry w,
    .del (redisKeys.workerMeta w)]

/-- The world after a repair. -/
def repair (s : World) : Repair → World
  | .push j =>
      { s with
        redis :=
          { s.redis with
            lists := Function.update s.redis.lists (home s j) (j :: s.redis.lists (home s j))
            jobs := Function.update s.redis.jobs (redisKeys.job j)
              (reset (s.redis.jobs (redisKeys.job j))) }
        pg := s.pg.update s.clock j
          { status := .pending, startedAt := .null, completedAt := .null } }
  | .remove w =>
      { s with
        redis := s.redis.multi s.clock (removal w) }

/-- Repairs concern the stores. -/
theorem frame_foldl (l : List Repair) (s : World) :
    l.foldl repair s = { s with
      redis := (l.foldl repair s).redis
      pg := (l.foldl repair s).pg } := by
  induction l generalizing s with
  | nil => rfl
  | cons a l ih =>
      rw [List.foldl_cons, ih]
      cases a with
      | push j => rfl
      | remove w => rfl

theorem down_foldl (l : List Repair) (s : World) : (l.foldl repair s).down = s.down := by
  rw [frame_foldl]

theorem clock_foldl (l : List Repair) (s : World) : (l.foldl repair s).clock = s.clock := by
  rw [frame_foldl]

/-! ## The loops -/

theorem recoverJob_completes (hj : (Uuid.normal j).isSome = true)
    (hup : t.host.elim false s.down = false) :
    Completes (alone env t) (fun _ => True) s (Janitor.recoverJob j)
      fun x s' => x = .ok () ∧ s' = repair s (.push j) := by
  refine completes_answered hup trivial rfl (fun _ => rfl) ?_
  refine completes_answered hup trivial rfl (fun _ => rfl) ?_
  refine completes_answered hup trivial rfl (fun _ => rfl) ?_
  refine completes_last hup trivial ?_ (fun _ => rfl) ⟨rfl, rfl⟩
  show (Uuid.normal j).isNone = false
  rw [← Option.not_isSome, hj]
  rfl

/-- The repairs for one worker, if it is dead. -/
def repairs (s : World) (w : WorkerId) : List Repair :=
  if s.beats w then []
  else (s.redis.lists (redisKeys.processing w)).map .push ++ [.remove w]

/-- The processing list of a worker, if it is dead, holds uuids. -/
def Spelled (s : World) (w : WorkerId) : Prop :=
  ¬ s.beats w → ∀ j ∈ s.redis.lists (redisKeys.processing w), (Uuid.normal j).isSome = true

instance (s : World) (w : WorkerId) : Decidable (Spelled s w) :=
  inferInstanceAs (Decidable (_ → ∀ _ ∈ _, _))

theorem recoverWorker_completes (hread : Spelled s w) (hup : t.host.elim false s.down = false) :
    Completes (alone env t) (fun _ => True) s (Janitor.recoverWorker w)
      fun x s' => x = .ok () ∧ s' = (repairs s w).foldl repair s := by
  refine completes_answered hup trivial rfl (fun _ => rfl) ?_
  unfold repairs
  by_cases hbeats : s.beats w
  · rw [if_pos hbeats, if_pos (show (s.redis.get s.clock (redisKeys.heartbeat w)).isSome = true
      from hbeats)]
    exact Prog.completes_pure ⟨rfl, rfl⟩
  · rw [if_neg hbeats, if_neg (show ¬ (s.redis.get s.clock (redisKeys.heartbeat w)).isSome = true
      from hbeats)]
    refine completes_answered hup trivial rfl (fun _ => rfl) ?_
    rw [Redis.lrange_all, List.foldl_append, List.foldl_map]
    refine Prog.completes_bind _ (Prog.completes_forEach_foldl
      (g := fun s j => repair s (.push j)) (fun rest s₁ => s₁.down = s.down ∧
        ∀ j ∈ rest, (Uuid.normal j).isSome = true) ?_ _ _ ⟨rfl, hread hbeats⟩) ?_ ?_
    · rintro j rest s₁ ⟨hdown, hrest⟩
      refine ⟨⟨hdown, fun i hi => hrest i (List.mem_cons_of_mem _ hi)⟩, ?_⟩
      exact recoverJob_completes (hrest j List.mem_cons_self) (by rwa [hdown])
    · rintro a s₁ ⟨-, hs₁⟩
      have hup₁ : t.host.elim false s₁.down = false := by
        rw [hs₁, ← List.foldl_map, down_foldl]
        exact hup
      rw [← hs₁]
      refine completes_answered hup₁ trivial rfl (fun _ => rfl) ?_
      refine completes_answered hup₁ trivial rfl (fun _ => rfl) ?_
      exact completes_last hup₁ trivial rfl (fun _ => rfl) ⟨rfl, rfl⟩
    · rintro e s₁ ⟨he, -⟩
      cases he

/-! ## The stores after a list of repairs -/

/-- A repair does not change where a job belongs. -/
theorem home_repair (s : World) (a : Repair) (j : JobId) : home (repair s a) j = home s j := by
  cases a with
  | push j' =>
      have hkeep : ((repair s (.push j')).redis.jobs (redisKeys.job j)).queueName =
            (s.redis.jobs (redisKeys.job j)).queueName ∧
          ((repair s (.push j')).redis.jobs (redisKeys.job j)).priority =
            (s.redis.jobs (redisKeys.job j)).priority := by
        by_cases hj : j = j'
        · subst hj
          simp [repair, reset]
        · simp [repair, Function.update_of_ne fun hkey => hj (Key.job.inj hkey)]
      rw [home, home, hkeep.1, hkeep.2]
  | remove w => simp [home, repair, removal, Redis.multi, Write.apply]

/-- The jobs that are pushed. -/
def pushed (l : List Repair) : List JobId :=
  l.filterMap fun a => match a with
    | .push j => some j
    | .remove _ => none

/-- The ready lists: the last push is at the head. -/
theorem lists_queue (l : List Repair) (s : World) (x : String) :
    (l.foldl repair s).redis.lists (.queue x) =
      ((pushed l).filter fun j => home s j = .queue x).reverse ++ s.redis.lists (.queue x) := by
  induction l generalizing s with
  | nil => rfl
  | cons a l ih =>
      rw [List.foldl_cons, ih]
      simp only [home_repair]
      cases a with
      | push j =>
          show _ = ((j :: pushed l).filter fun j => home s j = .queue x).reverse ++ _
          by_cases hx : home s j = .queue x
          · have hpush : (repair s (.push j)).redis.lists (.queue x) =
                j :: s.redis.lists (.queue x) := by
              rw [← hx]
              exact Function.update_self ..
            rw [hpush, List.filter_cons_of_pos (by simpa using hx), List.reverse_cons,
              List.append_assoc]
            rfl
          · have hkeep : (repair s (.push j)).redis.lists (.queue x) =
                s.redis.lists (.queue x) := Function.update_of_ne (fun hkey => hx hkey.symm) _ _
            rw [hkeep, List.filter_cons_of_neg (by simpa using hx)]
      | remove w =>
          have hkeep : (repair s (.remove w)).redis.lists (.queue x) =
              s.redis.lists (.queue x) := by
            simp [repair, removal, Redis.multi, Write.apply]
          rw [hkeep]
          rfl

/-- The hashes of jobs. -/
theorem jobs_job (l : List Repair) (s : World) (j : JobId) :
    (l.foldl repair s).redis.jobs (redisKeys.job j) =
      if .push j ∈ l then reset (s.redis.jobs (redisKeys.job j))
      else s.redis.jobs (redisKeys.job j) := by
  induction l generalizing s with
  | nil => simp
  | cons a l ih =>
      rw [List.foldl_cons, ih]
      cases a with
      | push j' =>
          by_cases hj : j = j'
          · subst hj
            have hwrite : (repair s (.push j)).redis.jobs (redisKeys.job j) =
                reset (s.redis.jobs (redisKeys.job j)) := Function.update_self ..
            rw [hwrite, if_pos (show Repair.push j ∈ .push j :: l from List.mem_cons_self)]
            split
            · rfl
            · rfl
          · have hkeep : (repair s (.push j')).redis.jobs (redisKeys.job j) =
                s.redis.jobs (redisKeys.job j) :=
              Function.update_of_ne (fun hkey => hj (Key.job.inj hkey)) _ _
            rw [hkeep]
            simp only [List.mem_cons, Repair.push.injEq, hj, false_or]
      | remove w =>
          have hkeep : (repair s (.remove w)).redis.jobs (redisKeys.job j) =
              s.redis.jobs (redisKeys.job j) := by
            simp [repair, removal, Redis.multi, Write.apply]
          rw [hkeep]
          simp only [List.mem_cons, reduceCtorEq, false_or]

/-- The rows of jobs: those whose ids are spelled are reset. -/
theorem row?_foldl (l : List Repair) (s : World) (j : JobId) :
    (l.foldl repair s).pg.row? j =
      if ∃ i ∈ pushed l, Uuid.normal i = some j then (s.pg.row? j).map resetRow
      else s.pg.row? j := by
  have hpg : (l.foldl repair s).pg = (pushed l).foldl (fun db i => db.update s.clock i
      { status := .pending, startedAt := .null, completedAt := .null }) s.pg := by
    induction l generalizing s with
    | nil => rfl
    | cons a l ih =>
        cases a with
        | push i => exact ih (repair s (.push i))
        | remove w => exact ih (repair s (.remove w))
  rw [hpg, Postgres.row?_foldl_update fun _ => rfl]
  rfl

theorem mem_pushed {l : List Repair} : j ∈ pushed l ↔ .push j ∈ l := by
  rw [pushed, List.mem_filterMap]
  constructor
  · rintro ⟨a, ha, hj⟩
    cases a with
    | push i =>
        cases hj
        exact ha
    | remove w => cases hj
  · intro h
    exact ⟨_, h, rfl⟩

/-- The processing lists. -/
theorem lists_processing (l : List Repair) (s : World) (w : WorkerId) :
    (l.foldl repair s).redis.lists (redisKeys.processing w) =
      if .remove w ∈ l then [] else s.redis.lists (redisKeys.processing w) := by
  induction l generalizing s with
  | nil => simp
  | cons a l ih =>
      rw [List.foldl_cons, ih]
      cases a with
      | push j =>
          obtain ⟨x, hx⟩ : ∃ x, home s j = .queue x := exists_targetList _ _
          have hkeep : (repair s (.push j)).redis.lists (redisKeys.processing w) =
              s.redis.lists (redisKeys.processing w) :=
            Function.update_of_ne (by rw [hx]; simp) _ _
          rw [hkeep]
          simp only [List.mem_cons, reduceCtorEq, false_or]
      | remove w' =>
          by_cases hw : w = w'
          · subst hw
            have hgone : (repair s (.remove w)).redis.lists (redisKeys.processing w) = [] := by
              simp [repair, removal, Redis.multi, Write.apply]
            rw [hgone, if_pos (show Repair.remove w ∈ .remove w :: l from List.mem_cons_self),
              ite_self]
          · have hne : redisKeys.processing w ≠ redisKeys.processing w' := fun hkey =>
              hw (Key.processing.inj hkey)
            have hkeep : (repair s (.remove w')).redis.lists (redisKeys.processing w) =
                s.redis.lists (redisKeys.processing w) := by
              simp [repair, removal, Redis.multi, Write.apply, Function.update_of_ne hne]
            rw [hkeep]
            simp only [List.mem_cons, Repair.remove.injEq, hw, false_or]

/-- The metadata of the workers. -/
theorem metas_worker (l : List Repair) (s : World) (w : WorkerId) :
    (l.foldl repair s).redis.metas (redisKeys.workerMeta w) =
      if .remove w ∈ l then {} else s.redis.metas (redisKeys.workerMeta w) := by
  induction l generalizing s with
  | nil => simp
  | cons a l ih =>
      rw [List.foldl_cons, ih]
      cases a with
      | push j =>
          have hkeep : (repair s (.push j)).redis.metas = s.redis.metas := rfl
          rw [hkeep]
          simp only [List.mem_cons, reduceCtorEq, false_or]
      | remove w' =>
          by_cases hw : w = w'
          · subst hw
            have hgone : (repair s (.remove w)).redis.metas (redisKeys.workerMeta w) = {} := by
              simp [repair, removal, Redis.multi, Write.apply]
            rw [hgone, if_pos (show Repair.remove w ∈ .remove w :: l from List.mem_cons_self),
              ite_self]
          · have hne : redisKeys.workerMeta w ≠ redisKeys.workerMeta w' := fun hkey =>
              hw (Key.worker.inj hkey)
            have hkeep : (repair s (.remove w')).redis.metas (redisKeys.workerMeta w) =
                s.redis.metas (redisKeys.workerMeta w) := by
              simp [repair, removal, Redis.multi, Write.apply, Function.update_of_ne hne]
            rw [hkeep]
            simp only [List.mem_cons, Repair.remove.injEq, hw, false_or]

/-- The registry of the workers. -/
theorem mem_registry (l : List Repair) (s : World) (w : WorkerId) :
    w ∈ (l.foldl repair s).redis.sets redisKeys.workerRegistry ↔
      w ∈ s.redis.sets redisKeys.workerRegistry ∧ .remove w ∉ l := by
  induction l generalizing s with
  | nil => simp
  | cons a l ih =>
      rw [List.foldl_cons, ih]
      cases a with
      | push j => simp [repair]
      | remove w' =>
          simp [repair, removal, Redis.multi, Write.apply]
          tauto

/-- Two databases hold the same at a key. -/
structure SameAt (k : Key) (r r' : Redis) : Prop where
  lists : r'.lists k = r.lists k
  sets : r'.sets k = r.sets k
  zsets : r'.zsets k = r.zsets k
  strings : r'.strings k = r.strings k
  jobs : r'.jobs k = r.jobs k
  crons : r'.crons k = r.crons k
  rates : r'.rates k = r.rates k
  metas : r'.metas k = r.metas k

/-- The keys that repairs do not concern. -/
theorem sameAt_foldl {k : Key} (l : List Repair) (s : World) (hqueue : ∀ x, k ≠ .queue x)
    (hjob : ∀ j, k ≠ redisKeys.job j) (hregistry : k ≠ redisKeys.workerRegistry)
    (hremove : ∀ w, .remove w ∈ l → k ≠ redisKeys.processing w ∧ k ≠ redisKeys.workerMeta w) :
    SameAt k s.redis (l.foldl repair s).redis := by
  induction l generalizing s with
  | nil => exact ⟨rfl, rfl, rfl, rfl, rfl, rfl, rfl, rfl⟩
  | cons a l ih =>
      have hrest := ih (repair s a) fun w hw => hremove w (List.mem_cons_of_mem _ hw)
      have hone : SameAt k s.redis (repair s a).redis := by
        cases a with
        | push j =>
            obtain ⟨x, hx⟩ : ∃ x, home s j = .queue x := exists_targetList _ _
            have hne : k ≠ home s j := by
              rw [hx]
              exact hqueue x
            exact ⟨Function.update_of_ne hne _ _, rfl, rfl, rfl,
              Function.update_of_ne (hjob j) _ _, rfl, rfl, rfl⟩
        | remove w =>
            obtain ⟨hprocessing, hmeta⟩ := hremove w List.mem_cons_self
            constructor <;>
              simp [repair, removal, Redis.multi, Write.apply, Function.update_of_ne hprocessing,
                Function.update_of_ne hmeta, Function.update_of_ne hregistry]
      rw [List.foldl_cons]
      exact ⟨hrest.lists.trans hone.lists, hrest.sets.trans hone.sets, hrest.zsets.trans hone.zsets,
        hrest.strings.trans hone.strings, hrest.jobs.trans hone.jobs, hrest.crons.trans hone.crons,
        hrest.rates.trans hone.rates, hrest.metas.trans hone.metas⟩

/-! ## The sweep -/

/-- The registered workers without a heartbeat. -/
def dead (s : World) : Finset WorkerId :=
  (s.redis.sets redisKeys.workerRegistry).filter fun w => ¬ s.beats w

/-- The job is in the processing list of a dead worker. -/
def Orphaned (s : World) (j : JobId) : Prop :=
  ∃ w ∈ dead s, j ∈ s.redis.lists (redisKeys.processing w)

instance (s : World) (j : JobId) : Decidable (Orphaned s j) :=
  inferInstanceAs (Decidable (∃ w ∈ dead s, _))

/-- The row is that of a job in the processing list of a dead worker. -/
def OrphanedRow (s : World) (j : JobId) : Prop := ∃ i, Orphaned s i ∧ Uuid.normal i = some j

/-- Repairs do not concern heartbeats. -/
theorem beats_foldl (l : List Repair) (s : World) (w : WorkerId) :
    (l.foldl repair s).beats w ↔ s.beats w := by
  have hheartbeat : SameAt (redisKeys.heartbeat w) s.redis (l.foldl repair s).redis :=
    sameAt_foldl l s (by simp) (by simp) (by simp) (by simp)
  rw [World.beats, World.beats, Redis.get, Redis.get, hheartbeat.strings, clock_foldl]

/-- Nor do they add to a processing list. -/
theorem Spelled.foldl (h : Spelled s w) (l : List Repair) : Spelled (l.foldl repair s) w := by
  intro hbeats j hj
  rw [lists_processing] at hj
  split at hj
  · cases hj
  · exact h (fun hb => hbeats ((beats_foldl l s w).mpr hb)) j hj

/-- The dead workers of the sweep are recovered one after the other. -/
theorem tick_completes (hread : ∀ w ∈ s.redis.sets redisKeys.workerRegistry, Spelled s w)
    (hup : t.host.elim false s.down = false) :
    Completes (alone env t) (fun _ => True) s Janitor.tick fun x s' =>
      x = .ok () ∧ ∃ workers : List WorkerId, workers.Nodup ∧
        workers.toFinset = s.redis.sets redisKeys.workerRegistry ∧
        s' = workers.foldl (fun s w => (repairs s w).foldl repair s) s := by
  refine completes_smembers hup trivial fun workers hnodup hset => ?_
  have hall : ∀ w ∈ workers, Spelled s w := fun w hw =>
    hread w (hset ▸ List.mem_toFinset.mpr hw)
  refine (Prog.completes_forEach_foldl (g := fun s w => (repairs s w).foldl repair s)
    (fun rest s' => s'.down = s.down ∧ ∀ w ∈ rest, Spelled s' w) ?_ workers s ⟨rfl, hall⟩).mono ?_
  · rintro w rest s₁ ⟨hdown, hrest⟩
    refine ⟨⟨(down_foldl _ _).trans hdown, fun w' hw' => ?_⟩, ?_⟩
    · exact (hrest w' (List.mem_cons_of_mem _ hw')).foldl _
    · exact recoverWorker_completes (hrest w List.mem_cons_self) (by rwa [hdown])
  · rintro x s' ⟨hx, hs'⟩
    exact ⟨hx, workers, hnodup, hset, hs'⟩

/-- The repairs for one worker do not depend on what was done for others. -/
theorem repairs_foldl {l : List Repair} (hl : .remove w ∉ l) :
    repairs (l.foldl repair s) w = repairs s w := by
  rw [repairs, repairs, lists_processing, if_neg hl]
  simp only [beats_foldl]

theorem remove_mem_repairs {w' : WorkerId} :
    .remove w' ∈ repairs s w ↔ w' = w ∧ ¬ s.beats w := by
  unfold repairs
  by_cases hbeats : s.beats w
  · simp [hbeats]
  · simp [hbeats]

theorem push_mem_repairs :
    .push j ∈ repairs s w ↔ ¬ s.beats w ∧ j ∈ s.redis.lists (redisKeys.processing w) := by
  unfold repairs
  by_cases hbeats : s.beats w
  · simp [hbeats]
  · simp [hbeats]

/-- All repairs of a sweep can be listed in advance. -/
theorem foldl_repairs (s₀ : World) (workers : List WorkerId) (hnodup : workers.Nodup) (s : World)
    (hsame : ∀ w ∈ workers, repairs s w = repairs s₀ w) :
    workers.foldl (fun s w => (repairs s w).foldl repair s) s =
      (workers.flatMap (repairs s₀)).foldl repair s := by
  induction workers generalizing s with
  | nil => rfl
  | cons w workers ih =>
      obtain ⟨hw, hrest⟩ := List.nodup_cons.mp hnodup
      rw [List.foldl_cons, List.flatMap_cons, List.foldl_append, ← hsame w List.mem_cons_self]
      refine ih hrest _ fun w' hw' => ?_
      rw [repairs_foldl, hsame w' (List.mem_cons_of_mem _ hw')]
      rw [remove_mem_repairs]
      rintro ⟨rfl, -⟩
      exact hw hw'

/-- The pushes of a sweep, worker by worker. -/
theorem pushed_repairs (s : World) (workers : List WorkerId) :
    pushed (workers.flatMap (repairs s)) = workers.flatMap fun w =>
      if s.beats w then [] else s.redis.lists (redisKeys.processing w) := by
  unfold pushed
  rw [List.filterMap_flatMap]
  congr 1
  funext w
  unfold repairs
  split
  · rfl
  · rw [List.filterMap_append, List.filterMap_map]
    simp only [List.filterMap_cons, List.filterMap_nil, List.append_nil]
    exact List.filterMap_some

/-- An entry is pushed to its list as often as it is in the lists of dead workers. -/
theorem count_pushed {workers : List WorkerId} (hnodup : workers.Nodup)
    (hset : workers.toFinset = s.redis.sets redisKeys.workerRegistry) (k : Key) (j : JobId) :
    ((pushed (workers.flatMap (repairs s))).filter fun j => home s j = k).count j =
      if home s j = k then ∑ w ∈ dead s, (s.redis.lists (redisKeys.processing w)).count j
      else 0 := by
  by_cases hk : home s j = k
  · rw [if_pos hk, List.count_filter (by simpa using hk), pushed_repairs, List.count_flatMap, dead,
      Finset.sum_filter, ← hset, List.sum_toFinset _ hnodup]
    congr 1
    refine List.map_congr_left fun w _ => ?_
    by_cases hbeats : s.beats w
    · simp [hbeats]
    · simp [hbeats]
  · rw [if_neg hk, List.count_eq_zero]
    intro hmem
    exact hk (by simpa using (List.mem_filter.mp hmem).2)

/-- What a sweep has done: exactly the dead workers are recovered. -/
structure RecoveredDead (s s' : World) : Prop where
  /-- Every entry of the processing lists of dead workers has been pushed once, to the list its
  hash gives, and nothing else has. -/
  pushed : ∀ x, ∃ new, s'.redis.lists (.queue x) = new ++ s.redis.lists (.queue x) ∧
    ∀ j, new.count j = if home s j = .queue x then
      ∑ w ∈ dead s, (s.redis.lists (redisKeys.processing w)).count j else 0
  /-- Their jobs are pending again and have lost their times; no other job has changed. -/
  hash : ∀ j, s'.redis.jobs (redisKeys.job j) =
    if Orphaned s j then reset (s.redis.jobs (redisKeys.job j))
    else s.redis.jobs (redisKeys.job j)
  row : ∀ j, (OrphanedRow s j → s'.pg.row? j = (s.pg.row? j).map resetRow) ∧
    (¬ OrphanedRow s j → s'.pg.row? j = s.pg.row? j)
  /-- The dead workers are gone. -/
  gone : ∀ w ∈ dead s, s'.redis.lists (redisKeys.processing w) = [] ∧
    s'.redis.metas (redisKeys.workerMeta w) = {}
  registry : s'.redis.sets redisKeys.workerRegistry =
    s.redis.sets redisKeys.workerRegistry \ dead s
  /-- All other keys hold what they held, those of the other workers among them. -/
  others : ∀ k, (∀ x, k ≠ .queue x) → (∀ j, k ≠ redisKeys.job j) →
    k ≠ redisKeys.workerRegistry →
    (∀ w ∈ dead s, k ≠ redisKeys.processing w ∧ k ≠ redisKeys.workerMeta w) →
    SameAt k s.redis s'.redis
  frame : s' = { s with
    redis := s'.redis
    pg := s'.pg }

/-- **A sweep that runs alone ends, and has recovered exactly the dead workers**, if their
processing lists hold uuids. -/
theorem recovers_dead (s : World) (hread : ∀ w ∈ dead s,
      ∀ j ∈ s.redis.lists (redisKeys.processing w), (Uuid.normal j).isSome = true) :
    Completes (alone env .janitor) (fun _ => True) s Janitor.tick fun x s' =>
      x = .ok () ∧ RecoveredDead s s' := by
  have hspelled : ∀ w ∈ s.redis.sets redisKeys.workerRegistry, Spelled s w := fun w hw hbeats =>
    hread w (Finset.mem_filter.mpr ⟨hw, hbeats⟩)
  refine (tick_completes hspelled rfl).mono ?_
  rintro x s' ⟨hx, workers, hnodup, hset, rfl⟩
  refine ⟨hx, ?_⟩
  rw [foldl_repairs s workers hnodup s fun _ _ => rfl]
  have hdead : ∀ w, w ∈ dead s ↔ w ∈ workers ∧ ¬ s.beats w := by
    intro w
    rw [dead, Finset.mem_filter, ← hset, List.mem_toFinset]
  have hremove : ∀ w, .remove w ∈ workers.flatMap (repairs s) ↔ w ∈ dead s := by
    intro w
    rw [hdead, List.mem_flatMap]
    constructor
    · rintro ⟨w', hw', hmem⟩
      obtain ⟨rfl, hbeats⟩ := remove_mem_repairs.mp hmem
      exact ⟨hw', hbeats⟩
    · rintro ⟨hw, hbeats⟩
      exact ⟨w, hw, remove_mem_repairs.mpr ⟨rfl, hbeats⟩⟩
  have hpush : ∀ j, .push j ∈ workers.flatMap (repairs s) ↔ Orphaned s j := by
    intro j
    rw [Orphaned, List.mem_flatMap]
    constructor
    · rintro ⟨w, hw, hmem⟩
      obtain ⟨hbeats, hj⟩ := push_mem_repairs.mp hmem
      exact ⟨w, (hdead w).mpr ⟨hw, hbeats⟩, hj⟩
    · rintro ⟨w, hw, hj⟩
      obtain ⟨hw, hbeats⟩ := (hdead w).mp hw
      exact ⟨w, hw, push_mem_repairs.mpr ⟨hbeats, hj⟩⟩
  refine ⟨fun x => ?_, fun j => ?_, fun j => ?_, fun w hw => ⟨?_, ?_⟩, ?_, ?_, frame_foldl _ _⟩
  · refine ⟨_, lists_queue _ _ x, fun j => ?_⟩
    rw [List.count_reverse, count_pushed hnodup hset]
  · rw [jobs_job]
    simp only [hpush]
  · have hrow : (∃ i ∈ pushed (workers.flatMap (repairs s)), Uuid.normal i = some j) ↔
        OrphanedRow s j :=
      exists_congr fun i => and_congr_left fun _ => mem_pushed.trans (hpush i)
    rw [row?_foldl]
    exact ⟨fun h => if_pos (hrow.mpr h), fun h => if_neg (mt hrow.mp h)⟩
  · rw [lists_processing, if_pos ((hremove w).mpr hw)]
  · rw [metas_worker, if_pos ((hremove w).mpr hw)]
  · ext w
    rw [mem_registry, hremove, Finset.mem_sdiff]
  · intro k hqueue hjob hregistry hother
    exact sameAt_foldl _ _ hqueue hjob hregistry fun w hw => hother w ((hremove w).mp hw)

/-- A worker without a heartbeat, which holds a job twice, and a worker with one. -/
def mourned : World where
  redis :=
    { sets := Function.update (fun _ => ∅) redisKeys.workerRegistry {"w1", "w2"}
      strings := Function.update (fun _ => none) (redisKeys.heartbeat "w2") (some ("alive", none))
      lists := Function.update (Function.update (fun _ => [])
        (redisKeys.processing "w1") [j1.text, j1.text]) (redisKeys.processing "w2") [j2.text]
      jobs := Function.update (fun _ => {}) (redisKeys.job j1)
        (newJobHash j1 "mail" "echo" (some .null) .active (.of 1) "high" 0) }
  pg := (Postgres.empty.insert 0
    { id := j1, queueName := "mail", jobName := "echo", payload := some .null, status := .active
      maxAttempts := some 1 }).toOption.getD .empty
  ids := {j1.text, j2.text}

/-- The theorem on these two. -/
theorem recovers_mourned : ∃ x s', Prog.Runs (alone sample .janitor) mourned Janitor.tick x s' ∧
    x = .ok () ∧ RecoveredDead mourned s' ∧ dead mourned = {"w1"} := by
  have h : Completes (alone sample .janitor) (fun _ => True) mourned Janitor.tick fun x s' =>
      x = .ok () ∧ RecoveredDead mourned s' := recovers_dead mourned (by decide +kernel)
  obtain ⟨x, s', hrun⟩ := h.exists_runs
  obtain ⟨hx, hrecovered⟩ := h.ends x s' hrun
  exact ⟨x, s', hrun, hx, hrecovered, by decide +kernel⟩

/-- A dead worker with an entry that is no uuid. -/
def haunted : World where
  redis :=
    { sets := Function.update (fun _ => ∅) redisKeys.workerRegistry {"w1"}
      lists := Function.update (fun _ => []) (redisKeys.processing "w1") ["nope"] }

/-- The `UPDATE` throws, and the worker stays where it is. -/
theorem broken_off : ∃ e s', Prog.Runs (alone sample .janitor) haunted Janitor.tick (.error e) s' ∧
    s'.redis.lists (redisKeys.processing "w1") = ["nope"] ∧
    s'.redis.lists (redisKeys.queue "default") = ["nope"] ∧ ¬ RecoveredDead haunted s' := by
  have hnope : Uuid.normal "nope" = none := by decide +kernel
  have hmembers : World.exec sample haunted .janitor (.smembers redisKeys.workerRegistry)
      (.members ["w1"]) = some (.ok ["w1"], haunted) := by
    show World.answer sample haunted (.members ["w1"]) (.smembers redisKeys.workerRegistry) = _
    simp only [World.answer]
    exact if_pos ⟨by decide, rfl⟩
  have hupdate : (Cmd.update "nope" { status := .pending, startedAt := .null
                                      completedAt := .null }).unreadable = true := by
    show (Uuid.normal "nope").isNone = true
    rw [hnope]
    rfl
  have hrun : ∃ s', Prog.Runs (alone sample .janitor) haunted Janitor.tick
      (.error (.invalidValue "id")) s' ∧
        s'.redis.lists (redisKeys.processing "w1") = ["nope"] ∧
        s'.redis.lists (redisKeys.queue "default") = ["nope"] :=
    ⟨_, .call ⟨_, rfl, hmembers⟩ (.call ⟨.plain, rfl, rfl⟩ (.call ⟨.plain, rfl, rfl⟩
      (.call ⟨.plain, rfl, rfl⟩ (.call ⟨.plain, rfl, rfl⟩ (.call ⟨.plain, rfl, rfl⟩
        (.call ⟨.plain, rfl, exec_unreadable rfl hupdate rfl⟩ .raise)))))), rfl, rfl⟩
  obtain ⟨s', hrun, hheld, hready⟩ := hrun
  refine ⟨_, s', hrun, hheld, hready, fun h => ?_⟩
  have hgone := (h.gone "w1" (by decide +kernel)).1
  rw [hheld] at hgone
  cases hgone

end Sweep

end NexusQueue
