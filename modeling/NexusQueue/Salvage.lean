/-
# Requeueing when a command is rejected

The two operator requests, running while no other process moves, when any of their commands
may be rejected.  A job is removed from the dead-letter queue before it is pushed, and the
event is published inside the same `try`: a rejection before the `LREM` is harmless, one
between the `LREM` and the `LPUSH` loses the job, and one after the `LPUSH` counts it as
failed.  The requests leave every job recoverable and correctly reported if and only if no
rejection of the second and third kind shows (`recoverable_iff`).
-/
import NexusQueue.Faulty
import NexusQueue.Revival

namespace NexusQueue

open Prog (Runs Ends logged ends_pure ends_bind ends_handle)

namespace Salvage

open Revival (target target_reset named revive)

variable {env : Env} {t : Task} {s s' : World} {l : Log} {name : QueueName} {ids : List JobId}
  {i j : JobId}

/-! ## What a rejection leaves undone -/

/-- Where a job is when one of its commands has been rejected: still dead, in no list any
more, or ready without an event. -/
inductive Stage where
  | held
  | lost
  | untold
  deriving DecidableEq

/-- The job a rejected command was for. -/
def blame : Event Cmd Cmd.Resp Err → Option (JobId × Stage)
  | ⟨.update id _, .error _⟩ => some (id, .held)
  | ⟨.write (.hset (.job id) _), .error _⟩ => some (id, .held)
  | ⟨.write (.lrem _ _ id), .error _⟩ => some (id, .held)
  | ⟨.hgetall (.job id), .error _⟩ => some (id, .lost)
  | ⟨.write (.lpush _ id), .error _⟩ => some (id, .lost)
  | ⟨.publish e, .error _⟩ => some (e.jobId, .untold)
  | _ => none

/-- All jobs with a rejected command. -/
def blamed (l : Log) : List (JobId × Stage) := l.filterMap blame

/-- The `LRANGE` of a request for the whole queue is rejected. -/
def unlisted : Event Cmd Cmd.Resp Err → Bool
  | ⟨.lrange _ _ _, .error _⟩ => true
  | _ => false

/-! ## One job of a requeue -/

/-- Whether the job has been removed from the dead-letter queue. -/
def lifts : Option Stage → Bool
  | some .held => false
  | _ => true

/-- Whether it has been pushed. -/
def pushes : Option Stage → Bool
  | some .held | some .lost => false
  | _ => true

/-- The lists after one job. -/
def struckLists (name : QueueName) (s : World) (j : JobId) : Option Stage → Key → List String
  | some .held => s.redis.lists
  | some .lost => Function.update s.redis.lists (redisKeys.dlq name)
      (removeFirst j 1 (s.redis.lists (redisKeys.dlq name)))
  | _ => (revive name s j).redis.lists

/-- One job has been requeued, or one of its commands was rejected. -/
structure Struck (name : QueueName) (s : World) (l : Log) (j : JobId) (o : Option Stage)
    (b : World × Log) : Prop where
  blamed : blamed b.2 = (o.map (Prod.mk j)).toList ++ blamed l
  listed : b.2.any unlisted = l.any unlisted
  lists : b.1.redis.lists = struckLists name s j o
  target : ∀ i, target name b.1 i = target name s i

theorem requeueJob_ends (name : QueueName) (s : World) (l : Log) (j : JobId) :
    Ends (logged (solo env t)) (s, l) (Routes.requeueJob name j)
      fun x b => ∃ o, x.isOk = o.isNone ∧ Struck name s l j o b := by
  have hpriority : (((s.redis.jobs (redisKeys.job j)).merge Routes.resetFields).priority.getD
      "normal") = (s.redis.jobs (redisKeys.job j)).priority.getD "normal" := rfl
  refine ends_solo (fun _ => rfl) ?_ fun _ _ =>
    ⟨some .held, rfl, rfl, rfl, rfl, fun _ => rfl⟩
  refine ends_solo (fun _ => rfl) ?_ fun _ _ =>
    ⟨some .held, rfl, rfl, rfl, rfl, fun _ => rfl⟩
  refine ends_solo (fun _ => rfl) ?_ fun _ _ =>
    ⟨some .held, rfl, rfl, rfl, rfl, fun i => target_reset name i rfl⟩
  refine ends_solo (fun _ => rfl) ?_ fun _ _ =>
    ⟨some .lost, rfl, rfl, rfl, rfl, fun i => target_reset name i rfl⟩
  refine ends_solo (fun _ => rfl) ?_ fun _ _ =>
    ⟨some .lost, rfl, rfl, rfl, rfl, fun i => target_reset name i rfl⟩
  refine ends_solo (fun _ => rfl) ?_ (by simp [Cmd.faultable])
  refine ends_solo_last (fun _ => rfl) ⟨none, rfl, rfl, rfl, ?_, fun i => target_reset name i rfl⟩
    fun _ _ => ⟨some .untold, rfl, rfl, rfl, ?_, fun i => target_reset name i rfl⟩
  · simp [struckLists, revive, target, Write.apply, hpriority]
  · simp [struckLists, revive, target, Write.apply, hpriority]

theorem count_struckLists (name : QueueName) (s : World) (j i : JobId) (o : Option Stage)
    (k : Key) :
    (struckLists name s j o k).count i =
      if k = redisKeys.dlq name then
        (s.redis.lists k).count i - [(j, o)].countP (fun a => a.1 = i ∧ lifts a.2)
      else if target name s i = k then
        (s.redis.lists k).count i + [(j, o)].countP (fun a => a.1 = i ∧ pushes a.2)
      else (s.redis.lists k).count i := by
  have hpushed : lifts o = true → pushes o = true →
      struckLists name s j o = (revive name s j).redis.lists →
      (struckLists name s j o k).count i =
        if k = redisKeys.dlq name then
          (s.redis.lists k).count i - [(j, o)].countP (fun a => a.1 = i ∧ lifts a.2)
        else if target name s i = k then
          (s.redis.lists k).count i + [(j, o)].countP (fun a => a.1 = i ∧ pushes a.2)
        else (s.redis.lists k).count i := by
    intro hlifts hpushes hlists
    rw [hlists, Revival.count_revive]
    simp [List.count_singleton, List.countP_singleton, hlifts, hpushes]
  rcases o with _ | (_ | _ | _)
  · exact hpushed rfl rfl rfl
  · simp [struckLists, lifts, pushes]
  · simp only [struckLists, removeFirst]
    by_cases hdlq : k = redisKeys.dlq name
    · subst hdlq
      by_cases hi : i = j
      · subst hi
        simp [lifts]
      · simp [List.count_erase_of_ne hi, Ne.symm hi]
    · simp [hdlq, pushes]
  · exact hpushed rfl rfl rfl

/-! ## The loop -/

/-- The jobs of a request, each with what happened to it. -/
structure Passed (name : QueueName) (s : World) (l : Log) (os : List (JobId × Option Stage))
    (b : World × Log) : Prop where
  blamed : ∀ a, a ∈ blamed b.2 ↔ (∃ o ∈ os, o.2.map (Prod.mk o.1) = some a) ∨ a ∈ blamed l
  listed : b.2.any unlisted = l.any unlisted
  count : ∀ i k, (b.1.redis.lists k).count i =
    if k = redisKeys.dlq name then
      (s.redis.lists k).count i - os.countP (fun a => a.1 = i ∧ lifts a.2)
    else if target name s i = k then
      (s.redis.lists k).count i + os.countP (fun a => a.1 = i ∧ pushes a.2)
    else (s.redis.lists k).count i

theorem Passed.cons {o : Option Stage} {os : List (JobId × Option Stage)} {a b : World × Log}
    (hstruck : Struck name s l j o a) (h : Passed name a.1 a.2 os b) :
    Passed name s l ((j, o) :: os) b := by
  refine ⟨fun e => ?_, h.listed.trans hstruck.listed, fun i k => ?_⟩
  · rw [h.blamed, hstruck.blamed]
    simp only [List.mem_append, Option.mem_toList, List.exists_mem_cons_iff]
    exact or_left_comm.trans or_assoc.symm
  · have hsplit : ∀ p : JobId × Option Stage → Bool,
        ((j, o) :: os).countP p = [(j, o)].countP p + os.countP p := by
      intro p
      rw [← List.countP_append, List.singleton_append]
    rw [h.count, hstruck.lists, count_struckLists, hstruck.target, hsplit, hsplit]
    split
    · omega
    · split
      · omega
      · rfl

theorem requeueJobs_ends (name : QueueName) (requeued failed : ℕ) (ids : List JobId) (s : World)
    (l : Log) :
    Ends (logged (solo env t)) (s, l) (Routes.requeueJobs name requeued failed ids) fun x b =>
      ∃ os : List (JobId × Option Stage), os.map Prod.fst = ids ∧
        x = .ok (.requeued (requeued + os.countP (·.2.isNone))
          (failed + os.countP (·.2.isSome))) ∧ Passed name s l os b := by
  induction ids generalizing s l requeued failed with
  | nil => exact ends_pure ⟨[], rfl, rfl, by simp, rfl, by simp⟩
  | cons j ids ih =>
      refine ends_bind (fun x b => ∃ o, x = .ok o.isNone ∧ Struck name s l j o b) ?_ ?_ ?_
      · refine ends_handle (fun x b => ∃ o, (x = .ok true ∧ o = none ∨ x.isOk = false ∧ o.isSome) ∧
          Struck name s l j o b) ?_ ?_ ?_
        · refine ends_bind _ (requeueJob_ends name s l j) ?_ ?_
          · rintro a b ⟨o, ho, hstruck⟩
            exact ends_pure ⟨o, Or.inl ⟨rfl, Option.isNone_iff_eq_none.mp ho.symm⟩, hstruck⟩
          · rintro e b ⟨o, ho, hstruck⟩
            refine ⟨o, Or.inr ⟨rfl, ?_⟩, hstruck⟩
            cases o with
            | none => cases ho
            | some st => rfl
        · rintro ok b ⟨o, ⟨hok, rfl⟩ | ⟨hok, -⟩, hstruck⟩
          · exact ⟨none, hok, hstruck⟩
          · cases hok
        · rintro e b ⟨o, ⟨hok, -⟩ | ⟨-, ho⟩, hstruck⟩
          · cases hok
          · refine ends_pure ⟨o, ?_, hstruck⟩
            cases o with
            | none => cases ho
            | some st => rfl
      · rintro ok ⟨s₁, l₁⟩ ⟨o, hok, hstruck⟩
        cases o with
        | none =>
            cases hok
            refine (ih (requeued + 1) failed s₁ l₁).mono ?_
            rintro x b ⟨os, rfl, hx, hpassed⟩
            refine ⟨(j, none) :: os, rfl, ?_, hpassed.cons hstruck⟩
            rw [hx]
            simp [add_assoc, add_comm 1]
        | some st =>
            cases hok
            refine (ih requeued (failed + 1) s₁ l₁).mono ?_
            rintro x b ⟨os, rfl, hx, hpassed⟩
            refine ⟨(j, some st) :: os, rfl, ?_, hpassed.cons hstruck⟩
            rw [hx]
            simp [add_assoc, add_comm 1]
      · rintro e b ⟨o, he, -⟩
        cases he

/-! ## What the request owes -/

/-- The job is in a ready list. -/
def Ready (s : World) (j : JobId) : Prop := ∃ x, j ∈ s.redis.lists (.queue x)

open Classical in
/-- Every job is recoverable and correctly reported. -/
structure Reported (s : World) (name : QueueName) (ids : List JobId) (x : Except Err Response)
    (s' : World) : Prop where
  kept : ∀ j ∈ ids, j ∈ s'.redis.lists (redisKeys.dlq name) ∨ j ∈ s'.redis.lists (target name s j)
  counted : ∀ requeued failed, x = .ok (.requeued requeued failed) →
    requeued =
      (ids.toFinset.filter fun j =>
        Ready s' j ∧ j ∉ s'.redis.lists (redisKeys.dlq name)).card ∧
    failed = (ids.toFinset.filter fun j => j ∈ s'.redis.lists (redisKeys.dlq name)).card

/-- No command for the job was rejected. -/
def Unharmed (l : Log) (j : JobId) : Prop := ∀ st, (j, st) ∉ blamed l

/-- A command for the job was rejected after its `LREM`. -/
def Late (l : Log) (j : JobId) : Prop := (j, .lost) ∈ blamed l ∨ (j, .untold) ∈ blamed l

open Classical in
/-- Rejections that do not show.  In a dead-letter queue without repeated entries: no command
after an `LREM` is rejected. -/
structure Spared (s : World) (name : QueueName) (ids : List JobId) (l : Log) : Prop where
  distinct : ids.Nodup
  kept : ∀ j ∈ ids, (j, .lost) ∈ blamed l →
    2 ≤ (s.redis.lists (redisKeys.dlq name)).count j ∨ j ∈ s.redis.lists (target name s j)
  balanced :
    ids.countP (fun j => Unharmed l j ∧ 2 ≤ (s.redis.lists (redisKeys.dlq name)).count j) =
      ids.countP (fun j => Late l j ∧ (s.redis.lists (redisKeys.dlq name)).count j = 1)

/-- Counting what is of one kind or the other. -/
theorem countP_split {α : Type} {l : List α} {p q r : α → Bool}
    (h : ∀ a ∈ l, (p a = true ↔ q a = true ∨ r a = true) ∧ ¬ (q a = true ∧ r a = true)) :
    l.countP p = l.countP q + l.countP r := by
  induction l with
  | nil => rfl
  | cons a l ih =>
      obtain ⟨ha, hl⟩ := List.forall_mem_cons.mp h
      rw [List.countP_cons, List.countP_cons, List.countP_cons, ih hl]
      cases hp : p a <;> cases hq : q a <;> cases hr : r a <;> simp_all <;> omega

/-- A job that occurs once in the request is counted once. -/
theorem countP_of_mem {os : List (JobId × Option Stage)} (hnodup : (os.map Prod.fst).Nodup)
    {o : Option Stage} (hmem : (j, o) ∈ os) (p : Option Stage → Bool) :
    os.countP (fun a => a.1 = j ∧ p a.2) = if p o then 1 else 0 := by
  induction os with
  | nil => cases hmem
  | cons a os ih =>
      obtain ⟨hfresh, hrest⟩ := List.nodup_cons.mp hnodup
      rw [List.countP_cons]
      rcases List.mem_cons.mp hmem with rfl | hmem
      · have hzero : os.countP (fun a => a.1 = j ∧ p a.2) = 0 := by
          rw [List.countP_eq_zero]
          rintro b hb hp
          exact hfresh (List.mem_map.mpr ⟨b, hb, (of_decide_eq_true hp).1⟩)
        rw [hzero]
        simp
      · have hne : a.1 ≠ j := fun h => hfresh (List.mem_map.mpr ⟨_, hmem, h.symm⟩)
        rw [ih hrest hmem]
        simp [hne]

section Fates

variable {os : List (JobId × Option Stage)} {o : Option Stage} {l₀ : Log}
  (hnodup : (os.map Prod.fst).Nodup) (hpassed : Passed name s l₀ os (s', l))
  (hl₀ : blamed l₀ = [])

include hnodup hpassed hl₀ in
/-- What the log says of a job. -/
theorem mem_blamed_iff (hmem : (j, o) ∈ os) (st : Stage) : (j, st) ∈ blamed l ↔ o = some st := by
  rw [hpassed.blamed, hl₀]
  constructor
  · rintro (⟨b, hb, heq⟩ | hnone)
    · obtain ⟨st', hst', hpair⟩ := Option.map_eq_some_iff.mp heq
      obtain ⟨hj, rfl⟩ := Prod.mk.inj hpair
      have hsame : b = (j, o) := List.inj_on_of_nodup_map hnodup hb hmem hj
      rw [← hst', hsame]
    · cases hnone
  · rintro rfl
    exact Or.inl ⟨_, hmem, rfl⟩

include hnodup hpassed in
/-- Where a job is. -/
theorem mem_dlq_iff (hmem : (j, o) ∈ os) :
    j ∈ s'.redis.lists (redisKeys.dlq name) ↔
      (if lifts o then 1 else 0) < (s.redis.lists (redisKeys.dlq name)).count j := by
  rw [← List.count_pos_iff, hpassed.count, if_pos rfl, countP_of_mem hnodup hmem lifts]
  omega

include hnodup hpassed in
theorem mem_target_iff (hmem : (j, o) ∈ os) :
    j ∈ s'.redis.lists (target name s j) ↔
      pushes o = true ∨ j ∈ s.redis.lists (target name s j) := by
  obtain ⟨x, hx⟩ : ∃ x, target name s j = .queue x := exists_targetList _ _
  rw [← List.count_pos_iff, ← List.count_pos_iff, hpassed.count, if_neg (by simp [hx]), if_pos rfl,
    countP_of_mem hnodup hmem pushes]
  cases pushes o <;> simp

variable (hdead : ∀ a ∈ os, 0 < (s.redis.lists (redisKeys.dlq name)).count a.1)

include hnodup hpassed hl₀ hdead in
/-- No job is lost if none was held up between its `LREM` and its `LPUSH`. -/
theorem not_lost_iff (hmem : (j, o) ∈ os) :
    (j ∈ s'.redis.lists (redisKeys.dlq name) ∨ j ∈ s'.redis.lists (target name s j)) ↔
      ((j, .lost) ∈ blamed l →
        2 ≤ (s.redis.lists (redisKeys.dlq name)).count j ∨ j ∈ s.redis.lists (target name s j)) := by
  have hpos := hdead _ hmem
  rw [mem_blamed_iff hnodup hpassed hl₀ hmem, mem_dlq_iff hnodup hpassed hmem,
    mem_target_iff hnodup hpassed hmem]
  rcases o with _ | (_ | _ | _)
  · simp [pushes]
  · simpa [lifts] using Or.inl hpos
  · simp [lifts, pushes]
    rfl
  · simp [pushes]

include hnodup hpassed hdead in
/-- A job has left the queue if its only entry was removed. -/
theorem not_mem_dlq_iff (hmem : (j, o) ∈ os) :
    j ∉ s'.redis.lists (redisKeys.dlq name) ↔
      lifts o = true ∧ (s.redis.lists (redisKeys.dlq name)).count j = 1 := by
  have hpos : 0 < (s.redis.lists (redisKeys.dlq name)).count j := hdead _ hmem
  rw [mem_dlq_iff hnodup hpassed hmem]
  cases lifts o
  · simp only [Bool.false_eq_true, if_false, false_and, iff_false, not_not]
    exact hpos
  · simp only [if_true, true_and]
    omega

open Classical in
include hnodup hpassed hl₀ hdead in
/-- If no job is lost, the counters are right if the rejections after an `LREM` balance with
the further entries that are left behind. -/
theorem counted_iff (hkept : ∀ a ∈ os, a.1 ∈ s'.redis.lists (redisKeys.dlq name) ∨
      a.1 ∈ s'.redis.lists (target name s a.1)) :
    (os.countP (·.2.isNone) = ((os.map Prod.fst).toFinset.filter fun j =>
        Ready s' j ∧ j ∉ s'.redis.lists (redisKeys.dlq name)).card ∧
      os.countP (·.2.isSome) = ((os.map Prod.fst).toFinset.filter fun j =>
        j ∈ s'.redis.lists (redisKeys.dlq name)).card) ↔
      (os.map Prod.fst).countP (fun j =>
          Unharmed l j ∧ 2 ≤ (s.redis.lists (redisKeys.dlq name)).count j) =
        (os.map Prod.fst).countP (fun j =>
          Late l j ∧ (s.redis.lists (redisKeys.dlq name)).count j = 1) := by
  have hunharmed : ∀ {j o}, (j, o) ∈ os → (Unharmed l j ↔ o = none) := by
    intro j o hmem
    rw [Unharmed, Option.eq_none_iff_forall_not_mem]
    exact forall_congr' fun st => not_congr (mem_blamed_iff hnodup hpassed hl₀ hmem st)
  have hlate : ∀ {j o}, (j, o) ∈ os → (Late l j ↔ o = some .lost ∨ o = some .untold) := by
    intro j o hmem
    rw [Late, mem_blamed_iff hnodup hpassed hl₀ hmem, mem_blamed_iff hnodup hpassed hl₀ hmem]
  have hgone : ∀ {j o}, (j, o) ∈ os →
      (Ready s' j ∧ j ∉ s'.redis.lists (redisKeys.dlq name) ↔
        lifts o = true ∧ (s.redis.lists (redisKeys.dlq name)).count j = 1) := by
    intro j o hmem
    rw [← not_mem_dlq_iff hnodup hpassed hdead hmem]
    refine ⟨And.right, fun hnot => ⟨?_, hnot⟩⟩
    obtain ⟨x, hx⟩ : ∃ x, target name s j = .queue x := exists_targetList _ _
    exact ⟨x, hx ▸ (hkept _ hmem).resolve_left hnot⟩
  rw [hnodup.card_eq_countP, hnodup.card_eq_countP, List.countP_map, List.countP_map,
    List.countP_map, List.countP_map]
  -- every job is reported, and every job is in one of the two places
  have hreported : os.length = os.countP (·.2.isNone) + os.countP (·.2.isSome) := by
    rw [← List.countP_true]
    refine countP_split fun a _ => ?_
    cases a.2 <;> simp
  have hplaced : os.length =
      os.countP ((fun j => decide (Ready s' j ∧ j ∉ s'.redis.lists (redisKeys.dlq name))) ∘
        Prod.fst) +
      os.countP ((fun j : JobId => decide (j ∈ s'.redis.lists (redisKeys.dlq name))) ∘
        Prod.fst) := by
    rw [← List.countP_true]
    refine countP_split fun a ha => ?_
    have hnot := not_mem_dlq_iff hnodup hpassed hdead ha
    simp only [Function.comp_apply, decide_eq_true_eq, hgone ha, ← hnot, true_iff]
    tauto
  -- the reported ones, and those that have left the queue, by their entries
  have hnone : os.countP (·.2.isNone) =
      os.countP ((fun j => decide (Unharmed l j ∧
        2 ≤ (s.redis.lists (redisKeys.dlq name)).count j)) ∘ Prod.fst) +
      os.countP (fun a => a.2 = none ∧ (s.redis.lists (redisKeys.dlq name)).count a.1 = 1) := by
    refine countP_split fun a ha => ?_
    have hpos := hdead a ha
    simp only [Function.comp_apply, decide_eq_true_eq, hunharmed ha, Option.isNone_iff_eq_none]
    by_cases hnone : a.2 = none
    · simp only [hnone, true_and, true_iff]
      omega
    · simp only [hnone, false_and, or_self, not_false_eq_true, and_self]
  have hleft :
      os.countP ((fun j => decide (Ready s' j ∧ j ∉ s'.redis.lists (redisKeys.dlq name))) ∘
        Prod.fst) =
      os.countP ((fun j => decide (Late l j ∧
        (s.redis.lists (redisKeys.dlq name)).count j = 1)) ∘ Prod.fst) +
      os.countP (fun a => a.2 = none ∧ (s.redis.lists (redisKeys.dlq name)).count a.1 = 1) := by
    refine countP_split fun a ha => ?_
    simp only [Function.comp_apply, decide_eq_true_eq, hgone ha, hlate ha]
    rcases a.2 with _ | (_ | _ | _) <;> simp [lifts]
  omega

end Fates

/-- A response that counts right has counted no id twice. -/
theorem nodup_of_reported {os : List (JobId × Option Stage)}
    (h : Reported s name (os.map Prod.fst)
      (.ok (.requeued (os.countP (·.2.isNone)) (os.countP (·.2.isSome)))) s') :
    (os.map Prod.fst).Nodup := by
  classical
  obtain ⟨hrequeued, hfailed⟩ := h.counted _ _ rfl
  have hreported : os.length = os.countP (·.2.isNone) + os.countP (·.2.isSome) := by
    rw [← List.countP_true]
    refine countP_split fun a _ => ?_
    cases a.2 <;> simp
  have hsum := Finset.card_filter_add_card_filter_not (s := (os.map Prod.fst).toFinset)
    fun j : JobId => j ∈ s'.redis.lists (redisKeys.dlq name)
  have hle : ((os.map Prod.fst).toFinset.filter fun j : JobId =>
      Ready s' j ∧ j ∉ s'.redis.lists (redisKeys.dlq name)).card ≤
      ((os.map Prod.fst).toFinset.filter fun j : JobId =>
        ¬ j ∈ s'.redis.lists (redisKeys.dlq name)).card :=
    Finset.card_le_card (Finset.monotone_filter_right _ fun j _ hj => hj.2)
  rw [← hfailed] at hsum
  refine Revival.nodup_of_length_le ?_
  rw [List.length_map]
  omega

/-- The counters of a loop whose ids are all dead. -/
theorem reported_iff {os : List (JobId × Option Stage)} {l₀ : Log}
    (hpassed : Passed name s l₀ os (s', l)) (hl₀ : blamed l₀ = [])
    (hdead : ∀ a ∈ os, 0 < (s.redis.lists (redisKeys.dlq name)).count a.1) :
    Reported s name (os.map Prod.fst)
      (.ok (.requeued (os.countP (·.2.isNone)) (os.countP (·.2.isSome)))) s' ↔
        Spared s name (os.map Prod.fst) l := by
  have hall : (os.map Prod.fst).Nodup →
      ((∀ j ∈ os.map Prod.fst, j ∈ s'.redis.lists (redisKeys.dlq name) ∨
          j ∈ s'.redis.lists (target name s j)) ↔
        ∀ j ∈ os.map Prod.fst, (j, .lost) ∈ blamed l →
          2 ≤ (s.redis.lists (redisKeys.dlq name)).count j ∨
            j ∈ s.redis.lists (target name s j)) := by
    intro hnodup
    rw [List.forall_mem_map, List.forall_mem_map]
    exact forall₂_congr fun a ha => not_lost_iff hnodup hpassed hl₀ hdead ha
  constructor
  · intro h
    have hnodup := nodup_of_reported h
    refine ⟨hnodup, (hall hnodup).mp h.kept, ?_⟩
    exact (counted_iff hnodup hpassed hl₀ hdead (List.forall_mem_map.mp h.kept)).mp
      (h.counted _ _ rfl)
  · intro h
    have hkept := (hall h.distinct).mpr h.kept
    refine ⟨hkept, fun requeued failed hx => ?_⟩
    cases hx
    exact (counted_iff h.distinct hpassed hl₀ hdead (List.forall_mem_map.mp hkept)).mpr h.balanced

/-- Rejections of a requeue that do not show: its `LRANGE`, or what does not show job by
job. -/
def RequeueSpared (s : World) (name : QueueName) (ids : List JobId) (l : Log) : Prop :=
  l.any unlisted = true ∨ Spared s name ids l

theorem requeue_ends {request : RequeueBody} (hids : named s name request = some ids)
    (hdead : ∀ j ∈ ids, j ∈ s.redis.lists (redisKeys.dlq name)) :
    Ends (logged (solo env t)) (s, []) (Routes.requeue name request) fun x b =>
      Reported s name ids x b.1 ↔ RequeueSpared s name ids b.2 := by
  have hloop : ∀ l₀ : Log, blamed l₀ = [] → l₀.any unlisted = false →
      Ends (logged (solo env t)) (s, l₀) (Routes.requeueJobs name 0 0 ids) fun x b =>
        Reported s name ids x b.1 ↔ RequeueSpared s name ids b.2 := by
    intro l₀ hblamed hlisted
    refine (requeueJobs_ends name 0 0 ids s l₀).mono ?_
    rintro x ⟨s₁, l₁⟩ ⟨os, rfl, rfl, hpassed⟩
    have hnone : l₁.any unlisted = false := hpassed.listed.trans hlisted
    rw [zero_add, zero_add, RequeueSpared, hnone, reported_iff hpassed hblamed fun a ha =>
      List.count_pos_iff.mpr (hdead _ (List.mem_map_of_mem ha))]
    simp
  unfold Routes.requeue
  unfold named at hids
  split at hids
  · rename_i hall
    cases hids
    rw [if_pos hall]
    refine ends_solo (fun _ => rfl) ?_ fun _ _ => ?_
    · rw [Redis.lrange_all]
      exact hloop _ rfl rfl
    · refine iff_of_true ⟨fun j hj => Or.inl (hdead j hj), fun _ _ hx => ?_⟩ (Or.inl rfl)
      cases hx
  · rename_i hall
    rw [if_neg hall, hids]
    exact hloop [] rfl rfl

/-! ## One job -/

/-- A dead job is still dead, or it is in the ready list of its queue. -/
def Recoverable (s : World) (id : JobId) (s' : World) : Prop :=
  ∀ q, id ∈ s.redis.lists (redisKeys.dlq q) → id ∈ s'.redis.lists (redisKeys.dlq q) ∨
    ∃ job, s.pg.select id = some job ∧ id ∈ s'.redis.lists (target job.queueName s id)

/-- No rejection between the `LREM` and the `LPUSH` of a retry, unless it removes nothing or
the job is in its ready list already. -/
def RetrySpared (s : World) (id : JobId) (l : Log) : Prop :=
  (id, .lost) ∈ blamed l → ∀ job, s.pg.select id = some job →
    id ∈ s.redis.lists (redisKeys.dlq job.queueName) →
      id ∈ s.redis.lists (target job.queueName s id)

/-- While no list has changed, nothing is lost. -/
theorem recoverable_same {id : JobId} (hlists : s'.redis.lists = s.redis.lists)
    (hl : (id, .lost) ∉ blamed l) : Recoverable s id s' ↔ RetrySpared s id l := by
  refine iff_of_true (fun q hq => Or.inl ?_) fun h => absurd h hl
  rw [hlists]
  exact hq

/-- Once it has been pushed, the job is ready. -/
theorem recoverable_pushed {id : JobId} {job : JobRow} (hrow : s.pg.select id = some job)
    (hmem : id ∈ s'.redis.lists (target job.queueName s id)) (hl : (id, .lost) ∉ blamed l) :
    Recoverable s id s' ↔ RetrySpared s id l :=
  iff_of_true (fun _ _ => Or.inr ⟨job, hrow, hmem⟩) fun h => absurd h hl

/-- In between it is lost if it was dead and is nowhere else. -/
theorem recoverable_lifted {id : JobId} {job : JobRow} (hrow : s.pg.select id = some job)
    (hlists : s'.redis.lists = Function.update s.redis.lists (redisKeys.dlq job.queueName)
      (removeFirst id 0 (s.redis.lists (redisKeys.dlq job.queueName))))
    (hl : (id, .lost) ∈ blamed l) : Recoverable s id s' ↔ RetrySpared s id l := by
  obtain ⟨x, hx⟩ : ∃ x, target job.queueName s id = .queue x := exists_targetList _ _
  have htarget : s'.redis.lists (target job.queueName s id) =
      s.redis.lists (target job.queueName s id) := by
    rw [hlists, Function.update_of_ne (by simp [hx])]
  have hgone : id ∉ s'.redis.lists (redisKeys.dlq job.queueName) := by
    rw [hlists, Function.update_self]
    simp [removeFirst]
  constructor
  · intro h _ job' hjob' hmem
    obtain rfl : job = job' := Option.some.inj (hrow.symm.trans hjob')
    rcases h _ hmem with hstill | ⟨job', hjob', hready⟩
    · exact absurd hstill hgone
    · obtain rfl : job = job' := Option.some.inj (hrow.symm.trans hjob')
      rwa [htarget] at hready
  · intro h q hq
    by_cases hqueue : q = job.queueName
    · subst hqueue
      refine Or.inr ⟨job, hrow, ?_⟩
      rw [htarget]
      exact h hl job hrow hq
    · have hne : redisKeys.dlq q ≠ redisKeys.dlq job.queueName := fun hkey =>
        hqueue (Key.dlq.inj hkey)
      refine Or.inl ?_
      rw [hlists, Function.update_of_ne hne]
      exact hq

theorem retry_ends (s : World) (id : JobId) :
    Ends (logged (solo env t)) (s, []) (Routes.retry id) fun _ b =>
      Recoverable s id b.1 ↔ RetrySpared s id b.2 := by
  refine ends_solo (fun _ => rfl) ?_ fun _ _ => recoverable_same rfl (by simp [blamed, blame])
  cases hrow : s.pg.select id with
  | none => exact ends_pure (recoverable_same rfl (by simp [blamed, blame]))
  | some job =>
      show Ends _ _ (if _ then _ else _) _
      split
      · exact ends_pure (recoverable_same rfl (by simp [blamed, blame]))
      · have htarget : targetList job.queueName
            ((((s.redis.jobs (redisKeys.job id)).merge Routes.resetFields).priority).getD
              "normal") = target job.queueName s id := rfl
        refine ends_solo (fun _ => rfl) ?_ fun _ _ => recoverable_same rfl (by simp [blamed, blame])
        refine ends_solo (fun _ => rfl) ?_ fun _ _ => recoverable_same rfl (by simp [blamed, blame])
        refine ends_solo (fun _ => rfl) ?_ fun _ _ => recoverable_same rfl (by simp [blamed, blame])
        refine ends_bind (fun _ b => Recoverable s id b.1 ↔ RetrySpared s id b.2) ?_
          (fun _ _ h => ends_pure h) fun _ _ h => h
        refine ends_solo (fun _ => rfl) ?_ fun _ _ =>
          recoverable_lifted hrow rfl (by simp [blamed, blame])
        refine ends_solo (fun _ => rfl) ?_ fun _ _ =>
          recoverable_lifted hrow rfl (by simp [blamed, blame])
        refine ends_solo (fun _ => rfl) ?_ (by simp [Cmd.faultable])
        refine ends_solo_last (fun _ => rfl) ?_ fun _ _ => ?_
        · refine recoverable_pushed hrow ?_ (by simp [blamed, blame])
          simp [Write.apply, htarget]
        · refine recoverable_pushed hrow ?_ (by simp [blamed, blame])
          simp [Write.apply, htarget]

/-- **When a failed retry or requeue leaves every job recoverable and correctly reported.**
For any stores, any requests and any pattern of rejections: exactly when the rejections do not
show.  For distinct ids with one entry each in the dead-letter queue, and in no ready list,
these are the rejections before the `LREM` and, for a retry, that of the event. -/
theorem recoverable_iff :
    (∀ (s : World) (name : QueueName) (request : RequeueBody) (ids : List JobId) x s' l,
      named s name request = some ids → (∀ j ∈ ids, j ∈ s.redis.lists (redisKeys.dlq name)) →
      Runs (logged (solo env (.requeue name request))) (s, []) (Routes.requeue name request) x
        (s', l) → (Reported s name ids x s' ↔ RequeueSpared s name ids l)) ∧
    ∀ (s : World) (id : JobId) x s' l,
      Runs (logged (solo env (.retry id))) (s, []) (Routes.retry id) x (s', l) →
        (Recoverable s id s' ↔ RetrySpared s id l) :=
  ⟨fun _ _ _ _ x s' l hids hdead hrun => requeue_ends hids hdead x (s', l) hrun,
    fun s id x s' l hrun => retry_ends s id x (s', l) hrun⟩

/-- A request for a whole queue. -/
def whole : RequeueBody := { all := true }

/-- The theorem on a requeue whose `UPDATE` is rejected, and on a retry whose event is: the job
is still dead and counted as failed, or it is ready. -/
theorem recoverable_rejected :
    (∃ x s' l, Runs (logged (solo sample (.requeue "default" whole))) (Revival.grave, [])
      (Routes.requeue "default" whole) x (s', l) ∧ blamed l = [(j1.text, .held)] ∧
      Reported Revival.grave "default" [j1.text] x s') ∧
    ∃ x s' l, Runs (logged (solo sample (.retry j1.text))) (Revival.grave, []) (Routes.retry j1.text) x
      (s', l) ∧ blamed l = [(j1.text, .untold)] ∧ Recoverable Revival.grave j1.text s' := by
  have hrequeue : (rehearse sample (.requeue "default" whole) [.plain, .fault] Revival.grave []
      (Routes.requeue "default" whole)).any
        (fun a => decide (blamed a.2.2 = [(j1.text, .held)])) = true := by
    decide +kernel
  have hretry : (rehearse sample (.retry j1.text)
      [.plain, .plain, .plain, .plain, .plain, .plain, .plain, .fault] Revival.grave []
      (Routes.retry j1.text)).any (fun a => decide (blamed a.2.2 = [(j1.text, .untold)])) = true := by
    decide +kernel
  have hdead : ∀ j ∈ [j1.text], j ∈ Revival.grave.redis.lists (redisKeys.dlq "default") := by
    decide +kernel
  have hone : (Revival.grave.redis.lists (redisKeys.dlq "default")).count j1.text = 1 := by
    decide +kernel
  obtain ⟨x, s', l, hrun, htest⟩ := exists_runs_of_rehearse _ hrequeue
  obtain ⟨y, s'', l', hrun', htest'⟩ := exists_runs_of_rehearse _ hretry
  have hl : blamed l = [(j1.text, .held)] := of_decide_eq_true htest
  have hl' : blamed l' = [(j1.text, .untold)] := of_decide_eq_true htest'
  refine ⟨⟨x, s', l, hrun, hl, ?_⟩, y, s'', l', hrun', hl', ?_⟩
  · refine (recoverable_iff.1 Revival.grave "default" whole [j1.text] x s' l (by decide +kernel) hdead
      hrun).mpr (Or.inr ⟨by decide, by simp [hl], ?_⟩)
    simp [Late, hl, hone]
  · refine (recoverable_iff.2 Revival.grave j1.text y s'' l' hrun').mpr fun hlost => ?_
    rw [hl'] at hlost
    simp at hlost

/-- The `LPUSH` is rejected: the job is in no list any more, and is counted as failed. -/
theorem rejected_push :
    ∃ x s' l, Runs (logged (solo sample (.requeue "default" whole))) (Revival.grave, [])
      (Routes.requeue "default" whole) x (s', l) ∧
      named Revival.grave "default" whole = some [j1.text] ∧
      s'.redis.lists (redisKeys.dlq "default") = [] ∧
      s'.redis.lists (redisKeys.queue "default") = [] ∧
      ¬ Reported Revival.grave "default" [j1.text] x s' := by
  have hplay : (rehearse sample (.requeue "default" whole)
      [.plain, .plain, .plain, .plain, .plain, .fault] Revival.grave []
      (Routes.requeue "default" whole)).any (fun a =>
        decide (a.2.1.redis.lists (redisKeys.dlq "default") = [] ∧
          a.2.1.redis.lists (redisKeys.queue "default") = [])) = true := by
    decide +kernel
  obtain ⟨x, s', l, hrun, htest⟩ := exists_runs_of_rehearse _ hplay
  obtain ⟨hdlq, hqueue⟩ := of_decide_eq_true htest
  refine ⟨x, s', l, hrun, by decide +kernel, hdlq, hqueue, fun h => ?_⟩
  have htarget : target "default" Revival.grave j1.text = redisKeys.queue "default" := by
    decide +kernel
  have hkept := h.kept j1.text (by decide)
  rw [htarget, hdlq, hqueue] at hkept
  simp at hkept

end Salvage

end NexusQueue
