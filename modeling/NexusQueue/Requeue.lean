/-
# Dead jobs come back once

Two requests bring a dead job back: both reset its records, remove its id from the
dead-letter queue with `LREM`, and push it to its ready list.  Neither looks at the
reply of its `LREM`, so two requests for one job both push it.

When every `LREM` of a request finds the job it is to remove, the pushes are paid
for.  At any moment the pushes so far, the requests between their `LREM` and their
`LPUSH`, and the entries in the dead-letter queue are together at most the entries
there at the start and the dead-letterings since.

The runs start from stores with any contents.
-/
import NexusQueue.Tokens
import NexusQueue.Conduct
import NexusQueue.Transition

namespace NexusQueue

/-- The entry of a dead-letter queue a command removes. -/
def Cmd.lifts : Cmd → Option (QueueName × JobId)
  | .write (.lrem (.dlq q) _ j) => some (q, j)
  | _ => none

/-- Neutral commands remove nothing from a dead-letter queue. -/
theorem Cmd.neutral.lifts {c : Cmd} (h : c.neutral) : c.lifts = none := by
  cases c with
  | write w => cases w <;> first | rfl | exact h.elim
  | _ => rfl

namespace Requeue

/-- Every request that is about to remove a job from a dead-letter queue finds it
there. -/
def LiftsFind (c : State) : Action → Prop
  | .start t => t.external
  | .call i _ => ∀ e ∈ (nextCmd c i).bind Cmd.lifts, e.2 ∈ c.store.redis.lists (redisKeys.dlq e.1)
  | _ => True

instance (c : State) : (a : Action) → Decidable (LiftsFind c a)
  | .start t => inferInstanceAs (Decidable t.external)
  | .call i _ => inferInstanceAs (Decidable
      (∀ e ∈ (nextCmd c i).bind Cmd.lifts, e.2 ∈ c.store.redis.lists (redisKeys.dlq e.1)))
  | .halt _ | .drift _ => .isTrue trivial

/-- How often a request, at work on the dead-letter queue of `q`, pushes `j`. -/
def places (q : QueueName) (j : JobId) (l : Phase) (c : Cmd) : ℕ :=
  match l, c with
  | .placing j' q' _ _, .write (.lpush _ _) => if q' = q ∧ j' = j then 1 else 0
  | _, _ => 0

/-- How often a command puts `j` into the dead-letter queue of `q`. -/
def buries (q : QueueName) (j : JobId) : Cmd → ℕ
  | .write (.lpush (.dlq q') j') => if q' = q ∧ j' = j then 1 else 0
  | _ => 0

/-- The number of pushes of `j`, removed from the dead-letter queue of `q`, by
requests. -/
def requeues (env : Env) (c : State) (q : QueueName) (j : JobId) : ℕ :=
  counted (custody env) (fun _ l cmd r => if r.isOk then places q j l cmd else 0) c.pool

/-- The number of times `j` has been put into the dead-letter queue of `q`. -/
def burials (env : Env) (c : State) (q : QueueName) (j : JobId) : ℕ :=
  counted (custody env) (fun _ _ cmd r => if r.isOk then buries q j cmd else 0) c.pool

/-- What is counted of a job: requests that have removed it and not pushed it yet,
pushes, and dead-letterings. -/
inductive Passage where
  | lifted
  | placed
  | buried
  deriving DecidableEq

/-- The request is between its `LREM` and its `LPUSH`. -/
def lifting (q : QueueName) (j : JobId) : Phase → Option Passage
  | .lifted j' q' _ | .placing j' q' _ _ => if q' = q ∧ j' = j then some .lifted else none
  | _ => none

/-- What a command that succeeds counts for. -/
def counts (q : QueueName) (j : JobId) (l : Phase) (c : Cmd) : Passage → ℕ
  | .lifted => 0
  | .placed => places q j l c
  | .buried => buries q j c

/-- Pushes, requests on their way and entries are paid for by the `n` entries at
the start and the dead-letterings since. -/
def PaidFor (q : QueueName) (j : JobId) (n : ℕ) (s : World) (g : Passage → ℕ) : Prop :=
  g .placed + g .lifted + (s.redis.lists (.dlq q)).count j ≤ n + g .buried

/-- Requeueing as a discipline over the custody protocol. -/
def requeueing (env : Env) (q : QueueName) (j : JobId) (n : ℕ) :
    Discipline (machine env) (custody env) (Passage → ℕ) where
  good _ := True
  val _ l := holding (lifting q j l)
  emit _ l c r := if r.isOk then counts q j l c else 0
  loc t l _ := Aimed t l
  inv := PaidFor q j n
  allow s _ _ _ c _ := ∀ e ∈ c.lifts, e.2 ∈ s.redis.lists (redisKeys.dlq e.1)
  post := Concluded

section Step

variable {env : Env} {q : QueueName} {j : JobId} {n : ℕ} {s s' : World} {t : Task} {l l' : Phase}
  {c : Cmd} {r : Except Err c.Resp} {ts : List Task} {g : Passage → ℕ}

/-- A request on its way is neither a push nor a dead-lettering. -/
theorem holding_lifting {m : Passage} (hm : m ≠ .lifted) : holding (lifting q j l) m = 0 := by
  unfold lifting
  split
  · split
    · exact if_neg (by simpa using hm.symm)
    · rfl
  · split
    · exact if_neg (by simpa using hm.symm)
    · rfl
  · rfl

/-- Only an `LPUSH` is a push. -/
theorem places_eq_zero (hc : ∀ k v, c ≠ .write (.lpush k v)) : places q j l c = 0 := by
  unfold places
  split
  · exact absurd rfl (hc _ _)
  · rfl

/-- A task that is not about to place a job pushes none. -/
theorem places_of_phase (hl : ∀ j' q' k todo, l ≠ .placing j' q' k todo) :
    places q j l c = 0 := by
  unfold places
  split
  · exact absurd rfl (hl _ _ _ _)
  · rfl

/-- Removing a job that is in a list leaves fewer of its entries. -/
theorem count_removeFirst_lt {v : String} {l : List String} (hv : v ∈ l) (n : ℕ) :
    (removeFirst v n l).count v + 1 ≤ l.count v := by
  have hpos : 0 < l.count v := List.count_pos_iff.mpr hv
  fun_induction removeFirst v n l with
  | case1 l =>
      have hzero : (l.filter (· ≠ v)).count v = 0 := by
        rw [List.count_eq_zero]
        intro hmem
        simpa using (List.mem_filter.mp hmem).2
      omega
  | case2 l =>
      rw [List.count_erase_self]
      omega
  | case3 n l ih =>
      have herase : (l.erase v).count v = l.count v - 1 := List.count_erase_self
      have hle := (removeFirst_sublist v (n + 1) (l.erase v)).count_le v
      omega

/-- Removing another job leaves the count alone. -/
theorem count_removeFirst_ne {v x : String} (hx : x ≠ v) (n : ℕ) (l : List String) :
    (removeFirst v n l).count x = l.count x := by
  fun_induction removeFirst v n l with
  | case1 l => exact List.count_filter (by simpa using hx)
  | case2 l => exact List.count_erase_of_ne hx
  | case3 n l ih =>
      rw [ih]
      exact List.count_erase_of_ne hx

/-- A dead-letter queue changes only when a call puts a job into it, or a request
removes one. -/
theorem dlq_of_effect (he : Effect env s t l c r s' l' ts) (ha : Aimed t l) (q : QueueName) :
    (s'.redis.lists (.dlq q) = s.redis.lists (.dlq q) ∧ ∀ j, c.lifts ≠ some (q, j)) ∨
      (∃ j, c = .write (.lpush (.dlq q) j) ∧ r.isOk ∧
        s'.redis.lists (.dlq q) = j :: s.redis.lists (.dlq q)) ∨
      ∃ j n, c = .write (.lrem (.dlq q) n j) ∧
        s'.redis.lists (.dlq q) = removeFirst j n (s.redis.lists (.dlq q)) := by
  have hne : ∀ {q'}, q ≠ q' → Key.dlq q ≠ Key.dlq q' := fun h h' => h (Key.dlq.inj h')
  cases he with
  | still hn hf hw => exact Or.inl ⟨hf.dlq q, fun j => by rw [hn.lifts]; simp⟩
  | @publishReady t id q' p f hc hid hq hpr =>
      obtain ⟨x, hx⟩ := exists_targetList q' p
      exact Or.inl ⟨by simp [World.register, hx], by simp [Cmd.lifts]⟩
  | promote | pushOrphan =>
      obtain ⟨x, rfl⟩ := ha
      exact Or.inl ⟨by simp, by simp [Cmd.lifts]⟩
  | place ht =>
      cases t with
      | retry _ | requeue _ _ =>
          obtain ⟨x, rfl⟩ := ha
          exact Or.inl ⟨by simp, by simp [Cmd.lifts]⟩
      | _ => exact ht.elim
  | pull hc hv hpulled =>
      refine Or.inl ⟨by simp, ?_⟩
      rcases hc with rfl | rfl <;> simp [Cmd.lifts]
  | pullNothing hc =>
      refine Or.inl ⟨rfl, ?_⟩
      rcases hc with rfl | rfl <;> simp [Cmd.lifts]
  | ack | brokenAck => exact Or.inl ⟨by simp, by simp [Cmd.lifts]⟩
  | @pushBack w n j h =>
      obtain ⟨x, hx⟩ := exists_targetList (h.queueName.getD (env.queue w))
        (h.priority.getD "normal")
      exact Or.inl ⟨by simp [hx], by simp [Cmd.lifts]⟩
  -- the queue is the one in the hash, or the default
  | @bury w n j h =>
      by_cases hq : q = h.queueName.getD "default"
      · subst hq
        exact Or.inr (Or.inl ⟨j, rfl, rfl, by simp⟩)
      · exact Or.inl ⟨by simp [Function.update_of_ne (hne hq)], by simp [Cmd.lifts]⟩
  | @brokenBury w n j q' =>
      by_cases hq : q = q'
      · subst hq
        exact Or.inr (Or.inl ⟨j, rfl, rfl, by simp⟩)
      · exact Or.inl ⟨by simp [Function.update_of_ne (hne hq)], by simp [Cmd.lifts]⟩
  -- LREM with a count of 0 or 1, which may find nothing
  | @lift t id q' todo n ht =>
      by_cases hq : q = q'
      · subst hq
        exact Or.inr (Or.inr ⟨id, n, rfl, by simp⟩)
      · refine Or.inl ⟨by simp [Function.update_of_ne (hne hq)], fun j h => ?_⟩
        exact hq (congrArg Prod.fst (Option.some.inj h)).symm
  | dropHeartbeat | dropList => exact Or.inl ⟨by simp [Write.apply], by simp [Cmd.lifts]⟩
  | _ => exact Or.inl ⟨rfl, by simp [Cmd.lifts]⟩

/-- A request gets on its way by removing the job, and pushes it at the end of its
way. -/
theorem lifting_of_effect (he : Effect env s t l c r s' l' ts) :
    places q j l c + holding (lifting q j l') .lifted ≤
      holding (lifting q j l) .lifted + (if c.lifts = some (q, j) then 1 else 0) := by
  have off : places q j l c = 0 → lifting q j l' = none →
      places q j l c + holding (lifting q j l') .lifted ≤
        holding (lifting q j l) .lifted + (if c.lifts = some (q, j) then 1 else 0) := by
    intro hp hnone
    rw [hp, hnone]
    exact Nat.zero_le _
  have stays : (∀ k v, c ≠ .write (.lpush k v)) → l' = l →
      places q j l c + holding (lifting q j l') .lifted ≤
        holding (lifting q j l) .lifted + (if c.lifts = some (q, j) then 1 else 0) := by
    rintro hc rfl
    rw [places_eq_zero hc, zero_add]
    exact Nat.le_add_right _ _
  cases he with
  | still hn hf hw => exact stays (by rintro k v rfl; exact hn) rfl
  | @lift t id q' todo n ht =>
      rw [places_of_phase (by simp), zero_add]
      by_cases hqj : q' = q ∧ id = j
      · obtain ⟨rfl, rfl⟩ := hqj
        simp [lifting, Cmd.lifts]
      · simp [lifting, hqj]
  | readLifted ht =>
      rw [places_eq_zero (by simp), zero_add]
      exact Nat.le_add_right _ _
  | @place t id q' k todo ht =>
      by_cases hqj : q' = q ∧ id = j
      · obtain ⟨rfl, rfl⟩ := hqj
        simp [lifting, places]
      · simp [lifting, places, hqj]
  | handler | inert _ _ => exact stays (by simp) rfl
  | publishReady _ _ _ _ | publishDelayed _ _ _ =>
      refine off (places_eq_zero (by simp)) ?_
      cases t <;> rfl
  | @pull w x v c r hc hv hpulled =>
      refine off (places_of_phase (by simp)) ?_
      cases truthy (some v) <;> rfl
  | @settle w n j' l =>
      rw [places_eq_zero (by simp), zero_add]
      cases l <;> exact Nat.le_add_right _ _
  | clock _ | draw _ _ _ _ | insert _ _ _ _ _ | insertFails _ _ _ _ | cronFails _ _ | missing _
  | readDue _ | readJob _ => exact off (places_eq_zero (by simp)) rfl
  | _ => exact off (places_of_phase (by simp)) rfl

/-- Entries come into a dead-letter queue by dead-lettering, and a request that finds
one takes it out. -/
theorem entries_of_effect (he : Effect env s t l c r s' l' ts) (ha : Aimed t l)
    (hfind : ∀ e ∈ c.lifts, e.2 ∈ s.redis.lists (redisKeys.dlq e.1)) :
    (s'.redis.lists (.dlq q)).count j + (if c.lifts = some (q, j) then 1 else 0) ≤
      (s.redis.lists (.dlq q)).count j + if r.isOk then buries q j c else 0 := by
  rcases dlq_of_effect he ha q with ⟨hsame, hlift⟩ | ⟨j', rfl, hr, hnew⟩ | ⟨j', n, rfl, hrest⟩
  · rw [hsame, if_neg (hlift j)]
    omega
  · rw [hnew, hr, List.count_cons]
    simp [Cmd.lifts, buries]
  · rw [hrest]
    by_cases hj : j' = j
    · subst hj
      have hlt : (removeFirst j' n (s.redis.lists (.dlq q))).count j' + 1 ≤
          (s.redis.lists (.dlq q)).count j' := count_removeFirst_lt (hfind (q, j') rfl) n
      have hlift : Cmd.lifts (.write (.lrem (.dlq q) n j')) = some (q, j') := rfl
      rw [if_pos hlift]
      omega
    · rw [count_removeFirst_ne (Ne.symm hj)]
      simp [Cmd.lifts, hj]

/-- **Step lemma.**  Every effect keeps pushes, requests on their way and entries paid
for. -/
theorem PaidFor.effect (h : PaidFor q j n s (holding (lifting q j l) + g)) (ha : Aimed t l)
    (hfind : ∀ e ∈ c.lifts, e.2 ∈ s.redis.lists (redisKeys.dlq e.1))
    (he : Effect env s t l c r s' l' ts) :
    PaidFor q j n s'
      (holding (lifting q j l') + ((if r.isOk then counts q j l c else 0) + g)) := by
  have hhand : places q j l c + holding (lifting q j l') .lifted ≤
      holding (lifting q j l) .lifted + (if c.lifts = some (q, j) then 1 else 0) :=
    lifting_of_effect he
  have hentry := entries_of_effect he ha hfind (j := j) (q := q)
  have hplaced : (if r.isOk then counts q j l c else 0) .placed ≤ places q j l c := by
    split
    · exact le_refl _
    · exact Nat.zero_le _
  have hlifted : (if r.isOk then counts q j l c else 0) .lifted = 0 := by
    split <;> rfl
  have hburied : (if r.isOk then counts q j l c else 0) .buried =
      if r.isOk then buries q j c else 0 := by
    split <;> rfl
  unfold PaidFor at h ⊢
  simp only [Pi.add_apply, holding_lifting (by decide : Passage.placed ≠ .lifted),
    holding_lifting (by decide : Passage.buried ≠ .lifted), hlifted, hburied, zero_add] at h ⊢
  omega

/-- No task starts on its way. -/
theorem lifting_start (t : Task) : lifting q j (Phase.start t) = none := by
  cases t with
  | requeue q' b => rcases Phase.start_requeue q' b with h | ⟨_, -, h⟩ <;> rw [h] <;> rfl
  | _ => rfl

/-- A rejection takes no job out of a queue. -/
theorem lifting_error (t : Task) (l : Phase) (c : Cmd) :
    holding (lifting q j (l.afterError t c)) .lifted ≤ holding (lifting q j l) .lifted := by
  have hnone : ∀ l', lifting q j l' = none →
      holding (lifting q j l') .lifted ≤ holding (lifting q j l) .lifted := by
    intro l' h
    rw [h]
    exact Nat.zero_le _
  cases t with
  | processOne _ _ _ => cases c <;> first | exact le_refl _ | exact hnone _ rfl
  | requeue _ _ => cases c <;> first | exact le_refl _ | (cases l <;> exact hnone _ rfl)
  | _ => exact hnone _ rfl

/-- **Requeueing is a sound discipline while every removal finds its job.** -/
theorem requeueing_sound : (requeueing env q j n).Sound LiftsFind where
  follows t _ := custody_follows t
  call s t l c o r s' F h := by
    have hstarts : (requeueing env q j n).starts ((machine env).forks t c r) = 0 :=
      (requeueing env q j n).starts_eq_zero _ fun t _ => congrArg holding (lifting_start t)
    rw [hstarts, add_zero]
    rcases (exec_cases h.exec).2 with ⟨err, -, -, rfl, rfl⟩ | ⟨-, ha⟩
    · refine ⟨?_, aimed_error h.loc c, fun t' _ => ⟨trivial, aimed_start t'⟩⟩
      have hinv : PaidFor q j n s' (holding (lifting q j l) + F) := h.inv
      have herr : holding (lifting q j (l.afterError t c)) .lifted ≤
          holding (lifting q j l) .lifted := lifting_error t l c
      change PaidFor q j n s' (holding (lifting q j (l.afterError t c)) + (0 + F))
      unfold PaidFor at hinv ⊢
      simp only [Pi.add_apply, zero_add,
        holding_lifting (by decide : Passage.placed ≠ .lifted),
        holding_lifting (by decide : Passage.buried ≠ .lifted)] at hinv ⊢
      omega
    · have he := effect_of_answer h.permits ha
      exact ⟨PaidFor.effect h.inv h.loc h.allow he, aimed_of_effect he h.loc,
        fun t' _ => ⟨trivial, aimed_start t'⟩⟩
  stable _ _ _ _ _ _ _ _ _ _ _ _ _ _ ha := ha
  start c t _ hc := by
    have hnone : (requeueing env q j n).val t ((custody env).start t) = 0 :=
      congrArg holding (lifting_start t)
    rw [hnone, zero_add]
    exact ⟨trivial, hc.1, aimed_start t⟩
  allows c i o p cmd k hok _ hp hprog := by
    intro e he
    exact hok e (by simpa [nextCmd, hp, hprog] using he)
  drift c d s' _ hc hd := by
    refine ⟨?_, fun _ _ _ ha => ha⟩
    cases d <;> cases hd <;> exact hc.1

end Step

section Result

variable {env : Env} {c₀ c : State}

/-- **Requests requeue a dead job once.**  From any stores, in every run in which
every request finds the job it removes from a dead-letter queue: at every moment the
requests have pushed a job of the queue at most as often as it was in the queue at
the start and has been dead-lettered since. -/
theorem requeues_le (hpool : c₀.pool = []) (hc : (machine env).Reach LiftsFind (· = c₀) c)
    (q : QueueName) (j : JobId) :
    requeues env c q j ≤ (c₀.store.redis.lists (redisKeys.dlq q)).count j + burials env c q j := by
  have hinit : ∀ c, c = c₀ →
      (requeueing env q j ((c₀.store.redis.lists (redisKeys.dlq q)).count j)).PoolOk c := by
    rintro c rfl
    refine ⟨?_, ?_⟩
    · rw [hpool]
      simp [requeueing, PaidFor, Discipline.total]
    · rw [hpool]
      simp
  obtain ⟨hpaid, -⟩ := requeueing_sound.reach hinit hc
  have hplaced := (requeueing env q j ((c₀.store.redis.lists (redisKeys.dlq q)).count j)).total_eq_counted
    (k := .placed) (fun _ l cmd r => if r.isOk then places q j l cmd else 0)
    (fun _ _ => holding_lifting (by decide)) (fun t l cmd r => by cases r <;> rfl) c.pool
  have hburied := (requeueing env q j ((c₀.store.redis.lists (redisKeys.dlq q)).count j)).total_eq_counted
    (k := .buried) (fun _ _ cmd r => if r.isOk then buries q j cmd else 0)
    (fun _ _ => holding_lifting (by decide)) (fun t l cmd r => by cases r <;> rfl) c.pool
  change PaidFor q j _ c.store _ at hpaid
  unfold PaidFor at hpaid
  rw [hplaced, hburied] at hpaid
  unfold requeues burials
  omega

/-- **Requests requeue a dead job once, until it is dead-lettered again.**  The case
of a dead-letter queue without repeated ids. -/
theorem requeued_once (hpool : c₀.pool = []) {q : QueueName}
    (hnodup : (c₀.store.redis.lists (redisKeys.dlq q)).Nodup)
    (hc : (machine env).Reach LiftsFind (· = c₀) c) (j : JobId) :
    requeues env c q j ≤ 1 + burials env c q j := by
  have hle := requeues_le hpool hc q j
  have hone : (c₀.store.redis.lists (redisKeys.dlq q)).count j ≤ 1 :=
    List.nodup_iff_count_le_one.mp hnodup j
  omega

/-- One dead job, and its row. -/
def buried : State where
  store :=
    { redis :=
        { lists := Function.update (fun _ => []) (.dlq "default") [j1.text]
          jobs := Function.update (fun _ => {}) (.job j1.text)
            (newJobHash j1.text "default" "echo" none .dlq (.of 1) "normal" 0) }
      pg :=
        { rows := [{ id := j1.text, queueName := "default", jobName := "echo", payload := .null
                     status := .dlq, maxAttempts := 1, createdAt := 0 }]
          room := fun _ _ _ => true
          printed := by simpa using Uuid.printed_text j1 }
      ids := {j1.text} }
  pool := []

/-- The theorem on a run in which a retry brings the job back, and a requeue of the
whole queue finds nothing any more. -/
theorem requeued_once_by_retry :
    ∃ c, (machine sample).Reach LiftsFind (· = buried) c ∧ requeues sample c "default" j1.text = 1 ∧
      requeues sample c "default" j1.text ≤ 1 + burials sample c "default" j1.text := by
  obtain ⟨c, hc, ht⟩ := Machine.exists_reach (machine sample) LiftsFind (· = buried) rfl
    ([.start (.retry j1.text)] ++ goes 0 4 ++ [.start (.requeue "default" { all := true })] ++
      goes 1 1 ++ goes 0 4)
    (fun c => decide (requeues sample c "default" j1.text = 1)) (by decide +kernel)
  have hnodup : (buried.store.redis.lists (redisKeys.dlq "default")).Nodup := by
    decide +kernel
  exact ⟨c, hc, of_decide_eq_true ht, requeued_once rfl hnodup hc j1.text⟩

/-- Two retries that have both read the row before one of them writes it both push
the job. -/
theorem requeued_twice :
    ∃ c, (machine sample).Reach Reliable (· = buried) c ∧
      (buried.store.redis.lists (redisKeys.dlq "default")).Nodup ∧
      j1.text ∈ buried.store.redis.lists (redisKeys.dlq "default") ∧
      burials sample c "default" j1.text = 0 ∧ requeues sample c "default" j1.text = 2 := by
  obtain ⟨c, hc, ht⟩ := Machine.exists_reach (machine sample) Reliable (· = buried) rfl
    ([.start (.retry j1.text), .start (.retry j1.text)] ++ goes 0 1 ++ goes 1 1 ++ goes 0 7 ++
      goes 1 7)
    (fun c => decide (burials sample c "default" j1.text = 0 ∧
      requeues sample c "default" j1.text = 2)) (by decide +kernel)
  exact ⟨c, hc, by decide +kernel, by decide +kernel, of_decide_eq_true ht⟩

end Result

end Requeue

end NexusQueue
