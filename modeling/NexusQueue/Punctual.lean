/-
# When promotion is punctual

A scheduler works off a list of due jobs that it has read once, so what it
removes may have been added again since, with a later score.  As long as no job
is put off in this way while a scheduler still has it on its list, every job that
is removed from a delayed set is due.
-/
import NexusQueue.Delayed

namespace NexusQueue

namespace Promotion

/-- How often a task will still come across `j` on its due list of `q`. -/
def awaited (q : QueueName) (j : JobId) : Task → Phase → ℕ
  | .tick, .due _ q' todo | .tick, .inHand _ q' _ _ todo => if q' = q then todo.count j else 0
  | _, _ => 0

/-- Some scheduler still has `j` on its due list of `q`. -/
def Awaited (env : Env) (c : State) (q : QueueName) (j : JobId) : Prop :=
  ∃ p ∈ c.pool, awaited q j p.task ((custody env).phase p.task p.hist) ≠ 0

instance (env : Env) (c : State) (q : QueueName) (j : JobId) : Decidable (Awaited env c q j) :=
  inferInstanceAs (Decidable (∃ p ∈ c.pool, _))

/-- The entries the next command of the `i`-th process adds to delayed sets. -/
def nextDelays (c : State) (i : ℕ) : List (QueueName × ℚ × JobId) :=
  (nextCmd c i).elim [] Cmd.delays

/-- No job is put off while a scheduler has it on its due list: an entry that is
added with a score after the present time is on no such list. -/
def NeverPutOff (env : Env) (c : State) : Action → Prop
  | .start t => t.external
  | .call i o => o.works → ∀ e ∈ nextDelays c i, (c.store.clock : ℚ) < e.2.1 →
      ¬ Awaited env c e.1 e.2.2
  | _ => True

instance (env : Env) (c : State) : (a : Action) → Decidable (NeverPutOff env c a)
  | .start t => inferInstanceAs (Decidable t.external)
  | .call i o => inferInstanceAs (Decidable (o.works = true → ∀ e ∈ nextDelays c i,
      (c.store.clock : ℚ) < e.2.1 → ¬ Awaited env c e.1 e.2.2))
  | .halt _ | .drift _ => .isTrue trivial

/-- The clock reading of a scheduler is past, and what is on its due list and
still in the delayed set is due. -/
def timely : Task → Phase → World → Prop
  | .tick, .clocked now, s => now ≤ s.clock
  | .tick, .due now q todo, s | .tick, .inHand now q _ _ todo, s => now ≤ s.clock ∧
      ∀ j ∈ todo, ∀ score, (s.redis.zsets (.delayed q)).score? j = some score → score ≤ s.clock
  | _, _, _ => True

/-- Due lists as a discipline over the custody protocol. -/
def punctuality (env : Env) :
    Discipline (machine env) (custody env) (QueueName × JobId → ℕ) where
  good _ := True
  val t l := fun qj => awaited qj.1 qj.2 t l
  emit _ _ _ _ := 0
  loc := timely
  inv _ _ := True
  allow s g _ _ c o := o.works → ∀ e ∈ c.delays, (s.clock : ℚ) < e.2.1 → g (e.1, e.2.2) = 0
  post := Concluded

section Step

variable {env : Env} {s s' : World} {t : Task} {l l' : Phase} {c : Cmd} {o : Oracle}
  {r : Except Err c.Resp}

/-- A scheduler whose list is not touched by new entries stays timely. -/
theorem timely_later (h : timely t l s) (hclock : s.clock ≤ s'.clock)
    (hz : ∀ q j score, awaited q j t l ≠ 0 →
      (s'.redis.zsets (.delayed q)).score? j = some score →
      (s.redis.zsets (.delayed q)).score? j = some score ∨ score ≤ s'.clock) :
    timely t l s' := by
  have list : ∀ (now : ℕ) q (todo : List JobId), (∀ j, j ∈ todo → awaited q j t l ≠ 0) →
      (now ≤ s.clock ∧ ∀ j ∈ todo, ∀ score,
        (s.redis.zsets (.delayed q)).score? j = some score → score ≤ s.clock) →
      now ≤ s'.clock ∧ ∀ j ∈ todo, ∀ score,
        (s'.redis.zsets (.delayed q)).score? j = some score → score ≤ s'.clock := by
    intro now q todo ha ht
    refine ⟨ht.1.trans hclock, fun j hj score hs => ?_⟩
    rcases hz q j score (ha j hj) hs with hs | hs
    · exact (ht.2 j hj score hs).trans (by exact_mod_cast hclock)
    · exact hs
  cases t with
  | tick =>
      cases l with
      | clocked now => exact h.trans hclock
      | due now q todo => exact list now q todo (fun j hj => by simpa [awaited, List.count_eq_zero] using hj) h
      | inHand now q j k todo =>
          exact list now q todo (fun j hj => by simpa [awaited, List.count_eq_zero] using hj) h
      | _ => trivial
  | _ => cases l <;> trivial

/-- A task that is not at work on a due list is timely. -/
theorem timely_offDuty (h : OffDuty t l) : timely t l s := by
  cases t <;> cases l <;> trivial

/-- What a shift adds to the delayed sets is among what the command adds. -/
theorem Shift.score? (hs : Shift s t l c r s' l') {q : QueueName} {j : JobId} {score : ℚ}
    (h : (s'.redis.zsets (.delayed q)).score? j = some score) :
    (s.redis.zsets (.delayed q)).score? j = some score ∨ (q, score, j) ∈ c.delays := by
  cases hs with
  | still hz _ _ _ =>
      rw [hz] at h
      exact Or.inl h
  | @claim now q' j' todo hj =>
      rw [setDelayed_apply] at h
      split at h
      · rename_i hq
        subst hq
        rw [SortedSet.score?_zrem] at h
        split at h
        · cases h
        · exact Or.inl h
      · exact Or.inl h
  | @add t l c a s' l' q' score' j' hnone hoff hd hz =>
      rw [hz] at h
      split at h
      · rename_i hq
        subst hq
        rw [SortedSet.score?_zadd] at h
        split at h
        · rename_i hj
          cases h
          rw [hd, hj]
          exact Or.inr (List.mem_singleton_self _)
        · exact Or.inl h
      · exact Or.inl h
  | _ => exact Or.inl h

/-- **Step lemma.**  A scheduler that takes a step stays timely. -/
theorem timely_shift (h : timely t l s) (hclock : s'.clock = s.clock)
    (hs : Shift s t l c r s' l')
    (hput : ∀ e ∈ c.delays, (s.clock : ℚ) < e.2.1 → awaited e.1 e.2.2 t l = 0) :
    timely t l' s' := by
  have stay : timely t l s' := by
    refine timely_later h hclock.ge fun q j score ha hscore => ?_
    rcases hs.score? hscore with hold | hnew
    · exact Or.inl hold
    · right
      rw [hclock]
      by_contra hlt
      exact ha (hput _ hnew (lt_of_not_ge hlt))
  cases hs with
  | still hz hd hp hl =>
      rcases hl with rfl | ⟨-, hoff⟩
      · exact stay
      · exact timely_offDuty hoff
  | clock hfree => exact le_rfl
  | @read now q l hl =>
      have hnow : now ≤ s.clock := by
        rcases hl with rfl | ⟨q', rfl⟩
        · exact h
        · exact h.1
      refine ⟨hnow, fun j hj score hscore => ?_⟩
      obtain ⟨score', hscore', hle⟩ := (SortedSet.mem_rangeByScore _ _ _).mp hj
      rw [hscore] at hscore'
      cases hscore'
      exact (hle _ rfl).trans (by exact_mod_cast hnow)
  | skip hj => exact ⟨stay.1, fun j' hj' => stay.2 j' (List.mem_cons_of_mem _ hj')⟩
  | claim hj => exact ⟨stay.1, fun j' hj' => stay.2 j' (List.mem_cons_of_mem _ hj')⟩
  | route => exact stay
  | promote => exact stay
  | add hnone hoff hd hz => exact timely_offDuty hoff

/-- **Due lists are a sound discipline while nothing is put off.** -/
theorem punctuality_sound : (punctuality env).Sound (NeverPutOff env) where
  follows t _ := custody_follows t
  call s t l c o r s' F h := by
    refine ⟨trivial, ?_, fun t' ht' => ⟨trivial, ?_⟩⟩
    · rcases (exec_cases h.exec).2 with ⟨err, -, -, rfl, rfl⟩ | ⟨ho, ha⟩
      · change timely t (l.afterError t c) s'
        cases t <;> cases l <;> trivial
      · refine timely_shift h.loc (answer_clock ha) (shift_of_effect (effect_of_answer h.permits ha))
          fun e he hlt => ?_
        have hzero := h.allow (Oracle.works_of_takes ho) e he hlt
        simp only [punctuality, Pi.add_apply] at hzero
        omega
    · cases t' <;> trivial
  stable s t l c o r s' F h t₂ l₂ F₂ hF _ hk := by
    rcases (exec_cases h.exec).2 with ⟨err, -, -, rfl, rfl⟩ | ⟨ho, ha⟩
    · exact hk
    · have hclock := answer_clock ha
      refine timely_later hk hclock.ge fun q j score haw hscore => ?_
      rcases (shift_of_effect (effect_of_answer h.permits ha)).score? hscore with hold | hnew
      · exact Or.inl hold
      · right
        rw [hclock]
        by_contra hlt
        have hzero := h.allow (Oracle.works_of_takes ho) _ hnew (lt_of_not_ge hlt)
        rw [hF] at hzero
        simp only [punctuality, Pi.add_apply] at hzero
        omega
  start c t _ _ := ⟨trivial, trivial, by cases t <;> trivial⟩
  allows c i o p cmd k hok hc hp hprog ho e he hlt := by
    have hnone : ¬ Awaited env c e.1 e.2.2 :=
      hok ho e (by simpa [nextDelays, nextCmd, hp, hprog]) hlt
    refine (punctuality env).total_eq_zero (k := (e.1, e.2.2)) (fun p hp => ?_) fun _ _ _ _ => rfl
    exact by_contra fun hne => hnone ⟨p, hp, hne⟩
  drift c d s' _ _ hd := by
    refine ⟨trivial, fun t l _ hk => timely_later hk ?_ fun q j score _ hs => Or.inl ?_⟩
    · cases d <;> cases hd
      · exact Nat.le_add_right _ _
      · exact le_rfl
    · cases d <;> cases hd <;> exact hs

end Step

section Result

variable {env : Env} {c : State}

/-- **Punctual promotion.**  In every run in which no job is put off while a
scheduler has it on its due list, a scheduler that is about to remove a job from a
delayed set finds it there only with a score that is at most the present time. -/
theorem removed_only_when_due (hc : (machine env).Reach (NeverPutOff env) Blank c) {i : ℕ}
    {q : QueueName} {j : JobId} (hrem : AboutToRemove c i (redisKeys.delayed q) j) {score : ℚ}
    (hscore : (c.store.redis.zsets (redisKeys.delayed q)).score? j = some score) :
    score ≤ c.store.clock := by
  have hblank : ∀ c, Blank c → (punctuality env).PoolOk c := by
    rintro c ⟨now, room, rfl⟩
    exact ⟨trivial, by simp⟩
  obtain ⟨p, k, hp, hprog⟩ := hrem.call
  obtain ⟨-, hloc, hfol⟩ := (punctuality_sound.reach hblank hc).2 p (List.mem_of_getElem? hp)
  rw [hprog] at hfol
  have hperm : Permits env p.task ((custody env).phase p.task p.hist)
      (.zrem (redisKeys.delayed q) j) := hfol.1
  generalize (custody env).phase p.task p.hist = l at hloc hperm
  generalize p.task = t at hloc hperm
  cases hperm with
  | quiet hq => exact hq.elim
  | claimDue => exact hloc.2 j (by simp) score hscore

/-- The theorem on a run in which a scheduler is about to promote a due job. -/
theorem removed_only_when_due_once :
    ∃ c, (machine sample).Reach (NeverPutOff sample) Blank c ∧
      AboutToRemove c 1 (redisKeys.delayed "default") j1.text ∧
      (c.store.redis.zsets (redisKeys.delayed "default")).score? j1.text = some 1000 ∧
      (1000 : ℚ) ≤ c.store.clock := by
  obtain ⟨c, hc, ht⟩ := Machine.exists_reach (machine sample) (NeverPutOff sample) Blank
    blank_blank
    ([.start (.enqueue "echo" (some .null) { delay := some 1000 }), .call 0 (.fresh j1)] ++
      goes 0 6 ++ [.drift (.pass 1200), .start .tick, .call 1 (.members ["default"])] ++ goes 1 2)
    (fun c => decide (AboutToRemove c 1 (redisKeys.delayed "default") j1.text ∧
      (c.store.redis.zsets (redisKeys.delayed "default")).score? j1.text = some 1000))
    (by decide +kernel)
  obtain ⟨hrem, hscore⟩ := of_decide_eq_true ht
  exact ⟨c, hc, hrem, hscore, removed_only_when_due hc hrem hscore⟩

/-- Two schedulers have read the same due list.  One of them promotes the job, a
worker runs it, its handler throws, and it is put off to 2200; at 1200 the other
scheduler removes it all the same, and pushes it. -/
theorem removed_too_early :
    ∃ c c', (machine sample).Reach FaultFree Blank c ∧
      AboutToRemove c 2 (redisKeys.delayed "default") j1.text ∧ c.store.clock = 1200 ∧
      (c.store.redis.zsets (redisKeys.delayed "default")).score? j1.text = some 2200 ∧
      (machine sample).walk FaultFree c (goes 2 3) = some c' ∧
      c'.store.redis.lists (redisKeys.queue "default") = [j1.text] := by
  obtain ⟨c, hc, ht⟩ := Machine.exists_reach (machine sample) FaultFree Blank blank_blank
    ([.start (.enqueue "echo" (some .null) { delay := some 1000 }), .call 0 (.fresh j1)] ++
      goes 0 6 ++ [.drift (.pass 1200), .start .tick, .start .tick,
        .call 1 (.members ["default"]), .call 2 (.members ["default"])] ++
      goes 1 2 ++ goes 2 2 ++ goes 1 4 ++ [.start (.start "w1")] ++ goes 3 8 ++ goes 4 5 ++
      goes 5 6 ++ throws 5 ++ goes 5 5)
    (fun c => decide (AboutToRemove c 2 (redisKeys.delayed "default") j1.text ∧
        c.store.clock = 1200 ∧
        (c.store.redis.zsets (redisKeys.delayed "default")).score? j1.text = some 2200) &&
      ((machine sample).walk FaultFree c (goes 2 3)).any fun c' : State =>
        decide (c'.store.redis.lists (redisKeys.queue "default") = [j1.text]))
    (by decide +kernel)
  rw [Bool.and_eq_true, Option.any_eq_true] at ht
  obtain ⟨hnow, c', hc', hpushed⟩ := ht
  obtain ⟨hrem, hclock, hscore⟩ := of_decide_eq_true hnow
  exact ⟨c, c', hc, hrem, hclock, hscore, hc', of_decide_eq_true hpushed⟩

end Result

end Promotion

end NexusQueue
