/-
# Attempts

In a run in which nothing fails every published job has a tally (module `Tally`) in every
reachable state.  Read off the history of the run it says:

* `attempts_numbered`: the attempts of a job are counted as 1, 2, ..., n; no number is given
  to two handlers; and both counters say n whenever no call of the job is going on;
* `attempts_bounded`: there are never more attempts than the limit, a job that waits has
  some left, and one in a dead-letter queue has used them all;
* `failures_judged`: a call that schedules a retry does so after the k-th attempt, with k
  below the limit, for the time the k-th failure is due, and a call that buries its job does
  so after the last attempt.
-/
import NexusQueue.Tally

namespace NexusQueue

namespace Attempts

open Ownership (Token Balanced token startsWith owned calm)

/-! ## All jobs -/

/-- Every published job has a tally, and nothing has been counted for the others. -/
structure Accounted (s : World) (g : Mark → ℕ) : Prop where
  balanced : Balanced s (tokens g)
  tally : ∀ j, s.enqueued j → ∃ n, Tally s g j n
  attempt : ∀ j, ¬ s.enqueued j → ∀ k, g (.attempt j k) = 0
  run : ∀ j, ¬ s.enqueued j → ∀ k, g (.run j k) = 0
  row : ∀ j, ¬ s.enqueued j → ∀ row, s.pg.row? j = some row → row.attempts = 0

section Step

variable {env : Env} {s s' : World} {t : Task} {x : Phase × Report} {c : Cmd} {o : Oracle}
  {r : Except Err c.Resp} {g F : Mark → ℕ} {w : WorkerId} {n i m : ℕ} {j : JobId}
  {ws : List Write}

/-- A new row counts no attempt. -/
theorem attempts_insert {now : ℕ} {db db' : Postgres} {new : NewRow} {row : JobRow}
    (h : db.insert now new = .ok db') (hrow : db'.row? new.id = some row) : row.attempts = 0 := by
  obtain ⟨payload, maxAttempts, hnone, -, hrows, -⟩ := Postgres.insert_ok h
  rw [Postgres.row?, hrows, List.find?_append] at hrow
  have hold : db.rows.find? (fun r => decide (r.id = new.id.text)) = none := hnone
  rw [hold] at hrow
  simp [NewRow.toRow] at hrow
  rw [← hrow]

/-- Nobody has begun with a job that is not published. -/
theorem unclaimed (h : Balanced s (tokens g)) (hj : ¬ s.enqueued j) :
    ¬ Counting g j ∧ ¬ Tried g j := by
  refine idle_of_unworked fun r hr => ?_
  obtain ⟨w, hw⟩ := Role.claims_of_working hr
  have hle := le_tokens (g := g) (j := j) hw
  have hcov := h.covered w j
  have hnone := congrFun ((h.placed j).none hj) (.processing w)
  simp only [owned, Pi.zero_apply] at hnone
  omega

namespace Moves

/-- A process goes on knowing what it relies on. -/
theorem knows_next (h : Moves env s t x c o r s' F) :
    knows t (Phase.next t x.1 c r, report.next t x.2 c r) s' := by
  obtain ⟨l, d⟩ := x
  cases t with
  | processOne w i j =>
      obtain ⟨hpaced, hsound, hrecalls⟩ := h.known
      have hlost := Pace.ne_lost hpaced
      have hj : s.enqueued j := (Identity.knows_call h.fit.2).enqueued
      cases r with
      | ok a =>
          refine ⟨Pace.paced_next hpaced h.reports a, Pace.sound_next hsound hlost h.reports a, ?_⟩
          refine Pace.recalls_next hrecalls hlost h.permits h.reports h.answer
            (h.later.identity j (.inl hj)) ?_
          exact (Pace.attempts_kept h.hop h.permits h.reports h.not_lost h.fit h.answer hj).imp id
            fun ⟨_, _, f, f', _, hd, hc, hf⟩ => ⟨f, f', hd, hc, hf⟩
      | error e =>
          have hfailed : d.afterError c = .failed := by
            cases h.effect with
            | handler =>
                obtain ⟨f, rfl, -⟩ := Report.permits_handler h.reports hlost
                rfl
            | insertFails hc => exact hc.elim
            | cronFails ht => exact ht.elim
          refine ⟨Pace.paced_error hpaced h.effect h.reports, ?_, ?_⟩
          · show (d.afterError c).sound
            rw [hfailed]
            trivial
          · show Pace.Recalls s' j (d.afterError c)
            rw [hfailed]
            intro f m hf
            cases hf
  | _ => trivial

/-- The other processes go on knowing what they rely on. -/
theorem knows_stable (h : Moves env s t x c o r s' F) {t₂ : Task} {x₂ : Phase × Report}
    {F₂ : Mark → ℕ} (hF : F = holding (part t₂ x₂) + F₂) (hk : knows t₂ x₂ s) : knows t₂ x₂ s' := by
  obtain ⟨l₂, d₂⟩ := x₂
  cases t₂ with
  | processOne w₂ i₂ j =>
      obtain ⟨hpaced, hsound, hrecalls⟩ := hk
      refine ⟨hpaced, hsound, fun f m hf => ?_⟩
      -- a call that relies on what it has read claims its job
      obtain ⟨r₂, hr₂, hclaims⟩ : ∃ r₂, role w₂ d₂ = some r₂ ∧ r₂.claims = some w₂ := by
        cases d₂ with
        | closing v => cases v <;> first | exact ⟨_, rfl, rfl⟩ | cases hf
        | closed v => cases v <;> first | exact ⟨_, rfl, rfl⟩ | cases hf
        | _ => first | exact ⟨_, rfl, rfl⟩ | cases hf
      have hF' : F = holding (some (.part j r₂)) + F₂ := by
        rw [hF, part_eq, hr₂]
        rfl
      have hj : s.enqueued j := by
        have hbal := h.balanced
        rw [hF', add_left_comm] at hbal
        exact enqueued_of_claims hbal hclaims
      refine hrecalls.kept (h.later.identity j (.inl hj)) ?_ f m hf
      rcases Pace.attempts_kept h.hop h.permits h.reports h.not_lost h.fit h.answer hj with
        hsame | ⟨w, n, f₀, f', rfl, hd, -⟩
      · exact hsame
      · -- two calls cannot claim one job
        have hcounted : role w x.2 = some (.counted w) := by
          rw [hd]
          rfl
        have hbal := h.balanced
        rw [part_eq, hcounted] at hbal
        have hzero := alone hbal rfl hclaims
        rw [hF', Pi.add_apply, holding_some, if_pos rfl] at hzero
        omega
  | _ => trivial

/-- A `MULTI` that writes a hash makes a new job visible, with no attempts. -/
theorem registers {r : Except Err (Cmd.multi ws).Resp}
    (h : Moves env s t x (.multi ws) o r s' F) {f : JobHash} {k : Key}
    (hf : Write.hset k f ∈ ws) : f.attempts = some (.of 0) := by
  have hregisters : Registers ws := by
    obtain ⟨l, d⟩ := x
    have creates : t.creates → Registers ws := by
      intro ht
      have hd := h.reports
      cases t with
      | enqueue n p o => exact hd
      | tick =>
          cases d with
          | lost => exact hd.elim
          | owes i => cases hd
          | _ => exact hd
      | _ => exact ht.elim
    cases h.permits with
    | quiet hq => exact hq.elim
    | pushBack => simp at hf
    | publishReady hc => exact creates hc
    | publishDelayed hc => exact creates hc
  obtain ⟨q, k', f', w, rfl, hzero, -, hw⟩ := hregisters
  have hne : Write.hset k f ≠ w := by
    rcases hw with ⟨⟨y, i, rfl⟩, -⟩ | ⟨⟨y, score, i, rfl⟩, -⟩
    · simp
    · simp
  obtain ⟨-, rfl⟩ : k = k' ∧ f = f' := by simpa [hne] using hf
  exact hzero

/-- **Step lemma, a new job.**  A job that becomes visible has not been tried. -/
theorem publish (h : Moves env s t x c o r s' F) (hA : Accounted s (holding (part t x) + F))
    (hj : ¬ s.enqueued j) (hj' : s'.enqueued j) : Tally s' (next t x c r F) j 0 := by
  have hne : ∀ w n, t ≠ .processOne w n j := by
    rintro w n rfl
    exact hj (Identity.knows_call h.fit.2).enqueued
  have hmarks : Unmarked (holding (part t x) + F) (next t x c r F) j :=
    unmarked (begins_other hne _) (handles_other hne _)
  have hsame : ∀ r' : Role, r'.working →
      next t x c r F (.part j r') = (holding (part t x) + F) (.part j r') :=
    fun r' hr => next_other hne hr
  obtain ⟨hcounting, htried⟩ := unclaimed h.balanced hj
  rw [← counting_congr hsame] at hcounting
  rw [← tried_congr hsame] at htried
  have hattempt : ∀ k, next t x c r F (.attempt j k) = 0 := fun k =>
    (hmarks.attempt k).trans (hA.attempt j hj k)
  have hrun : ∀ k, next t x c r F (.run j k) = 0 := fun k => (hmarks.run k).trans (hA.run j hj k)
  have hdead : ∀ q, j ∉ s'.redis.lists (redisKeys.dlq q) := by
    intro q hq
    obtain ⟨⟨g, hco⟩, -⟩ := h.fit
    rcases dead_of_effect h.hop h.calm h.fit.2 h.effect hq with hq | ⟨w, n, k, ht, -⟩
    · exact hj (hco.listed j (Or.inr (Or.inr (Or.inl ⟨q, hq⟩)))).enqueued
    · exact hne w n ht
  -- the command is the `MULTI` that registers the job
  obtain ⟨ws, f, rfl, hf, hmerge⟩ : ∃ ws f, c = .multi ws ∧
      Write.hset (redisKeys.job j) f ∈ ws ∧
        s'.redis.jobs (redisKeys.job j) = (s.redis.jobs (redisKeys.job j)).merge f := by
    rcases Audit.hash_of_effect h.effect h.answer j with hsame | ⟨f, rfl⟩ | ⟨ws, f, hc, hf, -, hm⟩
    · rw [World.enqueued, hsame] at hj'
      exact absurd hj' hj
    · have hkeeps : f.keepsIdentity := by
        have hperm := h.permits
        generalize x.1 = l at hperm
        cases hperm with
        | quiet hq => exact hq
      have hid : (s'.redis.jobs (redisKeys.job j)).id = (s.redis.jobs (redisKeys.job j)).id := by
        cases h.answer
        simpa [Write.apply] using (hkeeps.merge (s.redis.jobs (redisKeys.job j))).id
      rw [World.enqueued, hid] at hj'
      exact absurd hj' hj
    · exact ⟨ws, f, hc, hf, hm⟩
  have hzero := h.registers hf
  refine ⟨?_, fun k => ?_, fun k => ?_, fun ht => absurd ht htried, fun w _ => hrun _,
    fun row hrow => Or.inr ⟨hcounting, ?_⟩, fun m hm hlim => ⟨Nat.zero_le m, fun heq => ?_, ?_⟩⟩
  · rw [hmerge]
    simp [JobHash.tried, Worker.numberOr, JobHash.merge, hzero, Numeral.toNumber]
  · rw [hattempt]
    rfl
  · rw [hrun]
    exact Nat.zero_le _
  · rcases h.row_cases j with hsame | ⟨w, n, p, -, hc⟩ | ⟨row', hc, -⟩
    · rw [hsame] at hrow
      exact hA.row j hj row hrow
    · cases hc
    · cases hc
  · omega
  · exact fun q hq => absurd hq (hdead q)

/-- **Step lemma, all jobs.** -/
theorem accounted (h : Moves env s t x c o r s' F) (hA : Accounted s (holding (part t x) + F)) :
    Accounted s' (next t x c r F) where
  balanced := by
    have hbal := h.balanced
    rw [h.tokens_eq] at hbal
    have hbal' := (hbal.effect h.hop h.calm h.fit h.beats h.effect).1
    rw [next, after, tokens_add, tokens_add, tokens_add, tokens_emits, tokens_starts, zero_add,
      tokens_of_part h.knows_next]
    exact hbal'
  tally j hj' := by
    by_cases hj : s.enqueued j
    · obtain ⟨n, hT⟩ := hA.tally j hj
      by_cases ht : ∃ w i, t = .processOne w i j
      · obtain ⟨w, i, rfl⟩ := ht
        exact h.call hj hT
      · exact ⟨n, h.other hj hT fun w i heq => ht ⟨w, i, heq⟩⟩
    · exact ⟨0, h.publish hA hj hj'⟩
  attempt j hj' k := by
    have hj : ¬ s.enqueued j := fun hj => hj' (h.later.enqueued j hj)
    have hne : ∀ w n, t ≠ .processOne w n j := by
      rintro w n rfl
      exact hj (Identity.knows_call h.fit.2).enqueued
    rw [(unmarked (begins_other hne _) (handles_other hne _)).attempt]
    exact hA.attempt j hj k
  run j hj' k := by
    have hj : ¬ s.enqueued j := fun hj => hj' (h.later.enqueued j hj)
    have hne : ∀ w n, t ≠ .processOne w n j := by
      rintro w n rfl
      exact hj (Identity.knows_call h.fit.2).enqueued
    rw [(unmarked (begins_other hne _) (handles_other hne _)).run]
    exact hA.run j hj k
  row j hj' row hrow := by
    have hj : ¬ s.enqueued j := fun hj => hj' (h.later.enqueued j hj)
    rcases h.row_cases j with hsame | ⟨w, n, p, rfl, -⟩ | ⟨new, rfl, rfl, -⟩
    · exact hA.row j hj row (hsame ▸ hrow)
    · exact absurd (Identity.knows_call h.fit.2).enqueued hj
    · have hanswer := h.answer
      simp only [World.answer] at hanswer
      split at hanswer
      · rename_i pg hins
        cases hanswer
        exact attempts_insert hins hrow
      · cases hanswer
        exact hA.row _ hj row hrow

end Moves

end Step

/-! ## Every run -/

/-- The tallies of all jobs as a discipline over custody and reports. -/
def accounting (env : Env) :
    Discipline (machine env) ((custody env).prod report) (Mark → ℕ) where
  good t := ¬ t.operator
  val t x := holding (part t x)
  emit t _ c r := emits t ⟨c, r⟩
  loc := knows
  inv := Accounted
  allow s _ t x c o :=
    o.works ∧ (∀ w ∈ c.seeks, s.beats w) ∧ Identity.Fit AsPrinted s t x.1 ∧ calm t x.1
  post t r x := Concluded t r x.1 ∧ Reported t r x.2

section Run

variable {env : Env} {c : State} {j : JobId} {m : ℕ}

/-- A task is in order at its start. -/
theorem knows_start (t : Task) (s : World) : knows t (Phase.start t, .fresh) s := by
  cases t with
  | processOne w i j => exact ⟨rfl, trivial, fun _ _ h => by cases h⟩
  | _ => trivial

/-- A task that is started from outside has no part. -/
theorem part_external {t : Task} (h : t.external) : part t (Phase.start t, .fresh) = none := by
  cases t <;> first | exact h.elim | rfl

/-- The tallies do not depend on the clock. -/
theorem Accounted.later {s : World} {g : Mark → ℕ} (h : Accounted s g) (now : ℕ) :
    Accounted { s with clock := now } g where
  balanced := h.balanced.frame { World.JobFrame.refl s with }
  tally j hj := by
    obtain ⟨n, hT⟩ := h.tally j hj
    refine ⟨n, hT.keep ⟨.refl _, rfl, fun row hrow => ⟨row, hrow, rfl⟩⟩
      ⟨fun _ => rfl, fun _ => rfl⟩ ⟨Iff.rfl, fun _ => le_rfl, id⟩ Or.inl fun _ => Or.inl⟩
  attempt := h.attempt
  run := h.run
  row := h.row

theorem accounting_sound : (accounting env).Sound fun c a =>
    FaultFree c a ∧ (Ownership.ownership env).PoolOk c ∧
      (Identity.identity env AsPrinted).PoolOk c where
  follows t _ := follows_prod (custody_follows t) (report_follows env t)
  call s t x c o r s' F h := by
    obtain ⟨ho, hbeats, hfit, hcalm⟩ := h.allow
    have hmoves : Moves env s t x c o r s' F :=
      ⟨h.good, hcalm, hfit, hbeats, h.permits.1, h.permits.2,
        Identity.answer_of_exec h.exec ho hfit.2 h.permits.1 h.good, h.loc, h.inv.balanced⟩
    refine ⟨?_, hmoves.knows_next, fun t' ht' => ⟨?_, knows_start t' s'⟩⟩
    · have hnext := hmoves.accounted h.inv
      rw [next, after, ← add_assoc (emits t ⟨c, r⟩)] at hnext
      exact hnext
    · exact Task.not_operator_of_host (host_of_forks ht').choose_spec
  stable s t x c o r s' F h t₂ x₂ F₂ hF _ hk := by
    obtain ⟨ho, hbeats, hfit, hcalm⟩ := h.allow
    have hmoves : Moves env s t x c o r s' F :=
      ⟨h.good, hcalm, hfit, hbeats, h.permits.1, h.permits.2,
        Identity.answer_of_exec h.exec ho hfit.2 h.permits.1 h.good, h.loc, h.inv.balanced⟩
    exact hmoves.knows_stable hF hk
  start c t hok hc := by
    refine ⟨hok.1.2, ?_, knows_start t c.store⟩
    show Accounted c.store
      (holding (part t (Phase.start t, .fresh)) + (accounting env).total c.pool)
    rw [part_external hok.1.1, holding_none, zero_add]
    exact hc.1
  allows c i o p cmd k hok hc hp hprog := by
    have hmem := List.mem_of_getElem? hp
    refine ⟨hok.1.1, fun w hw => hok.1.2 w ?_, ?_, ?_⟩
    · simpa [nextCmd, hp, hprog] using hw
    · rw [Protocol.prod_phase]
      exact Identity.fit_of_mem hok.2.2 hmem
    · rw [Protocol.prod_phase]
      exact (hok.2.1.2 p hmem).2.1
  drift c d s' hok hc hd := by
    cases d with
    | pass ms =>
        cases hd
        refine ⟨hc.1.later _, fun t x _ hk => ?_⟩
        cases t with
        | processOne w i j => exact hk
        | _ => trivial
    | crash w => exact hok.1.elim

/-- An empty deployment has tried nothing. -/
theorem accounting_blank (c : State) (hc : Blank c) : (accounting env).PoolOk c := by
  obtain ⟨now, room, rfl⟩ := hc
  have hnone : ∀ j, ¬ ({ clock := now } : World).enqueued j := by
    intro j
    simp [World.enqueued]
  have htokens : tokens ((accounting env).total []) = (Ownership.ownership env).total [] :=
    tokens_eq_zero fun _ _ => rfl
  refine ⟨⟨?_, fun j hj => absurd hj (hnone j), fun _ _ _ => rfl, fun _ _ _ => rfl, ?_⟩, by simp⟩
  · rw [htokens]
    exact (Ownership.ownership_blank _ ⟨now, room, rfl⟩).1
  · intro j _ row hrow
    cases hrow

end Run

/-! ## What the history of a run says -/

/-- The numbers under which the calls of a job have counted attempts in its hash. -/
def attempts (c : State) (j : JobId) : List ℚ :=
  c.pool.flatMap fun p => p.hist.filterMap (begins j p.task)

/-- The numbers of the attempts of a job that handlers have been run for. -/
def handled (c : State) (j : JobId) : List ℚ :=
  c.pool.flatMap fun p => p.hist.filterMap (handles j p.task)

/-- The entry that a command adds to a sorted set. -/
def schedules : Cmd → Option (Key × ℚ × String)
  | .write (.zadd k score m) => some (k, score, m)
  | _ => none

/-- The entry that a command adds to a list. -/
def pushes : Cmd → Option (Key × String)
  | .write (.lpush k m) => some (k, m)
  | _ => none

/-- The attempt that a command runs a handler for. -/
def tries : Cmd → Option (Option ℚ)
  | .handler _ _ a => some a
  | _ => none

/-- The reading of the clock that a call schedules its retry by. -/
def clock : Report → Option ℕ
  | .timed _ now => some now
  | .closing v | .closed v | .moved v => match v with
    | .again _ now => some now
    | _ => none
  | _ => none

/-- The job that a task is a call of. -/
def called : Task → Option JobId
  | .processOne _ _ j => some j
  | _ => none

/-- A call of the job has counted its attempt in the row, and not yet in the hash. -/
def BetweenCounts (c : State) (j : JobId) : Prop :=
  ∃ p ∈ c.pool, ∃ w i f, p.task = .processOne w i j ∧ report.phase p.task p.hist = .counted f

/-- A run in which the first attempt fails, its retry is promoted, and the second attempt is
about to be run. -/
def retried : List Action :=
  [.start (.enqueue "echo" (some .null) {}), .call 0 (.fresh j1)] ++ goes 0 5 ++
    [.start (.start "w1")] ++ goes 1 8 ++ goes 2 5 ++ goes 3 6 ++ throws 3 ++ goes 3 6 ++
    goes 2 1 ++ [.drift (.pass 1000), .start .tick, .call 5 (.members ["default"])] ++
    goes 5 6 ++ goes 4 5 ++ goes 6 6

section Result

variable {env : Env} {c : State} {j : JobId} {k : ℚ} {n m : ℕ}

theorem poolOk_of_reach (hc : (machine env).Reach FaultFree Blank c) :
    (accounting env).PoolOk c := by
  refine accounting_sound.reach accounting_blank (hc.with_invariant fun c hc => ⟨?_, ?_⟩)
  · exact Lifecycle.poolOk_of_reach hc
  · exact Identity.poolOk_of_faultFree hc

theorem total_attempt (env : Env) (c : State) : (accounting env).total c.pool (.attempt j k) =
    (attempts c j).count k := by
  rw [attempts, ← counted_eq_count (P := (custody env).prod report)]
  exact (accounting env).total_eq_counted _ (fun t x => if_neg (part_attempt t x))
    (fun _ _ _ _ => rfl) c.pool

theorem total_run (env : Env) (c : State) : (accounting env).total c.pool (.run j k) =
    (handled c j).count k := by
  rw [handled, ← counted_eq_count (P := (custody env).prod report)]
  exact (accounting env).total_eq_counted _ (fun t x => if_neg (part_run t x))
    (fun _ _ _ _ => rfl) c.pool

/-- The attempts have the numbers 1, 2, ..., n. -/
theorem attempts_perm (hT : Tally c.store ((accounting env).total c.pool) j n) :
    (attempts c j).Perm (numbers n) := by
  refine List.perm_iff_count.mpr fun k => ?_
  rw [← total_attempt env, hT.attempts]

theorem length_attempts (hT : Tally c.store ((accounting env).total c.pool) j n) :
    (attempts c j).length = n := by
  rw [(attempts_perm hT).length_eq, numbers, List.length_map, List.length_range']

theorem nodup_numbers (n : ℕ) : (numbers n).Nodup :=
  List.Nodup.map Nat.cast_injective List.nodup_range'

/-- No attempt is handled twice. -/
theorem handled_nodup (hT : Tally c.store ((accounting env).total c.pool) j n) :
    (handled c j).Nodup ∧ handled c j ⊆ numbers n := by
  have hle : ∀ k, (handled c j).count k ≤ (numbers n).count k := by
    intro k
    rw [← total_run env, ← hT.attempts]
    exact hT.runs k
  refine ⟨List.nodup_iff_count_le_one.mpr fun k => ?_, fun k hk => ?_⟩
  · exact (hle k).trans (List.nodup_iff_count_le_one.mp (nodup_numbers n) k)
  · exact List.count_pos_iff.mp ((List.count_pos_iff.mpr hk).trans_le (hle k))

/-- Once its calls have ended nobody is at work on a job. -/
theorem not_working (hc : (accounting env).PoolOk c) (hj : c.store.enqueued j)
    (hend : ∀ p ∈ c.pool, (∃ w i, p.task = .processOne w i j) → Ended p) {r : Role}
    (hr : r.working) : (accounting env).total c.pool (.part j r) = 0 := by
  refine (accounting env).total_eq_zero (fun p hp => if_neg fun hpart => ?_) fun _ _ _ _ => rfl
  obtain ⟨n, hT⟩ := hc.1.tally j hj
  obtain ⟨-, hknows, hfollows⟩ := hc.2 p hp
  generalize ((custody env).prod report).phase p.task p.hist = x at hpart hknows hfollows
  obtain ⟨l, d⟩ := x
  cases ht : p.task with
  | processOne w i j' =>
      rw [ht] at hpart hknows hfollows
      obtain ⟨r', hrole, heq⟩ := Option.map_eq_some_iff.mp hpart
      cases heq
      obtain ⟨-, -, hrecalls⟩ := hknows
      have hsettles : d.settles := by
        cases hprog : p.prog with
        | ret a =>
            rw [hprog] at hfollows
            exact hfollows.2
        | raise e =>
            rw [hprog] at hfollows
            exact hfollows.2
        | call cmd k => exact absurd hprog (hend p hp ⟨w, i, ht⟩ cmd k)
      cases d with
      | closed v =>
          cases v with
          | again f now =>
              -- the number of attempts is known, so a retry is scheduled
              have htried : f.tried = some (n : ℚ) :=
                (Pace.tried_congr (hrecalls f _ rfl).2.symm).trans hT.tried
              rw [show f.tried = none from hsettles] at htried
              cases htried
          | _ => exact hsettles
      | read f =>
          cases hrole
          exact hr
      | done v => cases hrole
      | lost => cases hrole
      | _ => exact hsettles
  | _ =>
      rw [ht] at hpart
      cases l <;> cases hpart <;> exact hr

/-- A call schedules its retry by a reading it has taken. -/
theorem clock_read {w : WorkerId} {i now : ℕ} {h : List (Event Cmd Cmd.Resp Err)}
    (hd : clock (report.phase (.processOne w i j) h) = some now) :
    (⟨.now, .ok now⟩ : Event Cmd Cmd.Resp Err) ∈ h := by
  induction h with
  | nil => cases hd
  | cons e h ih =>
      obtain ⟨c, r⟩ := e
      rw [Protocol.phase_cons] at hd
      generalize report.phase (.processOne w i j) h = d at hd ih
      have hstep : clock d = some now ∨
          (⟨c, r⟩ : Event Cmd Cmd.Resp Err) = ⟨.now, .ok now⟩ := by
        cases r with
        | ok a =>
            have hd' : clock (d.onCall c a) = some now := hd
            unfold Report.onCall at hd'
            split at hd'
            case h_8 =>
              cases hd'
              exact Or.inr rfl
            all_goals first | exact Or.inl hd' | cases hd'
        | error e =>
            have hd' : clock (d.afterError c) = some now := hd
            unfold Report.afterError at hd'
            split at hd'
            · exact Or.inl hd'
            · cases hd'
            · cases hd'
      rcases hstep with hd | heq
      · exact List.mem_cons_of_mem _ (ih hd)
      · rw [heq]
        exact List.mem_cons_self ..

/-- What a process has a part in is counted. -/
theorem part_le_total (env : Env) {p : Process} (hp : p ∈ c.pool) (k : Mark) :
    holding (part p.task (((custody env).prod report).phase p.task p.hist)) k ≤
      (accounting env).total c.pool k := by
  obtain ⟨i, hi⟩ := List.mem_iff_getElem?.mp hp
  obtain ⟨F, hF⟩ := exists_sum_mem (accounting env).gauge hi
  rw [Discipline.total, hF, Discipline.gauge, Pi.add_apply, Pi.add_apply]
  exact (Nat.le_add_right _ _).trans (Nat.le_add_right _ _)

/-- What a call relies on when it issues its next command. -/
theorem call_situation (hc : (machine env).Reach FaultFree Blank c) {p : Process} (hp : p ∈ c.pool)
    {w : WorkerId} {i : ℕ} (ht : p.task = .processOne w i j) :
    ∃ n l d, Tally c.store ((accounting env).total c.pool) j n ∧
      knows (.processOne w i j) (l, d) c.store ∧
      (∀ k, holding (part (.processOne w i j) (l, d)) k ≤ (accounting env).total c.pool k) ∧
      (∀ cmd q, p.prog = .call cmd q →
        Permits env (.processOne w i j) l cmd ∧ d.permits j cmd) ∧
      ∀ now, clock d = some now → (⟨.now, .ok now⟩ : Event Cmd Cmd.Resp Err) ∈ p.hist := by
  have hpool := poolOk_of_reach hc
  have hid : (Identity.identity env AsPrinted).PoolOk c :=
    Identity.poolOk_of_faultFree hc
  have hj : c.store.enqueued j := by
    have hfit := (Identity.fit_of_mem hid hp).2
    rw [ht] at hfit
    exact (Identity.knows_call hfit).enqueued
  obtain ⟨n, hT⟩ := hpool.1.tally j hj
  obtain ⟨-, hknows, hfollows⟩ := hpool.2 p hp
  have hpart := part_le_total env hp
  rw [Protocol.prod_phase, ht] at hknows hfollows hpart
  refine ⟨n, _, _, hT, hknows, hpart, fun cmd q hprog => ?_, fun now => clock_read⟩
  rw [hprog] at hfollows
  exact hfollows.1

/-- A call of the job is between its two counts exactly if someone holds that part. -/
theorem counting_iff : Counting ((accounting env).total c.pool) j ↔ BetweenCounts c j := by
  have hpart : ∀ p : Process, ∀ w,
      part p.task (((custody env).prod report).phase p.task p.hist) = some (.part j (.counted w)) ↔
        ∃ i f, p.task = .processOne w i j ∧ report.phase p.task p.hist = .counted f := by
    intro p w
    rw [Protocol.prod_phase]
    generalize (custody env).phase p.task p.hist = l
    generalize report.phase p.task p.hist = d
    cases p.task with
    | processOne w' i j' =>
        cases d with
        | counted f => simp [part, role, and_comm]
        | closing v | closed v => cases v <;> simp [part, role]
        | _ => simp [part, role]
    | _ => cases l <;> simp [part]
  have htotal : ∀ w, 0 < (accounting env).total c.pool (.part j (.counted w)) ↔
      ∃ p ∈ c.pool, part p.task (((custody env).prod report).phase p.task p.hist) =
        some (.part j (.counted w)) := by
    intro w
    constructor
    · intro hpos
      by_contra hnone
      have hzero := (accounting env).total_eq_zero (k := Mark.part j (.counted w))
        (fun p hp => if_neg fun hpart => hnone ⟨p, hp, hpart⟩) fun _ _ _ _ => rfl
      omega
    · rintro ⟨p, hp, hpart⟩
      have hle := part_le_total env hp (.part j (.counted w))
      rw [hpart, holding_some, if_pos rfl] at hle
      omega
  constructor
  · rintro ⟨w, hw⟩
    obtain ⟨p, hp, hrole⟩ := (htotal w).mp hw
    obtain ⟨i, f, ht, hd⟩ := (hpart p w).mp hrole
    exact ⟨p, hp, w, i, f, ht, hd⟩
  · rintro ⟨p, hp, w, i, f, ht, hd⟩
    exact ⟨w, (htotal w).mpr ⟨p, hp, (hpart p w).mpr ⟨i, f, ht, hd⟩⟩⟩

/-- Every handler is told which attempt of its job it is. -/
theorem numbered_of_reach (hc : (machine env).Reach FaultFree Blank c) :
    ∀ p ∈ c.pool, ∀ e ∈ p.hist, ∀ w i j, p.task = .processOne w i j →
      ∀ a, tries e.cmd = some a → ∃ k, a = some k := by
  refine hc.events (Q := fun (_ : World) (t : Task) (e : Event Cmd Cmd.Resp Err) =>
    ∀ (w : WorkerId) (i : ℕ) (j : JobId), t = .processOne w i j →
      ∀ a, tries e.cmd = some a → ∃ k, a = some k)
    (fun c hb => ?_) (fun _ _ _ _ _ _ _ _ h => h) ?_
  · obtain ⟨now, room, rfl⟩ := hb
    rfl
  intro c i o p cmd q r s hprev _ hp hprog _ w n j ht a ha
  obtain ⟨m, l, d, hT, ⟨hpaced, -, hrecalls⟩, -, hpermits, -⟩ :=
    call_situation hprev (List.mem_of_getElem? hp) ht
  obtain ⟨-, hd⟩ := hpermits cmd q hprog
  cases cmd with
  | handler name v b =>
      cases ha
      obtain ⟨f, rfl, rfl⟩ := Report.permits_handler hd (Pace.ne_lost hpaced)
      refine ⟨m, ?_⟩
      rw [← Pace.tried_next (hrecalls f _ rfl).2]
      exact hT.tried
  | _ => cases ha

/-- **The attempts of a job are numbered.**  In every reachable state of a run in which
nothing fails, the attempts of a published job have been counted in its hash as 1, 2, ..., n,
each once; every handler that has been run for the job was told one of these numbers, and no
two of them the same; the hash says n, and the row says n + 1 while a call of the job is
between its two counts, and n at all other times. -/
theorem attempts_numbered (hc : (machine env).Reach FaultFree Blank c) (hj : c.store.enqueued j) :
    ∃ n : ℕ, (attempts c j).Perm (numbers n) ∧
      ((handled c j).Nodup ∧ handled c j ⊆ numbers n ∧
        ∀ p ∈ c.pool, ∀ e ∈ p.hist, ∀ w i, p.task = .processOne w i j →
          ∀ a, tries e.cmd = some a → ∃ k ∈ handled c j, a = some k) ∧
      (c.store.redis.jobs (redisKeys.job j)).tried = some (n : ℚ) ∧
      ∃ row, c.store.pg.row? j = some row ∧
        (BetweenCounts c j ∧ row.attempts = n + 1 ∨ ¬ BetweenCounts c j ∧ row.attempts = n) ∧
        ((∀ p ∈ c.pool, (∃ w i, p.task = .processOne w i j) → Ended p) → row.attempts = n) := by
  have hpool := poolOk_of_reach hc
  obtain ⟨n, hT⟩ := hpool.1.tally j hj
  obtain ⟨hnodup, hsub⟩ := handled_nodup hT
  have hrow : (c.store.pg.row? j).isSome :=
    (Identity.poolOk_of_faultFree hc).1.row j hj
  obtain ⟨row, hrow⟩ := Option.isSome_iff_exists.mp hrow
  have hcounts := hT.row row hrow
  refine ⟨n, attempts_perm hT, ⟨hnodup, hsub, ?_⟩, hT.tried, row, hrow, ?_, fun hend => ?_⟩
  · intro p hp e he w i ht a ha
    obtain ⟨k, rfl⟩ := numbered_of_reach hc p hp e he w i j ht a ha
    refine ⟨k, List.mem_flatMap.mpr ⟨p, hp, List.mem_filterMap.mpr ⟨e, he, ?_⟩⟩, rfl⟩
    obtain ⟨cmd, r⟩ := e
    rw [ht]
    cases cmd with
    | handler name v b =>
        cases ha
        exact if_pos rfl
    | _ => cases ha
  · rwa [counting_iff] at hcounts
  · rcases hcounts with ⟨hcounting, -⟩ | ⟨-, heq⟩
    · exact absurd hcounting (idle_of_unworked fun _ => not_working hpool hj hend).1
    · exact heq

/-- The theorem on the run with a retry, at a time when the second call is between its two
counts. -/
theorem attempts_numbered_retry :
    ∃ c, (machine sample).Reach FaultFree Blank c ∧ c.store.enqueued j1.text ∧
      attempts c j1.text = [1] ∧ handled c j1.text = [1] ∧
      (∃ row, c.store.pg.row? j1.text = some row ∧ row.attempts = 2) ∧
      ∃ n : ℕ, (attempts c j1.text).Perm (numbers n) ∧
        ((handled c j1.text).Nodup ∧ handled c j1.text ⊆ numbers n ∧
          ∀ p ∈ c.pool, ∀ e ∈ p.hist, ∀ w i, p.task = .processOne w i j1.text →
            ∀ a, tries e.cmd = some a → ∃ k ∈ handled c j1.text, a = some k) ∧
        (c.store.redis.jobs (redisKeys.job j1.text)).tried = some (n : ℚ) ∧
        ∃ row, c.store.pg.row? j1.text = some row ∧
          (BetweenCounts c j1.text ∧ row.attempts = n + 1 ∨
            ¬ BetweenCounts c j1.text ∧ row.attempts = n) ∧
          ((∀ p ∈ c.pool, (∃ w i, p.task = .processOne w i j1.text) → Ended p) →
            row.attempts = n) := by
  obtain ⟨c, hc, ht⟩ := Machine.exists_reach (machine sample) FaultFree Blank blank_blank
    (retried.take 52)
    (fun c : State => decide (c.store.enqueued j1.text ∧ attempts c j1.text = [1] ∧
      handled c j1.text = [1] ∧ (c.store.pg.row? j1.text).map JobRow.attempts = some 2))
    (by decide +kernel)
  obtain ⟨hj, hattempts, hhandled, hrow⟩ := of_decide_eq_true ht
  exact ⟨c, hc, hj, hattempts, hhandled, Option.map_eq_some_iff.mp hrow, attempts_numbered hc hj⟩

/-- Nobody has begun with a job that waits, and it is not over. -/
theorem not_spent_of_waiting {s : World} {g : Mark → ℕ} (h : Balanced s (tokens g))
    (hj : (∃ x, j ∈ s.redis.lists (.queue x)) ∨ ∃ q, j ∈ s.redis.zsets (redisKeys.delayed q)) :
    ¬ Counting g j ∧ ¬ Tried g j ∧ ¬ Over s j := by
  obtain ⟨a, ha, hproc, hdlq, hcompleted⟩ : ∃ a, 0 < owned s (tokens g) j a ∧
      (∀ w, .processing w ≠ a) ∧ (∀ q, .dlq q ≠ a) ∧ .completed ≠ a := by
    rcases hj with ⟨x, hx⟩ | ⟨q, hq⟩
    · exact ⟨.ready x, List.count_pos_iff.mpr hx, by simp, by simp, by simp⟩
    · exact ⟨.delayed q, by simp [owned, hq], by simp, by simp, by simp⟩
  obtain ⟨hcounting, htried⟩ : ¬ Counting g j ∧ ¬ Tried g j := by
    refine idle_of_unworked fun r hr => ?_
    obtain ⟨w, hw⟩ := Role.claims_of_working hr
    have hle := le_tokens (g := g) (j := j) hw
    have hcov := h.covered w j
    have hzero := h.unique ha (.processing w) (hproc w)
    simp only [owned] at hzero
    omega
  refine ⟨hcounting, htried, ?_⟩
  rintro (⟨q, hq⟩ | hdone)
  · have hzero := h.unique ha (.dlq q) (hdlq q)
    exact absurd hq (List.count_eq_zero.mp hzero)
  · have hzero := h.unique ha .completed hcompleted
    simp [owned, hdone] at hzero

/-- **The attempts of a job are bounded.**  Let a published job have the limit m ≥ 1.  In
every reachable state of a run in which nothing fails it has had at most m attempts, fewer
than m if it waits in a ready list or a delayed set, and exactly m if it is in a dead-letter
queue. -/
theorem attempts_bounded (hc : (machine env).Reach FaultFree Blank c) (hj : c.store.enqueued j)
    (hm : 1 ≤ m) (hlim : limit c.store j = some (m : ℚ)) :
    (attempts c j).length ≤ m ∧
      ((∃ x, j ∈ c.store.redis.lists (.queue x)) ∨
          (∃ q, j ∈ c.store.redis.zsets (redisKeys.delayed q)) → (attempts c j).length < m) ∧
      ∀ q, j ∈ c.store.redis.lists (redisKeys.dlq q) → (attempts c j).length = m := by
  have hpool := poolOk_of_reach hc
  obtain ⟨n, hT⟩ := hpool.1.tally j hj
  rw [length_attempts hT]
  obtain ⟨hle, -, hdead⟩ := hT.budget m hm hlim
  refine ⟨hle, fun hwait => hT.lt hm hlim ?_, hdead⟩
  obtain ⟨-, htried, hover⟩ := not_spent_of_waiting hpool.1.balanced hwait
  exact not_or.mpr ⟨htried, hover⟩

/-- The theorem on the run with a retry, at the time the second retry waits. -/
theorem attempts_bounded_retry :
    ∃ c, (machine sample).Reach FaultFree Blank c ∧
      j1.text ∈ c.store.redis.zsets (redisKeys.delayed "default") ∧
      (attempts c j1.text).length = 2 ∧ (attempts c j1.text).length ≤ 3 ∧
      ((∃ x, j1.text ∈ c.store.redis.lists (.queue x)) ∨
          (∃ q, j1.text ∈ c.store.redis.zsets (redisKeys.delayed q)) →
        (attempts c j1.text).length < 3) ∧
      ∀ q, j1.text ∈ c.store.redis.lists (redisKeys.dlq q) → (attempts c j1.text).length = 3 := by
  obtain ⟨c, hc, ht⟩ := Machine.exists_reach (machine sample) FaultFree Blank blank_blank
    (retried ++ throws 6 ++ goes 6 6)
    (fun c : State => decide (c.store.enqueued j1.text ∧ limit c.store j1.text = some (3 : ℕ) ∧
      j1.text ∈ c.store.redis.zsets (redisKeys.delayed "default") ∧
      (attempts c j1.text).length = 2))
    (by decide +kernel)
  obtain ⟨hj, hlim, hwaits, hattempts⟩ := of_decide_eq_true ht
  exact ⟨c, hc, hwaits, hattempts, attempts_bounded hc hj (by decide) hlim⟩

/-- The delay after the n-th failure, in whole numbers. -/
theorem backoff_eq (hn : 1 ≤ n) : Worker.backoff (n : ℚ) = min (1000 * 2 ^ (n - 1)) 30000 := by
  obtain ⟨i, rfl⟩ : ∃ i, n = i + 1 := ⟨n - 1, by omega⟩
  have hfloor : ⌊((i + 1 : ℕ) : ℚ)⌋ - 1 = (i : ℤ) := by
    rw [Int.floor_natCast]
    omega
  rw [Worker.backoff, hfloor, zpow_natCast, Nat.add_sub_cancel]

/-- **Failures are judged by the attempts.**  Let the `i`-th process be a call of a job with
the limit m ≥ 1, in a run in which nothing fails, and n the number of attempts the job has
had.  If the call is about to run a handler, the handler is told that this is attempt n.  If
it is about to schedule a retry, n is below m and the job is due min(1000 * 2^(n-1), 30000) ms
after the time the call has read.  If it is about to bury the job, n is m. -/
theorem failures_judged (hc : (machine env).Reach FaultFree Blank c) {p : Process} {i i' : ℕ}
    {w : WorkerId} (hp : c.pool[i]? = some p) (ht : p.task = .processOne w i' j) (hm : 1 ≤ m)
    (hlim : limit c.store j = some (m : ℚ)) :
    (∀ a, (nextCmd c i).bind tries = some a → a = some ((attempts c j).length : ℚ)) ∧
      (∀ k score v, (nextCmd c i).bind schedules = some (k, score, v) → v = j ∧
        (attempts c j).length < m ∧ ∃ now : ℕ,
          (⟨.now, .ok now⟩ : Event Cmd Cmd.Resp Err) ∈ p.hist ∧
            score = now + min (1000 * 2 ^ ((attempts c j).length - 1)) 30000) ∧
      ∀ k v, (nextCmd c i).bind pushes = some (k, v) → v = j ∧ (attempts c j).length = m := by
  -- n is the tally of the job, d what the call has read so far
  obtain ⟨n, l, d, hT, ⟨hpaced, hsound, hrecalls⟩, hpart, hpermits, hread⟩ :=
    call_situation hc (List.mem_of_getElem? hp) ht
  have hlost := Pace.ne_lost hpaced
  have hnext : ∀ cmd, nextCmd c i = some cmd →
      Permits env (.processOne w i' j) l cmd ∧ d.permits j cmd := by
    intro cmd hcmd
    rw [nextCmd, hp, Option.bind_some] at hcmd
    cases hprog : p.prog with
    | call cmd' q =>
        rw [hprog] at hcmd
        cases hcmd
        exact hpermits _ q hprog
    | _ =>
        rw [hprog] at hcmd
        cases hcmd
  rw [length_attempts hT]
  refine ⟨fun a ha => ?_, fun k score v hv => ?_, fun k v hv => ?_⟩
  · obtain ⟨cmd, hcmd, hcmd'⟩ := Option.bind_eq_some_iff.mp ha
    obtain ⟨-, hd⟩ := hnext cmd hcmd
    cases cmd with
    | handler name y b =>
        cases hcmd'
        obtain ⟨f, rfl, hb⟩ := Report.permits_handler hd hlost
        rw [hb, ← Pace.tried_next (hrecalls f _ rfl).2]
        exact hT.tried
    | _ => cases hcmd'
  · obtain ⟨cmd, hcmd, hcmd'⟩ := Option.bind_eq_some_iff.mp hv
    obtain ⟨hperm, hd⟩ := hnext cmd hcmd
    cases cmd with
    | write y =>
        cases y with
        | zadd k' score' v' =>
            cases hcmd'
            obtain ⟨f, now, b, rfl, htried, hscore⟩ := Report.permits_zadd hd hlost
            have hv' : v = j := by
              cases hperm with
              | quiet hq => exact hq.elim
              | cronSchedule ht => exact ht.elim
              | retry | brokenRetry => rfl
            -- the number that `handleFailure` has read is still the tally
            have hb : b = (n : ℚ) := by
              have hf := (Pace.tried_congr (hrecalls f _ rfl).2.symm).trans hT.tried
              rw [htried] at hf
              exact Option.some_inj.mp hf
            -- the call itself has run an attempt
            have hpos : 1 ≤ n := by
              refine hT.pos ⟨w, ?_⟩
              have hran := hpart (.part j (.ran w))
              rw [Moves.part_eq] at hran
              simp only [role, Option.map_some, holding_some, if_pos] at hran
              omega
            have hleft := Moves.exhausted_iff hrecalls rfl hT.tried hlim
            rw [show f.exhausted = false from hsound] at hleft
            refine ⟨hv', by simpa using hleft.symm, now, hread now rfl, ?_⟩
            rw [hscore, hb, backoff_eq hpos]
        | _ => cases hcmd'
    | _ => cases hcmd'
  · obtain ⟨cmd, hcmd, hcmd'⟩ := Option.bind_eq_some_iff.mp hv
    obtain ⟨hperm, hd⟩ := hnext cmd hcmd
    cases cmd with
    | write y =>
        cases y with
        | lpush k' v' =>
            cases hcmd'
            obtain ⟨f, e, rfl⟩ := Report.permits_lpush hd hlost
            have hv' : v = j := by
              cases hperm with
              | quiet hq => exact hq.elim
              | place ht => exact ht.elim
              | bury | brokenBury => rfl
            have hleft := Moves.exhausted_iff hrecalls rfl hT.tried hlim
            rw [show f.exhausted = true from hsound] at hleft
            -- `attempts >= maxAttempts`, and there are never more than m
            have hge : m ≤ n := by simpa using hleft.symm
            exact ⟨hv', (hT.budget m hm hlim).le.antisymm hge⟩
        | _ => cases hcmd'
    | _ => cases hcmd'

/-- The theorem on the run with a retry, at the time the second retry is scheduled: two
seconds from then on. -/
theorem failures_judged_retry :
    ∃ c p, (machine sample).Reach FaultFree Blank c ∧ c.pool[6]? = some p ∧
      called p.task = some j1.text ∧
      (nextCmd c 6).bind schedules = some (redisKeys.delayed "default", 3000, j1.text) ∧
      (∀ a, (nextCmd c 6).bind tries = some a → a = some ((attempts c j1.text).length : ℚ)) ∧
      (∀ k score v, (nextCmd c 6).bind schedules = some (k, score, v) → v = j1.text ∧
        (attempts c j1.text).length < 3 ∧ ∃ now : ℕ,
          (⟨.now, .ok now⟩ : Event Cmd Cmd.Resp Err) ∈ p.hist ∧
            score = now + min (1000 * 2 ^ ((attempts c j1.text).length - 1)) 30000) ∧
      ∀ k v, (nextCmd c 6).bind pushes = some (k, v) →
        v = j1.text ∧ (attempts c j1.text).length = 3 := by
  obtain ⟨c, hc, ht⟩ := Machine.exists_reach (machine sample) FaultFree Blank blank_blank
    (retried ++ throws 6 ++ goes 6 4)
    (fun c : State => decide (limit c.store j1.text = some (3 : ℕ) ∧
      (c.pool[6]?.bind fun p => called p.task) = some j1.text ∧
      (nextCmd c 6).bind schedules = some (redisKeys.delayed "default", 3000, j1.text)))
    (by decide +kernel)
  obtain ⟨hlim, hcalled, hnext⟩ := of_decide_eq_true ht
  obtain ⟨p, hp, hcalled⟩ := Option.bind_eq_some_iff.mp hcalled
  obtain ⟨w, i, htask⟩ : ∃ w i, p.task = .processOne w i j1.text := by
    cases h : p.task with
    | processOne w i j =>
        rw [h] at hcalled
        cases hcalled
        exact ⟨w, i, rfl⟩
    | _ =>
        rw [h] at hcalled
        cases hcalled
  exact ⟨c, p, hc, hp, hcalled, hnext, failures_judged hc hp htask (by decide) hlim⟩

end Result

end Attempts

end NexusQueue
