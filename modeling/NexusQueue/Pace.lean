/-
# Calls in step

A call follows the custody protocol and the protocol of reports at the same time.  In a
run in which nothing fails the two go in step (`Paced`): the job is claimed from the
first read of its hash to the verdict in its hash, and handed over in between the move
and the removal of the entry.

In such a run nobody else writes the attempts of a job that is claimed: a scheduler that
has pushed the job writes its status, and of two calls for one job only one has claimed
it.  So what a call has read of the hash is still there when it needs it (`Recalls`).
-/
import NexusQueue.Report
import NexusQueue.Ownership
import NexusQueue.Audit

namespace NexusQueue

open Ownership (Token Balanced token)

/-- The hash a verdict rests on. -/
def Verdict.hash : Verdict → Option JobHash
  | .completed => none
  | .dead h _ | .again h _ => some h

namespace Report

/-- A call has read its job and not moved it yet. -/
def working : Report → Prop
  | read _ | counted _ | begun _ | succeeded | failed | judging _ | timed _ _ => True
  | closing v | closed v => v ≠ .completed
  | _ => False

/-- What a call has read and still needs: the hash, and the attempts the job has now. -/
def recalls : Report → Option (JobHash × Option Numeral)
  | read h | counted h | judging h | timed h _ => some (h, h.attempts)
  | begun h => some (h, some (Worker.nextAttempt h.attempts))
  | closing v | closed v => v.hash.map fun h => (h, h.attempts)
  | _ => none

/-- A job is dead when there are no attempts left, and not before. -/
def sound : Report → Prop
  | closing (.dead h _) | closed (.dead h _) => h.exhausted = true
  | closing (.again h _) | closed (.again h _) => h.exhausted = false
  | _ => True

end Report

/-- The phase and the report of a call, in step. -/
def Paced : Phase → Report → Prop
  | .dispatched, d => d = .fresh
  | .claimed _, d => d.working
  | .handed, d => d = .closing .completed ∨ d = .closed .completed ∨ ∃ v, d = .moved v
  | .released, d | .ended, d => ∃ v, d = .done v
  | _, _ => False

namespace Pace

/-! ## A call goes on -/

section Call

variable {env : Env} {s s' : World} {w : WorkerId} {n : ℕ} {j : JobId} {l l' : Phase} {d : Report}
  {c : Cmd} {o : Oracle} {ts : List Task}

theorem paced_cases (h : Paced l d) : (l = .dispatched ∧ d = .fresh) ∨
    ((∃ f, l = .claimed f) ∧ d.working) ∨
    (l = .handed ∧ (d = .closing .completed ∨ d = .closed .completed ∨ ∃ v, d = .moved v)) ∨
    ((l = .released ∨ l = .ended) ∧ ∃ v, d = .done v) := by
  cases l with
  | dispatched => exact Or.inl ⟨rfl, h⟩
  | claimed f => exact Or.inr (Or.inl ⟨⟨f, rfl⟩, h⟩)
  | handed => exact Or.inr (Or.inr (Or.inl ⟨rfl, h⟩))
  | released => exact Or.inr (Or.inr (Or.inr ⟨Or.inl rfl, h⟩))
  | ended => exact Or.inr (Or.inr (Or.inr ⟨Or.inr rfl, h⟩))
  | _ => exact h.elim

/-- A call in step is not lost. -/
theorem ne_lost (h : Paced l d) : d ≠ .lost := by
  rintro rfl
  cases l with
  | handed =>
      rcases h with h | h | ⟨v, h⟩
      all_goals cases h
  | released | ended =>
      obtain ⟨v, h⟩ := h
      cases h
  | dispatched => cases h
  | _ => exact h.elim

/-- A call that is done stays so. -/
theorem onCall_done (v : Option Verdict) (c : Cmd) (a : c.Resp) :
    Report.onCall (.done v) c a = .done v := by
  unfold Report.onCall
  split <;> first | rfl | contradiction

/-- A call that has claimed its job stays in step. -/
theorem paced_claimed {f : JobHash} (hw : d.working) (hd : d.permits j c) (a : c.Resp) :
    Paced (Phase.onCall (.claimed f) c a) (d.onCall c a) := by
  have hlost : d ≠ .lost := by
    rintro rfl
    exact hw
  cases c with
  | update i p =>
      obtain ⟨-, ⟨⟨h, rfl⟩, rfl⟩ | ⟨v, hv, rfl⟩⟩ := Report.permits_update hd hlost
      · trivial
      · cases d <;> cases v <;> first | exact hv.elim | exact Or.inl rfl | (intro h; cases h)
  | multi ws =>
      obtain ⟨h, rfl⟩ := Report.permits_multi hd hlost
      exact ⟨none, rfl⟩
  | handler name v x =>
      obtain ⟨h, rfl, -⟩ := Report.permits_handler hd hlost
      trivial
  | write x =>
      cases x with
      | hset k g =>
          obtain ⟨-, ⟨⟨h, rfl, -⟩, -⟩ | ⟨v, rfl, -⟩⟩ := Report.permits_hset hd hlost
          · trivial
          · exact hw
      | zadd k score m =>
          obtain ⟨h, now, b, rfl, -⟩ := Report.permits_zadd hd hlost
          exact Or.inr (Or.inr ⟨_, rfl⟩)
      | lpush k m =>
          obtain ⟨h, e, rfl⟩ := Report.permits_lpush hd hlost
          exact Or.inr (Or.inr ⟨_, rfl⟩)
      | lrem k i m =>
          rcases Report.permits_lrem hd hlost with rfl | ⟨v, rfl⟩
          · exact absurd rfl hw
          · exact hw.elim
      | _ => cases d <;> exact hw
  | _ => cases d <;> first | exact hw | exact hw.elim

/-- A call that has handed its job over stays in step. -/
theorem paced_handed (hl : Paced .handed d) (hd : d.permits j c) (a : c.Resp) :
    Paced (Phase.onCall .handed c a) (d.onCall c a) := by
  have hlost := ne_lost hl
  cases c with
  | update i p =>
      obtain ⟨-, ⟨⟨h, rfl⟩, rfl⟩ | ⟨v, hv, rfl⟩⟩ := Report.permits_update hd hlost
      · rcases hl with h | h | ⟨v, h⟩ <;> cases h
      · rcases hl with rfl | rfl | ⟨v, rfl⟩ <;> exact hv.elim
  | write x =>
      cases x with
      | hset k g =>
          obtain ⟨-, ⟨⟨h, rfl, -⟩, -⟩ | ⟨v, rfl, -⟩⟩ := Report.permits_hset hd hlost
          · rcases hl with h | h | ⟨v, h⟩ <;> cases h
          · rcases hl with h | h | ⟨v, h⟩ <;> cases h
            exact Or.inr (Or.inl rfl)
      | zadd k score m =>
          obtain ⟨h, now, b, rfl, -⟩ := Report.permits_zadd hd hlost
          rcases hl with h | h | ⟨v, h⟩ <;> cases h
      | lpush k m =>
          obtain ⟨h, e, rfl⟩ := Report.permits_lpush hd hlost
          rcases hl with h | h | ⟨v, h⟩ <;> cases h
      | lrem k i m =>
          rcases Report.permits_lrem hd hlost with rfl | ⟨v, rfl⟩
          · exact ⟨_, rfl⟩
          · exact ⟨_, rfl⟩
      | _ => rcases hl with rfl | rfl | ⟨v, rfl⟩ <;> simp [Phase.onCall, Report.onCall, Paced]
  | _ => rcases hl with rfl | rfl | ⟨v, rfl⟩ <;> simp [Phase.onCall, Report.onCall, Paced]

/-- **Step lemma.**  A call stays in step. -/
theorem paced_next (hl : Paced l d) (hd : d.permits j c) (a : c.Resp) :
    Paced (Phase.onCall l c a) (d.onCall c a) := by
  rcases paced_cases hl with ⟨rfl, rfl⟩ | ⟨⟨f, rfl⟩, hw⟩ | ⟨rfl, -⟩ | ⟨hl', v, rfl⟩
  · -- the hash has not been read
    cases c with
    | hgetall k => trivial
    | write x => cases x <;> rfl
    | _ => rfl
  · exact paced_claimed hw hd a
  · exact paced_handed hl hd a
  · rw [onCall_done]
    rcases hl' with rfl | rfl
    · unfold Phase.onCall
      split <;> first | exact ⟨v, rfl⟩ | simp_all
    · unfold Phase.onCall
      split <;> first | exact ⟨v, rfl⟩ | simp_all

/-- A call whose handler throws stays in step. -/
theorem paced_error {e : Err} (hl : Paced l d)
    (he : Effect env s (.processOne w n j) l c (.error e) s' l' ts) (hd : d.permits j c) :
    Paced l' (d.afterError c) := by
  cases he with
  | handler =>
      obtain ⟨h, rfl, -⟩ := Report.permits_handler hd (ne_lost hl)
      rcases paced_cases hl with ⟨-, hd⟩ | ⟨⟨f, rfl⟩, -⟩ | ⟨-, hd | hd | ⟨v, hd⟩⟩ | ⟨-, v, hd⟩
      · cases hd
      · trivial
      all_goals cases hd
  | insertFails hc => exact hc.elim
  | cronFails ht => exact ht.elim

/-- A verdict is sound. -/
theorem sound_next (hs : d.sound) (hl : d ≠ .lost) (hd : d.permits j c) (a : c.Resp) :
    (d.onCall c a).sound := by
  cases c with
  | update i p =>
      obtain ⟨-, ⟨⟨h, rfl⟩, rfl⟩ | ⟨v, hv, rfl⟩⟩ := Report.permits_update hd hl
      · trivial
      · cases d <;> cases v <;> first | exact hv.elim | trivial | skip
        · exact hv.1 ▸ hv.2
        · exact hv.1 ▸ hv.2.2
  | write x =>
      cases x with
      | hset k g =>
          obtain ⟨-, ⟨⟨h, rfl, -⟩, -⟩ | ⟨v, rfl, -⟩⟩ := Report.permits_hset hd hl
          · trivial
          · cases v <;> exact hs
      | _ => cases d <;> first | exact hs | trivial
  | _ => cases d <;> exact hs

end Call

/-! ## What the others leave alone -/

theorem tried_congr {f h : JobHash} (hf : f.attempts = h.attempts) : f.tried = h.tried := by
  unfold JobHash.tried
  rw [hf]

/-- One more than a number is a number. -/
theorem tried_next {f h : JobHash} (hf : f.attempts = some (Worker.nextAttempt h.attempts)) :
    f.tried = h.tried.map (· + 1) := by
  unfold JobHash.tried Worker.numberOr
  rw [hf]
  unfold Worker.nextAttempt Worker.numberOr
  cases (h.attempts.getD (.of 0)).toNumber <;> rfl

section Others

variable {env : Env} {s s' : World} {t : Task} {w : WorkerId} {n : ℕ} {j : JobId} {l l' : Phase}
  {d : Report} {c : Cmd} {o : Oracle} {r : Except Err c.Resp} {ts : List Task} {g : Token → ℕ}

/-- Two processes have not claimed the same job. -/
theorem claims_le_one (h : Balanced s g) {w : WorkerId} (hw : 0 < g (.claim w j)) (w' : WorkerId) :
    g (.claim w' j) ≤ if w' = w then 1 else 0 := by
  have hown : ∀ v, g (.claim v j) ≤ Ownership.owned s g j (.processing v) := by
    intro v
    have hcov := h.covered v j
    simp only [Ownership.owned]
    omega
  have hone := (h.placed j).le_one (hw.trans_le (hown w)) (.processing w')
  simp only [Ownership.Owner.processing.injEq] at hone
  exact (hown w').trans hone.le

/-- Only calls write the attempts of a job: each counts its own attempt. -/
theorem hset_attempts (hop : ¬ t.operator) {k : Key} {f : JobHash}
    (hd : report.permits t d (.write (.hset k f)))
    (hlost : ∀ w n i, t = .processOne w n i → d ≠ .lost) : f.attempts = none ∨
      ∃ w n i h, t = .processOne w n i ∧ k = redisKeys.job i ∧ d = .counted h ∧
        f.attempts = some (Worker.nextAttempt h.attempts) := by
  cases t with
  | processOne w n i =>
      obtain ⟨rfl, ⟨⟨h, rfl, hf⟩, -⟩ | ⟨v, rfl, hf, -⟩⟩ :=
        Report.permits_hset hd (hlost w n i rfl)
      · exact Or.inr ⟨w, n, i, h, rfl, rfl, rfl, hf⟩
      · exact Or.inl hf
  | tick =>
      cases d with
      | lost => exact hd.elim
      | owes i =>
          cases hd
          exact Or.inl rfl
      | _ => exact hd.1.elim
  | janitor =>
      cases d with
      | lost => exact hd.elim
      | owes i =>
          rcases hd with h | h
          · cases h
          · cases h
            exact Or.inl rfl
      | _ => exact hd.1.elim
  | retry id => exact absurd trivial hop
  | requeue q b => exact absurd trivial hop
  | _ => exact hd.1.elim

/-- A draft is not visible. -/
theorem draft_new (ht : t.creates) {id : JobId} (hl : l = .drawn id ∨ l = .rowed id)
    (hfit : Identity.Fit AsPrinted s t l) : ¬ s.enqueued id := by
  obtain ⟨⟨g, hco⟩, -⟩ := hfit
  have htoken : Identity.token t l = some id := by
    cases t with
    | enqueue n p o => rcases hl with rfl | rfl <;> rfl
    | tick => rcases hl with rfl | rfl <;> rfl
    | _ => exact ht.elim
  exact (hco.draft_new id (by simp [htoken])).2

/-- A job that is made visible was not visible before. -/
theorem multi_new {ws : List Write} (hp : Permits env t l (.multi ws))
    (hfit : Identity.Fit AsPrinted s t l) {f : JobHash} (hf : Write.hset (redisKeys.job j) f ∈ ws) :
    ¬ s.enqueued j := by
  cases hp with
  | quiet hq => exact hq.elim
  | pushBack => simp at hf
  | @publishReady t id q p f' hc hid hq hpr =>
      obtain ⟨rfl, -⟩ : j = id ∧ f = f' := by simpa using hf
      exact draft_new hc (Or.inr rfl) hfit
  | @publishDelayed t id q f' score hc hid hq =>
      obtain ⟨rfl, -⟩ : j = id ∧ f = f' := by simpa using hf
      exact draft_new hc (Or.inr rfl) hfit

/-- `HSET` of a hash without attempts keeps them. -/
theorem attempts_hset (now : ℕ) {rd : Redis} {k : Key} {f : JobHash} (hf : f.attempts = none) :
    (((Write.hset k f).apply now rd).jobs (redisKeys.job j)).attempts =
      (rd.jobs (redisKeys.job j)).attempts := by
  by_cases hk : redisKeys.job j = k
  · subst hk
    simp [Write.apply, JobHash.merge, hf]
  · simp [Write.apply, Function.update_of_ne hk]

/-- **Frame lemma.**  The attempts of a visible job change only when its call counts one. -/
theorem attempts_kept (hop : ¬ t.operator) (hp : Permits env t l c) (hd : report.permits t d c)
    (hlost : ∀ w n i, t = .processOne w n i → d ≠ .lost) (hfit : Identity.Fit AsPrinted s t l)
    (ha : World.answer env s o c = some (r, s')) (hj : s.enqueued j) :
    (s'.redis.jobs (redisKeys.job j)).attempts = (s.redis.jobs (redisKeys.job j)).attempts ∨
      ∃ w n h f, t = .processOne w n j ∧ d = .counted h ∧ c = .write (.hset (redisKeys.job j) f) ∧
        f.attempts = some (Worker.nextAttempt h.attempts) := by
  have he := effect_of_answer hp ha
  rcases Audit.hash_of_effect he ha j with hsame | ⟨f, rfl⟩ | ⟨ws, f, rfl, hf, -⟩
  · exact Or.inl (by rw [hsame])
  · rcases hset_attempts hop hd hlost with hf | ⟨w, n, i, h, rfl, hk, rfl, hf⟩
    · cases ha
      exact Or.inl (attempts_hset s.clock hf)
    · obtain rfl : j = i := Key.job.inj hk
      exact Or.inr ⟨w, n, h, f, rfl, rfl, rfl, hf⟩
  · exact absurd hj (multi_new hp hfit hf)

/-- The hash still says what the call needs of what it has read. -/
def Recalls (s : World) (j : JobId) (d : Report) : Prop :=
  ∀ h m, d.recalls = some (h, m) → h.SameIdentity (s.redis.jobs (redisKeys.job j)) ∧
    (s.redis.jobs (redisKeys.job j)).attempts = m

/-- The hash of a job is not written. -/
theorem Recalls.kept (h : Recalls s j d)
    (hid : (s'.redis.jobs (redisKeys.job j)).SameIdentity (s.redis.jobs (redisKeys.job j)))
    (hm : (s'.redis.jobs (redisKeys.job j)).attempts = (s.redis.jobs (redisKeys.job j)).attempts) :
    Recalls s' j d := by
  intro f m hf
  obtain ⟨hsame, hatt⟩ := h f m hf
  exact ⟨hsame.trans hid.symm, hm.trans hatt⟩

/-- A call has counted its attempt in the hash. -/
theorem Recalls.count {h f : JobHash} {x : Except Err Unit} (hr : Recalls s j (.counted h))
    (hk : f.keepsIdentity) (hf : f.attempts = some (Worker.nextAttempt h.attempts))
    (ha : World.answer env s o (.write (.hset (redisKeys.job j) f)) = some (x, s')) :
    Recalls s' j (.begun h) := by
  cases ha
  rintro h' m hm
  cases hm
  obtain ⟨hsame, -⟩ := hr h _ rfl
  have hhash : (((Write.hset (redisKeys.job j) f).apply s.clock s.redis).jobs (redisKeys.job j)) =
      (s.redis.jobs (redisKeys.job j)).merge f := by
    simp [Write.apply]
  rw [hhash]
  refine ⟨hsame.trans (hk.merge _).symm, ?_⟩
  simp [JobHash.merge, hf]

/-- A call has read the hash. -/
theorem recalls_read {k : Key} {a : JobHash} (hp : Permits env (.processOne w n j) l (.hgetall k))
    (ha : World.answer env s o (.hgetall k) = some (.ok a, s')) {h : JobHash} {m : Option Numeral}
    (hm : some (a, a.attempts) = some (h, m)) :
    h.SameIdentity (s'.redis.jobs (redisKeys.job j)) ∧
      (s'.redis.jobs (redisKeys.job j)).attempts = m := by
  have hk : k = redisKeys.job j := by
    cases hp with
    | quiet hq => exact hq.elim
    | readJob => rfl
    | readLifted ht => exact ht.elim
  subst hk
  cases ha
  cases hm
  exact ⟨.refl _, rfl⟩

/-- **Step lemma.**  A call recalls what it has read. -/
theorem recalls_next {a : c.Resp} (h : Recalls s j d) (hlost : d ≠ .lost)
    (hp : Permits env (.processOne w n j) l c) (hd : d.permits j c)
    (ha : World.answer env s o c = some (.ok a, s'))
    (hid : (s'.redis.jobs (redisKeys.job j)).SameIdentity (s.redis.jobs (redisKeys.job j)))
    (hm : (s'.redis.jobs (redisKeys.job j)).attempts = (s.redis.jobs (redisKeys.job j)).attempts ∨
      ∃ h f, d = .counted h ∧ c = .write (.hset (redisKeys.job j) f) ∧
        f.attempts = some (Worker.nextAttempt h.attempts)) :
    Recalls s' j (d.onCall c a) := by
  rcases hm with hm | ⟨h', f, rfl, rfl, hf⟩
  case inr =>
    cases hp with
    | quiet hq => exact h.count hq hf ha
  revert hd ha hp
  unfold Report.onCall
  split
  case h_1 | h_6 | h_7 =>
    intro hp hd ha
    exact fun _ _ hx => recalls_read hp ha hx
  case h_4 =>
    intro hp hd ha
    obtain ⟨rfl, ⟨⟨h', hh, hf⟩, -⟩ | ⟨v, hv, -⟩⟩ := Report.permits_hset hd hlost
    · cases hh
      cases hp with
      | quiet hq => exact h.count hq hf ha
    · cases hv
  all_goals
    intro hp hd ha
    first
      | exact h.kept hid hm
      | exact fun _ _ hx => by cases hx

end Others

end Pace

end NexusQueue
