/-
# The standing of a job

The two records of a job are written by different processes at different times, and the job
is moved by a third command.  Of the row only the calls of the job write the status, each
before it moves the job: `active` when it begins, and its verdict before it completes,
buries or reschedules the job.

So in a run in which nothing fails the row never lags behind the job (`Told`), and once the
calls of the job have ended it tells where the job is (`row_tells`).
-/
import NexusQueue.Attempts
import NexusQueue.LastWord

namespace NexusQueue

namespace Attempts

open Ownership (Token Balanced token startsWith completed owned calm)

/-! ## What the row says -/

/-- A call that has written its verdict to the row and not moved the job finds it there. -/
def Entered (s : World) (w : WorkerId) (j : JobId) (d : Report) : Prop :=
  role w d = some (.ran w) → ∀ v, d.inRow = some v →
    ∀ row, s.pg.row? j = some row → row.status = v.status

/-- What the calls know of their rows. -/
def entered : Task → Phase × Report → World → Prop
  | .processOne w _ j, (_, d), s => Entered s w j d
  | _, _, _ => True

/-- The row of a job that no call has begun with has its first status, or that of a retry,
unless the job is over, and the row of a dead job says so. -/
structure Told (s : World) (g : Mark → ℕ) (j : JobId) : Prop where
  idle : ¬ Counting g j → ¬ Tried g j →
    ∀ row, s.pg.row? j = some row → row.status.initial ∨ Over s j
  dead : ∀ q, j ∈ s.redis.lists (redisKeys.dlq q) →
    ∀ row, s.pg.row? j = some row → row.status = .dlq

section Step

variable {env : Env} {s s' : World} {t : Task} {x : Phase × Report} {c : Cmd} {o : Oracle}
  {r : Except Err c.Resp} {F : Mark → ℕ} {w : WorkerId} {n i : ℕ} {j : JobId} {d : Report}
  {l : Phase} {a b : Option Role}

/-- A part in a job that a call has begun with claims it. -/
theorem role_claims {r₀ : Role} (hr : role w d = some r₀) (hw : r₀.working) :
    r₀.claims = some w := by
  cases d with
  | closing v => cases v <;> cases hr <;> first | rfl | exact hw.elim
  | closed v => cases v <;> cases hr <;> first | rfl | exact hw.elim
  | _ => cases hr <;> first | rfl | exact hw.elim

namespace Moves

/-- A row is written by the calls of its job, with what they have found. -/
theorem row_kept (h : Moves env s t x c o r s' F) (hj : s.enqueued j)
    (hne : ∀ w n p, t = .processOne w n j → c ≠ .update j p) :
    s'.pg.row? j = s.pg.row? j := by
  rcases h.row_cases j with hsame | ⟨w, n, p, ht, hc⟩ | ⟨row, -, -, hnew⟩
  · exact hsame
  · exact absurd hc (hne w n p ht)
  · exact absurd hj hnew

/-- A call that writes the row has not given up its claim. -/
theorem update_claims {p : RowPatch} {r : Except Err (Cmd.update j p).Resp}
    (h : Moves env s (.processOne w i j) x (.update j p) o r s' F) :
    ∃ r₀, role w x.2 = some r₀ ∧ r₀.claims = some w := by
  obtain ⟨l, d⟩ := x
  obtain ⟨-, ⟨⟨f, rfl⟩, -⟩ | ⟨v, hv, -⟩⟩ :=
    Report.permits_update h.reports (Pace.ne_lost h.known.1)
  · exact ⟨_, rfl, rfl⟩
  · cases d <;> first | exact ⟨_, rfl, rfl⟩ | exact hv.elim

/-- A job dies only by a push. -/
theorem dead_before (h : Moves env s t x c o r s' F) {q : QueueName}
    (hq : j ∈ s'.redis.lists (redisKeys.dlq q))
    (hne : ∀ w n k, t = .processOne w n j → c ≠ .write (.lpush k j)) :
    j ∈ s.redis.lists (redisKeys.dlq q) := by
  rcases dead_of_effect h.hop h.calm h.fit.2 h.effect hq with hq | ⟨w, n, k, ht, hc⟩
  · exact hq
  · exact absurd hc (hne w n k ht)

/-- A job that a call claims is not dead after another command. -/
theorem not_dead (h : Moves env s (.processOne w i j) x c o r s' F) {r₀ : Role}
    (hr : role w x.2 = some r₀) (hc : r₀.claims = some w)
    (hpush : ∀ k v, c ≠ .write (.lpush k v)) (q : QueueName) :
    j ∉ s'.redis.lists (redisKeys.dlq q) := by
  intro hq
  have hbefore := h.dead_before hq fun _ _ k _ => hpush k j
  exact h.not_over hr hc (Or.inl ⟨q, hbefore⟩)

/-- A call goes on to find its verdict in the row. -/
theorem entered_next (h : Moves env s (.processOne w i j) x c o r s' F) (hj : s.enqueued j)
    (hE : Entered s w j x.2) : Entered s' w j (report.next (.processOne w i j) x.2 c r) := by
  intro hran v hv row hs
  have hturn : Turn w j x.2 c (report.next (.processOne w i j) x.2 c r) :=
    turn_of_effect h.known.1 h.reports h.effect
  cases r with
  | error e =>
      -- only handlers fail
      have heffect := h.effect
      generalize x.1 = l at heffect
      cases heffect with
      | handler =>
          obtain ⟨f, hf, -⟩ := Report.permits_handler h.reports (Pace.ne_lost h.known.1)
          rw [hf] at hv
          cases hv
      | insertFails hc => exact hc.elim
      | cronFails ht => exact ht.elim
  | ok a =>
      rcases LastWord.inRow_next h.reports hv with ⟨hold, hne⟩ | rfl
      · rw [h.row_kept hj fun _ _ p _ => hne p] at hs
        refine hE ?_ v hold row hs
        obtain ⟨l, d⟩ := x
        generalize report.next (.processOne w i j) d c (.ok a) = d' at hturn hran
        cases hturn with
        | stay hc hpush hr => exact hr ▸ hran
        | bury | retry => cases hran
        | ack ha => cases hran
        | _ => cases hold
      · obtain ⟨⟨_, hco⟩, -⟩ := h.fit
        have hprinted := hco.printed hj
        cases h.answer
        rw [Postgres.row?_update_printed hprinted, if_pos rfl, Option.map_eq_some_iff] at hs
        obtain ⟨old, -, rfl⟩ := hs
        exact v.patch_status

/-- The other calls go on to find their verdicts in their rows. -/
theorem entered_stable (h : Moves env s t x c o r s' F) {w₂ : WorkerId} {i₂ : ℕ}
    {x₂ : Phase × Report} {F₂ : Mark → ℕ}
    (hF : F = holding (part (.processOne w₂ i₂ j) x₂) + F₂) (hE : Entered s w₂ j x₂.2) :
    Entered s' w₂ j x₂.2 := by
  intro hran v hv row hs
  have hpart : F = holding (some (.part j (.ran w₂))) + F₂ := by
    rw [hF, part_eq, hran]
    rfl
  have hj : s.enqueued j := by
    have hbal := h.balanced
    rw [hpart, add_left_comm] at hbal
    exact enqueued_of_claims hbal rfl
  refine hE hran v hv row (h.row_kept hj ?_ ▸ hs)
  rintro w n p rfl rfl
  -- two calls cannot claim one job
  obtain ⟨r₀, hr₀, hclaims⟩ := h.update_claims
  have hbal := h.balanced
  rw [part_eq, hr₀] at hbal
  have hzero : F (.part j (.ran w₂)) = 0 := alone hbal hclaims rfl
  rw [hpart, Pi.add_apply, holding_some, if_pos rfl] at hzero
  omega

/-- **Step lemma, the others.**  A process that is no call of the job leaves its standing. -/
theorem told_other (h : Moves env s t x c o r s' F) (hj : s.enqueued j)
    (hT : Told s (holding (part t x) + F) j) (hne : ∀ w n, t ≠ .processOne w n j) :
    Told s' (next t x c r F) j := by
  have hsame : ∀ r' : Role, r'.working →
      next t x c r F (.part j r') = (holding (part t x) + F) (.part j r') :=
    fun r' hr => next_other hne hr
  have hrow : s'.pg.row? j = s.pg.row? j := h.row_kept hj fun w n _ ht => absurd ht (hne w n)
  refine ⟨fun hcounting htried row hs => ?_, fun q hq row hs => ?_⟩
  · rw [counting_congr hsame] at hcounting
    rw [tried_congr hsame] at htried
    rw [hrow] at hs
    exact (hT.idle hcounting htried row hs).imp_right h.over_next
  · rw [hrow] at hs
    exact hT.dead q (h.dead_before hq fun w n _ ht => absurd ht (hne w n)) row hs

/-- **Step lemma, a call at work.** -/
theorem told_working (h : Moves env s (.processOne w i j) x c o r s' F) {r₀ r₁ : Role}
    (hr : role w x.2 = some r₀) (hc : r₀.claims = some w)
    (hb : role w (report.next (.processOne w i j) x.2 c r) = some r₁) (hr₁ : r₁.working)
    (hpush : ∀ k v, c ≠ .write (.lpush k v)) : Told s' (next (.processOne w i j) x c r F) j := by
  obtain ⟨hcounting, htried, -⟩ := h.next_alone hr hc hb
  refine ⟨fun hcounting' htried' row _ => ?_, fun q hq => absurd hq (h.not_dead hr hc hpush q)⟩
  rw [hcounting] at hcounting'
  rw [htried] at htried'
  cases r₁ with
  | counted w' => exact absurd ⟨w', rfl⟩ hcounting'
  | begun w' => exact absurd ⟨w', Or.inl rfl⟩ htried'
  | ran w' => exact absurd ⟨w', Or.inr rfl⟩ htried'
  | _ => exact hr₁.elim

/-- **Step lemma, a call at rest.**  It has not begun, or has moved its job. -/
theorem told_resting (h : Moves env s (.processOne w i j) x c o r s' F) (hj : s.enqueued j)
    (hT : Told s (holding (part (.processOne w i j) x) + F) j)
    (ha : ∀ r ∈ role w x.2, ¬ r.working)
    (hb : ∀ r' ∈ role w (report.next (.processOne w i j) x.2 c r), ¬ r'.working)
    (hrow : ∀ p, c ≠ .update j p) (hpush : ∀ k v, c ≠ .write (.lpush k v)) :
    Told s' (next (.processOne w i j) x c r F) j := by
  have hsame : ∀ r' : Role, r'.working → next (.processOne w i j) x c r F (.part j r') =
      (holding (part (.processOne w i j) x) + F) (.part j r') := by
    intro r' hr'
    have hzero : ∀ a : Option Role, (∀ r ∈ a, ¬ r.working) →
        holding (a.map (Mark.part j)) (.part j r') = 0 := by
      intro a ha
      refine if_neg fun heq => ?_
      obtain ⟨r₀, hr₀, heq⟩ := Option.map_eq_some_iff.mp heq
      cases heq
      exact ha r' hr₀ hr'
    rw [next_part rfl hr', part_eq, Pi.add_apply, Pi.add_apply, hzero _ ha, hzero _ hb]
  have hrow : s'.pg.row? j = s.pg.row? j := h.row_kept hj fun _ _ p _ => hrow p
  refine ⟨fun hcounting htried row hs => ?_, fun q hq row hs => ?_⟩
  · rw [counting_congr hsame] at hcounting
    rw [tried_congr hsame] at htried
    rw [hrow] at hs
    exact (hT.idle hcounting htried row hs).imp_right h.over_next
  · rw [hrow] at hs
    exact hT.dead q (h.dead_before hq fun _ _ k _ => hpush k j) row hs

/-- **Step lemma, a call.** -/
theorem told_call (h : Moves env s (.processOne w i j) x c o r s' F) (hj : s.enqueued j)
    (hT : Told s (holding (part (.processOne w i j) x) + F) j) (hE : Entered s w j x.2) :
    Told s' (next (.processOne w i j) x c r F) j := by
  have hturn : Turn w j x.2 c (report.next (.processOne w i j) x.2 c r) :=
    turn_of_effect h.known.1 h.reports h.effect
  obtain ⟨l, d⟩ := x
  generalize hd : report.next (.processOne w i j) d c r = d' at hturn
  have hb := congrArg (role w) hd
  -- by what the turn does; only burying and retrying are told of a row that the call has
  -- written before
  cases hturn with
  | stay hc hpush hr =>
      by_cases hwork : ∃ r₀, role w d = some r₀ ∧ r₀.working
      · obtain ⟨r₀, hr₀, hwork⟩ := hwork
        have hclaims : r₀.claims = some w := role_claims hr₀ hwork
        exact h.told_working hr₀ hclaims (hb.trans (hr.trans hr₀)) hwork hpush
      · have hrest : ∀ r₀ ∈ role w d, ¬ r₀.working := fun r₀ hr₀ hw => hwork ⟨r₀, hr₀, hw⟩
        refine h.told_resting hj hT hrest ?_ ?_ hpush
        · rw [hb, hr]
          exact hrest
        · rintro p rfl
          obtain ⟨-, ⟨-, rfl⟩ | ⟨v, hv, -⟩⟩ :=
            Report.permits_update h.reports (Pace.ne_lost h.known.1)
          · cases hc
          · cases d <;> first | exact hrest _ rfl trivial | exact hv.elim
  | count => exact h.told_working rfl rfl hb trivial (by simp)
  | release =>
      refine h.told_resting hj hT ?_ ?_ (by simp) (by simp)
      · rintro r₀ ⟨⟩ hw
        exact hw
      · rw [hb]
        rintro r₀ ⟨⟩
  | begin hf => exact h.told_working rfl rfl hb trivial (by simp)
  | run hy hr => exact h.told_working rfl rfl (hb.trans hr) trivial (by simp)
  | skip => exact h.told_working rfl rfl hb trivial (by simp)
  -- the row says completed, and the job is in no dead-letter queue
  | complete =>
      have hdead : ∀ q, j ∉ s'.redis.lists (redisKeys.dlq q) := h.not_dead rfl rfl (by simp)
      exact ⟨fun _ _ _ _ => Or.inr (h.over_complete hj), fun q hq => absurd hq (hdead q)⟩
  | bury =>
      refine ⟨fun _ _ _ _ => Or.inr h.over_bury, fun q hq row hs => ?_⟩
      rw [h.row_kept hj (by simp)] at hs
      exact hE rfl _ rfl row hs
  | retry =>
      have hdead : ∀ q, j ∉ s'.redis.lists (redisKeys.dlq q) := h.not_dead rfl rfl (by simp)
      refine ⟨fun _ _ row hs => ?_, fun q hq => absurd hq (hdead q)⟩
      rw [h.row_kept hj (by simp)] at hs
      exact Or.inl (Or.inr (hE rfl _ rfl row hs))
  | ack ha =>
      refine h.told_resting hj hT ?_ ?_ (by simp) (by simp)
      · rw [ha]
        rintro r₀ ⟨⟩ hw
        exact hw
      · rw [hb]
        rintro r₀ ⟨⟩

/-- **Step lemma, a new job.** -/
theorem told_publish (h : Moves env s t x c o r s' F) (hj : ¬ s.enqueued j)
    (hj' : s'.enqueued j) : Told s' (next t x c r F) j := by
  obtain ⟨⟨g, hco⟩, hknows⟩ := h.fit
  have hne : ∀ w n, t ≠ .processOne w n j := by
    rintro w n rfl
    exact hj (Identity.knows_call hknows).enqueued
  refine ⟨fun _ _ row hs => Or.inl ?_, fun q hq => ?_⟩
  · rcases h.row_cases j with hsame | ⟨w, n, p, ht, -⟩ | ⟨new, rfl, -, -⟩
    · rw [hsame] at hs
      by_contra hst
      exact hj (hco.worked j row hs hst)
    · exact absurd ht (hne w n)
    · -- an inserted row does not make its job visible
      have hanswer := h.answer
      simp only [World.answer] at hanswer
      split at hanswer <;> cases hanswer <;> exact absurd hj' hj
  · have hq' := h.dead_before hq fun w n _ ht => absurd ht (hne w n)
    exact absurd (hco.listed j (Or.inr (Or.inr (Or.inl ⟨q, hq'⟩)))).enqueued hj

/-- **Step lemma, all jobs.** -/
theorem told (h : Moves env s t x c o r s' F)
    (hT : ∀ j, s.enqueued j → Told s (holding (part t x) + F) j) (hE : entered t x s)
    (hj' : s'.enqueued j) : Told s' (next t x c r F) j := by
  by_cases hj : s.enqueued j
  · by_cases ht : ∃ w i, t = .processOne w i j
    · obtain ⟨w, i, rfl⟩ := ht
      exact h.told_call hj (hT j hj) hE
    · exact h.told_other hj (hT j hj) fun w i heq => ht ⟨w, i, heq⟩
  · exact h.told_publish hj hj'

end Moves

end Step

/-! ## Every run -/

/-- The standings of all jobs as a discipline over custody and reports. -/
def standing (env : Env) :
    Discipline (machine env) ((custody env).prod report) (Mark → ℕ) where
  good t := ¬ t.operator
  val t x := holding (part t x)
  emit t _ c r := emits t ⟨c, r⟩
  loc := entered
  inv s g := ∀ j, s.enqueued j → Told s g j
  allow s g t x c o :=
    o.works ∧ (∀ w ∈ c.seeks, s.beats w) ∧ Identity.Fit AsPrinted s t x.1 ∧ calm t x.1 ∧ knows t x s ∧
      Balanced s (tokens g)
  post t r x := Concluded t r x.1 ∧ Reported t r x.2

section Run

variable {env : Env} {c : State} {j : JobId}

/-- A task starts with nothing entered. -/
theorem entered_start (t : Task) (s : World) : entered t (Phase.start t, .fresh) s := by
  cases t with
  | processOne w i j =>
      intro hran
      cases hran
  | _ => trivial

theorem standing_sound : (standing env).Sound fun c a =>
    FaultFree c a ∧ (accounting env).PoolOk c ∧
      (Ownership.ownership env).PoolOk c ∧ (Identity.identity env AsPrinted).PoolOk c where
  follows t _ := follows_prod (custody_follows t) (report_follows env t)
  call s t x c o r s' F h := by
    obtain ⟨ho, hbeats, hfit, hcalm, hknows, hbal⟩ := h.allow
    have hmoves : Moves env s t x c o r s' F :=
      ⟨h.good, hcalm, hfit, hbeats, h.permits.1, h.permits.2,
        Identity.answer_of_exec h.exec ho hfit.2 h.permits.1 h.good, hknows, hbal⟩
    refine ⟨fun j hj' => ?_, ?_, fun t' ht' => ⟨?_, entered_start t' s'⟩⟩
    · have hnext := hmoves.told h.inv h.loc hj'
      rw [next, after, ← add_assoc (emits t ⟨c, r⟩)] at hnext
      exact hnext
    · cases t with
      | processOne w i j => exact hmoves.entered_next (Identity.knows_call hfit.2).enqueued h.loc
      | _ => trivial
    · exact Task.not_operator_of_host (host_of_forks ht').choose_spec
  stable s t x c o r s' F h t₂ x₂ F₂ hF _ hE := by
    obtain ⟨ho, hbeats, hfit, hcalm, hknows, hbal⟩ := h.allow
    have hmoves : Moves env s t x c o r s' F :=
      ⟨h.good, hcalm, hfit, hbeats, h.permits.1, h.permits.2,
        Identity.answer_of_exec h.exec ho hfit.2 h.permits.1 h.good, hknows, hbal⟩
    cases t₂ with
    | processOne w₂ i₂ j => exact hmoves.entered_stable hF hE
    | _ => trivial
  start c t hok hc := by
    refine ⟨hok.1.2, fun j hj => ?_, entered_start t c.store⟩
    show Told c.store (holding (part t (Phase.start t, .fresh)) + (standing env).total c.pool) j
    rw [part_external hok.1.1, holding_none, zero_add]
    exact hc.1 j hj
  allows c i o p cmd k hok hc hp hprog := by
    have hmem := List.mem_of_getElem? hp
    refine ⟨hok.1.1, fun w hw => hok.1.2 w ?_, ?_, ?_, ?_, hok.2.1.1.balanced⟩
    · simpa [nextCmd, hp, hprog] using hw
    · rw [Protocol.prod_phase]
      exact Identity.fit_of_mem hok.2.2.2 hmem
    · rw [Protocol.prod_phase]
      exact (hok.2.2.1.2 p hmem).2.1
    · exact (hok.2.1.2 p hmem).2.1
  drift c d s' hok hc hd := by
    cases d with
    | pass ms =>
        cases hd
        refine ⟨fun j hj => ⟨(hc.1 j hj).idle, (hc.1 j hj).dead⟩, fun t x _ hE => ?_⟩
        cases t with
        | processOne w i j => exact hE
        | _ => trivial
    -- no worker crashes in these runs
    | crash w => exact hok.1.elim

/-- In an empty deployment no job stands anywhere. -/
theorem standing_blank (c : State) (hc : Blank c) : (standing env).PoolOk c := by
  obtain ⟨now, room, rfl⟩ := hc
  refine ⟨fun j hj => ?_, by simp⟩
  simp [World.enqueued] at hj

theorem told_of_reach (hc : (machine env).Reach FaultFree Blank c) (hj : c.store.enqueued j) :
    Told c.store ((accounting env).total c.pool) j := by
  refine (standing_sound.reach standing_blank
    (hc.with_invariant fun c hc => ⟨poolOk_of_reach hc, ?_, ?_⟩)).1 j hj
  · exact Lifecycle.poolOk_of_reach hc
  · exact Identity.poolOk_of_faultFree hc

/-- The row of a job that waits has its first status, or that of a retry. -/
theorem row_of_waiting (hc : (machine env).Reach FaultFree Blank c) (hj : c.store.enqueued j)
    (hwait : (∃ x, j ∈ c.store.redis.lists (.queue x)) ∨
      ∃ q, j ∈ c.store.redis.zsets (redisKeys.delayed q)) {row : JobRow}
    (hrow : c.store.pg.row? j = some row) : row.status.initial := by
  obtain ⟨hcounting, htried, hover⟩ :=
    not_spent_of_waiting (poolOk_of_reach hc).1.balanced hwait
  exact ((told_of_reach hc hj).idle hcounting htried row hrow).resolve_right hover

/-- The row of a job whose calls have ended. -/
theorem row_of_ended (hc : (machine env).Reach FaultFree Blank c) (hj : c.store.enqueued j)
    (hend : ∀ p ∈ c.pool, (∃ w i, p.task = .processOne w i j) → Ended p) {row : JobRow}
    (hrow : c.store.pg.row? j = some row) :
    row.status.initial ∨ row.status = .completed ∨
      row.status = .dlq ∧ ∃ q, j ∈ c.store.redis.lists (redisKeys.dlq q) := by
  have hT := told_of_reach hc hj
  obtain ⟨hcounting, htried⟩ :=
    idle_of_unworked fun _ => not_working (poolOk_of_reach hc) hj hend
  rcases hT.idle hcounting htried row hrow with hfirst | ⟨q, hq⟩ | hdone
  · exact Or.inl hfirst
  · exact Or.inr (Or.inr ⟨hT.dead q hq row hrow, q, hq⟩)
  · rw [completed, hrow] at hdone
    exact Or.inr (Or.inl (of_decide_eq_true hdone))

/-- **The row tells where a job is.**  In every reachable state of a run in which nothing
fails, the row of a job that waits in a ready list or a delayed set says `pending` or
`delayed`, and the row of a job in a dead-letter queue says `dlq`, whoever is at work.  Once
the calls of the job have ended, its row says `pending`, `delayed` or `completed`, or it says
`dlq` and the job is in a dead-letter queue. -/
theorem row_tells (hc : (machine env).Reach FaultFree Blank c) (hj : c.store.enqueued j) :
    ∃ row, c.store.pg.row? j = some row ∧
      ((∃ x, j ∈ c.store.redis.lists (.queue x)) ∨
          (∃ q, j ∈ c.store.redis.zsets (redisKeys.delayed q)) → row.status.initial) ∧
      (∀ q, j ∈ c.store.redis.lists (redisKeys.dlq q) → row.status = .dlq) ∧
      ((∀ p ∈ c.pool, (∃ w i, p.task = .processOne w i j) → Ended p) →
        row.status.initial ∨ row.status = .completed ∨
          row.status = .dlq ∧ ∃ q, j ∈ c.store.redis.lists (redisKeys.dlq q)) := by
  have hrow : (c.store.pg.row? j).isSome :=
    (Identity.poolOk_of_faultFree hc).1.row j hj
  obtain ⟨row, hrow⟩ := Option.isSome_iff_exists.mp hrow
  exact ⟨row, hrow, fun hwait => row_of_waiting hc hj hwait hrow,
    fun q hq => (told_of_reach hc hj).dead q hq row hrow, fun hend => row_of_ended hc hj hend hrow⟩

/-- The theorem on a run in which the only attempt of a job fails. -/
theorem row_tells_dead :
    ∃ c, (machine sample).Reach FaultFree Blank c ∧ c.store.enqueued j1.text ∧
      j1.text ∈ c.store.redis.lists (redisKeys.dlq "default") ∧
      ∃ row, c.store.pg.row? j1.text = some row ∧
        ((∃ x, j1.text ∈ c.store.redis.lists (.queue x)) ∨
            (∃ q, j1.text ∈ c.store.redis.zsets (redisKeys.delayed q)) → row.status.initial) ∧
        (∀ q, j1.text ∈ c.store.redis.lists (redisKeys.dlq q) → row.status = .dlq) ∧
        ((∀ p ∈ c.pool, (∃ w i, p.task = .processOne w i j1.text) → Ended p) →
          row.status.initial ∨ row.status = .completed ∨
            row.status = .dlq ∧ ∃ q, j1.text ∈ c.store.redis.lists (redisKeys.dlq q)) := by
  obtain ⟨c, hc, ht⟩ := Machine.exists_reach (machine sample) FaultFree Blank blank_blank
    ([.start (.enqueue "echo" (some .null) { maxAttempts := some 1 }), .call 0 (.fresh j1)] ++
      goes 0 5 ++ [.start (.start "w1")] ++ goes 1 8 ++ goes 2 5 ++ goes 3 6 ++ throws 3 ++
      goes 3 5)
    (fun c : State => decide (c.store.enqueued j1.text ∧
      j1.text ∈ c.store.redis.lists (redisKeys.dlq "default")))
    (by decide +kernel)
  obtain ⟨hj, hdead⟩ := of_decide_eq_true ht
  exact ⟨c, hc, hj, hdead, row_tells hc hj⟩

end Run

end Attempts

end NexusQueue
