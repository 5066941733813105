/-
# Ticks that are cut off while they fire

`Scheduler.fireCronJobs`, running alone, halted at any point or with any of its store commands
rejected, for any set of cron entries.  It claims an entry by removing it from the schedule,
writes the next occurrence, and only then enqueues the job.  Cut off in between it has lost
the occurrence, or the entry itself: firing is all or nothing if and only if the tick is not
cut off between the `ZREM` of a defined entry and the `MULTI` of its job
(`allOrNothing_iff`).
-/
import NexusQueue.Faulty

namespace NexusQueue

open Prog (Stops Withstands logged withstands_pure withstands_throw withstands_bind)

namespace Torn

variable {env : Env} {t : Task} {s s₁ s₂ : World} {l : Log} {c : CronId} {j : JobId}

/-! ## All or nothing -/

/-- The definition of a recurring job. -/
def definition (s : World) (c : CronId) : CronHash := s.redis.crons (redisKeys.cronDef c)

/-- A definition is stored. -/
def Defined (s : World) (c : CronId) : Prop :=
  (truthy (definition s c).cronExpression).isSome

instance (s : World) (c : CronId) : Decidable (Defined s c) :=
  inferInstanceAs (Decidable (_ = true))

/-- Its entry in the schedule. -/
def entry (s : World) (c : CronId) : Option ℚ :=
  (s.redis.zsets redisKeys.cronSchedule).score? c

/-- The ready list of its jobs. -/
def home (s : World) (c : CronId) : Key :=
  targetList ((definition s c).queue.getD "default") ((definition s c).priority.getD "normal")

/-- The occurrence has become a job, and the next one is scheduled. -/
structure Fired (env : Env) (s s' : World) (c : CronId) (j : JobId) : Prop where
  new : j ∉ s.ids
  row : ∃ r, s'.pg.row? j = some r ∧ r.queueName = (definition s c).queue.getD "default" ∧
    r.jobName = (definition s c).jobName.getD c
  ready : j ∈ s'.redis.lists (home s c)
  next : ∃ e now n, truthy (definition s c).cronExpression = some e ∧ s.clock ≤ now ∧
    now ≤ s'.clock ∧ env.cronNext e now = some n ∧ entry s' c = some n

/-- These recurring jobs have fired once each, and nothing else has been enqueued. -/
structure Fires (env : Env) (s s' : World) (fired : List (CronId × JobId)) : Prop where
  cronIds : (fired.map Prod.fst).Nodup
  jobIds : (fired.map Prod.snd).Nodup
  each : ∀ a ∈ fired, Fired env s s' a.1 a.2
  lists : ∀ x, s'.redis.lists (.queue x) =
    (fired.filter fun a => home s a.1 = .queue x).map Prod.snd ++ s.redis.lists (.queue x)

/-- Every entry with a definition has fired, or it is in the schedule as it was. -/
def AllOrNothing (env : Env) (s s' : World) : Prop :=
  ∃ fired, Fires env s s' fired ∧ ∀ c, Defined s c → (entry s c).isSome →
    (entry s' c).isSome ∧ (c ∉ fired.map Prod.fst → entry s' c = entry s c)

/-- The entry has been claimed. -/
def claimed (c : CronId) : Event Cmd Cmd.Resp Err :=
  ⟨.zrem redisKeys.cronSchedule c, .ok (1 : ℕ)⟩

/-- A `MULTI` has been executed. -/
def enqueued : Event Cmd Cmd.Resp Err → Bool
  | ⟨.multi _, .ok _⟩ => true
  | _ => false

/-- The entry has been claimed, and no `MULTI` has been executed since. -/
def Midway (l : Log) (c : CronId) : Prop :=
  ∃ l₁ l₂, l = l₁ ++ claimed c :: l₂ ∧ ∀ e ∈ l₁, enqueued e = false

theorem midway_cons {e : Event Cmd Cmd.Resp Err} :
    Midway (e :: l) c ↔ e = claimed c ∨ enqueued e = false ∧ Midway l c := by
  constructor
  · rintro ⟨l₁, l₂, hl, hnone⟩
    cases l₁ with
    | nil => exact Or.inl (List.cons.inj hl).1
    | cons e' l₁ =>
        obtain ⟨rfl, htail⟩ := List.cons.inj hl
        obtain ⟨he, hrest⟩ := List.forall_mem_cons.mp hnone
        exact Or.inr ⟨he, l₁, l₂, htail, hrest⟩
  · rintro (rfl | ⟨he, l₁, l₂, rfl, hnone⟩)
    · exact ⟨[], l, rfl, by simp⟩
    · exact ⟨e :: l₁, l₂, rfl, List.forall_mem_cons.mpr ⟨he, hnone⟩⟩

/-- It holds wherever a tick is cut off, unless that is midway. -/
def Judged (env : Env) (s : World) (b : World × Log) : Prop :=
  AllOrNothing env s b.1 ↔ ∀ c, Defined s c → (entry s c).isSome → ¬ Midway b.2 c

/-! ## What the loop has done so far -/

/-- The progress of the loop. -/
structure Progress (env : Env) (s : World) (fired : List (CronId × JobId)) (s₁ : World) : Prop
    extends Fires env s s₁ fired where
  clock : s.clock ≤ s₁.clock
  definitions : s₁.redis.crons = s.redis.crons
  ids : s.ids ⊆ s₁.ids
  known : ∀ a ∈ fired, a.2 ∈ s₁.ids
  due : ∀ a ∈ fired, Defined s a.1 ∧ (entry s a.1).isSome
  moved : ∀ a ∈ fired, entry s₁ a.1 ≠ entry s a.1

/-- What a command may change while the entry `c` is handled. -/
structure Frame (c : CronId) (s₁ s₂ : World) : Prop where
  clock : s₁.clock ≤ s₂.clock
  crons : s₂.redis.crons = s₁.redis.crons
  ids : s₁.ids ⊆ s₂.ids
  lists : ∀ x, s₂.redis.lists (.queue x) = s₁.redis.lists (.queue x)
  rows : ∀ i r, s₁.pg.row? i = some r → s₂.pg.row? i = some r
  entries : ∀ y, y ≠ c → entry s₂ y = entry s₁ y

/-- Time passes. -/
theorem Frame.time {n : ℕ} (h : s₁.clock ≤ n) : Frame c s₁ { s₁ with clock := n } :=
  ⟨h, rfl, le_refl _, fun _ => rfl, fun _ _ hr => hr, fun _ _ => rfl⟩

variable {fired : List (CronId × JobId)} {todo : List CronId}

theorem Progress.frame (h : Progress env s fired s₁) (hc : c ∉ fired.map Prod.fst)
    (hframe : Frame c s₁ s₂) : Progress env s fired s₂ := by
  have hentry : ∀ a ∈ fired, entry s₂ a.1 = entry s₁ a.1 := fun a ha =>
    hframe.entries a.1 fun hac => hc (hac ▸ List.mem_map_of_mem ha)
  refine ⟨⟨h.cronIds, h.jobIds, fun a ha => ?_, fun x => ?_⟩, h.clock.trans hframe.clock, ?_,
    h.ids.trans hframe.ids, fun a ha => hframe.ids (h.known a ha), h.due, fun a ha => ?_⟩
  · obtain ⟨hnew, ⟨r, hr, hrow⟩, hready, e, now, n, he, hle, hnow, hnext, hn⟩ := h.each a ha
    obtain ⟨x, hx⟩ : ∃ x, home s a.1 = .queue x := exists_targetList _ _
    refine ⟨hnew, ⟨r, hframe.rows _ _ hr, hrow⟩, ?_, e, now, n, he, hle,
      hnow.trans hframe.clock, hnext, ?_⟩
    · rw [hx, hframe.lists, ← hx]
      exact hready
    · rw [hentry a ha]
      exact hn
  · rw [hframe.lists, h.lists]
  · rw [hframe.crons, h.definitions]
  · rw [hentry a ha]
    exact h.moved a ha

/-- With one more entry moved than jobs enqueued, firing is not all or nothing. -/
theorem Progress.not_allOrNothing (h : Progress env s fired s₁) (hc : c ∉ fired.map Prod.fst)
    (hdef : Defined s c) (hentry : (entry s c).isSome) (hmoved : entry s₁ c ≠ entry s c) :
    ¬ AllOrNothing env s s₁ := by
  rintro ⟨fired', hfires, hrest⟩
  -- every entry that has moved must have fired
  have hall : c :: fired.map Prod.fst ⊆ fired'.map Prod.fst := by
    intro y hy
    have hy' : Defined s y ∧ (entry s y).isSome ∧ entry s₁ y ≠ entry s y := by
      rcases List.mem_cons.mp hy with rfl | hy
      · exact ⟨hdef, hentry, hmoved⟩
      · obtain ⟨a, ha, rfl⟩ := List.mem_map.mp hy
        exact ⟨(h.due a ha).1, (h.due a ha).2, h.moved a ha⟩
    by_contra hnot
    exact hy'.2.2 ((hrest y hy'.1 hy'.2.1).2 hnot)
  -- and every job that was enqueued is one of the loop's
  have hjobs : fired'.map Prod.snd ⊆ fired.map Prod.snd := by
    intro i hi
    obtain ⟨a, ha, rfl⟩ := List.mem_map.mp hi
    obtain ⟨x, hx⟩ : ∃ x, home s a.1 = .queue x := exists_targetList _ _
    have hsame := List.append_cancel_right ((hfires.lists x).symm.trans (h.lists x))
    have hmem : a.2 ∈ (fired'.filter fun a => home s a.1 = .queue x).map Prod.snd :=
      List.mem_map_of_mem (List.mem_filter.mpr ⟨ha, by simpa using hx⟩)
    rw [hsame] at hmem
    obtain ⟨b, hb, hab⟩ := List.mem_map.mp hmem
    exact hab ▸ List.mem_map_of_mem (List.mem_filter.mp hb).1
  have hlong := (List.nodup_cons.mpr ⟨hc, h.cronIds⟩).length_le_of_subset hall
  have hshort := hfires.jobIds.length_le_of_subset hjobs
  rw [List.length_cons, List.length_map, List.length_map] at hlong
  rw [List.length_map, List.length_map] at hshort
  omega

/-- Between two entries. -/
structure Between (env : Env) (s : World) (fired : List (CronId × JobId)) (todo : List CronId)
    (b : World × Log) : Prop where
  progress : Progress env s fired b.1
  distinct : todo.Nodup
  waiting : ∀ y ∈ todo, y ∉ fired.map Prod.fst ∧ ∃ q, entry s y = some q ∧ q ≤ b.1.clock
  rest : ∀ y, Defined s y → (entry s y).isSome → y ∉ fired.map Prod.fst →
    entry b.1 y = entry s y
  whole : ∀ y, Defined s y → (entry s y).isSome → ¬ Midway b.2 y

/-- Between two entries firing is all or nothing. -/
theorem Between.judged {b : World × Log} (h : Between env s fired todo b) : Judged env s b := by
  refine iff_of_true ⟨fired, h.progress.toFires, fun y hdef hentry => ⟨?_, h.rest y hdef hentry⟩⟩
    h.whole
  by_cases hy : y ∈ fired.map Prod.fst
  · obtain ⟨a, ha, rfl⟩ := List.mem_map.mp hy
    obtain ⟨e, now, n, -, -, -, -, hn⟩ := (h.progress.each a ha).next
    rw [hn]
    rfl
  · rw [h.rest y hdef hentry hy]
    exact hentry

/-- The entry has been claimed, and its job is not enqueued yet. -/
structure Window (env : Env) (s : World) (fired : List (CronId × JobId)) (c : CronId)
    (todo : List CronId) (b : World × Log) : Prop where
  progress : Progress env s fired b.1
  distinct : (c :: todo).Nodup
  waiting : ∀ y ∈ c :: todo, y ∉ fired.map Prod.fst ∧ ∃ q, entry s y = some q ∧ q ≤ b.1.clock
  rest : ∀ y, y ≠ c → Defined s y → (entry s y).isSome → y ∉ fired.map Prod.fst →
    entry b.1 y = entry s y
  defined : Defined s c
  moved : entry b.1 c ≠ entry s c
  midway : Midway b.2 c

theorem Window.scheduled {b : World × Log} (h : Window env s fired c todo b) :
    (entry s c).isSome := by
  obtain ⟨-, q, hq, -⟩ := h.waiting c List.mem_cons_self
  rw [hq]
  rfl

/-- There it is not. -/
theorem Window.judged {b : World × Log} (h : Window env s fired c todo b) : Judged env s b := by
  refine iff_of_false ?_ fun hwhole => hwhole c h.defined h.scheduled h.midway
  exact h.progress.not_allOrNothing (h.waiting c List.mem_cons_self).1 h.defined h.scheduled
    h.moved

/-- Commands other than the `MULTI` do not close the window. -/
theorem Window.step {e : Event Cmd Cmd.Resp Err} (h : Window env s fired c todo (s₁, l))
    (hframe : Frame c s₁ s₂) (hmoved : entry s₂ c ≠ entry s c) (he : enqueued e = false) :
    Window env s fired c todo (s₂, e :: l) := by
  have hc := (h.waiting c List.mem_cons_self).1
  refine ⟨h.progress.frame hc hframe, h.distinct, fun y hy => ?_, fun y hy hdef hentry hfired => ?_,
    h.defined, hmoved, midway_cons.mpr (Or.inr ⟨he, h.midway⟩)⟩
  · obtain ⟨hnot, q, hq, hle⟩ := h.waiting y hy
    exact ⟨hnot, q, hq, hle.trans (by exact_mod_cast hframe.clock)⟩
  · rw [hframe.entries y hy]
    exact h.rest y hy hdef hentry hfired

/-- A rejected command leaves it open. -/
theorem Window.rejected {cmd : Cmd} {e : Err} {n : ℕ} (h : Window env s fired c todo (s₁, l))
    (hn : s₁.clock ≤ n) : Judged env s ({ s₁ with clock := n }, ⟨cmd, .error e⟩ :: l) := by
  refine (h.step (.time hn) h.moved ?_).judged
  cases cmd <;> rfl

/-- Time, and a command that does not close the window. -/
theorem Window.later {e : Event Cmd Cmd.Resp Err} {n : ℕ} (h : Window env s fired c todo (s₁, l))
    (hn : s₁.clock ≤ n) (he : enqueued e = false) :
    Window env s fired c todo ({ s₁ with clock := n }, e :: l) :=
  h.step (.time hn) h.moved he

/-- The next occurrence is in the schedule. -/
def Rescheduled (env : Env) (s : World) (c : CronId) (s₁ : World) : Prop :=
  ∃ e now n, truthy (definition s c).cronExpression = some e ∧ s.clock ≤ now ∧
    now ≤ s₁.clock ∧ env.cronNext e now = some n ∧ entry s₁ c = some n

theorem Rescheduled.frame (h : Rescheduled env s c s₁) (hclock : s₁.clock ≤ s₂.clock)
    (hentry : entry s₂ c = entry s₁ c) : Rescheduled env s c s₂ := by
  obtain ⟨e, now, n, he, hle, hnow, hnext, hn⟩ := h
  exact ⟨e, now, n, he, hle, hnow.trans hclock, hnext, hentry.trans hn⟩

/-- The `MULTI` closes the window: the entry has fired. -/
theorem Window.close {queueName : QueueName} {fields : JobHash} {n : ℕ} {r : JobRow}
    (h : Window env s fired c todo (s₁, l)) (hn : s₁.clock ≤ n) (hnext : Rescheduled env s c s₁)
    (hnew : j ∉ s.ids) (hfresh : ∀ a ∈ fired, a.2 ≠ j) (hknown : j ∈ s₁.ids)
    (hrow : s₁.pg.row? j = some r)
    (hvalues : r.queueName = (definition s c).queue.getD "default" ∧
      r.jobName = (definition s c).jobName.getD c) :
    Between env s ((c, j) :: fired) todo
      ({ s₁ with
          clock := n
          redis := s₁.redis.multi n [.sadd redisKeys.queueRegistry queueName,
            .hset (redisKeys.job j) fields, .lpush (home s c) j] },
        ⟨.multi [.sadd redisKeys.queueRegistry queueName, .hset (redisKeys.job j) fields,
          .lpush (home s c) j], .ok ()⟩ :: l) := by
  obtain ⟨x, hx⟩ : ∃ x, home s c = .queue x := exists_targetList _ _
  obtain ⟨hc, hrest⟩ := List.nodup_cons.mp h.distinct
  -- the new id stands at the head of its ready list
  have hlists : ∀ y, (s₁.redis.multi n [.sadd redisKeys.queueRegistry queueName,
      .hset (redisKeys.job j) fields, .lpush (home s c) j]).lists (.queue y) =
        if y = x then j :: s₁.redis.lists (.queue y) else s₁.redis.lists (.queue y) := by
    intro y
    by_cases hy : y = x
    · subst hy
      simp [Redis.multi, Write.apply, hx]
    · simp [Redis.multi, Write.apply, hx, hy]
  have hprogress := h.progress
  refine ⟨⟨⟨?_, ?_, ?_, fun y => ?_⟩, hprogress.clock.trans hn, hprogress.definitions,
    hprogress.ids, ?_, ?_, ?_⟩, hrest, fun y hy => ?_, fun y hdef hentry hfired => ?_,
    fun y _ _ hmidway => ?_⟩
  · exact List.nodup_cons.mpr ⟨(h.waiting c List.mem_cons_self).1, hprogress.cronIds⟩
  · refine List.nodup_cons.mpr ⟨fun hmem => ?_, hprogress.jobIds⟩
    obtain ⟨a, ha, haj⟩ := List.mem_map.mp hmem
    exact hfresh a ha haj
  · refine List.forall_mem_cons.mpr ⟨⟨hnew, ⟨r, hrow, hvalues⟩, ?_, ?_⟩, fun a ha => ?_⟩
    · simp [Redis.multi, Write.apply]
    · exact hnext.frame hn rfl
    · obtain ⟨hnew', hrow', hready, hnext'⟩ := hprogress.each a ha
      refine ⟨hnew', hrow', ?_, Rescheduled.frame hnext' hn rfl⟩
      obtain ⟨y, hy⟩ : ∃ y, home s a.1 = .queue y := exists_targetList _ _
      show a.2 ∈ Redis.lists _ (home s a.1)
      rw [hy, hlists]
      rw [hy] at hready
      split
      · exact List.mem_cons_of_mem _ hready
      · exact hready
  · show Redis.lists _ (.queue y) = _
    rw [hlists, hprogress.lists]
    by_cases hy : y = x
    · subst hy
      rw [if_pos rfl, List.filter_cons_of_pos (by simpa using hx)]
      rfl
    · rw [if_neg hy, List.filter_cons_of_neg]
      rw [hx]
      simpa using fun hxy : x = y => hy hxy.symm
  · exact List.forall_mem_cons.mpr ⟨hknown, hprogress.known⟩
  · exact List.forall_mem_cons.mpr ⟨⟨h.defined, h.scheduled⟩, hprogress.due⟩
  · exact List.forall_mem_cons.mpr ⟨h.moved, hprogress.moved⟩
  · obtain ⟨hnot, q, hq, hle⟩ := h.waiting y (List.mem_cons_of_mem _ hy)
    refine ⟨?_, q, hq, hle.trans (by exact_mod_cast hn)⟩
    rw [List.map_cons, List.mem_cons, not_or]
    exact ⟨fun hyc : y = c => hc (hyc ▸ hy), hnot⟩
  · rw [List.map_cons, List.mem_cons, not_or] at hfired
    exact h.rest y hfired.1 hdef hentry hfired.2
  · rcases midway_cons.mp hmidway with hclaimed | ⟨hopen, -⟩
    · cases hclaimed
    · cases hopen

/-! ## The loop -/

theorem Fires.later {n : ℕ} (h : Fires env s s₁ fired) (hn : s₁.clock ≤ n) :
    Fires env s { s₁ with clock := n } fired := by
  refine ⟨h.cronIds, h.jobIds, fun a ha => ?_, h.lists⟩
  obtain ⟨hnew, hrow, hready, hnext⟩ := h.each a ha
  exact ⟨hnew, hrow, hready, Rescheduled.frame hnext hn rfl⟩

/-- Between two entries time may pass, and commands may be rejected. -/
theorem Between.later {e : Event Cmd Cmd.Resp Err} {n : ℕ} (h : Between env s fired todo (s₁, l))
    (hn : s₁.clock ≤ n) (he : ∀ y, Defined s y → e ≠ claimed y) :
    Between env s fired todo ({ s₁ with clock := n }, e :: l) := by
  refine ⟨?_, h.distinct, fun y hy => ?_, h.rest, fun y hdef hentry hmidway => ?_⟩
  · exact ⟨h.progress.toFires.later hn, h.progress.clock.trans hn, h.progress.definitions, h.progress.ids,
      h.progress.known, h.progress.due, h.progress.moved⟩
  · obtain ⟨hnot, q, hq, hle⟩ := h.waiting y hy
    exact ⟨hnot, q, hq, hle.trans (by exact_mod_cast hn)⟩
  · rcases midway_cons.mp hmidway with hclaimed | ⟨-, hmidway⟩
    · exact he y hdef hclaimed
    · exact h.whole y hdef hentry hmidway

theorem Window.insert {row : NewRow} {n : ℕ} {pg : Postgres}
    (h : Window env s fired c todo (s₁, l)) (hn : s₁.clock ≤ n)
    (hins : s₁.pg.insert n row = .ok pg) :
    Window env s fired c todo ({ s₁ with clock := n, pg := pg }, ⟨.insert row, .ok ()⟩ :: l) :=
  h.step ⟨hn, rfl, le_refl _, fun _ => rfl, fun _ _ hr => Postgres.row?_of_insert hins hr, fun _ _ => rfl⟩
    h.moved rfl

theorem enqueueCronJob_withstands (hw : Window env s fired c todo (s₁, l))
    (hnext : Rescheduled env s c s₁) :
    Withstands (logged (slow env t)) (Judged env s) (s₁, l)
      (Scheduler.enqueueCronJob c (definition s c)) fun _ b =>
        ∃ fired, Between env s fired todo b := by
  unfold Scheduler.enqueueCronJob
  dsimp only
  split
  · exact withstands_throw hw.judged
  · refine withstands_slow hw.judged (fun n o j s₂ hn ho => ?_) fun n e hn => hw.rejected hn
    -- a fresh id
    obtain ⟨hid, hframe, hentry, hknown⟩ : j.text ∉ s₁.ids ∧ Frame c s₁ s₂ ∧
        entry s₂ c = entry s₁ c ∧ j.text ∈ s₂.ids := by
      simp only [World.answer] at ho
      split at ho
      · split at ho
        · cases ho
        · rename_i hdrawn
          cases ho
          exact ⟨hdrawn, ⟨hn, rfl, Finset.subset_insert _ _, fun _ => rfl, fun _ _ hr => hr,
            fun _ _ => rfl⟩, rfl, Finset.mem_insert_self _ _⟩
      · cases ho
    have hnew : j.text ∉ s.ids := fun hmem => hid (hw.progress.ids hmem)
    have hfresh : ∀ a ∈ fired, a.2 ≠ j.text := fun a ha haj => hid (haj ▸ hw.progress.known a ha)
    have hw₂ : Window env s fired c todo (s₂, ⟨.uuid, .ok j⟩ :: l) :=
      hw.step hframe (hentry ▸ hw.moved) rfl
    have hnext₂ : Rescheduled env s c s₂ := hnext.frame hframe.clock hentry
    refine withstands_slow hw₂.judged (fun n₂ o₂ nowIso s₃ hn₂ ho₂ => ?_)
      fun n e hn => hw₂.rejected hn
    cases ho₂
    have hw₃ : Window env s fired c todo ({ s₂ with clock := n₂ }, ⟨.now, .ok n₂⟩ :: _) :=
      hw₂.later hn₂ rfl
    refine withstands_slow hw₃.judged (fun n₃ o₃ _ s₄ hn₃ ho₃ => ?_) fun n e hn => hw₃.rejected hn
    -- the row
    obtain ⟨pg, hins, rfl⟩ : ∃ pg, s₂.pg.insert n₃ _ = .ok pg ∧
        s₄ = { s₂ with clock := n₃, pg := pg } := by
      simp only [World.answer] at ho₃
      split at ho₃
      · rename_i pg hpg
        cases ho₃
        exact ⟨pg, hpg, rfl⟩
      · cases ho₃
    obtain ⟨r, hr, hqueue, hname, -⟩ := Postgres.inserted hins
    have hw₄ := hw₃.insert hn₃ hins
    refine withstands_slow_last hw₄.judged (fun n₄ o₄ _ s₅ hn₄ ho₄ => ?_)
      fun n e hn => hw₄.rejected hn
    cases ho₄
    exact ⟨_, hw₄.close hn₄ (hnext₂.frame (hn₂.trans hn₃) rfl) hnew hfresh hknown hr
      ⟨hqueue, hname⟩⟩

/-- `cron-parser` gives a later time. -/
def Later (env : Env) : Prop := ∀ e now n, env.cronNext e now = some n → (now : ℚ) < n

/-- What is done for a defined entry once it is claimed. -/
theorem claimed_withstands (hlater : Later env) (hw : Window env s fired c todo (s₁, l)) :
    Withstands (logged (slow env t)) (Judged env s) (s₁, l) (do
      let defRaw ← redis.hgetallCron (redisKeys.cronDef c)
      match truthy defRaw.cronExpression with
      | none => pure ()
      | some cronExpression =>
          let nextMs ← await (.cronNext cronExpression)
          redis.zadd redisKeys.cronSchedule nextMs c
          Scheduler.enqueueCronJob c defRaw) fun _ b => ∃ fired, Between env s fired todo b := by
  refine withstands_slow hw.judged (fun n o defRaw s₂ hn ho => ?_) fun n e hn => hw.rejected hn
  obtain ⟨rfl, rfl⟩ : defRaw = definition s c ∧ s₂ = { s₁ with clock := n } := by
    cases ho
    refine ⟨?_, rfl⟩
    show s₁.redis.crons (redisKeys.cronDef c) = definition s c
    rw [hw.progress.definitions]
    rfl
  have hw₂ : Window env s fired c todo ({ s₁ with clock := n },
      ⟨.hgetallCron (redisKeys.cronDef c), .ok (definition s c)⟩ :: l) := hw.later hn rfl
  obtain ⟨e, he⟩ := Option.isSome_iff_exists.mp hw.defined
  rw [he]
  refine withstands_slow hw₂.judged (fun n₂ o₂ nextMs s₃ hn₂ ho₂ => ?_)
    fun n e hn => hw₂.rejected hn
  obtain ⟨hnext, rfl⟩ : env.cronNext e n₂ = some nextMs ∧ s₃ = { s₁ with clock := n₂ } := by
    simp only [World.answer] at ho₂
    split at ho₂
    · rename_i hnext
      cases ho₂
      exact ⟨hnext, rfl⟩
    · cases ho₂
  have hw₃ : Window env s fired c todo ({ s₁ with clock := n₂ }, ⟨.cronNext e, .ok nextMs⟩ ::
      ⟨.hgetallCron (redisKeys.cronDef c), .ok (definition s c)⟩ :: l) := hw₂.later hn₂ rfl
  refine withstands_slow hw₃.judged (fun n₃ o₃ _ s₄ hn₃ ho₃ => ?_) fun n e hn => hw₃.rejected hn
  cases ho₃
  -- the next occurrence is later than the one that was due
  have hentry : entry { s₁ with
      clock := n₃
      redis := (Write.zadd redisKeys.cronSchedule nextMs c).apply n₃ s₁.redis } c = some nextMs := by
    simp [entry, Write.apply]
  have hmoved : some nextMs ≠ entry s c := by
    obtain ⟨-, q, hq, hqle⟩ := hw₃.waiting c List.mem_cons_self
    rw [hq]
    rintro hsame
    cases hsame
    exact absurd (hlater e n₂ nextMs hnext) (not_lt.mpr hqle)
  refine enqueueCronJob_withstands (hw₃.step ⟨hn₃, rfl, le_refl _, fun _ => rfl, fun _ _ hr => hr,
    fun y hy => ?_⟩ (hentry ▸ hmoved) rfl) ⟨e, n₂, nextMs, he, ?_, hn₃, hnext, hentry⟩
  · simp [entry, Write.apply, hy]
  · exact hw₃.progress.clock

/-- One entry.  Before the `ZREM` and after the `MULTI` it is all or nothing. -/
theorem fireCron_withstands (hlater : Later env) (h : Between env s fired (c :: todo) (s₁, l)) :
    Withstands (logged (slow env t)) (Judged env s) (s₁, l) (Scheduler.fireCron c) fun _ b =>
      ∃ fired, Between env s fired todo b := by
  obtain ⟨hc, hrest⟩ := List.nodup_cons.mp h.distinct
  obtain ⟨hnot, q, hq, hqle⟩ := h.waiting c List.mem_cons_self
  refine withstands_slow h.judged (fun n o removed s₂ hn ho => ?_) fun n e hn =>
    (h.later hn (by simp [claimed])).judged
  -- the entry is removed, if it is there
  have hkeep : ∀ y, y ≠ c → entry s₂ y = entry s₁ y := by
    intro y hy
    cases ho
    simp [entry, hy]
  have hframe : Frame c s₁ s₂ := by
    cases ho
    exact ⟨hn, by simp, le_refl _, fun _ => by simp, fun _ _ hr => hr, hkeep⟩
  by_cases hdef : Defined s c
  · obtain ⟨rfl, hgone⟩ : removed = 1 ∧ entry s₂ c = none := by
      have hmem : c ∈ s₁.redis.zsets redisKeys.cronSchedule :=
        ⟨q, (h.rest c hdef (by rw [hq]; rfl) hnot).trans hq⟩
      cases ho
      exact ⟨(Redis.zrem_fst _ _ _).trans (if_pos hmem), by simp [entry]⟩
    rw [if_neg (by simp)]
    refine claimed_withstands hlater ⟨h.progress.frame hnot hframe, h.distinct, fun y hy => ?_,
      fun y hy hdef' hentry hfired => ?_, hdef, ?_, midway_cons.mpr (Or.inl rfl)⟩
    · obtain ⟨hnot', q', hq', hle⟩ := h.waiting y hy
      exact ⟨hnot', q', hq', hle.trans (by exact_mod_cast hframe.clock)⟩
    · exact (hkeep y hy).trans (h.rest y hdef' hentry hfired)
    · rw [hgone, hq]
      simp
  · -- without a definition nothing is done for it
    have hnext : ∀ e : Event Cmd Cmd.Resp Err, (∀ y, y ≠ c → e ≠ claimed y) →
        Between env s fired todo (s₂, e :: l) := by
      intro e he
      refine ⟨h.progress.frame hnot hframe, hrest, fun y hy => ?_,
        fun y hdef' hentry hfired => ?_, fun y hdef' hentry hmidway => ?_⟩
      · obtain ⟨hnot', q', hq', hle⟩ := h.waiting y (List.mem_cons_of_mem _ hy)
        exact ⟨hnot', q', hq', hle.trans (by exact_mod_cast hframe.clock)⟩
      · rw [hkeep y fun hyc => hdef (hyc ▸ hdef')]
        exact h.rest y hdef' hentry hfired
      · rcases midway_cons.mp hmidway with hclaimed | ⟨-, hmidway⟩
        · exact he y (fun hyc => hdef (hyc ▸ hdef')) hclaimed
        · exact h.whole y hdef' hentry hmidway
    have hbetween : Between env s fired todo
        (s₂, ⟨.zrem redisKeys.cronSchedule c, .ok removed⟩ :: l) := by
      refine hnext _ fun y hy hsame => ?_
      cases hsame
      exact hy rfl
    split
    · exact withstands_pure ⟨fired, hbetween⟩
    · refine withstands_slow hbetween.judged (fun n₂ o₂ defRaw s₃ hn₂ ho₂ => ?_)
        fun n e hn => (hbetween.later hn (by simp [claimed])).judged
      obtain ⟨rfl, rfl⟩ : defRaw = definition s c ∧ s₃ = { s₂ with clock := n₂ } := by
        cases ho₂
        refine ⟨?_, rfl⟩
        show s₂.redis.crons (redisKeys.cronDef c) = definition s c
        rw [hbetween.progress.definitions]
        rfl
      rw [Option.not_isSome_iff_eq_none.mp hdef]
      exact withstands_pure ⟨fired, hbetween.later hn₂ (by simp [claimed])⟩

/-- **Firing is all or nothing, unless the tick is cut off midway.**  For any entries and
definitions, wherever the tick is halted or one of its store commands is rejected: every
entry with a definition has fired and is scheduled again, or is in the schedule as it was, if
and only if no such entry has been claimed without the `MULTI` of its job. -/
theorem allOrNothing_iff (hlater : Later env) {s' : World}
    (hstop : Stops (logged (slow env .tick)) (s, []) Scheduler.fireCronJobs (s', l)) :
    AllOrNothing env s s' ↔ ∀ c, Defined s c → (entry s c).isSome → ¬ Midway l c := by
  have hstart : ∀ {n l}, s.clock ≤ n → (∀ e ∈ l, ∀ y, e ≠ claimed y) → ∀ {todo : List CronId},
      todo.Nodup → (∀ y ∈ todo, ∃ q, entry s y = some q ∧ q ≤ n) →
      Between env s [] todo ({ s with clock := n }, l) := by
    intro n l hn hl todo hnodup hdue
    refine ⟨⟨⟨by simp, by simp, by simp, by simp⟩, hn, rfl, le_refl _, by simp, by simp, by simp⟩,
      hnodup, fun y hy => ⟨by simp, hdue y hy⟩, fun _ _ _ _ => rfl, ?_⟩
    rintro y - - ⟨l₁, l₂, rfl, -⟩
    exact hl _ (by simp) y rfl
  have hbegin : Between env s [] [] (s, []) := hstart (le_refl _) (by simp) (by simp) (by simp)
  refine Withstands.stops (Q := fun _ b => ∃ fired, Between env s fired [] b) (J := Judged env s)
    ?_ (fun _ _ ⟨_, hb⟩ => hb.judged) hstop
  refine withstands_slow hbegin.judged (fun n o now s₁ hn ho => ?_) fun n e hn =>
    (hbegin.later hn (by simp [claimed])).judged
  cases ho
  have hread : Between env s [] [] ({ s with clock := n }, [⟨.now, .ok n⟩]) :=
    hbegin.later hn (by simp [claimed])
  refine withstands_slow hread.judged (fun n₂ o₂ dueEntries s₂ hn₂ ho₂ => ?_) fun n e hn =>
    (hread.later hn (by simp [claimed])).judged
  cases ho₂
  refine Prog.withstands_forEach (fun todo b => ∃ fired, Between env s fired todo b)
    (fun c todo b ⟨fired, hb⟩ => fireCron_withstands hlater hb) (fun b hb => hb) _ _ ⟨[], ?_⟩
  refine hstart (hn.trans hn₂) (by simp [claimed]) (SortedSet.nodup_rangeByScore _ _) fun y hy => ?_
  obtain ⟨q, hq, hle⟩ := (SortedSet.mem_rangeByScore _ _ _).mp hy
  exact ⟨q, hq, (hle _ rfl).trans (by exact_mod_cast hn₂)⟩

/-- A recurring job that is due. -/
def dueEntry : World where
  redis :=
    { zsets := Function.update (fun _ => ∅) redisKeys.cronSchedule ((∅ : SortedSet _ _).zadd 0 "c1")
      crons := Function.update (fun _ => {}) (redisKeys.cronDef "c1")
        { cronId := some "c1", jobName := some "report", cronExpression := some "* * * * *" } }
  clock := 5

theorem later_sample : Later sample := by
  intro e now n h
  cases h
  exact_mod_cast Nat.lt_add_of_pos_right (by decide)

/-- The theorem on a tick that runs to its end. -/
theorem allOrNothing_whole :
    ∃ s' l, Stops (logged (slow sample .tick)) (dueEntry, []) Scheduler.fireCronJobs (s', l) ∧
      s'.redis.lists (redisKeys.queue "default") = [j1.text] ∧ AllOrNothing sample dueEntry s' := by
  have hcut : (cutOff sample .tick [.plain, .plain, .plain, .plain, .plain, .plain, .fresh j1,
      .plain, .plain, .plain] dueEntry [] Scheduler.fireCronJobs).any (fun b =>
        decide (b.1.redis.lists (redisKeys.queue "default") = [j1.text]) &&
          b.2.head?.any enqueued) = true := by
    decide +kernel
  obtain ⟨s', l, hstop, htest⟩ := exists_stops_of_cutOff _ hcut
  obtain ⟨hlist, hhead⟩ := Bool.and_eq_true_iff.mp htest
  refine ⟨s', l, hstop, of_decide_eq_true hlist,
    (allOrNothing_iff later_sample hstop).mpr fun c _ _ hmidway => ?_⟩
  cases l with
  | nil => cases hhead
  | cons e l =>
      rcases midway_cons.mp hmidway with rfl | ⟨hopen, -⟩
      · cases hhead
      · rw [show enqueued e = true from hhead] at hopen
        cases hopen

/-- A tick that is halted after the `ZREM` leaves a defined entry without a schedule. -/
theorem halted_after_zrem :
    ∃ s' l, Stops (logged (slow sample .tick)) (dueEntry, []) Scheduler.fireCronJobs (s', l) ∧
      Defined dueEntry "c1" ∧ (entry dueEntry "c1").isSome ∧ entry s' "c1" = none ∧
      ¬ AllOrNothing sample dueEntry s' := by
  have hcut : (cutOff sample .tick [.plain, .plain, .plain] dueEntry []
      Scheduler.fireCronJobs).any (fun b => decide (entry b.1 "c1" = none)) = true := by
    decide +kernel
  obtain ⟨s', l, hstop, htest⟩ := exists_stops_of_cutOff _ hcut
  have hgone : entry s' "c1" = none := of_decide_eq_true htest
  have hdef : Defined dueEntry "c1" := by decide +kernel
  have hentry : (entry dueEntry "c1").isSome := by decide +kernel
  refine ⟨s', l, hstop, hdef, hentry, hgone, ?_⟩
  rintro ⟨fired, -, hrest⟩
  have hsome := (hrest "c1" hdef hentry).1
  rw [hgone] at hsome
  cases hsome

end Torn

end NexusQueue
