/-
# A cron pass

`fireCronJobs`, running alone, for any schedule and any definitions.  What becomes of an entry
that is due is a function of its definition (`fate`): without a definition it is dropped; an
expression, a payload or a row that is refused breaks the pass off, in the first case before
the entry is put back; else the entry is rescheduled and its job enqueued.

The pass does this for the entries that are due, in order of their scores, up to the first one
that breaks it off, and it does nothing else (`fires_due`).
-/
import NexusQueue.Sequential

namespace NexusQueue

open Prog (Completes)

namespace CronPass

variable {env : Env} {t : Task} {s s₁ s₂ s' : World} {c : CronId} {id : Uuid}

/-- The entries that are due, in order of their scores. -/
def due (s : World) : List CronId :=
  (s.redis.zsets redisKeys.cronSchedule).rangeByScore (some (s.clock : ℚ))

/-- When the next run of a recurring job is due. -/
def entry (s : World) (c : CronId) : Option ℚ :=
  (s.redis.zsets redisKeys.cronSchedule).score? c

/-! ## What becomes of an entry -/

/-- A run of a recurring job. -/
structure Occurrence where
  queueName : QueueName
  jobName : String
  payload : Json
  maxAttempts : Numeral
  priority : String

namespace Occurrence

/-- The values of its `INSERT`. -/
def newRow (x : Occurrence) (id : Uuid) : NewRow :=
  { id := id, queueName := x.queueName, jobName := x.jobName, payload := some x.payload
    status := .pending, maxAttempts := x.maxAttempts.toNumber, priority := x.priority }

/-- What its `INSERT` is refused with, whatever uuid has been drawn. -/
def refusal (db : Postgres) (x : Occurrence) : Option Err :=
  match (x.newRow default).misfit with
  | some column => some (.invalidValue column)
  | none => if db.hasRoom (x.newRow default) then none else some Postgres.noRoom

/-- Its row. -/
def row (x : Occurrence) (id : Uuid) (now : ℕ) : JobRow :=
  (x.newRow id).toRow x.payload ((int4? x.maxAttempts.toNumber).getD 0) now

/-- Its hash. -/
def hash (x : Occurrence) (id : Uuid) (now : ℕ) : JobHash :=
  newJobHash id x.queueName x.jobName (some x.payload) .pending x.maxAttempts x.priority now

/-- Its ready list. -/
def home (x : Occurrence) : Key := targetList x.queueName x.priority

end Occurrence

/-- The run that a definition asks for. -/
def occurrence (c : CronId) (d : CronHash) : Except Err Occurrence :=
  (parsePayload d.payload).map fun payload =>
    { queueName := d.queue.getD "default"
      jobName := d.jobName.getD c
      payload := payload
      maxAttempts := d.maxAttempts.getD (.of 3)
      priority := d.priority.getD "normal" }

/-- What becomes of an entry that is due. -/
inductive Fate where
  | dropped
  | lost (e : Err)
  | spoiled (next : ℚ) (e : Err)
  | fired (next : ℚ) (x : Occurrence)

namespace Fate

/-- The entry that is put back. -/
def next? : Fate → Option ℚ
  | dropped | lost _ => none
  | spoiled next _ | fired next _ => some next

/-- The run that is enqueued. -/
def job? : Fate → Option Occurrence
  | fired _ x => some x
  | _ => none

/-- What the pass breaks off with. -/
def error? : Fate → Option Err
  | lost e | spoiled _ e => some e
  | _ => none

end Fate

/-- The fate of an entry with this definition. -/
def fateOf (env : Env) (db : Postgres) (now : ℕ) (c : CronId) (d : CronHash) : Fate :=
  match truthy d.cronExpression with
  | none => .dropped
  | some e =>
      match env.cronNext e now with
      | none => .lost (.error "Invalid cron expression")
      | some next =>
          match occurrence c d with
          | .error e => .spoiled next e
          | .ok x =>
              match x.refusal db with
              | none => .fired next x
              | some e => .spoiled next e

/-- The fate of an entry. -/
def fate (env : Env) (s : World) (c : CronId) : Fate :=
  fateOf env s.pg s.clock c (s.redis.crons (redisKeys.cronDef c))

/-! ## What a pass has done so far -/

variable {done : List CronId} {jobs : List (Occurrence × Uuid)} {x : Occurrence}

/-- These entries have met their fates, and the runs among them have been enqueued under
these ids. -/
structure Fired (env : Env) (s : World) (done : List CronId) (jobs : List (Occurrence × Uuid))
    (s' : World) : Prop where
  /-- One job for each run, in order. -/
  runs : jobs.map Prod.fst = done.filterMap fun c => (fate env s c).job?
  /-- The ids are new, and distinct. -/
  new : (jobs.map Prod.snd).Nodup
  fresh : ∀ a ∈ jobs, a.2.text ∉ s.ids ∧ a.2.text ∈ s'.ids
  /-- The entries have been put back or removed, and all others are as before. -/
  schedule : ∀ c, entry s' c = if c ∈ done then (fate env s c).next? else entry s c
  otherSets : ∀ k, k ≠ redisKeys.cronSchedule → s'.redis.zsets k = s.redis.zsets k
  /-- Each job has a row and a hash, and no other one has changed. -/
  rows : s'.pg.rows = s.pg.rows ++ jobs.map fun a => a.1.row a.2 s.clock
  room : s'.pg.room = s.pg.room
  hashes : ∀ a ∈ jobs, s'.redis.jobs (redisKeys.job a.2) = a.1.hash a.2 s.clock
  otherHashes : ∀ k, (∀ a ∈ jobs, k ≠ redisKeys.job a.2) → s'.redis.jobs k = s.redis.jobs k
  /-- Each job has been pushed to its list. -/
  lists : ∀ k, s'.redis.lists k =
    ((jobs.filter fun a => a.1.home = k).map fun a => a.2.text).reverse ++ s.redis.lists k
  /-- Their queues are registered. -/
  registry : s'.redis.sets = Function.update s.redis.sets redisKeys.queueRegistry
    (s.redis.sets redisKeys.queueRegistry ∪ (jobs.map fun a => a.1.queueName).toFinset)
  /-- Everything else is as before. -/
  ids : s.ids ⊆ s'.ids
  drawn : s'.ids.card ≤ s.ids.card + done.length
  frame : s' = { s with
    pg := s'.pg
    ids := s'.ids
    redis := { s.redis with
      zsets := s'.redis.zsets
      lists := s'.redis.lists
      jobs := s'.redis.jobs
      sets := s'.redis.sets } }

/-- Nothing has been done yet. -/
theorem Fired.refl (env : Env) (s : World) : Fired env s [] [] s where
  runs := rfl
  new := List.nodup_nil
  fresh := by simp
  schedule c := by simp
  otherSets k hk := rfl
  rows := (List.append_nil _).symm
  room := rfl
  hashes := by simp
  otherHashes k hk := rfl
  lists k := rfl
  registry := by simp
  ids := Finset.Subset.refl _
  drawn := le_rfl
  frame := rfl

theorem Fired.clock (h : Fired env s done jobs s₁) : s₁.clock = s.clock := by
  rw [h.frame]

theorem Fired.crons (h : Fired env s done jobs s₁) : s₁.redis.crons = s.redis.crons := by
  rw [h.frame]

/-- An entry has met its fate, and it was not to be enqueued. -/
theorem Fired.skip (h : Fired env s done jobs s₁) (hjob : (fate env s c).job? = none)
    (hentry : ∀ c', entry s₂ c' = if c' = c then (fate env s c).next? else entry s₁ c')
    (hsets : ∀ k, k ≠ redisKeys.cronSchedule → s₂.redis.zsets k = s₁.redis.zsets k)
    (hids : s₁.ids ⊆ s₂.ids) (hdrawn : s₂.ids.card ≤ s₁.ids.card + 1)
    (hframe : s₂ = { s₁ with
      ids := s₂.ids, redis := { s₁.redis with zsets := s₂.redis.zsets } }) :
    Fired env s (done ++ [c]) jobs s₂ where
  runs := by
    rw [List.filterMap_append, h.runs]
    simp [hjob]
  new := h.new
  fresh a ha := ⟨(h.fresh a ha).1, hids (h.fresh a ha).2⟩
  schedule c' := by
    rw [hentry, h.schedule]
    by_cases hc : c' = c
    · subst hc
      rw [if_pos rfl, if_pos (List.mem_append_right _ List.mem_cons_self)]
    · simp only [List.mem_append, List.mem_singleton, hc, or_false, if_false]
  otherSets k hk := (hsets k hk).trans (h.otherSets k hk)
  rows := by
    rw [hframe]
    exact h.rows
  room := by
    rw [hframe]
    exact h.room
  hashes a ha := by
    rw [hframe]
    exact h.hashes a ha
  otherHashes k hk := by
    rw [hframe]
    exact h.otherHashes k hk
  lists k := by
    rw [hframe]
    exact h.lists k
  registry := by
    rw [hframe]
    exact h.registry
  ids := h.ids.trans hids
  drawn := by
    have hbefore := h.drawn
    rw [List.length_append, List.length_singleton]
    omega
  frame := by
    rw [hframe, h.frame]

/-- The world after a run has been enqueued. -/
def enqueued (s : World) (c : CronId) (next : ℚ) (x : Occurrence) (id : Uuid) (pg : Postgres) :
    World :=
  { s with
    pg := pg
    ids := insert id.text s.ids
    redis := { s.redis with
      zsets := Function.update s.redis.zsets redisKeys.cronSchedule
        (((s.redis.zsets redisKeys.cronSchedule).zrem c).zadd next c)
      sets := Function.update s.redis.sets redisKeys.queueRegistry
        (insert x.queueName (s.redis.sets redisKeys.queueRegistry))
      jobs := Function.update s.redis.jobs (redisKeys.job id) (x.hash id s.clock)
      lists := Function.update s.redis.lists x.home (id.text :: s.redis.lists x.home) } }

/-- A run has been enqueued. -/
theorem Fired.enqueue (h : Fired env s done jobs s₁) {next : ℚ} {pg : Postgres}
    (hfate : fate env s c = .fired next x) (hid : id.text ∉ s₁.ids)
    (hrows : pg.rows = s₁.pg.rows ++ [x.row id s.clock]) (hroom : pg.room = s₁.pg.room) :
    Fired env s (done ++ [c]) (jobs ++ [(x, id)]) (enqueued s₁ c next x id pg) := by
  -- the new uuid is none of those drawn before
  have hother : ∀ a ∈ jobs, a.2 ≠ id := by
    rintro a ha rfl
    exact hid (h.fresh a ha).2
  refine ⟨?_, ?_, ?_, fun c' => ?_, fun k hk => ?_, ?_, hroom.trans h.room, ?_, fun k hk => ?_,
    fun k => ?_, ?_, ?_, ?_, ?_⟩
  · rw [List.map_append, List.filterMap_append, h.runs]
    simp [hfate, Fate.job?]
  · rw [List.map_append, List.nodup_append]
    refine ⟨h.new, List.nodup_singleton _, ?_⟩
    rintro j hj _ hb rfl
    obtain ⟨a, ha, hja⟩ := List.mem_map.mp hj
    exact hother a ha (hja.trans (List.mem_singleton.mp hb))
  · intro a ha
    rcases List.mem_append.mp ha with ha | ha
    · exact ⟨(h.fresh a ha).1, Finset.mem_insert_of_mem (h.fresh a ha).2⟩
    · cases List.mem_singleton.mp ha
      exact ⟨fun hold => hid (h.ids hold), Finset.mem_insert_self _ _⟩
  · show (Function.update s₁.redis.zsets _ _ redisKeys.cronSchedule).score? c' = _
    rw [Function.update_self, SortedSet.score?_zadd, SortedSet.score?_zrem]
    by_cases hc : c' = c
    · subst hc
      rw [if_pos rfl, if_pos (List.mem_append_right _ List.mem_cons_self), hfate]
      rfl
    · simp only [List.mem_append, List.mem_singleton, hc, or_false, if_false]
      exact h.schedule c'
  · exact (Function.update_of_ne hk _ _).trans (h.otherSets k hk)
  · show pg.rows = _
    rw [hrows, h.rows, List.map_append, List.append_assoc]
    rfl
  · intro a ha
    show Function.update s₁.redis.jobs (redisKeys.job id) _ (redisKeys.job a.2) = _
    rcases List.mem_append.mp ha with ha | ha
    · rw [Function.update_of_ne fun hkey =>
        hother a ha (Uuid.text_injective (Key.job.inj hkey))]
      exact h.hashes a ha
    · cases List.mem_singleton.mp ha
      rw [Function.update_self, h.clock]
  · have hne : k ≠ redisKeys.job id := hk (x, id) (List.mem_append_right _ List.mem_cons_self)
    exact (Function.update_of_ne hne _ _).trans
      (h.otherHashes k fun a ha => hk a (List.mem_append_left _ ha))
  · rw [List.filter_append, List.map_append, List.reverse_append, List.append_assoc, ← h.lists]
    show Function.update s₁.redis.lists x.home _ k = _
    by_cases hk : k = x.home
    · subst hk
      simp
    · rw [Function.update_of_ne hk]
      have hne : x.home ≠ k := fun heq => hk heq.symm
      simp [hne]
  · show Function.update s₁.redis.sets redisKeys.queueRegistry _ = _
    rw [h.registry, Function.update_self, Function.update_idem, List.map_append,
      List.toFinset_append]
    congr 1
    ext q
    simp only [List.map_cons, List.map_nil, List.toFinset_cons, List.toFinset_nil,
      Finset.mem_insert, Finset.mem_union, Finset.notMem_empty]
    tauto
  · exact h.ids.trans (Finset.subset_insert _ _)
  · have hbefore := h.drawn
    have hone := Finset.card_insert_le id.text s₁.ids
    rw [List.length_append, List.length_singleton]
    show (insert id.text s₁.ids).card ≤ _
    omega
  · rw [enqueued, h.frame]

/-! ## One entry -/

/-- A command that the world refuses. -/
theorem completes_refused {α : Type} {cmd : Cmd} {e : Err} {f : cmd.Resp → Async α}
    {Q : Except Err α → World → Prop} (hup : t.host.elim false s.down = false)
    (hread : cmd.unreadable = false) (hc : ∀ o, s.answer env o cmd = some (.error e, s))
    (h : Q (.error e) s) :
    Completes (alone env t) (fun _ => True) s (await cmd >>= f) Q := by
  refine Prog.completes_step trivial ⟨_, _, alone_of_answer hup rfl (hc .plain) hread⟩
    (fun b s₁ hb => ?_) fun e' s₁ he => ?_
  · obtain ⟨o, ho⟩ := answer_of_alone hb hread
    rw [hc o] at ho
    cases ho
  · obtain ⟨o, ho⟩ := answer_of_alone he hread
    rw [hc o] at ho
    cases ho
    exact h

theorem answer_insert_ok {row : NewRow} {pg : Postgres} (o : Oracle)
    (h : s.pg.insert s.clock row = .ok pg) :
    World.answer env s o (.insert row) = some (.ok (), { s with pg := pg }) := by
  simp only [World.answer]
  rw [h]

theorem answer_insert_error {row : NewRow} {e : Err} (o : Oracle)
    (h : s.pg.insert s.clock row = .error e) :
    World.answer env s o (.insert row) = some (.error e, s) := by
  simp only [World.answer]
  rw [h]

/-- A uuid is drawn. -/
theorem completes_uuid {α : Type} {f : Uuid → Async α} {Q : Except Err α → World → Prop}
    (hup : t.host.elim false s.down = false) (hleft : s.ids.card < 2 ^ 128)
    (h : ∀ id : Uuid, id.text ∉ s.ids →
      Completes (alone env t) (fun _ => True) { s with ids := insert id.text s.ids } (f id) Q) :
    Completes (alone env t) (fun _ => True) s (uuidv4 >>= f) Q := by
  obtain ⟨id, hid⟩ := Uuid.exists_text_notMem hleft
  have hdraw : World.answer env s (.fresh id) .uuid =
      some (.ok id, { s with ids := insert id.text s.ids }) := if_neg hid
  refine Prog.completes_step trivial ⟨_, _, alone_of_answer hup rfl hdraw rfl⟩ ?_ ?_
  · intro id' s' hone
    obtain ⟨o, ho⟩ := answer_of_alone hone rfl
    obtain ⟨i, hnew, -, hr, rfl⟩ := answer_uuid ho
    cases hr
    exact h id' hnew
  · intro e s' hone
    obtain ⟨o, ho⟩ := answer_of_alone hone rfl
    obtain ⟨i, -, -, hr, -⟩ := answer_uuid ho
    cases hr

/-- What the `INSERT` of a run does. -/
theorem insert_newRow {db : Postgres} (hnone : db.row? id = none) (x : Occurrence) (now : ℕ) :
    match x.refusal db with
    | none => ∃ db', db.insert now (x.newRow id) = .ok db' ∧
        db'.rows = db.rows ++ [x.row id now] ∧ db'.room = db.room
    | some e => db.insert now (x.newRow id) = .error e := by
  -- neither check depends on the uuid
  have hmisfit : (x.newRow id).misfit = (x.newRow default).misfit := rfl
  have hroom : db.hasRoom (x.newRow id) ↔ db.hasRoom (x.newRow default) := Iff.rfl
  unfold Occurrence.refusal
  cases hcolumn : (x.newRow default).misfit with
  | some column => exact Postgres.insert_misfit (hmisfit.trans hcolumn) now
  | none =>
      have hw := (NewRow.misfit_eq_none _).mp (hmisfit.trans hcolumn)
      by_cases hfits : db.hasRoom (x.newRow default)
      · rw [if_pos hfits]
        obtain ⟨db', hdb⟩ := Postgres.insert_accepts hw (hroom.mpr hfits) hnone
          (fun k hk => by cases hk) now
        obtain ⟨payload, maxAttempts, hpayload, hmax, _, _, rfl⟩ := Postgres.insert_eq hdb
        refine ⟨_, hdb, ?_, rfl⟩
        have hnum : int4? x.maxAttempts.toNumber = some maxAttempts := hmax
        have hsame : x.payload = payload := Option.some_inj.mp hpayload
        rw [Occurrence.row, hnum, hsame]
        rfl
      · rw [if_neg hfits]
        exact Postgres.insert_noRoom hw (mt hroom.mp hfits) hnone now

/-- What is refused depends on the limits of the server only. -/
theorem refusal_congr {db db' : Postgres} (h : db'.room = db.room) (x : Occurrence) :
    x.refusal db' = x.refusal db := by
  have hroom : db'.hasRoom (x.newRow default) ↔ db.hasRoom (x.newRow default) := by
    rw [Postgres.hasRoom, Postgres.hasRoom, h]
  unfold Occurrence.refusal
  simp only [hroom]

/-- The outcome of an entry. -/
def outcome (f : Fate) : Except Err Unit := f.error?.elim (.ok ()) .error

/-- Uuids that have not been drawn have no row. -/
theorem Fired.row_none (h : Fired env s done jobs s₁) (hrows : ∀ j ∉ s.ids, s.pg.row? j = none)
    (hid : id.text ∉ s₁.ids) : s₁.pg.row? id = none := by
  have hold : id.text ∉ s.pg.rows.map JobRow.id :=
    (Postgres.row?_eq_none_iff _ _).mp (hrows id fun hmem => hid (h.ids hmem))
  rw [Postgres.row?_eq_none_iff, h.rows, List.map_append, List.mem_append, not_or]
  refine ⟨hold, fun hnew => ?_⟩
  rw [List.map_map] at hnew
  obtain ⟨a, ha, heq⟩ := List.mem_map.mp hnew
  have hsame : a.2.text = id.text := heq
  exact hid (hsame ▸ (h.fresh a ha).2)

/-- The entry has been put back. -/
def rescheduled (s : World) (c : CronId) (next : ℚ) : World :=
  { s with redis := { s.redis with
    zsets := Function.update s.redis.zsets redisKeys.cronSchedule
      (((s.redis.zsets redisKeys.cronSchedule).zrem c).zadd next c) } }

/-- The entry has been put back, and its job is refused. -/
theorem Fired.spoil (h : Fired env s done jobs s₁) {next : ℚ} {e : Err}
    (hfate : fate env s c = .spoiled next e) (ids : Finset JobId) (hids : s₁.ids ⊆ ids)
    (hdrawn : ids.card ≤ s₁.ids.card + 1) :
    Fired env s (done ++ [c]) jobs { rescheduled s₁ c next with ids := ids } := by
  refine h.skip (by rw [hfate]; rfl) (fun c' => ?_) (fun k hk => ?_) hids hdrawn rfl
  · show (Function.update s₁.redis.zsets _ _ redisKeys.cronSchedule).score? c' = _
    rw [Function.update_self, SortedSet.score?_zadd, SortedSet.score?_zrem, hfate]
    by_cases hc : c' = c
    · rw [if_pos hc, if_pos hc]
      rfl
    · rw [if_neg hc, if_neg hc, if_neg hc]
      rfl
  · exact Function.update_of_ne hk _ _

/-- The rest of the loop body, for an entry that has been put back. -/
theorem Fired.enqueueCronJob (h : Fired env s done jobs s₁)
    (hrows : ∀ j ∉ s.ids, s.pg.row? j = none) (hleft : s₁.ids.card < 2 ^ 128)
    {e : String} {next : ℚ}
    (hexpr : truthy (s.redis.crons (redisKeys.cronDef c)).cronExpression = some e)
    (hnext : env.cronNext e s.clock = some next) :
    Completes (alone env .tick) (fun _ => True) (rescheduled s₁ c next)
      (Scheduler.enqueueCronJob c (s.redis.crons (redisKeys.cronDef c))) fun y s' =>
        y = outcome (fate env s c) ∧ ∃ jobs', Fired env s (done ++ [c]) jobs' s' := by
  unfold Scheduler.enqueueCronJob
  cases hpayload : parsePayload (s.redis.crons (redisKeys.cronDef c)).payload with
  | error e' =>
      have hfate : fate env s c = .spoiled next e' := by
        unfold fate fateOf occurrence
        rw [hexpr]
        dsimp only
        rw [hnext, hpayload]
        rfl
      rw [hfate]
      exact ⟨rfl, jobs, h.spoil hfate s₁.ids le_rfl (Nat.le_succ _)⟩
  | ok payload =>
      let x : Occurrence :=
        { queueName := (s.redis.crons (redisKeys.cronDef c)).queue.getD "default"
          jobName := (s.redis.crons (redisKeys.cronDef c)).jobName.getD c
          payload := payload
          maxAttempts := (s.redis.crons (redisKeys.cronDef c)).maxAttempts.getD (.of 3)
          priority := (s.redis.crons (redisKeys.cronDef c)).priority.getD "normal" }
      have hfate : fate env s c = match x.refusal s.pg with
          | none => .fired next x
          | some e => .spoiled next e := by
        unfold fate fateOf occurrence
        rw [hexpr]
        dsimp only
        rw [hnext, hpayload]
        rfl
      -- the row is refused or not whatever the uuid is
      refine completes_uuid rfl hleft fun id hid => ?_
      have hid : id.text ∉ s₁.ids := hid
      have hinsert := insert_newRow (h.row_none hrows hid) x s₁.clock
      rw [refusal_congr h.room] at hinsert
      refine completes_answered rfl trivial rfl (fun _ => rfl) ?_
      let s₃ : World := { rescheduled s₁ c next with ids := insert id.text s₁.ids }
      cases hrefusal : x.refusal s.pg with
      | none =>
          rw [hrefusal] at hfate hinsert
          obtain ⟨pg, hpg, hadded, hroom⟩ := hinsert
          have hfired : Fired env s (done ++ [c]) (jobs ++ [(x, id)])
              (enqueued s₁ c next x id pg) := by
            rw [h.clock] at hadded
            exact h.enqueue hfate hid hadded hroom
          rw [hfate]
          refine completes_answered rfl trivial rfl (fun o => answer_insert_ok (s := s₃) o hpg) ?_
          exact completes_last (a := ()) rfl trivial rfl (fun _ => rfl) ⟨rfl, _, hfired⟩
      | some e' =>
          rw [hrefusal] at hfate hinsert
          rw [hfate]
          exact completes_refused rfl rfl (fun o => answer_insert_error (s := s₃) o hinsert)
            ⟨rfl, jobs, h.spoil hfate (insert id.text s₁.ids) (Finset.subset_insert _ _)
              (Finset.card_insert_le _ _)⟩

/-- **Step lemma.**  The loop body gives an entry its fate. -/
theorem Fired.fireCron (h : Fired env s done jobs s₁) (hrows : ∀ j ∉ s.ids, s.pg.row? j = none)
    (hleft : s₁.ids.card < 2 ^ 128) (hc : c ∉ done) (hdue : (entry s c).isSome) :
    Completes (alone env .tick) (fun _ => True) s₁ (Scheduler.fireCron c) fun y s' =>
      y = outcome (fate env s c) ∧ ∃ jobs', Fired env s (done ++ [c]) jobs' s' := by
  -- an entry that is due is still scheduled, since only entries passed have been touched
  have hmem : c ∈ s₁.redis.zsets redisKeys.cronSchedule := by
    obtain ⟨x, hx⟩ := Option.isSome_iff_exists.mp hdue
    refine ⟨x, ?_⟩
    have hsame := h.schedule c
    rw [if_neg hc] at hsame
    exact hsame.trans hx
  -- the world after the ZREM, whose reply is 1
  let s₂ : World := { s₁ with redis := { s₁.redis with
    zsets := Function.update s₁.redis.zsets redisKeys.cronSchedule
      ((s₁.redis.zsets redisKeys.cronSchedule).zrem c) } }
  have hclock : s₂.clock = s.clock := h.clock
  have hread : s₂.redis.crons (redisKeys.cronDef c) = s.redis.crons (redisKeys.cronDef c) :=
    congrFun h.crons _
  have hentry : ∀ c', entry s₂ c' = if c' = c then none else entry s₁ c' := by
    intro c'
    show (Function.update s₁.redis.zsets _ _ redisKeys.cronSchedule).score? c' = _
    rw [Function.update_self, SortedSet.score?_zrem]
    rfl
  have hsets : ∀ k, k ≠ redisKeys.cronSchedule → s₂.redis.zsets k = s₁.redis.zsets k :=
    fun k hk => Function.update_of_ne hk _ _
  unfold Scheduler.fireCron
  have hzrem : ∀ o, World.answer env s₁ o (.zrem redisKeys.cronSchedule c) =
      some (.ok (s₁.redis.zrem redisKeys.cronSchedule c).1, s₂) := by
    intro o
    show some (_, _) = some (_, _)
    rw [Redis.zrem_snd]
  refine completes_answered rfl trivial rfl hzrem ?_
  rw [Redis.zrem_fst, if_pos hmem, if_neg (by decide)]
  refine completes_answered rfl trivial rfl (fun _ => rfl) ?_
  rw [hread]
  cases hexpr : truthy (s.redis.crons (redisKeys.cronDef c)).cronExpression with
  | none =>
      have hfate : fate env s c = .dropped := by
        unfold fate fateOf
        rw [hexpr]
      rw [hfate]
      refine ⟨rfl, jobs, h.skip (by rw [hfate]; rfl) (fun c' => ?_) hsets le_rfl
        (Nat.le_succ _) rfl⟩
      rw [hfate]
      exact hentry c'
  | some e =>
      cases hnext : env.cronNext e s.clock with
      | none =>
          have hfate : fate env s c = .lost (.error "Invalid cron expression") := by
            unfold fate fateOf
            rw [hexpr]
            dsimp only
            rw [hnext]
          rw [hfate]
          refine completes_refused rfl rfl (fun _ => ?_) ⟨rfl, jobs, ?_⟩
          · simp only [World.answer]
            rw [hclock, hnext]
          · refine h.skip (by rw [hfate]; rfl) (fun c' => ?_) hsets le_rfl (Nat.le_succ _) rfl
            rw [hfate]
            exact hentry c'
      | some next =>
          have hnextMs : ∀ o, World.answer env s₂ o (.cronNext e) = some (.ok next, s₂) := by
            intro o
            simp only [World.answer]
            rw [hclock, hnext]
          have hzadd : ∀ o, World.answer env s₂ o (.write (.zadd redisKeys.cronSchedule next c)) =
              some (.ok (), rescheduled s₁ c next) := by
            intro o
            simp only [World.answer, Write.apply, rescheduled, s₂, Function.update_self,
              Function.update_idem]
          refine completes_answered rfl trivial rfl hnextMs ?_
          refine completes_answered rfl trivial rfl hzadd ?_
          exact h.enqueueCronJob hrows hleft hexpr hnext

/-! ## The pass -/

/-- The pass has come to an end: it has given all entries that were due their fates, or those
up to the first one that has broken it off. -/
inductive FiredDue (env : Env) (s : World) : Except Err Unit → World → Prop
  | all {jobs : List (Occurrence × Uuid)} {s' : World} :
      (∀ c ∈ due s, (fate env s c).error? = none) → Fired env s (due s) jobs s' →
      FiredDue env s (.ok ()) s'
  | broken {done rest : List CronId} {c : CronId} {e : Err} {jobs : List (Occurrence × Uuid)}
      {s' : World} : due s = done ++ c :: rest → (∀ c ∈ done, (fate env s c).error? = none) →
      (fate env s c).error? = some e →
      Fired env s (done ++ [c]) jobs s' → FiredDue env s (.error e) s'

/-- **A cron pass that runs alone fires exactly what is due**, each entry once and in order of
their scores, up to the first one whose expression, payload or row is refused, and changes
nothing else. -/
theorem fires_due (hrows : ∀ j ∉ s.ids, s.pg.row? j = none)
    (hleft : s.ids.card + (due s).length ≤ 2 ^ 128) :
    Completes (alone env .tick) (fun _ => True) s Scheduler.fireCronJobs
      fun x s' => FiredDue env s x s' := by
  refine completes_answered rfl trivial rfl (fun _ => rfl) ?_
  refine completes_answered rfl trivial rfl (fun _ => rfl) ?_
  have hdue : ∀ c ∈ due s, (entry s c).isSome := by
    intro c hc
    obtain ⟨score, hscore, -⟩ := (SortedSet.mem_rangeByScore _ _ _).mp hc
    exact Option.isSome_iff_exists.mpr ⟨score, hscore⟩
  have hnodup : (due s).Nodup := SortedSet.nodup_rangeByScore _ _
  -- by induction on what is left of the list, split at the entry the loop has come to
  refine Prog.completes_forEach (fun rest s₁ => ∃ done jobs, due s = done ++ rest ∧
    (∀ c ∈ done, (fate env s c).error? = none) ∧ Fired env s done jobs s₁) ?_ ?_ (due s) s
    ⟨[], [], rfl, by simp, .refl env s⟩
  · rintro c rest s₁ ⟨done, jobs, hsplit, hfine, hfired⟩
    have hc : c ∉ done := by
      rw [hsplit] at hnodup
      exact fun hmem => (List.nodup_append.mp hnodup).2.2 c hmem c List.mem_cons_self rfl
    have hmem : c ∈ due s := by
      rw [hsplit]
      exact List.mem_append_right _ List.mem_cons_self
    have hleft₁ : s₁.ids.card < 2 ^ 128 := by
      have hdrawn := hfired.drawn
      rw [hsplit, List.length_append, List.length_cons] at hleft
      omega
    refine (hfired.fireCron hrows hleft₁ hc (hdue c hmem)).mono ?_
    rintro x s' ⟨rfl, jobs', hfired'⟩
    unfold outcome
    cases herror : (fate env s c).error? with
    | none =>
        refine ⟨done ++ [c], jobs', by rw [hsplit, List.append_assoc]; rfl, ?_, hfired'⟩
        intro c' hc'
        rcases List.mem_append.mp hc' with hold | hnew
        · exact hfine c' hold
        · rw [List.mem_singleton.mp hnew, herror]
    | some e => exact .broken hsplit hfine herror hfired'
  · rintro s' ⟨done, jobs, hsplit, hfine, hfired⟩
    rw [List.append_nil] at hsplit
    rw [← hsplit] at hfine hfired
    exact .all hfine hfired

/-- Three jobs that are due: the definition of one is gone, and the name of one cannot be
stored. -/
def hourly : World where
  clock := 7
  redis :=
    { zsets := Function.update (fun _ => ∅) .cronSchedule
        ((((∅ : SortedSet String ℚ).zadd 5 "gone").zadd 6 "report").zadd 7 "broken")
      crons := Function.update (Function.update (fun _ => {}) (.cronDef "report")
        { cronId := some "report", jobName := some "send", cronExpression := some "0 * * * *" })
        (.cronDef "broken")
        { cronId := some "broken", jobName := some "\x00", cronExpression := some "0 * * * *" } }

theorem fires_due_hourly : ∃ x s',
    Prog.Runs (alone sample .tick) hourly Scheduler.fireCronJobs x s' ∧
      FiredDue sample hourly x s' := by
  have h := @fires_due sample hourly (fun _ _ => rfl) (by decide +kernel)
  obtain ⟨x, s', hrun⟩ := h.exists_runs
  exact ⟨x, s', hrun, h.ends x s' hrun⟩

/-- The one without a definition is dropped, the next one fires, and the last one breaks the
pass off. -/
example : due hourly = ["gone", "report", "broken"] ∧
    (fate sample hourly "gone").next? = none ∧ (fate sample hourly "report").next? = some 1007 ∧
    ((fate sample hourly "report").job?.map Occurrence.jobName) = some "send" ∧
    (fate sample hourly "broken").error? = some (.invalidValue "job_name") := by
  decide +kernel

/-- If occurrences come later than now, a pass that is not broken off leaves nothing due. -/
theorem FiredDue.none_due (hlater : ∀ e now n, env.cronNext e now = some n → (now : ℚ) < n)
    (h : FiredDue env s (.ok ()) s') : due s' = [] := by
  cases h with
  | @all jobs s' hfine hfired =>
      refine List.eq_nil_iff_forall_not_mem.mpr fun c hc => ?_
      obtain ⟨score, hscore, hle⟩ := (SortedSet.mem_rangeByScore _ _ _).mp hc
      have hentry : entry s' c = some score := hscore
      have hle : score ≤ s.clock := by
        rw [hfired.clock] at hle
        exact hle _ rfl
      rw [hfired.schedule] at hentry
      split at hentry
      · -- it has been put back for an occurrence that is still to come
        have hnext : ∀ n, (fate env s c).next? = some n → (s.clock : ℚ) < n := by
          intro n hn
          unfold fate fateOf at hn
          split at hn
          · cases hn
          · split at hn
            · cases hn
            · rename_i next heq
              have hlt := hlater _ _ _ heq
              split at hn
              · cases hn
                exact hlt
              · split at hn
                · cases hn
                  exact hlt
                · cases hn
                  exact hlt
        exact absurd (hnext score hentry) (not_lt.mpr hle)
      · rename_i hnot
        refine hnot ((SortedSet.mem_rangeByScore _ _ _).mpr ⟨score, hentry, ?_⟩)
        rintro _ ⟨⟩
        exact hle

end CronPass

end NexusQueue
