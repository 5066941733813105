/-
# The last call has the last word

Several processes may write the two records of one job: the calls that process it, a
scheduler and a janitor that have pushed it, and they write after the push.  The status in
a record is the verdict of the call that was started last, unless somebody else has
written the record after that call has.

So it is if nobody writes a record of a job that is finished there: when the record is
written by a process other than the last call, that call has not written its verdict yet,
or the job waits to be called again.
-/
import NexusQueue.Report
import NexusQueue.Agreement
import NexusQueue.Claims
import NexusQueue.Routing
import NexusQueue.Delivery

namespace NexusQueue

/-- The verdict a call has written to the row. -/
def Report.inRow : Report → Option Verdict
  | closing v | closed v | moved v => some v
  | done v => v
  | _ => none

/-- The verdict a call has written to the hash. -/
def Report.inHash : Report → Option Verdict
  | closed v | moved v => some v
  | done v => v
  | _ => none

/-- The job whose hash is written. -/
def Write.hashed : Write → Option JobId
  | .hset (.job j) _ => some j
  | _ => none

/-- The jobs whose hash a command writes. -/
def Cmd.hashes : Cmd → List JobId
  | .write w => w.hashed.toList
  | .multi ws => ws.filterMap Write.hashed
  | _ => []

/-- The jobs whose row a command writes. -/
def Cmd.rows : Cmd → List JobId
  | .update j _ => [j]
  | .insert n => [n.id]
  | _ => []

namespace LastWord

/-- What a process has reported. -/
abbrev reportOf (p : Process) : Report := report.phase p.task p.hist

/-- The process is a `processOne` call for this job. -/
def calls (j : JobId) (p : Process) : Bool :=
  match p.task with
  | .processOne _ _ j' => j' = j
  | _ => false

/-- The `k`-th process of a pool is the call for the job that was started last. -/
def Newest (pool : List Process) (j : JobId) (k : ℕ) : Prop :=
  (pool.map (calls j))[k]? = some true ∧ true ∉ (pool.map (calls j)).drop (k + 1)

instance (pool : List Process) (j : JobId) (k : ℕ) : Decidable (Newest pool j k) :=
  inferInstanceAs (Decidable (_ ∧ _))

/-- The job a pull loop has pulled and not dispatched yet. -/
def inHands : Task → Phase → Option JobId
  | .loop _, .pulled j => some j
  | _, _ => none

/-- A pull loop is about to dispatch the job. -/
def Held (env : Env) (c : State) (j : JobId) : Prop :=
  ∃ p ∈ c.pool, inHands p.task ((custody env).phase p.task p.hist) = some j

instance (env : Env) (c : State) (j : JobId) : Decidable (Held env c j) :=
  inferInstanceAs (Decidable (∃ p ∈ c.pool, _))

/-- The job is in the ready list of its queue and priority. -/
def Ready (s : World) (j : JobId) : Prop :=
  j ∈ s.redis.lists (targetList ((s.redis.jobs (redisKeys.job j)).queueName.getD "default")
    ((s.redis.jobs (redisKeys.job j)).priority.getD "normal"))

instance (s : World) (j : JobId) : Decidable (Ready s j) :=
  inferInstanceAs (Decidable (_ ∈ _))

/-- A command that writes a record in which the `k`-th process, `p`, has the last word,
finds the job in its ready list or about to be dispatched. -/
def Respects (env : Env) (c : State) (cmd : Cmd) (k : ℕ) (p : Process) : Prop :=
  (∀ j ∈ cmd.hashes, Newest c.pool j k → (reportOf p).inHash.isSome = true →
    Ready c.store j ∨ Held env c j) ∧
  ∀ j ∈ cmd.rows, Newest c.pool j k → (reportOf p).inRow.isSome = true →
    Ready c.store j ∨ Held env c j

instance (env : Env) (c : State) (cmd : Cmd) (k : ℕ) (p : Process) :
    Decidable (Respects env c cmd k p) :=
  inferInstanceAs (Decidable (_ ∧ _))

/-- The next command of the `i`-th process respects what the others have written. -/
def Polite (env : Env) (c : State) (i : ℕ) : Prop :=
  ∀ cmd ∈ nextCmd c i, ∀ k < c.pool.length, k ≠ i → ∀ p ∈ c.pool[k]?, Respects env c cmd k p

instance (env : Env) (c : State) (i : ℕ) : Decidable (Polite env c i) :=
  inferInstanceAs (Decidable (∀ cmd ∈ nextCmd c i, _))

/-- Nobody writes a finished record of a job: whenever a process writes the hash or the row
of a job whose last call, another process, has written its verdict there, the job is in
its ready list or about to be dispatched.  No command is rejected, and no operator
intervenes. -/
def InTime (env : Env) (c : State) : Action → Prop
  | .start t => t.external ∧ ¬ t.operator
  | .call i o => o.works ∧ Polite env c i
  | .halt _ | .drift _ => True

instance (env : Env) (c : State) : (a : Action) → Decidable (InTime env c a)
  | .start t => inferInstanceAs (Decidable (t.external ∧ ¬ t.operator))
  | .call i o => inferInstanceAs (Decidable (o.works = true ∧ Polite env c i))
  | .halt _ | .drift _ => .isTrue trivial

theorem InTime.dlqBound {env : Env} {c : State} {a : Action} (h : InTime env c a) :
    DlqBound c a := by
  cases a with
  | start t =>
      refine ⟨h.1, ?_⟩
      cases t <;> first | trivial | exact absurd trivial h.2
  | _ => trivial

/-- The job waits to be called again. -/
def Waiting (env : Env) (c : State) (j : JobId) : Prop :=
  (∃ x, j ∈ c.store.redis.lists (.queue x)) ∨ Held env c j

theorem waiting_of_ready {env : Env} {c : State} {j : JobId} (h : Ready c.store j ∨ Held env c j) :
    Waiting env c j := by
  refine h.imp (fun hready => ?_) id
  obtain ⟨x, hx⟩ := exists_targetList
    ((c.store.redis.jobs (redisKeys.job j)).queueName.getD "default")
    ((c.store.redis.jobs (redisKeys.job j)).priority.getD "normal")
  exact ⟨x, hx ▸ hready⟩

/-- The records of the job say what a call has written there. -/
structure Says (s : World) (j : JobId) (d : Report) : Prop where
  row : ∀ v, d.inRow = some v → ∀ row, s.pg.row? j = some row → row.status = v.status
  hash : ∀ v, d.inHash = some v → (s.redis.jobs (redisKeys.job j)).status = some v.status

/-- The last call for every job that does not wait has the last word. -/
def Kept (env : Env) (c : State) : Prop :=
  ∀ j k p, Newest c.pool j k → c.pool[k]? = some p → ¬ Waiting env c j → Says c.store j (reportOf p)

/-! ## What a call goes on to say -/

section Call

variable {env : Env} {s s' : World} {w : WorkerId} {n : ℕ} {j : JobId} {l : Phase} {d : Report}
  {c : Cmd} {o : Oracle} {r : Except Err c.Resp}

/-- The verdict in the row is the one that has just been written, or it was there and this
command does not write the row. -/
theorem inRow_next {a : c.Resp} {v : Verdict} (hd : d.permits j c)
    (hv : (d.onCall c a).inRow = some v) :
    d.inRow = some v ∧ (∀ p, c ≠ .update j p) ∨ c = .update j v.patch := by
  revert hv hd
  unfold Report.onCall
  split
  case h_9 | h_10 | h_11 =>
    -- the row is being written
    rintro ⟨rfl, (⟨⟨h, hd⟩, -⟩ | ⟨v', hf, rfl⟩)⟩ hv
    · cases hd
    · cases v' <;> first | exact hf.elim | (cases hv; simp_all [Report.finds, Verdict.patch])
  case h_17 =>
    intro hd hv
    refine Or.inl ⟨hv, ?_⟩
    rintro p rfl
    cases d <;> try cases hv
    all_goals
      obtain ⟨-, ⟨⟨h, hd⟩, -⟩ | ⟨v', hf, -⟩⟩ := hd
      · cases hd
      · exact hf.elim
  all_goals
    intro _ hv
    first
      | cases hv; exact Or.inl ⟨rfl, by simp⟩
      | cases hv

/-- The verdict in the hash is the one that has just been written, or it was there and this
command writes no hash. -/
theorem inHash_next {a : c.Resp} {v : Verdict} (hd : d.permits j c)
    (hv : (d.onCall c a).inHash = some v) :
    d.inHash = some v ∧ (∀ k f, c ≠ .write (.hset k f)) ∧ (∀ ws, c ≠ .multi ws) ∨
      ∃ f, c = .write (.hset (redisKeys.job j) f) ∧ f.status = some v.status := by
  revert hv hd
  unfold Report.onCall
  split
  case h_12 =>
    -- the hash is being written
    rintro ⟨rfl, ⟨⟨h, hd, -⟩, -⟩ | ⟨v', hd, -, hst, -⟩⟩ hv
    · cases hd
    · cases hv
      cases hd
      exact Or.inr ⟨_, rfl, hst⟩
  case h_17 =>
    intro hd hv
    refine Or.inl ⟨hv, ?_, ?_⟩
    · rintro k f rfl
      cases d <;> try cases hv
      all_goals
        obtain ⟨-, ⟨⟨h, hd, -⟩, -⟩ | ⟨v', hd, -⟩⟩ := hd
        · cases hd
        · cases hd
    · rintro ws rfl
      cases d <;> try cases hv
      all_goals
        obtain ⟨h, hd⟩ := hd
        cases hd
  all_goals
    intro _ hv
    first
      | cases hv; exact Or.inl ⟨rfl, by simp, by simp⟩
      | cases hv

/-- After a rejection a call has the same report, or none that counts. -/
theorem after_error (d : Report) (c : Cmd) :
    d.afterError c = d ∨ (d.afterError c).inRow = none ∧ (d.afterError c).inHash = none := by
  unfold Report.afterError
  split
  · exact Or.inl rfl
  · exact Or.inr ⟨rfl, rfl⟩
  · exact Or.inr ⟨rfl, rfl⟩

/-- The hash of a job changes only by a command that writes it. -/
theorem hash_unwritten {t : Task} {l' : Phase} {ts : List Task}
    (he : Effect env s t l c r s' l' ts) (ha : World.answer env s o c = some (r, s'))
    (hj : j ∉ c.hashes) :
    s'.redis.jobs (redisKeys.job j) = s.redis.jobs (redisKeys.job j) := by
  rcases Audit.hash_of_effect he ha j with hsame | ⟨f, rfl⟩ | ⟨ws, f, rfl, hf, -⟩
  · exact hsame
  · exact absurd (List.mem_singleton_self j) hj
  · refine absurd (show j ∈ (Cmd.multi ws).hashes from ?_) hj
    exact List.mem_filterMap.mpr ⟨_, hf, rfl⟩

/-- The row of a job changes only by a statement on it. -/
theorem row_unwritten (ha : World.answer env s o c = some (r, s')) (hj : j ∉ c.rows)
    (hprinted : ∀ id p, c = .update id p → Uuid.Printed id) : s'.pg.row? j = s.pg.row? j := by
  rcases Agreement.row_of_answer ha j with hsame | ⟨id, p, rfl⟩ | ⟨n, rfl, rfl⟩
  · exact hsame
  · cases ha
    rw [Postgres.row?_update_printed (hprinted id p rfl), if_neg (by simpa [Cmd.rows] using hj)]
  · exact absurd (List.mem_singleton_self _) hj

/-- What the records say stays true when neither is written. -/
theorem Says.same (h : Says s j d) (hrow : s'.pg.row? j = s.pg.row? j)
    (hhash : s'.redis.jobs (redisKeys.job j) = s.redis.jobs (redisKeys.job j)) : Says s' j d where
  row v hv row h' := h.row v hv row (hrow ▸ h')
  hash v hv := by
    rw [hhash]
    exact h.hash v hv

/-- **Step lemma, the last call.**  What the records say after a command of the call is
what the call has written. -/
theorem Says.next (h : Says s j d) (hj : Uuid.Printed j) (hp : Permits env (.processOne w n j) l c)
    (hd : report.permits (.processOne w n j) d c) (ha : World.answer env s o c = some (r, s')) :
    Says s' j (report.next (.processOne w n j) d c r) := by
  have he := effect_of_answer hp ha
  -- only an UPDATE of the job writes its row
  have rowless : (∀ p, c ≠ .update j p) → s'.pg.row? j = s.pg.row? j := by
    intro hne
    rcases Agreement.row_of_answer ha j with hsame | ⟨id, p, rfl⟩ | ⟨row, rfl, -⟩
    · exact hsame
    · cases hp with
      | quiet hq => exact hq.elim
      | mark _ | complete _ | brokenMark _ => exact absurd rfl (hne p)
    · cases hp with
      | quiet hq => exact hq.elim
      | insert hc => exact hc.elim
  -- only HSET and MULTI write its hash
  have hashless : (∀ k f, c ≠ .write (.hset k f)) → (∀ ws, c ≠ .multi ws) →
      s'.redis.jobs (redisKeys.job j) = s.redis.jobs (redisKeys.job j) := by
    intro hset hmulti
    rcases Audit.hash_of_effect he ha j with hsame | ⟨f, rfl⟩ | ⟨ws, f, rfl, -⟩
    · exact hsame
    · exact absurd rfl (hset _ f)
    · exact absurd rfl (hmulti ws)
  cases r with
  | error e =>
      change Says s' j (d.afterError c)
      rcases after_error d c with heq | ⟨hrow, hhash⟩
      · rw [heq, unchanged_of_error ha]
        exact h
      · refine ⟨fun v hv => ?_, fun v hv => ?_⟩
        · rw [hrow] at hv
          cases hv
        · rw [hhash] at hv
          cases hv
  | ok a =>
      change Says s' j (d.onCall c a)
      refine ⟨fun v hv row h' => ?_, fun v hv => ?_⟩
      · rcases inRow_next hd hv with ⟨hold, hne⟩ | rfl
        · exact h.row v hold row (rowless hne ▸ h')
        · cases ha
          rw [Postgres.row?_update_printed hj, if_pos rfl, Option.map_eq_some_iff] at h'
          obtain ⟨row, -, rfl⟩ := h'
          exact v.patch_status
      · rcases inHash_next hd hv with ⟨hold, hset, hmulti⟩ | ⟨f, rfl, hst⟩
        · rw [hashless hset hmulti]
          exact h.hash v hold
        · cases ha
          exact (Agreement.hset_status s.clock s.redis j hst).1

end Call

/-! ## Waiting to be called again -/

section Wait

variable {env : Env} {s s' : World} {t : Task} {j : JobId} {l l' : Phase} {c : Cmd}
  {r : Except Err c.Resp} {ts : List Task}

/-- A job leaves its ready list for the hands of a pull loop. -/
theorem ready_of_effect (he : Effect env s t l c r s' l' ts) {x : String}
    (hj : j ∈ s.redis.lists (.queue x)) : j ∈ s'.redis.lists (.queue x) ∨
      (∃ w, t = .loop w) ∧ l' = (truthy (some j)).elim .idle .pulled := by
  -- a push onto any list keeps the entry
  have pushed : ∀ (s₁ : World) k v, s₁.redis.lists (.queue x) = s.redis.lists (.queue x) →
      j ∈ (s₁.push k v).redis.lists (.queue x) := by
    intro s₁ k v hs
    by_cases hk : Key.queue x = k
    · subst hk
      simp [hs, hj]
    · simp [Function.update_of_ne hk, hs, hj]
  cases he with
  | still hn hf hw => exact Or.inl (hf.ready x ▸ hj)
  | publishReady hc hid hq hpr => exact Or.inl (pushed (s.register _ _ _) _ _ rfl)
  | promote | bury | brokenBury | pushOrphan | place ht => exact Or.inl (pushed s _ _ rfl)
  | pushBack => exact Or.inl (pushed (s.setList _ _) _ _ (by simp))
  | ack | brokenAck | lift ht => exact Or.inl (by simpa using hj)
  | dropHeartbeat | dropList => exact Or.inl (by simpa [Write.apply] using hj)
  | @pull w y v c r hc hv hpulled =>
      by_cases hxy : x = y
      · subst hxy
        by_cases hjv : j = v
        · subst hjv
          exact Or.inr ⟨⟨w, rfl⟩, rfl⟩
        · obtain ⟨pre, hpre⟩ := List.getLast?_eq_some_iff.mp hv
          rw [hpre] at hj
          simp only [List.mem_append, List.mem_singleton, hjv, or_false] at hj
          exact Or.inl (by simp [hpre, hj])
      · exact Or.inl (by simpa [hxy] using hj)
  | _ => exact Or.inl hj

/-- A pull loop keeps what it has in its hands until it dispatches it. -/
theorem hands_of_effect (he : Effect env s t l c r s' l' ts) (hj : inHands t l = some j) :
    inHands t l' = some j ∨ ∃ w n, .processOne w n j ∈ ts := by
  cases t with
  | loop w =>
      cases l with
      | pulled i =>
          obtain rfl : i = j := Option.some.inj hj
          cases he with
          | still hn hf hw => exact Or.inl rfl
          | inert hw hop => exact Or.inl rfl
          | dispatch => exact Or.inr ⟨_, _, List.mem_singleton_self _⟩
          | cronFails ht hl => exact ht.elim
          | draw hc hp hid hne => exact hc.elim
      | _ => cases hj
  | _ => cases hj

/-- What a pull loop has in its hands is a job id. -/
theorem hands_new (he : Effect env s t l c r s' l' ts) (hl : inHands t l ≠ some "") :
    inHands t l' ≠ some "" := by
  cases t with
  | loop w =>
      cases he with
      | still hn hf hw => exact hl
      | inert hw hop => exact hl
      | @pull w x v c r hc hv hpulled =>
          by_cases hempty : v = ""
          · subst hempty
            simp [inHands]
          · rw [truthy_some hempty]
            simpa [inHands] using hempty
      | pullNothing hc => simp [inHands]
      | dispatch | loopAgain | loopExit => simp [inHands]
      | lift ht | readLifted ht | place ht => exact ht.elim
      | cronFails ht hl => exact ht.elim
      | draw hc hp hid hne => exact hc.elim
      | insert hc _ _ _ _ | insertFails hc _ _ _ => exact hc.elim
      | publishReady hc _ _ _ | publishDelayed hc _ _ => exact hc.elim
  | _ => cases l' <;> simp [inHands]

/-- A dispatched job was in the hands of the loop. -/
theorem hands_of_forks (he : Effect env s t l c r s' l' ts) {w : WorkerId} {n : ℕ}
    (ht : Task.processOne w n j ∈ ts) : inHands t l = some j := by
  cases he with
  | dispatch =>
      cases List.mem_singleton.mp ht
      rfl
  | launch | loopAgain => cases List.mem_singleton.mp ht
  | _ => cases ht

end Wait

/-- The records of a job are written by tasks that follow the two protocols, none of them
requests of operators, and only jobs with an id are dispatched. -/
def wording (env : Env) : Discipline (machine env) ((custody env).prod report) Unit where
  good t := ¬ t.operator ∧ ∀ w n, t ≠ .processOne w n ""
  val _ _ := 0
  emit _ _ _ _ := 0
  loc t l _ := inHands t l.1 ≠ some ""
  inv _ _ := True
  allow _ _ _ _ _ _ := True
  post t r l := Concluded t r l.1 ∧ True

section Run

variable {env : Env}

theorem hands_start (t : Task) : inHands t (Phase.start t) ≠ some "" := by
  cases t <;> simp [inHands, Phase.start]

theorem wording_sound : (wording env).Sound (InTime env) where
  follows t _ := follows_prod (custody_follows t)
    (follows_mono (report_follows env t) fun _ _ _ => trivial)
  call s t l c o r s' F h := by
    obtain ⟨hp, hd⟩ := h.permits
    rcases (exec_cases h.exec).2 with ⟨err, -, -, rfl, rfl⟩ | ⟨-, ha⟩
    · refine ⟨trivial, ?_, fun t' ht' => ?_⟩
      · change inHands t (l.1.afterError t c) ≠ some ""
        cases t <;> simp [inHands, Phase.afterError]
      · rw [show (machine env).forks t c (.error err) = [] from Claims.forks_error _] at ht'
        cases ht'
    · have he := effect_of_answer hp ha
      refine ⟨trivial, hands_new he h.loc, fun t' ht' => ⟨⟨?_, ?_⟩, hands_start t'⟩⟩
      · exact Task.not_operator_of_host (host_of_forks ht').choose_spec
      · rintro w n rfl
        exact h.loc (hands_of_forks he ht')
  stable _ _ _ _ _ _ _ _ _ _ _ _ _ _ hl := hl
  start c t hok _ := by
    refine ⟨⟨hok.2, ?_⟩, trivial, hands_start t⟩
    rintro w n rfl
    exact hok.1
  allows _ _ _ _ _ _ _ _ _ _ := trivial
  drift _ _ _ _ _ _ := ⟨trivial, fun _ _ _ hl => hl⟩

theorem wording_of_reach {c : State} (hc : (machine env).Reach (InTime env) Blank c) :
    (wording env).PoolOk c := by
  refine wording_sound.reach (fun c hc => ?_) hc
  obtain ⟨now, room, rfl⟩ := hc
  exact ⟨trivial, by simp⟩

/-- Without operators jobs are requeued and retried under no other spelling. -/
theorem bound_of_reach {c : State} (hc : (machine env).Reach (InTime env) Blank c) :
    (machine env).Reach (DlqBoundBy AsPrinted) Blank c :=
  (Machine.Reach.spelled (fun _ _ h => h.2) hc).mono (fun _ _ h => ⟨h.1.dlqBound, h.2⟩) fun _ => id

/-- The ids in the records are those of the jobs. -/
theorem identity_of_reach {c : State} (hc : (machine env).Reach (InTime env) Blank c) :
    (Identity.identity env AsPrinted).PoolOk c := by
  have hnamed := Identity.named_of_dlqBound asPrinted_of_printed (bound_of_reach hc)
  exact Identity.poolOk_of_reach asPrinted_of_printed hnamed

/-! ## The pool -/

/-- A process that moves stays what it is. -/
theorem calls_set {pool : List Process} {i : ℕ} {p q : Process} (hp : pool[i]? = some p)
    (ht : q.task = p.task) (j : JobId) : (pool.set i q).map (calls j) = pool.map (calls j) := by
  have hcalls : calls j q = calls j p := by
    unfold calls
    rw [ht]
  rw [List.map_set, hcalls]
  apply List.ext_getElem?
  intro m
  rw [List.getElem?_set]
  split
  · rename_i him
    subst him
    obtain ⟨hi, rfl⟩ := List.getElem?_eq_some_iff.mp hp
    simp [hi]
  · rfl

/-- A process that moves leaves the last call where it is. -/
theorem newest_set {pool : List Process} {i k : ℕ} {p q : Process} {j : JobId}
    (hp : pool[i]? = some p) (ht : q.task = p.task) :
    Newest (pool.set i q) j k ↔ Newest pool j k := by
  rw [Newest, Newest, calls_set hp ht]

/-- If the last call is an old process, it was the last call before, and none of the new
processes is a call for the job. -/
theorem newest_append {pool new : List Process} {k : ℕ} {j : JobId} (hk : k < pool.length)
    (h : Newest (pool ++ new) j k) : Newest pool j k ∧ ∀ x ∈ new, calls j x = false := by
  obtain ⟨hcall, hlast⟩ := h
  rw [List.map_append] at hcall hlast
  rw [List.getElem?_append_left (by simpa using hk)] at hcall
  rw [List.drop_append_of_le_length (by simpa using hk), List.mem_append, not_or] at hlast
  refine ⟨⟨hcall, hlast.1⟩, fun x hx => ?_⟩
  have hne : calls j x ≠ true := fun hx' => hlast.2 (List.mem_map.mpr ⟨x, hx, hx'⟩)
  simpa using hne

/-- The last call is a call for the job. -/
theorem task_of_newest {pool : List Process} {j : JobId} {k : ℕ} {p : Process}
    (h : Newest pool j k) (hp : pool[k]? = some p) : ∃ w n, p.task = .processOne w n j := by
  have hcall : calls j p = true := by
    have h1 := h.1
    rw [List.getElem?_map, hp] at h1
    exact Option.some.inj h1
  unfold calls at hcall
  split at hcall
  · rename_i w n j' ht
    rw [decide_eq_true_eq] at hcall
    exact ⟨w, n, hcall ▸ ht⟩
  · cases hcall

/-- A new process has said nothing. -/
theorem says_new {s : World} {j : JobId} {t : Task} : Says s j (reportOf ((machine env).spawn t)) :=
  ⟨fun _ hv => (by cases hv), fun _ hv => (by cases hv)⟩

/-- **Step lemma, commands.** -/
theorem kept_call {c c' : State} {i : ℕ} {o : Oracle} (hc : (wording env).PoolOk c)
    (hid : (Identity.identity env AsPrinted).PoolOk c) (hkept : Kept env c)
    (hok : InTime env c (.call i o))
    (hs : (machine env).step c (.call i o) = some c') : Kept env c' := by
  obtain ⟨q, cmd, f, r, s', hq, -, hprog, hex, rfl⟩ := Machine.step_call hs
  obtain ⟨hgood, hloc, hfol⟩ := hc.2 q (List.mem_of_getElem? hq)
  rw [hprog, Protocol.prod_phase] at hfol
  obtain ⟨hp, hd⟩ := hfol.1
  have hknows := (hid.2 q (List.mem_of_getElem? hq)).2.1
  have ha := Identity.answer_of_exec hex hok.1 hknows hp hgood.1
  have he := effect_of_answer hp ha
  have hi : i < c.pool.length := (List.getElem?_eq_some_iff.mp hq).1
  have hself : q.resume cmd r (f r) ∈ c.pool.set i (q.resume cmd r (f r)) ++
      (forks q.task cmd r).map (machine env).spawn :=
    List.mem_append_left _ (List.mem_set hi _)
  intro j k p' hnew hget hwait
  by_cases hk : k < c.pool.length
  case neg =>
    rw [List.getElem?_append_right (by simpa using hk)] at hget
    obtain ⟨t, -, rfl⟩ := List.mem_map.mp (List.mem_of_getElem? hget)
    exact says_new
  case pos =>
    obtain ⟨hset, hnone⟩ := newest_append (by simpa using hk) hnew
    have hold : Newest c.pool j k := (newest_set (q := q.resume cmd r (f r)) hq rfl).mp hset
    obtain ⟨p, hpk⟩ : ∃ p, c.pool[k]? = some p := ⟨_, List.getElem?_eq_getElem hk⟩
    obtain ⟨w, n, htask⟩ := task_of_newest hold hpk
    -- nobody was waiting for the job before
    have hwait₀ : ¬ Waiting env c j := by
      rintro (⟨x, hx⟩ | ⟨h, hh, hhands⟩)
      · rcases ready_of_effect he hx with hx' | ⟨⟨w', hw'⟩, hl'⟩
        · exact hwait (Or.inl ⟨x, hx'⟩)
        · have hj : j ≠ "" := by
            rintro rfl
            exact (hc.2 p (List.mem_of_getElem? hpk)).1.2 w n htask
          refine hwait (Or.inr ⟨_, hself, ?_⟩)
          change inHands q.task (Phase.next q.task ((custody env).phase q.task q.hist) cmd r) = _
          rw [show Phase.next q.task ((custody env).phase q.task q.hist) cmd r = _ from hl',
            truthy_some hj, hw']
          rfl
      · obtain ⟨m, hm⟩ := List.mem_iff_getElem?.mp hh
        by_cases hmi : i = m
        · subst hmi
          obtain rfl : q = h := Option.some.inj (hq.symm.trans hm)
          rcases hands_of_effect he hhands with hl' | ⟨w', n', hfork⟩
          · exact hwait (Or.inr ⟨_, hself, hl'⟩)
          · have hcalls := hnone _ (List.mem_map_of_mem hfork)
            simp [calls, Machine.spawn] at hcalls
        · refine hwait (Or.inr ⟨h, List.mem_append_left _ ?_, hhands⟩)
          exact List.mem_of_getElem? ((List.getElem?_set_ne hmi).trans hm)
    have hsays := hkept j k p hold hpk hwait₀
    by_cases hki : k = i
    · subst hki
      obtain rfl : q = p := Option.some.inj (hq.symm.trans hpk)
      rw [List.getElem?_append_left (by simpa using hk), List.getElem?_set_self hk] at hget
      cases hget
      change Says s' j (report.next q.task (report.phase q.task q.hist) cmd r)
      change report.permits q.task (report.phase q.task q.hist) cmd at hd
      change Permits env q.task ((custody env).phase q.task q.hist) cmd at hp
      change Says c.store j (report.phase q.task q.hist) at hsays
      change Identity.knows AsPrinted q.task ((custody env).phase q.task q.hist) c.store at hknows
      generalize report.phase q.task q.hist = d at hd hsays ⊢
      generalize (custody env).phase q.task q.hist = l at hp hknows
      rw [htask] at hd hp hknows ⊢
      exact hsays.next (hid.1.printed (Identity.knows_call hknows).enqueued) hp hd ha
    · rw [List.getElem?_append_left (by simpa using hk), List.getElem?_set_ne (Ne.symm hki),
        hpk] at hget
      obtain rfl : p = p' := Option.some.inj hget
      have hpolite := hok.2 cmd (by simp [nextCmd, hq, hprog]) k hk hki p hpk
      refine ⟨fun v hv row h' => ?_, fun v hv => ?_⟩
      · have hrows : j ∉ cmd.rows := fun hmem =>
          hwait₀ (waiting_of_ready (hpolite.2 j hmem hold (by rw [hv]; rfl)))
        have hprinted : ∀ id p, cmd = .update id p → Uuid.Printed id := by
          rintro id p rfl
          exact hid.1.printed_of_update hknows hp
        exact hsays.row v hv row (row_unwritten ha hrows hprinted ▸ h')
      · have hhashes : j ∉ cmd.hashes := fun hmem =>
          hwait₀ (waiting_of_ready (hpolite.1 j hmem hold (by rw [hv]; rfl)))
        rw [hash_unwritten he ha hhashes]
        exact hsays.hash v hv

/-- **Step lemma.** -/
theorem kept_step {c c' : State} {a : Action} (hc : (wording env).PoolOk c)
    (hid : (Identity.identity env AsPrinted).PoolOk c) (hkept : Kept env c)
    (hok : InTime env c a) (hs : (machine env).step c a = some c') :
    Kept env c' := by
  cases a with
  | call i o => exact kept_call hc hid hkept hok hs
  | start t =>
      cases hs
      intro j k p hnew hget hwait
      rw [List.getElem?_append] at hget
      split at hget
      · rename_i hk
        refine hkept j k p (newest_append hk hnew).1 hget fun hw => hwait (hw.imp id ?_)
        rintro ⟨h, hh, hhands⟩
        exact ⟨h, List.mem_append_left _ hh, hhands⟩
      · cases List.mem_singleton.mp (List.mem_of_getElem? hget)
        exact says_new
  | halt i =>
      obtain ⟨q, hq, rfl⟩ := Machine.step_halt hs
      intro j k p hnew hget hwait
      have hold : Newest c.pool j k := (newest_set (q := { q with halted := true }) hq rfl).mp hnew
      have hi : i < c.pool.length := (List.getElem?_eq_some_iff.mp hq).1
      -- halting takes a job out of no hands
      have hwait₀ : ¬ Waiting env c j := by
        intro hw
        refine hwait (hw.imp id ?_)
        rintro ⟨h, hh, hhands⟩
        obtain ⟨m, hm⟩ := List.mem_iff_getElem?.mp hh
        by_cases hmi : i = m
        · subst hmi
          obtain rfl : q = h := Option.some.inj (hq.symm.trans hm)
          exact ⟨_, List.mem_set hi _, hhands⟩
        · exact ⟨h, List.mem_of_getElem? ((List.getElem?_set_ne hmi).trans hm), hhands⟩
      by_cases hki : i = k
      · subst hki
        rw [List.getElem?_set_self hi] at hget
        obtain rfl := Option.some.inj hget
        exact hkept j i q hold hq hwait₀
      · rw [List.getElem?_set_ne hki] at hget
        exact hkept j k p hold hget hwait₀
  | drift m =>
      obtain ⟨s, hm, rfl⟩ := Machine.step_drift hs
      intro j k p hnew hget hwait
      have hsame : s.redis = c.store.redis ∧ s.pg = c.store.pg := by
        cases m <;> cases hm <;> exact ⟨rfl, rfl⟩
      have hwait₀ : ¬ Waiting env c j := fun hw => hwait (hw.imp (fun ⟨x, hx⟩ => ⟨x, by
        rw [hsame.1]
        exact hx⟩) id)
      refine (hkept j k p hnew hget hwait₀).same ?_ ?_
      · rw [hsame.2]
      · rw [hsame.1]

/-- In every reachable state the last call of every job that does not wait has the last
word. -/
theorem kept_of_reach {c : State} (hc : (machine env).Reach (InTime env) Blank c) :
    Kept env c := by
  have hall := hc.with_invariant fun c hc => And.intro (wording_of_reach hc) (identity_of_reach hc)
  clear hc
  induction hall with
  | init hi =>
      obtain ⟨now, room, rfl⟩ := hi
      intro j k p hnew hget
      cases hget
  | step a _ hok hs ih => exact kept_step hok.2.1 hok.2.2 ih hok.1 hs

/-- A job that is in a ready list is in its own. -/
theorem ready_of_listed {c : State} (hc : (machine env).Reach (InTime env) Blank c) {j : JobId}
    {x : String} (hx : j ∈ c.store.redis.lists (.queue x)) : Ready c.store j := by
  obtain ⟨q, hq, hkey⟩ := Routing.home_of_ready (bound_of_reach hc) hx
  change (c.store.redis.jobs (redisKeys.job j)).queueName = some q at hq
  rw [Ready, hq]
  exact (show Key.queue x = targetList q _ from hkey) ▸ hx

/-- **The last word.**  In every run in which nobody writes a finished record of a job: if
the last call of a job has come to a verdict and ended, and the job is neither in its ready
list nor in the hands of a pull loop, then its row and its hash have the status of that
verdict. -/
theorem last_word {c : State} (hc : (machine env).Reach (InTime env) Blank c) {j : JobId} {k : ℕ}
    {p : Process} {v : Verdict} (hnew : Newest c.pool j k) (hp : c.pool[k]? = some p)
    (hdone : reportOf p = .done (some v)) (hready : ¬ Ready c.store j) (hheld : ¬ Held env c j) :
    (∃ row, c.store.pg.row? j = some row ∧ row.status = v.status) ∧
      (c.store.redis.jobs (redisKeys.job j)).status = some v.status := by
  have hwait : ¬ Waiting env c j := by
    rintro (⟨x, hx⟩ | hw)
    · exact hready (ready_of_listed hc hx)
    · exact hheld hw
  obtain ⟨hrow, hhash⟩ := kept_of_reach hc j k p hnew hp hwait
  refine ⟨?_, hhash v (by rw [hdone]; rfl)⟩
  -- a job that is called has a row
  obtain ⟨w, n, htask⟩ := task_of_newest hnew hp
  have hid := identity_of_reach hc
  have hknows := (hid.2 p (List.mem_of_getElem? hp)).2.1
  rw [htask] at hknows
  obtain ⟨row, hr⟩ := Option.isSome_iff_exists.mp
    (hid.1.row j (Identity.knows_call hknows).enqueued)
  exact ⟨row, hr, hrow v (by rw [hdone]; rfl) row hr⟩

/-- A worker crashes with a job, and after its heartbeat has expired a janitor pushes the job
back. -/
def pushedBack : List Action :=
  [.start (.enqueue "echo" (some .null) {}), .call 0 (.fresh j1)] ++ goes 0 5 ++
    [.start (.start "w1")] ++ goes 1 8 ++ goes 2 5 ++
    [.drift (.crash "w1"), .drift (.pass 16000), .start (.start "w2")] ++ goes 4 8 ++
    [.start .janitor, .call 6 (.members ["w1", "w2"])] ++ goes 6 4

/-- Another worker pulls the job and completes it. -/
def completedElsewhere : List Action := goes 5 5 ++ goes 7 6 ++ returns 7 ++ goes 7 8

/-- What the process has come to, as far as it says. -/
def completes (p : Process) : Bool :=
  match reportOf p with
  | .done (some .completed) => true
  | _ => false

theorem done_of_completes {p : Process} (h : completes p = true) :
    reportOf p = .done (some .completed) := by
  unfold completes at h
  split at h
  · assumption
  · cases h

/-- The theorem on a run in which the janitor writes its two records before the job is
pulled again. -/
theorem last_word_after_recovery : ∃ c, (machine sample).Reach (InTime sample) Blank c ∧
    (∃ row, c.store.pg.row? j1.text = some row ∧ row.status = Verdict.completed.status) ∧
      (c.store.redis.jobs (redisKeys.job j1.text)).status = some Verdict.completed.status := by
  obtain ⟨c, hc, ht⟩ := Machine.exists_reach (machine sample) (InTime sample) Blank blank_blank
    (pushedBack ++ goes 6 6 ++ completedElsewhere)
    (fun c => decide (Newest c.pool j1.text 7) && (c.pool[7]?.any completes &&
      (decide (¬ Ready c.store j1.text) && decide (¬ Held sample c j1.text))))
    (by decide +kernel)
  simp only [Bool.and_eq_true, decide_eq_true_eq, Option.any_eq_true] at ht
  obtain ⟨hnew, ⟨p, hp, hdone⟩, hready, hheld⟩ := ht
  exact ⟨c, hc, last_word hc hnew hp (done_of_completes hdone) hready hheld⟩

/-- The other worker is faster than the janitor: when everybody has finished, the last call
has completed the job, and both records say that it is pending. -/
theorem recovery_overwrites : ∃ c, (machine sample).Reach Delivery.CrashProne Blank c ∧
    Newest c.pool j1.text 7 ∧
      (c.pool[7]?.any completes = true ∧ ∀ i ∈ [6, 7], ∀ p ∈ c.pool[i]?, Ended p) ∧
    (¬ Ready c.store j1.text ∧ ¬ Held sample c j1.text) ∧
    (c.store.pg.row? j1.text).map JobRow.status = some .pending ∧
      (c.store.redis.jobs (redisKeys.job j1.text)).status = some .pending := by
  obtain ⟨c, hc, ht⟩ := Machine.exists_reach (machine sample) Delivery.CrashProne Blank blank_blank
    (pushedBack ++ completedElsewhere ++ goes 6 6)
    (fun c => decide (Newest c.pool j1.text 7 ∧ (c.pool[7]?.any completes = true ∧
      ∀ i ∈ [6, 7], ∀ p ∈ c.pool[i]?, Ended p) ∧ (¬ Ready c.store j1.text ∧ ¬ Held sample c j1.text) ∧
      (c.store.pg.row? j1.text).map JobRow.status = some .pending ∧
      (c.store.redis.jobs (redisKeys.job j1.text)).status = some .pending))
    (by decide +kernel)
  exact ⟨c, hc, of_decide_eq_true ht⟩

end Run

end LastWord

end NexusQueue
