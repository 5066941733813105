/-
# The identity of jobs

What holds of jobs in every run whatever fails: an id that appears in a list or
in a delayed set spells the uuid of a job that has been published, a published job has
a row and a hash with its id and the name of a registered queue, these never
change again, and an idempotency entry names a published job.

Postgres finds a row under every spelling of its uuid and Redis a hash under one only, so
which spellings get into the lists depends on those the operators use.  Here they have a
property `P` that all uuids have as Postgres prints them.

The only thing to count is who holds the draft of a job, because a fresh uuid
must not be published twice.  Everything else is what a process knows about the
jobs it handles, and that knowledge is never lost.
-/
import NexusQueue.Tokens
import NexusQueue.Conduct
import NexusQueue.Transition

namespace NexusQueue

/-- The job is visible in Redis. -/
def World.enqueued (s : World) (j : JobId) : Prop :=
  (s.redis.jobs (redisKeys.job j)).id.isSome

instance (s : World) (j : JobId) : Decidable (s.enqueued j) :=
  inferInstanceAs (Decidable (_ = true))

/-- The text spells the uuid of a job that is visible in Redis. -/
def World.spells (s : World) (j : JobId) : Prop := ∃ u ∈ Uuid.normal j, s.enqueued u

instance (s : World) (j : JobId) : Decidable (s.spells j) :=
  inferInstanceAs (Decidable (∃ u ∈ Uuid.normal j, _))

/-- A requeue request that lists its jobs lists jobs that are visible in Redis. -/
def World.names (s : World) : Task → Prop
  | .requeue _ b => ∀ ids ∈ b.jobIds, ∀ id ∈ ids, s.spells id
  | _ => True

instance (s : World) : (t : Task) → Decidable (s.names t)
  | .requeue _ b => inferInstanceAs (Decidable (∀ ids ∈ b.jobIds, ∀ id ∈ ids, s.spells id))
  | .enqueue _ _ _ | .tick | .start _ | .loop _ | .processOne _ _ _ | .stop _ | .heartbeat _
  | .janitor | .addJob _ | .removeJob _ | .retry _ => .isTrue trivial

/-- Anything may happen, except that an operator makes up an id. -/
def AnythingNamed (c : State) : Action → Prop
  | .start t => t.external ∧ c.store.names t
  | _ => True

instance (c : State) : (a : Action) → Decidable (AnythingNamed c a)
  | .start t => inferInstanceAs (Decidable (t.external ∧ c.store.names t))
  | .call _ _ | .halt _ | .drift _ => .isTrue trivial

/-- An operator who does nothing makes up no id. -/
theorem World.names_of_not_operator {s : World} {t : Task} (h : ¬ t.operator) : s.names t := by
  cases t <;> first | trivial | exact absurd trivial h

theorem AnythingNamed.anything {c : State} {a : Action} (h : AnythingNamed c a) :
    Anything c a := by
  cases a <;> first | exact h.1 | trivial

theorem FaultFree.named {c : State} {a : Action} (h : FaultFree c a) : AnythingNamed c a := by
  cases a with
  | start t => exact ⟨h.1, World.names_of_not_operator h.2⟩
  | _ => trivial

/-- The ids a requeue request lists. -/
def Task.listed : Task → List JobId
  | .requeue _ b => b.jobIds.getD []
  | _ => []

/-- The id under which a command finds the row of a job that is to be retried. -/
def Cmd.revives (s : World) : Cmd → Option JobId
  | .select id => if (s.pg.select id).any Routes.retriable then some id else none
  | _ => none

/-- Operators requeue and retry jobs only under ids with the property. -/
def Spelled (P : JobId → Prop) (c : State) : Action → Prop
  | .start t => ∀ id ∈ t.listed, P id
  | .call i o => o.works → ∀ cmd ∈ nextCmd c i, ∀ id ∈ cmd.revives c.store, P id
  | _ => True

instance (P : JobId → Prop) [DecidablePred P] (c : State) : (a : Action) → Decidable (Spelled P c a)
  | .start t => inferInstanceAs (Decidable (∀ id ∈ t.listed, P id))
  | .call i o => inferInstanceAs (Decidable (o.works = true →
      ∀ cmd ∈ nextCmd c i, ∀ id ∈ cmd.revives c.store, P id))
  | .halt _ | .drift _ => .isTrue trivial

/-- If the text spells a uuid, it does so the way Postgres prints it. -/
def AsPrinted (j : JobId) : Prop := ∀ u ∈ Uuid.normal j, u = j

instance : DecidablePred AsPrinted := fun j =>
  inferInstanceAs (Decidable (∀ u ∈ Uuid.normal j, u = j))

theorem asPrinted_of_printed (j : JobId) (h : Uuid.Printed j) : AsPrinted j := fun _ hu =>
  Option.some.inj (hu.symm.trans h)

/-- Anything may happen, except that an operator makes up an id or spells it otherwise. -/
def NamedBy (P : JobId → Prop) (c : State) (a : Action) : Prop := AnythingNamed c a ∧ Spelled P c a

instance (P : JobId → Prop) [DecidablePred P] (c : State) (a : Action) :
    Decidable (NamedBy P c a) :=
  inferInstanceAs (Decidable (AnythingNamed c a ∧ Spelled P c a))

theorem spelled_anyhow (c : State) (a : Action) : Spelled (fun _ => True) c a := by
  cases a with
  | call i o => exact fun _ _ _ _ _ => trivial
  | start t => exact fun _ _ => trivial
  | _ => trivial

/-- Only operators look a row up. -/
theorem operator_of_select {env : Env} {t : Task} {l : Phase} {id : JobId}
    (h : Permits env t l (.select id)) : t.operator := by
  cases h with
  | quiet hq => exact hq.elim
  | selectJob => trivial

/-- Operators who do nothing spell no id. -/
theorem Machine.Reach.spelled {env : Env} {P : JobId → Prop} {ok : State → Action → Prop}
    {c : State} (hok : ∀ c t, ok c (.start t) → ¬ t.operator)
    (hc : (machine env).Reach ok Blank c) :
    (machine env).Reach (fun c a => ok c a ∧ Spelled P c a) Blank c := by
  have hblank : ∀ c : State, Blank c → c.pool = [] := by
    rintro _ ⟨now, room, rfl⟩
    rfl
  have hpool : ∀ c, (machine env).Reach ok Blank c → ∀ p ∈ c.pool,
      ¬ p.task.operator ∧
        Follows (custody env) p.task ((custody env).phase p.task p.hist) p.prog
          (Concluded p.task) := fun c hc p hp =>
    ⟨hc.tasks hblank hok (fun t cmd r t' ht' =>
        Task.not_operator_of_host (host_of_forks ht').choose_spec) p hp,
      hc.follows custody_follows hblank p hp⟩
  refine (hc.with_invariant hpool).mono (fun c a h => ⟨h.1, ?_⟩) fun _ => id
  cases a with
  | start t =>
      -- only requeue requests list ids
      intro id hid
      cases t with
      | requeue _ _ => exact absurd trivial (hok c _ h.1)
      | _ => cases hid
  | call i o =>
      intro _ cmd hcmd id hid
      obtain ⟨p, hp, hprog⟩ := Option.bind_eq_some_iff.mp hcmd
      obtain ⟨hop, hfol⟩ := h.2 p (List.mem_of_getElem? hp)
      cases hp' : p.prog with
      | call cmd' k =>
          rw [hp'] at hprog hfol
          obtain rfl : cmd' = cmd := Option.some.inj hprog
          -- and only operators look up a row
          cases cmd' with
          | select _ => exact absurd (operator_of_select hfol.1) hop
          | _ => cases hid
      | _ =>
          rw [hp'] at hprog
          cases hprog
  | _ => trivial

namespace Identity

/-- The id appears in a list or in a delayed set. -/
def Listed (s : World) (j : JobId) : Prop :=
  (∃ x, j ∈ s.redis.lists (.queue x)) ∨ (∃ w, j ∈ s.redis.lists (.processing w)) ∨
    (∃ q, j ∈ s.redis.lists (.dlq q)) ∨ ∃ q, j ∈ s.redis.zsets (.delayed q)

/-- The draft a task holds in a phase. -/
def token : Task → Phase → Option JobId
  | .tick, .drawn id | .enqueue _ _ _, .drawn id => some id
  | .tick, .rowed id | .enqueue _ _ _, .rowed id => some id
  | _, _ => none

/-- The text is one of the spellings in use, of a published job. -/
def Known (P : JobId → Prop) (s : World) (j : JobId) : Prop := P j ∧ s.spells j

/-- What a process knows about the jobs it handles. -/
def knows (P : JobId → Prop) : Task → Phase → World → Prop
  | .tick, .rowed id, s | .enqueue _ _ _, .rowed id, s => (s.pg.row? id).isSome
  | .enqueue _ _ _, .published id, s | .enqueue _ _ _, .known id, s => s.enqueued id
  | .tick, .inHand _ q j k _, s => Known P s j ∧ ∀ k' ∈ k,
      k' = targetList q ((s.redis.jobs (redisKeys.job j)).priority.getD "normal")
  | .loop _, .pulled j, s => Known P s j
  | .processOne _ _ j, .claimed h, s =>
      Known P s j ∧ h.SameIdentity (s.redis.jobs (redisKeys.job j))
  | .processOne _ _ j, _, s => Known P s j
  | .janitor, .recovering _ todo, s => ∀ j ∈ todo, Known P s j
  | .janitor, .routing _ k j todo, s => (∃ x, k = .queue x) ∧ ∀ j' ∈ j :: todo, Known P s j'
  | .janitor, .restored _ j todo, s => ∀ j' ∈ j :: todo, Known P s j'
  | .requeue _ _, .requeuing todo, s => ∀ j ∈ todo, Known P s j
  | .retry _, .resetting j _ todo, s | .requeue _ _, .resetting j _ todo, s
  | .retry _, .lifted j _ todo, s | .requeue _ _, .lifted j _ todo, s =>
      ∀ j' ∈ j :: todo, Known P s j'
  | .retry _, .placing j _ k todo, s | .requeue _ _, .placing j _ k todo, s =>
      (∃ x, k = .queue x) ∧ ∀ j' ∈ j :: todo, Known P s j'
  | _, _, _ => True

/-- The records of the jobs fit together. -/
structure Coherent (P : JobId → Prop) (s : World) (g : JobId → ℕ) : Prop where
  draft_le : ∀ id, g id ≤ 1
  draft_new : ∀ id, 0 < g id → id ∈ s.ids ∧ ¬ s.enqueued id
  drawn : ∀ j, s.enqueued j → j ∈ s.ids
  row : ∀ j, s.enqueued j → (s.pg.row? j).isSome
  named : ∀ j, s.enqueued j → ∃ q ∈ s.redis.sets redisKeys.queueRegistry,
    (s.redis.jobs (redisKeys.job j)).queueName = some q
  listed : ∀ j, Listed s j → Known P s j
  worked : ∀ j row, s.pg.row? j = some row → ¬ row.status.initial → s.enqueued j
  idem : ∀ k v e, s.redis.strings (redisKeys.idempotency k) = some (v, e) → s.enqueued v

/-- The identity of jobs as a discipline over the custody protocol. -/
def identity (env : Env) (P : JobId → Prop) :
    Discipline (machine env) (custody env) (JobId → ℕ) where
  good _ := True
  val t l := holding (token t l)
  emit _ _ _ _ := 0
  loc := knows P
  inv := Coherent P
  allow s _ _ _ c o := o.works → ∀ id ∈ c.revives s, P id
  post := Concluded

/-- Nothing that is known about jobs is lost. -/
structure Later (s s' : World) : Prop where
  enqueued : ∀ j, s.enqueued j → s'.enqueued j
  identity : ∀ j, s.enqueued j ∨ s.spells j →
    (s'.redis.jobs (redisKeys.job j)).SameIdentity (s.redis.jobs (redisKeys.job j))
  rows : ∀ j, (s.pg.row? j).isSome → (s'.pg.row? j).isSome
  queues : s.redis.sets redisKeys.queueRegistry ⊆ s'.redis.sets redisKeys.queueRegistry

theorem Later.spells {s s' : World} (hl : Later s s') {j : JobId} (h : s.spells j) :
    s'.spells j := by
  obtain ⟨u, hu, henq⟩ := h
  exact ⟨u, hu, hl.enqueued u henq⟩

theorem Known.later {P : JobId → Prop} {s s' : World} {j : JobId} (h : Known P s j)
    (hl : Later s s') : Known P s' j :=
  ⟨h.1, hl.spells h.2⟩

/-- Spelled the way Postgres prints it, the id is the id of the job. -/
theorem Known.enqueued {s : World} {j : JobId} (h : Known AsPrinted s j) : s.enqueued j := by
  obtain ⟨u, hu, henq⟩ := h.2
  exact h.1 u hu ▸ henq

theorem Known.enqueued_of_printed {P : JobId → Prop} {s : World} {j : JobId} (h : Known P s j)
    (hj : Uuid.Printed j) : s.enqueued j :=
  Known.enqueued ⟨asPrinted_of_printed j hj, h.2⟩

section Knowledge

variable {P : JobId → Prop} {s s' : World} {t : Task} {l : Phase}

/-- Whatever the others do, a process still knows what it knew. -/
theorem knows_later (h : knows P t l s) (hl : Later s s') : knows P t l s' := by
  cases t with
  | tick =>
      cases l with
      | rowed id => exact hl.rows id h
      | inHand now q j k todo =>
          refine ⟨h.1.later hl, fun k' hk' => ?_⟩
          rw [(hl.identity j (.inr h.1.2)).priority]
          exact h.2 k' hk'
      | _ => trivial
  | enqueue n p o =>
      cases l with
      | rowed id => exact hl.rows id h
      | published id => exact hl.enqueued id h
      | known id => exact hl.enqueued id h
      | _ => trivial
  | loop w =>
      cases l with
      | pulled j => exact h.later hl
      | _ => trivial
  | processOne w n j =>
      cases l with
      | claimed f => exact ⟨h.1.later hl, h.2.trans (hl.identity j (.inr h.1.2)).symm⟩
      | _ => exact h.later hl
  | janitor =>
      cases l with
      | recovering w todo => exact fun j hj => (h j hj).later hl
      | routing w k j todo => exact ⟨h.1, fun j' hj' => (h.2 j' hj').later hl⟩
      | restored w j todo => exact fun j' hj' => (h j' hj').later hl
      | _ => trivial
  | retry id =>
      cases l with
      | resetting j q todo | lifted j q todo => exact fun j' hj' => (h j' hj').later hl
      | placing j q k todo => exact ⟨h.1, fun j' hj' => (h.2 j' hj').later hl⟩
      | _ => trivial
  | requeue q b =>
      cases l with
      | requeuing todo => exact fun j hj => (h j hj).later hl
      | resetting j q todo | lifted j q todo => exact fun j' hj' => (h j' hj').later hl
      | placing j q k todo => exact ⟨h.1, fun j' hj' => (h.2 j' hj').later hl⟩
      | _ => trivial
  | _ => cases l <;> trivial

/-- A `processOne` call works on a published job. -/
theorem knows_call {w : WorkerId} {n : ℕ} {j : JobId} (h : knows P (.processOne w n j) l s) :
    Known P s j := by
  cases l <;> first | exact h.1 | exact h

/-- A request that passes over a job knows the others. -/
theorem knows_passOver {q : QueueName} {b : RequeueBody} (h : knows P (.requeue q b) l s) :
    knows P (.requeue q b) l.passOver s := by
  cases l with
  | requeuing todo => exact fun j hj => h j (List.mem_of_mem_tail hj)
  | resetting j q todo | lifted j q todo => exact fun j' hj' => h j' (List.mem_cons_of_mem _ hj')
  | placing j q k todo => exact fun j' hj' => h.2 j' (List.mem_cons_of_mem _ hj')
  | _ => trivial

/-- After a rejection a process still knows enough. -/
theorem knows_error {c : Cmd} (h : knows P t l s) : knows P t (l.afterError t c) s := by
  cases t with
  | processOne w n j =>
      have hj := knows_call h
      cases c <;> first | exact h | exact hj
  | requeue q b => cases c <;> first | exact h | exact knows_passOver h
  | _ => trivial

/-- A task that is started from outside knows what it should, if it makes up no
id. -/
theorem knows_start (ht : t.external) (hn : s.names t) (hP : ∀ id ∈ t.listed, P id) :
    knows P t (Phase.start t) s := by
  cases t with
  | processOne _ _ _ => exact ht.elim
  | requeue q b =>
      rcases Phase.start_requeue q b with h | ⟨jobIds, hb, h⟩
      · rw [h]
        trivial
      · rw [h]
        refine fun id hid => ⟨hP id ?_, hn jobIds hb id hid⟩
        rw [Task.listed, hb]
        exact hid
  | _ => trivial

end Knowledge

section Records

variable {P : JobId → Prop} {s s' : World} {g : JobId → ℕ}

/-- The id of a published job is spelled the way Postgres prints it. -/
theorem Coherent.printed (h : Coherent P s g) {j : JobId} (hj : s.enqueued j) : Uuid.Printed j :=
  Postgres.printed_of_row? (h.row j hj)

theorem Coherent.known (h : Coherent P s g) (hP : ∀ j, Uuid.Printed j → P j) {j : JobId}
    (hj : s.enqueued j) : Known P s j :=
  ⟨hP j (h.printed hj), j, h.printed hj, hj⟩

/-- A step that may move ids of published jobs around and touches no record. -/
structure Steady (P : JobId → Prop) (s s' : World) : Prop where
  ids : s'.ids = s.ids
  identity : ∀ j, (s'.redis.jobs (.job j)).SameIdentity (s.redis.jobs (.job j))
  rows : ∀ j, (s.pg.row? j).isSome → (s'.pg.row? j).isSome
  queues : s'.redis.sets .queues = s.redis.sets .queues
  idem : ∀ k, s'.redis.strings (.idem k) = s.redis.strings (.idem k)
  listed : ∀ j, Listed s' j → Listed s j ∨ Known P s j
  worked : ∀ j row, s'.pg.row? j = some row → ¬ row.status.initial →
    s.enqueued j ∨ s.pg.row? j = some row

theorem Steady.enqueued_iff (h : Steady P s s') (j : JobId) : s'.enqueued j ↔ s.enqueued j := by
  rw [World.enqueued, World.enqueued, (h.identity j).id]

theorem Steady.later (h : Steady P s s') : Later s s' :=
  ⟨fun j hj => (h.enqueued_iff j).mpr hj, fun j _ => h.identity j, h.rows, h.queues ▸ subset_rfl⟩

/-- Such a step keeps the records. -/
theorem Coherent.steady (hb : Coherent P s g) (h : Steady P s s') : Coherent P s' g where
  draft_le := hb.draft_le
  draft_new id hid := by
    rw [h.ids, h.enqueued_iff]
    exact hb.draft_new id hid
  drawn j hj := by
    rw [h.ids]
    exact hb.drawn j ((h.enqueued_iff j).mp hj)
  row j hj := h.rows j (hb.row j ((h.enqueued_iff j).mp hj))
  named j hj := by
    obtain ⟨q, hq, hname⟩ := hb.named j ((h.enqueued_iff j).mp hj)
    exact ⟨q, h.queues ▸ hq, (h.identity j).queueName.trans hname⟩
  listed j hj := ((h.listed j hj).elim (hb.listed j) id).later h.later
  worked j row hrow hst := by
    rw [h.enqueued_iff]
    exact (h.worked j row hrow hst).elim id fun hrow => hb.worked j row hrow hst
  idem k v e hv := by
    rw [h.idem] at hv
    exact (h.enqueued_iff v).mpr (hb.idem k v e hv)

/-- Nothing about jobs changes. -/
theorem steady_frame (h : s.JobFrame s') (hq : s'.redis.sets .queues = s.redis.sets .queues)
    (hi : ∀ k, s'.redis.strings (.idem k) = s.redis.strings (.idem k)) : Steady P s s' where
  ids := h.ids
  identity := h.identity
  rows j hj := by rwa [h.pg]
  queues := hq
  idem := hi
  listed j hj := by
    left
    simpa only [Listed, h.ready, h.processing, h.dlq, h.delayed] using hj
  worked j row hrow _ := Or.inr (h.pg ▸ hrow)

/-- The lists change, and what is new in them is published. -/
theorem steady_lists {lists : Key → List String}
    (h : ∀ k j, j ∈ lists k → j ∈ s.redis.lists k ∨ Known P s j) :
    Steady P s { s with redis := { s.redis with lists := lists } } where
  ids := rfl
  identity _ := .refl _
  rows _ hj := hj
  queues := rfl
  idem _ := rfl
  listed j hj := by
    rcases hj with ⟨x, hx⟩ | ⟨w, hw⟩ | ⟨q, hq⟩ | hd
    · exact (h _ j hx).imp (fun hx => Or.inl ⟨x, hx⟩) id
    · exact (h _ j hw).imp (fun hw => Or.inr (Or.inl ⟨w, hw⟩)) id
    · exact (h _ j hq).imp (fun hq => Or.inr (Or.inr (Or.inl ⟨q, hq⟩))) id
    · exact Or.inl (Or.inr (Or.inr (Or.inr hd)))
  worked _ _ hrow _ := Or.inr hrow

/-- A published job is pushed to a list. -/
theorem steady_push (k : Key) {j : JobId} (hj : Known P s j) :
    Steady P s { s with redis := { s.redis with
      lists := Function.update s.redis.lists k (j :: s.redis.lists k) } } := by
  refine steady_lists fun k' j' hj' => ?_
  by_cases hk : k' = k
  · subst hk
    rw [Function.update_self, List.mem_cons] at hj'
    rcases hj' with rfl | hj'
    · exact Or.inr hj
    · exact Or.inl hj'
  · rw [Function.update_of_ne hk] at hj'
    exact Or.inl hj'

/-- Ids are removed from a list. -/
theorem steady_remove (k : Key) {l : List String} (hl : l ⊆ s.redis.lists k) :
    Steady P s { s with redis := { s.redis with lists := Function.update s.redis.lists k l } } := by
  refine steady_lists fun k' j' hj' => Or.inl ?_
  by_cases hk : k' = k
  · subst hk
    rw [Function.update_self] at hj'
    exact hl hj'
  · rwa [Function.update_of_ne hk] at hj'

/-- A delayed set changes, and what is new in it is published. -/
theorem steady_delayed (q : QueueName) {z : SortedSet String ℚ}
    (h : ∀ j ∈ z, j ∈ s.redis.zsets (.delayed q) ∨ Known P s j) :
    Steady P s { s with redis := { s.redis with
      zsets := Function.update s.redis.zsets (.delayed q) z } } where
  ids := rfl
  identity _ := .refl _
  rows _ hj := hj
  queues := rfl
  idem _ := rfl
  listed j hj := by
    rcases hj with hx | hw | hd | ⟨q', hq'⟩
    · exact Or.inl (Or.inl hx)
    · exact Or.inl (Or.inr (Or.inl hw))
    · exact Or.inl (Or.inr (Or.inr (Or.inl hd)))
    · by_cases hq : q' = q
      · subst hq
        simp only [Function.update_self] at hq'
        exact (h j hq').imp (fun h => Or.inr (Or.inr (Or.inr ⟨_, h⟩))) id
      · have hne : Key.delayed q' ≠ Key.delayed q := fun h => hq (Key.delayed.inj h)
        simp only [Function.update_of_ne hne] at hq'
        exact Or.inl (Or.inr (Or.inr (Or.inr ⟨q', hq'⟩)))
  worked _ _ hrow _ := Or.inr hrow

/-- A published job is added to a delayed set. -/
theorem steady_zadd (q : QueueName) (score : ℚ) {j : JobId} (hj : Known P s j) :
    Steady P s (s.setDelayed q ((s.redis.zsets (redisKeys.delayed q)).zadd score j)) := by
  refine steady_delayed q fun j' hj' => ?_
  rcases (SortedSet.mem_zadd _ _ _ _).mp hj' with rfl | hj'
  · exact Or.inr hj
  · exact Or.inl hj'

/-- The row of a published job is updated. -/
theorem steady_update {j : JobId} (p : RowPatch) (hj : Known P s j) :
    Steady P s (s.updateRow j p) where
  ids := rfl
  identity _ := .refl _
  rows j' hj' := by
    rw [World.updateRow, Postgres.isSome_row?_update]
    exact hj'
  queues := rfl
  idem _ := rfl
  listed _ hj := Or.inl hj
  worked j' row hrow _ := by
    rw [Postgres.row?_update] at hrow
    obtain ⟨u, hu, henq⟩ := hj.2
    by_cases hjj : Uuid.normal j = some j'
    · obtain rfl : u = j' := Option.some.inj (hu.symm.trans hjj)
      exact Or.inl henq
    · rw [if_neg hjj] at hrow
      exact Or.inr hrow

/-- A key is deleted that holds no records. -/
theorem steady_delete {k : Key} (hjob : ∀ j, k ≠ .job j) (hqueues : k ≠ .queues)
    (hidem : ∀ i, k ≠ .idem i) : Steady P s (s.delete k) where
  ids := rfl
  identity j := by
    simpa [Write.apply, Function.update_of_ne (hjob j).symm] using JobHash.SameIdentity.refl _
  rows _ hj := hj
  queues := Function.update_of_ne hqueues.symm _ _
  idem i := Function.update_of_ne (hidem i).symm _ _
  listed j hj := by
    have hlist : ∀ k', j ∈ (s.delete k).redis.lists k' → j ∈ s.redis.lists k' := fun k' hj' => by
      by_cases hk : k' = k
      · simp [Write.apply, hk] at hj'
      · simpa [Write.apply, hk] using hj'
    have hzset : ∀ k', j ∈ (s.delete k).redis.zsets k' → j ∈ s.redis.zsets k' := fun k' hj' => by
      by_cases hk : k' = k
      · simp [Write.apply, hk] at hj'
      · simpa [Write.apply, hk] using hj'
    left
    rcases hj with ⟨x, hx⟩ | ⟨w, hw⟩ | ⟨q, hq⟩ | ⟨q, hq⟩
    · exact Or.inl ⟨x, hlist _ hx⟩
    · exact Or.inr (Or.inl ⟨w, hlist _ hw⟩)
    · exact Or.inr (Or.inr (Or.inl ⟨q, hlist _ hq⟩))
    · exact Or.inr (Or.inr (Or.inr ⟨q, hzset _ hq⟩))
  worked _ _ hrow _ := Or.inr hrow

theorem Steady.trans {s₁ s₂ s₃ : World} (h₁ : Steady P s₁ s₂) (h₂ : Steady P s₂ s₃) :
    Steady P s₁ s₃ where
  ids := h₂.ids.trans h₁.ids
  identity j := (h₂.identity j).trans (h₁.identity j)
  rows j hj := h₂.rows j (h₁.rows j hj)
  queues := h₂.queues.trans h₁.queues
  idem k := (h₂.idem k).trans (h₁.idem k)
  listed j hj := by
    rcases h₂.listed j hj with hj | ⟨hok, u, hu, henq⟩
    · exact h₁.listed j hj
    · exact Or.inr ⟨hok, u, hu, (h₁.enqueued_iff u).mp henq⟩
  worked j row hrow hst := by
    rcases h₂.worked j row hrow hst with hj | hrow
    · exact Or.inl ((h₁.enqueued_iff j).mp hj)
    · exact h₁.worked j row hrow hst

/-- The idempotency entry of a published job is written. -/
theorem Coherent.remember {k : String} {id : JobId} (h : Coherent P s g) (hid : s.enqueued id) :
    Coherent P (s.setString (redisKeys.idempotency k) id 86400) g :=
  { h with
    idem := fun k' v e hv => by
      by_cases hk : k' = k
      · subst hk
        simp only [Function.update_self, Option.some.injEq, Prod.mk.injEq] at hv
        exact hv.1 ▸ hid
      · have hne : Key.idem k' ≠ Key.idem k := fun h => hk (Key.idem.inj h)
        simp only [Function.update_of_ne hne] at hv
        exact h.idem k' v e hv }

/-- A draft is dropped. -/
theorem Coherent.drop {x : Option JobId} (h : Coherent P s (holding x + g)) : Coherent P s g :=
  { h with
    draft_le := fun id => (Nat.le_add_left _ _).trans (h.draft_le id)
    draft_new := fun id hid => h.draft_new id (hid.trans_le (Nat.le_add_left _ _)) }

theorem Coherent.free (h : Coherent P s g) : Coherent P s (holding none + g) := by
  rwa [holding_none_add]

/-- A fresh uuid is drawn. -/
theorem Coherent.draw (h : Coherent P s g) {id : JobId} (hid : id ∉ s.ids) :
    Coherent P { s with ids := insert id s.ids } (holding (some id) + g) ∧
      Later s { s with ids := insert id s.ids } := by
  have hnone : g id = 0 := by
    by_contra hne
    exact hid (h.draft_new id (by omega)).1
  refine ⟨{ h with draft_le := fun j => ?_, draft_new := fun j hj => ?_, drawn := fun j hj => ?_ },
    ⟨fun _ h => h, fun _ _ => .refl _, fun _ h => h, fun _ h => h⟩⟩
  · have hle := h.draft_le j
    by_cases hij : id = j
    · subst hij
      simp [hnone]
    · simpa [hij] using hle
  · by_cases hij : id = j
    · subst hij
      exact ⟨by simp, fun he => hid (h.drawn _ he)⟩
    · obtain ⟨hmem, hne⟩ := h.draft_new j (by simpa [hij] using hj)
      exact ⟨by simp [hmem], hne⟩
  · simpa using Or.inr (h.drawn j hj)

theorem Later.trans {s₁ s₂ s₃ : World} (h₁ : Later s₁ s₂) (h₂ : Later s₂ s₃) : Later s₁ s₃ where
  enqueued j hj := h₂.enqueued j (h₁.enqueued j hj)
  identity j hj := (h₂.identity j (hj.imp (h₁.enqueued j) h₁.spells)).trans (h₁.identity j hj)
  rows j hj := h₂.rows j (h₁.rows j hj)
  queues := h₁.queues.trans h₂.queues

/-- The row of a draft is inserted. -/
theorem Coherent.insertRow {now : ℕ} {pg : Postgres} {row : NewRow} (h : Coherent P s g)
    (hst : row.status.initial) (hins : s.pg.insert now row = .ok pg) :
    Coherent P { s with pg := pg } g ∧ Later s { s with pg := pg } := by
  obtain ⟨r, -, hr, -, hrow⟩ := Postgres.row?_insert hins
  have hrows : ∀ j, (s.pg.row? j).isSome → (pg.row? j).isSome := fun j hj => by
    rw [hrow]
    split
    · rfl
    · exact hj
  refine ⟨{ h with row := fun j hj => hrows j (h.row j hj), worked := fun j r' hr' hst' => ?_ },
    ⟨fun _ h => h, fun _ _ => .refl _, hrows, fun _ h => h⟩⟩
  change pg.row? j = some r' at hr'
  rw [hrow] at hr'
  split at hr'
  · cases hr'
    exact absurd (hr ▸ hst) hst'
  · exact h.worked j r' hr' hst'

/-- A draft becomes a job. -/
theorem Coherent.register {id : JobId} {q : QueueName} {f : JobHash}
    (h : Coherent P s (holding (some id) + g)) (hrow : (s.pg.row? id).isSome)
    (hid : f.id = some id) (hq : f.queueName = some q) :
    Coherent P (s.register id q f) g ∧ Later s (s.register id q f) ∧
      (s.register id q f).enqueued id := by
  obtain ⟨hmem, hnone⟩ := h.draft_new id (by simp)
  have hzero : g id = 0 := by
    have hle := h.draft_le id
    simp at hle
    exact hle
  have hd := h.drop
  have hself : (s.register id q f).redis.jobs (.job id) =
      (s.redis.jobs (.job id)).merge f := by
    simp [World.register]
  have hother : ∀ j, j ≠ id → (s.register id q f).redis.jobs (.job j) =
      s.redis.jobs (.job j) := fun j hj => by
    simp [World.register, hj]
  have hqueues : (s.register id q f).redis.sets .queues =
      insert q (s.redis.sets .queues) := by
    simp [World.register]
  have henq : (s.register id q f).enqueued id := by
    rw [World.enqueued, hself]
    simp [JobHash.merge, hid]
  have hiff : ∀ j, j ≠ id → ((s.register id q f).enqueued j ↔ s.enqueued j) :=
    fun j hj => by rw [World.enqueued, World.enqueued, hother j hj]
  have hmono : ∀ j, s.enqueued j → (s.register id q f).enqueued j := fun j hj => by
    by_cases hji : j = id
    · exact hji ▸ henq
    · exact (hiff j hji).mpr hj
  have hlater : Later s (s.register id q f) := by
    refine ⟨hmono, fun j hj => ?_, fun _ h => h, ?_⟩
    · have hji : j ≠ id := by
        rintro rfl
        -- the new id is printed, so it spells itself and no visible job
        rcases hj with hj | ⟨u, hu, hj⟩
        · exact hnone hj
        · exact hnone (Option.some.inj (hu.symm.trans (Postgres.printed_of_row? hrow)) ▸ hj)
      rw [hother j hji]
      exact .refl _
    · rw [hqueues]
      exact Finset.subset_insert _ _
  refine ⟨⟨hd.draft_le, fun j hj => ?_, fun j hj => ?_, fun j hj => ?_, fun j hj => ?_,
    fun j hj => (hd.listed j hj).later hlater,
    fun j row hrow hst => hmono j (hd.worked j row hrow hst),
    fun k v e hv => hmono v (hd.idem k v e hv)⟩, hlater, henq⟩
  · have hji : j ≠ id := by
      rintro rfl
      omega
    rw [hiff j hji]
    exact hd.draft_new j hj
  · by_cases hji : j = id
    · exact hji ▸ hmem
    · exact hd.drawn j ((hiff j hji).mp hj)
  · by_cases hji : j = id
    · exact hji ▸ hrow
    · exact hd.row j ((hiff j hji).mp hj)
  · by_cases hji : j = id
    · subst hji
      refine ⟨q, by rw [hqueues]; exact Finset.mem_insert_self _ _, ?_⟩
      rw [hself]
      simp [JobHash.merge, hq]
    · obtain ⟨q', hq', hname⟩ := hd.named j ((hiff j hji).mp hj)
      refine ⟨q', by rw [hqueues]; exact Finset.mem_insert_of_mem hq', ?_⟩
      rw [hother j hji]
      exact hname

end Records

section Step

variable {env : Env} {P : JobId → Prop} {s s' : World} {t : Task} {l l' : Phase} {c : Cmd}
  {o : Oracle}
  {r : Except Err c.Resp} {ts : List Task} {g : JobId → ℕ}

/-- No task starts with a draft. -/
theorem token_start (t : Task) : token t (Phase.start t) = none := by
  cases t with
  | requeue q b => cases Phase.start (.requeue q b) <;> rfl
  | _ => rfl

theorem starts_zero (ts : List Task) :
    (ts.map fun t => holding (token t (Phase.start t))).sum = 0 := by
  induction ts with
  | nil => rfl
  | cons t ts ih =>
      rw [List.map_cons, List.sum_cons, ih, token_start, holding_none, zero_add]

/-- After a rejection a task holds no draft. -/
theorem token_error : token t (l.afterError t c) = none := by
  cases t with
  | processOne w n j => cases l <;> cases c <;> rfl
  | requeue q b => cases l <;> cases c <;> rfl
  | _ => rfl

/-- **Step lemma.**  Every effect keeps the records and tells the process what it
needs to know next. -/
theorem Coherent.effect (hb : Coherent P s (holding (token t l) + g))
    (hP : ∀ j, Uuid.Printed j → P j)
    (hk : knows P t l s) (hrev : ∀ id ∈ c.revives s, P id) (he : Effect env s t l c r s' l' ts) :
    Coherent P s' (holding (token t l') + g) ∧ Later s s' ∧ knows P t l' s' ∧
      ∀ t' ∈ ts, knows P t' (Phase.start t') s' := by
  -- the token stays or is dropped, and the store moves in a steady way
  have keep : Steady P s s' → token t l' = token t l ∨ token t l' = none → knows P t l' s' →
      (∀ t' ∈ ts, knows P t' (Phase.start t') s') →
      Coherent P s' (holding (token t l') + g) ∧ Later s s' ∧ knows P t l' s' ∧
        ∀ t' ∈ ts, knows P t' (Phase.start t') s' := by
    intro hst htok hn hts
    refine ⟨?_, hst.later, hn, hts⟩
    rcases htok with htok | htok
    · rw [htok]
      exact hb.steady hst
    · rw [htok, holding_none, zero_add]
      exact hb.drop.steady hst
  have none : ∀ t' ∈ ([] : List Task), knows P t' (Phase.start t') s' := fun t' ht' => by cases ht'
  have frame : ∀ {s'}, s.Frame s' → Steady P s s' :=
    fun h => steady_frame h.toJobFrame h.queues h.idem
  have same : Steady P s s := frame (.refl s)
  have object : ∀ w obj, Steady P s (s.setWorker w obj) := fun w obj =>
    frame { World.Frame.refl s with }
  cases he with
  | still hn hf hw => exact keep (frame hf) (.inl rfl) (knows_later hk (frame hf).later) none
  | clock hfree => exact keep same (.inr rfl) trivial none
  | lookupMiss hkey hv => exact keep same (.inl rfl) trivial none
  | lookupHit hkey hv =>
      obtain ⟨e, he⟩ := Redis.get_of_truthy hv
      exact keep same (.inl rfl) (hb.idem _ _ e he) none
  -- from here to the `MULTI` the new id is a draft that nobody else knows
  | draw hc hp hid hne =>
      obtain ⟨hco, hlat⟩ := hb.drop.draw hid
      cases t with
      | enqueue n p o => exact ⟨hco, hlat, trivial, none⟩
      | tick => exact ⟨hco, hlat, trivial, none⟩
      | _ => exact hc.elim
  | @insert t id row pg hc hid hst hkey hins =>
      obtain ⟨hco, hlat⟩ := hb.insertRow hst hins
      obtain ⟨row', -, -, -, hrow⟩ := Postgres.row?_insert hins
      have hsome : (pg.row? id).isSome := by rw [hrow, if_pos hid.symm]; rfl
      cases t with
      | enqueue n p o => exact ⟨hco, hlat, hsome, none⟩
      | tick => exact ⟨hco, hlat, hsome, none⟩
      | _ => exact hc.elim
  | insertFails hc hid hkey hins =>
      cases t with
      | enqueue n p o => exact keep same (.inr rfl) trivial none
      | tick => exact keep same (.inr rfl) trivial none
      | _ => exact hc.elim
  -- the draft becomes an enqueued job, in the hash and in a list at once
  | @publishReady t id q p f hc hid hq hpr =>
      cases t with
      | enqueue n p' o =>
          obtain ⟨hco, hlat, henq⟩ := hb.register (q := q) hk hid hq
          have hst := steady_push (targetList q p) (hco.known hP henq)
          refine ⟨?_, hlat.trans hst.later, hst.later.enqueued id henq, none⟩
          exact (hco.steady hst).free
      | tick =>
          obtain ⟨hco, hlat, henq⟩ := hb.register (q := q) hk hid hq
          have hst := steady_push (targetList q p) (hco.known hP henq)
          exact ⟨(hco.steady hst).free, hlat.trans hst.later, trivial, none⟩
      | _ => exact hc.elim
  | @publishDelayed t id q f score hc hid hq =>
      cases t with
      | enqueue n p' o =>
          obtain ⟨hco, hlat, henq⟩ := hb.register (q := q) hk hid hq
          have hst := steady_zadd q score (hco.known hP henq)
          exact ⟨(hco.steady hst).free, hlat.trans hst.later, hst.later.enqueued id henq, none⟩
      | tick =>
          obtain ⟨hco, hlat, henq⟩ := hb.register (q := q) hk hid hq
          have hst := steady_zadd q score (hco.known hP henq)
          exact ⟨(hco.steady hst).free, hlat.trans hst.later, trivial, none⟩
      | _ => exact hc.elim
  | @remember n p o id k hkey =>
      exact ⟨hb.remember hk, ⟨fun _ h => h, fun _ _ => .refl _, fun _ h => h, fun _ h => h⟩, hk,
        none⟩
  | readDue hl =>
      refine keep same (.inr rfl) trivial none
  -- what is claimed was a member of the set, so it is a known job
  | @claimDue now q j todo hj =>
      have hst : Steady P s (s.setDelayed q ((s.redis.zsets (redisKeys.delayed q)).zrem j)) :=
        steady_delayed q fun j' hj' => Or.inl ((SortedSet.mem_zrem _ _ _).mp hj').2
      refine keep hst (.inl rfl) ⟨?_, by simp⟩ none
      exact (hb.listed j (Or.inr (Or.inr (Or.inr ⟨q, hj⟩)))).later hst.later
  | missDue hj => exact keep same (.inl rfl) trivial none
  | readPriority => exact keep same (.inl rfl) ⟨hk.1, by simp⟩ none
  | promote => exact keep (steady_push _ hk.1) (.inl rfl) trivial none
  | @cronFails t l e err ht hl =>
      refine keep same ?_ ?_ none
      · cases t <;> exact .inr rfl
      · cases t <;> trivial
  -- a pull moves a known job; an entry '' would count as no job
  | @pull w x v c r hc hv hpulled =>
      have hmem : v ∈ s.redis.lists (.queue x) := List.mem_of_getLast? hv
      have hv : Known P s v := hb.listed v (Or.inl ⟨x, hmem⟩)
      have h₁ : Steady P s (s.setList (.queue x) (s.redis.lists (.queue x)).dropLast) :=
        steady_remove _ (List.dropLast_subset _)
      have h₂ := steady_push (redisKeys.processing w) (hv.later h₁.later)
      refine keep (h₁.trans h₂) ?_ ?_ none
      · by_cases hempty : v = ""
        · subst hempty
          exact .inl rfl
        · rw [truthy_some hempty]
          exact .inl rfl
      · by_cases hempty : v = ""
        · subst hempty
          trivial
        · rw [truthy_some hempty]
          exact (hv.later h₁.later).later h₂.later
  | pullNothing hc => exact keep same (.inl rfl) trivial none
  | @dispatch w j =>
      refine keep (object w _) (.inl rfl) trivial fun t' ht' => ?_
      rw [List.mem_singleton] at ht'
      subst ht'
      exact hk.later (object w _).later
  | loopAgain =>
      refine keep same (.inl rfl) trivial fun t' ht' => ?_
      rw [List.mem_singleton] at ht'
      subst ht'
      trivial
  | loopExit => exact keep (object _ _) (.inl rfl) trivial none
  | readJob hl => exact keep same (.inr rfl) ⟨knows_call hk, .refl _⟩ none
  | @pushBack w n j h =>
      have h₁ : Steady P s (s.setList (redisKeys.processing w)
          ((s.redis.lists (redisKeys.processing w)).erase j)) :=
        steady_remove _ List.erase_subset
      have h₂ := steady_push (targetList (h.queueName.getD (env.queue w))
        (h.priority.getD "normal")) (hk.1.later h₁.later)
      exact keep (h₁.trans h₂) (.inl rfl) ((hk.1.later h₁.later).later h₂.later) none
  | mark hp => exact keep (steady_update _ hk.1) (.inl rfl) hk none
  | complete hp => exact keep (steady_update _ hk.1) (.inl rfl) hk.1 none
  | retry =>
      exact keep (steady_zadd _ _ hk.1) (.inl rfl) hk.1 none
  | bury => exact keep (steady_push _ hk.1) (.inl rfl) hk.1 none
  | ack => exact keep (steady_remove _ List.erase_subset) (.inl rfl) hk none
  -- after a rejection the call may still go through `handleFailure`
  | brokenMark hp => exact keep (steady_update _ hk) (.inl rfl) hk none
  | brokenRetry => exact keep (steady_zadd _ _ hk) (.inl rfl) hk none
  | brokenBury => exact keep (steady_push _ hk) (.inl rfl) hk none
  | brokenAck => exact keep (steady_remove _ List.erase_subset) (.inl rfl) hk none
  | handler => exact keep same (.inl rfl) hk none
  | @settle w n j l =>
      refine keep (object w _) ?_ ?_ none
      · cases l <;> exact .inl rfl
      · cases l <;> exact hk
  | inert hw hop => exact keep (object _ _) (.inl rfl) (knows_later hk (object _ _).later) none
  | timerFires ht => exact keep same (.inl rfl) trivial none
  | begin hrun => exact keep (object _ _) (.inl rfl) trivial none
  | beginFails hrun => exact keep same (.inl rfl) trivial none
  | register =>
      exact keep (steady_frame { World.JobFrame.refl s with } (by simp) fun _ => rfl) (.inl rfl)
        trivial none
  | firstBeat =>
      exact keep (steady_frame { World.JobFrame.refl s with } rfl (by simp)) (.inl rfl) trivial none
  | launch =>
      refine keep (object _ _) (.inl rfl) trivial fun t' ht' => ?_
      rw [List.mem_singleton] at ht'
      subst ht'
      trivial
  | beat =>
      exact keep (steady_frame { World.JobFrame.refl s with } rfl (by simp)) (.inl rfl) trivial none
  | awaitLoop hloop => exact keep same (.inl rfl) trivial none
  | deregister =>
      exact keep (steady_frame { World.JobFrame.refl s with } (by simp) fun _ => rfl) (.inl rfl)
        trivial none
  | dropHeartbeat =>
      exact keep (steady_delete (by simp) (by simp) (by simp)) (.inl rfl) trivial none
  | finish => exact keep (object _ _) (.inl rfl) trivial none
  | missing hb' =>
      refine keep same ?_ trivial none
      cases l <;> exact .inl rfl
  -- what a janitor reads off a processing list are known jobs
  | readOrphans =>
      exact keep same (.inl rfl) (fun j hj => hb.listed j (Or.inr (Or.inl ⟨_, hj⟩))) none
  | readOrphan => exact keep same (.inl rfl) ⟨exists_targetList _ _, hk⟩ none
  | @pushOrphan w k j todo =>
      have hst := steady_push k (hk.2 j (by simp))
      exact keep hst (.inl rfl) (fun j' hj' => (hk.2 j' hj').later hst.later) none
  | resetRow hp =>
      exact keep (steady_update _ (hk _ (by simp))) (.inl rfl)
        (fun j' hj' => hk j' (List.mem_cons_of_mem _ hj')) none
  | dropList => exact keep (steady_delete (by simp) (by simp) (by simp)) (.inl rfl) trivial none
  | unregister =>
      exact keep (steady_frame { World.JobFrame.refl s with } (by simp) fun _ => rfl) (.inl rfl)
        trivial none
  -- the id of the URL is one that the condition allows, as the route revives its row
  | @selectJob id row hrow hr =>
      refine keep same (.inl rfl) (fun j hj => ?_) none
      rw [List.mem_singleton.mp hj]
      obtain ⟨u, hu, hrow'⟩ := Option.bind_eq_some_iff.mp hrow
      refine ⟨hrev id ?_, u, hu, hb.worked u row hrow' ?_⟩
      · rw [Cmd.revives, hrow, Option.any_some, if_pos hr]
        rfl
      · rintro (h | h) <;> simp [Routes.retriable, h] at hr
  | resetRetry hp => exact keep (steady_update _ (hk _ (by simp))) (.inl rfl) hk none
  | readDlq =>
      exact keep same (.inl rfl)
        (fun j hj => hb.listed j (Or.inr (Or.inr (Or.inl ⟨_, hj⟩)))) none
  | resetRequeue hp => exact keep (steady_update _ (hk _ (by simp))) (.inl rfl) hk none
  | @lift t id q todo n ht =>
      have hst : Steady P s (s.setList (redisKeys.dlq q)
          (removeFirst id n (s.redis.lists (redisKeys.dlq q)))) :=
        steady_remove _ (removeFirst_sublist _ _ _).subset
      cases t with
      | retry _ => exact keep hst (.inl rfl) (knows_later hk hst.later) none
      | requeue _ _ => exact keep hst (.inl rfl) (knows_later hk hst.later) none
      | _ => exact ht.elim
  | readLifted ht =>
      cases t with
      | retry _ => exact keep same (.inl rfl) ⟨exists_targetList _ _, hk⟩ none
      | requeue _ _ => exact keep same (.inl rfl) ⟨exists_targetList _ _, hk⟩ none
      | _ => exact ht.elim
  | @place t id q k todo ht =>
      cases t with
      | retry _ => exact keep (steady_push _ (hk.2 id (by simp))) (.inl rfl) trivial none
      | requeue q b =>
          have hst := steady_push k (hk.2 id (by simp))
          exact keep hst (.inl rfl)
            (fun j hj => (hk.2 j (List.mem_cons_of_mem _ hj)).later hst.later) none
      | _ => exact ht.elim

/-- A process updates the row of a job it knows. -/
theorem known_of_update {id : JobId} {p : RowPatch} (hi : knows P t l s)
    (hp : Permits env t l (.update id p)) : Known P s id := by
  cases hp with
  | quiet hq => exact hq.elim
  | mark _ | complete _ | brokenMark _ => exact knows_call hi
  | resetRow _ | resetRetry _ | resetRequeue _ => exact hi _ (List.mem_cons_self ..)

theorem Coherent.printed_of_update {id : JobId} {p : RowPatch} (h : Coherent AsPrinted s g)
    (hi : knows AsPrinted t l s) (hp : Permits env t l (.update id p)) : Uuid.Printed id :=
  h.printed (known_of_update hi hp).enqueued

/-- Only a request of an operator retries jobs. -/
theorem revives_nothing (hp : Permits env t l c) (hop : ¬ t.operator) :
    ∀ id ∈ c.revives s, P id := by
  intro id hid
  cases c with
  | select _ => exact absurd (operator_of_select hp) hop
  | _ => cases hid

/-- The ids in the statements of a process spell uuids, but for the id a retry request
looks up. -/
theorem readable (hi : knows P t l s) (hp : Permits env t l c) (hop : ¬ ∃ id, c = .select id) :
    c.unreadable = false := by
  cases c with
  | select id => exact absurd ⟨id, rfl⟩ hop
  | update j p =>
      obtain ⟨u, hu, -⟩ := (known_of_update hi hp).2
      rw [Cmd.unreadable, Option.mem_def.mp hu]
      rfl
  | _ => rfl

/-- Without a fault a process is answered. -/
theorem answer_of_exec (h : World.exec env s t c o = some (r, s')) (ho : o.works = true)
    (hi : knows P t l s) (hp : Permits env t l c) (hop : ¬ t.operator) :
    World.answer env s o c = some (r, s') := by
  refine exec_answer h ho (readable hi hp ?_)
  rintro ⟨id, rfl⟩
  exact hop (operator_of_select hp)

/-- The environment touches no record. -/
theorem steady_drift {d : Move} (h : s.drift d = some s') : Steady P s s' := by
  cases d <;> cases h <;> exact steady_frame { World.JobFrame.refl s with } rfl fun _ => rfl

/-- **The records of the jobs fit together in every run.** -/
theorem identity_sound (hP : ∀ j, Uuid.Printed j → P j) :
    (identity env P).Sound (NamedBy P) where
  follows t _ := custody_follows t
  call s t l c o r s' F h := by
    change Coherent P s' (holding (token t (Phase.next t l c r)) +
      (0 + ((forks t c r).map fun t => holding (token t (Phase.start t))).sum + F)) ∧ _
    rw [starts_zero, zero_add, zero_add]
    rcases (exec_cases h.exec).2 with ⟨err, -, -, rfl, rfl⟩ | ⟨ho, ha⟩
    · refine ⟨?_, knows_error h.loc, fun t' ht' => ?_⟩
      · change Coherent P s' (holding (token t (l.afterError t c)) + F)
        rw [token_error]
        exact (Coherent.drop h.inv).free
      · cases c with
        | onWorker w op => cases op <;> cases ht'
        | _ => cases ht'
    · obtain ⟨hco, -, hk, hts⟩ := Coherent.effect h.inv hP h.loc
        (h.allow (Oracle.works_of_takes ho)) (effect_of_answer h.permits ha)
      exact ⟨hco, hk, fun t' ht' => ⟨trivial, hts t' ht'⟩⟩
  stable s t l c o r s' F h t₂ l₂ F₂ _ _ hk := by
    rcases (exec_cases h.exec).2 with ⟨-, -, -, rfl, -⟩ | ⟨ho, ha⟩
    · exact hk
    · exact knows_later hk (Coherent.effect h.inv hP h.loc (h.allow (Oracle.works_of_takes ho))
        (effect_of_answer h.permits ha)).2.1
  start c t hok hc := by
    refine ⟨trivial, ?_, ?_⟩
    · change Coherent P c.store (holding (token t (Phase.start t)) + _)
      rw [token_start]
      exact Coherent.free hc.1
    · exact knows_start hok.1.1 hok.1.2 hok.2
  allows c i o p cmd k hok _ hp hprog ho := hok.2 ho cmd (by simp [nextCmd, hp, hprog])
  drift c d s' _ hc hd :=
    ⟨Coherent.steady hc.1 (steady_drift hd),
      fun t l _ hk => knows_later hk (Steady.later (P := P) (steady_drift hd))⟩

/-- An empty deployment has no records. -/
theorem identity_blank (c : State) (hc : Blank c) : (identity env P).PoolOk c := by
  obtain ⟨now, room, rfl⟩ := hc
  refine ⟨?_, by simp⟩
  have henq : ∀ j, ¬ World.enqueued { clock := now } j := fun j => by simp [World.enqueued]
  constructor
  · simp [Discipline.total]
  · simp [Discipline.total]
  · exact fun j hj => absurd hj (henq j)
  · exact fun j hj => absurd hj (henq j)
  · exact fun j hj => absurd hj (henq j)
  · intro j hj
    simp [Listed] at hj
  · intro j row hrow
    cases hrow
  · intro k v e hv
    cases hv

end Step

/-! ## What results about runs use -/

section Result

variable {env : Env} {P : JobId → Prop} {c : State} {p : Process}

/-- The records fit together, the draft of the process included, and the process
knows what it should. -/
def Fit (P : JobId → Prop) (s : World) (t : Task) (l : Phase) : Prop :=
  (∃ g, Coherent P s (holding (token t l) + g)) ∧ knows P t l s

/-- The phase of a process. -/
abbrev phaseOf (env : Env) (p : Process) : Phase := (custody env).phase p.task p.hist

/-- The records hold in every reachable state. -/
theorem poolOk_of_reach (hP : ∀ j, Uuid.Printed j → P j)
    (hc : (machine env).Reach (NamedBy P) Blank c) : (identity env P).PoolOk c :=
  (identity_sound hP).reach identity_blank hc

/-- Whatever spellings operators use, they are spellings. -/
theorem poolOk_of_named (hc : (machine env).Reach AnythingNamed Blank c) :
    (identity env fun _ => True).PoolOk c :=
  poolOk_of_reach (fun _ _ => trivial)
    (hc.mono (fun c a h => ⟨h, spelled_anyhow c a⟩) fun _ => id)

/-- Without operators all ids are spelled the way Postgres prints them. -/
theorem poolOk_of_faultFree (hc : (machine env).Reach FaultFree Blank c) :
    (identity env AsPrinted).PoolOk c :=
  poolOk_of_reach asPrinted_of_printed
    ((Machine.Reach.spelled (fun _ _ h => h.2) hc).mono (fun _ _ h => ⟨h.1.named, h.2⟩) fun _ => id)

/-- Every process of a reachable state fits. -/
theorem fit_of_mem (hc : (identity env P).PoolOk c) (hp : p ∈ c.pool) :
    Fit P c.store p.task (phaseOf env p) := by
  refine ⟨?_, (hc.2 p hp).2.1⟩
  obtain ⟨l₁, l₂, hpool⟩ := List.append_of_mem hp
  refine ⟨(identity env P).total l₁ + (identity env P).total l₂, ?_⟩
  have hgauge : (identity env P).gauge p = holding (token p.task (phaseOf env p)) := by
    have htally : (custody env).tally (identity env P).emit p.task p.hist = 0 :=
      Protocol.tally_zero _ _ _
    rw [Discipline.gauge, htally, add_zero]
    rfl
  have htotal : (identity env P).total c.pool = holding (token p.task (phaseOf env p)) +
      ((identity env P).total l₁ + (identity env P).total l₂) := by
    rw [hpool, Discipline.total_append, ← hgauge]
    simp [Discipline.total, add_left_comm]
  exact htotal ▸ hc.1

/-- The job a call to `enqueue` returned is visible in Redis. -/
theorem enqueued_of_returned (hc : (identity env P).PoolOk c) (hp : p ∈ c.pool) {j : JobId}
    {n : String} {v : Option Json} {o : EnqueueOptions} (ht : p.task = .enqueue n v o)
    (hr : p.prog = .ret (some j)) : c.store.enqueued j := by
  obtain ⟨-, hk, hf⟩ := hc.2 p hp
  rw [ht, hr] at hf
  rw [ht] at hk
  obtain ⟨id, hid, hl⟩ := hf
  cases hid
  rcases hl with hl | hl <;> rw [hl] at hk <;> exact hk

end Result

end Identity

end NexusQueue
