/-
# Jobs stay in the lists of their own queue and priority

Seven places compute where a job goes next, and they take the name of the queue from the
hash, from the configuration of the worker, from the URL of a request or from the row.  As
long as a requeue request names jobs of the dead-letter queue it is about, all of them
agree with the hash: every occurrence of a job in a ready list, a delayed set or a
dead-letter queue is in the one its hash names, whatever fails and whoever halts.
-/
import NexusQueue.Audit

namespace NexusQueue

/-- A requeue request that lists its jobs lists jobs of that dead-letter queue. -/
def World.buries (s : World) : Task → Prop
  | .requeue q b => ∀ ids ∈ b.jobIds, ∀ id ∈ ids, id ∈ s.redis.lists (redisKeys.dlq q)
  | _ => True

instance (s : World) : (t : Task) → Decidable (s.buries t)
  | .requeue q b => inferInstanceAs
      (Decidable (∀ ids ∈ b.jobIds, ∀ id ∈ ids, id ∈ s.redis.lists (redisKeys.dlq q)))
  | .enqueue _ _ _ | .tick | .start _ | .loop _ | .processOne _ _ _ | .stop _ | .heartbeat _
  | .janitor | .addJob _ | .removeJob _ | .retry _ => .isTrue trivial

/-- Anything may happen, and requests requeue jobs of the dead-letter queue they name. -/
def DlqBound (c : State) : Action → Prop
  | .start t => t.external ∧ c.store.buries t
  | _ => True

instance (c : State) : (a : Action) → Decidable (DlqBound c a)
  | .start t => inferInstanceAs (Decidable (t.external ∧ c.store.buries t))
  | .call _ _ | .halt _ | .drift _ => .isTrue trivial

/-- And operators use the spellings of uuids that have the property. -/
def DlqBoundBy (P : JobId → Prop) (c : State) (a : Action) : Prop := DlqBound c a ∧ Spelled P c a

instance (P : JobId → Prop) [DecidablePred P] (c : State) (a : Action) :
    Decidable (DlqBoundBy P c a) :=
  inferInstanceAs (Decidable (DlqBound c a ∧ Spelled P c a))

/-- Jobs of a dead-letter queue are visible, so no operator makes up an id. -/
theorem Identity.named_of_dlqBound {env : Env} {P : JobId → Prop} {c : State}
    (hP : ∀ j, Uuid.Printed j → P j) (hc : (machine env).Reach (DlqBoundBy P) Blank c) :
    (machine env).Reach (NamedBy P) Blank c := by
  induction hc with
  | init hi => exact .init hi
  | @step c c' a _ hok hs ih =>
      obtain ⟨hbound, hspelled⟩ := hok
      refine .step a ih ⟨?_, hspelled⟩ hs
      have hco := (Identity.poolOk_of_reach hP ih).1
      cases a with
      | start t =>
          refine ⟨hbound.1, ?_⟩
          cases t with
          | requeue q b =>
              exact fun ids hids id hid =>
                (hco.listed id (Or.inr (Or.inr (Or.inl ⟨q, hbound.2 ids hids id hid⟩)))).2
          | _ => trivial
      | _ => trivial

namespace Routing

/-! ## Where a job belongs -/

/-- The queue a job hash names. -/
def queueOf (s : World) (j : JobId) : Option QueueName :=
  (s.redis.jobs (redisKeys.job j)).queueName

/-- The priority a job hash names. -/
def priorityOf (s : World) (j : JobId) : String :=
  (s.redis.jobs (redisKeys.job j)).priority.getD "normal"

/-- The key is the ready list of the queue and the priority that the job hash names. -/
def Home (s : World) (j : JobId) (k : Key) : Prop :=
  ∃ q, queueOf s j = some q ∧ k = targetList q (priorityOf s j)

/-- The id is another spelling of a uuid, or the hash of the job names the queue. -/
def Belongs (s : World) (j : JobId) (q : QueueName) : Prop :=
  Uuid.Printed j → queueOf s j = some q

/-- The id is another spelling of a uuid, or the key is the ready list of the job. -/
def AtHome (s : World) (j : JobId) (k : Key) : Prop := Uuid.Printed j → Home s j k

/-- Every occurrence of a job is in a list of its own. -/
structure Routed (s : World) : Prop where
  ready : ∀ x j, j ∈ s.redis.lists (.queue x) → AtHome s j (.queue x)
  delayed : ∀ q j, j ∈ s.redis.zsets (.delayed q) → Belongs s j q
  dlq : ∀ q j, j ∈ s.redis.lists (.dlq q) → Belongs s j q

/-- What a process knows about where the jobs it handles belong. -/
def knows : Task → Phase → World → Prop
  | .tick, .inHand _ q j _ _, s => Belongs s j q
  | .janitor, .routing _ k j _, s => AtHome s j k
  | .retry _, .resetting j q _, s | .retry _, .lifted j q _, s => Belongs s j q
  | .retry _, .placing j _ k _, s => AtHome s j k
  | .requeue q _, .requeuing todo, s => ∀ j ∈ todo, Belongs s j q
  | .requeue q _, .resetting j q' todo, s | .requeue q _, .lifted j q' todo, s =>
      q' = q ∧ ∀ j' ∈ j :: todo, Belongs s j' q
  | .requeue q _, .placing j _ k todo, s => AtHome s j k ∧ ∀ j' ∈ todo, Belongs s j' q
  | _, _, _ => True

/-- Routing as a discipline over the custody protocol and the notes. -/
def routing (env : Env) (P : JobId → Prop) :
    Discipline (machine env) ((custody env).prod Audit.audit) Unit where
  good _ := True
  val _ _ := 0
  emit _ _ _ _ := 0
  loc t l := knows t l.1
  inv s _ := Routed s
  allow s _ t l c o := Identity.Fit P s t l.1 ∧ Audit.Recorded P s ∧ Audit.knows P t l.2 s ∧
    (o.works → ∀ id ∈ c.revives s, P id)
  post t r l := Concluded t r l.1 ∧ True

section Moves

variable {P : JobId → Prop} {s s' : World} {t : Task} {l : Phase} {j : JobId} {k : Key}
  {q : QueueName}

/-- A visible job names a queue. -/
theorem exists_queueOf (hrec : Audit.Recorded P s) (h : s.enqueued j) :
    ∃ q, queueOf s j = some q := by
  obtain ⟨row, -, hagree⟩ := hrec.row j h
  exact ⟨_, hagree.queueName⟩

/-- A job whose hash names a queue is visible, and the hash never changes its mind. -/
theorem identity_later (hrec : Audit.Recorded P s) (hl : Identity.Later s s')
    (hj : Uuid.Printed j) (h : queueOf s j = some q) :
    (s'.redis.jobs (redisKeys.job j)).SameIdentity (s.redis.jobs (redisKeys.job j)) := by
  have hknown := hrec.hash j fun hempty => by
    rw [queueOf, hempty] at h
    cases h
  exact hl.identity j (.inl (hknown.enqueued_of_printed hj))

/-- It belongs to the same queue later. -/
theorem Belongs.later (hrec : Audit.Recorded P s) (hl : Identity.Later s s')
    (h : Belongs s j q) : Belongs s' j q := by
  intro hj
  rw [queueOf, (identity_later hrec hl hj (h hj)).queueName]
  exact h hj

theorem AtHome.later (hrec : Audit.Recorded P s) (hl : Identity.Later s s') (h : AtHome s j k) :
    AtHome s' j k := by
  intro hj
  obtain ⟨q, hq, hk⟩ := h hj
  have hsame := identity_later hrec hl hj hq
  refine ⟨q, ?_, ?_⟩
  · rw [queueOf, hsame.queueName]
    exact hq
  · rw [priorityOf, hsame.priority]
    exact hk

/-- What a process knows of a hash that it has read, is true of the job. -/
theorem belongs_of_same {h : JobHash} (hrec : Audit.Recorded P s) (hj : Identity.Known P s j)
    (hsame : h.SameIdentity (s.redis.jobs (redisKeys.job j))) (d : QueueName) :
    Belongs s j (h.queueName.getD d) := by
  intro hprinted
  obtain ⟨q, hq⟩ := exists_queueOf hrec (hj.enqueued_of_printed hprinted)
  rw [hsame.queueName]
  change queueOf s j = some ((queueOf s j).getD d)
  rw [hq]
  rfl

theorem home_of_same {h : JobHash} (hrec : Audit.Recorded P s) (hj : Identity.Known P s j)
    (hsame : h.SameIdentity (s.redis.jobs (redisKeys.job j))) (d : QueueName) :
    AtHome s j (targetList (h.queueName.getD d) (h.priority.getD "normal")) := fun hprinted =>
  ⟨_, belongs_of_same hrec hj hsame d hprinted, by rw [hsame.priority]; rfl⟩

/-- What a process knows stays true. -/
theorem knows_later (hrec : Audit.Recorded P s) (hl : Identity.Later s s') (h : knows t l s) :
    knows t l s' := by
  have todo : ∀ {ids : List JobId} {q}, (∀ j ∈ ids, Belongs s j q) → ∀ j ∈ ids, Belongs s' j q :=
    fun h j hj => (h j hj).later hrec hl
  cases t with
  | tick =>
      cases l with
      | inHand now q j k ids => exact Belongs.later hrec hl h
      | _ => trivial
  | janitor =>
      cases l with
      | routing w k j ids => exact AtHome.later hrec hl h
      | _ => trivial
  | retry id =>
      cases l with
      | resetting _ q _ | lifted _ q _ => exact Belongs.later hrec hl h
      | placing _ _ k _ => exact AtHome.later hrec hl h
      | _ => trivial
  | requeue q b =>
      cases l with
      | requeuing ids => exact todo h
      | resetting _ q' ids | lifted _ q' ids => exact ⟨h.1, todo h.2⟩
      | placing _ _ k ids => exact ⟨AtHome.later hrec hl h.1, todo h.2⟩
      | _ => trivial
  | _ => cases l <;> trivial

/-- A request that passes over a job knows the others. -/
theorem knows_passOver {b : RequeueBody} (h : knows (.requeue q b) l s) :
    knows (.requeue q b) l.passOver s := by
  cases l with
  | requeuing todo => exact fun j hj => h j (List.mem_of_mem_tail hj)
  | resetting j q' todo | lifted j q' todo => exact fun j' hj' => h.2 j' (List.mem_cons_of_mem _ hj')
  | placing j q' k todo => exact h.2
  | _ => trivial

/-- After a rejection a process still knows enough. -/
theorem knows_error {c : Cmd} (h : knows t l s) : knows t (l.afterError t c) s := by
  cases t with
  | requeue q b => cases c <;> first | exact h | exact knows_passOver h
  | processOne w n j => cases l <;> cases c <;> trivial
  | _ => trivial

/-- New occurrences are where the jobs belong. -/
structure Arrives (s s' : World) : Prop where
  ready : ∀ x j, j ∈ s'.redis.lists (.queue x) →
    j ∈ s.redis.lists (.queue x) ∨ AtHome s' j (.queue x)
  delayed : ∀ q j, j ∈ s'.redis.zsets (.delayed q) →
    j ∈ s.redis.zsets (.delayed q) ∨ Belongs s' j q
  dlq : ∀ q j, j ∈ s'.redis.lists (.dlq q) → j ∈ s.redis.lists (.dlq q) ∨ Belongs s' j q

/-- Then all occurrences are. -/
theorem Routed.arrives (h : Routed s) (hrec : Audit.Recorded P s) (hl : Identity.Later s s')
    (ha : Arrives s s') : Routed s' where
  ready x j hj := (ha.ready x j hj).elim (fun hj => (h.ready x j hj).later hrec hl) id
  delayed q j hj := (ha.delayed q j hj).elim (fun hj => (h.delayed q j hj).later hrec hl) id
  dlq q j hj := (ha.dlq q j hj).elim (fun hj => (h.dlq q j hj).later hrec hl) id

/-- No list and no delayed set changes. -/
theorem arrives_same (hl : s'.redis.lists = s.redis.lists) (hz : s'.redis.zsets = s.redis.zsets) :
    Arrives s s' where
  ready _ _ hj := Or.inl (hl ▸ hj)
  delayed _ _ hj := Or.inl (hz ▸ hj)
  dlq _ _ hj := Or.inl (hl ▸ hj)

/-- Nothing about jobs changes. -/
theorem arrives_frame (h : s.JobFrame s') : Arrives s s' where
  ready x _ hj := Or.inl (h.ready x ▸ hj)
  delayed q _ hj := Or.inl (h.delayed q ▸ hj)
  dlq q _ hj := Or.inl (h.dlq q ▸ hj)

/-- The lists change, and what is new in them belongs there. -/
theorem arrives_lists {lists : Key → List String}
    (hr : ∀ x j, j ∈ lists (.queue x) → j ∈ s.redis.lists (.queue x) ∨ AtHome s j (.queue x))
    (hd : ∀ q j, j ∈ lists (.dlq q) → j ∈ s.redis.lists (.dlq q) ∨ Belongs s j q) :
    Arrives s { s with redis := { s.redis with lists := lists } } where
  ready := hr
  delayed _ _ hj := Or.inl hj
  dlq := hd

/-- A job is pushed to a list it belongs to. -/
theorem arrives_push (hr : ∀ x, k = .queue x → AtHome s j k)
    (hd : ∀ q, k = .dlq q → Belongs s j q) : Arrives s (s.push k j) := by
  have mem : ∀ {k' : Key} {j' : JobId}, j' ∈ (s.push k j).redis.lists k' →
      j' ∈ s.redis.lists k' ∨ j' = j ∧ k' = k := by
    intro k' j' hj'
    by_cases hk : k' = k
    · subst hk
      simp only [Function.update_self, List.mem_cons] at hj'
      exact hj'.symm.imp id fun h => ⟨h, rfl⟩
    · simp only [Function.update_of_ne hk] at hj'
      exact Or.inl hj'
  refine arrives_lists (fun x j' hj' => ?_) (fun q j' hj' => ?_)
  · rcases mem hj' with hj' | ⟨rfl, hk⟩
    · exact Or.inl hj'
    · exact Or.inr (hk ▸ hr x hk.symm)
  · rcases mem hj' with hj' | ⟨rfl, hk⟩
    · exact Or.inl hj'
    · exact Or.inr (hd q hk.symm)

/-- Ids are removed from a list. -/
theorem arrives_remove {ids : List String} (hl : ids ⊆ s.redis.lists k) :
    Arrives s (s.setList k ids) := by
  have mem : ∀ {k' : Key} {j' : JobId}, j' ∈ (s.setList k ids).redis.lists k' →
      j' ∈ s.redis.lists k' := by
    intro k' j' hj'
    by_cases hk : k' = k
    · subst hk
      simp only [Function.update_self] at hj'
      exact hl hj'
    · simpa only [Function.update_of_ne hk] using hj'
  exact arrives_lists (fun _ _ hj' => Or.inl (mem hj')) (fun _ _ hj' => Or.inl (mem hj'))

/-- A delayed set changes, and what is new in it belongs there. -/
theorem arrives_delayed {z : SortedSet String ℚ}
    (h : ∀ j ∈ z, j ∈ s.redis.zsets (.delayed q) ∨ Belongs s j q) :
    Arrives s (s.setDelayed q z) where
  ready _ _ hj := Or.inl hj
  delayed q' j hj := by
    by_cases hq : q' = q
    · subst hq
      simp only [Function.update_self] at hj
      exact h j hj
    · have hne : Key.delayed q' ≠ Key.delayed q := fun h => hq (Key.delayed.inj h)
      simp only [Function.update_of_ne hne] at hj
      exact Or.inl hj
  dlq _ _ hj := Or.inl hj

theorem arrives_zadd {score : ℚ} (h : Belongs s j q) :
    Arrives s (s.setDelayed q ((s.redis.zsets (redisKeys.delayed q)).zadd score j)) := by
  refine arrives_delayed fun j' hj' => ?_
  rcases (SortedSet.mem_zadd _ _ _ _).mp hj' with rfl | hj'
  · exact Or.inr h
  · exact Or.inl hj'

/-- Two changes in a row, the second of which touches no hash. -/
theorem Arrives.trans {s₂ : World} (h : Arrives s s₂) (h' : Arrives s₂ s')
    (hj : s'.redis.jobs = s₂.redis.jobs) : Arrives s s' := by
  have hqueue : ∀ {j q}, Belongs s₂ j q → Belongs s' j q := by
    intro j q h hprinted
    rw [queueOf, hj]
    exact h hprinted
  have hhome : ∀ {j k}, AtHome s₂ j k → AtHome s' j k := by
    intro j k h hprinted
    obtain ⟨q, hq, hk⟩ := h hprinted
    exact ⟨q, hqueue (fun _ => hq) hprinted, by rw [priorityOf, hj]; exact hk⟩
  refine ⟨fun x j hm => ?_, fun q j hm => ?_, fun q j hm => ?_⟩
  · rcases h'.ready x j hm with hm | hm
    · exact (h.ready x j hm).imp id hhome
    · exact Or.inr hm
  · rcases h'.delayed q j hm with hm | hm
    · exact (h.delayed q j hm).imp id hqueue
    · exact Or.inr hm
  · rcases h'.dlq q j hm with hm | hm
    · exact (h.dlq q j hm).imp id hqueue
    · exact Or.inr hm

/-- A job is pushed to the ready list it belongs to. -/
theorem arrives_home (h : AtHome s j k) (hk : ∃ x, k = .queue x) : Arrives s (s.push k j) := by
  refine arrives_push (fun _ _ => h) fun q hq => ?_
  obtain ⟨x, rfl⟩ := hk
  cases hq

/-- A key is deleted that is no list of jobs waiting. -/
theorem arrives_delete (hqueue : ∀ x, k ≠ .queue x) (hdlq : ∀ q, k ≠ .dlq q)
    (hdelayed : ∀ q, k ≠ .delayed q) : Arrives s (s.delete k) where
  ready x j hj := by
    simp only [Write.apply, Function.update_of_ne (hqueue x).symm] at hj
    exact Or.inl hj
  delayed q j hj := by
    simp only [Write.apply, Function.update_of_ne (hdelayed q).symm] at hj
    exact Or.inl hj
  dlq q j hj := by
    simp only [Write.apply, Function.update_of_ne (hdlq q).symm] at hj
    exact Or.inl hj

/-- The hash of a job that has just been published names queue and priority. -/
theorem home_register {f : JobHash} {p : String} (hq : f.queueName = some q)
    (hp : f.priority = some p) : Home (s.register j q f) j (targetList q p) := by
  refine ⟨q, ?_, ?_⟩
  · rw [queueOf, Audit.hash_register, if_pos rfl]
    simp [JobHash.merge, hq]
  · rw [priorityOf, Audit.hash_register, if_pos rfl]
    simp [JobHash.merge, hp]

theorem queueOf_register {f : JobHash} (hq : f.queueName = some q) :
    queueOf (s.register j q f) j = some q := by
  rw [queueOf, Audit.hash_register, if_pos rfl]
  simp [JobHash.merge, hq]

end Moves

section Step

variable {env : Env} {s s' : World} {t : Task} {l l' : Phase} {x : Audit.Note} {c : Cmd}
  {P : JobId → Prop} {o : Oracle} {r : Except Err c.Resp} {ts : List Task} {g : JobId → ℕ}

/-- The queue that a call sends its job to, is read off the hash noted. -/
theorem belongs_noted {w : WorkerId} {n : ℕ} {j : JobId} {q : QueueName}
    (hrec : Audit.Recorded P s) (hx : Audit.knows P (.processOne w n j) x s)
    (hq : ∃ h, x = .hash h ∧ q = h.queueName.getD "default") : Belongs s j q := by
  obtain ⟨h, rfl, rfl⟩ := hq
  obtain ⟨hj, hsame⟩ := hx w n j rfl
  exact belongs_of_same hrec hj hsame _

/-- **Step lemma.**  Jobs stay where they belong, and the process knows what it needs to
know next. -/
theorem Routed.effect (h : Routed s) (hco : Identity.Coherent P s g) (hi : Identity.knows P t l s)
    (hrec : Audit.Recorded P s) (hx : Audit.knows P t x s) (hp : Audit.audit.permits t x c)
    (hk : knows t l s) (hl : Identity.Later s s') (he : Effect env s t l c r s' l' ts) :
    Routed s' ∧ knows t l' s' := by
  -- every arrival is where the hash of the job says
  have keep : Arrives s s' → knows t l' s' → Routed s' ∧ knows t l' s' :=
    fun ha hn => ⟨h.arrives hrec hl ha, hn⟩
  have frame : ∀ {s'}, s.Frame s' → Arrives s s' := fun hf => arrives_frame hf.toJobFrame
  have same : Arrives s s := frame (.refl s)
  have object : ∀ w obj, Arrives s (s.setWorker w obj) := fun w obj =>
    frame { World.Frame.refl s with }
  cases he with
  | still hn hf hw => exact keep (frame hf) (knows_later hrec hl hk)
  | @publishReady t id q p f hc hid hq hpr =>
      have ha := arrives_home (fun _ => home_register (s := s) (j := id) hq hpr)
        (exists_targetList q p)
      refine keep ⟨ha.ready, ha.delayed, ha.dlq⟩ ?_
      cases t <;> first | exact hc.elim | trivial
  | @publishDelayed t id q f score hc hid hq =>
      have ha : Arrives _ ((s.register id q f).setDelayed q
          (((s.register id q f).redis.zsets (redisKeys.delayed q)).zadd score id)) :=
        arrives_zadd fun _ => queueOf_register hq
      refine keep ⟨ha.ready, ha.delayed, ha.dlq⟩ ?_
      cases t <;> first | exact hc.elim | trivial
  | draw hc _ _ _ | insert hc _ _ _ _ | insertFails hc _ _ _ =>
      refine keep (arrives_same rfl rfl) ?_
      cases t <;> first | exact hc.elim | trivial
  | remember hkey => exact keep (arrives_same rfl rfl) trivial
  -- the job was in the delayed set of its queue, and the tick remembers which
  | @claimDue now q j todo hj =>
      refine keep (arrives_delayed fun j' hj' => Or.inl ((SortedSet.mem_zrem _ _ _).mp hj').2) ?_
      exact (h.delayed q j hj).later hrec hl
  | readPriority => exact keep same hk
  | @promote now q j k todo =>
      obtain rfl := hi.2 k rfl
      exact keep (arrives_home (fun hj => ⟨q, hk hj, rfl⟩) (exists_targetList q _)) trivial
  | @cronFails t l e err ht hfree =>
      refine keep same ?_
      cases t <;> trivial
  | @pull w x v c r hc hv hpulled =>
      have h₁ : Arrives s (s.setList (.queue x) (s.redis.lists (.queue x)).dropLast) :=
        arrives_remove (List.dropLast_subset _)
      refine keep (h₁.trans (arrives_push (by simp) (by simp)) rfl) ?_
      cases truthy (some v) <;> trivial
  -- the hash that the call has read is still what the hash says
  | @pushBack w n j f =>
      have h₁ : Arrives s (s.setList (redisKeys.processing w)
          ((s.redis.lists (redisKeys.processing w)).erase j)) :=
        arrives_remove List.erase_subset
      refine keep (h₁.trans (arrives_home ?_ (exists_targetList _ _)) rfl) trivial
      exact home_of_same hrec hi.1 hi.2 _
  | @retry w n j f score =>
      exact keep (arrives_zadd (belongs_of_same hrec hi.1 hi.2 _)) trivial
  | @bury w n j f =>
      refine keep (arrives_push (by simp) fun q hq => ?_) trivial
      cases hq
      exact belongs_of_same hrec hi.1 hi.2 _
  | ack | brokenAck => exact keep (arrives_remove List.erase_subset) trivial
  -- the queue is the one that the call has noted, or the default
  | @brokenRetry w n j q score => exact keep (arrives_zadd (belongs_noted hrec hx hp)) trivial
  | @brokenBury w n j q =>
      refine keep (arrives_push (by simp) fun q' hq => ?_) trivial
      cases hq
      exact belongs_noted hrec hx hp
  | @handler w n j l name v a r =>
      refine keep same ?_
      cases l <;> trivial
  | @settle w n j l =>
      refine keep (object w _) ?_
      cases l <;> trivial
  | inert hw hop => exact keep (object _ _) (knows_later hrec hl hk)
  | dropHeartbeat | dropList => exact keep (arrives_delete (by simp) (by simp) (by simp)) trivial
  | @missing w l hb =>
      refine keep same ?_
      cases l <;> trivial
  | @readOrphan w j todo =>
      exact keep same (home_of_same hrec (hi j (List.mem_cons_self ..)) (.refl _) _)
  | pushOrphan => exact keep (arrives_home hk hi.1) trivial
  -- under a printed id the row is that of the job, and it names the queue of the hash
  | @selectJob id row hrow hr =>
      refine keep same ?_
      intro hprinted
      rw [Postgres.select_of_printed hprinted] at hrow
      have hj : s.enqueued id := by
        refine hco.worked id row hrow ?_
        rintro (h | h) <;> simp [Routes.retriable, h] at hr
      obtain ⟨row', hrow', hagree⟩ := hrec.row id hj
      rw [hrow] at hrow'
      cases hrow'
      exact hagree.queueName
  | resetRetry hp' =>
      exact keep (arrives_same rfl rfl) (knows_later hrec hl hk)
  -- ids of the dead-letter queue belong to it
  | @readDlq q b => exact keep same fun j hj => h.dlq q j hj
  | resetRequeue hp' =>
      exact keep (arrives_same rfl rfl)
        ⟨rfl, fun j hj => (hk j hj).later hrec hl⟩
  | @lift t id q todo n ht =>
      refine keep (arrives_remove (removeFirst_sublist _ _ _).subset) ?_
      cases t with
      | retry _ => exact Belongs.later hrec hl hk
      | requeue _ _ => exact ⟨hk.1, fun j hj => (hk.2 j hj).later hrec hl⟩
      | _ => exact ht.elim
  | @readLifted t id q todo ht =>
      refine keep same ?_
      cases t with
      | retry _ => exact fun hj => ⟨q, hk hj, rfl⟩
      | requeue q' b =>
          obtain ⟨rfl, hk⟩ := hk
          exact ⟨fun hj => ⟨q, hk id (List.mem_cons_self ..) hj, rfl⟩,
            fun j hj => hk j (List.mem_cons_of_mem _ hj)⟩
      | _ => exact ht.elim
  | @place t id q k todo ht =>
      cases t with
      | retry _ => exact keep (arrives_home hk hi.1) trivial
      | requeue q' b =>
          exact keep (arrives_home hk.1 hi.1) fun j hj => (hk.2 j hj).later hrec hl
      | _ => exact ht.elim
  | clock | lookupMiss | lookupHit | readDue | missDue | pullNothing | loopAgain | readJob
  | timerFires | beginFails | awaitLoop | readOrphans => exact keep same trivial
  | dispatch | loopExit | begin | launch | finish => exact keep (object _ _) trivial
  | mark | complete | brokenMark | resetRow =>
      exact keep (arrives_same rfl rfl) trivial
  | register | firstBeat | beat | deregister | unregister =>
      exact keep (arrives_same rfl rfl) trivial

/-- A request that is started knows where the jobs it lists belong. -/
theorem knows_start (h : Routed s) (ht : t.external) (hb : s.buries t) :
    knows t (Phase.start t) s := by
  cases t with
  | requeue q b =>
      rcases Phase.start_requeue q b with hl | ⟨jobIds, hids, hl⟩
      · rw [hl]
        trivial
      · rw [hl]
        exact fun j hj => h.dlq q j (hb jobIds hids j hj)
  | processOne _ _ _ => exact ht.elim
  | _ => trivial

/-- Time and crashes move no job. -/
theorem arrives_drift {m : Move} (hm : s.drift m = some s') : Arrives s s' := by
  cases m <;> cases hm <;> exact arrives_same rfl rfl

/-- **Jobs stay where they belong in every run.** -/
theorem routing_sound (hP : ∀ j, Uuid.Printed j → P j) : (routing env P).Sound fun c a =>
    DlqBoundBy P c a ∧ (Identity.identity env P).PoolOk c ∧ (Audit.auditing env P).PoolOk c where
  follows t _ := follows_prod (custody_follows t) (Audit.audit_follows t)
  call s t l c o r s' F h := by
    obtain ⟨hp, hx⟩ := h.permits
    obtain ⟨⟨⟨g, hco⟩, hi⟩, hrec, hnote, hrev⟩ := h.allow
    rcases (exec_cases h.exec).2 with ⟨err, -, -, rfl, rfl⟩ | ⟨ho, ha⟩
    · refine ⟨h.inv, knows_error h.loc, fun t' ht' => ?_⟩
      rcases forks_cases ht' with ⟨w, rfl⟩ | ⟨w, n, j, rfl⟩ <;> exact ⟨trivial, trivial⟩
    · have he := effect_of_answer hp ha
      have hl := (Identity.Coherent.effect hco hP hi (hrev (Oracle.works_of_takes ho)) he).2.1
      obtain ⟨hr, hk⟩ := Routed.effect h.inv hco hi hrec hnote hx h.loc hl he
      refine ⟨hr, hk, fun t' ht' => ?_⟩
      rcases forks_cases ht' with ⟨w, rfl⟩ | ⟨w, n, j, rfl⟩ <;> exact ⟨trivial, trivial⟩
  stable s t l c o r s' F h t₂ l₂ F₂ _ _ hk := by
    obtain ⟨⟨⟨g, hco⟩, hi⟩, hrec, -, hrev⟩ := h.allow
    rcases (exec_cases h.exec).2 with ⟨-, -, -, rfl, -⟩ | ⟨ho, ha⟩
    · exact hk
    · have he := effect_of_answer h.permits.1 ha
      have hl := (Identity.Coherent.effect hco hP hi (hrev (Oracle.works_of_takes ho)) he).2.1
      exact knows_later hrec hl hk
  start c t hok hc := ⟨trivial, hc.1, knows_start hc.1 hok.1.1.1 hok.1.1.2⟩
  allows c i o p cmd k hok _ hp hprog := by
    have hmem := List.mem_of_getElem? hp
    rw [Protocol.prod_phase]
    refine ⟨Identity.fit_of_mem hok.2.1 hmem, hok.2.2.1, ?_,
      fun ho => hok.1.2 ho cmd (by simp [nextCmd, hp, hprog])⟩
    have hnote := (hok.2.2.2 p hmem).2.1
    rwa [Protocol.prod_phase] at hnote
  drift c m s' hok hc hm := by
    have hl := Identity.Steady.later (P := P) (Identity.steady_drift hm)
    have hrec := hok.2.2.1
    exact ⟨hc.1.arrives hrec hl (arrives_drift hm), fun t l _ hk => knows_later hrec hl hk⟩

end Step

section Result

variable {env : Env} {P : JobId → Prop} {c : State}

/-- The discipline holds in every reachable state. -/
theorem poolOk_of_reach (hP : ∀ j, Uuid.Printed j → P j)
    (hc : (machine env).Reach (DlqBoundBy P) Blank c) : (routing env P).PoolOk c := by
  have hblank : ∀ c, Blank c → (routing env P).PoolOk c := by
    rintro c ⟨now, room, rfl⟩
    refine ⟨⟨fun x j hj => ?_, fun q j hj => ?_, fun q j hj => ?_⟩, by simp⟩ <;> simp at hj
  have hinv : ∀ c, (machine env).Reach (DlqBoundBy P) Blank c →
      (Identity.identity env P).PoolOk c ∧ (Audit.auditing env P).PoolOk c := fun c hc =>
    ⟨Identity.poolOk_of_reach hP (Identity.named_of_dlqBound hP hc),
      Audit.audited hP (Identity.named_of_dlqBound hP hc)⟩
  exact (routing_sound hP).reach hblank (hc.with_invariant hinv)

section Printed

variable {j : JobId} {q : QueueName}

/-- An id in a list is the uuid of a job, as Postgres prints it. -/
theorem printed_of_listed (hc : (machine env).Reach (DlqBoundBy AsPrinted) Blank c)
    (hj : Identity.Listed c.store j) : Uuid.Printed j := by
  have hnamed := Identity.named_of_dlqBound asPrinted_of_printed hc
  have hco := (Identity.poolOk_of_reach asPrinted_of_printed hnamed).1
  exact hco.printed (hco.listed j hj).enqueued

theorem home_of_ready (hc : (machine env).Reach (DlqBoundBy AsPrinted) Blank c) {x : String}
    (hj : j ∈ c.store.redis.lists (.queue x)) : Home c.store j (.queue x) := by
  have hrouted := (poolOk_of_reach asPrinted_of_printed hc).1
  exact hrouted.ready x j hj (printed_of_listed hc (Or.inl ⟨x, hj⟩))

theorem queueOf_of_delayed (hc : (machine env).Reach (DlqBoundBy AsPrinted) Blank c)
    (hj : j ∈ c.store.redis.zsets (redisKeys.delayed q)) : queueOf c.store j = some q := by
  have hrouted := (poolOk_of_reach asPrinted_of_printed hc).1
  exact hrouted.delayed q j hj (printed_of_listed hc (Or.inr (Or.inr (Or.inr ⟨q, hj⟩))))

theorem queueOf_of_dlq (hc : (machine env).Reach (DlqBoundBy AsPrinted) Blank c)
    (hj : j ∈ c.store.redis.lists (redisKeys.dlq q)) : queueOf c.store j = some q := by
  have hrouted := (poolOk_of_reach asPrinted_of_printed hc).1
  exact hrouted.dlq q j hj (printed_of_listed hc (Or.inr (Or.inr (Or.inl ⟨q, hj⟩))))

end Printed

/-- **Jobs stay in the lists of their own queue and priority.**  In every reachable state,
whatever fails and whoever halts, as long as requests requeue jobs of the dead-letter queue
they name and retry jobs under the spelling of the uuid that Postgres prints: every
occurrence of a job in a ready list is in the list of the queue and the priority that its
hash names, and every occurrence in a delayed set or in a dead-letter queue is in the one of
that queue. -/
theorem routed_of_reach (hc : (machine env).Reach (DlqBoundBy AsPrinted) Blank c) (j : JobId) :
    (∀ x, j ∈ c.store.redis.lists (.queue x) → Home c.store j (.queue x)) ∧
    (∀ q, j ∈ c.store.redis.zsets (redisKeys.delayed q) → queueOf c.store j = some q) ∧
    ∀ q, j ∈ c.store.redis.lists (redisKeys.dlq q) → queueOf c.store j = some q := by
  refine ⟨fun x hj => ?_, fun q hj => ?_, fun q hj => ?_⟩
  · exact home_of_ready hc hj
  · exact queueOf_of_delayed hc hj
  · exact queueOf_of_dlq hc hj

/-- A worker of the queue `mail`. -/
def mail : Env := { sample with queue := fun _ => "mail" }

/-- A job of high priority for the queue `mail`. -/
def urgent : Task :=
  .enqueue "send" (some .null) { queue := some "mail", priority := some .high, maxAttempts := some 1 }

/-- The theorem on a run in which a job has failed for good and an operator has brought it
back. -/
theorem routed_after_requeue :
    ∃ c, (machine mail).Reach (DlqBoundBy AsPrinted) Blank c ∧
      j1.text ∈ c.store.redis.lists (targetList "mail" "high") ∧
      Home c.store j1.text (targetList "mail" "high") := by
  obtain ⟨c, hc, ht⟩ := Machine.exists_reach (machine mail) (DlqBoundBy AsPrinted) Blank blank_blank
    ([.start urgent, .call 0 (.fresh j1)] ++ goes 0 5 ++ [.start (.start "w")] ++ goes 1 8 ++
      goes 2 4 ++ goes 3 6 ++ throws 3 ++ goes 3 6 ++
      [.start (.requeue "mail" { jobIds := some [j1.text] })] ++ goes 4 7)
    (fun c => decide (j1.text ∈ c.store.redis.lists (targetList "mail" "high")))
    (by decide +kernel)
  have hmem := of_decide_eq_true ht
  exact ⟨c, hc, hmem, (routed_of_reach hc j1.text).1 _ hmem⟩

/-- A dead job is retried under another spelling of its uuid.  The ready list then holds the
spelling, whose hash names no queue. -/
theorem retried_away :
    ∃ c, (machine mail).Reach DlqBound Blank c ∧
      capitals ∈ c.store.redis.lists (redisKeys.queue "mail") ∧
      ¬ Home c.store capitals (redisKeys.queue "mail") := by
  obtain ⟨c, hc, ht⟩ := Machine.exists_reach (machine mail) DlqBound Blank blank_blank
    ([.start urgent, .call 0 (.fresh lettered)] ++ goes 0 5 ++ [.start (.start "w")] ++
      goes 1 8 ++ goes 2 4 ++ goes 3 6 ++ throws 3 ++ goes 3 9 ++
      [.start (.retry capitals)] ++ goes 4 8)
    (fun c => decide (capitals ∈ c.store.redis.lists (redisKeys.queue "mail") ∧
      queueOf c.store capitals = none))
    (by decide +kernel)
  obtain ⟨hmem, hqueue⟩ := of_decide_eq_true ht
  refine ⟨c, hc, hmem, ?_⟩
  rintro ⟨q, hq, -⟩
  rw [hqueue] at hq
  cases hq

end Result

end Routing

end NexusQueue
