/-
# What promotion does not lose

A scheduler removes a job from its delayed set before it pushes it to its ready
list.  In between the job is in its hands only.  As long as no scheduler halts,
and no command of it is rejected, while it has a job in hand, every job that was
in a delayed set is there still, or is in its ready list, or has been pulled from
it, once all processes are over.

The runs start from stores with any contents.
-/
import NexusQueue.Delayed

namespace NexusQueue

namespace Promotion

/-- The `i`-th process has no job in hand. -/
def HandsEmpty (env : Env) (c : State) (i : ℕ) : Prop :=
  ∀ p ∈ c.pool[i]?, hand p.task ((custody env).phase p.task p.hist) = none

instance (env : Env) (c : State) (i : ℕ) : Decidable (HandsEmpty env c i) :=
  inferInstanceAs (Decidable (∀ p ∈ c.pool[i]?, _))

/-- No process halts, and no command of it is rejected, while it has a job in
hand. -/
def CarefulHands (env : Env) (c : State) : Action → Prop
  | .start t => t.external
  | .call i o => o.works ∨ HandsEmpty env c i
  | .halt i => HandsEmpty env c i
  | .drift _ => True

instance (env : Env) (c : State) : (a : Action) → Decidable (CarefulHands env c a)
  | .start t => inferInstanceAs (Decidable t.external)
  | .call i o => inferInstanceAs (Decidable (o.works = true ∨ HandsEmpty env c i))
  | .halt i => inferInstanceAs (Decidable (HandsEmpty env c i))
  | .drift _ => .isTrue trivial

/-- The ready list of the queue and priority of a job. -/
def home (s₀ : World) (q : QueueName) (j : JobId) : Key :=
  targetList q ((s₀.redis.jobs (redisKeys.job j)).priority.getD "normal")

/-- How often a job has been pulled from a list. -/
def pulls (env : Env) (c : State) (k : Key) (j : JobId) : ℕ :=
  counted (custody env) (fun _ _ cmd r => holding (cmd.pulled r) (k, j)) c.pool

/-- A job that was in the delayed set of `q` is there, or is in its ready list, or
has been pulled from it. -/
def Survives (env : Env) (s₀ : World) (c : State) (q : QueueName) (j : JobId) : Prop :=
  j ∈ c.store.redis.zsets (redisKeys.delayed q) ∨ j ∈ c.store.redis.lists (home s₀ q j) ∨
    0 < pulls env c (home s₀ q j) j

instance (env : Env) (s₀ : World) (c : State) (q : QueueName) (j : JobId) :
    Decidable (Survives env s₀ c q j) :=
  inferInstanceAs (Decidable (_ ∨ _ ∨ _))

/-- What is counted: schedulers with a job in hand, and pulls. -/
inductive Trace where
  | hand (queue : QueueName) (jobId : JobId)
  | pulled (list : Key) (jobId : JobId)
  deriving DecidableEq

/-- The jobs that were in a delayed set are accounted for. -/
structure Kept (s₀ s : World) (g : Trace → ℕ) : Prop where
  somewhere : ∀ q, ∀ j ∈ s₀.redis.zsets (.delayed q), j ∈ s.redis.zsets (.delayed q) ∨
    0 < g (.hand q j) ∨ j ∈ s.redis.lists (home s₀ q j) ∨ 0 < g (.pulled (home s₀ q j) j)
  drawn : ∀ q, ∀ j ∈ s₀.redis.zsets (.delayed q), j ∈ s.ids
  priority : ∀ q, ∀ j ∈ s₀.redis.zsets (.delayed q),
    (s.redis.jobs (.job j)).priority = (s₀.redis.jobs (.job j)).priority

/-- A scheduler pushes a job to its own ready list, and a draft is none of the
jobs that were in a delayed set. -/
def aims (s₀ : World) : Task → Phase → Prop
  | .tick, .inHand _ q j (some k) _ => j ∈ s₀.redis.zsets (.delayed q) → k = home s₀ q j
  | _, .drawn id | _, .rowed id => ∀ q, id ∉ s₀.redis.zsets (.delayed q)
  | _, _ => True

/-- What a task has in hand. -/
def carries (t : Task) (l : Phase) : Option Trace := (hand t l).map fun qj => .hand qj.1 qj.2

/-- What a command pulls. -/
def takes (c : Cmd) (r : Except Err c.Resp) : Option Trace :=
  (c.pulled r).map fun kj => .pulled kj.1 kj.2

/-- Survival as a discipline over the custody protocol. -/
def survival (env : Env) (s₀ : World) : Discipline (machine env) (custody env) (Trace → ℕ) where
  good _ := True
  val t l := holding (carries t l)
  emit _ _ c r := holding (takes c r)
  loc t l _ := aims s₀ t l
  inv := Kept s₀
  allow _ _ t l _ o := o.works ∨ hand t l = none
  post := Concluded

section Step

variable {env : Env} {s₀ s s' : World} {t : Task} {l l' : Phase} {c : Cmd} {o : Oracle}
  {r : Except Err c.Resp} {ts : List Task} {g : Trace → ℕ}

theorem holding_carries_hand (q : QueueName) (j : JobId) :
    holding (carries t l) (.hand q j) = holding (hand t l) (q, j) := by
  cases h : hand t l with
  | none => simp [carries, h]
  | some qj => simp [carries, h, Prod.ext_iff]

@[simp] theorem holding_carries_pulled (k : Key) (j : JobId) :
    holding (carries t l) (.pulled k j) = 0 := by
  cases h : hand t l <;> simp [carries, h]

theorem holding_takes_pulled (k : Key) (j : JobId) :
    holding (takes c r) (.pulled k j) = holding (c.pulled r) (k, j) := by
  cases h : c.pulled r with
  | none => simp [takes, h]
  | some kj => simp [takes, h, Prod.ext_iff]

@[simp] theorem holding_takes_hand (q : QueueName) (j : JobId) :
    holding (takes c r) (.hand q j) = 0 := by
  cases h : c.pulled r <;> simp [takes, h]

/-- A job in a delayed set stays there, unless this is the scheduler that claims
it. -/
theorem delayed_of_shift (hs : Shift s t l c r s' l') {q : QueueName} {j : JobId}
    (hj : j ∈ s.redis.zsets (.delayed q)) :
    j ∈ s'.redis.zsets (.delayed q) ∨ hand t l' = some (q, j) := by
  cases hs with
  | still hz _ _ _ =>
      rw [hz]
      exact Or.inl hj
  | @claim now q' j' todo hj' =>
      rw [setDelayed_apply]
      by_cases hq : q = q'
      · subst hq
        rw [if_pos rfl, SortedSet.mem_zrem]
        by_cases hjj : j = j'
        · exact Or.inr (by rw [hjj]; rfl)
        · exact Or.inl ⟨hjj, hj⟩
      · rw [if_neg hq]
        exact Or.inl hj
  | @add t l c a s' l' q' score j' hnone hoff hd hz =>
      rw [hz]
      left
      split
      · rename_i hq
        subst hq
        rw [SortedSet.mem_zadd]
        exact Or.inr hj
      · exact hj
  | _ => exact Or.inl hj

/-- A job in hand stays in hand, or is pushed to the list its scheduler aims
at. -/
theorem hand_of_shift (hs : Shift s t l c r s' l') {q : QueueName} {j : JobId}
    (hj : hand t l = some (q, j)) :
    hand t l' = some (q, j) ∨
      ∃ now k todo, t = .tick ∧ l = .inHand now q j (some k) todo ∧ j ∈ s'.redis.lists k := by
  cases hs with
  | still _ _ _ hl =>
      rcases hl with rfl | ⟨hnone, -⟩
      · exact Or.inl hj
      · rw [hnone] at hj
        cases hj
  | clock hfree =>
      rw [hand_free hfree] at hj
      cases hj
  | read hl => rcases hl with rfl | ⟨q', rfl⟩ <;> cases hj
  | skip _ | claim _ => cases hj
  | route => exact Or.inl hj
  | @promote now q' j' k todo =>
      cases hj
      exact Or.inr ⟨now, k, todo, rfl, rfl, by simp⟩
  | add hnone hoff hd hz =>
      rw [hnone] at hj
      cases hj

/-- **Step lemma.**  Every effect keeps account of the jobs. -/
theorem Kept.effect (h : Kept s₀ s (holding (carries t l) + g)) (ha : aims s₀ t l)
    (he : Effect env s t l c r s' l' ts) :
    Kept s₀ s' (holding (carries t l') + (holding (takes c r) + g)) where
  somewhere q j hj := by
    have hs := shift_of_effect he
    simp only [Pi.add_apply, holding_carries_pulled, holding_carries_hand, holding_takes_hand,
      holding_takes_pulled, zero_add]
    obtain ⟨x, hx⟩ := exists_targetList q ((s₀.redis.jobs (redisKeys.job j)).priority.getD "normal")
    have hhome : home s₀ q j = .queue x := hx
    rcases h.somewhere q j hj with hz | hh | hl | hp
    · rcases delayed_of_shift hs hz with hz | hh
      · exact Or.inl hz
      · exact Or.inr (Or.inl (by simp [hh]))
    · simp only [Pi.add_apply, holding_carries_hand] at hh
      by_cases hg : 0 < g (.hand q j)
      · exact Or.inr (Or.inl (by omega))
      · have hhand : hand t l = some (q, j) := by
          by_contra hne
          simp only [holding, hne, if_false] at hh
          omega
        rcases hand_of_shift hs hhand with hh' | ⟨now, k, todo, rfl, rfl, hk⟩
        · exact Or.inr (Or.inl (by simp [hh']))
        · rw [← ha hj]
          exact Or.inr (Or.inr (Or.inl hk))
    · rw [hhome] at hl ⊢
      rcases ready_of_effect he hl with hl | hp
      · exact Or.inr (Or.inr (Or.inl hl))
      · exact Or.inr (Or.inr (Or.inr (by simp [hp])))
    · simp only [Pi.add_apply, holding_carries_pulled, zero_add] at hp
      exact Or.inr (Or.inr (Or.inr (by omega)))
  drawn q j hj := ids_of_effect he (h.drawn q j hj)
  priority q j hj := by
    have hne : l ≠ .rowed j := by
      rintro rfl
      cases t <;> exact ha q hj
    rw [(identity_of_effect he hne).priority]
    exact h.priority q j hj

/-- **Step lemma.**  A scheduler reads the ready list of the job it has in hand,
and a draft is new. -/
theorem aims_effect (h : Kept s₀ s (holding (carries t l) + g)) (ha : aims s₀ t l)
    (he : Effect env s t l c r s' l' ts) : aims s₀ t l' := by
  cases he with
  | still hn hf hw => exact ha
  | @draw t l id hc hp hid hne =>
      have hnew : ∀ q, id.text ∉ s₀.redis.zsets (.delayed q) := fun q hq => hid (h.drawn q id hq)
      cases t <;> exact hnew
  | insert hc _ _ _ _ =>
      cases t <;> exact ha
  | @readPriority now q j todo =>
      intro hj
      rw [home, h.priority q j hj]
  | insertFails hc _ _ _ | publishReady hc _ _ _ | publishDelayed hc _ _ | cronFails hc _ =>
      cases t <;> trivial
  | @pull w x v c r hc hv hpulled =>
      by_cases hempty : v = ""
      · subst hempty
        trivial
      · rw [truthy_some hempty]
        trivial
  | handler | inert _ _ => exact ha
  | settle => cases l <;> exact ha
  | lift ht | readLifted ht | place ht => cases t <;> trivial
  | _ => trivial

/-- No task starts with a job in hand, or with a draft. -/
theorem starts_survival (ts : List Task) : (survival env s₀).starts ts = 0 := by
  refine (survival env s₀).starts_eq_zero ts fun t _ => ?_
  cases t <;> exact holding_none

theorem aims_start (t : Task) : aims s₀ t (Phase.start t) := by
  cases t with
  | requeue q b => rcases Phase.start_requeue q b with h | ⟨_, -, h⟩ <;> rw [h] <;> trivial
  | _ => trivial

/-- After a rejection a scheduler has nothing in hand. -/
theorem hand_error : hand t (l.afterError t c) = none := by
  cases t <;> rfl

/-- A scheduler sends no statement about a row by its id. -/
theorem hand_of_unreadable (hp : Permits env t l c) (hc : c.unreadable = true) :
    hand t l = none := by
  cases c with
  | update id p => cases hp <;> first | rfl | contradiction
  | select id => cases hp <;> first | rfl | contradiction
  | _ => cases hc

/-- **Survival is a sound discipline while hands are careful.** -/
theorem survival_sound : (survival env s₀).Sound (CarefulHands env) where
  follows t _ := custody_follows t
  call s t l c o r s' F h := by
    rw [starts_survival, add_zero]
    refine ⟨?_, ?_, fun t' _ => ⟨trivial, aims_start t'⟩⟩
    · rcases (exec_cases h.exec).2 with ⟨err, hno, -, rfl, rfl⟩ | ⟨-, ha⟩
      · have hnone : hand t l = none := by
          rcases h.allow with ho | hnone
          · refine hand_of_unreadable h.permits ?_
            rw [Oracle.takes, ho] at hno
            simpa using hno
          · exact hnone
        have htakes : takes c (.error err) = none := by
          cases c <;> rfl
        have hinv : Kept s₀ s' (holding (carries t l) + F) := h.inv
        change Kept s₀ s' (holding (carries t (l.afterError t c)) +
          (holding (takes c (.error err)) + F))
        rw [htakes, holding_none_add]
        simpa only [carries, hand_error, hnone] using hinv
      · exact Kept.effect h.inv h.loc (effect_of_answer h.permits ha)
    · rcases (exec_cases h.exec).2 with ⟨err, -, -, rfl, rfl⟩ | ⟨-, ha⟩
      · change aims s₀ t (l.afterError t c)
        have hl := h.loc
        cases t with
        | processOne w n j => cases c <;> first | exact hl | trivial
        | requeue q b => cases c <;> first | exact hl | (cases l <;> trivial)
        | _ => trivial
      · exact aims_effect h.inv h.loc (effect_of_answer h.permits ha)
  stable _ _ _ _ _ _ _ _ _ _ _ _ _ _ hk := hk
  start c t _ hc := by
    have hnone : (survival env s₀).starts [t] = 0 := starts_survival [t]
    simp only [Discipline.starts, List.map_cons, List.map_nil, List.sum_cons, List.sum_nil,
      add_zero] at hnone
    rw [hnone, zero_add]
    exact ⟨trivial, hc.1, aims_start t⟩
  allows c i o p cmd k hok _ hp _ := hok.imp_right fun h => h p hp
  drift c d s' _ hc hd := by
    refine ⟨?_, fun _ _ _ hk => hk⟩
    cases d <;> cases hd <;> exact ⟨hc.1.somewhere, hc.1.drawn, hc.1.priority⟩

end Step

section Result

variable {env : Env} {c₀ c : State}

/-- A process that is over has nothing in hand. -/
theorem hand_over (hc : (machine env).Reach (CarefulHands env) (· = c₀) c)
    (hpool : c₀.pool = []) {p : Process} (hp : p ∈ c.pool) (hover : Ended p ∨ p.halted = true)
    (hfol : Follows (custody env) p.task ((custody env).phase p.task p.hist) p.prog
      (Concluded p.task)) :
    hand p.task ((custody env).phase p.task p.hist) = none := by
  rcases hover with hend | hhalt
  · cases ht : p.task with
    | tick =>
        rw [ht] at hfol
        have hfree : ∀ {l : Phase}, l.free ∨ l = .broken → hand .tick l = none := by
          rintro l (hl | rfl)
          · exact hand_free hl
          · rfl
        cases hprog : p.prog with
        | ret a =>
            rw [hprog] at hfol
            exact hfree hfol
        | raise e =>
            rw [hprog] at hfol
            exact hfree hfol
        | call cmd k => exact absurd hprog (hend cmd k)
    | _ => rfl
  · exact Machine.Reach.halted (Q := fun t h => hand t ((custody env).phase t h) = none)
      (fun c hc => hc ▸ hpool) (fun c i p hok hp => hok p hp) hc p hp hhalt

/-- **Promotion loses nothing.**  From any contents of the delayed sets, in every
run in which no process halts, and no command of it is rejected, while it has a
job in hand: when all processes are over, every job that was in a delayed set is
there still, or is in its ready list, or has been pulled from it. -/
theorem survives_promotion (hpool : c₀.pool = [])
    (hids : ∀ q, ∀ j ∈ c₀.store.redis.zsets (redisKeys.delayed q), j ∈ c₀.store.ids)
    (hc : (machine env).Reach (CarefulHands env) (· = c₀) c)
    (hover : ∀ p ∈ c.pool, Ended p ∨ p.halted = true) {q : QueueName} {j : JobId}
    (hj : j ∈ c₀.store.redis.zsets (redisKeys.delayed q)) : Survives env c₀.store c q j := by
  have hinit : ∀ c, c = c₀ → (survival env c₀.store).PoolOk c := by
    rintro c rfl
    refine ⟨⟨fun q j hj => Or.inl hj, hids, fun _ _ _ => rfl⟩, ?_⟩
    rw [hpool]
    simp
  obtain ⟨hkept, hprocs⟩ := survival_sound.reach hinit hc
  have hempty : (survival env c₀.store).total c.pool (.hand q j) = 0 := by
    rw [(survival env c₀.store).total_eq_holders hand (k := (q, j))
      (fun t l => holding_carries_hand q j) fun _ _ _ _ => holding_takes_hand q j]
    refine List.countP_eq_zero.mpr fun p hp => ?_
    rw [hand_over hc hpool hp (hover p hp) (hprocs p hp).2.2]
    simp
  have hpulled : (survival env c₀.store).total c.pool (.pulled (home c₀.store q j) j) =
      pulls env c (home c₀.store q j) j :=
    (survival env c₀.store).total_eq_counted _ (fun _ _ => holding_carries_pulled _ _)
      (fun _ _ _ _ => holding_takes_pulled _ _) _
  rcases hkept.somewhere q j hj with hz | hh | hl | hp
  · exact Or.inl hz
  · omega
  · exact Or.inr (Or.inl hl)
  · exact Or.inr (Or.inr (hpulled ▸ hp))

/-- One job, due at 1000, in the delayed set of a registered queue. -/
def stocked : State where
  store :=
    { redis :=
        { sets := Function.update (fun _ => ∅) .queues {"default"}
          zsets := Function.update (fun _ => ∅) (.delayed "default")
            ((∅ : SortedSet String ℚ).zadd 1000 j1.text) }
      clock := 1000
      ids := {j1.text} }
  pool := []

/-- The theorem on a run in which one scheduler has halted with the job on its due
list and another one has promoted it. -/
theorem survives_promotion_by_other :
    ∃ c, (machine sample).Reach (CarefulHands sample) (· = stocked) c ∧
      (∀ p ∈ c.pool, Ended p ∨ p.halted = true) ∧
        Survives sample stocked.store c "default" j1.text := by
  obtain ⟨c, hc, ht⟩ := Machine.exists_reach (machine sample) (CarefulHands sample) (· = stocked) rfl
    ([.start .tick, .start .tick, .call 0 (.members ["default"]), .call 1 (.members ["default"])] ++
      goes 0 2 ++ goes 1 2 ++ [.halt 0] ++ goes 1 6)
    (fun c => decide (∀ p ∈ c.pool, Ended p ∨ p.halted = true)) (by decide +kernel)
  have hover := of_decide_eq_true ht
  have hids : ∀ q, ∀ j ∈ stocked.store.redis.zsets (redisKeys.delayed q), j ∈ stocked.store.ids := by
    intro q j hj
    by_cases hq : q = "default" <;> simp_all [stocked]
  exact ⟨c, hc, hover, survives_promotion rfl hids hc hover (by decide +kernel)⟩

/-- A scheduler that halts between its `ZREM` and its `LPUSH` loses the job. -/
theorem lost_in_hand :
    ∃ c, (machine sample).Reach Anything (· = stocked) c ∧
      (∀ p ∈ c.pool, Ended p ∨ p.halted = true) ∧
      "default" ∈ stocked.store.redis.sets redisKeys.queueRegistry ∧
      j1.text ∈ stocked.store.redis.zsets (redisKeys.delayed "default") ∧
      ¬ Survives sample stocked.store c "default" j1.text := by
  obtain ⟨c, hc, ht⟩ := Machine.exists_reach (machine sample) Anything (· = stocked) rfl
    ([.start .tick, .call 0 (.members ["default"])] ++ goes 0 3 ++ [.halt 0])
    (fun c => decide ((∀ p ∈ c.pool, Ended p ∨ p.halted = true) ∧
      ¬ Survives sample stocked.store c "default" j1.text)) (by decide +kernel)
  obtain ⟨hover, hlost⟩ := of_decide_eq_true ht
  exact ⟨c, hc, hover, by decide +kernel, by decide +kernel, hlost⟩

end Result

end Promotion

end NexusQueue
