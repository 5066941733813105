/-
# A running worker is visible to the janitor

A worker enters the registry once, in `start`, and writes its heartbeat again and
again.  A janitor that finds the heartbeat missing takes the worker out of the
registry, and nothing brings a worker back that was only late: its next heartbeat
is written, but it is not registered any more.

As long as a janitor only takes out workers that have crashed and have no heartbeat
left, every worker that has started and has not been asked to stop is in the
registry while its heartbeat exists.
-/
import NexusQueue.Tokens
import NexusQueue.Conduct
import NexusQueue.Transition

namespace NexusQueue

namespace Visible

/-- What is counted of a worker: calls of `start` that have registered it and were
not broken off, and calls of `stop`. -/
inductive Standing where
  | registered
  | stopping
  deriving DecidableEq

/-- What a task counts for. -/
def standing (w : WorkerId) : Task → Phase → Option Standing
  | .start w', .registered | .start w', .beating | .start w', .ended =>
      if w' = w then some .registered else none
  | .stop w', _ => if w' = w then some .stopping else none
  | _, _ => none

/-- The process is a call of `start` of the worker that has returned. -/
def started (w : WorkerId) (p : Process) : Bool :=
  match p.task, p.prog with
  | .start w', .ret _ => w' = w
  | _, _ => false

/-- The process is a call of `stop` of the worker. -/
def stops (w : WorkerId) (p : Process) : Bool :=
  match p.task with
  | .stop w' => w' = w
  | _ => false

/-- The worker a janitor takes out of the registry. -/
def expels : Task → Cmd → Option WorkerId
  | .janitor, .write (.srem .workers w) => some w
  | _, _ => none

/-- The worker the `i`-th process, if it is a janitor, is about to take out of the
registry. -/
def expelled (c : State) (i : ℕ) : Option WorkerId :=
  c.pool[i]?.bind fun p => (nextCmd c i).bind (expels p.task)

/-- A janitor takes a worker out of the registry only when no `start` has registered
it, or it has been asked to stop, or it has crashed and has no heartbeat. -/
def ExpelsDead (env : Env) (c : State) : Action → Prop
  | .start t => t.external
  | .call i _ => ∀ w ∈ expelled c i,
      holders (custody env) (standing w) c.pool .registered = 0 ∨
        0 < holders (custody env) (standing w) c.pool .stopping ∨
        c.store.down w = true ∧ ¬ c.store.beats w
  | _ => True

instance (env : Env) (c : State) : (a : Action) → Decidable (ExpelsDead env c a)
  | .start t => inferInstanceAs (Decidable t.external)
  | .call i _ => inferInstanceAs (Decidable (∀ w ∈ expelled c i, _ ∨ _ ∨ _))
  | .halt _ | .drift _ => .isTrue trivial

/-- A worker that has started and has not been asked to stop is registered, or dead
for good. -/
def Present (w : WorkerId) (s : World) (g : Standing → ℕ) : Prop :=
  0 < g .registered → g .stopping = 0 →
    w ∈ s.redis.sets .workers ∨ (s.down w = true ∧ ¬ s.beats w)

/-- Visibility as a discipline over the custody protocol. -/
def visibility (env : Env) (w : WorkerId) :
    Discipline (machine env) (custody env) (Standing → ℕ) where
  good _ := True
  val t l := holding (standing w t l)
  emit _ _ _ _ := 0
  loc _ _ _ := True
  inv := Present w
  allow s g t _ c _ := expels t c = some w →
    g .registered = 0 ∨ 0 < g .stopping ∨ s.down w = true ∧ ¬ s.beats w
  post := Concluded

section Step

variable {env : Env} {w : WorkerId} {s s' : World} {t : Task} {l l' : Phase} {c : Cmd}
  {r : Except Err c.Resp} {ts : List Task} {g : Standing → ℕ}

/-- A call of `stop` stays one. -/
theorem standing_stop (l l' : Phase) (w' : WorkerId) :
    standing w (.stop w') l' = standing w (.stop w') l := by
  cases l <;> cases l' <;> rfl

/-- Only calls of `stop` count as such. -/
theorem never_stopping (ht : ∀ w', t ≠ .stop w') : holding (standing w t l) .stopping = 0 := by
  unfold standing
  split
  all_goals first | exact absurd rfl (ht _) | rfl | (split <;> rfl)

/-- Whether a task is a call of `stop` does not depend on its phase. -/
theorem holding_stopping (l l' : Phase) :
    holding (standing w t l) .stopping = holding (standing w t l') .stopping := by
  cases t with
  | stop w' => rw [standing_stop l l' w']
  | _ => rw [never_stopping (by simp), never_stopping (by simp)]

/-- A call of `start` enters the registry by its `SADD` only. -/
theorem standing_of_effect (he : Effect env s t l c r s' l' ts) :
    standing w t l' = standing w t l ∨ standing w t l' = none ∨
      (w ∈ s'.redis.sets .workers ∧ standing w t l' = some .registered) := by
  cases he with
  | still _ _ _ | handler | inert _ _ => exact Or.inl rfl
  | @register w' =>
      by_cases hw : w' = w
      · subst hw
        exact Or.inr (Or.inr ⟨by simp, if_pos rfl⟩)
      · exact Or.inr (Or.inl (if_neg hw))
  | draw _ _ _ _ | insert _ _ _ _ _ | insertFails _ _ _ _ | publishReady _ _ _ _
  | publishDelayed _ _ _ | cronFails _ _ | lift _ | readLifted _ | place _ =>
      cases t <;> first | exact Or.inl rfl | exact Or.inr (Or.inl rfl)
  | _ => exact Or.inl rfl

/-- **Step lemma.**  Every effect keeps a running worker registered. -/
theorem Present.effect (h : Present w s (holding (standing w t l) + g)) (hup : t.up s)
    (hexp : expels t c = some w →
      (holding (standing w t l) + g) .registered = 0 ∨
        0 < (holding (standing w t l) + g) .stopping ∨ s.down w = true ∧ ¬ s.beats w)
    (he : Effect env s t l c r s' l' ts) : Present w s' (holding (standing w t l') + g) := by
  intro hreg hstop
  have hstop₀ : (holding (standing w t l) + g) .stopping = 0 := by
    rw [Pi.add_apply, holding_stopping l l']
    exact hstop
  have hdead : s.down w = true ∧ ¬ s.beats w → s'.down w = true ∧ ¬ s'.beats w := by
    rintro ⟨hdown, hno⟩
    refine ⟨by rw [down_of_effect he]; exact hdown, fun hb => ?_⟩
    rcases beats_of_effect he hb with hb | hhost
    · exact hno hb
    · rw [hup.not_down hhost] at hdown
      cases hdown
  have hbefore : 0 < (holding (standing w t l) + g) .registered →
      w ∈ s'.redis.sets .workers ∨ (s'.down w = true ∧ ¬ s'.beats w) := by
    intro hreg₀
    rcases h hreg₀ hstop₀ with hin | hd
    · rcases registered_of_effect he hin with hin | rfl
      · exact Or.inl hin
      · cases he with
        | still hn _ _ => exact hn.elim
        | pull hc _ _ | pullNothing hc => rcases hc with hc | hc <;> cases hc
        | deregister =>
            -- The worker has been asked to stop.
            have hself : standing w (.stop w) .loopDone = some .stopping := if_pos rfl
            rw [Pi.add_apply, hself, holding_some, if_pos rfl] at hstop₀
            omega
        | unregister =>
            rcases hexp rfl with hreg | hstopping | hd
            · omega
            · omega
            · exact Or.inr (hdead hd)
    · exact Or.inr (hdead hd)
  rcases standing_of_effect he (w := w) with hsame | hnone | ⟨hin, -⟩
  · rw [hsame] at hreg
    exact hbefore hreg
  · rw [hnone, holding_none, zero_add] at hreg
    exact hbefore (by rw [Pi.add_apply]; omega)
  · exact Or.inl hin

/-- A task that is started registers nothing by itself. -/
theorem standing_start (t : Task) : holding (standing w t (Phase.start t)) .registered = 0 := by
  cases t with
  | stop w' =>
      change holding (if w' = w then some .stopping else none) Standing.registered = 0
      split <;> rfl
  | _ => rfl

/-- A rejection breaks a `start` off. -/
theorem standing_error (t : Task) (l : Phase) (c : Cmd) :
    standing w t (l.afterError t c) = standing w t l ∨ standing w t (l.afterError t c) = none := by
  cases t with
  | stop w' => exact Or.inl (standing_stop _ _ _)
  | _ => exact Or.inr rfl

/-- Fewer calls of `start` and more calls of `stop` ask for less. -/
theorem Present.mono {g' : Standing → ℕ} (h : Present w s g)
    (hreg : g' .registered ≤ g .registered) (hstop : g .stopping ≤ g' .stopping) :
    Present w s g' :=
  fun hr hs => h (by omega) (by omega)

/-- **Visibility is a sound discipline while janitors take out the dead only.** -/
theorem visibility_sound : (visibility env w).Sound (ExpelsDead env) where
  follows t _ := custody_follows t
  call s t l c o r s' F h := by
    have hforks : (visibility env w).starts ((machine env).forks t c r) = 0 := by
      refine (visibility env w).starts_eq_zero _ fun t' ht' => ?_
      rcases forks_cases ht' with ⟨w', rfl⟩ | ⟨w', n, j, rfl⟩ <;> exact holding_none
    refine ⟨?_, trivial, fun _ _ => ⟨trivial, trivial⟩⟩
    rw [hforks, add_zero]
    change Present w s' (holding (standing w t (Phase.next t l c r)) + (0 + F))
    rw [zero_add]
    obtain ⟨hup, ⟨err, -, -, rfl, rfl⟩ | ⟨-, ha⟩⟩ := exec_cases h.exec
    · change Present w s' (holding (standing w t (l.afterError t c)) + F)
      refine Present.mono h.inv ?_ ?_
      · change (holding (standing w t (l.afterError t c)) + F) .registered ≤
          (holding (standing w t l) + F) .registered
        rcases standing_error (w := w) t l c with hsame | hnone
        · rw [hsame]
        · rw [hnone, holding_none, zero_add, Pi.add_apply]
          omega
      · change (holding (standing w t l) + F) .stopping ≤
          (holding (standing w t (l.afterError t c)) + F) .stopping
        rw [Pi.add_apply, Pi.add_apply, holding_stopping l (l.afterError t c)]
    · exact Present.effect h.inv hup h.allow (effect_of_answer h.permits ha)
  stable _ _ _ _ _ _ _ _ _ _ _ _ _ _ _ := trivial
  start c t _ hc := by
    refine ⟨trivial, Present.mono hc.1 ?_ ?_, trivial⟩
    · change (holding (standing w t (Phase.start t)) + _) .registered ≤ _
      rw [Pi.add_apply, standing_start, zero_add]
    · rw [Pi.add_apply]
      omega
  allows c i o p cmd k hok hc hp hprog := by
    intro hexp
    rw [(visibility env w).total_holding (standing w) (fun _ _ => rfl) rfl]
    refine hok w ?_
    simp [expelled, nextCmd, hp, hprog, hexp]
  drift c d s' _ hc hd := by
    refine ⟨fun hreg hstop => ?_, fun _ _ _ _ => trivial⟩
    rcases hc.1 hreg hstop with hin | ⟨hdown, hno⟩
    · cases d <;> cases hd <;> exact Or.inl hin
    · exact Or.inr ⟨down_of_drift hd hdown, fun hb => hno (beats_of_drift hd hb)⟩

end Step

section Result

variable {env : Env} {c₀ c : State}

/-- A call of `start` that has returned counts. -/
theorem standing_of_started {w : WorkerId} {p : Process} (hp : started w p = true)
    (hf : Follows (custody env) p.task ((custody env).phase p.task p.hist) p.prog
      (Concluded p.task)) :
    standing w p.task ((custody env).phase p.task p.hist) = some .registered := by
  unfold started at hp
  split at hp
  · rename_i w' a ht hprog
    rw [hprog] at hf
    rw [ht] at hf ⊢
    have hended : (custody env).phase (.start w') p.hist = .ended := hf
    rw [hended]
    exact if_pos (of_decide_eq_true hp)
  · cases hp

/-- What counts as a call of `stop` is one. -/
theorem stops_of_standing {w : WorkerId} {p : Process} {l : Phase}
    (hp : standing w p.task l = some .stopping) : stops w p = true := by
  have hone : holding (standing w p.task l) .stopping = 1 := by
    rw [hp, holding_some, if_pos rfl]
  cases ht : p.task with
  | stop w' =>
      by_cases hw : w' = w
      · simp [stops, ht, hw]
      · rw [ht] at hp
        have hnone : standing w (.stop w') l = none := by
          cases l <;> exact if_neg hw
        rw [hnone] at hp
        cases hp
  | _ =>
      rw [ht, never_stopping (by simp)] at hone
      omega

/-- **A running worker is visible to the janitor.**  From any stores, in every run in
which janitors take out the dead only: if `start` of a worker has returned, `stop` has
not been called, and the heartbeat key exists, the worker is in the registry. -/
theorem registered_while_beating (hpool : c₀.pool = [])
    (hc : (machine env).Reach (ExpelsDead env) (· = c₀) c) {w : WorkerId}
    (hstart : ∃ p ∈ c.pool, started w p) (hstop : ∀ p ∈ c.pool, ¬ stops w p)
    (hb : c.store.beats w) : w ∈ c.store.redis.sets redisKeys.workerRegistry := by
  have hinit : ∀ c, c = c₀ → (visibility env w).PoolOk c := by
    rintro c rfl
    refine ⟨fun hreg _ => ?_, ?_⟩
    · rw [hpool] at hreg
      exact absurd hreg (lt_irrefl 0)
    · rw [hpool]
      simp
  obtain ⟨hinv, hprocs⟩ := visibility_sound.reach hinit hc
  change Present w c.store ((visibility env w).total c.pool) at hinv
  rw [(visibility env w).total_holding (standing w) (fun _ _ => rfl) rfl] at hinv
  have hreg : 0 < holders (custody env) (standing w) c.pool .registered := by
    obtain ⟨p, hp, hst⟩ := hstart
    refine List.countP_pos_iff.mpr ⟨p, hp, ?_⟩
    simpa using standing_of_started hst (hprocs p hp).2.2
  have hnone : holders (custody env) (standing w) c.pool .stopping = 0 := by
    refine List.countP_eq_zero.mpr fun p hp hst => hstop p hp ?_
    exact stops_of_standing (of_decide_eq_true hst)
  rcases hinv hreg hnone with hin | ⟨-, hno⟩
  · exact hin
  · exact absurd hb hno

/-- The theorem on a run in which a janitor takes out a crashed worker, while the
other one has written its heartbeat in time. -/
theorem registered_while_other_recovered :
    ∃ c, (machine sample).Reach (ExpelsDead sample) (· = blank) c ∧
      "w2" ∉ c.store.redis.sets redisKeys.workerRegistry ∧
      "w1" ∈ c.store.redis.sets redisKeys.workerRegistry := by
  obtain ⟨c, hc, ht⟩ := Machine.exists_reach (machine sample) (ExpelsDead sample) (· = blank) rfl
    ([.start (.start "w1")] ++ goes 0 8 ++ [.start (.start "w2")] ++ goes 2 8 ++
      [.drift (.crash "w2"), .drift (.pass 10000), .start (.heartbeat "w1")] ++ goes 4 5 ++
      [.drift (.pass 10000), .start .janitor, .call 5 (.members ["w1", "w2"])] ++ goes 5 6)
    (fun c => decide ((∃ p ∈ c.pool, started "w1" p) ∧ (∀ p ∈ c.pool, ¬ stops "w1" p) ∧
      c.store.beats "w1" ∧ "w2" ∉ c.store.redis.sets redisKeys.workerRegistry))
    (by decide +kernel)
  obtain ⟨hstart, hstop, hb, hout⟩ := of_decide_eq_true ht
  exact ⟨c, hc, hout, registered_while_beating rfl hc hstart hstop hb⟩

/-- A worker whose heartbeat was late is taken out, and stays out when its heartbeat is
written again. -/
theorem expelled_for_late_heartbeat :
    ∃ c, (machine sample).Reach Reliable (· = blank) c ∧ (∃ p ∈ c.pool, started "w1" p) ∧
      (∀ p ∈ c.pool, ¬ stops "w1" p) ∧ c.store.beats "w1" ∧
      "w1" ∉ c.store.redis.sets redisKeys.workerRegistry := by
  obtain ⟨c, hc, ht⟩ := Machine.exists_reach (machine sample) Reliable (· = blank) rfl
    ([.start (.start "w1")] ++ goes 0 8 ++ [.drift (.pass 20000), .start .janitor,
      .call 2 (.members ["w1"])] ++ goes 2 5 ++ [.start (.heartbeat "w1")] ++ goes 3 5)
    (fun c => decide ((∃ p ∈ c.pool, started "w1" p) ∧ (∀ p ∈ c.pool, ¬ stops "w1" p) ∧
      c.store.beats "w1" ∧ "w1" ∉ c.store.redis.sets redisKeys.workerRegistry))
    (by decide +kernel)
  exact ⟨c, hc, of_decide_eq_true ht⟩

end Result

end Visible

end NexusQueue
