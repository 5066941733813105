/-
# No job is lost when workers crash

In every run in which workers crash at any point and everything else is cut off only
where it has no job in hand, every published job stays in a list or in a delayed set of its
own queue, in the hands of a process that goes on with it, or it is completed.  An entry on
the list of a crashed worker is still to be pushed by every janitor that has read it.
-/
import NexusQueue.Delivery
import NexusQueue.Routing

namespace NexusQueue

namespace Delivery

open Recovery (remaining)
open Routing (Home queueOf)

section Step

variable {env : Env} {s s' : World} {t : Task} {l l' : Phase} {c : Cmd} {o : Oracle}
  {r : Except Err c.Resp} {ts : List Task} {g : Stake → ℕ}

/-- What the tasks a command starts have at stake. -/
def startsWith (ts : List Task) : Stake → ℕ := (ts.map fun t => stake t (Phase.start t)).sum

@[simp] theorem startsWith_nil : startsWith [] = 0 := rfl

@[simp] theorem startsWith_loop (w : WorkerId) : startsWith [.loop w] = 0 := by
  simp [startsWith, stake_of_ne, holds, Phase.start]

@[simp] theorem startsWith_call (w : WorkerId) (n : ℕ) (j : JobId) :
    startsWith [.processOne w n j] = holding (some (.claim w j)) := by
  simp [startsWith, stake_of_ne, holds, Phase.start]

/-- Only the completing update counts. -/
theorem counts_eq_zero (h : ∀ j p, c = .update j p → p.status ≠ .completed) :
    counts t c r = 0 := by
  funext k
  cases k with
  | completed j =>
      show completes t c r j = 0
      unfold completes
      split
      · exact if_neg fun hj => h _ _ rfl hj.2
      · rfl
  | _ => rfl

/-- A worker that is up stays registered. -/
theorem registered_effect (hk : knows t l s) (hstop : stops t = false)
    (he : Effect env s t l c r s' l' ts) {w : WorkerId} (hw : w ∈ s.redis.sets .workers)
    (hup : s.down w = false) : w ∈ s'.redis.sets .workers := by
  rcases registered_of_effect he hw with h | rfl
  · exact h
  · cases he with
    | still hn hf hw' => exact hn.elim
    | pull hc hv hpulled => rcases hc with hc | hc <;> cases hc
    | pullNothing hc => rcases hc with hc | hc <;> cases hc
    | deregister => cases hstop
    | unregister =>
        rw [hk.1] at hup
        cases hup

/-- The list of a worker that is down stays empty. -/
theorem empty_effect (ha : Aimed t l) (hup : t.up s) (he : Effect env s t l c r s' l' ts)
    {w : WorkerId} (hdown : s.down w = true) (hlist : s.redis.lists (.processing w) = []) :
    s'.redis.lists (.processing w) = [] := by
  by_cases hdrop : c = .write (.del (redisKeys.processing w))
  · subst hdrop
    cases he with
    | still hn hf hw => exact hn.elim
    | pull hc hv hpulled => rcases hc with hc | hc <;> cases hc
    | pullNothing hc => rcases hc with hc | hc <;> cases hc
    | dropList => simp [Write.apply]
  · rw [processing_of_effect he ha (fun hhost => ?_) hdrop]
    · exact hlist
    · rw [hup.not_down hhost] at hdown
      cases hdown

/-- Whatever the others do, a process still knows what it knew. -/
theorem knows_effect (hk : knows t l s) (hstop : stops t = false) (ha : Aimed t l)
    (hup : t.up s) (he : Effect env s t l c r s' l' ts) {t₂ : Task} {l₂ : Phase}
    (hk₂ : knows t₂ l₂ s) : knows t₂ l₂ s' := by
  have hdown := down_of_effect he
  have hreg : ∀ {w}, (s.down w = false → w ∈ s.redis.sets .workers) →
      s'.down w = false → w ∈ s'.redis.sets .workers := by
    intro w hw hup'
    rw [hdown] at hup'
    exact registered_effect hk hstop he (hw hup') hup'
  cases t₂ with
  | loop w => exact hreg hk₂
  | start w => cases l₂ <;> first | exact hreg hk₂ | trivial
  | processOne w n j => cases l₂ <;> first | exact hk₂.elim | trivial
  | janitor =>
      cases l₂ with
      | found w | recovering w _ | routing w _ _ _ | restored w _ _ =>
          show s'.down w = true
          rw [hdown]
          exact hk₂
      | deleted w =>
          refine ⟨?_, empty_effect ha hup he hk₂.1 hk₂.2⟩
          rw [hdown]
          exact hk₂.1
      | _ => trivial
  | _ => trivial

/-- A published job that a call works on belongs to a registered queue. -/
theorem registered_queue {w : WorkerId} {n : ℕ} {j : JobId} {h : JobHash}
    (hfit : Identity.Fit (fun _ => True) s (.processOne w n j) (.claimed h)) (d : QueueName)
    (hj : s.enqueued j) : h.queueName.getD d ∈ s.redis.sets .queues := by
  obtain ⟨⟨g, hco⟩, -, hsame⟩ := hfit
  obtain ⟨q, hq, hname⟩ := hco.named j hj
  rw [hsame.queueName, hname]
  exact hq

/-- **Step lemma.**  Every effect leaves every published job in some place, and the process
knows what it needs to know next. -/
theorem Delivered.effect (h : Delivered s (stake t l + g)) (hstop : stops t = false)
    (ha : Aimed t l) (hk : knows t l s) (hfit : Identity.Fit (fun _ => True) s t l) (hup : t.up s)
    (hbeat : ∀ w ∈ c.seeks, s.beats w ∨ s.down w = true) (he : Effect env s t l c r s' l' ts) :
    Delivered s' (stake t l' + (counts t c r + (startsWith ts + g))) ∧ knows t l' s' := by
  have knew : knows t l s' := knows_effect hk hstop ha hup he hk
  -- nothing that counts changes
  have keep : Same s s' → stake t l' + startsWith ts = stake t l → counts t c r = 0 →
      knows t l' s' → Delivered s' (stake t l' + (counts t c r + (startsWith ts + g))) ∧
        knows t l' s' := by
    intro hs hg hcounts hn
    rw [hcounts, zero_add, ← add_assoc, hg]
    exact ⟨h.same hs, hn⟩
  -- a job moves
  have become : counts t c r = 0 → startsWith ts = 0 → Delivered s' (stake t l' + g) →
      knows t l' s' → Delivered s' (stake t l' + (counts t c r + (startsWith ts + g))) ∧
        knows t l' s' := by
    intro hcounts hts hg hn
    rw [hcounts, hts, zero_add, zero_add]
    exact ⟨hg, hn⟩
  have frame : ∀ {s'}, s.Frame s' → Same s s' := fun hf => Same.of_frame hf
  have same : Same s s := frame (.refl s)
  have object : ∀ w obj, Same s (s.setWorker w obj) := fun w obj =>
    frame { World.Frame.refl s with }
  have quiet : (∀ j p, c = .update j p → p.status ≠ .completed) → counts t c r = 0 :=
    counts_eq_zero
  have nothing : ∀ {t : Task} {l : Phase}, t ≠ .janitor → holds t l = none → stake t l = 0 := by
    intro t l ht hl
    rw [stake_of_ne ht, hl, holding_none]
  cases he with
  | still hn hf hw =>
      refine keep (frame hf) (add_zero _) (quiet ?_) knew
      rintro j p rfl
      exact hn.elim
  | clock hfree =>
      refine keep same ?_ (quiet (by simp)) trivial
      cases l <;> first | exact hfree.elim | simp [stake_of_ne, holds]
  | lookupMiss hkey hv => exact keep same (by simp [stake_of_ne, holds]) (quiet (by simp)) trivial
  | lookupHit hkey hv => exact keep same (by simp [stake_of_ne, holds]) (quiet (by simp)) trivial
  | @draw t l id hc hp hid hne =>
      have hzero : stake t l = 0 := by
        cases hp with
        | quiet hq => exact hq.elim
        | uuidKeyless _ | uuidMissed => simp [stake_of_ne, holds]
        | uuidCron hfree => cases l <;> first | exact hfree.elim | simp [stake_of_ne, holds]
      have hworld : Same s { s with ids := insert id.text s.ids } := { Same.refl s with }
      cases t with
      | enqueue _ _ _ | tick =>
          exact keep hworld (by rw [hzero]; simp [stake_of_ne, holds]) (quiet (by simp)) trivial
      | _ => exact hc.elim
  | @insert t id row pg hc hid hst hkey hins =>
      have hworld : Same s { s with pg := pg } := { Same.refl s with }
      cases t with
      | enqueue _ _ _ | tick =>
          exact keep hworld (by simp [stake_of_ne, holds]) (quiet (by simp)) trivial
      | _ => exact hc.elim
  | insertFails hc hid hkey hins =>
      cases t with
      | enqueue _ _ _ | tick =>
          exact keep same (by simp [stake_of_ne, holds]) (quiet (by simp)) trivial
      | _ => exact hc.elim
  | @publishReady t id q p f hc hid hq hpr =>
      cases t with
      | enqueue _ _ _ | tick =>
          rw [nothing (by simp) rfl, zero_add] at h
          refine become (quiet (by simp)) rfl ?_ trivial
          rw [nothing (by simp) rfl, zero_add]
          exact h.publishReady hid
      | _ => exact hc.elim
  | @publishDelayed t id q f score hc hid hq =>
      cases t with
      | enqueue _ _ _ | tick =>
          rw [nothing (by simp) rfl, zero_add] at h
          refine become (quiet (by simp)) rfl ?_ trivial
          rw [nothing (by simp) rfl, zero_add]
          exact h.publishDelayed hid
      | _ => exact hc.elim
  | remember hkey =>
      exact keep { Same.refl s with } (by simp [stake_of_ne, holds]) (quiet (by simp)) trivial
  | readDue hl =>
      refine keep same ?_ (quiet (by simp)) trivial
      rcases hl with rfl | ⟨q', rfl⟩ <;> simp [stake_of_ne, holds]
  | @claimDue now q j todo hj =>
      rw [nothing (by simp) rfl, zero_add] at h
      refine become (quiet (by simp)) rfl ?_ trivial
      rw [stake_of_ne (by simp)]
      exact h.claimDue
  | missDue hj => exact keep same (by simp [stake_of_ne, holds]) (quiet (by simp)) trivial
  | readPriority => exact keep same (by simp [stake_of_ne, holds]) (quiet (by simp)) trivial
  | @promote now q j k todo =>
      obtain ⟨x, rfl⟩ := ha
      rw [stake_of_ne (by simp)] at h
      refine become (quiet (by simp)) rfl ?_ trivial
      rw [nothing (by simp) rfl, zero_add]
      exact h.promote
  | cronFails ht hl =>
      refine keep same ?_ (quiet (by simp)) ?_
      · cases t <;> cases l <;> first | exact ht.elim | exact hl.elim | simp [stake_of_ne, holds]
      · cases t <;> first | exact ht.elim | trivial
  | @pull w x v c r hc hv hpulled =>
      have hup' : s.down w = false := hup.not_down rfl
      have hk' : holds (.loop w) ((truthy (some v)).elim .idle .pulled) = none ∨
          holds (.loop w) ((truthy (some v)).elim .idle .pulled) = some (.claim w v) := by
        by_cases hempty : v = ""
        · subst hempty
          exact .inl rfl
        · rw [truthy_some hempty]
          exact .inr rfl
      rw [nothing (by simp) rfl, zero_add] at h
      refine become (quiet ?_) rfl ?_ knew
      · rcases hc with rfl | rfl <;> simp
      · rw [stake_of_ne (by simp)]
        exact h.pull hv hk' hup' (hk hup')
  | pullNothing hc =>
      refine keep same (add_zero _) (quiet ?_) hk
      rcases hc with rfl | rfl <;> simp
  | @dispatch w j =>
      refine keep (object w _) ?_ (quiet (by simp)) knew
      rw [startsWith_call, nothing (by simp) rfl, stake_of_ne (by simp), zero_add]
      rfl
  | loopAgain => exact keep same (by simp [stake_of_ne, holds]) (quiet (by simp)) hk
  | loopExit => exact keep (object _ _) (by simp [stake_of_ne, holds]) (quiet (by simp)) knew
  | readJob hl =>
      refine keep same ?_ (quiet (by simp)) trivial
      rcases hl with rfl | ⟨h, rfl⟩ <;> simp [stake_of_ne, holds]
  | @pushBack w n j f =>
      obtain ⟨x, hx⟩ := exists_targetList (f.queueName.getD (env.queue w)) (f.priority.getD "normal")
      rw [hx] at become ⊢
      rw [stake_of_ne (by simp)] at h
      refine become (quiet (by simp)) rfl ?_ trivial
      rw [nothing (by simp) rfl, zero_add]
      exact h.pushBack
  | mark hp =>
      refine keep { Same.refl s with } (add_zero _) (quiet ?_) trivial
      rintro j p' hc
      cases hc
      exact hp.ne_completed
  | @complete w n j f p hp =>
      rw [stake_of_ne (by simp)] at h
      refine ⟨?_, trivial⟩
      rw [stake_of_ne (by simp), startsWith_nil, zero_add]
      refine h.complete ?_ fun k hk' => ?_
      · simp [counts, completes, hp]
      · cases k <;> first | rfl | exact absurd rfl (hk' _)
  | retry =>
      rw [stake_of_ne (by simp)] at h
      refine become (quiet (by simp)) rfl ?_ trivial
      rw [stake_of_ne (by simp)]
      exact h.retry (registered_queue hfit _)
  | bury =>
      rw [stake_of_ne (by simp)] at h
      refine become (quiet (by simp)) rfl ?_ trivial
      rw [stake_of_ne (by simp)]
      exact h.bury
  | @ack w n j =>
      rw [stake_of_ne (by simp)] at h
      refine become (quiet (by simp)) rfl ?_ trivial
      rw [nothing (by simp) rfl, zero_add]
      exact h.ack (hup.not_down rfl)
  | brokenMark _ | brokenRetry | brokenBury | brokenAck => exact hk.elim
  | handler => exact keep same (add_zero _) (quiet (by simp)) hk
  | @settle w n j l =>
      refine keep (object w _) ?_ (quiet (by simp)) ?_
      · cases l <;> simp [stake_of_ne, holds, Phase.settled]
      · cases l <;> first | exact hk.elim | trivial
  | inert hw hop => exact keep (object _ _) (add_zero _) (quiet (by simp)) knew
  | timerFires ht => exact keep same (by simp [stake_of_ne, holds]) (quiet (by simp)) trivial
  | begin hrun => exact keep (object _ _) (by simp [stake_of_ne, holds]) (quiet (by simp)) trivial
  | beginFails hrun => exact keep same (by simp [stake_of_ne, holds]) (quiet (by simp)) trivial
  | @register w =>
      have hworld : Same s (s.setSet redisKeys.workerRegistry
          (insert w (s.redis.sets redisKeys.workerRegistry))) :=
        { Same.refl s with queues := by simp, workers := by simp }
      exact keep hworld (by simp [stake_of_ne, holds]) (quiet (by simp)) (fun _ => by simp)
  | firstBeat =>
      exact keep { Same.refl s with } (by simp [stake_of_ne, holds]) (quiet (by simp)) hk
  | launch =>
      exact keep (object _ _) (by simp [stake_of_ne, holds]) (quiet (by simp)) trivial
  | beat => exact keep { Same.refl s with } (add_zero _) (quiet (by simp)) trivial
  | awaitLoop _ | deregister | dropHeartbeat | finish => cases hstop
  | @missing w l hno =>
      have hdown : s.down w = true := (hbeat w rfl).resolve_left hno
      refine become (quiet (by simp)) rfl ?_ hdown
      have hzero : stake .janitor (.found w) = 0 := by
        funext k
        cases k <;> rfl
      rw [hzero, zero_add]
      exact h.drop
  | @readOrphans w =>
      exact become (quiet (by simp)) rfl (h.drop.readOrphans hk) hk
  | readOrphan => exact keep same (by rw [startsWith_nil, add_zero]; rfl) (quiet (by simp)) hk
  | @pushOrphan w k j todo =>
      obtain ⟨x, rfl⟩ := ha
      exact become (quiet (by simp)) rfl (h.pushOrphan hk) hk
  | resetRow hp =>
      refine keep { Same.refl s with } (by rw [startsWith_nil, add_zero]; rfl) (quiet ?_) hk
      rintro j p' hc
      cases hc
      simp [hp]
  | @dropList w =>
      refine become (quiet (by simp)) rfl ?_ ⟨hk, by simp [Write.apply]⟩
      have hzero : stake .janitor (.deleted w) = 0 := by
        funext k
        cases k <;> rfl
      rw [hzero, zero_add]
      exact h.dropList hk
  | unregister => exact become (quiet (by simp)) rfl (h.unregister hk.2) knew
  | selectJob hrow hr => exact keep same (by simp [stake_of_ne, holds]) (quiet (by simp)) trivial
  | resetRetry hp =>
      refine keep { Same.refl s with } (add_zero _) (quiet ?_) trivial
      rintro j p' hc
      cases hc
      simp [hp]
  | readDlq => exact keep same (by simp [stake_of_ne, holds]) (quiet (by simp)) trivial
  | resetRequeue hp =>
      refine keep { Same.refl s with } (by simp [stake_of_ne, holds]) (quiet ?_) trivial
      rintro j p' hc
      cases hc
      simp [hp]
  | lift ht =>
      cases t with
      | retry _ | requeue _ _ =>
          rw [nothing (by simp) rfl, zero_add] at h
          refine become (quiet (by simp)) rfl ?_ trivial
          rw [stake_of_ne (by simp)]
          exact h.lift
      | _ => exact ht.elim
  | readLifted ht =>
      cases t with
      | retry _ | requeue _ _ =>
          exact keep same (by simp [stake_of_ne, holds]) (quiet (by simp)) trivial
      | _ => exact ht.elim
  | place ht =>
      cases t with
      | retry _ | requeue _ _ =>
          obtain ⟨x, rfl⟩ := ha
          rw [stake_of_ne (by simp)] at h
          refine become (quiet (by simp)) rfl ?_ trivial
          rw [nothing (by simp) rfl, zero_add]
          exact h.promote
      | _ => exact ht.elim

/-- A rejected command that can be spared loses nothing. -/
theorem Delivered.rejected (h : Delivered s (stake t l + g)) (hs : Spare t l c) :
    Delivered s (stake t (l.afterError t c) + g) := by
  obtain ⟨hhand, hbreak⟩ := hs
  have stays : l.afterError t c = l → Delivered s (stake t (l.afterError t c) + g) := by
    intro hl
    rwa [hl]
  have nothing : t ≠ .janitor → holds t l = none → holds t (l.afterError t c) = none →
      Delivered s (stake t (l.afterError t c) + g) := by
    intro ht hl hl'
    rw [stake_of_ne ht, hl] at h
    rwa [stake_of_ne ht, hl']
  cases t with
  | processOne w n j => cases c <;> first | exact stays rfl | cases hbreak
  | janitor =>
      have hzero : stake .janitor (l.afterError .janitor c) = 0 := by
        funext k
        cases k <;> rfl
      rw [hzero, zero_add]
      exact h.drop
  | loop w =>
      have hidle : stake (.loop w) (l.afterError (.loop w) c) = 0 := by
        rw [stake_of_ne (by simp)]
        exact holding_none
      rw [hidle, zero_add]
      rw [stake_of_ne (by simp)] at h
      cases hl : holds (.loop w) l with
      | none => rwa [hl, holding_none, zero_add] at h
      | some k =>
          have hclaim : ∃ j, k = .claim w j := by
            cases l <;> cases hl
            exact ⟨_, rfl⟩
          obtain ⟨j, rfl⟩ := hclaim
          rw [hl] at h
          exact h.forget
  | tick | retry _ =>
      refine nothing (by simp) ?_ rfl
      cases l <;> first | rfl | cases hhand
  | requeue q b =>
      refine nothing (by simp) ?_ ?_
      · cases l <;> first | rfl | cases hhand
      · cases l <;> first | (cases c <;> rfl) | cases hhand
  | _ => exact nothing (by simp) (by cases l <;> rfl) (by cases c <;> rfl)

/-- What a process knows after that. -/
theorem knows_rejected (hk : knows t l s) (hs : Spare t l c) : knows t (l.afterError t c) s := by
  obtain ⟨-, hbreak⟩ := hs
  cases t with
  | processOne w n j => cases c <;> first | exact hk | cases hbreak
  | loop w => exact hk
  | _ => trivial

/-- A task starts with nothing at stake. -/
theorem stake_start (ht : t.external) : stake t (Phase.start t) = 0 := by
  have hnone : t ≠ .janitor → holds t (Phase.start t) = none → stake t (Phase.start t) = 0 := by
    intro hne hl
    rw [stake_of_ne hne, hl, holding_none]
  cases t with
  | processOne _ _ _ => exact ht.elim
  | janitor =>
      funext k
      cases k <;> rfl
  | requeue q b =>
      refine hnone (by simp) ?_
      rcases Phase.start_requeue q b with h | ⟨_, -, h⟩ <;> rw [h] <;> rfl
  | _ => exact hnone (by simp) rfl

/-! ## No job in hand at the end -/

/-- Requeueing a job, whether it goes through or not, ends with no job in hand. -/
theorem requeueJobs_handless (q : QueueName) (b : RequeueBody) (todo : List JobId)
    (requeued failed : ℕ) :
    Follows (custody env) (.requeue q b) (.requeuing todo)
      (Routes.requeueJobs q requeued failed todo) fun _ l => l = .requeuing [] := by
  induction todo generalizing requeued failed with
  | nil => exact follows_pure rfl
  | cons id todo ih =>
      refine follows_bind (fun r l => (∃ ok, r = .ok ok) ∧ l = .requeuing todo) ?_
        (fun ok l hl => ?_) (fun _ _ hr => ?_)
      · refine follows_handle (fun _ l => l = .requeuing todo) ?_ (fun _ _ hl => ⟨⟨_, rfl⟩, hl⟩)
          (fun _ _ hl => follows_pure ⟨⟨_, rfl⟩, hl⟩)
        exact follows_bind _ (requeueJob_follows q b id todo) (fun _ _ hl => follows_pure hl)
          (fun _ _ hl => hl)
      · obtain ⟨-, rfl⟩ := hl
        cases ok with
        | true => exact ih (requeued + 1) failed
        | false => exact ih requeued (failed + 1)
      · obtain ⟨⟨_, hr⟩, -⟩ := hr
        cases hr

/-- **Every task ends with no job in hand.** -/
theorem handless_follows (t : Task) :
    Follows (custody env) t (Phase.start t) (body env t) fun _ l => inHand t l = none := by
  cases t with
  | tick =>
      refine follows_mono (custody_follows .tick) fun _ l hl => ?_
      rcases hl with hl | rfl
      · cases l <;> first | rfl | exact hl.elim
      · rfl
  | requeue q b =>
      refine follows_bind (fun _ l => inHand (.requeue q b) l = none) ?_
        (fun _ _ hl => follows_pure hl) (fun _ _ hl => hl)
      have loop : ∀ todo, Follows (custody env) (.requeue q b) (.requeuing todo)
          (Routes.requeueJobs q 0 0 todo) fun _ l => inHand (.requeue q b) l = none := fun todo =>
        follows_mono (requeueJobs_handless q b todo 0 0) fun _ l hl => by rw [hl]; rfl
      obtain ⟨jobIds, all⟩ := b
      cases all with
      | true =>
          have hstart : Phase.start (.requeue q ⟨jobIds, true⟩) = .idle := by cases jobIds <;> rfl
          rw [hstart]
          exact follows_step .readDlq (fun todo => loop todo) (fun _ => rfl)
      | false =>
          cases jobIds with
          | none => exact follows_pure rfl
          | some todo => exact loop todo
  | retry id =>
      refine follows_bind (fun _ l => inHand (.retry id) l = none) ?_
        (fun _ _ hl => follows_pure hl) (fun _ _ hl => hl)
      refine follows_step .selectJob (fun job => ?_) (fun _ => rfl)
      cases job with
      | none => exact follows_pure rfl
      | some row =>
          have hnext : (custody env).next (.retry id) (Phase.start (.retry id)) (.select id)
              (.ok (some row)) =
                if Routes.retriable row then .resetting id row.queueName [] else .idle := rfl
          rw [hnext]
          dsimp only
          cases Routes.retriable row with
          | false => exact follows_pure rfl
          | true =>
              refine follows_step (.resetRetry rfl) (fun _ => ?_) (fun _ => rfl)
              refine follows_step (.quiet (quiet_hset (by
                simp [JobHash.keepsIdentity, Routes.resetFields]))) (fun _ => ?_) (fun _ => rfl)
              refine follows_step (.lift trivial) (fun _ => ?_) (fun _ => rfl)
              refine follows_bind (fun _ l => inHand (.retry id) l = none) ?_
                (fun _ _ hl => follows_pure hl) (fun _ _ hl => hl)
              refine follows_step (.readLifted trivial) (fun h => ?_) (fun _ => rfl)
              refine follows_step (.place trivial) (fun _ => ?_) (fun _ => rfl)
              refine follows_step (.quiet trivial) (fun now => ?_) (fun _ => rfl)
              refine follows_perform (.quiet trivial) fun r => ?_
              cases r <;> rfl
  | _ => exact follows_mono (custody_follows _) fun _ l _ => by cases l <;> rfl

/-! ## Runs -/

/-- The `i`-th process has no job in hand. -/
def HandsEmpty (env : Env) (c : State) (i : ℕ) : Prop :=
  ∀ p ∈ c.pool[i]?, inHand p.task ((custody env).phase p.task p.hist) = none

instance (env : Env) (c : State) (i : ℕ) : Decidable (HandsEmpty env c i) :=
  inferInstanceAs (Decidable (∀ p ∈ c.pool[i]?, _))

/-- The next command of the `i`-th process can be spared. -/
def Spares (env : Env) (c : State) (i : ℕ) : Prop :=
  ∀ p ∈ c.pool[i]?, ∀ cmd ∈ nextCmd c i, Spare p.task ((custody env).phase p.task p.hist) cmd

instance (env : Env) (c : State) (i : ℕ) : Decidable (Spares env c i) :=
  inferInstanceAs (Decidable (∀ p ∈ c.pool[i]?, ∀ cmd ∈ nextCmd c i, _))

/-- Workers crash at any point.  A process halts, and a command of it is rejected, only if
it has no job in hand, and if it is no `processOne` call that the rejection breaks off.  A
heartbeat is missing only if its worker is down, no worker is stopped, and requests requeue
jobs of the dead-letter queue they name. -/
def Guarded (env : Env) (c : State) : Action → Prop
  | .start t => t.external ∧ c.store.buries t ∧ stops t = false
  | .call i o => (o.works ∨ Spares env c i) ∧
      ∀ w ∈ (nextCmd c i).bind Cmd.seeks, c.store.beats w ∨ c.store.down w = true
  | .halt i => HandsEmpty env c i
  | .drift _ => True

instance (env : Env) (c : State) : (a : Action) → Decidable (Guarded env c a)
  | .start t => inferInstanceAs (Decidable (t.external ∧ c.store.buries t ∧ stops t = false))
  | .call i o => inferInstanceAs (Decidable ((o.works = true ∨ Spares env c i) ∧
      ∀ w ∈ (nextCmd c i).bind Cmd.seeks, c.store.beats w ∨ c.store.down w = true))
  | .halt i => inferInstanceAs (Decidable (HandsEmpty env c i))
  | .drift _ => .isTrue trivial

theorem Guarded.dlqBound {a : Action} {c : State} (h : Guarded env c a) : DlqBound c a := by
  cases a with
  | start t => exact ⟨h.1, h.2.1⟩
  | _ => trivial

/-- A rejected command starts no task. -/
theorem forks_rejected (e : Err) : forks t c (.error e) = [] := by
  cases c with
  | onWorker w op => cases op <;> rfl
  | _ => rfl

/-- What a command starts knows what it should. -/
theorem knows_forks (hk : knows t l s) (he : Effect env s t l c r s' l' ts) {t' : Task}
    (ht' : t' ∈ ts) : stops t' = false ∧ knows t' (Phase.start t') s' := by
  cases he with
  | launch =>
      rw [List.mem_singleton.mp ht']
      exact ⟨rfl, hk⟩
  | loopAgain =>
      rw [List.mem_singleton.mp ht']
      exact ⟨rfl, hk⟩
  | dispatch =>
      rw [List.mem_singleton.mp ht']
      exact ⟨rfl, trivial⟩
  | _ => cases ht'

/-- Stores that work reject only the `SELECT` of a retry, which can be spared. -/
theorem spare_of_unreadable (hp : Permits env t l c) (hi : Identity.knows (fun _ => True) t l s)
    (ho : o.works = true) (hno : o.takes c = false) : Spare t l c := by
  by_cases hselect : ∃ id, c = .select id
  · obtain ⟨id, rfl⟩ := hselect
    cases hp with
    | quiet hq => exact hq.elim
    | selectJob => exact ⟨rfl, rfl⟩
  · rw [Oracle.takes_of_works ho (Identity.readable hi hp hselect)] at hno
    cases hno

/-- A task that is started from outside knows nothing. -/
theorem knows_start (ht : t.external) : knows t (Phase.start t) s := by
  cases t with
  | loop w => exact ht.elim
  | _ => trivial

/-- **Delivery is a sound discipline in guarded runs.** -/
theorem delivery_sound : (delivery env).Sound
    fun c a => Guarded env c a ∧ (Identity.identity env fun _ => True).PoolOk c where
  follows t _ := handless_follows t
  call s t l c o r s' F h := by
    obtain ⟨hspare, hbeat, hfit⟩ := h.allow
    obtain ⟨haim, hk⟩ := h.loc
    obtain ⟨hup, ⟨err, hno, -, rfl, rfl⟩ | ⟨-, ha⟩⟩ := exec_cases h.exec
    -- the command has been rejected: it is one that can be spared
    · have hs : Spare t l c :=
        hspare.elim (fun ho => spare_of_unreadable h.permits hfit.2 ho hno) id
      have hcounts : counts t c (.error err) = 0 := by
        funext k
        cases k <;> first | rfl | (cases t <;> cases c <;> rfl)
      have hstarts : (delivery env).starts ((machine env).forks t c (.error err)) = 0 := by
        show startsWith (forks t c (.error err)) = 0
        rw [forks_rejected, startsWith_nil]
      rw [hstarts, add_zero]
      refine ⟨?_, ⟨aimed_error haim c, knows_rejected hk hs⟩, fun t' ht' => ?_⟩
      · show Delivered s' (stake t (l.afterError t c) + (counts t c (.error err) + F))
        rw [hcounts, zero_add]
        exact Delivered.rejected h.inv hs
      · have hnil : t' ∈ forks t c (.error err) := ht'
        rw [forks_rejected] at hnil
        cases hnil
    · have he := effect_of_answer h.permits ha
      obtain ⟨hd, hk'⟩ := Delivered.effect h.inv h.good haim hk hfit hup hbeat he
      rw [← add_assoc (counts t c r)] at hd
      refine ⟨hd, ⟨aimed_of_effect he haim, hk'⟩, fun t' ht' => ?_⟩
      obtain ⟨hstop, hstart⟩ := knows_forks hk he ht'
      exact ⟨hstop, aimed_start t', hstart⟩
  stable s t l c o r s' F h t₂ l₂ F₂ _ _ hk := by
    refine ⟨hk.1, ?_⟩
    obtain ⟨hup, ⟨-, -, -, rfl, -⟩ | ⟨-, ha⟩⟩ := exec_cases h.exec
    · exact hk.2
    · exact knows_effect h.loc.2 h.good h.loc.1 hup (effect_of_answer h.permits ha) hk.2
  start c t hok hc := by
    refine ⟨hok.1.2.2, ?_, aimed_start t, knows_start hok.1.1⟩
    show Delivered c.store (stake t (Phase.start t) + _)
    rw [stake_start hok.1.1, zero_add]
    exact hc.1
  allows c i o p cmd k hok _ hp hprog := by
    have hnext : cmd ∈ nextCmd c i := by simp [nextCmd, hp, hprog]
    refine ⟨hok.1.1.imp_right fun hs => hs p hp cmd hnext, fun w hw => hok.1.2 w ?_,
      Identity.fit_of_mem hok.2 (List.mem_of_getElem? hp)⟩
    simpa [nextCmd, hp, hprog] using hw
  drift c d s' hok hc hd := by
    -- time and crashes bring no worker back to life
    have hup : ∀ {w}, s'.down w = false → c.store.down w = false := by
      intro w hw
      by_contra hdown
      rw [down_of_drift hd (by simpa using hdown)] at hw
      cases hw
    have hredis : s'.redis = c.store.redis := by
      cases d <;> cases hd <;> rfl
    refine ⟨?_, fun t l _ hk => ⟨hk.1, ?_⟩⟩
    · cases d with
      | pass ms =>
          cases hd
          exact hc.1.same { Same.refl c.store with }
      | crash w =>
          cases hd
          exact hc.1.crash w
    · have hk := hk.2
      cases t with
      | loop w =>
          intro hw
          rw [hredis]
          exact hk (hup hw)
      | start w =>
          cases l with
          | registered | beating =>
              intro hw
              rw [hredis]
              exact hk (hup hw)
          | _ => trivial
      | processOne w n j => cases l <;> first | exact hk.elim | trivial
      | janitor =>
          cases l with
          | found w | recovering w _ | routing w _ _ _ | restored w _ _ =>
              exact down_of_drift hd hk
          | deleted w =>
              refine ⟨down_of_drift hd hk.1, ?_⟩
              rw [hredis]
              exact hk.2
          | _ => trivial
      | _ => trivial

/-- In an empty deployment no job is published. -/
theorem delivery_blank (c : State) (hc : Blank c) : (delivery env).PoolOk c := by
  obtain ⟨now, room, rfl⟩ := hc
  refine ⟨⟨fun j hj => ?_, fun w j _ => ?_, fun w hw => absurd rfl hw, fun w j hpos => ?_⟩,
    by simp⟩
  · simp [World.enqueued] at hj
  · simp [Discipline.total]
  · simp [Discipline.total] at hpos

/-- Operators may use any spelling. -/
theorem anyhow_of_guarded {c : State} (hc : (machine env).Reach (Guarded env) Blank c) :
    (machine env).Reach (DlqBoundBy fun _ => True) Blank c :=
  hc.mono (fun c a h => ⟨h.dlqBound, spelled_anyhow c a⟩) fun _ => id

/-- The discipline holds in every reachable state. -/
theorem poolOk_of_reach {c : State} (hc : (machine env).Reach (Guarded env) Blank c) :
    (delivery env).PoolOk c := by
  have hid : ∀ c, (machine env).Reach (Guarded env) Blank c →
      (Identity.identity env fun _ => True).PoolOk c := fun c hc =>
    Identity.poolOk_of_reach (fun _ _ => trivial)
      (Identity.named_of_dlqBound (fun _ _ => trivial) (anyhow_of_guarded hc))
  exact delivery_sound.reach delivery_blank (hc.with_invariant hid)

end Step

section Result

variable {env : Env} {c : State} {j : JobId}

/-- The number of calls that have handed over an entry and not removed it yet. -/
def handedOver (env : Env) (c : State) (w : WorkerId) (j : JobId) : ℕ :=
  holders (custody env) holds c.pool (.handed w j)

/-- The `i`-th process goes on with a job that it has in hand. -/
def Carries (env : Env) (c : State) (j : JobId) (i : ℕ) : Prop :=
  (∃ p ∈ c.pool[i]?, p.halted = false ∧
    inHand p.task ((custody env).phase p.task p.hist) = some j) ∧ (nextCmd c i).isSome

/-- The job is safe in this place: in a list or a set of its own queue and priority, in
the list of a registered worker that is up and has a call for it or will have one, in the
list of a registered worker that is down and that every janitor at work on it still has to
push, in the hands of a process that goes on, or completed. -/
def SafeIn (env : Env) (c : State) (j : JobId) : Place → Prop
  | .ready x => j ∈ c.store.redis.lists (.queue x) ∧ Home c.store j (.queue x)
  | .delayed q => q ∈ c.store.redis.sets redisKeys.queueRegistry ∧
      j ∈ c.store.redis.zsets (redisKeys.delayed q) ∧ queueOf c.store j = some q
  | .processing w => w ∈ c.store.redis.sets redisKeys.workerRegistry ∧
      if c.store.down w then j ∈ c.store.redis.lists (redisKeys.processing w) ∧
        ∀ p ∈ c.pool, ∀ todo ∈ remaining w p.task ((custody env).phase p.task p.hist), j ∈ todo
      else handedOver env c w j < (c.store.redis.lists (redisKeys.processing w)).count j
  | .dlq q => j ∈ c.store.redis.lists (redisKeys.dlq q) ∧ queueOf c.store j = some q
  | .hands => ∃ i, Carries env c j i
  | .completed => 0 < completions env c j

/-- A process with a job in hand goes on. -/
theorem carries_of_hand (hc : (machine env).Reach (Guarded env) Blank c)
    (hpos : 0 < holders (custody env) holds c.pool (.hand j)) : ∃ i, Carries env c j i := by
  obtain ⟨p, hp, hholds⟩ := List.countP_pos_iff.mp hpos
  rw [decide_eq_true_eq] at hholds
  have hhand : inHand p.task ((custody env).phase p.task p.hist) = some j := by
    rw [inHand, hholds]
  obtain ⟨i, hi⟩ := List.mem_iff_getElem?.mp hp
  refine ⟨i, ⟨p, hi, ?_, hhand⟩, ?_⟩
  · by_contra hhalt
    have hempty := Machine.Reach.halted
      (Q := fun t h => inHand t ((custody env).phase t h) = none)
      (fun c hc => by obtain ⟨now, room, rfl⟩ := hc; rfl) (fun c i p hok hp => hok p hp) hc p hp
      (by simpa using hhalt)
    rw [hhand] at hempty
    cases hempty
  · have hfol := (poolOk_of_reach hc).2 p hp |>.2.2
    have hover : ∀ r : Except Err (Option JobId),
        ¬ (delivery env).post p.task r ((custody env).phase p.task p.hist) := by
      intro r hpost
      have hnone : inHand p.task ((custody env).phase p.task p.hist) = none := hpost
      rw [hhand] at hnone
      cases hnone
    cases hprog : p.prog with
    | ret a =>
        rw [hprog] at hfol
        exact absurd hfol (hover (.ok a))
    | raise e =>
        rw [hprog] at hfol
        exact absurd hfol (hover (.error e))
    | call cmd k => simp [nextCmd, hi, hprog]

/-- **No job is lost when workers crash.**  In every reachable state of a run in which
workers crash at any point, janitors and all other processes are cut off wherever they have
no job in hand, and commands that can be spared are rejected: every published job is safe in
some place. -/
theorem nothing_lost (hc : (machine env).Reach (Guarded env) Blank c)
    (hj : c.store.enqueued j) : ∃ o, SafeIn env c j o := by
  have hok := poolOk_of_reach hc
  have hrouted := (Routing.poolOk_of_reach (fun _ _ => trivial) (anyhow_of_guarded hc)).1
  have hprinted : Uuid.Printed j := (Identity.poolOk_of_reach (fun _ _ => trivial)
    (Identity.named_of_dlqBound (fun _ _ => trivial) (anyhow_of_guarded hc))).1.printed hj
  obtain ⟨o, ho⟩ := hok.1.kept j hj
  cases o with
  | ready x => exact ⟨.ready x, ho, hrouted.ready x j ho hprinted⟩
  | delayed q => exact ⟨.delayed q, ho.1, ho.2, hrouted.delayed q j ho.2 hprinted⟩
  | dlq q => exact ⟨.dlq q, ho, hrouted.dlq q j ho hprinted⟩
  | processing w =>
      have hhanded : (delivery env).total c.pool (.handed w j) = handedOver env c w j :=
        (delivery env).total_eq_holders holds (fun _ _ => rfl) (fun _ _ _ _ => rfl) _
      have hregistered : ∀ {j}, j ∈ c.store.redis.lists (.processing w) →
          w ∈ c.store.redis.sets redisKeys.workerRegistry := fun hmem =>
        hok.1.registered w (List.ne_nil_of_mem hmem)
      refine ⟨.processing w, ?_⟩
      simp only [At] at ho
      simp only [SafeIn]
      by_cases hdown : c.store.down w = true
      · rw [if_pos hdown] at ho ⊢
        obtain ⟨hmem, hpast⟩ := ho
        refine ⟨hregistered hmem, hmem, fun p hp todo htodo => ?_⟩
        rw [Discipline.total_apply] at hpast
        have hzero : past j (remaining w p.task ((custody env).phase p.task p.hist)) = 0 := by
          have hsum := Nat.eq_zero_of_add_eq_zero_right hpast
          exact List.sum_eq_zero_iff.mp hsum _ (List.mem_map_of_mem hp)
        rw [Option.mem_def.mp htodo] at hzero
        by_contra hnot
        simp [past, hnot] at hzero
      · rw [if_neg hdown] at ho ⊢
        rw [hhanded] at ho
        refine ⟨hregistered (j := j) ?_, ho⟩
        apply List.count_pos_iff.mp
        exact lt_of_le_of_lt (Nat.zero_le _) ho
  | hands =>
      have hhand : (delivery env).total c.pool (.hand j) =
          holders (custody env) holds c.pool (.hand j) :=
        (delivery env).total_eq_holders holds (fun _ _ => rfl) (fun _ _ _ _ => rfl) _
      refine ⟨.hands, carries_of_hand hc ?_⟩
      rw [← hhand]
      exact ho
  | completed =>
      have hcompleted : (delivery env).total c.pool (.completed j) = completions env c j :=
        (delivery env).total_eq_counted _ (fun _ _ => rfl) (fun _ _ _ _ => rfl) _
      refine ⟨.completed, ?_⟩
      show 0 < completions env c j
      rw [← hcompleted]
      exact ho

/-- The theorem on a run in which a worker has crashed at work on a job, and the janitor
that has found it halts after its first push. -/
theorem nothing_lost_after_crash :
    ∃ c, (machine sample).Reach (Guarded sample) Blank c ∧ c.store.down "w1" = true ∧
      j1.text ∈ c.store.redis.lists (redisKeys.processing "w1") ∧
      ∃ o, SafeIn sample c j1.text o := by
  obtain ⟨c, hc, ht⟩ := Machine.exists_reach (machine sample) (Guarded sample) Blank blank_blank
    ([.start (.enqueue "echo" (some .null) {}), .call 0 (.fresh j1)] ++ goes 0 5 ++
      [.start (.start "w1")] ++ goes 1 8 ++ goes 2 5 ++ goes 3 3 ++
      [.drift (.crash "w1"), .drift (.pass 15000), .start .janitor,
        .call 4 (.members ["w1"])] ++ goes 4 4 ++ [.halt 4])
    (fun c => decide (c.store.enqueued j1.text ∧ c.store.down "w1" = true ∧
      j1.text ∈ c.store.redis.lists (redisKeys.processing "w1")))
    (by decide +kernel)
  obtain ⟨hj, hdown, hmem⟩ := of_decide_eq_true ht
  exact ⟨c, hc, hdown, hmem, nothing_lost hc hj⟩

end Result

end Delivery

end NexusQueue
