/-
# What happens to the delayed sets

The promotion of a delayed job touches little of the world: the delayed sets, the
due lists of the schedulers and what they have in hand.  `Shift` is the list of
effects as far as these are concerned, and `shift_of_effect` derives it from the
full list.  The results about promotion are proved over this shorter list.
-/
import NexusQueue.Tokens
import NexusQueue.Conduct
import NexusQueue.Transition

namespace NexusQueue

/-! ## Commands -/

/-- The entry a write adds to a delayed set: queue, score and job. -/
def Write.delays : Write → Option (QueueName × ℚ × JobId)
  | .zadd (.delayed q) score j => some (q, score, j)
  | _ => none

/-- The entries a command adds to the delayed sets. -/
def Cmd.delays : Cmd → List (QueueName × ℚ × JobId)
  | .write w => w.delays.toList
  | .multi ws => ws.filterMap Write.delays
  | _ => []

/-- How often a command adds `j` to the delayed set of `q`. -/
def Cmd.additions (q : QueueName) (j : JobId) (c : Cmd) : ℕ :=
  c.delays.countP fun e => e.1 = q ∧ e.2.2 = j

/-- Neutral commands leave the delayed sets alone. -/
theorem Cmd.neutral.delays {c : Cmd} (h : c.neutral) : c.delays = [] := by
  cases c with
  | write w =>
      cases w with
      | zadd k score m => cases k <;> first | rfl | exact h.elim
      | _ => rfl
  | multi ws => exact h.elim
  | _ => rfl

/-! ## Phases -/

namespace Promotion

/-- The job a scheduler has claimed and not pushed yet, with its queue. -/
def hand : Task → Phase → Option (QueueName × JobId)
  | .tick, .inHand _ q j _ _ => some (q, j)
  | _, _ => none

/-- The task is not at work on a due list. -/
def OffDuty : Task → Phase → Prop
  | .tick, .clocked _ | .tick, .due _ _ _ | .tick, .inHand _ _ _ _ _ => False
  | _, _ => True

/-- A scheduler that holds nothing has nothing in hand. -/
theorem hand_free {l : Phase} (h : l.free) : hand .tick l = none := by
  cases l <;> first | rfl | exact h.elim

/-- How often a command of a scheduler pushes `j`, claimed from the delayed set of
`q`, to a ready list. -/
def promotes (q : QueueName) (j : JobId) : Task → Phase → Cmd → ℕ
  | .tick, .inHand _ q' j' _ _, .write (.lpush _ _) => if q' = q ∧ j' = j then 1 else 0
  | _, _, _ => 0

/-- Neutral commands promote nothing. -/
theorem promotes_neutral {q : QueueName} {j : JobId} {t : Task} {l : Phase} {c : Cmd}
    (h : c.neutral) : promotes q j t l c = 0 := by
  unfold promotes
  split
  · exact h.elim
  · rfl

/-- A task with nothing in hand promotes nothing. -/
theorem promotes_empty {q : QueueName} {j : JobId} {t : Task} {l : Phase} {c : Cmd}
    (h : hand t l = none) : promotes q j t l c = 0 := by
  unfold promotes
  split
  · cases h
  · rfl

/-! ## The list of shifts -/

/-- The delayed sets of two worlds are the same. -/
def SameDelayed (s s' : World) : Prop :=
  ∀ q, s'.redis.zsets (.delayed q) = s.redis.zsets (.delayed q)

/-- What an effect does to the delayed sets, the due lists and the hands of the
schedulers. -/
inductive Shift (s : World) : (t : Task) → Phase → (c : Cmd) → Except Err c.Resp → World →
    Phase → Prop
  | still {t l c r s' l'} : SameDelayed s s' → c.delays = [] →
      (∀ q j, promotes q j t l c = 0) → (l' = l ∨ hand t l = none ∧ OffDuty t l') →
      Shift s t l c r s' l'
  | clock {l} : l.free → Shift s .tick l .now (.ok s.clock) s (.clocked s.clock)
  | read {now : ℕ} {q l} : (l = .clocked now ∨ ∃ q', l = .due now q' []) →
      Shift s .tick l (.zrangebyscore (redisKeys.delayed q) (some (now : ℚ)))
        (.ok ((s.redis.zsets (redisKeys.delayed q)).rangeByScore (some now))) s
        (.due now q ((s.redis.zsets (redisKeys.delayed q)).rangeByScore (some now)))
  | skip {now q j todo} : j ∉ s.redis.zsets (redisKeys.delayed q) →
      Shift s .tick (.due now q (j :: todo)) (.zrem (redisKeys.delayed q) j) (.ok 0) s
        (.due now q todo)
  | claim {now q j todo} : j ∈ s.redis.zsets (redisKeys.delayed q) →
      Shift s .tick (.due now q (j :: todo)) (.zrem (redisKeys.delayed q) j) (.ok 1)
        (s.setDelayed q ((s.redis.zsets (redisKeys.delayed q)).zrem j)) (.inHand now q j none todo)
  | route {now q j todo} :
      Shift s .tick (.inHand now q j none todo) (.hgetPriority (redisKeys.job j))
        (.ok (s.redis.jobs (redisKeys.job j)).priority) s
        (.inHand now q j
          (some (targetList q ((s.redis.jobs (redisKeys.job j)).priority.getD "normal"))) todo)
  | promote {now q j k todo} :
      Shift s .tick (.inHand now q j (some k) todo) (.write (.lpush k j)) (.ok ()) (s.push k j)
        (.due now q todo)
  | add {t l c a s' l' q score j} : hand t l = none → OffDuty t l' →
      c.delays = [(q, score, j)] →
      (∀ q', s'.redis.zsets (.delayed q') = if q' = q then
        (s.redis.zsets (.delayed q)).zadd score j else s.redis.zsets (.delayed q')) →
      Shift s t l c (.ok a) s' l'

section Inversion

variable {env : Env} {s s' : World} {t : Task} {l l' : Phase} {c : Cmd} {r : Except Err c.Resp}
  {ts : List Task}

theorem SameDelayed.refl (s : World) : SameDelayed s s := fun _ => rfl

/-- One delayed set is replaced. -/
theorem setDelayed_apply (s : World) (q : QueueName) (z : SortedSet String ℚ) (q' : QueueName) :
    (s.setDelayed q z).redis.zsets (.delayed q') =
      if q' = q then z else s.redis.zsets (.delayed q') := by
  by_cases h : q' = q <;> simp [h]

/-- **Inversion lemma.**  What any effect does to the delayed sets. -/
theorem shift_of_effect (he : Effect env s t l c r s' l' ts) : Shift s t l c r s' l' := by
  have same := SameDelayed.refl s
  cases he with
  | still hn hf hw => exact .still hf.delayed hn.delays (fun _ _ => promotes_neutral hn) (.inl rfl)
  | clock hfree => exact .clock hfree
  -- a scheduler that draws an id has nothing in its hands
  | draw hc hp hid hne =>
      have hnone : hand t l = none := by
        cases hp with
        | quiet hq => exact hq.elim
        | uuidKeyless _ | uuidMissed => rfl
        | uuidCron hfree => exact hand_free hfree
      refine .still same rfl (fun _ _ => promotes_empty hnone) (.inr ⟨hnone, ?_⟩)
      cases t <;> trivial
  | insert hc _ _ _ _ | insertFails hc _ _ _ =>
      refine .still same rfl (fun _ _ => ?_) (.inr ⟨?_, ?_⟩)
      all_goals cases t <;> first | rfl | trivial
  | publishReady hc hid hq hpr =>
      refine .still same rfl (fun _ _ => ?_) (.inr ⟨?_, ?_⟩)
      all_goals cases t <;> first | rfl | trivial
  | @publishDelayed t id q f score hc hid hq =>
      refine @Shift.add _ _ _ _ _ _ _ q score id ?_ ?_ rfl fun q' => ?_
      · cases t <;> rfl
      · cases t <;> trivial
      · exact setDelayed_apply _ _ _ _
  | readDue hl => exact .read hl
  | claimDue hj => exact .claim hj
  | missDue hj => exact .skip hj
  | readPriority => exact .route
  | promote => exact .promote
  | cronFails ht hl =>
      have hnone : hand t l = none := by
        cases t <;> first | rfl | exact hand_free hl
      refine .still same rfl (fun _ _ => promotes_empty hnone) (.inr ⟨hnone, ?_⟩)
      cases t <;> trivial
  | pull hc hv hpulled =>
      refine .still (fun _ => rfl) ?_ (fun _ _ => rfl) (.inr ⟨rfl, trivial⟩)
      rcases hc with rfl | rfl <;> rfl
  | pullNothing hc =>
      refine .still same ?_ (fun _ _ => rfl) (.inl rfl)
      rcases hc with rfl | rfl <;> rfl
  -- a retry is added to the delayed set of its queue
  | retry =>
      exact .add rfl trivial rfl fun q' => setDelayed_apply _ _ _ _
  | brokenRetry =>
      exact .add rfl trivial rfl fun q' => setDelayed_apply _ _ _ _
  | dropHeartbeat =>
      exact .still (fun _ => by simp [Write.apply]) rfl (fun _ _ => rfl) (.inl rfl)
  | dropList =>
      exact .still (fun _ => by simp [Write.apply]) rfl (fun _ _ => rfl) (.inr ⟨rfl, trivial⟩)
  | @inert t l w op a obj hw hop =>
      refine .still same rfl (fun _ _ => ?_) (.inl rfl)
      cases t <;> first | rfl | cases hw
  | lift ht | readLifted ht | place ht =>
      cases t <;> exact .still (fun _ => rfl) rfl (fun _ _ => rfl) (.inr ⟨rfl, trivial⟩)
  | _ => exact .still (fun _ => rfl) rfl (fun _ _ => rfl) (.inr ⟨rfl, trivial⟩)

end Inversion

end Promotion

end NexusQueue
