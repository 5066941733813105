/-
# No double promotion

Every push of a delayed job by a scheduler is paid for by an addition of that job
to the delayed set it was claimed from.  At any moment the pushes so far, the
schedulers that hold the job in hand and the entry in the set, if there is one,
are together at most the additions so far: an addition makes at most one entry,
a claim turns the entry into a job in hand, and a push empties the hand.

Anything may go wrong in these runs.
-/
import NexusQueue.Delayed

namespace NexusQueue

namespace Promotion

/-- The number of pushes of `j`, claimed from the delayed set of `q`, by
schedulers. -/
def promotions (env : Env) (c : State) (q : QueueName) (j : JobId) : ℕ :=
  counted (custody env) (fun t l cmd r => if r.isOk then promotes q j t l cmd else 0) c.pool

/-- The number of additions of `j` to the delayed set of `q`, by anyone. -/
def additions (env : Env) (c : State) (q : QueueName) (j : JobId) : ℕ :=
  counted (custody env) (fun _ _ cmd r => if r.isOk then cmd.additions q j else 0) c.pool

/-- What is counted: schedulers with a job in hand, pushes, and additions. -/
inductive Entry where
  | hand (queue : QueueName) (jobId : JobId)
  | promoted (queue : QueueName) (jobId : JobId)
  | added (queue : QueueName) (jobId : JobId)
  deriving DecidableEq

/-- What a command that succeeds counts for. -/
def counts (t : Task) (l : Phase) (c : Cmd) : Entry → ℕ
  | .hand _ _ => 0
  | .promoted q j => promotes q j t l c
  | .added q j => c.additions q j

/-- What a task has in hand. -/
def inHand (t : Task) (l : Phase) : Option Entry := (hand t l).map fun qj => .hand qj.1 qj.2

/-- Pushes, hands and entries are covered by additions. -/
def Covered (s : World) (g : Entry → ℕ) : Prop :=
  ∀ q j, g (.promoted q j) + g (.hand q j) + (if j ∈ s.redis.zsets (.delayed q) then 1 else 0) ≤
    g (.added q j)

/-- Promotion as a discipline over the custody protocol. -/
def promotion (env : Env) : Discipline (machine env) (custody env) (Entry → ℕ) where
  good _ := True
  val t l := holding (inHand t l)
  emit t l c r := if r.isOk then counts t l c else 0
  loc _ _ _ := True
  inv := Covered
  allow _ _ _ _ _ _ := True
  post := Concluded

section Step

variable {env : Env} {s s' : World} {t : Task} {l l' : Phase} {c : Cmd} {r : Except Err c.Resp}
  {g : Entry → ℕ}

/-- What is in hand counts for that job and queue only. -/
theorem holding_inHand (q : QueueName) (j : JobId) :
    holding (inHand t l) (.hand q j) = if hand t l = some (q, j) then 1 else 0 := by
  cases h : hand t l with
  | none => simp [inHand, h]
  | some qj => simp [inHand, h, Prod.ext_iff]

@[simp] theorem holding_inHand_promoted (q : QueueName) (j : JobId) :
    holding (inHand t l) (.promoted q j) = 0 := by
  cases h : hand t l <;> simp [inHand, h]

@[simp] theorem holding_inHand_added (q : QueueName) (j : JobId) :
    holding (inHand t l) (.added q j) = 0 := by
  cases h : hand t l <;> simp [inHand, h]

/-- Nothing that is counted changes, except that a hand may be emptied. -/
theorem Covered.keep (h : Covered s (holding (inHand t l) + g)) (hz : SameDelayed s s')
    (hhand : hand t l' = hand t l ∨ hand t l' = none) : Covered s' (holding (inHand t l') + g) := by
  intro q j
  have hq := h q j
  simp only [Pi.add_apply, holding_inHand_promoted, holding_inHand_added, holding_inHand,
    zero_add] at hq ⊢
  rw [hz q]
  rcases hhand with hh | hh
  · rw [hh]
    exact hq
  · rw [hh, if_neg (by simp)]
    omega

/-- **Step lemma.**  Every shift keeps pushes, hands and entries covered. -/
theorem Covered.shift (h : Covered s (holding (inHand t l) + g)) (hs : Shift s t l c r s' l') :
    Covered s' (holding (inHand t l') + ((if r.isOk then counts t l c else 0) + g)) := by
  -- the entry or the hand gives way, and nothing is pushed or added
  have free : Covered s' (holding (inHand t l') + g) → (∀ q j, promotes q j t l c = 0) →
      Covered s' (holding (inHand t l') + ((if r.isOk then counts t l c else 0) + g)) := by
    intro hc hp q j
    have hq := hc q j
    simp only [Pi.add_apply, holding_inHand_promoted, holding_inHand_added] at hq ⊢
    split
    · simp only [counts, hp]
      omega
    · simpa using hq
  cases hs with
  | still hz hd hp hl =>
      refine free (h.keep hz ?_) hp
      rcases hl with rfl | ⟨hnone, hoff⟩
      · exact .inl rfl
      · right
        cases t <;> cases l' <;> first | rfl | exact hoff.elim
  | clock hfree =>
      exact free (h.keep (.refl s) (.inr rfl)) fun _ _ => promotes_empty (hand_free hfree)
  | read hl =>
      refine free (h.keep (.refl s) (.inr rfl)) fun _ _ => ?_
      rcases hl with rfl | ⟨q', rfl⟩ <;> rfl
  | skip hj => exact free (h.keep (.refl s) (.inr rfl)) fun _ _ => rfl
  -- from the set into the hands of the scheduler
  | @claim now q j todo hj =>
      refine free (fun q' j' => ?_) fun _ _ => rfl
      have hq := h q' j'
      simp only [Pi.add_apply, holding_inHand_promoted, holding_inHand_added, holding_inHand,
        hand, Option.some.injEq, Prod.mk.injEq, zero_add] at hq ⊢
      by_cases hqj : q = q' ∧ j = j'
      · obtain ⟨rfl, rfl⟩ := hqj
        simp [hj] at hq ⊢
        omega
      · rw [if_neg hqj, zero_add]
        by_cases hqq : q' = q
        · subst hqq
          have hjj : ¬ j' = j := fun hjj => hqj ⟨rfl, hjj.symm⟩
          simpa [hjj] using hq
        · simpa [hqq] using hq
  | route => exact free (h.keep (.refl s) (.inl rfl)) fun _ _ => rfl
  -- out of the hands: one promotion more
  | @promote now q j k todo =>
      intro q' j'
      have hq := h q' j'
      simp only [Except.isOk, Except.toBool, if_true, Pi.add_apply, holding_inHand_promoted,
        holding_inHand_added, holding_inHand, hand, counts, promotes, Cmd.additions, Cmd.delays,
        Write.delays, Option.some.injEq, Prod.mk.injEq, zero_add] at hq ⊢
      by_cases hqj : q = q' ∧ j = j'
      · rw [if_pos hqj] at hq ⊢
        simp
        omega
      · rw [if_neg hqj] at hq ⊢
        simpa using hq
  -- one addition more, which covers the entry whether it is new or not
  | @add t l c a s' l' q score j hnone hoff hd hz =>
      intro q' j'
      have hq := h q' j'
      have hl' : hand t l' = none := by
        cases t <;> cases l' <;> first | rfl | exact hoff.elim
      simp only [Except.isOk, Except.toBool, if_true, Pi.add_apply, holding_inHand_promoted,
        holding_inHand_added, holding_inHand, hnone, hl', counts, promotes_empty hnone,
        Cmd.additions, hd, hz, zero_add] at hq ⊢
      by_cases hqj : q = q' ∧ j = j'
      · obtain ⟨rfl, rfl⟩ := hqj
        simp at hq ⊢
        omega
      · by_cases hqq : q' = q
        · subst hqq
          have hjj : ¬ j' = j := fun hjj => hqj ⟨rfl, hjj.symm⟩
          simpa [hjj, Ne.symm hjj] using hq
        · simpa [hqq, Ne.symm hqq] using hq

/-- No task starts with a job in hand. -/
theorem starts_promotion (ts : List Task) :
    (promotion env).starts ts = 0 := by
  refine (promotion env).starts_eq_zero ts fun t _ => ?_
  cases t <;> exact holding_none

/-- **Promotion is a sound discipline whatever happens.** -/
theorem promotion_sound : (promotion env).Sound Anything where
  follows t _ := custody_follows t
  call s t l c o r s' F h := by
    rw [starts_promotion, add_zero]
    refine ⟨?_, trivial, fun _ _ => ⟨trivial, trivial⟩⟩
    rcases (exec_cases h.exec).2 with ⟨err, -, -, rfl, rfl⟩ | ⟨-, ha⟩
    · have herr : hand t (l.afterError t c) = hand t l ∨ hand t (l.afterError t c) = none := by
        cases t <;> first | exact .inl rfl | exact .inr rfl
      change Covered s' (holding (inHand t (l.afterError t c)) + (0 + F))
      rw [zero_add]
      exact Covered.keep h.inv (.refl s') herr
    · exact Covered.shift h.inv (shift_of_effect (effect_of_answer h.permits ha))
  stable _ _ _ _ _ _ _ _ _ _ _ _ _ _ _ := trivial
  start c t _ hc := by
    have hnone : (promotion env).starts [t] = 0 := starts_promotion [t]
    simp only [Discipline.starts, List.map_cons, List.map_nil, List.sum_cons, List.sum_nil,
      add_zero] at hnone
    rw [hnone, zero_add]
    exact ⟨trivial, hc.1, trivial⟩
  allows _ _ _ _ _ _ _ _ _ _ := trivial
  drift c d s' _ hc hd := by
    refine ⟨?_, fun _ _ _ _ => trivial⟩
    cases d <;> cases hd <;> exact hc.1

/-- In an empty deployment nothing is counted. -/
theorem promotion_blank (c : State) (hc : Blank c) : (promotion env).PoolOk c := by
  obtain ⟨now, room, rfl⟩ := hc
  exact ⟨fun q j => by simp [Discipline.total], by simp⟩

end Step

section Result

variable {env : Env} {c : State}

/-- **No double promotion.**  Whatever happens, at every moment schedulers have
pushed a job out of a delayed set at most as often as it has been added to it; the
entry in the set and the schedulers that have it in hand count as well. -/
theorem promotions_le_additions (hc : (machine env).Reach Anything Blank c) (q : QueueName)
    (j : JobId) :
    promotions env c q j + holders (custody env) hand c.pool (q, j) +
        (if j ∈ c.store.redis.zsets (redisKeys.delayed q) then 1 else 0) ≤
      additions env c q j := by
  have hcov := (promotion_sound.reach promotion_blank hc).1 q j
  have hpushed : (promotion env).total c.pool (.promoted q j) = promotions env c q j :=
    (promotion env).total_eq_counted _ (fun _ _ => holding_inHand_promoted q j)
      (fun t l cmd r => by cases r <;> rfl) _
  have hadded : (promotion env).total c.pool (.added q j) = additions env c q j :=
    (promotion env).total_eq_counted _ (fun _ _ => holding_inHand_added q j)
      (fun t l cmd r => by cases r <;> rfl) _
  have hhand : (promotion env).total c.pool (.hand q j) =
      holders (custody env) hand c.pool (q, j) :=
    (promotion env).total_eq_holders hand (fun t l => holding_inHand q j)
      (fun t l cmd r => by cases r <;> rfl) _
  rwa [hpushed, hadded, hhand] at hcov

/-- The theorem on a run in which two schedulers have read the same due list and
one of them has promoted the job. -/
theorem promotions_le_additions_of_race :
    ∃ c, (machine sample).Reach Anything Blank c ∧ promotions sample c "default" j1.text = 1 ∧
      promotions sample c "default" j1.text + holders (custody sample) hand c.pool ("default", j1.text) +
          (if j1.text ∈ c.store.redis.zsets (redisKeys.delayed "default") then 1 else 0) ≤
        additions sample c "default" j1.text := by
  obtain ⟨c, hc, ht⟩ := Machine.exists_reach (machine sample) Anything Blank blank_blank
    ([.start (.enqueue "echo" (some .null) { delay := some 1000 }), .call 0 (.fresh j1)] ++
      goes 0 6 ++ [.drift (.pass 1000), .start .tick, .start .tick,
        .call 1 (.members ["default"]), .call 2 (.members ["default"])] ++
      goes 1 2 ++ goes 2 2 ++ goes 1 3 ++ goes 2 1)
    (fun c => decide (promotions sample c "default" j1.text = 1)) (by decide +kernel)
  exact ⟨c, hc, by simpa using ht, promotions_le_additions hc "default" j1.text⟩

end Result

end Promotion

end NexusQueue
