/-
# The slots of a worker (`worker/src/worker.ts`)

A worker runs at most `concurrency` jobs at once.  What drives it, the pull loop or
`processAvailable`, looks at the size of `activeJobs`, pulls, and adds the promise of the
call; between the look and the addition any call may settle, and the pull may bring a job,
nothing, or an error.

The machine here has one driver at a time and its calls.  Every command that leaves the
process is answered in any way at all, so nothing depends on what the stores hold or on what
the handlers do (`within_limit`).
-/
import NexusQueue.Repertoire
import NexusQueue.Tokens

namespace NexusQueue

namespace Slots

/-! ## The machine -/

/-- What runs in the worker: a round of one of the two drivers, or a call. -/
inductive Part where
  | loop
  | available
  | call (n : ℕ) (jobId : JobId)
  deriving DecidableEq

/-- The number of a call. -/
def Part.number : Part → Option ℕ
  | .call n _ => some n
  | _ => none

/-- What a part runs. -/
def run (env : Env) (w : WorkerId) : Part → Async Unit
  | .loop => Worker.loop env w
  | .available => Worker.processAvailable env w
  | .call n jobId => Worker.dispatched env w n jobId

/-- An answer to every command that leaves the process. -/
abbrev Answers := (c : Cmd) → Except Err c.Resp

/-- The code of the worker does what it does; everything else is answered in any way. -/
def exec (env : Env) (s : World) (_ : Part) (c : Cmd) (answers : Answers) :
    Option (Except Err c.Resp × World) :=
  match c with
  | .onWorker w op => s.local? env w .plain op
  | c => some (answers c, s)

/-- The parts a command starts: the next round, and the call of a pulled job. -/
def forks : Part → (c : Cmd) → Except Err c.Resp → List Part
  | t, .onWorker _ .loopAgain, .ok _ => [t]
  | _, .onWorker _ (.dispatch j), .ok n => [.call n j]
  | _, _, _ => []

/-- A worker may be asked to stop at any time, and started again. -/
def ask (w : WorkerId) (s : World) (stop : Bool) : Option World :=
  some (s.setWorker w { s.workers w with stopRequested := stop })

/-- The worker with its stores left open. -/
def driven (env : Env) (w : WorkerId) :
    Machine World Part Cmd Cmd.Resp Err Unit Answers Bool where
  body := run env w
  exec := exec env
  forks := forks
  drift := ask w

/-- A state of the worker and what it runs. -/
abbrev Running := Config World Part Cmd Cmd.Resp Err Unit

/-- A part that has returned or thrown. -/
def Over (p : Proc Part Cmd Cmd.Resp Err Unit) : Bool :=
  match p.prog with
  | .call _ _ => false
  | _ => true

/-- A driver is started when no other one is under way; the calls are started by drivers. -/
def OneDriver (c : Running) : Choice Part Answers Bool → Prop
  | .start t => t.number = none ∧ ∀ p ∈ c.pool, p.task.number = none → Over p
  | .halt _ => False
  | _ => True

instance (c : Running) : (a : Choice Part Answers Bool) → Decidable (OneDriver c a)
  | .start t => inferInstanceAs (Decidable (t.number = none ∧ ∀ p ∈ c.pool,
      p.task.number = none → Over p))
  | .halt _ => .isFalse id
  | .call _ _ | .drift _ => .isTrue trivial

/-- Nothing has been started yet. -/
def Idle (w : WorkerId) (c : Running) : Prop :=
  c.pool = [] ∧ (c.store.workers w).activeJobs = ∅

/-- The numbers of the calls that have not settled. -/
def unsettled (c : Running) : List ℕ :=
  c.pool.filterMap fun p => if Over p then none else p.task.number

/-! ## The phases of a part -/

/-- A driver is looking for a slot, has found all of them taken or been asked to stop, has
been cleared to pull, has filled the slot or waited for one, or will take no more; a call is
running or has settled. -/
inductive Phase where
  | looking
  | full
  | leaving
  | cleared
  | filled
  | done
  | running
  | settled
  | broken
  deriving DecidableEq

/-- What a driver may do to the object of the worker in a phase. -/
def fits : Part → Phase → Local → Prop
  | .loop, .looking, .loopTop | .available, .looking, .snapshot => True
  | _, .full, .race _ | _, .leaving, .loopExit => True
  | _, .cleared, .nextPull | _, .cleared, .dispatch _ | _, .cleared, .loopAgain => True
  | .available, .cleared, .snapshot | .available, .done, .race _ => True
  | _, .filled, .loopAgain => True
  | _, _, _ => False

/-- What a part may do in a phase. -/
def permits (w : WorkerId) : Part → Phase → Cmd → Prop
  | _, .broken, _ => True
  | .call n _, l, .onWorker w' op => l = .running ∧ w' = w ∧ op = .settle n
  | .call _ _, l, _ => l = .running
  | t, l, .onWorker w' op => w' = w ∧ fits t l op
  | _, _, .handler _ _ _ => False
  | _, l, _ => l = .cleared

/-- A driver after an answer. -/
def afterAnswer (limit : ℕ) (l : Phase) : (c : Cmd) → c.Resp → Phase
  | .onWorker _ .loopTop, .exit => .leaving
  | .onWorker _ .loopTop, .full _ => .full
  | .onWorker _ .loopTop, .pull => .cleared
  | .onWorker _ .snapshot, activeJobs =>
      if l = .cleared then .done else if activeJobs.card < limit then .cleared else .full
  | .onWorker _ (.race _), _ => if l = .full then .filled else l
  | .onWorker _ (.dispatch _), _ => .filled
  | .onWorker _ .loopAgain, _ | .onWorker _ .loopExit, _ => .done
  | _, _ => l

/-- A driver after a rejection.  The loop goes on when the store rejects. -/
def afterError (t : Part) (l : Phase) : Cmd → Phase
  | .onWorker _ _ => .broken
  | .sleep _ => .done
  | _ => if t = .available then .done else l

/-- A call after an answer. -/
def onCall (l : Phase) : (c : Cmd) → Except Err c.Resp → Phase
  | .onWorker _ _, .ok _ => .settled
  | .onWorker _ _, .error _ => .broken
  | _, _ => l

/-- The protocol of drivers and calls. -/
def rounds (env : Env) (w : WorkerId) : Protocol Part Cmd Cmd.Resp Err Phase where
  start t := if t.number = none then .looking else .running
  permits := permits w
  next t l c r :=
    if l = .broken then .broken
    else match t, r with
      | .call _ _, r => onCall l c r
      | _, .ok a => afterAnswer (env.concurrency w) l c a
      | t, .error _ => afterError t l c

/-- How a part ends. -/
def Ended (t : Part) (l : Phase) : Prop :=
  l = .broken ∨ l = if t.number = none then .done else .settled

section Follows

variable {env : Env} {w : WorkerId} {n : ℕ} {j : JobId} {t : Part}

/-- What cannot happen need not be followed. -/
theorem broken_follows {α : Type} (p : Async α) {Q : Except Err α → Phase → Prop}
    (hQ : ∀ r, Q r .broken) : Follows (rounds env w) t .broken p Q := by
  induction p with
  | ret a => exact hQ _
  | raise e => exact hQ _
  | call c k ih => exact ⟨trivial, fun r => ih r⟩

/-- The commands of a pull. -/
def pulls (w : WorkerId) : Cmd → Prop
  | .rpoplpush _ _ | .blmove _ _ => True
  | .onWorker w' .nextPull => w' = w
  | _ => False

/-- A pull leaves a driver cleared; a rejected one ends `processAvailable`. -/
def Pulled {α : Type} (t : Part) : Except Err α → Phase → Prop
  | .ok _, l => l = .cleared
  | .error _, l => l = .broken ∨ l = if t = .available then .done else .cleared

theorem pull_keeps (env : Env) (ht : t.number = none) {c : Cmd} (hc : pulls w c) :
    permits w t .cleared c ∧ (∀ a, (rounds env w).next t .cleared c (.ok a) = .cleared) ∧
      ∀ (α : Type) (e : Err),
        Pulled (α := α) t (.error e) ((rounds env w).next t .cleared c (.error e)) := by
  cases t with
  | call n j => cases ht
  | _ =>
      cases c with
      | rpoplpush src dst | blmove src dst =>
          exact ⟨rfl, fun _ => rfl, fun _ _ => Or.inr rfl⟩
      | onWorker w' op =>
          cases op with
          | nextPull => exact ⟨⟨hc, trivial⟩, fun _ => rfl, fun _ _ => Or.inl rfl⟩
          | _ => exact hc.elim
      | _ => exact hc.elim

theorem pull_step {α : Type} (ht : t.number = none) {c : Cmd} {f : c.Resp → Async α}
    (hc : pulls w c) (hf : ∀ a, Follows (rounds env w) t .cleared (f a) (Pulled t)) :
    Follows (rounds env w) t .cleared (Prog.perform c >>= f) (Pulled t) := by
  obtain ⟨hpermits, hok, herr⟩ := pull_keeps env ht hc
  refine follows_step hpermits (fun a => ?_) (herr α)
  rw [hok a]
  exact hf a

theorem pullFrom_follows (ht : t.number = none) (q : QueueName) (k : Key) (ps : List Priority) :
    Follows (rounds env w) t .cleared (Worker.pullFrom q k ps) (Pulled t) := by
  induction ps with
  | nil => exact follows_pure rfl
  | cons p ps ih =>
      refine pull_step (c := .rpoplpush _ _) ht trivial fun jobId => ?_
      cases truthy jobId with
      | some id => exact follows_pure rfl
      | none => exact ih

theorem pullJob_follows (ht : t.number = none) :
    Follows (rounds env w) t .cleared (Worker.pullJob env w) (Pulled t) := by
  refine pull_step (c := .onWorker w .nextPull) ht rfl fun idx => ?_
  refine follows_bind _ (pullFrom_follows ht _ _ _) (fun pulled l hl => ?_) fun e l hl => hl
  rw [show l = .cleared from hl]
  cases pulled with
  | some id => exact follows_pure rfl
  | none =>
      have hblmove : pulls w (.blmove (redisKeys.queue (env.queue w)) (redisKeys.processing w)) :=
        trivial
      obtain ⟨hpermits, hok, herr⟩ := pull_keeps env ht hblmove
      refine follows_perform hpermits fun r => ?_
      cases r with
      | ok a => exact hok a
      | error e => exact herr _ e

/-- A round of the loop. -/
theorem loop_follows :
    Follows (rounds env w) .loop .looking (Worker.loop env w) fun _ => Ended .loop := by
  -- the last command of a round, when there is nothing to wait for any more
  have again : ∀ l, (l = .cleared ∨ l = .filled) →
      Follows (rounds env w) .loop l (onWorker w .loopAgain) fun _ => Ended .loop := by
    rintro l (rfl | rfl)
    all_goals
      refine follows_perform ⟨rfl, trivial⟩ fun r => ?_
      cases r with
      | ok a => exact Or.inr rfl
      | error e => exact Or.inl rfl
  refine follows_step ⟨rfl, trivial⟩ (fun top => ?_) fun _ => Or.inl rfl
  cases top with
  | exit =>
      refine follows_perform ⟨rfl, trivial⟩ fun r => ?_
      cases r with
      | ok a => exact Or.inr rfl
      | error e => exact Or.inl rfl
  | full snapshot =>
      refine follows_step ⟨rfl, trivial⟩ (fun _ => ?_) fun _ => Or.inl rfl
      exact again _ (Or.inr rfl)
  | pull =>
      refine follows_bind (fun r l => match r with
        | .ok _ => l = .broken ∨ l = .cleared ∨ l = .filled
        | .error _ => l = .broken ∨ l = .done) ?_ ?_ ?_
      · refine follows_handle (fun r l => l = .broken ∨ l = .cleared ∨ r.isOk ∧ l = .filled)
          ?_ ?_ ?_
        · refine follows_bind _ (pullJob_follows rfl) (fun jobId l hl => ?_) fun e l hl => ?_
          · rw [show l = .cleared from hl]
            cases truthy jobId with
            | none => exact follows_pure (Or.inr (Or.inl rfl))
            | some id =>
                refine follows_step ⟨rfl, trivial⟩ (fun _ => ?_) fun _ => Or.inl rfl
                exact follows_pure (Or.inr (Or.inr ⟨rfl, rfl⟩))
          · rcases hl with hl | hl
            · exact Or.inl hl
            · exact Or.inr (Or.inl hl)
        · rintro a l (hl | hl | ⟨-, hl⟩)
          · exact Or.inl hl
          · exact Or.inr (Or.inl hl)
          · exact Or.inr (Or.inr hl)
        · rintro e l (rfl | rfl | ⟨hr, -⟩)
          · exact broken_follows _ fun r => by cases r <;> exact Or.inl rfl
          · refine follows_perform rfl fun r => ?_
            cases r with
            | ok a => exact Or.inr (Or.inl rfl)
            | error e => exact Or.inr rfl
          · cases hr
      · rintro a l (rfl | hl)
        · exact broken_follows _ fun _ => Or.inl rfl
        · exact again l hl
      · exact fun e l hl => hl

/-- A round of `processAvailable`. -/
theorem available_follows : Follows (rounds env w) .available .looking
    (Worker.processAvailable env w) fun _ => Ended .available := by
  have again : Follows (rounds env w) .available .filled (onWorker w .loopAgain)
      fun _ => Ended .available := by
    refine follows_perform ⟨rfl, trivial⟩ fun r => ?_
    cases r with
    | ok a => exact Or.inr rfl
    | error e => exact Or.inl rfl
  refine follows_step ⟨rfl, trivial⟩ (fun activeJobs => ?_) fun _ => Or.inl rfl
  by_cases hfull : env.concurrency w ≤ activeJobs.card
  · have hnext : (rounds env w).next .available .looking (.onWorker w .snapshot)
        (.ok activeJobs) = .full := by
      show (if activeJobs.card < env.concurrency w then Phase.cleared else .full) = _
      rw [if_neg (by omega)]
    rw [if_pos hfull, hnext]
    refine follows_step ⟨rfl, trivial⟩ (fun _ => ?_) fun _ => Or.inl rfl
    exact again
  · have hnext : (rounds env w).next .available .looking (.onWorker w .snapshot)
        (.ok activeJobs) = .cleared := by
      show (if activeJobs.card < env.concurrency w then Phase.cleared else .full) = _
      rw [if_pos (by omega)]
    rw [if_neg hfull, hnext]
    have hpull : Follows (rounds env w) .available .cleared (Worker.pullJobNonBlocking env w)
        (Pulled .available) :=
      pull_step (c := .onWorker w .nextPull) rfl rfl fun idx => pullFrom_follows rfl _ _ _
    refine follows_bind _ hpull (fun jobId l hl => ?_) fun e l hl => hl
    rw [show l = .cleared from hl]
    cases truthy jobId with
    | some id =>
        refine follows_step ⟨rfl, trivial⟩ (fun _ => ?_) fun _ => Or.inl rfl
        exact again
    | none =>
        refine follows_step ⟨rfl, trivial⟩ (fun left => ?_) fun _ => Or.inl rfl
        refine follows_mono (follows_forEach (fun _ l => l = .done) ?_ ?_ _ _ rfl) ?_
          (Q := fun _ l => Ended .available l)
        · rintro n ns l rfl
          refine follows_perform ⟨rfl, trivial⟩ fun r => ?_
          cases r with
          | ok a => rfl
          | error e => exact Or.inl rfl
        · rintro l rfl
          exact Or.inr rfl
        · exact fun _ _ hl => hl

/-- A call keeps running until it settles. -/
theorem call_follows : Follows (rounds env w) (.call n j) .running (Worker.dispatched env w n j)
    fun _ => Ended (.call n j) := by
  have hcall : Follows (rounds env w) (.call n j) .running (Worker.processOne env w j)
      fun _ l => l = .running := by
    refine follows_only (Repertoire.processOne_processes env w j) fun c hc => ?_
    cases c with
    | onWorker w' op => exact hc.elim
    | _ => exact ⟨rfl, fun _ => rfl⟩
  refine follows_bind (fun r l => r.isOk ∧ l = .running) ?_ ?_ ?_
  · refine follows_handle (fun _ l => l = .running) hcall ?_ ?_
    · exact fun _ _ hl => ⟨rfl, hl⟩
    · exact fun _ _ hl => follows_pure ⟨rfl, hl⟩
  · rintro _ l ⟨-, rfl⟩
    refine follows_perform ⟨rfl, rfl, rfl⟩ fun r => ?_
    cases r with
    | ok a => exact Or.inr rfl
    | error e => exact Or.inl rfl
  · rintro _ _ ⟨hr, -⟩
    cases hr

theorem run_follows (t : Part) :
    Follows (rounds env w) t ((rounds env w).start t) (run env w t) fun _ => Ended t := by
  cases t with
  | loop => exact loop_follows
  | available => exact available_follows
  | call n j => exact call_follows

end Follows

/-! ## Counting slots -/

/-- What is counted: drivers under way, drivers that have been cleared, and calls by their
number. -/
inductive Life where
  | busy
  | cleared
  | call (n : ℕ)
  deriving DecidableEq

/-- What a part counts for. -/
def life : Part → Phase → Option Life
  | .call n _, .running => some (.call n)
  | .call _ _, _ => none
  | _, .looking | _, .full | _, .leaving | _, .filled => some .busy
  | _, .cleared => some .cleared
  | _, _ => none

/-- There is one driver; a cleared driver has a slot of its own; the calls that are running
are the promises in `activeJobs`. -/
structure Counted (env : Env) (w : WorkerId) (s : World) (g : Life → ℕ) : Prop where
  one : g .busy + g .cleared ≤ 1
  room : (s.workers w).activeJobs.card + g .cleared ≤ env.concurrency w
  calls : ∀ n, g (.call n) = if n ∈ (s.workers w).activeJobs then 1 else 0
  numbered : ∀ n ∈ (s.workers w).activeJobs, n < (s.workers w).calls

/-- A settled call is among the promises no more. -/
def knows (w : WorkerId) : Part → Phase → World → Prop
  | _, .broken, _ => False
  | .call n _, .settled, s => n < (s.workers w).calls ∧ n ∉ (s.workers w).activeJobs
  | _, _, _ => True

/-- The slots of a worker as a discipline over its rounds. -/
def slots (env : Env) (w : WorkerId) :
    Discipline (driven env w) (rounds env w) (Life → ℕ) where
  good _ := True
  val t l := holding (life t l)
  emit _ _ _ _ := 0
  loc := knows w
  inv := Counted env w
  allow _ _ _ _ _ _ := True
  post t _ l := Ended t l

/-- Calls are numbered upwards, and only a new one is added. -/
def Advances (w : WorkerId) (s s' : World) : Prop :=
  (s.workers w).calls ≤ (s'.workers w).calls ∧ ∀ n ∈ (s'.workers w).activeJobs,
    n ∈ (s.workers w).activeJobs ∨ (s.workers w).calls ≤ n

section Step

variable {env : Env} {w : WorkerId} {s s' : World} {F : Life → ℕ} {n : ℕ} {t : Part} {l : Phase}

theorem Advances.same (hjobs : (s'.workers w).activeJobs = (s.workers w).activeJobs)
    (hcalls : (s'.workers w).calls = (s.workers w).calls) : Advances w s s' := by
  refine ⟨hcalls.ge, fun n hn => Or.inl ?_⟩
  rwa [hjobs] at hn

/-- What a part knows stays true. -/
theorem knows_advances (h : Advances w s s') (hk : knows w t l s) : knows w t l s' := by
  cases t with
  | call n j =>
      cases l with
      | settled =>
          refine ⟨hk.1.trans_le h.1, fun hn => ?_⟩
          rcases h.2 n hn with hin | hle
          · exact hk.2 hin
          · have := hk.1
            omega
      | broken => exact hk
      | _ => trivial
  | _ => cases l <;> exact hk

/-- A part is at most one driver. -/
theorem holding_le_one (y : Option Life) : holding y .busy + holding y .cleared ≤ 1 := by
  by_cases hy : y = some .busy
  · subst hy
    decide
  · simp only [holding, if_neg hy]
    split <;> omega

/-- A driver moves on, and is cleared only if there is a slot. -/
theorem Counted.drive {x y : Option Life} (h : Counted env w s (holding x + F))
    (hjobs : (s'.workers w).activeJobs = (s.workers w).activeJobs)
    (hcalls : (s'.workers w).calls = (s.workers w).calls)
    (hx : x = some .busy ∨ x = some .cleared ∨ x = none ∧ y = none)
    (hy : ∀ n, y ≠ some (.call n))
    (hroom : y = some .cleared → x = some .cleared ∨
      (s.workers w).activeJobs.card < env.concurrency w) :
    Counted env w s' (holding y + F) := by
  obtain ⟨hone, hfit, hrun, hnum⟩ := h
  have hxc : ∀ n, x ≠ some (.call n) := by
    rintro n rfl
    simp at hx
  simp only [Pi.add_apply, holding] at hone hfit hrun
  constructor
  · have hle := holding_le_one y
    simp only [Pi.add_apply]
    rcases hx with rfl | rfl | ⟨rfl, rfl⟩
    · simp at hone
      omega
    · simp at hone
      omega
    · simpa using hone
  · rw [hjobs]
    simp only [Pi.add_apply, holding]
    by_cases hyc : y = some .cleared
    · rw [if_pos hyc]
      rcases hroom hyc with rfl | hlt
      · simpa using hfit
      · rcases hx with rfl | rfl | ⟨rfl, rfl⟩
        · simp only [Option.some.injEq, reduceCtorEq, if_true, if_false] at hone
          omega
        · simpa using hfit
        · cases hyc
    · rw [if_neg hyc]
      omega
  · intro m
    rw [hjobs, ← hrun m]
    simp [holding, hxc m, hy m]
  · rw [hjobs, hcalls]
    exact hnum

/-- A cleared driver fills its slot. -/
theorem Counted.fill (h : Counted env w s (holding (some .cleared) + F))
    (hjobs : (s'.workers w).activeJobs =
      insert (s.workers w).calls (s.workers w).activeJobs)
    (hcalls : (s'.workers w).calls = (s.workers w).calls + 1) :
    Counted env w s' (holding (some .busy) + (holding (some (.call (s.workers w).calls)) + F)) := by
  obtain ⟨hone, hfit, hrun, hnum⟩ := h
  have hnew : (s.workers w).calls ∉ (s.workers w).activeJobs := by
    intro hin
    exact lt_irrefl _ (hnum _ hin)
  simp only [Pi.add_apply, holding_some] at hone hfit hrun
  constructor
  · simp only [Pi.add_apply, holding_some]
    simp at hone ⊢
    omega
  · rw [hjobs, Finset.card_insert_of_notMem hnew]
    simp only [Pi.add_apply, holding_some]
    simp at hone hfit ⊢
    omega
  · intro m
    have hm := hrun m
    rw [hjobs]
    simp only [Pi.add_apply, holding_some, Finset.mem_insert]
    simp at hm ⊢
    by_cases hmc : m = (s.workers w).calls
    · subst hmc
      rw [if_neg hnew] at hm
      simp [hm]
    · simp [hm, hmc, Ne.symm hmc]
  · intro m hm
    rw [hjobs, Finset.mem_insert] at hm
    rw [hcalls]
    rcases hm with rfl | hm
    · omega
    · have := hnum m hm
      omega

/-- A call settles and leaves its slot. -/
theorem Counted.leave (h : Counted env w s (holding (some (.call n)) + F))
    (hjobs : (s'.workers w).activeJobs = (s.workers w).activeJobs.erase n)
    (hcalls : (s'.workers w).calls = (s.workers w).calls) :
    n < (s.workers w).calls ∧ Counted env w s' (holding none + F) := by
  obtain ⟨hone, hfit, hrun, hnum⟩ := h
  simp only [Pi.add_apply, holding_some] at hone hfit hrun
  have hin : n ∈ (s.workers w).activeJobs := by
    by_contra hout
    have := hrun n
    rw [if_neg hout] at this
    simp at this
  refine ⟨hnum n hin, ?_⟩
  rw [holding_none_add]
  constructor
  · simpa using hone
  · have hle := Finset.card_le_card (Finset.erase_subset n (s.workers w).activeJobs)
    rw [hjobs]
    simp at hfit
    omega
  · intro m
    have hm := hrun m
    rw [hjobs]
    simp only [Finset.mem_erase]
    by_cases hmn : m = n
    · subst hmn
      rw [if_pos hin] at hm
      simp at hm ⊢
      omega
    · simp [Ne.symm hmn] at hm
      simp [hm, hmn]
  · intro m hm
    rw [hjobs] at hm
    rw [hcalls]
    exact hnum m (Finset.mem_of_mem_erase hm)

theorem starts_one (t : Part) :
    (slots env w).starts [t] = holding (life t ((rounds env w).start t)) := by
  rw [Discipline.starts, List.map_singleton, List.sum_singleton]
  rfl

/-- What a step of a part leaves. -/
structure Moves (env : Env) (w : WorkerId) (t : Part) (l' : Phase) (ts : List Part)
    (s s' : World) (F : Life → ℕ) : Prop where
  counted : Counted env w s' (holding (life t l') + ((slots env w).starts ts + F))
  knows : knows w t l' s'
  advances : Advances w s s'

/-- A driver that starts nothing. -/
theorem Moves.drive {l' : Phase} (ht : t.number = none)
    (h : Counted env w s (holding (life t l) + F))
    (hjobs : (s'.workers w).activeJobs = (s.workers w).activeJobs)
    (hcalls : (s'.workers w).calls = (s.workers w).calls)
    (hl : life t l = some .busy ∨ l = .cleared ∨ l = .done ∧ l' = .done)
    (hl' : life t l' = some .busy ∨ l' = .done ∨ l' = .cleared ∧ (l = .cleared ∨
      (s.workers w).activeJobs.card < env.concurrency w)) :
    Moves env w t l' [] s s' F := by
  have hstarts : (slots env w).starts [] + F = F := zero_add F
  refine ⟨?_, ?_, Advances.same hjobs hcalls⟩
  · rw [hstarts]
    refine h.drive hjobs hcalls ?_ ?_ ?_
    · cases t with
      | call n j => cases ht
      | _ =>
          rcases hl with hl | rfl | ⟨rfl, rfl⟩
          · exact Or.inl hl
          · exact Or.inr (Or.inl rfl)
          · exact Or.inr (Or.inr ⟨rfl, rfl⟩)
    · intro n hlife
      rcases hl' with hl' | rfl | ⟨rfl, -⟩
      · rw [hl'] at hlife
        cases hlife
      · cases t <;> cases hlife
      · cases t <;> cases hlife
    · intro hlife
      rcases hl' with hl' | rfl | ⟨rfl, rfl | hlt⟩
      · rw [hl'] at hlife
        cases hlife
      · cases t <;> cases hlife
      · exact Or.inl hlife
      · exact Or.inr hlt
  · cases t with
    | call n j => cases ht
    | _ =>
        rcases hl' with hl' | rfl | ⟨rfl, -⟩
        · cases l' <;> trivial
        · trivial
        · trivial

/-- A driver that goes on to its next round. -/
theorem Moves.again (ht : t.number = none) (h : Counted env w s (holding (life t l) + F))
    (hl : l = .cleared ∨ l = .filled) : Moves env w t .done [t] s s F := by
  have hnext := h.drive (y := some .busy) rfl rfl
  cases t with
  | call n j => cases ht
  | _ =>
      refine ⟨?_, trivial, Advances.same rfl rfl⟩
      rw [show life _ Phase.done = none from rfl, holding_none_add, starts_one]
      refine hnext ?_ (by simp) (by simp)
      rcases hl with rfl | rfl <;> simp [life]

/-- A command that leaves the process. -/
theorem foreign_moves (ht : t.number = none) {c : Cmd} {answers : Answers}
    {r : Except Err c.Resp} (hc : ∀ w' op, c ≠ .onWorker w' op) (hl : l ≠ .broken)
    (h : Counted env w s (holding (life t l) + F)) (hpermits : permits w t l c)
    (hexec : exec env s t c answers = some (r, s')) :
    Moves env w t ((rounds env w).next t l c r) (forks t c r) s s' F := by
  have hcleared : l = .cleared := by
    cases t with
    | call n j => cases ht
    | _ =>
        cases l with
        | broken => exact absurd rfl hl
        | _ => cases c <;> first | exact hpermits | exact hpermits.elim | exact absurd rfl (hc _ _)
  have hsame : s' = s := by
    cases c <;> first | exact absurd rfl (hc _ _) | (cases hexec; rfl)
  have hforks : forks t c r = [] := by
    cases c <;> first | exact absurd rfl (hc _ _) | (cases t <;> rfl)
  subst hcleared hsame
  have hnext : (rounds env w).next t .cleared c r = .cleared ∨
      (rounds env w).next t .cleared c r = .done := by
    cases t with
    | call n j => cases ht
    | loop =>
        cases c <;> cases r <;> first | exact absurd rfl (hc _ _) | exact Or.inl rfl |
          exact Or.inr rfl
    | available =>
        cases c <;> cases r <;> first | exact absurd rfl (hc _ _) | exact Or.inl rfl |
          exact Or.inr rfl
  rw [hforks]
  refine Moves.drive ht h rfl rfl (Or.inr (Or.inl rfl)) (Or.inr ?_)
  rcases hnext with hnext | hnext
  · exact Or.inr ⟨hnext, Or.inl rfl⟩
  · exact Or.inl hnext

/-- A command of a driver on the object of the worker. -/
theorem local_moves (ht : t.number = none) {op : Local} {r : Except Err op.Resp}
    (hl : l ≠ .broken) (h : Counted env w s (holding (life t l) + F)) (hfits : fits t l op)
    (hexec : s.local? env w .plain op = some (r, s')) :
    Moves env w t ((rounds env w).next t l (.onWorker w op) r) (forks t (.onWorker w op) r)
      s s' F := by
  have hnext : ∀ (op : Local) (a : op.Resp), (rounds env w).next t l (.onWorker w op) (.ok a) =
      afterAnswer (env.concurrency w) l (.onWorker w op) a := by
    intro op a
    cases t with
    | call n j => cases ht
    | _ => exact if_neg hl
  cases op with
  | loopTop =>
      obtain ⟨rfl, rfl⟩ : t = .loop ∧ l = .looking := by
        cases t <;> cases l <;> first | exact ⟨rfl, rfl⟩ | exact hfits.elim
      simp only [World.local?] at hexec
      split at hexec
      · cases hexec
        exact Moves.drive ht h rfl rfl (Or.inl rfl) (Or.inl rfl)
      · split at hexec
        · cases hexec
          exact Moves.drive ht h rfl rfl (Or.inl rfl) (Or.inl rfl)
        · rename_i hfree
          cases hexec
          -- the only way to be cleared: a slot is free at this moment
          refine Moves.drive ht h rfl rfl (Or.inl rfl) (Or.inr (Or.inr ⟨rfl, ?_⟩))
          exact Or.inr (by omega)
  | snapshot =>
      cases hexec
      rw [hnext]
      cases l with
      | looking =>
          obtain rfl : t = .available := by
            cases t <;> first | rfl | exact hfits.elim
          show Moves env w .available (if (s.workers w).activeJobs.card < env.concurrency w then
            .cleared else .full) [] s s F
          split
          · rename_i hfree
            exact Moves.drive ht h rfl rfl (Or.inl rfl) (Or.inr (Or.inr ⟨rfl, Or.inr hfree⟩))
          · exact Moves.drive ht h rfl rfl (Or.inl rfl) (Or.inl rfl)
      | cleared =>
          exact Moves.drive ht h rfl rfl (Or.inr (Or.inl rfl)) (Or.inr (Or.inl rfl))
      | _ => cases t <;> exact hfits.elim
  | race snapshot =>
      simp only [World.local?] at hexec
      split at hexec
      · cases hexec
        rw [hnext]
        cases l with
        | full =>
            cases t with
            | call n j => cases ht
            | _ => exact Moves.drive ht h rfl rfl (Or.inl rfl) (Or.inl rfl)
        | done =>
            exact Moves.drive ht h rfl rfl (Or.inr (Or.inr ⟨rfl, rfl⟩)) (Or.inr (Or.inl rfl))
        | _ => cases t <;> exact hfits.elim
      · cases hexec
  | loopAgain =>
      cases hexec
      rw [hnext]
      refine Moves.again ht h ?_
      cases l with
      | cleared => exact Or.inl rfl
      | filled => exact Or.inr rfl
      | _ => cases t <;> exact hfits.elim
  | loopExit =>
      obtain rfl : l = .leaving := by
        cases t <;> cases l <;> first | rfl | exact hfits.elim
      cases hexec
      rw [hnext]
      refine Moves.drive ht h ?_ ?_ (Or.inl ?_) (Or.inr (Or.inl rfl))
      · simp [World.setWorker]
      · simp [World.setWorker]
      · cases t with
        | call n j => cases ht
        | _ => rfl
  | nextPull =>
      obtain rfl : l = .cleared := by
        cases t <;> cases l <;> first | rfl | exact hfits.elim
      cases hexec
      rw [hnext]
      refine Moves.drive ht h ?_ ?_ (Or.inr (Or.inl rfl))
        (Or.inr (Or.inr ⟨rfl, Or.inl rfl⟩))
      · simp [World.setWorker]
      · simp [World.setWorker]
  | dispatch j =>
      obtain rfl : l = .cleared := by
        cases t <;> cases l <;> first | rfl | exact hfits.elim
      cases hexec
      rw [hnext]
      have hforks : forks t (.onWorker w (.dispatch j)) (.ok (s.workers w).calls) =
          [.call (s.workers w).calls j] := rfl
      have hcleared : life t .cleared = some .cleared := by
        cases t with
        | call n j => cases ht
        | _ => rfl
      have hfilled : life t .filled = some .busy := by
        cases t with
        | call n j => cases ht
        | _ => rfl
      rw [hcleared] at h
      rw [hforks]
      refine ⟨?_, ?_, ?_, ?_⟩
      · rw [show afterAnswer _ _ _ _ = Phase.filled from rfl, hfilled, starts_one]
        exact h.fill (by simp [World.setWorker]) (by simp [World.setWorker])
      · cases t with
        | call n j => cases ht
        | _ => trivial
      · simp [World.setWorker]
      · intro n hn
        simp only [World.setWorker, Function.update_self, Finset.mem_insert] at hn
        rcases hn with rfl | hn
        · exact Or.inr le_rfl
        · exact Or.inl hn
  | _ => cases t <;> cases l <;> exact hfits.elim

/-- A call settles, or it stays as it is. -/
theorem call_moves {n : ℕ} {j : JobId} {c : Cmd} {answers : Answers} {r : Except Err c.Resp}
    (h : Counted env w s (holding (life (.call n j) l) + F)) (hl : l ≠ .broken)
    (hpermits : permits w (.call n j) l c)
    (hexec : exec env s (.call n j) c answers = some (r, s')) :
    Moves env w (.call n j) ((rounds env w).next (.call n j) l c r) (forks (.call n j) c r)
      s s' F := by
  -- only settling touches the object of the worker
  by_cases hc : ∃ w' op, c = .onWorker w' op
  · obtain ⟨w', op, rfl⟩ := hc
    obtain ⟨rfl, rfl, rfl⟩ : l = .running ∧ w' = w ∧ op = .settle n := by
      cases l with
      | broken => exact absurd rfl hl
      | _ => exact hpermits
    cases hexec
    have hobj : (s.setWorker w' { s.workers w' with
        activeJobs := (s.workers w').activeJobs.erase n }).workers w' =
          { s.workers w' with activeJobs := (s.workers w').activeJobs.erase n } := by
      simp [World.setWorker]
    obtain ⟨hlt, hleft⟩ := h.leave (by rw [hobj]) (by rw [hobj])
    refine ⟨?_, ⟨?_, ?_⟩, ?_, ?_⟩
    · have hstarts : (slots env w').starts [] + F = F := zero_add F
      show Counted env w' _ (holding none + ((slots env w').starts [] + F))
      rw [hstarts]
      exact hleft
    · simpa [World.setWorker] using hlt
    · simp [World.setWorker]
    · simp [World.setWorker]
    · intro m hm
      simp only [World.setWorker, Function.update_self] at hm
      exact Or.inl (Finset.mem_of_mem_erase hm)
  · have hout : ∀ w' op, c ≠ .onWorker w' op := fun w' op hop => hc ⟨w', op, hop⟩
    have hrunning : l = .running := by
      cases l with
      | broken => exact absurd rfl hl
      | _ => cases c <;> first | exact hpermits | exact absurd rfl (hout _ _)
    have hsame : s' = s := by
      cases c <;> first | exact absurd rfl (hout _ _) | (cases hexec; rfl)
    have hforks : forks (.call n j) c r = [] := by
      cases c <;> first | exact absurd rfl (hout _ _) | rfl
    have hnext : (rounds env w).next (.call n j) l c r = .running := by
      subst hrunning
      cases c <;> first | exact absurd rfl (hout _ _) | rfl
    subst hsame
    have hstarts : (slots env w).starts [] + F = F := zero_add F
    rw [hforks, hnext]
    refine ⟨?_, trivial, Advances.same rfl rfl⟩
    rw [hstarts, ← hrunning]
    exact h

/-- **Step lemma.** -/
theorem fires_moves {c : Cmd} {answers : Answers} {r : Except Err c.Resp}
    (h : (slots env w).Fires s t l c answers r s' F) :
    Moves env w t ((rounds env w).next t l c r) (forks t c r) s s' F := by
  obtain ⟨-, hinv, hloc, hpermits, -, hexec⟩ := h
  have hl : l ≠ .broken := by
    rintro rfl
    cases t <;> exact hloc
  -- calls have a number; the drivers share one lemma
  cases ht : t.number with
  | some n =>
      cases t with
      | call n j => exact call_moves hinv hl hpermits hexec
      | _ => cases ht
  | none =>
      by_cases hc : ∃ w' op, c = .onWorker w' op
      · obtain ⟨w', op, rfl⟩ := hc
        obtain ⟨rfl, hfits⟩ : w' = w ∧ fits t l op := by
          cases t with
          | call n j => cases ht
          | _ =>
              cases l with
              | broken => exact absurd rfl hl
              | _ => exact hpermits
        exact local_moves ht hl hinv hfits hexec
      · exact foreign_moves ht (fun w' op hop => hc ⟨w', op, hop⟩) hl hinv hpermits hexec

end Step

/-! ## Every run -/

variable {env : Env} {w : WorkerId} {c : Running}

/-- A process that is over has ended as its task does. -/
theorem ended_of_over {p : Proc Part Cmd Cmd.Resp Err Unit} {s : World}
    (hp : (slots env w).ProcOk s p) (hover : Over p = true) :
    Ended p.task ((rounds env w).phase p.task p.hist) := by
  obtain ⟨-, -, hfollows⟩ := hp
  unfold Over at hover
  cases hprog : p.prog with
  | call cmd k =>
      rw [hprog] at hover
      cases hover
  | ret a =>
      rw [hprog] at hfollows
      exact hfollows
  | raise e =>
      rw [hprog] at hfollows
      exact hfollows

theorem slots_sound : (slots env w).Sound OneDriver where
  follows t _ := run_follows t
  call s t l c answers r s' F h := by
    have hmoves := fires_moves h
    refine ⟨?_, hmoves.knows, fun t' ht' => ⟨trivial, ?_⟩⟩
    · show Counted env w s' (_ + (0 + (slots env w).starts (forks t c r) + F))
      rw [zero_add]
      exact hmoves.counted
    · cases t' <;> trivial
  stable s t l c answers r s' F h t₂ l₂ F₂ _ _ hk := knows_advances (fires_moves h).advances hk
  start c t h hpool := by
    refine ⟨trivial, ?_, by cases t <;> trivial⟩
    -- the driver before this one is over, so it neither holds a slot nor looks for one
    have hfree : ∀ x : Life, x = .busy ∨ x = .cleared → (slots env w).total c.pool x = 0 := by
      intro x hx
      refine Discipline.total_eq_zero _ (fun p hp => ?_) fun _ _ _ _ => rfl
      have hknows := (hpool.2 p hp).2.1
      have hend : p.task.number = none → Ended p.task ((rounds env w).phase p.task p.hist) :=
        fun hn => ended_of_over (hpool.2 p hp) (h.2 p hp hn)
      show holding (life p.task ((rounds env w).phase p.task p.hist)) x = 0
      generalize (rounds env w).phase p.task p.hist = l at hend hknows ⊢
      cases htask : p.task with
      | call n j => cases l <;> rcases hx with rfl | rfl <;> simp [life]
      | _ =>
          rw [htask] at hend hknows
          rcases hend rfl with rfl | rfl
          · exact hknows.elim
          · simp [life, Part.number]
    obtain ⟨hone, hfit, hrun, hnum⟩ := hpool.1
    have hstart : life t ((rounds env w).start t) = some .busy := by
      cases t with
      | call n j => cases h.1
      | _ => rfl
    show Counted env w c.store (holding (life t ((rounds env w).start t)) + _)
    rw [hstart]
    constructor
    · simp [hfree .busy (Or.inl rfl), hfree .cleared (Or.inr rfl)]
    · simpa using hfit
    · simpa using hrun
    · exact hnum
  allows _ _ _ _ _ _ _ _ _ _ := trivial
  drift c stop s' _ hpool hdrift := by
    cases hdrift
    have hobj : Advances w c.store (c.store.setWorker w
        { c.store.workers w with stopRequested := stop }) :=
      Advances.same (by simp [World.setWorker]) (by simp [World.setWorker])
    refine ⟨?_, fun t l _ hk => knows_advances hobj hk⟩
    obtain ⟨hone, hfit, hrun, hnum⟩ := hpool.1
    constructor
    · exact hone
    · simpa [World.setWorker] using hfit
    · simpa [World.setWorker] using hrun
    · simpa [World.setWorker] using hnum

theorem slots_reach (hc : (driven env w).Reach OneDriver (Idle w) c) :
    (slots env w).PoolOk c := by
  refine slots_sound.reach (fun c₀ hidle => ?_) hc
  obtain ⟨hpool, hjobs⟩ := hidle
  rw [Discipline.PoolOk, hpool]
  refine ⟨?_, fun p hp => by cases hp⟩
  show Counted env w c₀.store 0
  constructor <;> simp [hjobs]

/-- A part that is not over has not settled. -/
theorem life_eq_call {p : Proc Part Cmd Cmd.Resp Err Unit} {s : World}
    (hp : (slots env w).ProcOk s p) (n : ℕ) :
    (if Over p then none else p.task.number) = some n ↔
      life p.task ((rounds env w).phase p.task p.hist) = some (.call n) := by
  obtain ⟨-, hknows, hfollows⟩ := id hp
  have hover := ended_of_over hp
  change knows w p.task ((rounds env w).phase p.task p.hist) s at hknows
  generalize (rounds env w).phase p.task p.hist = l at hknows hfollows hover ⊢
  cases htask : p.task with
  | call m j =>
      rw [htask] at hknows hfollows hover
      cases hb : Over p with
      | true =>
          rcases hover hb with rfl | rfl
          · exact hknows.elim
          · simp [life, Part.number]
      | false =>
          -- only a running call may issue a command
          have hrunning : l = .running := by
            unfold Over at hb
            cases hprog : p.prog with
            | call cmd k =>
                rw [hprog] at hfollows
                have hpermits : permits w (.call m j) l cmd := hfollows.1
                cases l with
                | broken => exact hknows.elim
                | _ => cases cmd <;> first | exact hpermits | exact hpermits.1
            | ret a =>
                rw [hprog] at hb
                cases hb
            | raise e =>
                rw [hprog] at hb
                cases hb
          subst hrunning
          simp [life, Part.number]
  | _ =>
      cases l <;> simp [life, Part.number]

/-- **The concurrency limit.**  At most `concurrency` calls are unsettled, they are the
promises in `activeJobs`, and the promise of a call that has settled is not among them. -/
theorem within_limit (hc : (driven env w).Reach OneDriver (Idle w) c) :
    (unsettled c).Nodup ∧ (unsettled c).length ≤ env.concurrency w ∧
      (∀ n, n ∈ unsettled c ↔ n ∈ (c.store.workers w).activeJobs) ∧
      ∀ p ∈ c.pool, ∀ n, p.task.number = some n → Over p = true →
        n ∉ (c.store.workers w).activeJobs := by
  obtain ⟨⟨-, hroom, hcalls, -⟩, hprocs⟩ := slots_reach hc
  have hcount : ∀ n, (unsettled c).count n =
      if n ∈ (c.store.workers w).activeJobs then 1 else 0 := by
    intro n
    have hheld : (slots env w).total c.pool = holders (rounds env w) life c.pool :=
      Discipline.total_holding _ life (fun _ _ => rfl) rfl c.pool
    rw [← hcalls n, hheld, unsettled, List.count_filterMap, holders]
    refine List.countP_congr fun p hp => ?_
    simpa using life_eq_call (hprocs p hp) n
  have hnodup : (unsettled c).Nodup := by
    rw [List.nodup_iff_count_le_one]
    intro n
    rw [hcount n]
    split <;> omega
  have hmem : ∀ n, n ∈ unsettled c ↔ n ∈ (c.store.workers w).activeJobs := by
    intro n
    rw [← List.count_pos_iff, hcount n]
    split <;> simp_all
  have hset : (unsettled c).toFinset = (c.store.workers w).activeJobs := by
    ext n
    rw [List.mem_toFinset]
    exact hmem n
  refine ⟨hnodup, ?_, hmem, fun p hp n hn hover => ?_⟩
  · rw [← List.toFinset_card_of_nodup hnodup, hset]
    omega
  · have hknows := (hprocs p hp).2.1
    have hend := ended_of_over (hprocs p hp) hover
    change knows w p.task ((rounds env w).phase p.task p.hist) c.store at hknows
    cases htask : p.task with
    | call m j =>
        rw [htask] at hn hknows hend
        cases hn
        rcases hend with hend | hend <;> rw [hend] at hknows
        · exact hknows.elim
        · exact hknows.2
    | _ =>
        rw [htask] at hn
        cases hn

/-- Every pull brings this job, and no job has a name. -/
def brings (id : JobId) : Answers
  | .rpoplpush _ _ => .ok (some id)
  | .hgetall _ => .ok {}
  | _ => .error .rejected

/-- The loop takes two jobs and finds all slots taken. -/
def twoJobs : List (Choice Part Answers Bool) :=
  .start .loop :: List.replicate 5 (.call 0 (brings "a")) ++
    (List.replicate 5 (.call 2 (brings "b")) ++ [.call 4 (brings "c")])

theorem within_limit_two : ∃ c : Running,
    (driven sample "w").Reach OneDriver (Idle "w") c ∧ unsettled c = [0, 1] ∧
      (unsettled c).length ≤ 2 ∧ 1 ∈ (c.store.workers "w").activeJobs := by
  obtain ⟨c, hc, htest⟩ := Machine.exists_reach (driven sample "w") OneDriver (Idle "w")
    (c := { store := {}, pool := [] }) ⟨rfl, rfl⟩ twoJobs
    (fun c => decide (unsettled c = [0, 1])) (by decide)
  have htwo : unsettled c = [0, 1] := of_decide_eq_true htest
  obtain ⟨-, hlength, hmem, -⟩ := within_limit hc
  exact ⟨c, hc, htwo, hlength, (hmem 1).mp (by simp [htwo])⟩

end Slots

end NexusQueue
