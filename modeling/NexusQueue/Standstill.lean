/-
# Stopping a worker whose handlers hang (`worker/src/worker.ts`)

`stop` waits for the calls in progress for at most half a minute, so that a handler that
never settles does not keep the process alive.  Then it waits for the pull loop, and the loop
may itself be waiting for a call: when all slots are taken it sits in `Promise.race`, which
no stop request interrupts.

Once the timer has fired, `stop` can complete without a handler unless the loop sits there and
every call it waits for can only end after its handler (`completes_iff`).
-/
import NexusQueue.Stages

namespace Prog

variable {C : Type} {R : C → Type} {E α : Type}

/-- However its commands are answered, the program does not end before a command of `S`. -/
def Through (S : C → Prop) (may : (c : C) → Except E (R c) → Prop) : Prog C R E α → Prop
  | ret _ | raise _ => False
  | call c k => S c ∨ ∀ r, may c r → Through S may (k r)

end Prog

namespace NexusQueue

namespace Standstill

open Slots (Part Answers)

/-- A handler settles with this command. -/
def Cmd.isHandler : Cmd → Prop
  | .handler _ _ _ => True
  | _ => False

/-- No handler settles. -/
def NoHandler (c : Running) : Choice Role Answers ℕ → Prop
  | .call i _ => ∀ p cmd k, c.pool[i]? = some p → p.prog = .call cmd k → ¬ Cmd.isHandler cmd
  | _ => True

/-- A run in which no handler settles leads from `c` to `c'`. -/
def Silent (env : Env) (w : WorkerId) (c c' : Running) : Prop :=
  (worker env w).Reach (fun c a => Called c a ∧ NoHandler c a) (· = c) c'

/-- The `i`-th process can return without any handler settling. -/
def CanReturn (env : Env) (w : WorkerId) (c : Running) (i : ℕ) : Prop :=
  ∃ c', Silent env w c c' ∧ ∃ p, c'.pool[i]? = some p ∧ p.prog = .ret ()

/-- The `i`-th process is a `stop` in progress whose timer has fired. -/
def TimedOut (w : WorkerId) (c : Running) (i : ℕ) : Prop :=
  ∃ p, c.pool[i]? = some p ∧ p.task = .stop ∧ Over p = false ∧
    ∃ snapshot deadline, ⟨.onWorker w (.drain snapshot deadline), .ok true⟩ ∈ p.hist

/-- The call `n` can only end after its handler. -/
def Hangs (c : Running) (n : ℕ) : Prop :=
  ∃ p ∈ c.pool, (∃ j, p.task = .part (.call n j)) ∧
    p.prog.Through Cmd.isHandler fun cmd r => answerable cmd r = true

/-- The pull loop waits for a slot, and every call it waits for hangs. -/
def Stuck (w : WorkerId) (c : Running) : Prop :=
  ∃ p ∈ c.pool, p.task = .part .loop ∧ ∃ snapshot k,
    p.prog = .call (.onWorker w (.race snapshot)) k ∧ ∀ n ∈ snapshot, Hangs c n

section Run

variable {env : Env} {w : WorkerId} {c c' : Running} {i : ℕ}

/-! ## Runs without a handler -/

/-- A run may be continued. -/
theorem Silent.trans {c'' : Running} (h : Silent env w c c') (h' : Silent env w c' c'') :
    Silent env w c c'' := by
  unfold Silent at h'
  induction h' with
  | init heq =>
      subst heq
      exact h
  | step a _ hok hs ih => exact .step a ih hok hs

theorem Silent.live (hc : (worker env w).Reach Called (New w) c) (h : Silent env w c c') :
    (worker env w).Reach Called (New w) c' := by
  unfold Silent at h
  induction h with
  | init heq =>
      subst heq
      exact hc
  | step a _ hok hs ih => exact .step a ih hok.1 hs

/-- No process is ever cut off. -/
theorem running_on (hc : (worker env w).Reach Called (New w) c) {p : Process}
    (hp : p ∈ c.pool) : p.halted = false := by
  have hhalted := Machine.Reach.halted (Q := fun _ _ => False) (fun c hnew => hnew.1)
    (fun _ _ _ hok _ => hok) hc p hp
  cases hb : p.halted with
  | true => exact (hhalted hb).elim
  | false => rfl

/-- A run without a handler that moves the `i`-th process only. -/
structure Leads (env : Env) (w : WorkerId) (c : Running) (i : ℕ) (c' : Running) : Prop where
  silent : Silent env w c c'
  others : ∀ j p, j ≠ i → c.pool[j]? = some p → c'.pool[j]? = some p

theorem Leads.refl : Leads env w c i c := ⟨.init rfl, fun _ _ _ hp => hp⟩

theorem Leads.trans {c'' : Running} (h : Leads env w c i c') (h' : Leads env w c' i c'') :
    Leads env w c i c'' :=
  ⟨h.silent.trans h'.silent, fun j p hj hp => h'.others j p hj (h.others j p hj hp)⟩

/-- One step of the `i`-th process. -/
theorem step_leads (hc : (worker env w).Reach Called (New w) c) {p : Process} {cmd : Cmd}
    {k : Except Err cmd.Resp → Async Unit} {answers : Answers} {r : Except Err cmd.Resp}
    {s' : World} (hp : c.pool[i]? = some p) (hprog : p.prog = .call cmd k)
    (hno : ¬ Cmd.isHandler cmd) (hexec : exec env c.store p.task cmd answers = some (r, s')) :
    ∃ c', Leads env w c i c' ∧ c'.store = s' ∧ c'.pool[i]? = some (p.resume cmd r (k r)) ∧
      ∀ t ∈ forks p.task cmd r, ∃ j : ℕ, c'.pool[j]? = some ((worker env w).spawn t) := by
  have hi : i < c.pool.length := by
    by_contra hge
    rw [List.getElem?_eq_none (by omega)] at hp
    cases hp
  have hhalt := running_on hc (List.mem_of_getElem? hp)
  have hs : (worker env w).step c (.call i answers) =
      some { store := s'
             pool := c.pool.set i (p.resume cmd r (k r)) ++
               (forks p.task cmd r).map (worker env w).spawn } := by
    have hexec' : (worker env w).exec c.store p.task cmd answers = some (r, s') := hexec
    simp only [Machine.step, hp, hhalt, hprog, hexec', Bool.false_eq_true, if_false,
      Option.map_some]
    rfl
  have hok : Called c (.call i answers) ∧ NoHandler c (.call i answers) := by
    refine ⟨trivial, fun q cmd' k' hq hprog' => ?_⟩
    rw [hp] at hq
    cases hq
    rw [hprog] at hprog'
    cases hprog'
    exact hno
  refine ⟨_, ⟨.step _ (.init rfl) hok hs, fun j q hj hq => ?_⟩, rfl, ?_, fun t ht => ?_⟩
  · have hlt : j < c.pool.length := by
      by_contra hge
      rw [List.getElem?_eq_none (by omega)] at hq
      cases hq
    rw [List.getElem?_append_left (by simpa using hlt), List.getElem?_set_ne (Ne.symm hj)]
    exact hq
  · rw [List.getElem?_append_left (by simpa using hi), List.getElem?_set_self hi]
  · exact List.mem_iff_getElem?.mp (List.mem_append_right _ (List.mem_map_of_mem ht))

/-- Some store gives this answer. -/
theorem exists_answers (cmd : Cmd) (r : Except Err cmd.Resp) :
    ∃ answers : Answers, answers cmd = r := by
  classical
  exact ⟨Function.update (fun _ => .error .rejected) cmd r, Function.update_self _ _ _⟩

theorem exec_foreign {s : World} {t : Role} {cmd : Cmd} {r : Except Err cmd.Resp}
    (hout : ∀ w' op, cmd ≠ .onWorker w' op) (hans : answerable cmd r = true) :
    ∃ answers, exec env s t cmd answers = some (r, s) := by
  obtain ⟨answers, rfl⟩ := exists_answers cmd r
  refine ⟨answers, ?_⟩
  have hif : (if answerable cmd (answers cmd) = true then some (answers cmd, s) else none) =
      some (answers cmd, s) := if_pos hans
  cases cmd <;> first | exact hif | exact absurd rfl (hout _ _)

/-- Every command can be answered. -/
theorem exists_ok (cmd : Cmd) : ∃ a : cmd.Resp, answerable cmd (.ok a) = true := by
  have hans : ∀ a, answerable cmd (.ok a) = true := by
    intro a
    cases cmd <;> rfl
  suffices Nonempty cmd.Resp from this.elim fun a => ⟨a, hans a⟩
  cases cmd with
  | smembers _ | zrangebyscore _ _ | lrange _ _ _ => exact ⟨([] : List String)⟩
  | zrem _ _ | now => exact ⟨(0 : ℕ)⟩
  | hgetall _ => exact ⟨({} : JobHash)⟩
  | hgetallCron _ => exact ⟨({} : CronHash)⟩
  | hgetallRate _ => exact ⟨({} : RateHash)⟩
  | hgetPriority _ | get _ | rpoplpush _ _ | blmove _ _ => exact ⟨(none : Option String)⟩
  | existsKey _ => exact ⟨false⟩
  | select _ => exact ⟨(none : Option JobRow)⟩
  | uuid => exact ⟨(default : Uuid)⟩
  | cronNext _ => exact ⟨(0 : ℚ)⟩
  | onWorker _ op =>
      cases op with
      | loopTop => exact ⟨LoopTop.exit⟩
      | nextPull | activeCount | dispatch _ => exact ⟨(0 : ℕ)⟩
      | snapshot => exact ⟨(∅ : Finset ℕ)⟩
      | drain _ _ => exact ⟨false⟩
      | _ => exact ⟨()⟩
  | _ => exact ⟨()⟩

/-- A call in progress is running. -/
theorem running_call {s : World} {p : Process} {n : ℕ} {j : JobId}
    (hp : (standstill env w).ProcOk s p) (ht : p.task = .part (.call n j))
    (hover : Over p = false) :
    (stages env w).phase p.task p.hist = .part .running := by
  obtain ⟨-, hknows, hfollows⟩ := hp
  change knows w p.task ((stages env w).phase p.task p.hist) s at hknows
  rw [ht] at hknows hfollows ⊢
  generalize (stages env w).phase (.part (.call n j)) p.hist = l at hknows hfollows ⊢
  unfold Over at hover
  cases hprog : p.prog with
  | call cmd k =>
      rw [hprog] at hfollows
      have hpermits : permits w (.part (.call n j)) l cmd := hfollows.1
      cases l with
      | part l =>
          cases l with
          | broken => exact hknows.elim
          | running => rfl
          | _ => cases cmd <;> first | cases hpermits.1 | cases hpermits
      | _ => exact hpermits.elim
  | ret a =>
      rw [hprog] at hover
      cases hover
  | raise e =>
      rw [hprog] at hover
      cases hover

/-- A call that has settled has left its slot. -/
theorem settled_out {s : World} {p : Process} {n : ℕ} {j : JobId}
    (hp : (standstill env w).ProcOk s p) (ht : p.task = .part (.call n j))
    (hover : Over p = true) : n ∉ (s.workers w).activeJobs := by
  obtain ⟨r, hend⟩ := ended_of_over hp hover
  have hknows := hp.2.1
  change knows w p.task ((stages env w).phase p.task p.hist) s at hknows
  rw [ht] at hknows hend
  obtain ⟨l, hl, hended⟩ := hend
  rw [hl] at hknows
  rcases hended with rfl | rfl
  · exact hknows.elim
  · exact hknows.2

/-- A call that does not depend on its handler settles. -/
theorem settles {n : ℕ} {j : JobId} {q : Async Unit} : ∀ {c : Running} {p : Process},
    (worker env w).Reach Called (New w) c → c.pool[i]? = some p →
    p.task = .part (.call n j) → p.prog = q →
    ¬ q.Through Cmd.isHandler (fun cmd r => answerable cmd r = true) →
    ∃ c' p', Leads env w c i c' ∧ c'.pool[i]? = some p' ∧ p'.task = p.task ∧ Over p' = true := by
  induction q with
  | ret a =>
      intro c p hc hp ht hprog _
      exact ⟨c, p, Leads.refl, hp, rfl, by simp [Over, hprog]⟩
  | raise e =>
      intro c p hc hp ht hprog _
      exact ⟨c, p, Leads.refl, hp, rfl, by simp [Over, hprog]⟩
  | call cmd k ih =>
      intro c p hc hp ht hprog hnot
      obtain ⟨hno, r, hans, hnot'⟩ : ¬ Cmd.isHandler cmd ∧ ∃ r, answerable cmd r = true ∧
          ¬ (k r).Through Cmd.isHandler (fun cmd r => answerable cmd r = true) := by
        simpa [Prog.Through, not_or] using hnot
      have hproc := (standstill_reach hc).2 p (List.mem_of_getElem? hp)
      have hphase := running_call hproc ht (by simp [Over, hprog])
      obtain ⟨-, -, hfollows⟩ := hproc
      rw [hphase, ht, hprog] at hfollows
      have hpermits : Slots.permits w (.call n j) .running cmd := hfollows.1
      have hexec : ∃ answers s', exec env c.store p.task cmd answers = some (r, s') := by
        by_cases hc' : ∃ w' op, cmd = .onWorker w' op
        · obtain ⟨w', op, rfl⟩ := hc'
          obtain ⟨-, rfl, rfl⟩ := hpermits
          cases r with
          | error e => cases hans
          | ok a => exact ⟨fun _ => .error .rejected, _, rfl⟩
        · have hout : ∀ w' op, cmd ≠ .onWorker w' op := fun w' op hop => hc' ⟨w', op, hop⟩
          obtain ⟨answers, hexec⟩ := exec_foreign (t := p.task) (s := c.store) hout hans
          exact ⟨answers, _, hexec⟩
      obtain ⟨answers, s', hexec⟩ := hexec
      obtain ⟨c₁, hleads, -, hp₁, -⟩ := step_leads hc hp hprog hno hexec
      obtain ⟨c₂, p₂, hleads₂, hp₂, ht₂, hover⟩ :=
        ih r (hleads.silent.live hc) hp₁ ht rfl hnot'
      exact ⟨c₂, p₂, hleads.trans hleads₂, hp₂, ht₂, hover⟩

/-- A round of the loop that is not waiting for a slot comes to its end. -/
theorem again {q : Async Unit} : ∀ {c : Running} {p : Process} {l : Slots.Phase},
    (worker env w).Reach Called (New w) c → c.pool[i]? = some p → p.task = .part .loop →
    p.prog = q → (stages env w).phase p.task p.hist = .part l → l = .cleared ∨ l = .filled →
    ∃ (c' : Running) (j : ℕ), Leads env w c i c' ∧
      c'.pool[j]? = some ((worker env w).spawn (.part .loop)) := by
  induction q with
  | ret a | raise e =>
      intro c p l hc hp ht hprog hphase hl
      have hproc := (standstill_reach hc).2 p (List.mem_of_getElem? hp)
      obtain ⟨r, hend⟩ := ended_of_over hproc (by simp [Over, hprog])
      rw [hphase, ht] at hend
      obtain ⟨l', hl', hended⟩ := hend
      cases hl'
      rcases hl with rfl | rfl <;> rcases hended with hended | hended <;> cases hended
  | call cmd k ih =>
      intro c p l hc hp ht hprog hphase hl
      obtain ⟨-, -, hfollows⟩ := (standstill_reach hc).2 p (List.mem_of_getElem? hp)
      rw [hphase, ht, hprog] at hfollows
      have hpermits : Slots.permits w .loop l cmd := hfollows.1
      -- the rest of the round after an answer that keeps it going
      have goes : ∀ (answers : Answers) (r : Except Err cmd.Resp) (s' : World) (l' : Slots.Phase),
          ¬ Cmd.isHandler cmd → exec env c.store p.task cmd answers = some (r, s') →
          (Slots.rounds env w).next .loop l cmd r = l' → l' = .cleared ∨ l' = .filled →
          ∃ (c' : Running) (j : ℕ), Leads env w c i c' ∧
            c'.pool[j]? = some ((worker env w).spawn (.part .loop)) := by
        intro answers r s' l' hno hexec hnext hl'
        obtain ⟨c₁, hleads, -, hp₁, -⟩ := step_leads hc hp hprog hno hexec
        have hphase₁ : (stages env w).phase (p.resume cmd r (k r)).task
            (p.resume cmd r (k r)).hist = .part l' := by
          show (stages env w).next p.task ((stages env w).phase p.task p.hist) cmd r = _
          rw [hphase, ht, ← hnext]
          rfl
        obtain ⟨c₂, j, hleads₂, hj⟩ := ih r (hleads.silent.live hc) hp₁ ht rfl hphase₁ hl'
        exact ⟨c₂, j, hleads.trans hleads₂, hj⟩
      by_cases hc' : ∃ w' op, cmd = .onWorker w' op
      · obtain ⟨w', op, rfl⟩ := hc'
        obtain ⟨rfl, hfits⟩ : w' = w ∧ Slots.fits .loop l op := by
          rcases hl with rfl | rfl <;> exact hpermits
        cases op with
        | nextPull =>
            rcases hl with rfl | rfl
            · exact goes (fun _ => .error .rejected) _ _ _ id rfl rfl (Or.inl rfl)
            · exact hfits.elim
        | dispatch id' =>
            rcases hl with rfl | rfl
            · exact goes (fun _ => .error .rejected) _ _ _ id rfl rfl (Or.inr rfl)
            · exact hfits.elim
        | loopAgain =>
            have hexec : exec env c.store p.task (.onWorker w' .loopAgain)
                (fun _ => .error .rejected) = some (.ok (), c.store) := rfl
            obtain ⟨c₁, hleads, -, -, hforks⟩ := step_leads hc hp hprog id hexec
            obtain ⟨j, hj⟩ := hforks (.part .loop) (by rw [ht]; exact List.mem_singleton_self _)
            exact ⟨c₁, j, hleads, hj⟩
        | _ => rcases hl with rfl | rfl <;> exact hfits.elim
      · have hout : ∀ w' op, cmd ≠ .onWorker w' op := fun w' op hop => hc' ⟨w', op, hop⟩
        have hno : ¬ Cmd.isHandler cmd := by
          rcases hl with rfl | rfl
          · cases cmd <;> first | exact id | exact hpermits.elim
          · cases cmd <;> first | exact id | exact hpermits.elim
        obtain rfl : l = .cleared := by
          rcases hl with rfl | rfl
          · rfl
          · cases cmd <;> first | exact absurd rfl (hout _ _) | exact hpermits.elim | cases hpermits
        obtain ⟨a, hans⟩ := exists_ok cmd
        obtain ⟨answers, hexec⟩ := exec_foreign (t := p.task) (s := c.store) hout hans
        refine goes answers (.ok a) _ .cleared hno hexec ?_ (Or.inl rfl)
        cases cmd <;> first | rfl | exact absurd rfl (hout _ _)

/-- What a round of the loop does next to the object of the worker. -/
theorem next_local (hc : (worker env w).Reach Called (New w) c) {p : Process} {l : Slots.Phase}
    (hp : c.pool[i]? = some p) (ht : p.task = .part .loop)
    (hphase : (stages env w).phase p.task p.hist = .part l)
    (hl : l = .looking ∨ l = .full ∨ l = .leaving) :
    ∃ op k, p.prog = .call (.onWorker w op) k ∧ Slots.fits .loop l op := by
  have hproc := (standstill_reach hc).2 p (List.mem_of_getElem? hp)
  cases hover : Over p with
  | true =>
      obtain ⟨r, hend⟩ := ended_of_over hproc hover
      rw [hphase, ht] at hend
      obtain ⟨l', hl', hended⟩ := hend
      cases hl'
      rcases hl with rfl | rfl | rfl <;> rcases hended with hended | hended <;> cases hended
  | false =>
      obtain ⟨-, -, hfollows⟩ := hproc
      unfold Over at hover
      cases hprog : p.prog with
      | call cmd k =>
          rw [hphase, ht, hprog] at hfollows
          have hpermits : Slots.permits w .loop l cmd := hfollows.1
          by_cases hc' : ∃ w' op, cmd = .onWorker w' op
          · obtain ⟨w', op, rfl⟩ := hc'
            obtain ⟨rfl, hfits⟩ : w' = w ∧ Slots.fits .loop l op := by
              rcases hl with rfl | rfl | rfl <;> exact hpermits
            exact ⟨op, k, rfl, hfits⟩
          · have hout : ∀ w' op, cmd ≠ .onWorker w' op := fun w' op hop => hc' ⟨w', op, hop⟩
            rcases hl with rfl | rfl | rfl <;> cases cmd <;>
              first | exact absurd rfl (hout _ _) | exact hpermits.elim | cases hpermits
      | ret a =>
          rw [hprog] at hover
          cases hover
      | raise e =>
          rw [hprog] at hover
          cases hover

/-- The loop exits at the head of its next round. -/
theorem leaves {p : Process} {l : Slots.Phase} (hc : (worker env w).Reach Called (New w) c)
    (hp : c.pool[i]? = some p) (ht : p.task = .part .loop)
    (hphase : (stages env w).phase p.task p.hist = .part l)
    (hl : l = .looking ∧ (c.store.workers w).stopRequested = true ∨ l = .leaving) :
    ∃ c', Leads env w c i c' ∧ quiet (c'.store.workers w) := by
  have leaving : ∀ {c : Running} {p : Process}, (worker env w).Reach Called (New w) c →
      c.pool[i]? = some p → p.task = .part .loop →
      (stages env w).phase p.task p.hist = .part .leaving →
      ∃ c', Leads env w c i c' ∧ quiet (c'.store.workers w) := by
    intro c p hc hp ht hphase
    obtain ⟨op, k, hprog, hfits⟩ := next_local hc hp ht hphase (Or.inr (Or.inr rfl))
    obtain rfl : op = .loopExit := by
      cases op <;> first | rfl | exact hfits.elim
    have hexec : exec env c.store p.task (.onWorker w .loopExit) (fun _ => .error .rejected) =
        some (.ok (), c.store.setWorker w { c.store.workers w with exited := true }) := rfl
    obtain ⟨c', hleads, hstore, -, -⟩ := step_leads hc hp hprog id hexec
    refine ⟨c', hleads, ?_⟩
    rw [hstore]
    simp [World.setWorker, quiet]
  rcases hl with ⟨rfl, hstop⟩ | rfl
  · obtain ⟨op, k, hprog, hfits⟩ := next_local hc hp ht hphase (Or.inl rfl)
    obtain rfl : op = .loopTop := by
      cases op <;> first | rfl | exact hfits.elim
    have hexec : exec env c.store p.task (.onWorker w .loopTop) (fun _ => .error .rejected) =
        some (.ok .exit, c.store) := if_pos hstop
    obtain ⟨c₁, hleads, -, hp₁, -⟩ := step_leads hc hp hprog id hexec
    have hphase₁ : (stages env w).phase (p.resume (.onWorker w .loopTop) (.ok .exit)
        (k (.ok .exit))).task (p.resume (.onWorker w .loopTop) (.ok .exit)
          (k (.ok .exit))).hist = .part .leaving := by
      show (stages env w).next p.task ((stages env w).phase p.task p.hist) _ _ = _
      rw [hphase, ht]
      rfl
    obtain ⟨c₂, hleads₂, hquiet⟩ := leaving (hleads.silent.live hc) hp₁ ht hphase₁
    exact ⟨c₂, hleads.trans hleads₂, hquiet⟩
  · exact leaving hc hp ht hphase

/-- Where the loop has not exited, there is a round of it. -/
theorem exists_round (hc : (worker env w).Reach Called (New w) c)
    (hq : ¬ quiet (c.store.workers w)) :
    ∃ (j : ℕ) (p : Process) (l : Slots.Phase), c.pool[j]? = some p ∧ p.task = .part .loop ∧
      (stages env w).phase p.task p.hist = .part l ∧
      (Slots.life .loop l = some .busy ∨ Slots.life .loop l = some .cleared) := by
  obtain ⟨halive, hprocs⟩ := standstill_reach hc
  have hloop := halive.loop
  rw [if_neg hq] at hloop
  have hheld : (standstill env w).total c.pool = holders (stages env w) life c.pool :=
    Discipline.total_holding _ life (fun _ _ => rfl) rfl c.pool
  rw [hheld] at hloop
  have hpos : ∃ x, (x = Slots.Life.busy ∨ x = .cleared) ∧
      0 < holders (stages env w) life c.pool (.part x) := by
    by_cases hbusy : 0 < holders (stages env w) life c.pool (.part .busy)
    · exact ⟨.busy, Or.inl rfl, hbusy⟩
    · exact ⟨.cleared, Or.inr rfl, by omega⟩
  obtain ⟨x, hx, hpos⟩ := hpos
  obtain ⟨p, hp, hlife⟩ := List.countP_pos_iff.mp hpos
  simp only [decide_eq_true_eq] at hlife
  obtain ⟨j, hj⟩ := List.mem_iff_getElem?.mp hp
  have hgood : p.task ≠ .part .available := (hprocs p hp).1
  generalize hl : (stages env w).phase p.task p.hist = l at hlife
  cases ht : p.task with
  | part t =>
      rw [ht] at hlife hgood
      cases l with
      | part l =>
          obtain ⟨x', hx', hxx⟩ := Option.map_eq_some_iff.mp hlife
          cases hxx
          cases t with
          | loop =>
              refine ⟨j, p, l, hj, ht, hl, ?_⟩
              rcases hx with rfl | rfl
              · exact Or.inl hx'
              · exact Or.inr hx'
          | available => exact absurd rfl hgood
          | call n id' => rcases hx with rfl | rfl <;> cases l <;> cases hx'
      | _ => cases hlife
  | start =>
      rw [ht] at hlife
      cases l <;> cases hlife
  | stop =>
      rw [ht] at hlife
      cases l <;> cases hlife

/-- Once the calls have been drained, `stop` only waits for the loop. -/
theorem late_of_drained (env : Env) {h : List (Event Cmd Cmd.Resp Err)} {snapshot : Finset ℕ}
    {deadline : ℕ} {b : Bool}
    (he : ⟨.onWorker w (.drain snapshot deadline), .ok b⟩ ∈ h) :
    ((stages env w).phase .stop h).late = true := by
  induction h with
  | nil => cases he
  | cons e h ih =>
      rw [Protocol.phase_cons]
      rcases List.mem_cons.mp he with rfl | he
      · cases (stages env w).phase .stop h <;> rfl
      · have hlate := ih he
        generalize (stages env w).phase .stop h = l at hlate ⊢
        obtain ⟨cmd, r⟩ := e
        have hnext : (onStop l cmd r).late = true := by
          unfold onStop
          split <;> first | rfl | exact hlate | (rw [if_pos hlate]; exact hlate)
        cases l <;> first | exact hnext | rfl

/-- `stop` after its timer: it waits for the loop to exit, or the loop has exited. -/
theorem TimedOut.phase (hc : (worker env w).Reach Called (New w) c) (h : TimedOut w c i) :
    ∃ p cmd k, c.pool[i]? = some p ∧ p.task = .stop ∧ p.prog = .call cmd k ∧
      permits w .stop ((stages env w).phase p.task p.hist) cmd ∧
      ((stages env w).phase p.task p.hist = .drained ∧
          (c.store.workers w).stopRequested = true ∨
        (stages env w).phase p.task p.hist = .freed ∧ quiet (c.store.workers w)) := by
  obtain ⟨p, hp, ht, hover, snapshot, deadline, he⟩ := h
  have hlate := late_of_drained env he
  obtain ⟨-, hknows, hfollows⟩ := (standstill_reach hc).2 p (List.mem_of_getElem? hp)
  change knows w p.task ((stages env w).phase p.task p.hist) c.store at hknows
  unfold Over at hover
  cases hprog : p.prog with
  | call cmd k =>
      rw [hprog] at hfollows
      have hpermits : permits w p.task ((stages env w).phase p.task p.hist) cmd := hfollows.1
      refine ⟨p, cmd, k, hp, ht, hprog, ?_⟩
      rw [ht] at hknows hpermits ⊢
      refine ⟨hpermits, ?_⟩
      generalize (stages env w).phase .stop p.hist = l at hlate hknows hpermits ⊢
      cases l with
      | drained => exact Or.inl ⟨rfl, hknows⟩
      | freed => exact Or.inr ⟨rfl, hknows⟩
      | broken => exact hknows.elim
      | finished | failed =>
          cases cmd <;> first | exact hpermits.2.elim | exact hpermits.elim | simp [permits] at hpermits
      | _ => cases hlate
  | ret a =>
      rw [hprog] at hover
      cases hover
  | raise e =>
      rw [hprog] at hover
      cases hover

/-- When the loop has exited, `stop` returns. -/
theorem returns {q : Async Unit} : ∀ {c : Running} {p : Process},
    (worker env w).Reach Called (New w) c → quiet (c.store.workers w) →
    c.pool[i]? = some p → p.task = .stop → p.prog = q →
    (stages env w).phase p.task p.hist = .drained ∨
      (stages env w).phase p.task p.hist = .freed → CanReturn env w c i := by
  induction q with
  | ret a | raise e =>
      intro c p hc _ hp ht hprog hphase
      have hproc := (standstill_reach hc).2 p (List.mem_of_getElem? hp)
      obtain ⟨r, hend⟩ := ended_of_over hproc (by simp [Over, hprog])
      rw [ht] at hend hphase
      rcases hphase with hphase | hphase
      all_goals
        rw [hphase] at hend
        rcases hend with ⟨hend, -⟩ | hend | hend <;> cases hend
  | call cmd k ih =>
      intro c p hc hquiet hp ht hprog hphase
      obtain ⟨-, -, hfollows⟩ := (standstill_reach hc).2 p (List.mem_of_getElem? hp)
      rw [hprog] at hfollows
      have hpermits : permits w p.task ((stages env w).phase p.task p.hist) cmd := hfollows.1
      generalize hl : (stages env w).phase p.task p.hist = l at hphase hpermits
      rw [ht] at hpermits
      -- one more command, after which the worker object is still at rest
      have goes : ∀ (answers : Answers) (r : Except Err cmd.Resp) (s' : World) (l' : Stage),
          ¬ Cmd.isHandler cmd → exec env c.store p.task cmd answers = some (r, s') →
          quiet (s'.workers w) → (stages env w).next .stop l cmd r = l' →
          l' = .drained ∨ l' = .freed → CanReturn env w c i := by
        intro answers r s' l' hno hexec hquiet' hnext hl'
        obtain ⟨c₁, hleads, hstore, hp₁, -⟩ := step_leads hc hp hprog hno hexec
        have hphase₁ : (stages env w).phase (p.resume cmd r (k r)).task
            (p.resume cmd r (k r)).hist = l' := by
          show (stages env w).next p.task ((stages env w).phase p.task p.hist) cmd r = _
          rw [hl, ht, hnext]
        obtain ⟨c₂, hsilent, hreturned⟩ := ih r (hleads.silent.live hc) (by rw [hstore]; exact hquiet')
          hp₁ ht rfl (by rw [hphase₁]; exact hl')
        exact ⟨c₂, hleads.silent.trans hsilent, hreturned⟩
      by_cases hc' : ∃ w' op, cmd = .onWorker w' op
      · obtain ⟨w', op, rfl⟩ := hc'
        obtain ⟨rfl, hfits⟩ : w' = w ∧ fits .stop l op := by
          rcases hphase with rfl | rfl <;> exact hpermits
        cases op with
        | awaitLoop =>
            have hexec : exec env c.store p.task (.onWorker w' .awaitLoop)
                (fun _ => .error .rejected) = some (.ok (), c.store) := if_pos hquiet
            refine goes _ _ _ .freed id hexec hquiet ?_ (Or.inr rfl)
            rcases hphase with rfl | rfl <;> rfl
        | clearTimer =>
            refine goes (fun _ => .error .rejected) _ _ .freed id rfl ?_ ?_ (Or.inr rfl)
            · exact (quiet_setWorker c.store w' { c.store.workers w' with timer := false }
                rfl rfl).mpr hquiet
            · rcases hphase with rfl | rfl
              · exact hfits.elim
              · rfl
        | finish =>
            have hexec : exec env c.store p.task (.onWorker w' .finish)
                (fun _ => .error .rejected) = some (.ok (), c.store.setWorker w'
                  { c.store.workers w' with running := false }) := rfl
            obtain ⟨c₁, hleads, -, hp₁, -⟩ := step_leads hc hp hprog id hexec
            refine ⟨c₁, hleads.silent, _, hp₁, ?_⟩
            obtain ⟨-, -, hfollows₁⟩ :=
              (standstill_reach (hleads.silent.live hc)).2 _ (List.mem_of_getElem? hp₁)
            have hphase₁ : (stages env w').phase (p.resume (.onWorker w' .finish) (.ok ())
                (k (.ok ()))).task (p.resume (.onWorker w' .finish) (.ok ())
                  (k (.ok ()))).hist = .finished := by
              show (stages env w').next p.task ((stages env w').phase p.task p.hist) _ _ = _
              rw [hl, ht]
              rcases hphase with rfl | rfl <;> rfl
            rw [hphase₁] at hfollows₁
            change Follows (stages env w') p.task .finished (k (.ok ())) (Ended p.task)
              at hfollows₁
            rw [ht] at hfollows₁
            show k (.ok ()) = .ret ()
            cases hk : k (.ok ()) with
            | ret a => rfl
            | raise e =>
                rw [hk] at hfollows₁
                rcases hfollows₁ with ⟨-, hr⟩ | hr | hr <;> cases hr
            | call cmd' k' =>
                rw [hk] at hfollows₁
                have hpermits' : permits w' .stop .finished cmd' := hfollows₁.1
                cases cmd' <;> first | exact hpermits'.2.elim | exact hpermits'.elim |
                  simp [permits] at hpermits'
        | _ => rcases hphase with rfl | rfl <;> exact hfits.elim
      · have hout : ∀ w' op, cmd ≠ .onWorker w' op := fun w' op hop => hc' ⟨w', op, hop⟩
        have hno : ¬ Cmd.isHandler cmd := by
          rcases hphase with rfl | rfl
          · cases cmd <;> first | exact id | exact hpermits.elim
          · cases cmd <;> first | exact id | exact hpermits.elim
        obtain rfl : l = .freed := by
          rcases hphase with rfl | rfl
          · cases cmd <;> first | exact absurd rfl (hout _ _) | exact hpermits.elim |
              simp [permits] at hpermits
          · rfl
        obtain ⟨a, hans⟩ := exists_ok cmd
        obtain ⟨answers, hexec⟩ := exec_foreign (t := p.task) (s := c.store) hout hans
        refine goes answers (.ok a) _ .freed hno hexec hquiet ?_ (Or.inr rfl)
        cases cmd <;> first | rfl | exact absurd rfl (hout _ _)

/-- A `stop` in progress is not touched by a run of another process. -/
theorem TimedOut.leads {j : ℕ} {p : Process} (h : TimedOut w c i) (hp : c.pool[j]? = some p)
    (ht : p.task ≠ .stop) (hleads : Leads env w c j c') : TimedOut w c' i := by
  obtain ⟨q, hq, htask, hover, he⟩ := h
  refine ⟨q, hleads.others i q ?_ hq, htask, hover, he⟩
  rintro rfl
  rw [hp] at hq
  cases hq
  exact ht htask

/-- A call can settle that the round `p` of the loop waits for. -/
def Frees (env : Env) (w : WorkerId) (c : Running) (i j : ℕ) (p : Process)
    (snapshot : Finset ℕ) : Prop :=
  ∃ c', Silent env w c c' ∧ TimedOut w c' i ∧ c'.pool[j]? = some p ∧
    ∃ n ∈ snapshot, n ∉ (c'.store.workers w).activeJobs

/-- The loop exits if, where it waits for a slot, one of the calls can settle. -/
theorem quiets (hc : (worker env w).Reach Called (New w) c) (h : TimedOut w c i)
    (hfree : ∀ (j : ℕ) (p : Process) snapshot k, c.pool[j]? = some p → p.task = .part .loop →
      p.prog = .call (.onWorker w (.race snapshot)) k → Frees env w c i j p snapshot) :
    ∃ c', Silent env w c c' ∧ TimedOut w c' i ∧ quiet (c'.store.workers w) := by
  -- from the head of a round
  have looking : ∀ {c : Running} {j : ℕ} {p : Process} {l : Slots.Phase},
      (worker env w).Reach Called (New w) c → TimedOut w c i → c.pool[j]? = some p →
      p.task = .part .loop → (stages env w).phase p.task p.hist = .part l →
      l = .looking ∨ l = .leaving →
      ∃ c', Silent env w c c' ∧ TimedOut w c' i ∧ quiet (c'.store.workers w) := by
    intro c j p l hc h hp ht hphase hl
    by_cases hquiet : quiet (c.store.workers w)
    · exact ⟨c, .init rfl, h, hquiet⟩
    · obtain ⟨_, _, _, _, _, _, _, hstop⟩ := h.phase hc
      have hrequested : (c.store.workers w).stopRequested = true := by
        rcases hstop with ⟨-, hstop⟩ | ⟨-, hq⟩
        · exact hstop
        · exact absurd hq hquiet
      obtain ⟨c', hleads, hq⟩ := leaves hc hp ht hphase
        (hl.imp (fun hl => ⟨hl, hrequested⟩) id)
      exact ⟨c', hleads.silent, h.leads hp (by simp [ht]) hleads, hq⟩
  -- from a round that only has to come to its end
  have ending : ∀ {c : Running} {j : ℕ} {p : Process} {l : Slots.Phase},
      (worker env w).Reach Called (New w) c → TimedOut w c i → c.pool[j]? = some p →
      p.task = .part .loop → (stages env w).phase p.task p.hist = .part l →
      l = .cleared ∨ l = .filled →
      ∃ c', Silent env w c c' ∧ TimedOut w c' i ∧ quiet (c'.store.workers w) := by
    intro c j p l hc h hp ht hphase hl
    obtain ⟨c₁, j₁, hleads, hj₁⟩ := again hc hp ht rfl hphase hl
    have h₁ := h.leads hp (by simp [ht]) hleads
    obtain ⟨c₂, hsilent, h₂, hq⟩ :=
      looking (hleads.silent.live hc) h₁ hj₁ rfl rfl (Or.inl rfl)
    exact ⟨c₂, hleads.silent.trans hsilent, h₂, hq⟩
  by_cases hquiet : quiet (c.store.workers w)
  · exact ⟨c, .init rfl, h, hquiet⟩
  · obtain ⟨j, p, l, hp, ht, hphase, hlife⟩ := exists_round hc hquiet
    cases l with
    | looking => exact looking hc h hp ht hphase (Or.inl rfl)
    | leaving => exact looking hc h hp ht hphase (Or.inr rfl)
    | cleared => exact ending hc h hp ht hphase (Or.inl rfl)
    | filled => exact ending hc h hp ht hphase (Or.inr rfl)
    | full =>
        obtain ⟨op, k, hprog, hfits⟩ := next_local hc hp ht hphase (Or.inr (Or.inl rfl))
        cases op with
        | race snapshot =>
            obtain ⟨c₀, hsilent₀, h₀, hp₀, hslot⟩ := hfree j p snapshot k hp ht hprog
            have hc₀ := hsilent₀.live hc
            have hexec : exec env c₀.store p.task (.onWorker w (.race snapshot))
                (fun _ => .error .rejected) = some (.ok (), c₀.store) := if_pos hslot
            obtain ⟨c₁, hleads, -, hp₁, -⟩ := step_leads hc₀ hp₀ hprog id hexec
            have hphase₁ : (stages env w).phase (p.resume (.onWorker w (.race snapshot)) (.ok ())
                (k (.ok ()))).task (p.resume (.onWorker w (.race snapshot)) (.ok ())
                  (k (.ok ()))).hist = .part .filled := by
              show (stages env w).next p.task ((stages env w).phase p.task p.hist) _ _ = _
              rw [hphase, ht]
              rfl
            have h₁ := h₀.leads hp₀ (by simp [ht]) hleads
            obtain ⟨c₂, hsilent, h₂, hq⟩ :=
              ending (hleads.silent.live hc₀) h₁ hp₁ ht hphase₁ (Or.inr rfl)
            exact ⟨c₂, (hsilent₀.trans hleads.silent).trans hsilent, h₂, hq⟩
        | _ => exact hfits.elim
    | _ => rcases hlife with hlife | hlife <;> cases hlife

/-! ## Waiting for handlers -/

/-- A call that hangs has not settled. -/
theorem Hangs.active (hc : (worker env w).Reach Called (New w) c) {n : ℕ} (h : Hangs c n) :
    n ∈ (c.store.workers w).activeJobs := by
  obtain ⟨p, hp, ⟨j, ht⟩, hthrough⟩ := h
  obtain ⟨halive, hprocs⟩ := standstill_reach hc
  have hover : Over p = false := by
    unfold Over
    cases hprog : p.prog with
    | call cmd k => rfl
    | _ =>
        rw [hprog] at hthrough
        exact hthrough.elim
  have hphase := running_call (hprocs p hp) ht hover
  have hheld : (standstill env w).total c.pool = holders (stages env w) life c.pool :=
    Discipline.total_holding _ life (fun _ _ => rfl) rfl c.pool
  have hpos : 0 < holders (stages env w) life c.pool (.part (.call n)) := by
    refine List.countP_pos_iff.mpr ⟨p, hp, ?_⟩
    rw [hphase, ht]
    exact decide_eq_true rfl
  have hcalls := halive.counted.calls n
  rw [hheld] at hcalls
  by_contra hout
  rw [if_neg hout] at hcalls
  omega

/-- Where the loop is stuck, it has not exited. -/
theorem Stuck.unquiet (hc : (worker env w).Reach Called (New w) c) (h : Stuck w c) :
    ¬ quiet (c.store.workers w) := by
  obtain ⟨p, hp, ht, snapshot, k, hprog, -⟩ := h
  obtain ⟨halive, hprocs⟩ := standstill_reach hc
  obtain ⟨-, hknows, hfollows⟩ := hprocs p hp
  change knows w p.task ((stages env w).phase p.task p.hist) c.store at hknows
  rw [ht] at hknows
  rw [ht, hprog] at hfollows
  have hpermits : permits w (.part .loop) ((stages env w).phase (.part .loop) p.hist)
      (.onWorker w (.race snapshot)) := hfollows.1
  have hlife : life p.task ((stages env w).phase p.task p.hist) = some (.part .busy) := by
    rw [ht]
    generalize (stages env w).phase (.part .loop) p.hist = l at hknows hpermits ⊢
    cases l with
    | part l => cases l <;> first | rfl | exact hknows.elim | exact hpermits.2.elim
    | _ => exact hpermits.elim
  have hheld : (standstill env w).total c.pool = holders (stages env w) life c.pool :=
    Discipline.total_holding _ life (fun _ _ => rfl) rfl c.pool
  have hpos : 0 < holders (stages env w) life c.pool (.part .busy) :=
    List.countP_pos_iff.mpr ⟨p, hp, by simpa using hlife⟩
  have hloop := halive.loop
  rw [hheld] at hloop
  intro hq
  rw [if_pos hq] at hloop
  omega

/-- A process of a pool is still there when the `i`-th one has moved, or it is that one. -/
theorem mem_moved {p q : Process} (p' : Process) {ts : List Process}
    (hp : c.pool[i]? = some p) (hq : q ∈ c.pool) : q ∈ c.pool.set i p' ++ ts ∨ q = p ∧ p' ∈ c.pool.set i p' ++ ts := by
  have hi : i < c.pool.length := by
    by_contra hge
    rw [List.getElem?_eq_none (by omega)] at hp
    cases hp
  obtain ⟨j, hj⟩ := List.mem_iff_getElem?.mp hq
  by_cases hij : i = j
  · subst hij
    rw [hp] at hj
    cases hj
    exact Or.inr ⟨rfl, List.mem_append_left _ (List.mem_set hi _)⟩
  · refine Or.inl (List.mem_append_left _ (List.mem_iff_getElem?.mpr ⟨j, ?_⟩))
    rw [List.getElem?_set_ne hij]
    exact hj

/-- A call that hangs does so until its handler settles. -/
theorem Hangs.step (hc : (worker env w).Reach Called (New w) c) {n : ℕ} (h : Hangs c n)
    {a : Choice Role Answers ℕ} (hok : Called c a ∧ NoHandler c a)
    (hs : (worker env w).step c a = some c') : Hangs c' n := by
  obtain ⟨q, hq, htask, hthrough⟩ := h
  cases a with
  | start t =>
      cases hs
      exact ⟨q, List.mem_append_left _ hq, htask, hthrough⟩
  | halt i => exact hok.1.elim
  | drift ms =>
      cases hs
      exact ⟨q, hq, htask, hthrough⟩
  | call i answers =>
      obtain ⟨p, cmd, k, r, s', hp, -, hprog, hexec, rfl⟩ := Machine.step_call hs
      rcases mem_moved (p.resume cmd r (k r)) hp hq with hin | ⟨rfl, hin⟩
      · exact ⟨q, hin, htask, hthrough⟩
      · refine ⟨_, hin, htask, ?_⟩
        obtain ⟨j, ht⟩ := htask
        have hproc := (standstill_reach hc).2 q hq
        have hphase := running_call hproc ht (by simp [Over, hprog])
        have hfollows := hproc.2.2
        rw [hphase, ht, hprog] at hfollows
        rw [ht] at hexec
        have hpermits : Slots.permits w (.call n j) .running cmd := hfollows.1
        obtain ⟨hans, -⟩ := part_exec (by simp) hpermits hexec
        rw [hprog] at hthrough
        rcases hthrough with hhandler | hrest
        · exact absurd hhandler (hok.2 q cmd k hp hprog)
        · exact hrest r hans

/-- **A stuck loop stays stuck until a handler settles.** -/
theorem Stuck.step (hc : (worker env w).Reach Called (New w) c) (h : Stuck w c)
    (hi : TimedOut w c i) {a : Choice Role Answers ℕ} (hok : Called c a ∧ NoHandler c a)
    (hs : (worker env w).step c a = some c') : Stuck w c' ∧ TimedOut w c' i := by
  have hhangs : ∀ n, Hangs c n → Hangs c' n := fun n hn => hn.step hc hok hs
  have hquiet := h.unquiet hc
  obtain ⟨q, hq, htask, snapshot, k₀, hrace, hall⟩ := h
  obtain ⟨p₀, cmd₀, k₁, hp₀, ht₀, hprog₀, hpermits₀, hstage⟩ := hi.phase hc
  -- `stop` has only one command left to issue, and it waits for the loop
  have hwaits : cmd₀ = .onWorker w .awaitLoop := by
    rcases hstage with ⟨hphase, -⟩ | ⟨-, hq⟩
    · rw [hphase] at hpermits₀
      cases cmd₀ with
      | onWorker w' op =>
          obtain ⟨rfl, hfits⟩ := hpermits₀
          cases op <;> first | rfl | exact hfits.elim
      | _ => first | exact hpermits₀.elim | simp [permits] at hpermits₀
    · exact absurd hq hquiet
  cases a with
  | start t =>
      cases hs
      obtain ⟨p, hp, ht, hover, he⟩ := hi
      refine ⟨⟨q, List.mem_append_left _ hq, htask, snapshot, k₀, hrace,
        fun n hn => hhangs n (hall n hn)⟩, p, ?_, ht, hover, he⟩
      rw [List.getElem?_append_left]
      · exact hp
      · by_contra hge
        rw [List.getElem?_eq_none (by omega)] at hp
        cases hp
  -- nobody is killed
  | halt j => exact hok.1.elim
  | drift ms =>
      cases hs
      exact ⟨⟨q, hq, htask, snapshot, k₀, hrace, fun n hn => hhangs n (hall n hn)⟩, hi⟩
  | call j answers =>
      obtain ⟨p, cmd, k, r, s', hp, -, hprog, hexec, rfl⟩ := Machine.step_call hs
      constructor
      · rcases mem_moved (p.resume cmd r (k r)) hp hq with hin | ⟨rfl, -⟩
        · exact ⟨q, hin, htask, snapshot, k₀, hrace, fun n hn => hhangs n (hall n hn)⟩
        · -- no call of the snapshot has settled, so the race is still on
          rw [hprog] at hrace
          cases hrace
          have hpending : exec env c.store q.task (.onWorker w (.race snapshot)) answers =
              none := by
            refine if_neg ?_
            rintro ⟨n, hn, hout⟩
            exact hout ((hall n hn).active hc)
          have hexec' : exec env c.store q.task (.onWorker w (.race snapshot)) answers =
              some (r, s') := hexec
          rw [hpending] at hexec'
          cases hexec'
      · by_cases hij : j = i
        · -- `stop` waits for the loop
          subst hij
          rw [hp₀] at hp
          cases hp
          rw [hprog₀] at hprog
          cases hprog
          subst hwaits
          have hpending : exec env c.store p₀.task (.onWorker w .awaitLoop) answers = none :=
            if_neg hquiet
          have hexec' : exec env c.store p₀.task (.onWorker w .awaitLoop) answers =
              some (r, s') := hexec
          rw [hpending] at hexec'
          cases hexec'
        · obtain ⟨p₁, hp₁, ht₁, hover₁, he₁⟩ := hi
          refine ⟨p₁, ?_, ht₁, hover₁, he₁⟩
          have hlt : i < c.pool.length := by
            by_contra hge
            rw [List.getElem?_eq_none (by omega)] at hp₁
            cases hp₁
          show (c.pool.set j _ ++ _)[i]? = _
          rw [List.getElem?_append_left (by simpa using hlt), List.getElem?_set_ne hij]
          exact hp₁

/-- A stuck loop keeps `stop` from returning. -/
theorem Stuck.forever (hc : (worker env w).Reach Called (New w) c) (h : Stuck w c)
    (hi : TimedOut w c i) : ¬ CanReturn env w c i := by
  rintro ⟨c', hsilent, p, hp, hprog⟩
  have hend : Stuck w c' ∧ TimedOut w c' i := by
    clear hp hprog
    unfold Silent at hsilent
    induction hsilent with
    | init heq =>
        subst heq
        exact ⟨h, hi⟩
    | step a hrun hok hs ih => exact ih.1.step (Silent.live hc hrun) ih.2 hok hs
  obtain ⟨q, hq, -, hover, -⟩ := hend.2
  rw [hp] at hq
  cases hq
  simp [Over, hprog] at hover

/-- Every promise belongs to a call. -/
theorem exists_call (hc : (worker env w).Reach Called (New w) c) {n : ℕ}
    (hn : n ∈ (c.store.workers w).activeJobs) :
    ∃ (j : ℕ) (p : Process) (id' : JobId), c.pool[j]? = some p ∧
      p.task = .part (.call n id') := by
  obtain ⟨halive, -⟩ := standstill_reach hc
  have hheld : (standstill env w).total c.pool = holders (stages env w) life c.pool :=
    Discipline.total_holding _ life (fun _ _ => rfl) rfl c.pool
  have hcalls := halive.counted.calls n
  rw [hheld, if_pos hn] at hcalls
  have hpos : 0 < holders (stages env w) life c.pool (.part (.call n)) := by omega
  obtain ⟨p, hp, hlife⟩ := List.countP_pos_iff.mp hpos
  simp only [decide_eq_true_eq] at hlife
  obtain ⟨j, hj⟩ := List.mem_iff_getElem?.mp hp
  generalize (stages env w).phase p.task p.hist = l at hlife
  cases ht : p.task with
  | part t =>
      rw [ht] at hlife
      cases l with
      | part l =>
          obtain ⟨x, hx, hxx⟩ := Option.map_eq_some_iff.mp hlife
          cases hxx
          cases t with
          | call m id' =>
              cases l <;> cases hx
              exact ⟨j, p, id', hj, ht⟩
          | _ => cases l <;> cases hx
      | _ => cases hlife
  | start =>
      rw [ht] at hlife
      cases l <;> cases hlife
  | stop =>
      rw [ht] at hlife
      cases l <;> cases hlife

/-- **The timeout bounds the wait on handlers unless the loop is stuck.**  Once the timer of
`stop` has fired, it can return without any handler settling, except where the pull loop waits
for a slot and every call it waits for can only end after its handler. -/
theorem completes_iff (hc : (worker env w).Reach Called (New w) c) (hi : TimedOut w c i) :
    CanReturn env w c i ↔ ¬ Stuck w c := by
  refine ⟨fun hreturn hstuck => hstuck.forever hc hi hreturn, fun hstuck => ?_⟩
  have hfree : ∀ (j : ℕ) (p : Process) snapshot k, c.pool[j]? = some p →
      p.task = .part .loop → p.prog = .call (.onWorker w (.race snapshot)) k →
      Frees env w c i j p snapshot := by
    intro j p snapshot k hp ht hprog
    obtain ⟨n, hn, hends⟩ : ∃ n ∈ snapshot, ¬ Hangs c n := by
      by_contra hall
      push Not at hall
      exact hstuck ⟨p, List.mem_of_getElem? hp, ht, snapshot, k, hprog, hall⟩
    by_cases hin : n ∈ (c.store.workers w).activeJobs
    · -- let the call settle
      obtain ⟨m, q, id', hq, htq⟩ := exists_call hc hin
      obtain ⟨c', q', hleads, hq', htq', hover⟩ := settles hc hq htq rfl fun hthrough =>
        hends ⟨q, List.mem_of_getElem? hq, ⟨id', htq⟩, hthrough⟩
      refine ⟨c', hleads.silent, hi.leads hq (by simp [htq]) hleads, ?_, n, hn, ?_⟩
      · refine hleads.others j p ?_ hp
        rintro rfl
        rw [hp] at hq
        cases hq
        rw [ht] at htq
        cases htq
      · have hproc := (standstill_reach (hleads.silent.live hc)).2 q' (List.mem_of_getElem? hq')
        exact settled_out hproc (htq'.trans htq) hover
    · exact ⟨c, .init rfl, hi, hp, n, hn, hin⟩
  obtain ⟨c₂, hsilent₂, hi₂, hquiet⟩ := quiets hc hi hfree
  have hc₂ := hsilent₂.live hc
  obtain ⟨p, cmd, k, hp, ht, hprog, -, hphase⟩ := hi₂.phase hc₂
  obtain ⟨c₃, hsilent₃, hreturned⟩ := returns hc₂ hquiet hp ht hprog
    (hphase.imp (fun h => h.1) fun h => h.1)
  exact ⟨c₃, hsilent₂.trans hsilent₃, hreturned⟩

end Run

/-! ## A handler that hangs -/

/-- Every pull brings the job `a`, whose handler is registered, and the timer fires. -/
def hanging : Answers
  | .rpoplpush _ _ => .ok (some "a")
  | .hgetall _ => .ok { jobName := some "echo" }
  | .write _ => .ok ()
  | .update _ _ => .ok ()
  | .publish _ => .ok ()
  | .now => .ok 0
  | .onWorker _ (.drain _ _) => .ok true
  | _ => .error .rejected

/-- The `i`-th process goes on by `n` commands. -/
def goesOn (i n : ℕ) : List (Choice Role Answers ℕ) := List.replicate n (.call i hanging)

/-- The worker is started, pulls a job, and its handler hangs; the loop goes on by `n`
commands, then the worker is stopped and half a minute passes. -/
def hung (n : ℕ) : List (Choice Role Answers ℕ) :=
  .start .start :: goesOn 0 8 ++ goesOn 1 5 ++ goesOn 2 6 ++ goesOn 3 n ++
    (.start .stop :: goesOn 4 4) ++ (.drift 30000 :: goesOn 4 1)

/-- `stop` is in progress and its timer has fired. -/
def firedTest (w : WorkerId) (p : Process) : Bool :=
  decide (p.task = .stop) && !Over p && p.hist.any fun e => match e with
    | ⟨.onWorker w' (.drain _ _), .ok true⟩ => decide (w' = w)
    | _ => false

/-- The loop waits for these calls. -/
def raceTest (w : WorkerId) (snapshot : Finset ℕ) (p : Process) : Bool :=
  decide (p.task = .part .loop) && match p.prog with
    | .call (.onWorker w' (.race snapshot')) _ => decide (w' = w ∧ snapshot' = snapshot)
    | _ => false

/-- The call waits for its handler. -/
def handlerTest (n : ℕ) (j : JobId) (p : Process) : Bool :=
  decide (p.task = .part (.call n j)) && match p.prog with
    | .call (.handler _ _ _) _ => true
    | _ => false

theorem timedOut_of_test {w : WorkerId} {c : Running} {i : ℕ}
    (h : (c.pool[i]?).any (firedTest w) = true) : TimedOut w c i := by
  obtain ⟨p, hp, htest⟩ := (Option.any_eq_true _ _).mp h
  simp only [firedTest, Bool.and_eq_true, decide_eq_true_eq, Bool.not_eq_true'] at htest
  obtain ⟨⟨ht, hover⟩, hfires⟩ := htest
  obtain ⟨e, he, hfire⟩ := List.any_eq_true.mp hfires
  refine ⟨p, hp, ht, hover, ?_⟩
  split at hfire
  · rename_i w' snapshot deadline
    obtain rfl : w' = w := by simpa using hfire
    exact ⟨snapshot, deadline, he⟩
  · cases hfire

theorem stuck_of_test {w : WorkerId} {c : Running} {i k n : ℕ} {j : JobId}
    (hloop : (c.pool[i]?).any (raceTest w {n}) = true)
    (hcall : (c.pool[k]?).any (handlerTest n j) = true) : Stuck w c := by
  obtain ⟨p, hp, hrace⟩ := (Option.any_eq_true _ _).mp hloop
  obtain ⟨q, hq, hhandler⟩ := (Option.any_eq_true _ _).mp hcall
  simp only [raceTest, handlerTest, Bool.and_eq_true, decide_eq_true_eq] at hrace hhandler
  obtain ⟨ht, hrace⟩ := hrace
  obtain ⟨htq, hhandler⟩ := hhandler
  split at hrace
  · rename_i w' snapshot k' hprog
    obtain ⟨rfl, rfl⟩ := of_decide_eq_true hrace
    refine ⟨p, List.mem_of_getElem? hp, ht, {n}, k', hprog, fun m hm => ?_⟩
    cases Finset.mem_singleton.mp hm
    refine ⟨q, List.mem_of_getElem? hq, ⟨j, htq⟩, ?_⟩
    split at hhandler
    · rename_i hprogq
      rw [hprogq]
      exact Or.inl trivial
    · cases hhandler
  · cases hrace

/-- One job at a time. -/
def single : Env := { sample with concurrency := fun _ => 1 }

/-- With one slot, one hanging handler keeps `stop` from returning. -/
theorem stop_stuck : ∃ c i, (worker single "w").Reach Called (New "w") c ∧ TimedOut "w" c i ∧
    ¬ CanReturn single "w" c i := by
  obtain ⟨c, hc, htest⟩ := Machine.exists_reach (worker single "w") Called (New "w")
    (c := { store := {}, pool := [] }) ⟨rfl, rfl⟩ (hung 1)
    (fun c => (c.pool[4]?).any (firedTest "w") && (c.pool[3]?).any (raceTest "w" {0}) &&
      (c.pool[2]?).any (handlerTest 0 "a")) (by decide)
  simp only [Bool.and_eq_true] at htest
  obtain ⟨⟨hfired, hrace⟩, hhandler⟩ := htest
  have htimed := timedOut_of_test hfired
  exact ⟨c, 4, hc, htimed, (stuck_of_test hrace hhandler).forever hc htimed⟩

/-- With a second slot, it returns. -/
theorem completes_second : ∃ c i, (worker sample "w").Reach Called (New "w") c ∧
    TimedOut "w" c i ∧ CanReturn sample "w" c i := by
  obtain ⟨c, hc, htest⟩ := Machine.exists_reach (worker sample "w") Called (New "w")
    (c := { store := {}, pool := [] }) ⟨rfl, rfl⟩ (hung 1)
    (fun c => (c.pool[4]?).any (firedTest "w") && c.pool.all fun p => match p.prog with
      | .call (.onWorker _ (.race _)) _ => false
      | _ => true) (by decide)
  simp only [Bool.and_eq_true] at htest
  obtain ⟨hfired, hall⟩ := htest
  have htimed := timedOut_of_test hfired
  refine ⟨c, 4, hc, htimed, (completes_iff hc htimed).mpr ?_⟩
  rintro ⟨p, hp, -, snapshot, k, hprog, -⟩
  have hrace := List.all_eq_true.mp hall p hp
  rw [hprog] at hrace
  cases hrace

end Standstill

end NexusQueue
