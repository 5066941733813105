/-
# What a stopped worker leaves behind

`stop` deletes the registry entry, the heartbeat key and the metadata hash of its worker, one
after the other, and clears the heartbeat timer after that.  It does not wait for a heartbeat
that is being written: such a heartbeat may write the key, the hash or both again, and then
nobody deletes them.

What `stop` has erased stays erased as long as no heartbeat writes it again
(`nothing_left`).
-/
import NexusQueue.Repertoire
import NexusQueue.Effects

namespace NexusQueue

open Prog (Only only_pure only_bind only_perform only_step)

namespace Traces

/-- What a worker leaves in Redis: its entry in the registry, its heartbeat and its
metadata. -/
inductive Trace where
  | entry
  | beat
  | record
  deriving DecidableEq

instance : Fintype Trace where
  elems := {.entry, .beat, .record}
  complete := by intro x; cases x <;> decide

/-- The trace of the worker is not there. -/
def Absent (w : WorkerId) (r : Redis) : Trace → Prop
  | .entry => w ∉ r.sets redisKeys.workerRegistry
  | .beat => r.strings (redisKeys.heartbeat w) = none
  | .record => r.metas (redisKeys.workerMeta w) = {}

/-- The trace a command leaves. -/
def marks : Cmd → Option (WorkerId × Trace)
  | .write (.sadd .workers w) => some (w, .entry)
  | .write (.set (.heartbeat w) _ _) => some (w, .beat)
  | .write (.hsetMeta (.worker w) _) => some (w, .record)
  | _ => none

/-- The trace a command erases. -/
def erases : Cmd → Option (WorkerId × Trace)
  | .write (.srem .workers w) => some (w, .entry)
  | .write (.del (.heartbeat w)) => some (w, .beat)
  | .write (.del (.worker w)) => some (w, .record)
  | _ => none

/-- Commands that leave no trace of any worker. -/
def Clean (c : Cmd) : Prop := c.traceless ∨ ∃ w op, c = .onWorker w op

/-! ## Commands -/

section Step

variable {env : Env} {s s' : World} {o : Oracle} {c : Cmd} {r : Except Err c.Resp}
  {w w' : WorkerId} {x x' : Trace}

theorem Absent.write {q : Redis} {y : Write} (hy : y.traceless) (now : ℕ) (h : Absent w q x) :
    Absent w (y.apply now q) x := by
  cases y with
  | sadd k m =>
      cases x with
      | entry =>
          show w ∉ Function.update q.sets k _ redisKeys.workerRegistry
          rw [Function.update_of_ne (Ne.symm hy)]
          exact h
      | _ => exact h
  | srem k m =>
      cases x with
      | entry =>
          show w ∉ Function.update q.sets k _ redisKeys.workerRegistry
          rw [Function.update_apply]
          split
          · rename_i hk
            rw [← hk]
            exact fun hw => h (Finset.mem_of_mem_erase hw)
          · exact h
      | _ => exact h
  | set k v ex =>
      cases x with
      | beat =>
          show Function.update q.strings k _ (redisKeys.heartbeat w) = none
          rw [Function.update_of_ne (Ne.symm (hy w))]
          exact h
      | _ => exact h
  | del k =>
      cases x with
      | entry =>
          show w ∉ Function.update q.sets k ∅ redisKeys.workerRegistry
          rw [Function.update_apply]
          split
          · exact Finset.notMem_empty w
          · exact h
      | beat =>
          show Function.update q.strings k none (redisKeys.heartbeat w) = none
          rw [Function.update_apply]
          split
          · rfl
          · exact h
      | record =>
          show Function.update q.metas k {} (redisKeys.workerMeta w) = {}
          rw [Function.update_apply]
          split
          · rfl
          · exact h
  | hsetMeta k f => exact hy.elim
  | _ => cases x <;> exact h

theorem Absent.multi {ys : List Write} (hys : ∀ y ∈ ys, y.traceless) (now : ℕ) {q : Redis}
    (h : Absent w q x) : Absent w (q.multi now ys) x := by
  induction ys generalizing q with
  | nil => exact h
  | cons y ys ih =>
      have hy : y.traceless := hys y (List.mem_cons_self ..)
      exact ih (fun y' hy' => hys y' (List.mem_cons_of_mem _ hy')) (h.write hy now)

/-- **Step lemma.**  A command that leaves no trace keeps a trace absent. -/
theorem Absent.clean (hc : Clean c) (ha : World.answer env s o c = some (r, s'))
    (h : Absent w s.redis x) : Absent w s'.redis x := by
  rcases hc with hc | ⟨w', op, rfl⟩
  · cases c with
    | write y =>
        cases ha
        exact h.write hc _
    | multi ys =>
        cases ha
        exact h.multi hc _
    | zrem k m =>
        cases ha
        rw [Redis.zrem_snd]
        cases x <;> exact h
    | rpoplpush _ _ | blmove _ _ =>
        cases ha
        unfold Redis.rpoplpush
        split
        · exact h
        · cases x <;> exact h
    | onWorker w' op =>
        obtain ⟨obj, rfl⟩ := answer_onWorker ha
        exact h
    | _ =>
        simp only [World.answer] at ha
        repeat' split at ha
        all_goals first | (cases ha; exact h) | cases ha
  · obtain ⟨obj, rfl⟩ := answer_onWorker ha
    exact h

/-- **Step lemma.**  A command that leaves another trace keeps it absent, too. -/
theorem Absent.marked (hc : marks c = some (w', x')) (hne : (w', x') ≠ (w, x))
    (ha : World.answer env s o c = some (r, s')) (h : Absent w s.redis x) :
    Absent w s'.redis x := by
  unfold marks at hc
  split at hc
  · cases hc
    cases ha
    cases x with
    | entry =>
        show w ∉ Function.update s.redis.sets Key.workers (insert w' _) Key.workers
        rw [Function.update_self]
        intro hw
        rcases Finset.mem_insert.mp hw with rfl | hw
        · exact hne rfl
        · exact h hw
    | _ => exact h
  · cases hc
    cases ha
    cases x with
    | beat =>
        have hk : Key.heartbeat w ≠ Key.heartbeat w' := by
          intro hk
          cases hk
          exact hne rfl
        show Function.update s.redis.strings (Key.heartbeat w') _ (Key.heartbeat w) = none
        rw [Function.update_of_ne hk]
        exact h
    | _ => exact h
  · cases hc
    cases ha
    cases x with
    | record =>
        have hk : Key.worker w ≠ Key.worker w' := by
          intro hk
          cases hk
          exact hne rfl
        show Function.update s.redis.metas (Key.worker w') _ (Key.worker w) = {}
        rw [Function.update_of_ne hk]
        exact h
    | _ => exact h
  · cases hc

/-- A trace that is erased is absent. -/
theorem absent_erased (hc : erases c = some (w, x))
    (ha : World.answer env s o c = some (r, s')) : Absent w s'.redis x := by
  unfold erases at hc
  split at hc
  · cases hc
    cases ha
    show w ∉ Function.update s.redis.sets Key.workers _ Key.workers
    rw [Function.update_self]
    exact Finset.notMem_erase w _
  · cases hc
    cases ha
    show Function.update s.redis.strings (Key.heartbeat w) none (Key.heartbeat w) = none
    exact Function.update_self ..
  · cases hc
    cases ha
    show Function.update s.redis.metas (Key.worker w) {} (Key.worker w) = {}
    exact Function.update_self ..
  · cases hc

end Step

/-! ## Tasks -/

/-- A task may leave the trace: `start` and the heartbeat of the worker, and `stop` as long
as it has not erased it. -/
def Leaves (t : Task) (w : WorkerId) (x : Trace) (erased : Finset Trace) : Prop :=
  t = .start w ∨ t = .heartbeat w ∨ (t = .stop w ∧ x ∉ erased)

/-- The protocol of the traces; the phase of a `stop` is what it has erased. -/
def cleaning : Protocol Task Cmd Cmd.Resp Err (Finset Trace) where
  start _ := ∅
  permits t erased c := Clean c ∨ ∃ w x, marks c = some (w, x) ∧ Leaves t w x erased
  next t erased c r := match t, erases c with
    | .stop w, some (w', x) => if w' = w ∧ r.isOk then insert x erased else erased
    | _, _ => erased

/-- A `stop` that has returned has erased every trace. -/
def Cleaned : Task → Except Err (Option JobId) → Finset Trace → Prop
  | .stop _, .ok _, erased => ∀ x, x ∈ erased
  | _, _, _ => True

/-- The process has erased the trace. -/
def wiped (w : WorkerId) (x : Trace) (p : Process) : Bool :=
  p.hist.any fun e => decide (erases e.cmd = some (w, x)) && e.answer.isOk

section Conduct

theorem mem_phase (w : WorkerId) (x : Trace) (h : List (Event Cmd Cmd.Resp Err)) :
    x ∈ cleaning.phase (.stop w) h ↔
      (h.any fun e => decide (erases e.cmd = some (w, x)) && e.answer.isOk) = true := by
  induction h with
  | nil => simp [cleaning]
  | cons e h ih =>
      rw [Protocol.phase_cons, List.any_cons, Bool.or_eq_true, ← ih]
      show x ∈ (match Task.stop w, erases e.cmd with
        | .stop w, some (w', x) => if w' = w ∧ e.answer.isOk then insert x _ else _
        | _, _ => _) ↔ _
      cases herase : erases e.cmd with
      | none => simp
      | some m =>
          obtain ⟨w', x'⟩ := m
          by_cases hok : w' = w ∧ e.answer.isOk
          · obtain ⟨rfl, hok⟩ := hok
            simp [hok, eq_comm]
          · have hnot : ¬ (w' = w ∧ x' = x ∧ e.answer.isOk = true) :=
              fun hall => hok ⟨hall.1, hall.2.2⟩
            simp only [if_neg hok, Option.some.injEq, Prod.mk.injEq, Bool.and_eq_true,
              decide_eq_true_eq, and_assoc, hnot, false_or]

theorem stop_cleaning (w : WorkerId) :
    Follows cleaning (.stop w) ∅ (Worker.stop w)
      fun r erased => r.isOk → ∀ x, x ∈ erased := by
  have clean : ∀ {op : Local} {l : Finset Trace},
      cleaning.permits (.stop w) l (.onWorker w op) := Or.inl (Or.inr ⟨_, _, rfl⟩)
  refine follows_step clean (fun _ => ?_) (fun _ h => by cases h)
  refine follows_step (Or.inr ⟨w, .record, rfl, Or.inr (Or.inr ⟨rfl, Finset.notMem_empty _⟩)⟩)
    (fun _ => ?_) (fun _ h => by cases h)
  refine follows_step clean (fun snapshot => ?_) (fun _ h => by cases h)
  refine follows_bind (fun r l => r.isOk → l = ∅) ?_ (fun _ l hl => ?_) (fun _ _ _ h => by cases h)
  · unfold Worker.drain
    split
    · refine follows_step (Or.inl (Or.inl trivial)) (fun now => ?_) (fun _ h => by cases h)
      exact follows_step clean (fun _ => follows_pure fun _ => rfl) (fun _ h => by cases h)
    · exact follows_pure fun _ => rfl
  · obtain rfl : l = ∅ := hl rfl
    refine follows_step clean (fun _ => ?_) (fun _ h => by cases h)
    refine follows_step (Or.inl (Or.inl trivial)) (fun _ => ?_) (fun _ h => by cases h)
    refine follows_step (Or.inl (Or.inl trivial)) (fun _ => ?_) (fun _ h => by cases h)
    refine follows_step (Or.inl (Or.inl trivial)) (fun _ => ?_) (fun _ h => by cases h)
    refine follows_step clean (fun _ => ?_) (fun _ h => by cases h)
    refine follows_perform clean fun r _ x => ?_
    -- What is left is what the three deletions have inserted.
    show x ∈ (if w = w ∧ true = true then insert Trace.record
      (if w = w ∧ true = true then insert Trace.beat
        (if w = w ∧ true = true then insert Trace.entry ∅ else ∅) else _) else _)
    cases x <;> simp

/-- **Every task keeps to the protocol.** -/
theorem cleaning_follows (env : Env) (t : Task) :
    Follows cleaning t (cleaning.start t) (body env t) (Cleaned t) := by
  by_cases ht : t.traces
  · cases t with
    | start w =>
        have own : ∀ {c : Cmd} {x : Trace}, marks c = some (w, x) →
            ∀ l, cleaning.permits (.start w) l c :=
          fun hc l => Or.inr ⟨w, _, hc, Or.inl rfl⟩
        have clean : ∀ {op : Local} (l : Finset Trace),
            cleaning.permits (.start w) l (.onWorker w op) := fun _ => Or.inl (Or.inr ⟨_, _, rfl⟩)
        refine follows_mono (follows_any (only_bind ?_ fun _ => only_pure _)) fun _ _ _ => trivial
        refine only_step clean fun _ => only_step (own rfl) fun _ => only_bind ?_ fun _ => ?_
        · exact only_step (fun _ => Or.inl (Or.inl trivial)) fun _ => only_perform (own rfl)
        · refine only_step (fun _ => Or.inl (Or.inl trivial)) fun _ => ?_
          exact only_step (own rfl) fun _ => only_step clean fun _ => only_perform clean
    | stop w =>
        refine follows_bind _ (stop_cleaning w) (fun _ _ h => follows_pure (h rfl)) ?_
        exact fun _ _ _ => trivial
    | heartbeat w =>
        have own : ∀ {c : Cmd} {x : Trace}, marks c = some (w, x) →
            ∀ l, cleaning.permits (.heartbeat w) l c :=
          fun hc l => Or.inr ⟨w, _, hc, Or.inr (Or.inl rfl)⟩
        have clean : ∀ {op : Local} (l : Finset Trace),
            cleaning.permits (.heartbeat w) l (.onWorker w op) :=
          fun _ => Or.inl (Or.inr ⟨_, _, rfl⟩)
        refine follows_mono (follows_any (only_bind ?_ fun _ => only_pure _)) fun _ _ _ => trivial
        refine only_step clean fun _ => only_bind ?_ fun _ => ?_
        · exact only_step (fun _ => Or.inl (Or.inl trivial)) fun _ => only_perform (own rfl)
        · exact only_step clean fun _ => only_perform (own rfl)
    | _ => exact ht.elim
  · have honly := (Repertoire.only_traceless env ht).mono fun c hc =>
      show ∀ l, cleaning.permits t l c from fun _ => Or.inl (Or.inl hc)
    refine follows_mono (follows_any honly) fun _ _ _ => ?_
    cases t <;> trivial

end Conduct

/-! ## Stopping a worker -/

/-- The task starts or stops the worker. -/
def governs (w : WorkerId) : Task → Bool
  | .start w' | .stop w' => w' = w
  | _ => false

/-- The task is a heartbeat of the worker. -/
def beating (w : WorkerId) : Task → Bool
  | .heartbeat w' => w' = w
  | _ => false

/-- The process is a `stop` of the worker that has returned. -/
def stopped (w : WorkerId) (p : Process) : Bool :=
  match p.task, p.prog with
  | .stop w', .ret _ => w' = w
  | _, _ => false

/-- `start` and `stop` of the worker are called one after the other, and not any more when
the `i`-th process has been started. -/
def Serial (w : WorkerId) (i : ℕ) (c : State) : Action → Prop
  | .start t => t.external ∧
      (governs w t → c.pool.length ≤ i ∧ ∀ p ∈ c.pool, governs w p.task → Ended p)
  | _ => True

/-- A heartbeat of the worker is about to leave a trace that the `i`-th process has
erased. -/
def Late (w : WorkerId) (i : ℕ) (c : State) (j : ℕ) : Prop :=
  ∃ x, (nextCmd c j).bind marks = some (w, x) ∧
    (c.pool[j]?).any (fun q => beating w q.task) ∧ (c.pool[i]?).any (wiped w x)

/-- The calls are serial, and no heartbeat is late. -/
def Timely (w : WorkerId) (i : ℕ) (c : State) : Action → Prop
  | .call j _ => ¬ Late w i c j
  | a => Serial w i c a

instance (w : WorkerId) (i : ℕ) (c : State) : (a : Action) → Decidable (Serial w i c a)
  | .start t => inferInstanceAs (Decidable (t.external ∧
      (governs w t → c.pool.length ≤ i ∧ ∀ p ∈ c.pool, governs w p.task → Ended p)))
  | .call _ _ | .halt _ | .drift _ => .isTrue trivial

instance (w : WorkerId) (i : ℕ) (c : State) (j : ℕ) : Decidable (Late w i c j) :=
  inferInstanceAs (Decidable (∃ _, _))

instance (w : WorkerId) (i : ℕ) (c : State) : (a : Action) → Decidable (Timely w i c a)
  | .call j _ => inferInstanceAs (Decidable (¬ Late w i c j))
  | .start t => inferInstanceAs (Decidable (Serial w i c (.start t)))
  | .halt _ | .drift _ => .isTrue trivial

/-- The `i`-th process, if it is a `stop` of the worker, is the last call to govern the
worker, and what it has erased is absent. -/
structure Erased (w : WorkerId) (i : ℕ) (c : State) : Prop where
  last : ∀ p, c.pool[i]? = some p → p.task = .stop w →
    ∀ j q, c.pool[j]? = some q → j ≠ i → governs w q.task → Ended q
  absent : ∀ p x, c.pool[i]? = some p → p.task = .stop w → wiped w x p →
    Absent w c.store.redis x

section Run

variable {env : Env} {w : WorkerId} {i : ℕ} {c c' : State}

/-- Commands start no task that governs a worker. -/
theorem not_governs_forks {t t' : Task} {cmd : Cmd} {r : Except Err cmd.Resp}
    (h : t' ∈ forks t cmd r) : ¬ governs w t' := by
  rcases forks_cases h with ⟨w', rfl⟩ | ⟨w', n, j, rfl⟩ <;> exact Bool.false_ne_true

/-- A task that governs the worker was there before the command of the `j`-th process. -/
theorem governs_before {j l : ℕ} {q p : Process} {cmd : Cmd}
    {r : Except Err cmd.Resp} {next : Async (Option JobId)}
    (hp : (c.pool.set j (q.resume cmd r next) ++
      (forks q.task cmd r).map (machine env).spawn)[l]? = some p)
    (hgov : governs w p.task) :
    (l = j ∧ p = q.resume cmd r next) ∨ (l ≠ j ∧ c.pool[l]? = some p) := by
  rw [List.getElem?_append] at hp
  split at hp
  · rw [List.getElem?_set] at hp
    split at hp
    · rename_i hjl
      split at hp
      · cases hp
        exact Or.inl ⟨hjl.symm, rfl⟩
      · cases hp
    · rename_i hjl
      exact Or.inr ⟨Ne.symm hjl, hp⟩
  · obtain ⟨t, ht, rfl⟩ := List.mem_map.mp (List.mem_of_getElem? hp)
    exact absurd hgov (not_governs_forks ht)

theorem governs_stop (w : WorkerId) : governs w (.stop w) = true := decide_eq_true rfl

/-- **Step lemma.** -/
theorem Erased.step {a : Action}
    (hfollows : ∀ p ∈ c.pool, Follows cleaning p.task (cleaning.phase p.task p.hist) p.prog
      (Cleaned p.task)) (h : Erased w i c) (hok : Timely w i c a)
    (hs : (machine env).step c a = some c') : Erased w i c' := by
  cases a with
  | start t =>
      obtain ⟨-, hserial⟩ := hok
      cases hs
      constructor
      · intro p hp ht j q hq hji hgov
        rw [List.getElem?_append] at hp hq
        split at hp
        · rename_i hi
          split at hq
          · exact h.last p hp ht j q hq hji hgov
          · cases List.mem_singleton.mp (List.mem_of_getElem? hq)
            exact absurd (hserial hgov).1 (by omega)
        · have hi : i = c.pool.length := by
            have hlt := (List.getElem?_eq_some_iff.mp hp).1
            simp only [List.length_singleton] at hlt
            omega
          cases List.mem_singleton.mp (List.mem_of_getElem? hp)
          have hgovt : governs w t := by
            rw [show t = .stop w from ht]
            exact governs_stop w
          split at hq
          · exact (hserial hgovt).2 q (List.mem_of_getElem? hq) hgov
          · have hlt := (List.getElem?_eq_some_iff.mp hq).1
            simp only [List.length_singleton] at hlt
            omega
      · intro p x hp ht hwiped
        rw [List.getElem?_append] at hp
        split at hp
        · exact h.absent p x hp ht hwiped
        · cases List.mem_singleton.mp (List.mem_of_getElem? hp)
          cases hwiped
  | call j o =>
      obtain ⟨q, cmd, k, r, s', hq, -, hprog, hex, rfl⟩ := Machine.step_call hs
      have hrun : ∀ {P : Prop}, Ended q → P := fun hend => absurd hprog (hend cmd k)
      have hpermits : cleaning.permits q.task (cleaning.phase q.task q.hist) cmd := by
        have hf := hfollows q (List.mem_of_getElem? hq)
        rw [hprog] at hf
        exact hf.1
      -- A trace is left only by a process that leaves it.
      have keeps : ∀ x, Absent w c.store.redis x →
          (marks cmd = some (w, x) → ¬ Leaves q.task w x (cleaning.phase q.task q.hist)) →
          Absent w s'.redis x := by
        intro x habsent hnot
        rcases (exec_cases hex).2 with ⟨-, -, -, rfl, -⟩ | ⟨-, ha⟩
        · exact habsent
        · rcases hpermits with hclean | ⟨w', x', hmarks, hleaves⟩
          · exact habsent.clean hclean ha
          · refine habsent.marked hmarks ?_ ha
            intro heq
            cases heq
            exact hnot hmarks hleaves
      constructor
      · intro p hp ht l p' hp' hli hgov
        have hgovp : governs w p.task := by
          rw [ht]
          exact governs_stop w
        have hbefore : ∃ p₀, c.pool[i]? = some p₀ ∧ p₀.task = .stop w := by
          rcases governs_before hp hgovp with ⟨rfl, rfl⟩ | ⟨-, hp⟩
          · exact ⟨q, hq, ht⟩
          · exact ⟨p, hp, ht⟩
        obtain ⟨p₀, hp₀, ht₀⟩ := hbefore
        rcases governs_before hp' hgov with ⟨rfl, rfl⟩ | ⟨-, hp'⟩
        · exact hrun (h.last p₀ hp₀ ht₀ l q hq hli hgov)
        · exact h.last p₀ hp₀ ht₀ l p' hp' hli hgov
      · intro p x hp ht hwiped
        have hgovp : governs w p.task := by
          rw [ht]
          exact governs_stop w
        rcases governs_before hp hgovp with ⟨rfl, rfl⟩ | ⟨hij, hp⟩
        · have htq : q.task = .stop w := ht
          change (decide (erases cmd = some (w, x)) && r.isOk || wiped w x q) = true at hwiped
          rcases Bool.or_eq_true _ _ |>.mp hwiped with hnow | hthen
          · rw [Bool.and_eq_true, decide_eq_true_eq] at hnow
            rcases (exec_cases hex).2 with ⟨err, -, -, -, rfl⟩ | ⟨-, ha⟩
            · cases hnow.2
            · exact absent_erased hnow.1 ha
          · refine keeps x (h.absent q x hq htq hthen) fun _ hleaves => ?_
            rw [htq] at hleaves
            rcases hleaves with hleaves | hleaves | ⟨-, hnot⟩
            · cases hleaves
            · cases hleaves
            · exact hnot ((mem_phase w x q.hist).mpr hthen)
        · refine keeps x (h.absent p x hp ht hwiped) fun hmarks hleaves => ?_
          have hgoverns : governs w q.task → False := fun hgov =>
            hrun (h.last p hp ht j q hq (Ne.symm hij) hgov)
          rcases hleaves with ht' | ht' | ⟨ht', -⟩
          · exact hgoverns (by rw [ht']; exact decide_eq_true rfl)
          · refine hok ⟨x, ?_, ?_, ?_⟩
            · simp [nextCmd, hq, hprog, hmarks]
            · simp [hq, ht', beating]
            · simpa [hp] using hwiped
          · exact hgoverns (by rw [ht']; exact governs_stop w)
  | halt j =>
      obtain ⟨q, hq, rfl⟩ := Machine.step_halt hs
      have hbefore : ∀ {l : ℕ} {p : Process},
          (c.pool.set j { q with halted := true })[l]? = some p → ∃ p₀,
            c.pool[l]? = some p₀ ∧ p₀.task = p.task ∧ p₀.hist = p.hist ∧ p₀.prog = p.prog := by
        intro l p hp
        rw [List.getElem?_set] at hp
        split at hp
        · rename_i hjl
          subst hjl
          split at hp
          · cases hp
            exact ⟨q, hq, rfl, rfl, rfl⟩
          · cases hp
        · exact ⟨p, hp, rfl, rfl, rfl⟩
      constructor
      · intro p hp ht l p' hp' hli hgov
        obtain ⟨p₀, hp₀, htask, -, -⟩ := hbefore hp
        obtain ⟨p₁, hp₁, htask₁, -, hprog⟩ := hbefore hp'
        rw [← htask] at ht
        rw [← htask₁] at hgov
        have hend := h.last p₀ hp₀ ht l p₁ hp₁ hli hgov
        unfold Ended at hend ⊢
        rwa [hprog] at hend
      · intro p x hp ht hwiped
        obtain ⟨p₀, hp₀, htask, hhist, -⟩ := hbefore hp
        rw [← htask] at ht
        unfold wiped at hwiped
        rw [← hhist] at hwiped
        exact h.absent p₀ x hp₀ ht hwiped
  | drift d =>
      obtain ⟨s, hd, rfl⟩ := Machine.step_drift hs
      have hredis : s.redis = c.store.redis := by
        cases d <;> cases hd <;> rfl
      refine ⟨h.last, fun p x hp ht hwiped => ?_⟩
      show Absent w s.redis x
      rw [hredis]
      exact h.absent p x hp ht hwiped

/-- Nothing runs at first. -/
theorem pool_of_blank (c : State) (h : Blank c) : c.pool = [] := by
  obtain ⟨now, room, rfl⟩ := h
  rfl

/-- **Run lemma.** -/
theorem erased_of_reach (hc : (machine env).Reach (Timely w i) Blank c) : Erased w i c := by
  induction hc with
  | init hi =>
      constructor
      · intro p hp
        rw [pool_of_blank _ hi] at hp
        cases hp
      · intro p x hp
        rw [pool_of_blank _ hi] at hp
        cases hp
  | step a hprev hok hs ih =>
      exact ih.step (hprev.follows (cleaning_follows env) pool_of_blank) hok hs

/-- What it means that a `stop` has returned. -/
theorem of_stopped {p : Process} (h : stopped w p = true) :
    p.task = .stop w ∧ ∃ a, p.prog = .ret a := by
  unfold stopped at h
  split at h
  · rename_i w' a ht hprog
    rw [ht, of_decide_eq_true h]
    exact ⟨rfl, a, hprog⟩
  · cases h

/-- **A stopped worker leaves no traces.**  In every run in which `start` and `stop` of a worker
are called one after the other and no heartbeat writes what the last `stop` has erased: when
this `stop` has returned, neither the registry entry nor the heartbeat key nor the metadata
hash of the worker exists. -/
theorem nothing_left (hc : (machine env).Reach (Timely w i) Blank c)
    (hstop : (c.pool[i]?).any (stopped w)) :
    w ∉ c.store.redis.sets redisKeys.workerRegistry ∧ ¬ c.store.beats w ∧
      c.store.redis.metas (redisKeys.workerMeta w) = {} := by
  obtain ⟨p, hp, hstop⟩ := (Option.any_eq_true _ _).mp hstop
  obtain ⟨ht, a, hret⟩ := of_stopped hstop
  have hend := hc.follows (cleaning_follows env) pool_of_blank p (List.mem_of_getElem? hp)
  rw [hret, ht] at hend
  have habsent : ∀ x, Absent w c.store.redis x := by
    intro x
    refine (erased_of_reach hc).absent p x hp ht ?_
    exact (mem_phase w x p.hist).mp (hend x)
  refine ⟨habsent .entry, fun hbeats => ?_, habsent .record⟩
  unfold World.beats Redis.get at hbeats
  rw [show c.store.redis.strings (redisKeys.heartbeat w) = none from habsent .beat] at hbeats
  cases hbeats

/-- The run up to the time when `stop` of the worker has left the registry. -/
def leaving : List Action :=
  [.start (.start "w1")] ++ goes 0 8 ++ [.start (.stop "w1")] ++ goes 2 3 ++ goes 1 2 ++ goes 2 2

/-- The theorem on a run in which a heartbeat is written while `stop` erases the traces: its
`SET` comes before the heartbeat key is deleted, its `HSET` before the hash is. -/
theorem nothing_left_heartbeat : ∃ c, (machine sample).Reach (Timely "w1" 2) Blank c ∧
    (∃ p ∈ c.pool, beating "w1" p.task ∧ Ended p) ∧
    "w1" ∉ c.store.redis.sets redisKeys.workerRegistry ∧ ¬ c.store.beats "w1" ∧
      c.store.redis.metas (redisKeys.workerMeta "w1") = {} := by
  obtain ⟨c, hc, ht⟩ := Machine.exists_reach (machine sample) (Timely "w1" 2) Blank blank_blank
    (leaving ++ [.start (.heartbeat "w1")] ++ goes 3 3 ++ goes 2 1 ++ goes 3 2 ++ goes 2 3)
    (fun c => decide ((∃ p ∈ c.pool, beating "w1" p.task ∧ Ended p) ∧
      (c.pool[2]?).any (stopped "w1")))
    (by decide +kernel)
  obtain ⟨hbeat, hstop⟩ := of_decide_eq_true ht
  exact ⟨c, hc, hbeat, nothing_left hc hstop⟩

/-- A heartbeat that fires while `stop` deletes the keys writes both of them again. -/
theorem traces_left : ∃ c, (machine sample).Reach (Serial "w1" 2) Blank c ∧
    (c.pool[2]?).any (stopped "w1") ∧
    (∀ p ∈ c.pool, beating "w1" p.task → Ended p) ∧ c.store.beats "w1" ∧
    c.store.redis.metas (redisKeys.workerMeta "w1") ≠ {} := by
  obtain ⟨c, hc, ht⟩ := Machine.exists_reach (machine sample) (Serial "w1" 2) Blank blank_blank
    (leaving ++ goes 2 1 ++ [.start (.heartbeat "w1")] ++ goes 3 2 ++ goes 2 1 ++ goes 3 1 ++
      goes 2 2 ++ goes 3 2)
    (fun c => decide ((c.pool[2]?).any (stopped "w1") ∧
      (∀ p ∈ c.pool, beating "w1" p.task → Ended p) ∧ c.store.beats "w1" ∧
      c.store.redis.metas (redisKeys.workerMeta "w1") ≠ {}))
    (by decide +kernel)
  exact ⟨c, hc, of_decide_eq_true ht⟩

end Run

end Traces

end NexusQueue
