/-
# Pools of programs over a shared store

A pool is any number of processes, each running the program of its task.  One
step starts a process, executes the next command of one process, halts one
process for good, or moves the environment.  Commands are atomic; between two
commands of a process every other process may run.  A command is executed by a
partial function of the store and an oracle that resolves what the store leaves
open.

Every process keeps its history, newest event first.

* `Machine.step`, `Machine.Reach` and `Machine.walk`: steps, reachable pools, and
  runs given by their choices, which can be evaluated;
* `Protocol.phase` and `Protocol.tally`: the phase of a process and the sum of
  what its events count for, read off its history; every process is in the phase
  it has been led to (`Machine.Reach.follows`);
* `exists_sum_set`: a sum over the pool, split at the process that moves.
-/
import NexusQueue.Prog

/-- A command of a process together with its answer. -/
structure Event (C : Type) (R : C → Type) (E : Type) where
  cmd : C
  answer : Except E (R cmd)

/-- A process: its task, what it has done, newest first, and what it still has
to do.  A halted process takes no further step. -/
structure Proc (T C : Type) (R : C → Type) (E A : Type) where
  task : T
  hist : List (Event C R E) := []
  prog : Prog C R E A
  halted : Bool := false

/-- The process after the answer `r` to its command `c`, with `q` left to do. -/
def Proc.resume {T C : Type} {R : C → Type} {E A : Type} (p : Proc T C R E A) (c : C)
    (r : Except E (R c)) (q : Prog C R E A) : Proc T C R E A :=
  { p with hist := ⟨c, r⟩ :: p.hist, prog := q }

/-- A pool of processes over a store. -/
structure Config (S T C : Type) (R : C → Type) (E A : Type) where
  store : S
  pool : List (Proc T C R E A)

/-- What happens next: a process is started, the `i`-th process executes its
next command, the `i`-th process halts, or the environment moves. -/
inductive Choice (T O D : Type) where
  | start (t : T)
  | call (i : ℕ) (o : O)
  | halt (i : ℕ)
  | drift (d : D)

/-- The program of each task, the meaning of each command, the tasks a command
starts, and the moves of the environment. -/
structure Machine (S T C : Type) (R : C → Type) (E A O D : Type) where
  body : T → Prog C R E A
  exec : S → T → (c : C) → O → Option (Except E (R c) × S)
  forks : T → (c : C) → Except E (R c) → List T
  drift : S → D → Option S

namespace Machine

variable {S T C : Type} {R : C → Type} {E A O D : Type}
variable (M : Machine S T C R E A O D)

/-- A process that has not done anything yet. -/
def spawn (t : T) : Proc T C R E A := { task := t, prog := M.body t }

/-- One step of a pool; `none` when the choice is not possible. -/
def step (c : Config S T C R E A) : Choice T O D → Option (Config S T C R E A)
  | .start t => some { c with pool := c.pool ++ [M.spawn t] }
  | .call i o =>
      match c.pool[i]? with
      | none => none
      | some p =>
          if p.halted then none
          else match p.prog with
            | .call cmd k =>
                (M.exec c.store p.task cmd o).map fun rs =>
                  { store := rs.2
                    pool := c.pool.set i (p.resume cmd rs.1 (k rs.1)) ++
                      (M.forks p.task cmd rs.1).map M.spawn }
            | _ => none
  | .halt i =>
      match c.pool[i]? with
      | none => none
      | some p => some { c with pool := c.pool.set i { p with halted := true } }
  | .drift d => (M.drift c.store d).map fun s => { c with store := s }

/-- The pools reachable from an initial one by permitted choices. -/
inductive Reach (ok : Config S T C R E A → Choice T O D → Prop)
    (init : Config S T C R E A → Prop) : Config S T C R E A → Prop
  | init {c} : init c → Reach ok init c
  | step {c c'} (ch) : Reach ok init c → ok c ch → M.step c ch = some c' → Reach ok init c'

variable {M}

/-- What a successful `call` step consists of. -/
theorem step_call {c c' : Config S T C R E A} {i : ℕ} {o : O}
    (h : M.step c (.call i o) = some c') :
    ∃ p cmd k r s, c.pool[i]? = some p ∧ p.halted = false ∧ p.prog = .call cmd k ∧
      M.exec c.store p.task cmd o = some (r, s) ∧
      c' = { store := s
             pool := c.pool.set i (p.resume cmd r (k r)) ++
               (M.forks p.task cmd r).map M.spawn } := by
  simp only [step] at h
  cases hp : c.pool[i]? with
  | none => simp [hp] at h
  | some p =>
      simp only [hp] at h
      split at h
      · cases h
      · rename_i hhalt
        cases hprog : p.prog with
        | ret a => simp [hprog] at h
        | raise e => simp [hprog] at h
        | call cmd k =>
            simp only [hprog, Option.map_eq_some_iff] at h
            obtain ⟨⟨r, s⟩, hex, rfl⟩ := h
            exact ⟨p, cmd, k, r, s, rfl, by simpa using hhalt, hprog, hex, rfl⟩

/-- What a successful `halt` step consists of. -/
theorem step_halt {c c' : Config S T C R E A} {i : ℕ}
    (h : M.step c (.halt i) = some c') :
    ∃ p, c.pool[i]? = some p ∧
      c' = { c with pool := c.pool.set i { p with halted := true } } := by
  simp only [step] at h
  cases hp : c.pool[i]? with
  | none => simp [hp] at h
  | some p => exact ⟨p, rfl, by simpa [hp] using h.symm⟩

/-- What a successful `drift` step consists of. -/
theorem step_drift {c c' : Config S T C R E A} {d : D}
    (h : M.step c (.drift d) = some c') :
    ∃ s, M.drift c.store d = some s ∧ c' = { c with store := s } := by
  simp only [step, Option.map_eq_some_iff] at h
  obtain ⟨s, hs, rfl⟩ := h
  exact ⟨s, hs, rfl⟩

/-- Reachability under a weaker policy and from more initial pools. -/
theorem Reach.mono {ok ok' : Config S T C R E A → Choice T O D → Prop}
    {init init' : Config S T C R E A → Prop} {c : Config S T C R E A} (hc : M.Reach ok init c)
    (hok : ∀ c ch, ok c ch → ok' c ch) (hinit : ∀ c, init c → init' c) :
    M.Reach ok' init' c := by
  induction hc with
  | init hi => exact .init (hinit _ hi)
  | step ch _ h hs ih => exact .step ch ih (hok _ _ h) hs

/-- An invariant that is already known may be assumed of every pool in which a
choice is made. -/
theorem Reach.with_invariant {ok : Config S T C R E A → Choice T O D → Prop}
    {init I : Config S T C R E A → Prop} {c : Config S T C R E A}
    (hI : ∀ c, M.Reach ok init c → I c) (hc : M.Reach ok init c) :
    M.Reach (fun c ch => ok c ch ∧ I c) init c := by
  induction hc with
  | init hi => exact .init hi
  | step ch hprev h hs ih => exact .step ch ih ⟨h, hI _ hprev⟩ hs

/-- What is true of every task that is started, from outside or by a command, is true of all
tasks of a pool. -/
theorem Reach.tasks {ok : Config S T C R E A → Choice T O D → Prop}
    {init : Config S T C R E A → Prop} {Q : T → Prop} (hinit : ∀ c, init c → c.pool = [])
    (hstart : ∀ c t, ok c (.start t) → Q t) (hforks : ∀ t cmd r, ∀ t' ∈ M.forks t cmd r, Q t')
    {c : Config S T C R E A} (hc : M.Reach ok init c) : ∀ p ∈ c.pool, Q p.task := by
  induction hc with
  | init hi =>
      rw [hinit _ hi]
      intro p hp
      cases hp
  | step ch _ hch hs ih =>
      cases ch with
      | start t =>
          cases hs
          intro p hp
          rcases List.mem_append.mp hp with hp | hp
          · exact ih p hp
          · cases List.mem_singleton.mp hp
            exact hstart _ t hch
      | call i o =>
          obtain ⟨q, cmd, k, r, s, hq, -, -, -, rfl⟩ := step_call hs
          intro p hp
          rcases List.mem_append.mp hp with hp | hp
          · rcases List.mem_or_eq_of_mem_set hp with hp | rfl
            · exact ih p hp
            · exact ih q (List.mem_of_getElem? hq)
          · obtain ⟨t, ht, rfl⟩ := List.mem_map.mp hp
            exact hforks _ _ _ t ht
      | halt i =>
          obtain ⟨q, hq, rfl⟩ := step_halt hs
          intro p hp
          rcases List.mem_or_eq_of_mem_set hp with hp | rfl
          · exact ih p hp
          · exact ih q (List.mem_of_getElem? hq)
      | drift d =>
          obtain ⟨s, -, rfl⟩ := step_drift hs
          exact ih

/-- A process is halted at most once, and then it stays as it is: what is true of
every process that may be halted is true of all halted ones. -/
theorem Reach.halted {ok : Config S T C R E A → Choice T O D → Prop}
    {init : Config S T C R E A → Prop} {Q : T → List (Event C R E) → Prop}
    (hinit : ∀ c, init c → c.pool = [])
    (hok : ∀ c i p, ok c (.halt i) → c.pool[i]? = some p → Q p.task p.hist)
    {c : Config S T C R E A} (hc : M.Reach ok init c) :
    ∀ p ∈ c.pool, p.halted = true → Q p.task p.hist := by
  induction hc with
  | init hi =>
      rw [hinit _ hi]
      intro p hp
      cases hp
  | step ch hprev hch hs ih =>
      cases ch with
      | start t =>
          cases hs
          intro p hp hhalt
          rcases List.mem_append.mp hp with hp | hp
          · exact ih p hp hhalt
          · cases List.mem_singleton.mp hp
            cases hhalt
      | call i o =>
          obtain ⟨q, cmd, k, r, s, hq, hrun, -, -, rfl⟩ := step_call hs
          intro p hp hhalt
          rcases List.mem_append.mp hp with hp | hp
          · rcases List.mem_or_eq_of_mem_set hp with hp | rfl
            · exact ih p hp hhalt
            · rw [Proc.resume, hrun] at hhalt
              cases hhalt
          · obtain ⟨t, -, rfl⟩ := List.mem_map.mp hp
            cases hhalt
      | halt i =>
          obtain ⟨q, hq, rfl⟩ := step_halt hs
          intro p hp hhalt
          rcases List.mem_or_eq_of_mem_set hp with hp | rfl
          · exact ih p hp hhalt
          · exact hok _ _ q hch hq
      | drift d =>
          obtain ⟨s, -, rfl⟩ := step_drift hs
          exact ih

/-- What holds of every task at its start, and is kept by each command the `i`-th
process executes, holds of the `i`-th process. -/
theorem Reach.proc {ok : Config S T C R E A → Choice T O D → Prop}
    {init : Config S T C R E A → Prop} {Q : T → List (Event C R E) → Prop} {i : ℕ}
    (hinit : ∀ c, init c → c.pool = []) (hstart : ∀ t, Q t [])
    (hcall : ∀ c o p cmd k r s, M.Reach ok init c → ok c (.call i o) → c.pool[i]? = some p →
      p.prog = .call cmd k → M.exec c.store p.task cmd o = some (r, s) → Q p.task p.hist →
      Q p.task (⟨cmd, r⟩ :: p.hist))
    {c : Config S T C R E A} (hc : M.Reach ok init c) :
    ∀ p, c.pool[i]? = some p → Q p.task p.hist := by
  induction hc with
  | init hi =>
      rw [hinit _ hi]
      intro p hp
      cases hp
  | @step c c' ch hprev hch hs ih =>
      -- the processes that a step starts come after the others and have no history
      have spawned : ∀ {l : List (Proc T C R E A)} {ts : List T},
          (∀ p, l[i]? = some p → Q p.task p.hist) →
          ∀ p, (l ++ ts.map M.spawn)[i]? = some p → Q p.task p.hist := by
        intro l ts hl p hp
        rw [List.getElem?_append] at hp
        split at hp
        · exact hl p hp
        · obtain ⟨t, -, rfl⟩ := List.mem_map.mp (List.mem_of_getElem? hp)
          exact hstart t
      cases ch with
      | start t =>
          cases hs
          exact @spawned _ [t] ih
      | call j o =>
          obtain ⟨q, cmd, k, r, s, hq, -, hprog, hex, rfl⟩ := step_call hs
          refine spawned fun p hp => ?_
          rw [List.getElem?_set] at hp
          split at hp
          · rename_i hji
            subst hji
            split at hp
            · cases hp
              exact hcall c o q cmd k r s hprev hch hq hprog hex (ih q hq)
            · cases hp
          · exact ih p hp
      | halt j =>
          obtain ⟨q, hq, rfl⟩ := step_halt hs
          intro p hp
          rw [List.getElem?_set] at hp
          split at hp
          · rename_i hji
            subst hji
            split at hp
            · cases hp
              exact ih q hq
            · cases hp
          · exact ih p hp
      | drift d =>
          obtain ⟨s, -, rfl⟩ := step_drift hs
          exact ih

/-- What holds of a command and its answer as soon as it has been executed, and is kept by
every step, holds of everything that has happened. -/
theorem Reach.events {ok : Config S T C R E A → Choice T O D → Prop}
    {init : Config S T C R E A → Prop} {Q : S → T → Event C R E → Prop}
    (hinit : ∀ c, init c → c.pool = [])
    (hstep : ∀ c ch c', M.Reach ok init c → ok c ch → M.step c ch = some c' →
      ∀ t e, Q c.store t e → Q c'.store t e)
    (hcall : ∀ c i o p cmd k r s, M.Reach ok init c → ok c (.call i o) → c.pool[i]? = some p →
      p.prog = .call cmd k → M.exec c.store p.task cmd o = some (r, s) → Q s p.task ⟨cmd, r⟩)
    {c : Config S T C R E A} (hc : M.Reach ok init c) :
    ∀ p ∈ c.pool, ∀ e ∈ p.hist, Q c.store p.task e := by
  induction hc with
  | init hi =>
      rw [hinit _ hi]
      intro p hp
      cases hp
  | @step c c' ch hprev hch hs ih =>
      -- the step changes the store at most; what held of old events still holds
      have old : ∀ p ∈ c.pool, ∀ e ∈ p.hist, Q c'.store p.task e :=
        fun p hp e he => hstep c ch c' hprev hch hs _ _ (ih p hp e he)
      cases ch with
      | start t =>
          cases hs
          intro p hp
          rcases List.mem_append.mp hp with hp | hp
          · exact old p hp
          · cases List.mem_singleton.mp hp
            intro e he
            cases he
      | call i o =>
          obtain ⟨q, cmd, k, r, s, hq, -, hprog, hex, rfl⟩ := step_call hs
          intro p hp
          rcases List.mem_append.mp hp with hp | hp
          · rcases List.mem_or_eq_of_mem_set hp with hp | rfl
            · exact old p hp
            · intro e he
              rcases List.mem_cons.mp he with rfl | he
              · exact hcall c i o q cmd k r s hprev hch hq hprog hex
              · exact old q (List.mem_of_getElem? hq) e he
          · obtain ⟨t, -, rfl⟩ := List.mem_map.mp hp
            intro e he
            cases he
      | halt i =>
          obtain ⟨q, hq, rfl⟩ := step_halt hs
          intro p hp
          rcases List.mem_or_eq_of_mem_set hp with hp | rfl
          · exact old p hp
          · exact old q (List.mem_of_getElem? hq)
      | drift d =>
          obtain ⟨s, -, rfl⟩ := step_drift hs
          exact old

/-- What a task starts without, and what no command of a process adds to, does not grow. -/
theorem step_le {μ : Proc T C R E A → ℕ} {c c' : Config S T C R E A} {ch : Choice T O D}
    (hs : M.step c ch = some c') (hspawn : ∀ t, μ (M.spawn t) = 0)
    (hhalt : ∀ p, μ { p with halted := true } ≤ μ p)
    (hcall : ∀ i o p cmd k r s, ch = .call i o → c.pool[i]? = some p → p.halted = false →
      p.prog = .call cmd k → M.exec c.store p.task cmd o = some (r, s) →
      μ (p.resume cmd r (k r)) ≤ μ p) (i : ℕ) :
    (c'.pool[i]?).elim 0 μ ≤ (c.pool[i]?).elim 0 μ := by
  have spawned : ∀ (l : List (Proc T C R E A)) (ts : List T),
      ((l ++ ts.map M.spawn)[i]?).elim 0 μ ≤ (l[i]?).elim 0 μ := by
    intro l ts
    rw [List.getElem?_append]
    split
    · exact le_rfl
    · rw [List.getElem?_map]
      cases ts[i - l.length]? with
      | none => exact Nat.zero_le _
      | some t =>
          show μ (M.spawn t) ≤ _
          rw [hspawn]
          exact Nat.zero_le _
  -- one process is replaced by one that counts no more
  have replaced : ∀ (j : ℕ) (p q : Proc T C R E A), c.pool[j]? = some p → μ q ≤ μ p →
      ((c.pool.set j q)[i]?).elim 0 μ ≤ (c.pool[i]?).elim 0 μ := by
    intro j p q hp hle
    rw [List.getElem?_set]
    split
    · rename_i hji
      subst hji
      split
      · rw [hp]
        exact hle
      · exact Nat.zero_le _
    · exact le_rfl
  cases ch with
  | start t =>
      cases hs
      exact spawned c.pool [t]
  | call j o =>
      obtain ⟨p, cmd, k, r, s, hp, hrun, hprog, hex, rfl⟩ := step_call hs
      exact (spawned _ _).trans
        (replaced j p _ hp (hcall j o p cmd k r s rfl hp hrun hprog hex))
  | halt j =>
      obtain ⟨p, hp, rfl⟩ := step_halt hs
      exact replaced j p _ hp (hhalt p)
  | drift d =>
      obtain ⟨s, -, rfl⟩ := step_drift hs
      exact le_rfl

/-! ## Runs that can be evaluated -/

section Walk

variable (M)
variable (ok : Config S T C R E A → Choice T O D → Prop) [∀ c ch, Decidable (ok c ch)]

/-- The pool a list of choices leads to, each of them possible and permitted. -/
def walk (c : Config S T C R E A) : List (Choice T O D) → Option (Config S T C R E A)
  | [] => some c
  | ch :: chs => if ok c ch then (M.step c ch).bind fun c' => walk c' chs else none

variable {M ok}

/-- A permitted run stays reachable. -/
theorem Reach.walk {init : Config S T C R E A → Prop} {chs : List (Choice T O D)}
    {c c' : Config S T C R E A} (hc : M.Reach ok init c) (h : M.walk ok c chs = some c') :
    M.Reach ok init c' := by
  induction chs generalizing c with
  | nil =>
      cases h
      exact hc
  | cons ch chs ih =>
      simp only [Machine.walk, Option.ite_none_right_eq_some, Option.bind_eq_some_iff] at h
      obtain ⟨hok, c₁, h₁, h₂⟩ := h
      exact ih (.step ch hc hok h₁) h₂

/-- What a run was checked to lead to, some reachable pool has. -/
theorem exists_reach (M : Machine S T C R E A O D)
    (ok : Config S T C R E A → Choice T O D → Prop) [∀ c ch, Decidable (ok c ch)]
    (init : Config S T C R E A → Prop) {c : Config S T C R E A} (hc : init c) (chs : List (Choice T O D)) (test : Config S T C R E A → Bool)
    (h : (M.walk ok c chs).any test = true) :
    ∃ c', M.Reach ok init c' ∧ test c' = true := by
  obtain ⟨c', hc', htest⟩ := (Option.any_eq_true _ _).mp h
  exact ⟨c', (Reach.init hc).walk hc', htest⟩

end Walk

end Machine

/-! ## Phases and tallies of a process -/

section Phase

variable {S T C : Type} {R : C → Type} {E A O D L G : Type}

/-- The phase a history leads to. -/
def Protocol.phase (P : Protocol T C R E L) (t : T) : List (Event C R E) → L
  | [] => P.start t
  | e :: h => P.next t (P.phase t h) e.cmd e.answer

@[simp] theorem Protocol.phase_nil (P : Protocol T C R E L) (t : T) :
    P.phase t [] = P.start t := rfl

@[simp] theorem Protocol.phase_cons (P : Protocol T C R E L) (t : T) (e : Event C R E)
    (h : List (Event C R E)) :
    P.phase t (e :: h) = P.next t (P.phase t h) e.cmd e.answer := rfl

/-- The sum of what the events of a history count for, each one judged in the
phase it happened in. -/
def Protocol.tally (P : Protocol T C R E L) [AddCommMonoid G]
    (emit : T → L → (c : C) → Except E (R c) → G) (t : T) : List (Event C R E) → G
  | [] => 0
  | e :: h => emit t (P.phase t h) e.cmd e.answer + P.tally emit t h

/-- Every process of a reachable pool follows the protocol that the programs of all tasks
follow. -/
theorem Machine.Reach.follows {M : Machine S T C R E A O D} {P : Protocol T C R E L}
    {ok : Config S T C R E A → Choice T O D → Prop} {init : Config S T C R E A → Prop}
    {post : T → Except E A → L → Prop} {c : Config S T C R E A} (hc : M.Reach ok init c)
    (hbody : ∀ t, Follows P t (P.start t) (M.body t) (post t))
    (hinit : ∀ c, init c → c.pool = []) :
    ∀ p ∈ c.pool, Follows P p.task (P.phase p.task p.hist) p.prog (post p.task) := by
  induction hc with
  | init hi =>
      rw [hinit _ hi]
      intro p hp
      cases hp
  | step ch _ _ hs ih =>
      cases ch with
      | start t =>
          cases hs
          intro p hp
          rcases List.mem_append.mp hp with hp | hp
          · exact ih p hp
          · cases List.mem_singleton.mp hp
            exact hbody t
      | call i o =>
          obtain ⟨q, cmd, k, r, s, hq, -, hprog, -, rfl⟩ := step_call hs
          intro p hp
          rcases List.mem_append.mp hp with hp | hp
          · rcases List.mem_or_eq_of_mem_set hp with hp | rfl
            · exact ih p hp
            · have hfollows := ih q (List.mem_of_getElem? hq)
              rw [hprog] at hfollows
              exact hfollows.2 r
          · obtain ⟨t, -, rfl⟩ := List.mem_map.mp hp
            exact hbody t
      | halt i =>
          obtain ⟨q, hq, rfl⟩ := step_halt hs
          intro p hp
          rcases List.mem_or_eq_of_mem_set hp with hp | rfl
          · exact ih p hp
          · exact ih q (List.mem_of_getElem? hq)
      | drift d =>
          obtain ⟨s, -, rfl⟩ := step_drift hs
          exact ih

end Phase

/-! ## Sums over a pool -/

section Sums

variable {α G : Type} [AddCommMonoid G]

/-- An element of a list contributes to its sum. -/
theorem exists_sum_mem (f : α → G) {l : List α} {j : ℕ} {b : α} (h : l[j]? = some b) :
    ∃ F, (l.map f).sum = f b + F := by
  obtain ⟨l₁, l₂, rfl⟩ := List.append_of_mem (List.mem_of_getElem? h)
  exact ⟨(l₁.map f).sum + (l₂.map f).sum, by simp [add_left_comm]⟩

/-- Splitting a sum at one position: that position can be replaced, and every
other position contributes to the rest. -/
theorem exists_sum_set (f : α → G) {l : List α} {i : ℕ} {a : α} (h : l[i]? = some a) :
    ∃ F, (l.map f).sum = f a + F ∧ (∀ b, ((l.set i b).map f).sum = f b + F) ∧
      ∀ j b, i ≠ j → l[j]? = some b → ∃ F₂, F = f b + F₂ := by
  induction l generalizing i with
  | nil => simp at h
  | cons x l ih =>
      cases i with
      | zero =>
          simp only [List.getElem?_cons_zero, Option.some.injEq] at h
          subst h
          refine ⟨(l.map f).sum, by simp, fun b => by simp, fun j b hj hb => ?_⟩
          obtain ⟨k, rfl⟩ : ∃ k, j = k + 1 := ⟨j - 1, by omega⟩
          exact exists_sum_mem f (by simpa using hb)
      | succ i =>
          obtain ⟨F, hF, hset, hrest⟩ := ih (i := i) (by simpa using h)
          refine ⟨f x + F, ?_, fun b => ?_, fun j b hj hb => ?_⟩
          · rw [List.map_cons, List.sum_cons, hF, add_left_comm]
          · rw [List.set_cons_succ, List.map_cons, List.sum_cons, hset, add_left_comm]
          · cases j with
            | zero =>
                simp only [List.getElem?_cons_zero, Option.some.injEq] at hb
                exact ⟨F, by rw [hb]⟩
            | succ j =>
                obtain ⟨F₂, hF₂⟩ := hrest j b (by omega) (by simpa using hb)
                exact ⟨f x + F₂, by rw [hF₂, add_left_comm]⟩

end Sums
