/-
# Invariants of pools

How to prove that something holds in every reachable pool without looking at
the pool.  A `Discipline` over a protocol says what a process in a phase holds
(`val`), what its past events count for (`emit`), what it knows about the store
(`loc`), and which store invariant `inv` may be assumed, given the sum `g` of
everything held and counted by all processes.  The sum is split into the part of
the process that moves and the frame `F` of all others, so every obligation is
about one command:

* `Sound.call`: the command keeps `inv` and establishes what the process knows
  next, and what the tasks it starts know first;
* `Sound.stable`: the command leaves alone what any other process knows;
* `Sound.start`, `Sound.drift`: starting a task, moving the environment.

`Discipline.Sound.reach` concludes that `inv` and all local knowledge hold in
every reachable pool, and that every process still follows the protocol.
-/
import NexusQueue.Pool

variable {S T C : Type} {R : C → Type} {E A O D L G : Type} [AddCommMonoid G]

/-- What the processes of a pool hold, count and know, and the invariant of the
store. -/
structure Discipline (M : Machine S T C R E A O D) (P : Protocol T C R E L) (G : Type)
    [AddCommMonoid G] where
  good : T → Prop
  val : T → L → G
  emit : T → L → (c : C) → Except E (R c) → G
  loc : T → L → S → Prop
  inv : S → G → Prop
  allow : S → G → T → L → (c : C) → O → Prop
  post : T → Except E A → L → Prop

namespace Discipline

variable {M : Machine S T C R E A O D} {P : Protocol T C R E L}

/-- What one process holds now and has counted so far. -/
def gauge (Δ : Discipline M P G) (p : Proc T C R E A) : G :=
  Δ.val p.task (P.phase p.task p.hist) + P.tally Δ.emit p.task p.hist

/-- What all processes of a pool hold and have counted. -/
def total (Δ : Discipline M P G) (pool : List (Proc T C R E A)) : G :=
  (pool.map Δ.gauge).sum

/-- What the tasks in a list hold at their start. -/
def starts (Δ : Discipline M P G) (ts : List T) : G :=
  (ts.map fun t => Δ.val t (P.start t)).sum

/-- One process knows what it should and follows the protocol. -/
def ProcOk (Δ : Discipline M P G) (s : S) (p : Proc T C R E A) : Prop :=
  Δ.good p.task ∧ Δ.loc p.task (P.phase p.task p.hist) s ∧
    Follows P p.task (P.phase p.task p.hist) p.prog (Δ.post p.task)

/-- The invariant of a whole pool. -/
def PoolOk (Δ : Discipline M P G) (c : Config S T C R E A) : Prop :=
  Δ.inv c.store (Δ.total c.pool) ∧ ∀ p ∈ c.pool, Δ.ProcOk c.store p

/-- The situation of a command about to be executed: `l` is the phase of the
process, `F` what it has counted together with everything of the others. -/
structure Fires (Δ : Discipline M P G) (s : S) (t : T) (l : L) (c : C) (o : O)
    (r : Except E (R c)) (s' : S) (F : G) : Prop where
  good : Δ.good t
  inv : Δ.inv s (Δ.val t l + F)
  loc : Δ.loc t l s
  permits : P.permits t l c
  allow : Δ.allow s (Δ.val t l + F) t l c o
  exec : M.exec s t c o = some (r, s')

/-- The obligations of a discipline. -/
structure Sound (Δ : Discipline M P G) (ok : Config S T C R E A → Choice T O D → Prop) :
    Prop where
  follows : ∀ t, Δ.good t → Follows P t (P.start t) (M.body t) (Δ.post t)
  call : ∀ s t l c o r s' F, Δ.Fires s t l c o r s' F →
    Δ.inv s' (Δ.val t (P.next t l c r) + (Δ.emit t l c r + Δ.starts (M.forks t c r) + F)) ∧
      Δ.loc t (P.next t l c r) s' ∧
      ∀ t' ∈ M.forks t c r, Δ.good t' ∧ Δ.loc t' (P.start t') s'
  stable : ∀ s t l c o r s' F, Δ.Fires s t l c o r s' F →
    ∀ t₂ l₂ F₂, F = Δ.val t₂ l₂ + F₂ → Δ.good t₂ → Δ.loc t₂ l₂ s → Δ.loc t₂ l₂ s'
  start : ∀ c t, ok c (.start t) → Δ.PoolOk c →
    Δ.good t ∧ Δ.inv c.store (Δ.val t (P.start t) + Δ.total c.pool) ∧
      Δ.loc t (P.start t) c.store
  allows : ∀ c i o p cmd k, ok c (.call i o) → Δ.PoolOk c → c.pool[i]? = some p →
    p.prog = .call cmd k →
    Δ.allow c.store (Δ.total c.pool) p.task (P.phase p.task p.hist) cmd o
  drift : ∀ c d s', ok c (.drift d) → Δ.PoolOk c → M.drift c.store d = some s' →
    Δ.inv s' (Δ.total c.pool) ∧
      ∀ t l, Δ.good t → Δ.loc t l c.store → Δ.loc t l s'

/-- A process that has not done anything holds what its task starts with. -/
theorem gauge_spawn (Δ : Discipline M P G) (t : T) :
    Δ.gauge (M.spawn t) = Δ.val t (P.start t) := by
  simp [gauge, Machine.spawn, Protocol.tally]

/-- Tasks that start with nothing add nothing. -/
theorem starts_eq_zero (Δ : Discipline M P G) (ts : List T)
    (h : ∀ t ∈ ts, Δ.val t (P.start t) = 0) : Δ.starts ts = 0 := by
  induction ts with
  | nil => rfl
  | cons t ts ih =>
      rw [starts, List.map_cons, List.sum_cons, h t (List.mem_cons_self ..), zero_add]
      exact ih fun t' ht' => h t' (List.mem_cons_of_mem _ ht')

/-- Newly started tasks add what they start with. -/
theorem total_spawn (Δ : Discipline M P G) (ts : List T) :
    Δ.total (ts.map M.spawn) = Δ.starts ts := by
  rw [total, starts, List.map_map]
  exact congrArg List.sum (List.map_congr_left fun t _ => Δ.gauge_spawn t)

theorem total_append (Δ : Discipline M P G) (l₁ l₂ : List (Proc T C R E A)) :
    Δ.total (l₁ ++ l₂) = Δ.total l₁ + Δ.total l₂ := by
  simp [total]

/-- Answering a command moves the phase and adds to the count. -/
theorem gauge_resume (Δ : Discipline M P G) (p : Proc T C R E A) (c : C)
    (r : Except E (R c)) (q : Prog C R E A) :
    Δ.gauge (p.resume c r q) =
      Δ.val p.task (P.next p.task (P.phase p.task p.hist) c r) +
        (Δ.emit p.task (P.phase p.task p.hist) c r + P.tally Δ.emit p.task p.hist) := rfl

/-- A freshly started process is in order when its task is. -/
theorem procOk_spawn {Δ : Discipline M P G} {s : S} {t : T} (hg : Δ.good t)
    (hl : Δ.loc t (P.start t) s)
    (hf : Follows P t (P.start t) (M.body t) (Δ.post t)) : Δ.ProcOk s (M.spawn t) :=
  ⟨hg, hl, hf⟩

namespace Sound

variable {Δ : Discipline M P G} {ok : Config S T C R E A → Choice T O D → Prop}

/-- **Step lemma, commands.** -/
theorem step_call (h : Δ.Sound ok) {c c' : Config S T C R E A} {i : ℕ} {o : O}
    (hc : Δ.PoolOk c) (hok : ok c (.call i o)) (hs : M.step c (.call i o) = some c') :
    Δ.PoolOk c' := by
  obtain ⟨p, cmd, k, r, s', hp, -, hprog, hex, rfl⟩ := Machine.step_call hs
  have hpm : p ∈ c.pool := List.mem_of_getElem? hp
  obtain ⟨hgood, hloc, hfol⟩ := hc.2 p hpm
  rw [hprog] at hfol
  set l := P.phase p.task p.hist with hl
  set tal := P.tally Δ.emit p.task p.hist with htal
  -- F is what all other processes hold, tal what this one has emitted so far
  obtain ⟨F, hF, hset, hrest⟩ := exists_sum_set Δ.gauge hp
  have hgauge : Δ.gauge p = Δ.val p.task l + tal := rfl
  have htotal : Δ.total c.pool = Δ.val p.task l + (tal + F) := by
    rw [total, hF, hgauge, add_assoc]
  have hinv := hc.1
  rw [htotal] at hinv
  have hallow := h.allows c i o p cmd k hok hc hp hprog
  rw [htotal] at hallow
  have hfires : Δ.Fires c.store p.task l cmd o r s' (tal + F) :=
    ⟨hgood, hinv, hloc, hfol.1, hallow, hex⟩
  obtain ⟨hinv', hloc', hforks⟩ := h.call _ _ _ _ _ _ _ _ hfires
  refine ⟨?_, ?_⟩
  · have hnew : Δ.total ((c.pool.set i (p.resume cmd r (k r))) ++
        (M.forks p.task cmd r).map M.spawn) =
        Δ.val p.task (P.next p.task l cmd r) +
          (Δ.emit p.task l cmd r + Δ.starts (M.forks p.task cmd r) + (tal + F)) := by
      rw [total_append, total_spawn, total, hset, gauge_resume, ← hl, ← htal]
      abel
    simpa [hnew] using hinv'
  · intro q hq
    rcases List.mem_append.mp hq with hq | hq
    · obtain ⟨j, hj⟩ := List.mem_iff_getElem?.mp hq
      -- the process itself, then the others, whose facts are stable
      by_cases hij : i = j
      · subst hij
        have hi : i < c.pool.length := by
          by_contra hlt
          rw [List.getElem?_eq_none (by omega)] at hp
          cases hp
        rw [List.getElem?_set_self hi] at hj
        cases hj
        exact ⟨hgood, hloc', hfol.2 r⟩
      · rw [List.getElem?_set_ne hij] at hj
        obtain ⟨F₂, hF₂⟩ := hrest j q hij hj
        obtain ⟨hg₂, hl₂, hf₂⟩ := hc.2 q (List.mem_of_getElem? hj)
        refine ⟨hg₂, h.stable _ _ _ _ _ _ _ _ hfires q.task _
          (tal + (P.tally Δ.emit q.task q.hist + F₂)) ?_ hg₂ hl₂, hf₂⟩
        rw [hF₂, gauge]
        abel
    · obtain ⟨t', ht', rfl⟩ := List.mem_map.mp hq
      obtain ⟨hg', hl'⟩ := hforks t' ht'
      exact procOk_spawn hg' hl' (h.follows t' hg')

/-- **Step lemma, all choices.** -/
theorem step (h : Δ.Sound ok) {c c' : Config S T C R E A} {ch : Choice T O D}
    (hc : Δ.PoolOk c) (hok : ok c ch) (hs : M.step c ch = some c') : Δ.PoolOk c' := by
  cases ch with
  | start t =>
      cases hs
      obtain ⟨hg, hi, hl⟩ := h.start c t hok hc
      refine ⟨?_, fun p hp => ?_⟩
      · have hsum : Δ.total (c.pool ++ [M.spawn t]) = Δ.val t (P.start t) + Δ.total c.pool := by
          rw [total_append, add_comm]
          simp [total, gauge_spawn]
        simpa [hsum] using hi
      · rcases List.mem_append.mp hp with hp | hp
        · exact hc.2 p hp
        · rw [List.mem_singleton] at hp
          subst hp
          exact procOk_spawn hg hl (h.follows t hg)
  | call i o => exact h.step_call hc hok hs
  | halt i =>
      obtain ⟨p, hp, rfl⟩ := Machine.step_halt hs
      obtain ⟨F, hF, hset, -⟩ := exists_sum_set Δ.gauge hp
      have htotal : Δ.total (c.pool.set i { p with halted := true }) = Δ.total c.pool := by
        rw [total, total, hset, hF]
        rfl
      refine ⟨by simpa only [htotal] using hc.1, fun q hq => ?_⟩
      rcases List.mem_or_eq_of_mem_set hq with hq | rfl
      · exact hc.2 q hq
      · exact hc.2 p (List.mem_of_getElem? hp)
  | drift d =>
      obtain ⟨s, hs', rfl⟩ := Machine.step_drift hs
      obtain ⟨hi, hl⟩ := h.drift c d s hok hc hs'
      exact ⟨hi, fun p hp => ⟨(hc.2 p hp).1, hl _ _ (hc.2 p hp).1 (hc.2 p hp).2.1,
        (hc.2 p hp).2.2⟩⟩

/-- **Run lemma.**  A sound discipline holds in every reachable pool. -/
theorem reach (h : Δ.Sound ok) {init : Config S T C R E A → Prop}
    (hinit : ∀ c, init c → Δ.PoolOk c) {c : Config S T C R E A}
    (hc : M.Reach ok init c) : Δ.PoolOk c := by
  induction hc with
  | init hi => exact hinit _ hi
  | step ch _ hok hs ih => exact h.step ih hok hs

end Sound

end Discipline
