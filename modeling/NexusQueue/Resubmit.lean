/-
# Enqueueing again with an idempotency key

A call of `enqueue` that no store rejects does not throw, as long as its `INSERT`
finds no row with the same idempotency key: the key in Redis may have expired or may
never have been written, all other calls may fail anywhere.  The id it returns names a
job that has a row and a hash.

The row is refused in one case only: some row carries the key and the lookup in Redis
has missed it.  Nothing catches the refusal.
-/
import NexusQueue.Identity

namespace NexusQueue

namespace Resubmit

/-- The row a call of `enqueue` inserts. -/
def submits : Task → Cmd → Option NewRow
  | .enqueue _ _ _, .insert row => some row
  | _, _ => none

/-- The row the `i`-th process, if it is a call of `enqueue`, is about to insert. -/
def submitted (c : State) (i : ℕ) : Option NewRow :=
  c.pool[i]?.bind fun p => (nextCmd c i).bind (submits p.task)

/-- Anything may happen to the others.  The stores answer the `i`-th process, whose
rows, if it is a call of `enqueue`, fit the table, which has room for them. -/
def Answered (i : ℕ) (c : State) : Action → Prop
  | .start t => t.external ∧ c.store.names t
  | .call j o => j = i →
      o.works ∧ ∀ row ∈ submitted c j, row.WellTyped ∧ c.store.pg.hasRoom row
  | _ => True

/-- And when it inserts its row, no row carries its idempotency key. -/
def KeyFree (i : ℕ) (c : State) (a : Action) : Prop :=
  Answered i c a ∧ ∀ o, a = .call i o →
    ∀ row ∈ submitted c i, ∀ k ∈ row.idempotencyKey, ¬ c.store.pg.hasKey k

instance (i : ℕ) (c : State) : (a : Action) → Decidable (Answered i c a)
  | .start t => inferInstanceAs (Decidable (t.external ∧ c.store.names t))
  | .call j o => inferInstanceAs
      (Decidable (j = i → o.works = true ∧
        ∀ row ∈ submitted c j, row.WellTyped ∧ c.store.pg.hasRoom row))
  | .halt _ | .drift _ => .isTrue trivial

/-- The rows of the `i`-th process have free keys, if it is the one that moves. -/
def keysFree (i : ℕ) (c : State) : Action → Bool
  | .call j _ => j ≠ i ∨ ∀ row ∈ submitted c i, ∀ k ∈ row.idempotencyKey, ¬ c.store.pg.hasKey k
  | _ => true

instance (i : ℕ) (c : State) (a : Action) : Decidable (KeyFree i c a) :=
  decidable_of_iff (Answered i c a ∧ keysFree i c a = true) <| by
    refine and_congr_right fun _ => ?_
    cases a with
    | call j o =>
        constructor
        · intro h o' ho
          cases ho
          simpa [keysFree] using h
        · intro h
          by_cases hji : j = i
          · subst hji
            simpa [keysFree] using h o rfl
          · simp [keysFree, hji]
    | _ => simp [keysFree]

theorem Answered.named {i : ℕ} {c : State} {a : Action} (h : Answered i c a) :
    AnythingNamed c a := by
  cases a with
  | start t => exact h
  | _ => trivial

/-! ## The uuid of a draft is new to the table -/

/-- The draft without a row a task holds. -/
def unwritten : Phase → Option JobId
  | .drawn id => some id
  | _ => none

/-- The uuids of drafts without a row are new to the table. -/
structure Fresh (s : World) (g : JobId → ℕ) : Prop where
  one : ∀ id, g id ≤ 1
  fresh : ∀ id, 0 < g id → id ∈ s.ids ∧ s.pg.row? id = none
  rows : ∀ j, (s.pg.row? j).isSome → j ∈ s.ids

/-- Drafting as a discipline over the custody protocol. -/
def drafting (env : Env) : Discipline (machine env) (custody env) (JobId → ℕ) where
  good _ := True
  val _ l := holding (unwritten l)
  emit _ _ _ _ := 0
  loc _ _ _ := True
  inv := Fresh
  allow _ _ _ _ _ _ := True
  post := Concluded

section Step

variable {env : Env} {s s' : World} {t : Task} {l l' : Phase} {c : Cmd} {r : Except Err c.Resp}
  {ts : List Task} {g : JobId → ℕ}

/-- Fewer drafts, more uuids and no new row keep the drafts new. -/
theorem Fresh.mono {g' : JobId → ℕ} (h : Fresh s g) (hg : g' ≤ g) (hids : s.ids ⊆ s'.ids)
    (hrows : ∀ j, (s'.pg.row? j).isSome → (s.pg.row? j).isSome) : Fresh s' g' where
  one id := (hg id).trans (h.one id)
  fresh id hid := by
    obtain ⟨hmem, hnone⟩ := h.fresh id (hid.trans_le (hg id))
    refine ⟨hids hmem, ?_⟩
    by_contra hne
    have hsome := hrows id (Option.isSome_iff_ne_none.mpr hne)
    rw [hnone] at hsome
    cases hsome
  rows j hj := hids (h.rows j (hrows j hj))

/-- A uuid is drawn. -/
theorem Fresh.draw (h : Fresh s g) {id : JobId} (hid : id ∉ s.ids) :
    Fresh { s with ids := insert id s.ids } (holding (some id) + g) := by
  have hzero : g id = 0 := by
    by_contra hne
    exact hid (h.fresh id (by omega)).1
  have hnone : s.pg.row? id = none := by
    by_contra hne
    exact hid (h.rows id (Option.isSome_iff_ne_none.mpr hne))
  constructor
  · intro j
    have hone := h.one j
    by_cases hj : id = j
    · subst hj
      simp [hzero]
    · simpa [hj] using hone
  · intro j hj
    by_cases hji : id = j
    · subst hji
      exact ⟨by simp, hnone⟩
    · obtain ⟨hmem, hrow⟩ := h.fresh j (by simpa [hji] using hj)
      exact ⟨by simp [hmem], hrow⟩
  · intro j hj
    simpa using Or.inr (h.rows j hj)

/-- The row of a draft is inserted. -/
theorem Fresh.insert {id : JobId} {row : NewRow} {pg : Postgres}
    (h : Fresh s (holding (some id) + g)) (hid : row.id = id)
    (hins : s.pg.insert s.clock row = .ok pg) : Fresh { s with pg := pg } g := by
  obtain ⟨r, -, -, -, hrow⟩ := Postgres.row?_insert hins
  have hself : (holding (some id) + g) id = 1 + g id := by simp
  have hone := h.one id
  constructor
  · intro j
    have hj := h.one j
    rw [Pi.add_apply] at hj
    omega
  · intro j hj
    have hne : j ≠ row.id := by
      rintro rfl
      rw [hid] at hj
      omega
    obtain ⟨hmem, hnone⟩ := h.fresh j (by rw [Pi.add_apply]; omega)
    refine ⟨hmem, ?_⟩
    rw [hrow, if_neg hne]
    exact hnone
  · intro j hj
    rw [hrow] at hj
    by_cases hji : j = row.id
    · rw [hji, hid]
      exact (h.fresh id (by omega)).1
    · rw [if_neg hji] at hj
      exact h.rows j hj

/-- **Step lemma.**  Every effect keeps the drafts new. -/
theorem Fresh.effect (h : Fresh s (holding (unwritten l) + g))
    (he : Effect env s t l c r s' l' ts) : Fresh s' (holding (unwritten l') + g) := by
  have hids := ids_of_effect he
  -- whatever the command does to the rows, it is no INSERT
  have keep : (∀ id, l ≠ .drawn id) → unwritten l' = none →
      Fresh s' (holding (unwritten l') + g) := by
    intro hl hl'
    rw [hl', holding_none_add]
    refine h.mono (fun id => Nat.le_add_left _ _) hids fun j hj => ?_
    rcases row_of_effect he hj with hj | hj
    · exact hj
    · exact absurd hj (hl j)
  have same : s'.pg = s.pg → unwritten l' = unwritten l →
      Fresh s' (holding (unwritten l') + g) := by
    intro hpg hl
    rw [hl]
    exact h.mono (le_refl _) hids fun j hj => by rwa [hpg] at hj
  cases he with
  | still hn hf hw => exact same hf.pg rfl
  -- a draft: no other process has it, and no row
  | @draw t l id hc hp hid hne =>
      have hdrop : Fresh s g := h.mono (fun id => Nat.le_add_left _ _) subset_rfl fun _ hj => hj
      exact hdrop.draw hid
  | @insert t id row pg hc hid hst hkey hins =>
      change Fresh _ (holding none + g)
      rw [holding_none_add]
      exact h.insert hid hins
  | settle =>
      refine same rfl ?_
      cases l <;> rfl
  | handler | inert _ _ => exact same rfl rfl
  | publishReady hc _ _ _ | publishDelayed hc _ _ =>
      refine keep (by simp) ?_
      cases t <;> rfl
  | clock hl | cronFails hc hl =>
      refine keep ?_ rfl
      rintro id rfl
      exact hl
  | readDue hl =>
      refine keep ?_ rfl
      rintro id rfl
      rcases hl with hl | ⟨q, hl⟩ <;> cases hl
  | readJob hl =>
      refine keep ?_ rfl
      rintro id rfl
      rcases hl with hl | ⟨q, hl⟩ <;> cases hl
  | pull hc hv hpulled =>
      refine keep (by simp) ?_
      cases truthy _ <;> rfl
  | insertFails _ _ _ _ | missing _ =>
      change Fresh _ (holding none + g)
      rw [holding_none_add]
      exact h.mono (fun id => Nat.le_add_left _ _) subset_rfl fun _ hj => hj
  | _ => exact keep (by simp) rfl

/-- No task starts with a draft. -/
theorem unwritten_start (t : Task) : unwritten (Phase.start t) = none := by
  cases t with
  | requeue q b => rcases Phase.start_requeue q b with h | ⟨_, -, h⟩ <;> rw [h] <;> rfl
  | _ => rfl

/-- A rejection gives a task no draft. -/
theorem unwritten_error :
    unwritten (l.afterError t c) = unwritten l ∨ unwritten (l.afterError t c) = none := by
  cases t with
  | processOne _ _ _ => cases c <;> first | exact Or.inl rfl | exact Or.inr rfl
  | requeue _ _ =>
      cases c
      case publish => exact Or.inl rfl
      case now => exact Or.inl rfl
      all_goals cases l <;> exact Or.inl rfl
  | _ => exact Or.inr rfl

/-- **Drafts are new to the table in every run, whatever fails.** -/
theorem drafting_sound : (drafting env).Sound Anything where
  follows t _ := custody_follows t
  call s t l c o r s' F h := by
    have hforks : (drafting env).starts ((machine env).forks t c r) = 0 :=
      (drafting env).starts_eq_zero _ fun t' _ => by
        change holding (unwritten (Phase.start t')) = 0
        rw [unwritten_start, holding_none]
    rw [hforks, add_zero]
    refine ⟨?_, trivial, fun t' _ => ⟨trivial, trivial⟩⟩
    change Fresh s' (holding (unwritten (Phase.next t l c r)) + (0 + F))
    rw [zero_add]
    rcases (exec_cases h.exec).2 with ⟨err, -, -, rfl, rfl⟩ | ⟨-, ha⟩
    · refine Fresh.mono h.inv (add_le_add_left ?_ F) subset_rfl fun _ hj => hj
      change holding (unwritten (l.afterError t c)) ≤ holding (unwritten l)
      rcases unwritten_error (t := t) (l := l) (c := c) with heq | heq
      · rw [heq]
      · rw [heq, holding_none]
        exact fun _ => Nat.zero_le _
    · exact Fresh.effect h.inv (effect_of_answer h.permits ha)
  stable _ _ _ _ _ _ _ _ _ _ _ _ _ _ _ := trivial
  start c t _ hc := by
    refine ⟨trivial, ?_, trivial⟩
    change Fresh c.store (holding (unwritten (Phase.start t)) + _)
    rw [unwritten_start, holding_none_add]
    exact hc.1
  allows _ _ _ _ _ _ _ _ _ _ := trivial
  drift c d s' _ hc hd := by
    refine ⟨?_, fun _ _ _ _ => trivial⟩
    cases d <;> cases hd <;> exact ⟨hc.1.one, hc.1.fresh, hc.1.rows⟩

end Step

/-! ## A call that is not refused -/

section Call

variable {env : Env} {c : State} {i : ℕ}

/-- What a call of `enqueue` with a draft without a row still needs: that no row has
its uuid. -/
theorem row_of_drawn (hc : (drafting env).PoolOk c) {p : Process} (hp : p ∈ c.pool) {id : JobId}
    (hl : (custody env).phase p.task p.hist = .drawn id) : c.store.pg.row? id = none := by
  obtain ⟨j, hj⟩ := List.mem_iff_getElem?.mp hp
  obtain ⟨F, hF⟩ := exists_sum_mem (drafting env).gauge hj
  have hpos : 0 < (drafting env).total c.pool id := by
    rw [Discipline.total, hF, Discipline.gauge]
    change 0 < (holding (unwritten ((custody env).phase p.task p.hist)) + _ + F) id
    rw [hl]
    simp [unwritten]
  exact (hc.1.fresh id hpos).2

/-- Nothing is drafted in the empty deployment. -/
theorem drafting_blank (c : State) (hc : Blank c) : (drafting env).PoolOk c := by
  obtain ⟨now, room, rfl⟩ := hc
  refine ⟨⟨?_, ?_, ?_⟩, by simp⟩
  · simp [Discipline.total]
  · simp [Discipline.total]
  · simp [Postgres.row?]

/-- A call of `enqueue` is broken off by a refused row only. -/
theorem broken_of_effect {s s' : World} {n : String} {v : Option Json} {o : EnqueueOptions}
    {l : Phase} {cmd : Cmd} {r : Except Err cmd.Resp} {ts : List Task}
    (he : Effect env s (.enqueue n v o) l cmd r s' .broken ts) (hl : l ≠ .broken) :
    ∃ id row e, l = .drawn id ∧ cmd = .insert row ∧ row.id = id ∧
      s.pg.insert s.clock row = .error e := by
  generalize ht : Task.enqueue n v o = t at he
  generalize hb : Phase.broken = l' at he
  cases he with
  | insertFails hc hid hkey hins => exact ⟨_, _, _, rfl, rfl, hid, hins⟩
  | cronFails hc hfree =>
      rw [← ht] at hc
      exact hc.elim
  | still | handler | inert => exact absurd hb.symm hl
  | publishReady | publishDelayed =>
      subst ht
      cases hb
  | brokenMark | brokenRetry | brokenBury | brokenAck => exact absurd rfl hl
  | beginFails => cases ht
  | _ => first | cases hb | cases ht

/-- A call whose rows are not refused is never broken off. -/
theorem not_broken (hc : (machine env).Reach (KeyFree i) Blank c) :
    ∀ p, c.pool[i]? = some p → (∃ n v o, p.task = .enqueue n v o) →
      (custody env).phase p.task p.hist ≠ .broken := by
  have hpool : ∀ c : State, Blank c → c.pool = [] := by
    rintro c ⟨now, room, rfl⟩
    rfl
  refine hc.proc (Q := fun t h => (∃ n v o, t = .enqueue n v o) → (custody env).phase t h ≠ .broken)
    hpool ?_ ?_
  · rintro t ⟨n, v, o, rfl⟩ hphase
    cases hphase
  · rintro c o p cmd k r s hreach hok hp hprog hex ih ⟨n, v, opts, ht⟩ hphase
    obtain ⟨hworks, htyped⟩ := hok.1 rfl
    have hmem := List.mem_of_getElem? hp
    obtain ⟨-, hknows, hfol⟩ := (Identity.poolOk_of_named
      (hreach.mono (fun _ _ h => h.1.named) fun _ h => h)).2 p hmem
    rw [hprog] at hfol
    have he := effect_of_answer hfol.1
      (Identity.answer_of_exec hex hworks hknows hfol.1 (by rw [ht]; exact id))
    rw [Protocol.phase_cons] at hphase
    change Phase.next p.task ((custody env).phase p.task p.hist) cmd r = .broken at hphase
    rw [hphase, ht] at he
    rw [ht] at ih
    obtain ⟨id, row, e, hl, rfl, hid, hins⟩ := broken_of_effect he (ih ⟨n, v, opts, rfl⟩)
    have hrow : row ∈ submitted c i := by
      simp [submitted, nextCmd, hp, hprog, ht, submits]
    have hnone := row_of_drawn (drafting_sound.reach drafting_blank
      (hreach.mono (fun _ _ h => h.1.named.anything) fun _ h => h)) hmem (ht ▸ hl)
    obtain ⟨hfits, hroom⟩ := htyped row hrow
    obtain ⟨pg, hpg⟩ := Postgres.insert_accepts hfits hroom (hid ▸ hnone)
      (hok.2 o rfl row hrow) c.store.clock
    rw [hpg] at hins
    cases hins

/-- **Enqueueing again succeeds.**  In every run, whatever fails elsewhere: a call of
`enqueue` that the stores answer, and whose `INSERT` finds no row with its idempotency
key, does not throw, and the id it returns names a job that has a row and a hash. -/
theorem returns_job (hc : (machine env).Reach (KeyFree i) Blank c) {p : Process}
    (hp : c.pool[i]? = some p) {n : String} {v : Option Json} {o : EnqueueOptions}
    (ht : p.task = .enqueue n v o) (hn : n ≠ "") :
    (∀ e, p.prog ≠ .raise e) ∧ ∀ r, p.prog = .ret r →
      ∃ id, r = some id ∧ c.store.enqueued id ∧ (c.store.pg.row? id).isSome := by
  have hmem := List.mem_of_getElem? hp
  have hpool := Identity.poolOk_of_named (hc.mono (fun _ _ h => h.1.named) fun _ h => h)
  have hfol := (hpool.2 p hmem).2.2
  constructor
  · intro e he
    rw [he, ht] at hfol
    rcases hfol with hname | hbroken
    · exact hn hname
    · exact not_broken hc p hp ⟨n, v, o, ht⟩ (ht ▸ hbroken)
  · intro r hr
    have hret := hfol
    rw [hr, ht] at hret
    obtain ⟨id, rfl, -⟩ := hret
    have henq := Identity.enqueued_of_returned hpool hmem ht hr
    exact ⟨id, rfl, henq, hpool.1.row id henq⟩

end Call

/-- The idempotency key of a call of `enqueue`, if it names its job. -/
def callKey : Task → Option String
  | .enqueue n _ o => if n = "" then none else truthy o.idempotencyKey
  | _ => none

theorem exists_of_callKey {t : Task} {k : String} (h : callKey t = some k) :
    ∃ n v o, t = .enqueue n v o ∧ n ≠ "" := by
  cases t with
  | enqueue n v o =>
      refine ⟨n, v, o, rfl, ?_⟩
      rintro rfl
      cases h
  | _ => cases h

/-- The theorem on a call that comes after another one with the same key. -/
theorem returns_job_again :
    ∃ c, (machine sample).Reach (KeyFree 1) Blank c ∧ ∃ p, c.pool[1]? = some p ∧
      callKey p.task = some "k" ∧ p.prog = .ret (some j1.text) ∧ (∀ e, p.prog ≠ .raise e) ∧
        ∀ r, p.prog = .ret r →
          ∃ id, r = some id ∧ c.store.enqueued id ∧ (c.store.pg.row? id).isSome := by
  obtain ⟨c, hc, htest⟩ := Machine.exists_reach (machine sample) (KeyFree 1) Blank blank_blank
    ([.start keyed] ++ goes 0 1 ++ [.call 0 (.fresh j1)] ++ goes 0 6 ++ [.start keyed] ++
      goes 1 1)
    (fun c => c.pool[1]?.any fun p => callKey p.task = some "k" ∧
      outcome p = some (.ok (some j1.text))) (by decide +kernel)
  obtain ⟨p, hp, hcall⟩ := (Option.any_eq_true _ _).mp htest
  obtain ⟨hkey, hret⟩ := of_decide_eq_true hcall
  obtain ⟨n, v, o, ht, hn⟩ := exists_of_callKey hkey
  exact ⟨c, hc, p, hp, hkey, outcome_ok.mp hret, returns_job hc hp ht hn⟩

/-- A call whose `MULTI` is rejected leaves a row behind and no entry: the next call with
the key throws, although every command of it is valid and the stores work. -/
theorem throws_after_failure :
    ∃ c, (machine sample).Reach (Answered 1) Blank c ∧ ∃ p, c.pool[1]? = some p ∧
      callKey p.task = some "k" ∧
      p.prog = .raise (.uniqueViolation "idx_jobs_idempotency_key") := by
  obtain ⟨c, hc, htest⟩ := Machine.exists_reach (machine sample) (Answered 1) Blank blank_blank
    ([.start keyed] ++ goes 0 1 ++ [.call 0 (.fresh j1)] ++ goes 0 2 ++ [.call 0 .fault,
      .start keyed] ++ goes 1 1 ++ [.call 1 (.fresh j2)] ++ goes 1 2)
    (fun c => c.pool[1]?.any fun p => callKey p.task = some "k" ∧
      outcome p = some (.error (.uniqueViolation "idx_jobs_idempotency_key")))
    (by decide +kernel)
  obtain ⟨p, hp, hcall⟩ := (Option.any_eq_true _ _).mp htest
  obtain ⟨hkey, herr⟩ := of_decide_eq_true hcall
  exact ⟨c, hc, p, hp, hkey, outcome_error.mp herr⟩

end Resubmit

end NexusQueue
