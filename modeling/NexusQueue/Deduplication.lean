/-
# One job for an idempotency key

A call of `enqueue` with an idempotency key looks the key up in Redis, inserts its
row, publishes its job and only then writes the entry.  Between the lookup and the
entry another call may do the same.  Rows of the immediate path carry the key, so the
unique index refuses the second one; rows of the delayed path do not.

As long as no call misses its lookup while another one with the same key is on its
way, unless both are immediate, at most one job is created for the key, and every call
that returns returns its id.

The runs start from stores with any contents, except that they know nothing of the
key.
-/
import NexusQueue.Tokens
import NexusQueue.Conduct
import NexusQueue.Transition

namespace NexusQueue

namespace Deduplication

/-- The idempotency key of a call of `enqueue`. -/
def keyOf : Task → Option String
  | .enqueue _ _ o => truthy o.idempotencyKey
  | _ => none

/-- The call asks for a delay. -/
def delays : Task → Bool
  | .enqueue _ _ o => (o.delay.filter (0 < ·)).isSome
  | _ => false

/-- A call that has missed its lookup and not written its entry. -/
def onItsWay : Phase → Bool
  | .missed | .drawn _ | .rowed _ | .published _ => true
  | _ => false

/-- The command looks the key up, in vain. -/
def misses (k : String) (s : World) : Cmd → Prop
  | .get k' => k' = redisKeys.idempotency k ∧ truthy (s.redis.get s.clock k') = none
  | _ => False

instance (k : String) (s : World) (c : Cmd) : Decidable (misses k s c) := by
  cases c <;> unfold misses <;> infer_instance

/-- No call with the key is on its way, apart from immediate ones if the call of task
`t` is immediate itself. -/
def Alone (env : Env) (k : String) (c : State) (t : Task) : Prop :=
  ∀ q ∈ c.pool, keyOf q.task = some k →
    onItsWay ((custody env).phase q.task q.hist) = true → delays q.task = false ∧ delays t = false

instance (env : Env) (k : String) (c : State) (t : Task) : Decidable (Alone env k c t) :=
  inferInstanceAs (Decidable (∀ q ∈ c.pool, _ → _ → _))

/-- The stores answer the calls with the key, a call misses its lookup only when it is
alone, and the entry of the key does not expire.  Anything else may happen. -/
def Separate (env : Env) (k : String) (c : State) : Action → Prop
  | .start t => t.external
  | .call i o => ∀ p ∈ c.pool[i]?, keyOf p.task = some k →
      o.works ∧ ∀ cmd ∈ nextCmd c i, misses k c.store cmd → Alone env k c p.task
  | .halt _ => True
  | .drift (.pass ms) => (c.store.redis.strings (redisKeys.idempotency k)).isSome →
      (c.store.redis.get (c.store.clock + ms) (redisKeys.idempotency k)).isSome
  | .drift (.crash _) => True

instance (env : Env) (k : String) (c : State) : (a : Action) → Decidable (Separate env k c a)
  | .start t => inferInstanceAs (Decidable t.external)
  | .call i o => inferInstanceAs (Decidable (∀ p ∈ c.pool[i]?, keyOf p.task = some k →
      o.works = true ∧ ∀ cmd ∈ nextCmd c i, misses k c.store cmd → Alone env k c p.task))
  | .halt _ | .drift (.crash _) => .isTrue trivial
  | .drift (.pass ms) => inferInstanceAs (Decidable
      ((c.store.redis.strings (redisKeys.idempotency k)).isSome = true →
        (c.store.redis.get (c.store.clock + ms) (redisKeys.idempotency k)).isSome = true))

/-- How often a command of a call with the key inserts the row of `j`. -/
def creates (k : String) (j : JobId) (t : Task) (c : Cmd) (r : Except Err c.Resp) : ℕ :=
  match c, r with
  | .insert row, .ok _ => if keyOf t = some k ∧ row.id = j then 1 else 0
  | _, _ => 0

/-- How often a command of a call with the key writes the hash of `j` to Redis. -/
def publishes (k : String) (j : JobId) (t : Task) (c : Cmd) (r : Except Err c.Resp) : ℕ :=
  match c, r with
  | .multi (_ :: .hset (.job id) _ :: _), .ok _ => if keyOf t = some k ∧ id = j then 1 else 0
  | _, _ => 0

/-- The number of rows of `j` inserted by calls with the key. -/
def creations (env : Env) (c : State) (k : String) (j : JobId) : ℕ :=
  counted (custody env) (fun t _ cmd r => creates k j t cmd r) c.pool

/-- The number of times calls with the key have published `j`. -/
def publications (env : Env) (c : State) (k : String) (j : JobId) : ℕ :=
  counted (custody env) (fun t _ cmd r => publishes k j t cmd r) c.pool

/-! ## The calls with the key -/

/-- What is counted: calls before their row, between row and `MULTI`, between `MULTI`
and entry, and with the entry, and the rows inserted and jobs published. -/
inductive Stage where
  | early (delayed : Bool)
  | rowed (delayed : Bool) (id : JobId)
  | stored (delayed : Bool) (id : JobId)
  | knowing (id : JobId)
  | created (id : JobId)
  | published (id : JobId)
  deriving DecidableEq

/-- The stage of a call with the key, in a phase. -/
def stageIn (delayed : Bool) : Phase → Option Stage
  | .missed | .drawn _ => some (.early delayed)
  | .rowed id => some (.rowed delayed id)
  | .published id => some (.stored delayed id)
  | .known id => some (.knowing id)
  | _ => none

/-- The stage of a task. -/
def stage (k : String) (t : Task) (l : Phase) : Option Stage :=
  if keyOf t = some k then stageIn (delays t) l else none

/-- What a command counts for. -/
def counts (k : String) (t : Task) (c : Cmd) (r : Except Err c.Resp) : Stage → ℕ
  | .created j => creates k j t c r
  | .published j => publishes k j t c r
  | _ => 0

/-- The ids a call has drawn are not empty. -/
def drawnName : Phase → Prop
  | .drawn id | .rowed id | .published id => id ≠ ""
  | _ => True

/-- Nothing has been created for the key. -/
structure Open (k : String) (s : World) (g : Stage → ℕ) : Prop where
  rowed : ∀ b id, g (.rowed b id) = 0
  stored : ∀ b id, g (.stored b id) = 0
  knowing : ∀ id, g (.knowing id) = 0
  created : ∀ id, g (.created id) = 0
  published : ∀ id, g (.published id) = 0
  entry : s.redis.strings (.idem k) = none
  key : ¬ s.pg.hasKey k
  alone : g (.early true) = 0 ∨ g (.early true) = 1 ∧ g (.early false) = 0

/-- The job `j` has been created for the key, and no other. -/
structure Taken (k : String) (j : JobId) (s : World) (g : Stage → ℕ) : Prop where
  name : j ≠ ""
  created : ∀ id, g (.created id) = if id = j then 1 else 0
  published : ∀ id, g (.published id) + g (.rowed true id) + g (.rowed false id) ≤
    if id = j then 1 else 0
  stored : ∀ b id, 0 < g (.stored b id) → id = j
  knowing : ∀ id, 0 < g (.knowing id) → id = j
  entry : s.redis.strings (.idem k) = none ∧ (∃ b, 0 < g (.rowed b j) + g (.stored b j)) ∨
    s.redis.get s.clock (.idem k) = some j
  early : g (.early true) = 0
  key : s.pg.hasKey k ∨
    g (.early false) = 0 ∧ g (.rowed false j) = 0 ∧ g (.stored false j) = 0

/-- At most one job has been created for the key. -/
def Single (k : String) (s : World) (g : Stage → ℕ) : Prop :=
  Open k s g ∨ ∃ j, Taken k j s g

/-- Deduplication as a discipline over the custody protocol. -/
def deduplication (env : Env) (k : String) :
    Discipline (machine env) (custody env) (Stage → ℕ) where
  good _ := True
  val t l := holding (stage k t l)
  emit t _ c r := counts k t c r
  loc _ l _ := drawnName l
  inv := Single k
  allow s g t _ c o := keyOf t = some k → o.works ∧ (misses k s c →
    ∀ b, (b || delays t) = true →
      g (.early b) = 0 ∧ (∀ id, g (.rowed b id) = 0) ∧ ∀ id, g (.stored b id) = 0)
  post := Concluded

section Step

variable {env : Env} {s s' : World} {t : Task} {l l' : Phase} {c : Cmd} {r : Except Err c.Resp}
  {ts : List Task} {g F : Stage → ℕ} {k : String} {j : JobId}

theorem stage_of_key (ht : keyOf t = some k) : stage k t l = stageIn (delays t) l := if_pos ht

theorem stage_of_ne (ht : keyOf t ≠ some k) : stage k t l = none := if_neg ht

/-- The row of a call has the key if the call is immediate. -/
theorem rowKey_of_key (ht : keyOf t = some k) :
    t.rowKey = if delays t then none else some k := by
  cases t with
  | enqueue n v o =>
      have hkey : truthy o.idempotencyKey = some k := ht
      simp only [Task.rowKey, delays, hkey]
      rfl
  | _ => cases ht

/-- Only a call with the key inserts a row with the key. -/
theorem rowKey_ne (ht : keyOf t ≠ some k) : t.rowKey ≠ some k := by
  cases t with
  | enqueue n v o =>
      simp only [Task.rowKey]
      split
      · simp
      · exact ht
  | _ => simp [Task.rowKey]

/-- Other commands create nothing. -/
theorem counts_eq_zero (hi : ∀ row, c ≠ .insert row) (hm : ∀ ws, c ≠ .multi ws) :
    counts k t c r = 0 := by
  funext x
  cases x with
  | created id =>
      simp only [counts, creates]
      split
      · exact absurd rfl (hi _)
      · rfl
  | published id =>
      simp only [counts, publishes]
      split
      · exact absurd rfl (hm _)
      · rfl
  | _ => rfl

/-- A rejected command creates nothing. -/
theorem counts_error (e : Err) : counts k t c (.error e) = 0 := by
  funext x
  cases x with
  | created id => cases c <;> rfl
  | published id => simp [counts, publishes]
  | _ => rfl

/-- Other calls create nothing for the key. -/
theorem counts_of_ne (ht : keyOf t ≠ some k) : counts k t c r = 0 := by
  funext x
  cases x with
  | created id =>
      simp only [counts, creates, ht, false_and, if_false]
      split <;> rfl
  | published id =>
      simp only [counts, publishes, ht, false_and, if_false]
      split <;> rfl
  | _ => rfl

/-- Nothing that matters for the key has changed. -/
theorem Single.frame (h : Single k s g)
    (hentry : s'.redis.strings (.idem k) = s.redis.strings (.idem k)) (hclock : s'.clock = s.clock)
    (hkey : s'.pg.hasKey k ↔ s.pg.hasKey k) : Single k s' g := by
  have hget : s'.redis.get s'.clock (.idem k) = s.redis.get s.clock (.idem k) := by
    simp only [Redis.get, hentry, hclock]
  rcases h with h | ⟨j, h⟩
  · exact Or.inl { h with
      entry := hentry.trans h.entry
      key := fun hk => h.key (hkey.mp hk) }
  · refine Or.inr ⟨j, { h with entry := ?_, key := ?_ }⟩
    · rw [hentry, hget]
      exact h.entry
    · rw [hkey]
      exact h.key

theorem Single.nothing_iff : Single k s (holding none + F) ↔ Single k s F := by
  rw [holding_none_add]

/-- Time passes, and the entry is still there. -/
theorem get_later {ms : ℕ} (h : s.redis.get s.clock (.idem k) = some j)
    (hlive : (s.redis.strings (.idem k)).isSome → (s.redis.get (s.clock + ms) (.idem k)).isSome) :
    s.redis.get (s.clock + ms) (.idem k) = some j := by
  unfold Redis.get at h hlive ⊢
  rcases hs : s.redis.strings (.idem k) with _ | ⟨v, _ | deadline⟩
  · rw [hs] at h
    cases h
  · rw [hs] at h
    exact h
  · rw [hs] at h hlive
    have hlt : s.clock + ms < deadline := by
      by_contra hge
      simp [hge] at hlive
    simp only [hlt, if_true]
    by_cases hnow : s.clock < deadline
    · simpa [hnow] using h
    · omega

/-- Only a call with the key writes its entry. -/
theorem entry_of_effect (he : Effect env s t l c r s' l' ts) (ht : keyOf t ≠ some k) :
    s'.redis.strings (.idem k) = s.redis.strings (.idem k) := by
  cases he with
  | still hn hf hw => exact hf.idem k
  | @remember n v o id k' hk' =>
      have hne : Key.idem k ≠ Key.idem k' := fun h => ht (by rw [Key.idem.inj h]; exact hk')
      exact Function.update_of_ne hne _ _
  | dropHeartbeat | dropList => simp [Write.apply]
  | _ => simp [World.setWorker, World.register]

/-- Only a call with the key inserts a row with the key. -/
theorem hasKey_of_effect (he : Effect env s t l c r s' l' ts) (ht : keyOf t ≠ some k) :
    s'.pg.hasKey k ↔ s.pg.hasKey k := by
  cases he with
  | still hn hf hw => rw [hf.pg]
  | @insert t id row pg hc hid hst hkey hins =>
      rw [Postgres.hasKey_insert hins, hkey]
      exact or_iff_left (rowKey_ne ht)
  | mark _ | complete _ | brokenMark _ | resetRow _ | resetRetry _ | resetRequeue _ =>
      exact Postgres.hasKey_update _ _ _ _ _
  | _ => exact Iff.rfl

/-- Effects of other tasks. -/
theorem Single.other (h : Single k s (holding (stage k t l) + F)) (ht : keyOf t ≠ some k)
    (hclock : s'.clock = s.clock) (he : Effect env s t l c r s' l' ts) :
    Single k s' (holding (stage k t l') + (counts k t c r + F)) := by
  rw [stage_of_ne ht] at h ⊢
  rw [counts_of_ne ht, zero_add]
  exact h.frame (entry_of_effect he ht) hclock (hasKey_of_effect he ht)

/-! ### The steps of a call with the key -/

variable {b : Bool} {id : JobId}

/-- A call misses its lookup. -/
theorem Single.miss (h : Single k s F) (hmiss : truthy (s.redis.get s.clock (.idem k)) = none)
    (halone : ∀ b', (b' || b) = true →
      F (.early b') = 0 ∧ (∀ id, F (.rowed b' id) = 0) ∧ ∀ id, F (.stored b' id) = 0) :
    Single k s (holding (some (.early b)) + F) := by
  obtain ⟨hearly, hrowed, hstored⟩ := halone true (by simp)
  rcases h with h | ⟨j, h⟩
  · refine Or.inl { h with
      rowed := fun b' id => by simpa using h.rowed b' id
      stored := fun b' id => by simpa using h.stored b' id
      knowing := fun id => by simpa using h.knowing id
      created := fun id => by simpa using h.created id
      published := fun id => by simpa using h.published id
      alone := ?_ }
    cases b with
    | false => exact Or.inl (by simpa using hearly)
    | true =>
        obtain ⟨hfalse, -, -⟩ := halone false (by simp)
        exact Or.inr ⟨by simp [hearly], by simpa using hfalse⟩
  · refine Or.inr ⟨j, ?_⟩
    -- the entry is missing, so the creator is on its way, and it is immediate
    rcases h.entry with ⟨hnone, b', hb'⟩ | hget
    · have hb'f : b' = false := by
        cases b' with
        | false => rfl
        | true =>
            rw [hrowed, hstored] at hb'
            omega
      subst hb'f
      have hbf : b = false := by
        cases b with
        | false => rfl
        | true =>
            obtain ⟨-, hr, hs⟩ := halone false (by simp)
            rw [hr, hs] at hb'
            omega
      subst hbf
      have hkey : s.pg.hasKey k := by
        rcases h.key with hkey | ⟨-, hr, hs⟩
        · exact hkey
        · omega
      exact { h with
        created := fun id => by simpa using h.created id
        published := fun id => by simpa using h.published id
        stored := fun b' id => by simpa using h.stored b' id
        knowing := fun id => by simpa using h.knowing id
        entry := Or.inl ⟨hnone, false, by simpa using hb'⟩
        early := by simpa using h.early
        key := Or.inl hkey }
    · rw [hget, truthy_some h.name] at hmiss
      cases hmiss

/-- A call finds the entry. -/
theorem Single.hit {v : JobId} (h : Single k s F)
    (hv : truthy (s.redis.get s.clock (.idem k)) = some v) :
    Single k s (holding (some (.knowing v)) + F) := by
  obtain ⟨e, he⟩ := Redis.get_of_truthy hv
  rcases h with h | ⟨j, h⟩
  · rw [h.entry] at he
    cases he
  · refine Or.inr ⟨j, { h with
      created := fun id => by simpa using h.created id
      published := fun id => by simpa using h.published id
      stored := fun b' id => by simpa using h.stored b' id
      knowing := fun id hid => ?_
      entry := ?_
      early := by simpa using h.early
      key := by simpa using h.key }⟩
    · rcases h.entry with ⟨hnone, -⟩ | hget
      · rw [hnone] at he
        cases he
      · rw [hget, truthy_some h.name, Option.some.injEq] at hv
        by_cases hvid : v = id
        · rw [← hvid, hv]
        · exact h.knowing id (by simpa [hvid] using hid)
    · simpa using h.entry

/-- A call is refused its row. -/
theorem Single.refuse (h : Single k s (holding (some (.early b)) + F)) : Single k s F := by
  rcases h with h | ⟨j, h⟩
  · refine Or.inl { h with
      rowed := fun b' id => by simpa using h.rowed b' id
      stored := fun b' id => by simpa using h.stored b' id
      knowing := fun id => by simpa using h.knowing id
      created := fun id => by simpa using h.created id
      published := fun id => by simpa using h.published id
      alone := ?_ }
    have halone := h.alone
    simp only [Pi.add_apply] at halone
    omega
  · refine Or.inr ⟨j, { h with
      created := fun id => by simpa using h.created id
      published := fun id => by simpa using h.published id
      stored := fun b' id => by simpa using h.stored b' id
      knowing := fun id => by simpa using h.knowing id
      entry := by simpa using h.entry
      early := ?_
      key := ?_ }⟩
    · have hearly := h.early
      rw [Pi.add_apply] at hearly
      omega
    · have hkey := h.key
      simp only [Pi.add_apply, holding_some, reduceCtorEq, if_false, zero_add] at hkey
      rcases hkey with hkey | ⟨he, hr, hs⟩
      · exact Or.inl hkey
      · exact Or.inr ⟨by omega, hr, hs⟩

/-- A call inserts its row: it is the first one, and the only one that will. -/
theorem Single.create {row : NewRow} {pg : Postgres}
    (h : Single k s (holding (some (.early b)) + F)) (hne : id ≠ "")
    (hkey : row.idempotencyKey = if b then none else some k)
    (hins : s.pg.insert s.clock row = .ok pg) :
    Single k { s with pg := pg }
      (holding (some (.rowed b id)) + (holding (some (.created id)) + F)) := by
  have hafter := Postgres.hasKey_insert hins k
  rcases h with h | ⟨j, h⟩
  · have hrowed := fun b' id' => h.rowed b' id'
    have hstored := fun b' id' => h.stored b' id'
    have hcreated := h.created
    have hpublished := h.published
    have hknowing := h.knowing
    have halone := h.alone
    simp only [Pi.add_apply, holding_some, reduceCtorEq, if_false, zero_add] at hrowed hstored
    simp only [Pi.add_apply, holding_some, reduceCtorEq, if_false, zero_add] at hcreated hpublished
    simp only [Pi.add_apply, holding_some, reduceCtorEq, if_false, zero_add] at hknowing halone
    refine Or.inr ⟨id, hne, fun id' => ?_, fun id' => ?_, fun b' id' hid' => ?_, fun id' hid' => ?_,
      Or.inl ⟨h.entry, b, by simp⟩, ?_, ?_⟩
    · by_cases hii : id = id'
      · simp [hii, hcreated]
      · simp [hii, Ne.symm hii, hcreated]
    · by_cases hii : id = id'
      · cases b <;> simp [hii, hpublished, hrowed]
      · simp [hii, hpublished, hrowed]
    · simp [hstored] at hid'
    · simp [hknowing] at hid'
    · cases b <;> simp at halone ⊢ <;> omega
    · cases b with
      | false => exact Or.inl (hafter.mpr (Or.inr hkey))
      | true =>
          refine Or.inr ⟨?_, ?_, ?_⟩
          · simp at halone ⊢
            omega
          · simp [hrowed]
          · simp [hstored]
  · -- a job has been created: the call is immediate, and the index refuses its row
    exfalso
    have hearly := h.early
    have hb := h.key
    obtain ⟨-, -, -, hfree, -⟩ := Postgres.insert_ok hins
    cases b with
    | true => simp at hearly
    | false =>
        simp only [Pi.add_apply, holding_some, if_true] at hb
        rcases hb with hb | ⟨hb, -⟩
        · exact hfree k hkey hb
        · omega

/-- A call publishes its job. -/
theorem Single.publish (h : Single k s (holding (some (.rowed b id)) + F)) :
    Single k s (holding (some (.stored b id)) + (holding (some (.published id)) + F)) := by
  rcases h with h | ⟨j, h⟩
  · have hrowed := h.rowed b id
    simp at hrowed
  · have hpub := h.published
    have hstored := h.stored
    have hidj : id = j := by
      by_contra hij
      have hone := hpub id
      rw [if_neg hij] at hone
      cases b <;> simp at hone
    subst hidj
    refine Or.inr ⟨id, { h with
      created := fun id' => by simpa using h.created id'
      published := fun id' => ?_
      stored := fun b' id' hid' => ?_
      knowing := fun id' hid' => h.knowing id' (by simpa using hid')
      entry := ?_
      early := by simpa using h.early
      key := ?_ }⟩
    · have hone := hpub id'
      by_cases hii : id = id'
      · subst hii
        cases b <;> simp at hone ⊢ <;> omega
      · simpa [hii] using hone
    · by_cases hii : id = id'
      · exact hii.symm
      · exact hstored b' id' (by simpa [hii] using hid')
    · rcases h.entry with ⟨hnone, -⟩ | hget
      · exact Or.inl ⟨hnone, b, by simp⟩
      · exact Or.inr hget
    · have hkey := h.key
      cases b <;> simpa using hkey

/-- A call writes the entry. -/
theorem Single.remember (h : Single k s (holding (some (.stored b id)) + F)) :
    Single k (s.setString (redisKeys.idempotency k) id 86400)
      (holding (some (.knowing id)) + F) := by
  rcases h with h | ⟨j, h⟩
  · have hstored := h.stored b id
    simp at hstored
  · have hidj : id = j := h.stored b id (by simp)
    subst hidj
    refine Or.inr ⟨id, { h with
      created := fun id' => by simpa using h.created id'
      published := fun id' => by simpa using h.published id'
      stored := fun b' id' hid' => h.stored b' id' ?_
      knowing := fun id' hid' => ?_
      entry := Or.inr (by simp [Redis.get])
      early := by simpa using h.early
      key := ?_ }⟩
    · rw [Pi.add_apply] at hid' ⊢
      simp only [holding_some, reduceCtorEq, if_false] at hid'
      omega
    · by_cases hii : id = id'
      · exact hii.symm
      · exact h.knowing id' (by simpa [hii] using hid')
    · have hkey := h.key
      cases b
      · simp at hkey
        exact Or.inl hkey
      · simpa using hkey

/-- An insertion counts as one row. -/
theorem counts_insert {row : NewRow} (ht : keyOf t = some k) :
    counts k t (.insert row) (.ok ()) = holding (some (.created row.id)) := by
  funext x
  cases x with
  | created id => simp [counts, creates, ht]
  | published id => simp [counts, publishes]
  | _ => simp [counts]

/-- A `MULTI` of a call counts as one publication. -/
theorem counts_publish {q : String} {f : JobHash} {w : Write} (ht : keyOf t = some k) :
    counts k t (.multi [.sadd redisKeys.queueRegistry q, .hset (redisKeys.job id) f, w]) (.ok ()) =
      holding (some (.published id)) := by
  funext x
  cases x with
  | created j => simp [counts, creates]
  | published j => simp [counts, publishes, ht]
  | _ => simp [counts]

/-- The frame of a step that changes nothing that matters for the key. -/
theorem Single.same (h : Single k s F) (hf : s.Frame s') : Single k s' F :=
  h.frame (hf.idem k) hf.clock (by rw [hf.pg])

/-- **Step lemma.**  Every effect of a call with the key keeps its job single. -/
theorem Single.effect (ht : keyOf t = some k) (h : Single k s (holding (stage k t l) + F))
    (hname : drawnName l)
    (hmiss : misses k s c → ∀ b, (b || delays t) = true →
      F (.early b) = 0 ∧ (∀ id, F (.rowed b id) = 0) ∧ ∀ id, F (.stored b id) = 0)
    (he : Effect env s t l c r s' l' ts) :
    Single k s' (holding (stage k t l') + (counts k t c r + F)) := by
  rw [stage_of_key ht] at h ⊢
  have hrow := rowKey_of_key ht
  cases t with
  | enqueue n v o =>
      have hkey : truthy o.idempotencyKey = some k := ht
      cases he with
      | still hn hf hw =>
          rw [counts_eq_zero, zero_add]
          · exact h.same hf
          · rintro row rfl
            exact hn
          · rintro ws rfl
            exact hn
      -- the call goes on as if it were the first: the condition says that nobody is on the way
      | @lookupMiss _ _ _ k' hk' hnone =>
          obtain rfl : k' = k := Option.some.inj (hk'.symm.trans hkey)
          rw [counts_eq_zero (by simp) (by simp), zero_add]
          exact (Single.nothing_iff.mp h).miss hnone (hmiss ⟨rfl, hnone⟩)
      | @lookupHit _ _ _ k' v hk' hv =>
          obtain rfl : k' = k := Option.some.inj (hk'.symm.trans hkey)
          rw [counts_eq_zero (by simp) (by simp), zero_add]
          exact (Single.nothing_iff.mp h).hit hv
      -- with a key the uuid is drawn after a miss
      | draw hc hp hid hne =>
          rw [counts_eq_zero (by simp) (by simp), zero_add]
          cases hp with
          | quiet hq => exact hq.elim
          | uuidKeyless hnone => rw [hnone] at hkey; cases hkey
          | uuidMissed => exact h.frame rfl rfl Iff.rfl
      | @insert _ id row pg hc hid hst hrk hins =>
          rw [counts_insert ht, hid]
          exact h.create hname (hrk.trans hrow) hins
      -- the call throws, be it for the unique index or for the values
      | insertFails hc hid hrk hins =>
          rw [counts_error, zero_add]
          exact Single.nothing_iff.mpr h.refuse
      | @publishReady _ id q p f hc hid hq hpr =>
          rw [counts_publish ht]
          exact h.publish.frame (by simp [World.register]) rfl (by simp [World.register])
      | @publishDelayed _ id q f score hc hid hq =>
          rw [counts_publish ht]
          exact h.publish.frame (by simp [World.register]) rfl (by simp [World.register])
      | @remember _ _ _ id k' hk' =>
          obtain rfl : k' = k := Option.some.inj (hk'.symm.trans hkey)
          rw [counts_eq_zero (by simp) (by simp), zero_add]
          exact h.remember
      | cronFails hc hl => exact hc.elim
      | inert hhost => cases hhost
      | lift hop | readLifted hop | place hop => exact hop.elim
  | _ => cases ht

/-- **Step lemma.**  The ids drawn are not empty. -/
theorem drawnName_effect (h : drawnName l) (he : Effect env s t l c r s' l' ts) :
    drawnName l' := by
  cases he with
  | still | insert | handler | inert => exact h
  | draw hc hp hid hne => exact hne
  | publishReady hc | publishDelayed hc =>
      cases t <;> first | exact h | trivial
  | @pull w x v c r hc hv hpulled => cases truthy (some v) <;> trivial
  | settle => cases l <;> exact h
  | _ => trivial

theorem drawnName_start (t : Task) : drawnName (Phase.start t) := by
  cases t with
  | requeue q b => rcases Phase.start_requeue q b with h | ⟨_, -, h⟩ <;> rw [h] <;> trivial
  | _ => trivial

theorem drawnName_error (h : drawnName l) : drawnName (l.afterError t c) := by
  cases t with
  | processOne _ _ _ => cases c <;> first | exact h | trivial
  | requeue _ _ => cases c <;> first | exact h | (cases l <;> exact h)
  | _ => trivial

theorem stage_start (t : Task) : stage k t (Phase.start t) = none := by
  unfold stage
  split
  · cases t with
    | requeue q b => rcases Phase.start_requeue q b with h | ⟨_, -, h⟩ <;> rw [h] <;> rfl
    | _ => rfl
  · rfl

/-- A pool in which a call of task `t` is alone, in terms of what the calls hold. -/
theorem free_of_alone {c : State} (h : Alone env k c t) {b : Bool} (hb : (b || delays t) = true)
    {x : Stage} (hx : ∀ l d, stageIn d l = some x → d = b ∧ onItsWay l = true)
    (hemit : ∀ t c r, counts k t c r x = 0) :
    (deduplication env k).total c.pool x = 0 := by
  rw [(deduplication env k).total_eq_holders (stage k) (fun _ _ => rfl) (fun t _ c r => hemit t c r),
    holders, List.countP_eq_zero]
  intro q hq
  rw [decide_eq_true_eq]
  intro hstage
  by_cases hkey : keyOf q.task = some k
  · rw [stage_of_key hkey] at hstage
    obtain ⟨rfl, hway⟩ := hx _ _ hstage
    obtain ⟨hq', ht'⟩ := h q hq hkey hway
    rw [hq', ht'] at hb
    cases hb
  · rw [stage_of_ne hkey] at hstage
    cases hstage

/-- A call with a key sends no statement about a row by its id. -/
theorem readable_of_key {t : Task} {l : Phase} {c : Cmd} (ht : keyOf t = some k)
    (h : (custody env).permits t l c) : c.unreadable = false := by
  obtain ⟨n, v, o, rfl⟩ : ∃ n v o, t = .enqueue n v o := by
    cases t with
    | enqueue n v o => exact ⟨n, v, o, rfl⟩
    | _ => cases ht
  cases c with
  | update j p => cases h with
    | quiet hq => exact hq.elim
  | select j => cases h with
    | quiet hq => exact hq.elim
  | _ => rfl

/-- **Deduplication is a sound discipline.** -/
theorem deduplication_sound : (deduplication env k).Sound (Separate env k) where
  follows t _ := custody_follows t
  call s t l c o r s' F h := by
    have hforks : (deduplication env k).starts ((machine env).forks t c r) = 0 :=
      (deduplication env k).starts_eq_zero _ fun t' _ => by
        change holding (stage k t' (Phase.start t')) = 0
        rw [stage_start, holding_none]
    rw [hforks, add_zero]
    refine ⟨?_, ?_, fun t' _ => ⟨trivial, drawnName_start t'⟩⟩
    · change Single k s' (holding (stage k t (Phase.next t l c r)) + (counts k t c r + F))
      by_cases ht : keyOf t = some k
      · obtain ⟨hworks, hmiss⟩ := h.allow ht
        refine Single.effect ht h.inv h.loc (fun hm b hb => ?_)
          (effect_of_answer h.permits
            (exec_answer h.exec hworks (readable_of_key ht h.permits)))
        obtain ⟨he, hr, hs⟩ := hmiss hm b hb
        refine ⟨?_, fun id => ?_, fun id => ?_⟩
        · exact (Nat.add_eq_zero_iff.mp he).2
        · exact (Nat.add_eq_zero_iff.mp (hr id)).2
        · exact (Nat.add_eq_zero_iff.mp (hs id)).2
      · rcases (exec_cases h.exec).2 with ⟨err, -, -, rfl, rfl⟩ | ⟨-, ha⟩
        · rw [stage_of_ne ht, counts_error, zero_add]
          have hinv : Single k s' (holding (stage k t l) + F) := h.inv
          rwa [stage_of_ne ht] at hinv
        · exact Single.other h.inv ht (answer_clock ha) (effect_of_answer h.permits ha)
    · rcases (exec_cases h.exec).2 with ⟨err, -, -, rfl, rfl⟩ | ⟨-, ha⟩
      · exact drawnName_error h.loc
      · exact drawnName_effect h.loc (effect_of_answer h.permits ha)
  stable _ _ _ _ _ _ _ _ _ _ _ _ _ _ hk := hk
  start c t _ hc := by
    refine ⟨trivial, ?_, drawnName_start t⟩
    change Single k c.store (holding (stage k t (Phase.start t)) + _)
    rw [stage_start, holding_none_add]
    exact hc.1
  allows c i o p cmd q hok _ hp hprog ht := by
    obtain ⟨hworks, halone⟩ := hok p hp ht
    refine ⟨hworks, fun hm b hb => ?_⟩
    have hfree := halone cmd (by simp [nextCmd, hp, hprog]) hm
    refine ⟨?_, fun id => ?_, fun id => ?_⟩
    · refine free_of_alone hfree hb (fun l d hl => ?_) fun _ _ _ => rfl
      cases l <;> simp_all [stageIn, onItsWay]
    · refine free_of_alone hfree hb (fun l d hl => ?_) fun _ _ _ => rfl
      cases l <;> simp_all [stageIn, onItsWay]
    · refine free_of_alone hfree hb (fun l d hl => ?_) fun _ _ _ => rfl
      cases l <;> simp_all [stageIn, onItsWay]
  drift c d s' hok hc hd := by
    refine ⟨?_, fun _ _ _ hk => hk⟩
    cases d with
    | crash w =>
        cases hd
        exact hc.1.frame rfl rfl Iff.rfl
    | pass ms =>
        cases hd
        -- the condition excludes that the entry expires
        rcases hc.1 with h | ⟨j, h⟩
        · exact Or.inl ⟨h.rowed, h.stored, h.knowing, h.created, h.published, h.entry, h.key, h.alone⟩
        · refine Or.inr ⟨j, h.name, h.created, h.published, h.stored, h.knowing, ?_, h.early, h.key⟩
          rcases h.entry with hnone | hget
          · exact Or.inl hnone
          · exact Or.inr (get_later hget hok)

end Step

section Result

variable {env : Env} {c₀ c : State} {k : String}

/-- A task counts for no event by what it holds. -/
theorem holding_stage {t : Task} {l : Phase} {x : Stage}
    (hin : ∀ b l, stageIn b l ≠ some x) : holding (stage k t l) x = 0 := by
  unfold holding stage
  refine if_neg fun h => ?_
  split at h
  · exact hin _ _ h
  · cases h

/-- A call with the key that has returned an id still holds it. -/
theorem stage_of_returned (hc : (deduplication env k).PoolOk c) {p : Process} (hp : p ∈ c.pool)
    (ht : keyOf p.task = some k) {r : Option JobId} (hr : p.prog = .ret r) :
    ∃ id, r = some id ∧ ((∃ b, 0 < (deduplication env k).total c.pool (.stored b id)) ∨
      0 < (deduplication env k).total c.pool (.knowing id)) := by
  obtain ⟨i, hi⟩ := List.mem_iff_getElem?.mp hp
  obtain ⟨F, hF⟩ := exists_sum_mem (deduplication env k).gauge hi
  have hheld : ∀ x, stage k p.task ((custody env).phase p.task p.hist) = some x →
      0 < (deduplication env k).total c.pool x := by
    intro x hx
    rw [Discipline.total, hF, Discipline.gauge]
    change 0 < (holding (stage k p.task ((custody env).phase p.task p.hist)) + _ + F) x
    rw [hx]
    simp
  have hfol := (hc.2 p hp).2.2
  rw [hr] at hfol
  have hcall : ∃ n v o, p.task = .enqueue n v o := by
    cases htask : p.task with
    | enqueue n v o => exact ⟨n, v, o, rfl⟩
    | _ =>
        rw [htask] at ht
        cases ht
  obtain ⟨n, v, o, htask⟩ := hcall
  rw [htask] at hfol
  obtain ⟨id, hid, hl⟩ := hfol
  refine ⟨id, hid, ?_⟩
  rcases hl with hl | hl
  · refine Or.inl ⟨delays p.task, hheld _ ?_⟩
    rw [stage_of_key ht, htask, hl]
    rfl
  · refine Or.inr (hheld _ ?_)
    rw [stage_of_key ht, htask, hl]
    rfl

/-- **One job for a key.**  From any stores that know nothing of the key, in every run in
which calls with the key do not overlap, unless they are all immediate: at most one job
is created for the key, in Postgres and in Redis, and every call with the key that
returns returns its id. -/
theorem one_job_per_key (hpool : c₀.pool = [])
    (hentry : c₀.store.redis.strings (redisKeys.idempotency k) = none)
    (hkey : ¬ c₀.store.pg.hasKey k) (hc : (machine env).Reach (Separate env k) (· = c₀) c) :
    ∃ j, (∀ id, creations env c k id ≤ if id = j then 1 else 0) ∧
      (∀ id, publications env c k id ≤ if id = j then 1 else 0) ∧
      ∀ p ∈ c.pool, keyOf p.task = some k → ∀ r, p.prog = .ret r → r = some j := by
  have hinit : ∀ c, c = c₀ → (deduplication env k).PoolOk c := by
    rintro c rfl
    rw [Discipline.PoolOk, hpool]
    exact ⟨Or.inl ⟨fun _ _ => rfl, fun _ _ => rfl, fun _ => rfl, fun _ => rfl, fun _ => rfl, hentry,
      hkey, Or.inl rfl⟩, by simp⟩
  have hc' := deduplication_sound.reach hinit hc
  have hcreated : ∀ id, (deduplication env k).total c.pool (.created id) = creations env c k id :=
    fun id => (deduplication env k).total_eq_counted _
      (fun t l => holding_stage fun b l => by cases l <;> simp [stageIn]) (fun _ _ _ _ => rfl) _
  have hpublished :
      ∀ id, (deduplication env k).total c.pool (.published id) = publications env c k id :=
    fun id => (deduplication env k).total_eq_counted _
      (fun t l => holding_stage fun b l => by cases l <;> simp [stageIn]) (fun _ _ _ _ => rfl) _
  rcases hc'.1 with h | ⟨j, h⟩
  · refine ⟨"", fun id => ?_, fun id => ?_, fun p hp ht r hr => ?_⟩
    · rw [← hcreated, h.created]
      exact Nat.zero_le _
    · rw [← hpublished, h.published]
      exact Nat.zero_le _
    · obtain ⟨id, -, hpos⟩ := stage_of_returned hc' hp ht hr
      rcases hpos with ⟨b, hpos⟩ | hpos
      · rw [h.stored] at hpos
        omega
      · rw [h.knowing] at hpos
        omega
  · refine ⟨j, fun id => ?_, fun id => ?_, fun p hp ht r hr => ?_⟩
    · rw [← hcreated, h.created]
    · rw [← hpublished]
      have hle := h.published id
      omega
    · obtain ⟨id, rfl, ⟨b, hpos⟩ | hpos⟩ := stage_of_returned hc' hp ht hr
      · rw [h.stored b id hpos]
      · rw [h.knowing id hpos]

/-- The theorem on two immediate calls that overlap: the index refuses the row of the
second one. -/
theorem one_job_per_key_overlapping :
    ∃ c, (machine sample).Reach (Separate sample "k") (· = blank) c ∧
      (∃ p ∈ c.pool, keyOf p.task = some "k" ∧
        outcome p = some (.error (.uniqueViolation "idx_jobs_idempotency_key"))) ∧
      ∃ j, (∀ id, creations sample c "k" id ≤ if id = j then 1 else 0) ∧
        (∀ id, publications sample c "k" id ≤ if id = j then 1 else 0) ∧
        ∀ p ∈ c.pool, keyOf p.task = some "k" → ∀ r, p.prog = .ret r → r = some j := by
  obtain ⟨c, hc, ht⟩ := Machine.exists_reach (machine sample) (Separate sample "k") (· = blank) rfl
    ([.start keyed, .start keyed] ++ goes 0 1 ++ goes 1 1 ++ [.call 0 (.fresh j1)] ++ goes 0 2 ++
      [.call 1 (.fresh j2)] ++ goes 1 2 ++ goes 0 4)
    (fun c => decide (∃ p ∈ c.pool, keyOf p.task = some "k" ∧
      outcome p = some (.error (.uniqueViolation "idx_jobs_idempotency_key"))))
    (by decide +kernel)
  exact ⟨c, hc, of_decide_eq_true ht, one_job_per_key rfl rfl (by decide) hc⟩

/-- A call with the key and a delay. -/
def keyedLater : Task :=
  .enqueue "send" (some .null) { idempotencyKey := some "k", delay := some 1000 }

/-- Two delayed calls that overlap create two jobs. -/
theorem two_jobs_for_key :
    ∃ c, (machine sample).Reach Reliable (· = blank) c ∧
      (creations sample c "k" j1.text = 1 ∧ creations sample c "k" j2.text = 1) ∧
      (publications sample c "k" j1.text = 1 ∧ publications sample c "k" j2.text = 1) ∧
      (∃ p ∈ c.pool, keyOf p.task = some "k" ∧ outcome p = some (.ok (some j1.text))) ∧
      ∃ p ∈ c.pool, keyOf p.task = some "k" ∧ outcome p = some (.ok (some j2.text)) := by
  obtain ⟨c, hc, ht⟩ := Machine.exists_reach (machine sample) Reliable (· = blank) rfl
    ([.start keyedLater, .start keyedLater] ++ goes 0 1 ++ goes 1 1 ++
      [.call 0 (.fresh j1)] ++ goes 0 7 ++ [.call 1 (.fresh j2)] ++ goes 1 7)
    (fun c => decide ((creations sample c "k" j1.text = 1 ∧ creations sample c "k" j2.text = 1) ∧
      (publications sample c "k" j1.text = 1 ∧ publications sample c "k" j2.text = 1) ∧
      (∃ p ∈ c.pool, keyOf p.task = some "k" ∧ outcome p = some (.ok (some j1.text))) ∧
      ∃ p ∈ c.pool, keyOf p.task = some "k" ∧ outcome p = some (.ok (some j2.text))))
    (by decide +kernel)
  exact ⟨c, hc, of_decide_eq_true ht⟩

end Result

end Deduplication

end NexusQueue
