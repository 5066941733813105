/-
# The tally of a job

How often a job has been tried is counted twice: a call that begins an attempt adds one in
the row of the job and writes one more than it has read into the hash.  The limit is looked
at only after a failure.

In a run in which nothing fails both counters are exact.  The processes hold parts in the
jobs (`Role`): a token of `Account`, told by what a call has already reported.  The attempts
counted in hashes and the runs of handlers are emitted with the numbers they carry (`Mark`).
`Tally` says how many attempts a job has had, where they show, and what is left of its limit;
`Turn` lists what a command of a call does to its part.  A command of another process keeps
the tally of the job (`Moves.other`), and a command of a call keeps it or counts one attempt
more (`Moves.call`).
-/
import NexusQueue.Pace
import NexusQueue.Lifecycle
import NexusQueue.Agreement

namespace NexusQueue

namespace Attempts

open Ownership (Token Balanced token startsWith completed owned calm Owner)

/-! ## Parts -/

/-- What part a process has in a job: a scheduler has it in its hands; a loop or a call has
not begun with it, has counted the attempt in the row, has counted it in the hash, or has
made it; a call has moved it. -/
inductive Role where
  | hand
  | idle (w : WorkerId)
  | counted (w : WorkerId)
  | begun (w : WorkerId)
  | ran (w : WorkerId)
  | handed (w : WorkerId)
  deriving DecidableEq

/-- The worker on whose processing list the part claims an entry. -/
def Role.claims : Role → Option WorkerId
  | .idle w | .counted w | .begun w | .ran w => some w
  | _ => none

/-- The token that comes with a part in `j`. -/
def Role.token (j : JobId) : Role → Token
  | .hand => .hand j
  | .idle w | .counted w | .begun w | .ran w => .claim w j
  | .handed w => .handed w j

/-- What is counted: a part in a job, an attempt that the hash of a job has been told of,
and a run of a handler, the last two with their numbers. -/
inductive Mark where
  | part (jobId : JobId) (role : Role)
  | attempt (jobId : JobId) (number : ℚ)
  | run (jobId : JobId) (number : ℚ)
  deriving DecidableEq

/-- The part of a call. -/
def role (w : WorkerId) : Report → Option Role
  | .fresh | .read _ => some (.idle w)
  | .counted _ => some (.counted w)
  | .begun _ => some (.begun w)
  | .succeeded | .failed | .judging _ | .timed _ _ => some (.ran w)
  | .closing .completed | .closed .completed | .moved _ => some (.handed w)
  | .closing _ | .closed _ => some (.ran w)
  | .done _ | .owes _ | .lost => none

/-- The part of a process. -/
def part : Task → Phase × Report → Option Mark
  | .tick, (.inHand _ _ j _ _, _) => some (.part j .hand)
  | .loop w, (.pulled j, _) => some (.part j (.idle w))
  | .processOne w _ j, (_, d) => (role w d).map (.part j)
  | _, _ => none

/-- The number under which an event counts an attempt of `j` in the hash. -/
def begins (j : JobId) : Task → Event Cmd Cmd.Resp Err → Option ℚ
  | .processOne _ _ i, ⟨.write (.hset _ f), .ok _⟩ =>
      if i = j then f.attempts.bind Numeral.toNumber else none
  | _, _ => none

/-- The number of the attempt of `j` that an event has run a handler for. -/
def handles (j : JobId) : Task → Event Cmd Cmd.Resp Err → Option ℚ
  | .processOne _ _ i, ⟨.handler _ _ a, _⟩ => if i = j then a else none
  | _, _ => none

/-- What an event counts for. -/
def emits (t : Task) (e : Event Cmd Cmd.Resp Err) : Mark → ℕ
  | .part _ _ => 0
  | .attempt j k => if begins j t e = some k then 1 else 0
  | .run j k => if handles j t e = some k then 1 else 0

/-- The tokens that come with the parts. -/
def tokens (g : Mark → ℕ) : Token → ℕ
  | .hand j => g (.part j .hand)
  | .claim w j => g (.part j (.idle w)) + g (.part j (.counted w)) + g (.part j (.begun w)) +
      g (.part j (.ran w))
  | .handed w j => g (.part j (.handed w))

section Parts

variable {env : Env} {s s' : World} {t : Task} {l : Phase} {d : Report} {w : WorkerId} {n : ℕ}
  {j : JobId} {g F : Mark → ℕ} {r : Role}

theorem tokens_add (g g' : Mark → ℕ) : tokens (g + g') = tokens g + tokens g' := by
  funext k
  cases k with
  | claim w j =>
      simp only [tokens, Pi.add_apply]
      omega
  | _ => rfl

/-- What brings no part brings no token. -/
theorem tokens_eq_zero (h : ∀ j r, g (.part j r) = 0) : tokens g = 0 := by
  funext k
  cases k <;> simp [tokens, h]

theorem tokens_none : tokens (holding none) = 0 :=
  tokens_eq_zero fun _ _ => by simp

theorem tokens_emits (e : Event Cmd Cmd.Resp Err) : tokens (emits t e) = 0 :=
  tokens_eq_zero fun _ _ => rfl

/-- One part brings its token. -/
theorem tokens_part (j : JobId) (r : Role) :
    tokens (holding (some (.part j r))) = holding (some (r.token j)) := by
  funext k
  cases r <;> cases k <;> simp [tokens, Role.token, ← and_comm]

/-- The token of a call in step. -/
theorem token_role (h : Paced l d) :
    token (.processOne w n j) l = (role w d).map (Role.token j) := by
  rcases Pace.paced_cases h with ⟨rfl, rfl⟩ | ⟨⟨f, rfl⟩, hd⟩ | ⟨rfl, rfl | rfl | ⟨v, rfl⟩⟩ |
    ⟨rfl | rfl, v, rfl⟩
  · rfl
  · -- a call that has claimed its job
    cases d with
    | closing v => cases v <;> first | rfl | exact absurd rfl hd
    | closed v => cases v <;> first | rfl | exact absurd rfl hd
    | _ => first | rfl | exact hd.elim
  all_goals rfl

/-- What a process relies on: a call is in step, its verdict is sound, and its job is as it
has read it. -/
def knows : Task → Phase × Report → World → Prop
  | .processOne _ _ j, (l, d), s => Paced l d ∧ d.sound ∧ Pace.Recalls s j d
  | _, _, _ => True

/-- The part of a process brings the token of its phase. -/
theorem tokens_of_part {x : Phase × Report} (h : knows t x s) :
    tokens (holding (part t x)) = holding (token t x.1) := by
  obtain ⟨l, d⟩ := x
  have none : part t (l, d) = none → token t l = none →
      tokens (holding (part t (l, d))) = holding (token t l) := by
    intro hpart htoken
    rw [hpart, htoken, tokens_none, holding_none]
  cases t with
  | tick => cases l <;> first | exact none rfl rfl | exact tokens_part _ _
  | loop w => cases l <;> first | exact none rfl rfl | exact tokens_part _ _
  | processOne w n j =>
      show tokens (holding ((role w d).map (.part j))) = holding (token (.processOne w n j) l)
      rw [token_role h.1]
      cases role w d with
      | none => exact tokens_none.trans holding_none.symm
      | some r => exact tokens_part j r
  | _ => exact none rfl rfl

/-- A part is counted by the token it brings. -/
theorem le_tokens (h : r.claims = some w) : g (.part j r) ≤ tokens g (.claim w j) := by
  cases r <;> cases h
  all_goals
    simp only [tokens]
    omega

/-- A part that claims its job is the only one. -/
theorem alone (h : Balanced s (tokens (holding (some (.part j r)) + F))) (hr : r.claims = some w)
    {r' : Role} {w' : WorkerId} (hr' : r'.claims = some w') : F (.part j r') = 0 := by
  have hown : tokens (holding (some (.part j r)) + F) (.claim w j) = 1 + tokens F (.claim w j) := by
    have hclaim : r.token j = .claim w j := by
      cases r <;> cases hr <;> rfl
    rw [tokens_add, tokens_part, hclaim, Pi.add_apply, holding_some, if_pos rfl]
  have hpos : 0 < tokens (holding (some (.part j r)) + F) (.claim w j) := by omega
  have hone := Pace.claims_le_one h hpos w'
  have hle := le_tokens (g := F) (j := j) hr'
  rw [tokens_add, Pi.add_apply] at hone
  by_cases hw : w' = w
  · subst hw
    rw [tokens_add, Pi.add_apply] at hown
    rw [if_pos rfl] at hone
    omega
  · rw [if_neg hw] at hone
    omega

/-- A claimed job is on the processing list of its worker. -/
theorem owned_of_claims (h : Balanced s (tokens (holding (some (.part j r)) + F)))
    (hr : r.claims = some w) :
    0 < owned s (tokens (holding (some (.part j r)) + F)) j (.processing w) := by
  have hle := le_tokens (g := holding (some (.part j r)) + F) (j := j) hr
  have hcov := h.covered w j
  simp only [Pi.add_apply, holding_some, if_pos] at hle
  simp only [owned]
  omega

/-- Only published jobs are claimed. -/
theorem enqueued_of_claims (h : Balanced s (tokens (holding (some (.part j r)) + F)))
    (hr : r.claims = some w) : s.enqueued j :=
  ((h.placed j).eq_single (owned_of_claims h hr)).1

end Parts

/-! ## What a call does to its part -/

/-- Commands that count no attempt and run no handler. -/
def silent : Cmd → Prop
  | .update _ p => p.countAttempt = false
  | .write (.hset _ f) => f.attempts = none
  | .handler _ _ _ => False
  | _ => True

/-- Everything a command of a call can do to its part. -/
inductive Turn (w : WorkerId) (j : JobId) : Report → Cmd → Report → Prop
  | stay {d c d'} : silent c → (∀ k v, c ≠ .write (.lpush k v)) → role w d' = role w d →
      Turn w j d c d'
  | count {h} : Turn w j (.read h) (.update j activePatch) (.counted h)
  | release {h ws} : Turn w j (.read h) (.multi ws) (.done none)
  | begin {h k f} : f.attempts = some (Worker.nextAttempt h.attempts) →
      Turn w j (.counted h) (.write (.hset k f)) (.begun h)
  | run {h name v a d'} : a = h.tried.map (· + 1) → role w d' = some (.ran w) →
      Turn w j (.begun h) (.handler name v a) d'
  | skip {h k h'} : Turn w j (.begun h) (.hgetall k) (.judging h')
  | complete : Turn w j .succeeded (.update j Verdict.completed.patch) (.closing .completed)
  | bury {h m k v} : Turn w j (.closed (.dead h m)) (.write (.lpush k v)) (.moved (.dead h m))
  | retry {h now k score v} :
      Turn w j (.closed (.again h now)) (.write (.zadd k score v)) (.moved (.again h now))
  | ack {d k i m v} : role w d = some (.handed w) →
      Turn w j d (.write (.lrem k i m)) (.done v)

section Turns

variable {env : Env} {s s' : World} {w : WorkerId} {n : ℕ} {j : JobId} {l l' : Phase} {d : Report}
  {c : Cmd} {ts : List Task}

/-- A command of a call that is answered takes its turn. -/
theorem turn_ok (hlost : d ≠ .lost) (hd : d.permits j c) (a : c.Resp) :
    Turn w j d c (d.onCall c a) := by
  cases c with
  | update i p =>
      obtain ⟨rfl, ⟨⟨h, rfl⟩, rfl⟩ | ⟨v, hv, rfl⟩⟩ := Report.permits_update hd hlost
      · exact .count
      · cases v with
        | completed => cases d <;> first | exact hv.elim | exact .complete
        | dead h m => cases d <;> first | exact hv.elim | exact .stay rfl (by simp) rfl
        | again h now => cases d <;> first | exact hv.elim | exact .stay rfl (by simp) rfl
  | multi ws =>
      obtain ⟨h, rfl⟩ := Report.permits_multi hd hlost
      exact .release
  | handler name v x =>
      obtain ⟨h, rfl, hx⟩ := Report.permits_handler hd hlost
      exact .run hx rfl
  | hgetall k => cases d <;> first | exact .skip | exact .stay trivial (by simp) rfl
  | now => cases d <;> exact .stay trivial (by simp) rfl
  | write x =>
      cases x with
      | hset k f =>
          obtain ⟨-, ⟨⟨h, rfl, hf⟩, -⟩ | ⟨v, rfl, hf, -⟩⟩ := Report.permits_hset hd hlost
          · exact .begin hf
          · refine .stay hf (by simp) ?_
            cases v <;> rfl
      | zadd k score m =>
          obtain ⟨h, now, b, rfl, -⟩ := Report.permits_zadd hd hlost
          exact .retry
      | lpush k m =>
          obtain ⟨h, e, rfl⟩ := Report.permits_lpush hd hlost
          exact .bury
      | lrem k i m =>
          rcases Report.permits_lrem hd hlost with rfl | ⟨v, rfl⟩
          · exact .ack rfl
          · exact .ack rfl
      | _ => cases d <;> exact .stay trivial (by simp) rfl
  | _ => cases d <;> exact .stay trivial (by simp) rfl

/-- **Step lemma.**  Every command of a call in step takes its turn. -/
theorem turn_of_effect {r : Except Err c.Resp} (hl : Paced l d) (hd : d.permits j c)
    (he : Effect env s (.processOne w n j) l c r s' l' ts) :
    Turn w j d c (report.next (.processOne w n j) d c r) := by
  have hlost := Pace.ne_lost hl
  cases r with
  | ok a => exact turn_ok hlost hd a
  | error e =>
      cases he with
      | handler =>
          obtain ⟨h, rfl, hx⟩ := Report.permits_handler hd hlost
          exact .run hx rfl
      | insertFails hc => exact hc.elim
      | cronFails ht => exact ht.elim

end Turns

/-! ## The tally of a job -/

/-- The limit of a job, as `handleFailure` reads it. -/
def limit (s : World) (j : JobId) : Option ℚ :=
  Worker.numberOr (s.redis.jobs (redisKeys.job j)).maxAttempts 3

/-- The numbers of the first `n` attempts. -/
def numbers (n : ℕ) : List ℚ := (List.range' 1 n).map (↑)

theorem numbers_succ (n : ℕ) : numbers (n + 1) = numbers n ++ [(n : ℚ) + 1] := by
  rw [numbers, List.range'_1_concat, List.map_append]
  simp [numbers, add_comm]

theorem count_next (n : ℕ) : (numbers n).count ((n : ℚ) + 1) = 0 := by
  refine List.count_eq_zero.mpr fun hmem => ?_
  obtain ⟨i, hi, heq⟩ := List.mem_map.mp hmem
  rw [List.mem_range'_1] at hi
  have hin : i = n + 1 := by exact_mod_cast heq
  omega

theorem count_last {n : ℕ} (h : 1 ≤ n) : (numbers n).count (n : ℚ) = 1 := by
  obtain ⟨i, rfl⟩ : ∃ i, n = i + 1 := ⟨n - 1, by omega⟩
  rw [numbers_succ, List.count_append, Nat.cast_succ, count_next]
  simp

/-- A call has counted an attempt in the row, and not in the hash. -/
def Counting (g : Mark → ℕ) (j : JobId) : Prop := ∃ w, 0 < g (.part j (.counted w))

/-- A call has counted an attempt in the hash, and not moved the job. -/
def Tried (g : Mark → ℕ) (j : JobId) : Prop :=
  ∃ w, 0 < g (.part j (.begun w)) + g (.part j (.ran w))

/-- The job is dead or completed. -/
def Over (s : World) (j : JobId) : Prop :=
  (∃ q, j ∈ s.redis.lists (redisKeys.dlq q)) ∨ completed s j = true

/-- Of `m` attempts `n` have been made: there are some left unless the last one is going
on or the job is dead or completed, and it is dead only without any left. -/
structure Budget (s : World) (g : Mark → ℕ) (j : JobId) (n m : ℕ) : Prop where
  le : n ≤ m
  spent : n = m → Tried g j ∨ Over s j
  dead : ∀ q, j ∈ s.redis.lists (redisKeys.dlq q) → n = m

/-- The job has been tried `n` times. -/
structure Tally (s : World) (g : Mark → ℕ) (j : JobId) (n : ℕ) : Prop where
  tried : (s.redis.jobs (redisKeys.job j)).tried = some (n : ℚ)
  attempts : ∀ k, g (.attempt j k) = (numbers n).count k
  runs : ∀ k, g (.run j k) ≤ g (.attempt j k)
  pos : Tried g j → 1 ≤ n
  fresh : ∀ w, 0 < g (.part j (.begun w)) → g (.run j n) = 0
  row : ∀ row, s.pg.row? j = some row →
    Counting g j ∧ row.attempts = n + 1 ∨ ¬ Counting g j ∧ row.attempts = n
  budget : ∀ m : ℕ, 1 ≤ m → limit s j = some (m : ℚ) → Budget s g j n m

section Tallies

variable {env : Env} {s s' : World} {t : Task} {w : WorkerId} {n : ℕ} {j : JobId} {l l' : Phase}
  {d : Report} {c : Cmd} {r : Except Err c.Resp} {ts : List Task} {g g' F : Mark → ℕ}

/-- Neither record of the job is told of an attempt. -/
structure Untold (s s' : World) (j : JobId) : Prop where
  identity : (s'.redis.jobs (redisKeys.job j)).SameIdentity (s.redis.jobs (redisKeys.job j))
  hash : (s'.redis.jobs (redisKeys.job j)).attempts = (s.redis.jobs (redisKeys.job j)).attempts
  row : ∀ row', s'.pg.row? j = some row' →
    ∃ row, s.pg.row? j = some row ∧ row'.attempts = row.attempts

theorem limit_same
    (h : (s'.redis.jobs (redisKeys.job j)).SameIdentity (s.redis.jobs (redisKeys.job j))) :
    limit s' j = limit s j := by
  rw [limit, limit, h.maxAttempts]

/-- No attempt is counted and no handler is run. -/
structure Unmarked (g g' : Mark → ℕ) (j : JobId) : Prop where
  attempt : ∀ k, g' (.attempt j k) = g (.attempt j k)
  run : ∀ k, g' (.run j k) = g (.run j k)

/-- The parts of the calls that have begun with the job are what they were, or have come
further. -/
structure Onward (g g' : Mark → ℕ) (j : JobId) : Prop where
  counting : Counting g' j ↔ Counting g j
  begun : ∀ w, g' (.part j (.begun w)) ≤ g (.part j (.begun w))
  tried : Tried g' j → Tried g j

/-- Nothing is counted. -/
theorem Tally.keep (h : Tally s g j n) (hs : Untold s s' j) (hm : Unmarked g g' j)
    (hg : Onward g g' j)
    (hspent : Tried g j ∨ Over s j →
      (Tried g' j ∨ Over s' j) ∨ ∀ m : ℕ, limit s j = some (m : ℚ) → n < m)
    (hdead : ∀ q, j ∈ s'.redis.lists (redisKeys.dlq q) → j ∈ s.redis.lists (redisKeys.dlq q) ∨
      ∀ m : ℕ, limit s j = some (m : ℚ) → m ≤ n) : Tally s' g' j n where
  tried := (Pace.tried_congr hs.hash).trans h.tried
  attempts k := (hm.attempt k).trans (h.attempts k)
  runs k := by
    rw [hm.run, hm.attempt]
    exact h.runs k
  pos ht := h.pos (hg.tried ht)
  fresh w hw := by
    rw [hm.run]
    exact h.fresh w (hw.trans_le (hg.begun w))
  row row' hrow' := by
    obtain ⟨row, hrow, heq⟩ := hs.row row' hrow'
    rw [heq, hg.counting]
    exact h.row row hrow
  budget m hpos hlim := by
    rw [limit_same hs.identity] at hlim
    obtain ⟨hle, hfull, hold⟩ := h.budget m hpos hlim
    refine ⟨hle, fun heq => ?_, fun q hq => ?_⟩
    · rcases hspent (hfull heq) with hdone | hlt
      · exact hdone
      · exact absurd heq (hlt m hlim).ne
    · rcases hdead q hq with hq | hge
      · exact hold q hq
      · exact hle.antisymm (hge m hlim)

/-- A job that has some attempts left. -/
theorem Tally.lt (h : Tally s g j n) {m : ℕ} (hpos : 1 ≤ m) (hlim : limit s j = some (m : ℚ))
    (hnot : ¬ (Tried g j ∨ Over s j)) : n < m := by
  obtain ⟨hle, hfull, -⟩ := h.budget m hpos hlim
  exact hle.lt_of_ne fun heq => hnot (hfull heq)

/-- What is dead or completed stays so. -/
theorem over_kept {T T' : Token → ℕ} (h : Lifecycle.Shifts s s' T T') (hb : Balanced s T)
    (hj : Over s j) : Over s' j := by
  have final : ∀ o, (∀ o', ¬ Lifecycle.Leg (some o) o') → 0 < owned s T j o →
      0 < owned s' T' j o := by
    intro o hfinal ho
    rcases h with hall | ⟨i, a, b, hleg, hnone, hsome, -, hrest⟩
    · rwa [(hall j).owned]
    · by_cases hij : j = i
      · subst hij
        cases a with
        | none => exact absurd ((hb.placed j).eq_single ho).1 (hnone rfl)
        | some o' =>
            by_cases ho' : o' = o
            · exact absurd hleg (ho' ▸ hfinal b)
            · have hpos := hsome o' rfl
              have hzero := hb.unique ho o' ho'
              omega
      · rwa [(hrest j hij).owned]
  rcases hj with ⟨q, hq⟩ | hcompleted
  · refine Or.inl ⟨q, ?_⟩
    exact List.count_pos_iff.mp (final _ (Lifecycle.dlq_final q) (List.count_pos_iff.mpr hq))
  · have hpos := final _ Lifecycle.completed_final (by simp [owned, hcompleted])
    refine Or.inr ?_
    simpa [owned, Nat.pos_iff_ne_zero] using hpos

/-- A job dies by a command of its call. -/
theorem dead_of_effect (hop : ¬ t.operator) (hk : calm t l) (hi : Identity.knows AsPrinted t l s)
    (he : Effect env s t l c r s' l' ts) {q : QueueName}
    (hj : j ∈ s'.redis.lists (redisKeys.dlq q)) : j ∈ s.redis.lists (redisKeys.dlq q) ∨
      ∃ w n k, t = .processOne w n j ∧ c = .write (.lpush k j) := by
  have pushed : ∀ {s₁ : World} {x : String} {v : String},
      j ∈ (s₁.push (.queue x) v).redis.lists (redisKeys.dlq q) →
      j ∈ s₁.redis.lists (redisKeys.dlq q) := by
    intro s₁ x v h
    simpa using h
  cases he with
  | still hn hf hw => exact Or.inl (hf.dlq q ▸ hj)
  | @publishReady t id q' p f hc hid hq hpr =>
      obtain ⟨x, hx⟩ := exists_targetList q' p
      rw [hx] at hj
      exact Or.inl (pushed hj)
  | @promote now q' i k todo =>
      obtain ⟨x, hx⟩ := exists_targetList q'
        ((s.redis.jobs (redisKeys.job i)).priority.getD "normal")
      obtain rfl : k = .queue x := (hi.2 k rfl).trans hx
      exact Or.inl (pushed hj)
  | @pushBack w n i h =>
      obtain ⟨x, hx⟩ := exists_targetList (h.queueName.getD (env.queue w))
        (h.priority.getD "normal")
      rw [hx] at hj
      exact Or.inl (by simpa using hj)
  | @bury w n i h =>
      by_cases hij : j = i
      · subst hij
        exact Or.inr ⟨w, n, _, rfl, rfl⟩
      · by_cases hq : q = h.queueName.getD "default"
        · subst hq
          exact Or.inl (by simpa [hij] using hj)
        · exact Or.inl (by simpa [hq] using hj)
  | brokenBury | pushOrphan => cases hk
  | place ht => exact absurd ht hop
  | lift ht => exact absurd ht hop
  | pull hc hv hp => exact Or.inl (by simpa using hj)
  | ack | brokenAck => exact Or.inl (by simpa using hj)
  | dropHeartbeat | dropList => exact Or.inl (by simpa [Write.apply] using hj)
  | _ => exact Or.inl hj

end Tallies

/-! ## A process moves -/

/-- A part in a job that a call has begun with. -/
def Role.working : Role → Prop
  | .counted _ | .begun _ | .ran _ => True
  | _ => False

theorem Role.claims_of_working {r : Role} (h : r.working) : ∃ w, r.claims = some w := by
  cases r <;> first | exact h.elim | exact ⟨_, rfl⟩

/-- What the tasks a command starts have a part in. -/
def starts (ts : List Task) : Mark → ℕ :=
  (ts.map fun t => holding (part t (Phase.start t, .fresh))).sum

/-- What is held and has been counted after an event: the part of the process in its next
phase, what the event counts for, what the tasks it starts have a part in, and the rest. -/
def after (t : Task) (x : Phase × Report) (e : Event Cmd Cmd.Resp Err) (ts : List Task)
    (F : Mark → ℕ) : Mark → ℕ :=
  holding (part t x) + (emits t e + (starts ts + F))

section Marks

variable {t : Task} {x : Phase × Report} {e : Event Cmd Cmd.Resp Err} {ts : List Task}
  {w : WorkerId} {j : JobId} {k : ℚ} {r : Role} {g g' F : Mark → ℕ} {o : Option Role}

/-- Only calls of a job begin an attempt. -/
theorem begins_other (hne : ∀ w n, t ≠ .processOne w n j) (e : Event Cmd Cmd.Resp Err) :
    begins j t e = none := by
  unfold begins
  split
  · rename_i w n i k f u
    exact if_neg fun hij => hne w n (by rw [hij])
  · rfl

/-- Only calls of a job run its handler. -/
theorem handles_other (hne : ∀ w n, t ≠ .processOne w n j) (e : Event Cmd Cmd.Resp Err) :
    handles j t e = none := by
  unfold handles
  split
  · rename_i w n i name v a u
    exact if_neg fun hij => hne w n (by rw [hij])
  · rfl

theorem part_attempt (t : Task) (x : Phase × Report) : part t x ≠ some (.attempt j k) := by
  obtain ⟨l, d⟩ := x
  cases t with
  | processOne w n i => simp [part]
  | _ => cases l <;> simp [part]

theorem part_run (t : Task) (x : Phase × Report) : part t x ≠ some (.run j k) := by
  obtain ⟨l, d⟩ := x
  cases t with
  | processOne w n i => simp [part]
  | _ => cases l <;> simp [part]

/-- A task starts without a part, or idle. -/
theorem part_start (t : Task) :
    part t (Phase.start t, .fresh) = none ∨
      ∃ j w, part t (Phase.start t, .fresh) = some (.part j (.idle w)) := by
  cases t with
  | processOne w n j => exact Or.inr ⟨j, w, rfl⟩
  | requeue q b => exact Or.inl rfl
  | _ => exact Or.inl rfl

/-- What tasks start with is idle. -/
theorem starts_apply (ts : List Task) {m : Mark} (hm : ∀ j w, m ≠ .part j (.idle w)) :
    starts ts m = 0 := by
  induction ts with
  | nil => rfl
  | cons t ts ih =>
      have hhead : holding (part t (Phase.start t, .fresh)) m = 0 := by
        rcases part_start t with h | ⟨j, w, h⟩
        · rw [h, holding_none]
          rfl
        · rw [h, holding_some, if_neg (Ne.symm (hm j w))]
      show (holding (part t (Phase.start t, .fresh)) + starts ts) m = 0
      rw [Pi.add_apply, hhead, ih]

theorem tokens_starts (ts : List Task) : tokens (starts ts) = startsWith ts := by
  induction ts with
  | nil => exact tokens_eq_zero fun _ _ => rfl
  | cons t ts ih =>
      have hhead : tokens (holding (part t (Phase.start t, .fresh))) =
          holding (token t (Phase.start t)) := by
        refine tokens_of_part (s := {}) (x := (Phase.start t, .fresh)) ?_
        cases t with
        | processOne w n j => exact ⟨rfl, trivial, fun _ _ h => by cases h⟩
        | _ => trivial
      show tokens (holding (part t (Phase.start t, .fresh)) + starts ts) =
        holding (token t (Phase.start t)) + startsWith ts
      rw [tokens_add, hhead, ih]

/-- The attempts that have been counted after an event. -/
theorem after_attempt :
    after t x e ts F (.attempt j k) = emits t e (.attempt j k) + F (.attempt j k) := by
  have hpart : holding (part t x) (.attempt j k) = 0 := if_neg (part_attempt t x)
  have hstarts := starts_apply ts (m := .attempt j k) (by simp)
  simp only [after, Pi.add_apply]
  omega

/-- The runs that have been counted after an event. -/
theorem after_run : after t x e ts F (.run j k) = emits t e (.run j k) + F (.run j k) := by
  have hpart : holding (part t x) (.run j k) = 0 := if_neg (part_run t x)
  have hstarts := starts_apply ts (m := .run j k) (by simp)
  simp only [after, Pi.add_apply]
  omega

/-- The parts of calls that have begun, after an event. -/
theorem after_part (hr : r.working) :
    after t x e ts F (.part j r) = (holding (part t x) + F) (.part j r) := by
  have hstarts := starts_apply ts (m := .part j r) fun j w hm => by
    cases hm
    exact hr
  have hemits : emits t e (.part j r) = 0 := rfl
  simp only [after, Pi.add_apply]
  omega

theorem counting_congr (h : ∀ r, r.working → g' (.part j r) = g (.part j r)) :
    Counting g' j ↔ Counting g j :=
  exists_congr fun w => by rw [h (.counted w) trivial]

theorem tried_congr (h : ∀ r, r.working → g' (.part j r) = g (.part j r)) :
    Tried g' j ↔ Tried g j :=
  exists_congr fun w => by rw [h (.begun w) trivial, h (.ran w) trivial]

/-- Where nobody has begun with the job. -/
theorem idle_of_unworked (h : ∀ r : Role, r.working → g (.part j r) = 0) :
    ¬ Counting g j ∧ ¬ Tried g j := by
  constructor
  · rintro ⟨w, hw⟩
    rw [h (.counted w) trivial] at hw
    exact absurd hw (lt_irrefl 0)
  · rintro ⟨w, hw⟩
    rw [h (.begun w) trivial, h (.ran w) trivial] at hw
    exact absurd hw (lt_irrefl 0)

/-- A part is held by the process or by another one. -/
theorem part_pos : 0 < (holding (o.map (Mark.part j)) + F) (.part j r) ↔
    o = some r ∨ 0 < F (.part j r) := by
  rw [Pi.add_apply, Nat.add_pos_iff_pos_or_pos]
  refine or_congr_left ?_
  cases o with
  | none => simp
  | some r' =>
      by_cases hr : r' = r
      · simp [hr]
      · simp [hr]

theorem counting_part :
    Counting (holding (o.map (Mark.part j)) + F) j ↔
      (∃ w, o = some (.counted w)) ∨ Counting F j := by
  rw [Counting, Counting, ← exists_or]
  exact exists_congr fun w => part_pos

theorem tried_part : Tried (holding (o.map (Mark.part j)) + F) j ↔
    (∃ w, o = some (.begun w) ∨ o = some (.ran w)) ∨ Tried F j := by
  rw [Tried, Tried, ← exists_or]
  refine exists_congr fun w => ?_
  rw [Nat.add_pos_iff_pos_or_pos, part_pos, part_pos, Nat.add_pos_iff_pos_or_pos]
  tauto

end Marks

/-! ## Steps -/

/-- A process moves in a run in which nothing fails; `F` is what all others hold, and what
has been counted. -/
structure Moves (env : Env) (s : World) (t : Task) (x : Phase × Report) (c : Cmd) (o : Oracle)
    (r : Except Err c.Resp) (s' : World) (F : Mark → ℕ) : Prop where
  hop : ¬ t.operator
  calm : calm t x.1
  fit : Identity.Fit AsPrinted s t x.1
  beats : ∀ w ∈ c.seeks, s.beats w
  permits : Permits env t x.1 c
  reports : report.permits t x.2 c
  answer : World.answer env s o c = some (r, s')
  known : knows t x s
  balanced : Balanced s (tokens (holding (part t x) + F))

section Step

variable {env : Env} {s s' : World} {t : Task} {x : Phase × Report} {c : Cmd} {o : Oracle}
  {r : Except Err c.Resp} {F : Mark → ℕ} {w : WorkerId} {n m : ℕ} {j : JobId}

/-- What is held and has been counted when a process has moved. -/
abbrev next (t : Task) (x : Phase × Report) (c : Cmd) (r : Except Err c.Resp) (F : Mark → ℕ) :
    Mark → ℕ :=
  after t (Phase.next t x.1 c r, report.next t x.2 c r) ⟨c, r⟩ (forks t c r) F

namespace Moves

theorem effect (h : Moves env s t x c o r s' F) :
    Effect env s t x.1 c r s' (Phase.next t x.1 c r) (forks t c r) :=
  effect_of_answer h.permits h.answer

theorem later (h : Moves env s t x c o r s' F) : Identity.Later s s' := by
  obtain ⟨⟨g, hco⟩, hk⟩ := h.fit
  exact (hco.effect asPrinted_of_printed hk
    (Identity.revives_nothing h.permits h.hop) h.effect).2.1

theorem tokens_eq (h : Moves env s t x c o r s' F) :
    tokens (holding (part t x) + F) = holding (token t x.1) + tokens F := by
  rw [tokens_add, tokens_of_part h.known]

theorem not_lost (h : Moves env s t x c o r s' F) :
    ∀ w n i, t = .processOne w n i → x.2 ≠ .lost := by
  rintro w n i rfl
  exact Pace.ne_lost h.known.1

/-- What is dead or completed stays so. -/
theorem over_next (h : Moves env s t x c o r s' F) (hj : Over s j) : Over s' j := by
  have hbal := h.balanced
  rw [h.tokens_eq] at hbal
  exact over_kept (Lifecycle.shifts_of_effect h.hop hbal h.calm h.fit h.beats h.effect) hbal hj

/-- The statements of a process name rows by uuids as Postgres prints them. -/
theorem printed_of_update (h : Moves env s t x c o r s' F) {id : JobId} {p : RowPatch}
    (hp : Permits env t x.1 (.update id p)) : Uuid.Printed id := by
  obtain ⟨⟨g, hco⟩, hk⟩ := h.fit
  exact hco.printed_of_update hk hp

/-- The id of a visible job. -/
theorem printed (h : Moves env s t x c o r s' F) (hj : s.enqueued j) : Uuid.Printed j := by
  obtain ⟨⟨g, hco⟩, -⟩ := h.fit
  exact hco.printed hj

/-- The row of a job changes by a statement of its call, or comes into being. -/
theorem row_cases (h : Moves env s t x c o r s' F) (j : JobId) :
    s'.pg.row? j = s.pg.row? j ∨ (∃ w n p, t = .processOne w n j ∧ c = .update j p) ∨
      ∃ row, c = .insert row ∧ row.id = j ∧ ¬ s.enqueued j := by
  have hperm := h.permits
  have hcalm := h.calm
  rcases Agreement.row_of_answer h.answer j with hsame | ⟨id, p, rfl⟩ | ⟨row, rfl, rfl⟩
  · exact Or.inl hsame
  · by_cases hj : j = id
    case neg =>
      cases h.answer
      exact Or.inl (by rw [Postgres.row?_update_printed (h.printed_of_update hperm), if_neg hj])
    subst hj
    refine Or.inr (Or.inl ?_)
    generalize x.1 = l at hperm hcalm
    cases hperm with
    | quiet hq => exact hq.elim
    | mark | complete => exact ⟨_, _, p, rfl, rfl⟩
    | brokenMark => exact hcalm.elim
    | resetRow => cases hcalm
    | resetRetry | resetRequeue => exact absurd trivial h.hop
  · refine Or.inr (Or.inr ⟨row, rfl, rfl, ?_⟩)
    have hfit := h.fit
    generalize x.1 = l at hperm hfit
    cases hperm with
    | quiet hq => exact hq.elim
    | insert hc hid => exact hid ▸ Pace.draft_new hc (Or.inl rfl) hfit

/-- The records of a job are told of an attempt only by its call. -/
theorem untold (h : Moves env s t x c o r s' F) (hj : s.enqueued j)
    (hset : ∀ w n f, t = .processOne w n j → c = .write (.hset (redisKeys.job j) f) →
      f.attempts = none)
    (hupdate : ∀ w n p, t = .processOne w n j → c = .update j p → p.countAttempt = false) :
    Untold s s' j where
  identity := h.later.identity j (.inl hj)
  hash := by
    rcases Pace.attempts_kept h.hop h.permits h.reports h.not_lost h.fit h.answer hj with
      hsame | ⟨w, n, f₀, f, ht, -, hc, hf⟩
    · exact hsame
    · rw [hset w n f ht hc] at hf
      cases hf
  row := by
    intro row' hrow'
    rcases h.row_cases j with hsame | ⟨w, n, p, ht, hc⟩ | ⟨row, -, -, hnew⟩
    · exact ⟨row', hsame ▸ hrow', rfl⟩
    · have hcount := hupdate w n p ht hc
      subst hc
      cases h.answer
      rw [Postgres.row?_update_printed (h.printed hj), if_pos rfl, Option.map_eq_some_iff] at hrow'
      obtain ⟨row, hrow, rfl⟩ := hrow'
      refine ⟨row, hrow, ?_⟩
      simp [JobRow.patch, hcount]
    · exact absurd hj hnew

/-- Nothing is counted for the job. -/
theorem unmarked (hbegins : begins j t ⟨c, r⟩ = none) (hhandles : handles j t ⟨c, r⟩ = none) :
    Unmarked (holding (part t x) + F) (next t x c r F) j where
  attempt k := by
    have hpart : holding (part t x) (.attempt j k) = 0 := if_neg (part_attempt t x)
    rw [next, after_attempt, Pi.add_apply, hpart, emits, hbegins]
    rfl
  run k := by
    have hpart : holding (part t x) (.run j k) = 0 := if_neg (part_run t x)
    rw [next, after_run, Pi.add_apply, hpart, emits, hhandles]
    rfl

/-- A process that is no call of a job leaves the parts of its calls. -/
theorem next_other (hne : ∀ w n, t ≠ .processOne w n j) {r' : Role} (hr : r'.working) :
    next t x c r F (.part j r') = (holding (part t x) + F) (.part j r') := by
  have hpart : ∀ x, holding (part t x) (.part j r') = 0 := by
    rintro ⟨l, d⟩
    refine if_neg fun hp => ?_
    cases t with
    | processOne w n i =>
        obtain ⟨r, -, hr'⟩ := Option.map_eq_some_iff.mp hp
        cases hr'
        exact hne w n rfl
    | _ => cases l <;> cases hp <;> exact hr
  rw [next, after_part hr, Pi.add_apply, Pi.add_apply, hpart, hpart]

/-- **Step lemma, the others.**  A process that is no call of the job leaves its tally. -/
theorem other (h : Moves env s t x c o r s' F) (hj : s.enqueued j)
    (hT : Tally s (holding (part t x) + F) j n) (hne : ∀ w n, t ≠ .processOne w n j) :
    Tally s' (next t x c r F) j n := by
  have hsame : ∀ r' : Role, r'.working →
      next t x c r F (.part j r') = (holding (part t x) + F) (.part j r') :=
    fun r' hr => next_other hne hr
  have huntold : Untold s s' j :=
    h.untold hj (fun w n _ ht _ => absurd ht (hne w n)) fun w n _ ht _ => absurd ht (hne w n)
  have hunmarked : Unmarked (holding (part t x) + F) (next t x c r F) j :=
    unmarked (begins_other hne _) (handles_other hne _)
  refine hT.keep huntold hunmarked
    ⟨counting_congr hsame, fun w => (hsame (.begun w) trivial).le, (tried_congr hsame).mp⟩ ?_ ?_
  · rintro (htried | hover)
    · exact Or.inl (Or.inl ((tried_congr hsame).mpr htried))
    · exact Or.inl (Or.inr (h.over_next hover))
  · intro q hq
    rcases dead_of_effect h.hop h.calm h.fit.2 h.effect hq with hq | ⟨w, n, k, ht, -⟩
    · exact Or.inl hq
    · exact absurd ht (hne w n)

end Moves

end Step

/-! ## A call moves -/

section Call

variable {env : Env} {s s' : World} {x : Phase × Report} {c : Cmd} {o : Oracle}
  {r : Except Err c.Resp} {F : Mark → ℕ} {w : WorkerId} {n i m : ℕ} {j : JobId} {d : Report}
  {l : Phase} {a b : Option Role}

/-- What becomes of the part of the call. -/
structure Becomes (a b : Option Role) : Prop where
  counting : ∀ w, b = some (.counted w) ↔ a = some (.counted w)
  begun : ∀ w, b = some (.begun w) → a = some (.begun w)
  ran : ∀ w, b = some (.ran w) → a = some (.begun w) ∨ a = some (.ran w)

theorem becomes_refl (a : Option Role) : Becomes a a :=
  ⟨fun _ => Iff.rfl, fun _ h => h, fun _ h => Or.inr h⟩

/-- A call that has not counted an attempt gives up its part, or one that has made it
comes further. -/
theorem becomes_handed (ha : ∀ w, a ≠ some (.counted w)) (hb : ∀ r ∈ b, ¬ r.working) :
    Becomes a b where
  counting w := ⟨fun h => absurd trivial (hb (.counted w) h), fun h => absurd h (ha w)⟩
  begun w h := absurd trivial (hb (.begun w) h)
  ran w h := absurd trivial (hb (.ran w) h)

theorem Becomes.onward (h : Becomes a b) :
    Onward (holding (a.map (Mark.part j)) + F) (holding (b.map (Mark.part j)) + F) j where
  counting := by
    rw [counting_part, counting_part, exists_congr h.counting]
  begun w := by
    rw [Pi.add_apply, Pi.add_apply]
    refine Nat.add_le_add_right ?_ _
    by_cases hb : b = some (.begun w)
    · rw [hb, h.begun w hb]
    · have hzero : holding (b.map (Mark.part j)) (.part j (.begun w)) = 0 := by
        refine if_neg fun heq => hb ?_
        obtain ⟨r', hr', heq'⟩ := Option.map_eq_some_iff.mp heq
        cases heq'
        exact hr'
      rw [hzero]
      exact Nat.zero_le _
  tried := by
    rw [tried_part, tried_part]
    rintro (⟨w, hb | hb⟩ | hF)
    · exact Or.inl ⟨w, Or.inl (h.begun w hb)⟩
    · exact Or.inl ⟨w, h.ran w hb⟩
    · exact Or.inr hF

namespace Moves

/-- After a command of a call the calls that have begun with the job are that call, by its
new part, and the others. -/
theorem next_part (hb : role w (report.next (.processOne w i j) x.2 c r) = b) {r' : Role}
    (hr : r'.working) : next (.processOne w i j) x c r F (.part j r') =
      (holding (b.map (Mark.part j)) + F) (.part j r') := by
  subst hb
  exact after_part hr

/-- **Step lemma, a call that counts nothing.** -/
theorem uncounted (h : Moves env s (.processOne w i j) x c o r s' F) (hj : s.enqueued j)
    (hT : Tally s (holding (part (.processOne w i j) x) + F) j n) (ha : role w x.2 = a)
    (hb : role w (report.next (.processOne w i j) x.2 c r) = b) (hab : Becomes a b)
    (hc : silent c)
    (hdone : ∀ w', a = some (.begun w') ∨ a = some (.ran w') →
      (b = some (.begun w') ∨ b = some (.ran w')) ∨ Over s' j ∨
        ∀ m : ℕ, limit s j = some (m : ℚ) → n < m)
    (hdead : ∀ k v, c = .write (.lpush k v) → ∀ m : ℕ, limit s j = some (m : ℚ) → m ≤ n) :
    Tally s' (next (.processOne w i j) x c r F) j n := by
  have hg : part (.processOne w i j) x = a.map (Mark.part j) := by
    obtain ⟨l, d⟩ := x
    exact congrArg (Option.map (Mark.part j)) ha
  have hsame : ∀ r' : Role, r'.working → next (.processOne w i j) x c r F (.part j r') =
      (holding (b.map (Mark.part j)) + F) (.part j r') := fun r' hr => next_part hb hr
  -- no attempt is counted and no handler is run
  have hunmarked : Unmarked (holding (part (.processOne w i j) x) + F)
      (next (.processOne w i j) x c r F) j := by
    refine unmarked ?_ ?_
    · unfold begins
      split
      · rename_i heq
        cases heq
        have hnone : _ = none := hc
        simp [hnone]
      · rfl
    · unfold handles
      split
      · rename_i heq
        cases heq
        exact hc.elim
      · rfl
  rw [hg] at hT hunmarked
  have hon := hab.onward (j := j) (F := F)
  -- neither the hash nor the row hears of an attempt
  have huntold : Untold s s' j := by
    refine h.untold hj ?_ ?_
    · rintro - - f - rfl
      exact hc
    · rintro - - p - rfl
      exact hc
  refine hT.keep huntold hunmarked ⟨?_, fun w' => ?_, fun ht => ?_⟩ ?_ ?_
  · exact (counting_congr hsame).trans hon.counting
  · rw [hsame (.begun w') trivial]
    exact hon.begun w'
  · exact hon.tried ((tried_congr hsame).mp ht)
  · rintro (htried | hover)
    · rw [tried_congr hsame, tried_part]
      rw [tried_part] at htried
      rcases htried with ⟨w', hw'⟩ | hF
      · rcases hdone w' hw' with hb' | hover | hlt
        · exact Or.inl (Or.inl (Or.inl ⟨w', hb'⟩))
        · exact Or.inl (Or.inr hover)
        · exact Or.inr hlt
      · exact Or.inl (Or.inl (Or.inr hF))
    · exact Or.inl (Or.inr (h.over_next hover))
  · intro q hq
    rcases dead_of_effect h.hop h.calm h.fit.2 h.effect hq with hq | ⟨w', n', k, -, hc⟩
    · exact Or.inl hq
    · exact Or.inr (hdead k j hc)

/-- A call that has begun with its job holds a part. -/
theorem part_eq (w : WorkerId) (i : ℕ) (j : JobId) (x : Phase × Report) :
    part (.processOne w i j) x = (role w x.2).map (Mark.part j) := rfl

/-- A call that claims its job is the only process that has begun with it. -/
theorem no_other (h : Moves env s (.processOne w i j) x c o r s' F) {r₀ : Role}
    (hr : role w x.2 = some r₀) (hc : r₀.claims = some w) {r' : Role} (hr' : r'.working) :
    F (.part j r') = 0 := by
  have hbal := h.balanced
  rw [part_eq, hr] at hbal
  obtain ⟨w', hw'⟩ := r'.claims_of_working hr'
  exact alone hbal hc hw'

/-- Nobody else has begun with the job. -/
theorem others_idle (h : Moves env s (.processOne w i j) x c o r s' F) {r₀ : Role}
    (hr : role w x.2 = some r₀) (hc : r₀.claims = some w) : ¬ Counting F j ∧ ¬ Tried F j :=
  idle_of_unworked fun _ => h.no_other hr hc

/-- A job that a call claims is not over. -/
theorem not_over (h : Moves env s (.processOne w i j) x c o r s' F) {r₀ : Role}
    (hr : role w x.2 = some r₀) (hc : r₀.claims = some w) : ¬ Over s j := by
  have hbal := h.balanced
  rw [part_eq, hr] at hbal
  have hpos := owned_of_claims hbal hc
  rintro (⟨q, hq⟩ | hcompleted)
  · have hzero := hbal.unique hpos (.dlq q) (by simp)
    exact absurd hq (List.count_eq_zero.mp hzero)
  · have hzero := hbal.unique hpos .completed (by simp)
    simp [owned, hcompleted] at hzero

/-- The verdict of a call follows from the attempts made and the limit. -/
theorem exhausted_iff {f : JobHash} (hk : Pace.Recalls s j d)
    (hd : d.recalls = some (f, f.attempts))
    (htried : (s.redis.jobs (redisKeys.job j)).tried = some (n : ℚ))
    (hlim : limit s j = some (m : ℚ)) : f.exhausted = decide (m ≤ n) := by
  obtain ⟨hid, hatt⟩ := hk f _ hd
  have hf : f.tried = some (n : ℚ) := (Pace.tried_congr hatt.symm).trans htried
  have hm : Worker.numberOr f.maxAttempts 3 = some (m : ℚ) := by
    rw [hid.maxAttempts]
    exact hlim
  rw [JobHash.exhausted, hf, hm]
  simp [Worker.geNumber]

/-- A call that stays in its part. -/
theorem stay (h : Moves env s (.processOne w i j) x c o r s' F) (hj : s.enqueued j)
    (hT : Tally s (holding (part (.processOne w i j) x) + F) j n) (hc : silent c)
    (hpush : ∀ k v, c ≠ .write (.lpush k v))
    (hr : role w (report.next (.processOne w i j) x.2 c r) = role w x.2) :
    Tally s' (next (.processOne w i j) x c r F) j n :=
  h.uncounted hj hT rfl hr (becomes_refl _) hc (fun _ hw' => Or.inl hw')
    fun k v hc' => absurd hc' (hpush k v)

/-- A rate-limited call gives its job back. -/
theorem release {f : JobHash} {ws : List Write} {r : Except Err (Cmd.multi ws).Resp}
    (h : Moves env s (.processOne w i j) (l, .read f) (.multi ws) o r s' F) (hj : s.enqueued j)
    (hT : Tally s (holding (part (.processOne w i j) (l, .read f)) + F) j n)
    (hr : role w (report.next (.processOne w i j) (.read f) (.multi ws) r) = none) :
    Tally s' (next (.processOne w i j) (l, .read f) (.multi ws) r F) j n := by
  refine h.uncounted (a := some (.idle w)) hj hT rfl hr ?_ trivial ?_ ?_
  · exact becomes_handed (by simp) (by simp)
  · rintro w' (hw | hw) <;> cases hw
  · rintro k v hc
    cases hc

/-- A call gives up its entry after the move. -/
theorem ack {k : Key} {q : ℕ} {v : String} {r : Except Err (Cmd.write (.lrem k q v)).Resp}
    (h : Moves env s (.processOne w i j) x (.write (.lrem k q v)) o r s' F) (hj : s.enqueued j)
    (hT : Tally s (holding (part (.processOne w i j) x) + F) j n)
    (ha : role w x.2 = some (.handed w))
    (hb : role w (report.next (.processOne w i j) x.2 (.write (.lrem k q v)) r) = none) :
    Tally s' (next (.processOne w i j) x (.write (.lrem k q v)) r F) j n := by
  refine h.uncounted hj hT ha hb ?_ trivial ?_ ?_
  · exact becomes_handed (by simp) (by simp)
  · rintro w' (hw | hw) <;> cases hw
  · rintro k v hc
    cases hc

/-- A call goes on to its failure without running a handler. -/
theorem skip {f : JobHash} {k : Key} {r : Except Err (Cmd.hgetall k).Resp}
    (h : Moves env s (.processOne w i j) (l, .begun f) (.hgetall k) o r s' F) (hj : s.enqueued j)
    (hT : Tally s (holding (part (.processOne w i j) (l, .begun f)) + F) j n)
    (hb : role w (report.next (.processOne w i j) (.begun f) (.hgetall k) r) = some (.ran w)) :
    Tally s' (next (.processOne w i j) (l, .begun f) (.hgetall k) r F) j n := by
  refine h.uncounted (a := some (.begun w)) hj hT rfl hb ⟨?_, ?_, ?_⟩ trivial ?_ ?_
  · simp
  · simp
  · rintro w' hw'
    cases hw'
    exact Or.inl rfl
  · rintro w' (hw | hw)
    · cases hw
      exact Or.inl (Or.inr rfl)
    · cases hw
  · rintro k v hc
    cases hc

/-- A job whose row is completed is over. -/
theorem over_complete {r : Except Err (Cmd.update j Verdict.completed.patch).Resp}
    (h : Moves env s (.processOne w i j) x (.update j Verdict.completed.patch) o r s' F)
    (hj : s.enqueued j) : Over s' j := by
  obtain ⟨⟨g, hco⟩, -⟩ := h.fit
  cases h.answer
  refine Or.inr ?_
  rw [Ownership.completed_update (hco.printed hj), if_pos rfl, hco.row j hj]
  rfl

/-- A job that is pushed to a dead-letter queue is over. -/
theorem over_bury {k : Key} {v : String} {r : Except Err (Cmd.write (.lpush k v)).Resp}
    (h : Moves env s (.processOne w i j) x (.write (.lpush k v)) o r s' F) : Over s' j := by
  have hperm := h.permits
  have hcalm := h.calm
  have hanswer := h.answer
  generalize x.1 = l at hperm hcalm
  cases hperm with
  | quiet hq => exact hq.elim
  | @bury _ _ _ f =>
      cases hanswer
      refine Or.inl ⟨f.queueName.getD "default", ?_⟩
      simp [Write.apply]
  | brokenBury => exact hcalm.elim
  | place ht => exact ht.elim

/-- A call completes its job. -/
theorem complete {r : Except Err (Cmd.update j Verdict.completed.patch).Resp}
    (h : Moves env s (.processOne w i j) (l, .succeeded)
      (.update j Verdict.completed.patch) o r s' F)
    (hj : s.enqueued j)
    (hT : Tally s (holding (part (.processOne w i j) (l, .succeeded)) + F) j n)
    (hb : role w (report.next (.processOne w i j) .succeeded
      (.update j Verdict.completed.patch) r) = some (.handed w)) :
    Tally s' (next (.processOne w i j) (l, .succeeded) (.update j Verdict.completed.patch) r F)
      j n := by
  have hover : Over s' j := h.over_complete hj
  refine h.uncounted (a := some (.ran w)) hj hT rfl hb ?_ rfl ?_ ?_
  · exact becomes_handed (by simp) (by simp [Role.working])
  · exact fun _ _ => Or.inr (Or.inl hover)
  · rintro k v hc
    cases hc

/-- A call buries its job: it has no attempts left. -/
theorem bury {f : JobHash} {e v : String} {k : Key} {r : Except Err (Cmd.write (.lpush k v)).Resp}
    (h : Moves env s (.processOne w i j) (l, .closed (.dead f e)) (.write (.lpush k v)) o r s' F)
    (hj : s.enqueued j)
    (hT : Tally s (holding (part (.processOne w i j) (l, .closed (.dead f e))) + F) j n)
    (hb : role w (report.next (.processOne w i j) (.closed (.dead f e)) (.write (.lpush k v)) r) =
      some (.handed w)) :
    Tally s' (next (.processOne w i j) (l, .closed (.dead f e)) (.write (.lpush k v)) r F) j n := by
  obtain ⟨-, hsound, hrecalls⟩ := h.known
  refine h.uncounted (a := some (.ran w)) hj hT rfl hb ?_ trivial ?_ ?_
  · exact becomes_handed (by simp) (by simp [Role.working])
  · exact fun _ _ => Or.inr (Or.inl h.over_bury)
  · intro _ _ _ m hlim
    have hdead := exhausted_iff hrecalls rfl hT.tried hlim
    rw [show f.exhausted = true from hsound] at hdead
    simpa using hdead.symm

/-- A call schedules a retry: there are attempts left. -/
theorem retry {f : JobHash} {now : ℕ} {score : ℚ} {v : String} {k : Key}
    {r : Except Err (Cmd.write (.zadd k score v)).Resp}
    (h : Moves env s (.processOne w i j) (l, .closed (.again f now)) (.write (.zadd k score v)) o r
      s' F)
    (hj : s.enqueued j)
    (hT : Tally s (holding (part (.processOne w i j) (l, .closed (.again f now))) + F) j n)
    (hb : role w (report.next (.processOne w i j) (.closed (.again f now))
      (.write (.zadd k score v)) r) = some (.handed w)) :
    Tally s' (next (.processOne w i j) (l, .closed (.again f now)) (.write (.zadd k score v)) r F)
      j n := by
  obtain ⟨-, hsound, hrecalls⟩ := h.known
  refine h.uncounted (a := some (.ran w)) hj hT rfl hb ?_ trivial ?_ ?_
  · exact becomes_handed (by simp) (by simp [Role.working])
  · refine fun _ _ => Or.inr (Or.inr fun m hlim => ?_)
    have hdead := exhausted_iff hrecalls rfl hT.tried hlim
    rw [show f.exhausted = false from hsound] at hdead
    simpa using hdead.symm
  · rintro k v hc
    cases hc

theorem next_attempt (q : ℚ) : next (.processOne w i j) x c r F (.attempt j q) =
    (if begins j (.processOne w i j) ⟨c, r⟩ = some q then 1 else 0) +
      (holding (part (.processOne w i j) x) + F) (.attempt j q) := by
  have hpart : holding (part (.processOne w i j) x) (.attempt j q) = 0 := if_neg (part_attempt _ x)
  rw [next, after_attempt, Pi.add_apply, hpart, zero_add]
  rfl

theorem next_run (q : ℚ) : next (.processOne w i j) x c r F (.run j q) =
    (if handles j (.processOne w i j) ⟨c, r⟩ = some q then 1 else 0) +
      (holding (part (.processOne w i j) x) + F) (.run j q) := by
  have hpart : holding (part (.processOne w i j) x) (.run j q) = 0 := if_neg (part_run _ x)
  rw [next, after_run, Pi.add_apply, hpart, zero_add]
  rfl

/-- The new part of a call that claims its job is the only one. -/
theorem next_alone (h : Moves env s (.processOne w i j) x c o r s' F) {r₀ : Role}
    (hr : role w x.2 = some r₀) (hc : r₀.claims = some w)
    (hb : role w (report.next (.processOne w i j) x.2 c r) = b) :
    (Counting (next (.processOne w i j) x c r F) j ↔ ∃ w', b = some (.counted w')) ∧
      (Tried (next (.processOne w i j) x c r F) j ↔
        ∃ w', b = some (.begun w') ∨ b = some (.ran w')) ∧
      ∀ w', 0 < next (.processOne w i j) x c r F (.part j (.begun w')) ↔ b = some (.begun w') := by
  have hsame : ∀ r' : Role, r'.working → next (.processOne w i j) x c r F (.part j r') =
      (holding (b.map (Mark.part j)) + F) (.part j r') := fun r' hr => next_part hb hr
  obtain ⟨hcounting, htried⟩ := h.others_idle hr hc
  refine ⟨?_, ?_, fun w' => ?_⟩
  · rw [counting_congr hsame, counting_part, or_iff_left hcounting]
  · rw [tried_congr hsame, tried_part, or_iff_left htried]
  · have hzero : F (.part j (.begun w')) = 0 := h.no_other hr hc trivial
    rw [hsame (.begun w') trivial, part_pos, hzero, or_iff_left (lt_irrefl 0)]

/-- The part of a call that claims its job is the only one. -/
theorem here_alone (h : Moves env s (.processOne w i j) x c o r s' F) {r₀ : Role}
    (hr : role w x.2 = some r₀) (hc : r₀.claims = some w) :
    (Counting (holding (part (.processOne w i j) x) + F) j ↔ ∃ w', r₀ = .counted w') ∧
      (Tried (holding (part (.processOne w i j) x) + F) j ↔
        ∃ w', r₀ = .begun w' ∨ r₀ = .ran w') := by
  obtain ⟨hcounting, htried⟩ := h.others_idle hr hc
  rw [part_eq, hr]
  refine ⟨?_, ?_⟩
  · rw [counting_part, or_iff_left hcounting]
    simp
  · rw [tried_part, or_iff_left htried]
    simp

/-- **Step lemma, the row.**  A call counts an attempt in the row: there are some left. -/
theorem count {f : JobHash} {r : Except Err (Cmd.update j activePatch).Resp}
    (h : Moves env s (.processOne w i j) (l, .read f) (.update j activePatch) o r s' F)
    (hT : Tally s (holding (part (.processOne w i j) (l, .read f)) + F) j n)
    (hb : role w (report.next (.processOne w i j) (.read f) (.update j activePatch) r) =
      some (.counted w)) :
    Tally s' (next (.processOne w i j) (l, .read f) (.update j activePatch) r F) j n := by
  have hidle : role w (.read f) = some (.idle w) := rfl
  have hprinted := h.printed (Identity.knows_call h.fit.2).enqueued
  obtain ⟨hcounting, htried⟩ := h.here_alone hidle rfl
  obtain ⟨hcounting', htried', hbegun'⟩ := h.next_alone hidle rfl hb
  have hnot := h.not_over hidle rfl
  have hzero : begins j (.processOne w i j) ⟨.update j activePatch, r⟩ = none := rfl
  have hzero' : handles j (.processOne w i j) ⟨.update j activePatch, r⟩ = none := rfl
  have hlt : ∀ m : ℕ, 1 ≤ m → limit s j = some (m : ℚ) → n < m := by
    intro m hpos hlim
    refine hT.lt hpos hlim ?_
    rw [htried]
    simpa using hnot
  cases h.answer
  refine ⟨hT.tried, fun k => ?_, fun k => ?_, fun ht => ?_, fun w' hw' => ?_, fun row hrow => ?_,
    fun m hpos hlim => ⟨(hlt m hpos hlim).le, fun heq => ?_, fun q hq => ?_⟩⟩
  · rw [next_attempt, hzero, hT.attempts]
    simp
  · rw [next_attempt, next_run, hzero, hzero']
    simpa using hT.runs k
  · rw [htried'] at ht
    simp at ht
  · rw [hbegun'] at hw'
    cases hw'
  · rw [Postgres.row?_update_printed hprinted, if_pos rfl, Option.map_eq_some_iff] at hrow
    obtain ⟨old, hold, rfl⟩ := hrow
    refine Or.inl ⟨hcounting'.mpr ⟨w, rfl⟩, ?_⟩
    rcases hT.row old hold with ⟨hc, -⟩ | ⟨-, heq⟩
    · rw [hcounting] at hc
      simp at hc
    · show old.attempts + 1 = n + 1
      rw [heq]
  · exact absurd heq (hlt m hpos hlim).ne
  · exact absurd (Or.inl ⟨q, hq⟩) hnot

/-- **Step lemma, the hash.**  A call counts its attempt in the hash. -/
theorem begin_next {f f' : JobHash} {k : Key} {r : Except Err (Cmd.write (.hset k f')).Resp}
    (h : Moves env s (.processOne w i j) (l, .counted f) (.write (.hset k f')) o r s' F)
    (hj : s.enqueued j)
    (hT : Tally s (holding (part (.processOne w i j) (l, .counted f)) + F) j n)
    (hf : f'.attempts = some (Worker.nextAttempt f.attempts))
    (hb : role w (report.next (.processOne w i j) (.counted f) (.write (.hset k f')) r) =
      some (.begun w)) :
    Tally s' (next (.processOne w i j) (l, .counted f) (.write (.hset k f')) r F) j (n + 1) := by
  have hcounted : role w (.counted f) = some (.counted w) := rfl
  obtain ⟨hcounting, htried⟩ := h.here_alone hcounted rfl
  obtain ⟨hcounting', htried', hbegun'⟩ := h.next_alone hcounted rfl hb
  have hnot := h.not_over hcounted rfl
  have hlt : ∀ m : ℕ, 1 ≤ m → limit s j = some (m : ℚ) → n < m := by
    intro m hpos hlim
    refine hT.lt hpos hlim ?_
    rw [htried]
    simpa using hnot
  have hpermits : (Report.counted f).permits j (.write (.hset k f')) := h.reports
  obtain rfl : k = redisKeys.job j := (Report.permits_hset hpermits (by simp)).1
  have hkeeps : f'.keepsIdentity := by
    cases h.permits with
    | quiet hq => exact hq
  have hid := h.later.identity j (.inl hj)
  obtain ⟨-, -, hrecalls⟩ := h.known
  -- what the call has read is what the hash still says
  have hread : Worker.numberOr f.attempts 0 = some (n : ℚ) :=
    (Pace.tried_congr (hrecalls f _ rfl).2.symm).trans hT.tried
  have hcount : Pace.Recalls s' j (.begun f) := hrecalls.count hkeeps hf h.answer
  have htold : (s'.redis.jobs (redisKeys.job j)).tried = some ((n + 1 : ℕ) : ℚ) := by
    rw [Pace.tried_next (hcount f _ rfl).2, JobHash.tried, hread, Nat.cast_succ]
    rfl
  have hnumber : begins j (.processOne w i j) ⟨.write (.hset (redisKeys.job j) f'), r⟩ =
      some ((n : ℚ) + 1) := by
    cases h.answer
    simp [begins, hf, Worker.nextAttempt, hread, Numeral.toNumber]
  have hzero : handles j (.processOne w i j) ⟨.write (.hset (redisKeys.job j) f'), r⟩ = none := rfl
  have hruns : ∀ q, next (.processOne w i j) (l, .counted f)
      (.write (.hset (redisKeys.job j) f')) r F (.run j q) ≤ (numbers n).count q := by
    intro q
    rw [next_run, hzero, ← hT.attempts]
    simpa using hT.runs q
  refine ⟨htold, fun q => ?_, fun q => ?_, fun _ => by omega, fun w' _ => ?_, fun row hrow => ?_,
    fun m hpos hlim => ?_⟩
  · rw [next_attempt, hnumber, hT.attempts, numbers_succ, List.count_append, add_comm]
    simp [List.count_singleton]
  · refine (hruns q).trans ?_
    rw [next_attempt, ← hT.attempts]
    exact Nat.le_add_left _ _
  · have hle := hruns ((n : ℚ) + 1)
    rw [count_next] at hle
    rw [Nat.cast_succ]
    omega
  · cases h.answer
    refine Or.inr ⟨fun hc => ?_, ?_⟩
    · rw [hcounting'] at hc
      simp at hc
    · rcases hT.row row hrow with ⟨-, heq⟩ | ⟨hc, -⟩
      · rw [heq, Nat.cast_succ]
      · exact absurd (hcounting.mpr ⟨w, rfl⟩) hc
  · rw [limit_same hid] at hlim
    have hm := hlt m hpos hlim
    refine ⟨hm, fun _ => Or.inl (htried'.mpr ⟨w, Or.inl rfl⟩), fun q hq => ?_⟩
    cases h.answer
    exact absurd (Or.inl ⟨q, hq⟩) hnot

/-- **Step lemma, the handler.**  A call runs its handler for the attempt it has counted. -/
theorem run_next {f : JobHash} {name : String} {v : Json} {y : Option ℚ}
    {r : Except Err (Cmd.handler name v y).Resp}
    (h : Moves env s (.processOne w i j) (l, .begun f) (.handler name v y) o r s' F)
    (hT : Tally s (holding (part (.processOne w i j) (l, .begun f)) + F) j n)
    (hy : y = f.tried.map (· + 1))
    (hb : role w (report.next (.processOne w i j) (.begun f) (.handler name v y) r) =
      some (.ran w)) :
    Tally s' (next (.processOne w i j) (l, .begun f) (.handler name v y) r F) j n := by
  have hbegun : role w (.begun f) = some (.begun w) := rfl
  obtain ⟨hcounting, htried⟩ := h.here_alone hbegun rfl
  obtain ⟨hcounting', htried', hbegun'⟩ := h.next_alone hbegun rfl hb
  obtain ⟨-, -, hrecalls⟩ := h.known
  have hpos : 1 ≤ n := hT.pos (htried.mpr ⟨w, Or.inl rfl⟩)
  have hfresh : (holding (part (.processOne w i j) (l, .begun f)) + F) (.run j n) = 0 := by
    refine hT.fresh w ?_
    rw [part_eq, hbegun, part_pos]
    exact Or.inl rfl
  -- the handler is given the number the hash has
  have hnumber : handles j (.processOne w i j) ⟨.handler name v y, r⟩ = some (n : ℚ) := by
    have hy' : y = some (n : ℚ) := by
      rw [hy, ← Pace.tried_next (hrecalls f _ rfl).2]
      exact hT.tried
    simp [handles, hy']
  have hzero : begins j (.processOne w i j) ⟨.handler name v y, r⟩ = none := rfl
  have hsame : s' = s := by
    have hanswer := h.answer
    simp only [World.answer] at hanswer
    split at hanswer <;> cases hanswer <;> rfl
  subst hsame
  refine ⟨hT.tried, fun k => ?_, fun k => ?_, fun _ => hpos, fun w' hw' => ?_, fun row hrow => ?_,
    fun m hm hlim => ?_⟩
  · rw [next_attempt, hzero, hT.attempts]
    simp
  · rw [next_attempt, next_run, hzero, hnumber]
    by_cases hk : (n : ℚ) = k
    · subst hk
      rw [hfresh, hT.attempts, count_last hpos]
      simp
    · have hle := hT.runs k
      simpa [hk] using hle
  · rw [hbegun'] at hw'
    cases hw'
  · rw [hcounting']
    have hold := hT.row row hrow
    rw [hcounting] at hold
    simpa using hold
  · obtain ⟨hle, -, hdead⟩ := hT.budget m hm hlim
    exact ⟨hle, fun _ => Or.inl (htried'.mpr ⟨w, Or.inr rfl⟩), hdead⟩

/-- **Step lemma, a call.**  A command of a call keeps the tally of its job, or counts one
attempt more. -/
theorem call (h : Moves env s (.processOne w i j) x c o r s' F) (hj : s.enqueued j)
    (hT : Tally s (holding (part (.processOne w i j) x) + F) j n) :
    ∃ n', Tally s' (next (.processOne w i j) x c r F) j n' := by
  have hturn : Turn w j x.2 c (report.next (.processOne w i j) x.2 c r) :=
    turn_of_effect h.known.1 h.reports h.effect
  obtain ⟨l, d⟩ := x
  generalize hd : report.next (.processOne w i j) d c r = d' at hturn
  have hb := congrArg (role w) hd
  cases hturn with
  | stay hc hpush hr => exact ⟨n, h.stay hj hT hc hpush (hb.trans hr)⟩
  | count => exact ⟨n, h.count hT hb⟩
  | release => exact ⟨n, h.release hj hT hb⟩
  | begin hf => exact ⟨n + 1, h.begin_next hj hT hf hb⟩
  | run hy hr => exact ⟨n, h.run_next hT hy (hb.trans hr)⟩
  | skip => exact ⟨n, h.skip hj hT hb⟩
  | complete => exact ⟨n, h.complete hj hT hb⟩
  | bury => exact ⟨n, h.bury hj hT hb⟩
  | retry => exact ⟨n, h.retry hj hT hb⟩
  | ack ha => exact ⟨n, h.ack hj hT ha hb⟩

end Moves

end Call

end Attempts

end NexusQueue
