/-
# The Redis commands in use

The part of the Redis keyspace that NexusQueue owns, by type of value, and the
effect of every command the source issues.  Commands whose reply the source
ignores are `Write`s: these are also what a `MULTI` may contain.

The lemmas describe each effect through the views the proofs use: the lists, the
sorted sets, the sets and the hashes.
-/
import NexusQueue.Types
import NexusQueue.SortedSet

namespace NexusQueue

/-- The Redis database.  A string carries the time it expires at, if any. -/
structure Redis where
  lists : Key → List String := fun _ => []
  sets : Key → Finset String := fun _ => ∅
  zsets : Key → SortedSet String ℚ := fun _ => ∅
  strings : Key → Option (String × Option ℕ) := fun _ => none
  jobs : Key → JobHash := fun _ => {}
  crons : Key → CronHash := fun _ => {}
  rates : Key → RateHash := fun _ => {}
  metas : Key → WorkerMeta := fun _ => {}

/-- Commands whose reply is not used.  `lrem k 0 v` removes every `v`,
`lrem k 1 v` the first one from the head; `ex` is in seconds. -/
inductive Write where
  | sadd (k : Key) (m : String)
  | srem (k : Key) (m : String)
  | lpush (k : Key) (v : String)
  | lrem (k : Key) (count : ℕ) (v : String)
  | zadd (k : Key) (score : ℚ) (m : String)
  | set (k : Key) (v : String) (ex : Option ℕ)
  | del (k : Key)
  | hset (k : Key) (fields : JobHash)
  | hsetCron (k : Key) (fields : CronHash)
  | hsetRate (k : Key) (fields : RateHash)
  | hsetMeta (k : Key) (fields : WorkerMeta)

/-- `LREM` from the head: up to `count` occurrences, all of them for `0`. -/
def removeFirst (v : String) : ℕ → List String → List String
  | 0, l => l.filter (· ≠ v)
  | 1, l => l.erase v
  | n + 2, l => removeFirst v (n + 1) (l.erase v)

/-- Whatever is removed, the rest was there before. -/
theorem removeFirst_sublist (v : String) (n : ℕ) (l : List String) :
    (removeFirst v n l).Sublist l := by
  fun_induction removeFirst v n l with
  | case1 l => exact List.filter_sublist
  | case2 l => exact List.erase_sublist
  | case3 l n ih => exact ih.trans List.erase_sublist

/-- The effect of a write at time `now`. -/
def Write.apply (now : ℕ) (r : Redis) : Write → Redis
  | .sadd k m => { r with sets := Function.update r.sets k (insert m (r.sets k)) }
  | .srem k m => { r with sets := Function.update r.sets k ((r.sets k).erase m) }
  | .lpush k v => { r with lists := Function.update r.lists k (v :: r.lists k) }
  | .lrem k n v => { r with lists := Function.update r.lists k (removeFirst v n (r.lists k)) }
  | .zadd k s m => { r with zsets := Function.update r.zsets k ((r.zsets k).zadd s m) }
  | .set k v ex =>
      { r with strings := Function.update r.strings k (some (v, ex.map (now + 1000 * ·))) }
  | .del k =>
      { lists := Function.update r.lists k []
        sets := Function.update r.sets k ∅
        zsets := Function.update r.zsets k ∅
        strings := Function.update r.strings k none
        jobs := Function.update r.jobs k {}
        crons := Function.update r.crons k {}
        rates := Function.update r.rates k {}
        metas := Function.update r.metas k {} }
  | .hset k f => { r with jobs := Function.update r.jobs k ((r.jobs k).merge f) }
  | .hsetCron k f => { r with crons := Function.update r.crons k ((r.crons k).merge f) }
  | .hsetRate k f => { r with rates := Function.update r.rates k ((r.rates k).merge f) }
  | .hsetMeta k f => { r with metas := Function.update r.metas k ((r.metas k).merge f) }

namespace Redis

/-- `MULTI … EXEC`. -/
def multi (now : ℕ) (r : Redis) (ws : List Write) : Redis := ws.foldl (Write.apply now) r

/-- The live value of a string key. -/
def get (now : ℕ) (r : Redis) (k : Key) : Option String :=
  match r.strings k with
  | none => none
  | some (v, none) => some v
  | some (v, some deadline) => if now < deadline then some v else none

/-- A key that is live now was live before, if nothing has written it since. -/
theorem get_earlier {now now' : ℕ} (h : now ≤ now') {r : Redis} {k : Key}
    (hlive : (r.get now' k).isSome) : (r.get now k).isSome := by
  unfold get at hlive ⊢
  rcases hk : r.strings k with _ | ⟨v, _ | deadline⟩
  · rw [hk] at hlive
    exact hlive
  · rfl
  · rw [hk] at hlive
    by_cases hlt : now' < deadline
    · simp [show now < deadline by omega]
    · simp [hlt] at hlive

/-- A value that is found is stored. -/
theorem get_of_truthy {now : ℕ} {r : Redis} {k : Key} {v : String}
    (h : truthy (r.get now k) = some v) : ∃ e, r.strings k = some (v, e) := by
  have hget : r.get now k = some v := (Option.filter_eq_some_iff.mp h).1
  unfold get at hget
  split at hget
  · cases hget
  · rename_i hs
    cases hget
    exact ⟨_, hs⟩
  · rename_i hs
    split at hget
    · cases hget
      exact ⟨_, hs⟩
    · cases hget

/-- `ZREM`: how many members were removed. -/
def zrem (r : Redis) (k : Key) (m : String) : ℕ × Redis :=
  if m ∈ r.zsets k then
    (1, { r with zsets := Function.update r.zsets k ((r.zsets k).zrem m) })
  else (0, r)

/-- Whatever the reply, the member is gone and nothing else has changed. -/
@[simp] theorem zrem_snd (r : Redis) (k : Key) (m : String) :
    (r.zrem k m).2 =
      { r with zsets := Function.update r.zsets k ((r.zsets k).zrem m) } := by
  unfold zrem
  split
  · rfl
  · rename_i h
    rw [SortedSet.zrem_of_not_mem h, Function.update_eq_self]

/-- The reply tells whether the member was there. -/
theorem zrem_fst (r : Redis) (k : Key) (m : String) :
    (r.zrem k m).1 = if m ∈ r.zsets k then 1 else 0 := by
  unfold zrem
  split <;> rfl

/-- `RPOPLPUSH`, also the effect of `BLMOVE … RIGHT LEFT`: the tail of `src`
becomes the head of `dst`. -/
def rpoplpush (r : Redis) (src dst : Key) : Option String × Redis :=
  match (r.lists src).getLast? with
  | none => (none, r)
  | some v =>
      let popped := Function.update r.lists src (r.lists src).dropLast
      (some v, { r with lists := Function.update popped dst (v :: popped dst) })

/-- What was moved is counted once less in the list it came from. -/
theorem count_dropLast {l : List String} {v : String} (h : l.getLast? = some v) (x : String) :
    l.dropLast.count x + (if v = x then 1 else 0) = l.count x := by
  obtain ⟨l', rfl⟩ := List.getLast?_eq_some_iff.mp h
  by_cases hv : v = x <;> simp [hv]

/-- `LRANGE`: both ends inclusive, negative positions count from the end. -/
def lrange (r : Redis) (k : Key) (start stop : ℤ) : List String :=
  let l := r.lists k
  let from' := if start < 0 then (start + l.length).toNat else start.toNat
  let upto := if stop < 0 then stop + l.length else stop
  (l.take (upto + 1).toNat).drop from'

/-- The whole list. -/
theorem lrange_all (r : Redis) (k : Key) : r.lrange k 0 (-1) = r.lists k := by
  simp [lrange]

end Redis

end NexusQueue
